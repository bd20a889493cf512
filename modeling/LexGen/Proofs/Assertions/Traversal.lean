-- SUMMARY: The loop over a worklist: on a finite graph it ends, asks for the successors of no node twice, and visits exactly what the roots lead to, in whatever order successors come.
import Mathlib.Data.List.Flatten
import Mathlib.Data.List.Perm.Subperm
import Mathlib.Tactic.Common
import LexGen.Proofs.Assertions.Closures

/-! # Traversals

Each turn of the loop takes one node off the worklist. A node that was visited before is dropped; any
other node is visited, and its successors are put on the worklist in an order that is left open. So a
node can stand on the worklist several times, and the worklist grows while it is worked off. What
bounds the loop is a count: one node is taken off in each turn, and nodes are put on only when a node
is visited for the first time. What makes it exact is that every successor of a visited node was
visited or is still on the worklist. -/

namespace LexGen

open Relation

/-- The nodes visited so far, the last one first, and the worklist, its top first. -/
structure Traversal (σ : Type) where
  seen : List σ
  work : List σ

namespace Traversal

variable {σ : Type} {next : σ → List σ} {nodes roots calls : List σ} {x y : Traversal σ} {n : Nat}
  {p q : σ}

/-! ## Turns -/

/-- Puts the roots on the worklist, on which `left` is left over, with nothing visited yet. This is
`Worklist.init` over any nodes. -/
def start (left roots : List σ) : Except Violation (Traversal σ) :=
  if left.isEmpty then .ok ⟨[], roots⟩ else .error .leftOver

/-- A turn takes the top off the worklist. The nodes in `calls` are those whose successors it asks
for; `new` has these successors in any order. -/
inductive Turn (next : σ → List σ) : Traversal σ → (calls : List σ) → Traversal σ → Prop
  | drop {q : σ} {seen work : List σ} (hq : q ∈ seen) :
      Turn next ⟨seen, q :: work⟩ [] ⟨seen, work⟩
  | visit {q : σ} {seen work new : List σ} (hq : q ∉ seen) (hnew : new.Perm (next q)) :
      Turn next ⟨seen, q :: work⟩ [q] ⟨q :: seen, new ++ work⟩

/-- Some turns, their number, and the nodes whose successors they ask for. -/
inductive Run (next : σ → List σ) : Traversal σ → Nat → (calls : List σ) → Traversal σ → Prop
  | refl (x : Traversal σ) : Run next x 0 [] x
  | step {x y z : Traversal σ} {n : Nat} {calls calls' : List σ} (hturn : Turn next x calls y)
      (hrun : Run next y n calls' z) : Run next x (n + 1) (calls ++ calls') z

/-- No turn is possible. -/
def Stopped (next : σ → List σ) (x : Traversal σ) : Prop :=
  ∀ calls y, ¬ Turn next x calls y

theorem exists_turn (next : σ → List σ) (h : x.work ≠ []) : ∃ calls y, Turn next x calls y := by
  obtain ⟨seen, work⟩ := x
  cases work with
  | nil => exact absurd rfl h
  | cons q work =>
    by_cases hq : q ∈ seen
    · exact ⟨_, _, .drop hq⟩
    · exact ⟨_, _, .visit hq (.refl _)⟩

theorem stopped_iff : x.Stopped next ↔ x.work = [] := by
  constructor
  · intro h
    by_contra hwork
    obtain ⟨calls, y, hturn⟩ := exists_turn next hwork
    exact h calls y hturn
  · intro hwork calls y hturn
    cases hturn <;> cases hwork

/-! ## Visits and the number of turns -/

namespace Turn

theorem seen_eq (h : Turn next x calls y) : y.seen = calls.reverse ++ x.seen := by
  cases h <;> rfl

theorem nodup_seen (h : Turn next x calls y) (hx : x.seen.Nodup) : y.seen.Nodup := by
  cases h with
  | drop => exact hx
  | visit hq => exact List.nodup_cons.mpr ⟨hq, hx⟩

theorem length_work (h : Turn next x calls y) :
    1 + y.work.length = x.work.length + (calls.flatMap next).length := by
  cases h with
  | drop =>
    simp only [List.flatMap_nil, List.length_nil, List.length_cons]
    omega
  | visit _ hnew =>
    simp only [List.flatMap_singleton, List.length_append, List.length_cons, hnew.length_eq]
    omega

end Turn

namespace Run

theorem seen_eq (h : Run next x n calls y) : y.seen = calls.reverse ++ x.seen := by
  induction h with
  | refl => rfl
  | step hturn _ ih => rw [ih, hturn.seen_eq, List.reverse_append, List.append_assoc]

theorem nodup_seen (h : Run next x n calls y) (hx : x.seen.Nodup) : y.seen.Nodup := by
  induction h with
  | refl => exact hx
  | step hturn _ ih => exact ih (hturn.nodup_seen hx)

/-- As many nodes were taken off the worklist as there were turns; what was put on it are the
successors that were asked for. -/
theorem length_work (h : Run next x n calls y) :
    n + y.work.length = x.work.length + (calls.flatMap next).length := by
  induction h with
  | refl => exact Nat.zero_add _
  | step hturn _ ih =>
    have hwork := hturn.length_work
    rw [List.flatMap_append, List.length_append]
    omega

theorem mem_calls_iff (h : Run next ⟨[], roots⟩ n calls x) : q ∈ calls ↔ q ∈ x.seen := by
  rw [h.seen_eq, List.append_nil, List.mem_reverse]

theorem nodup_calls (h : Run next ⟨[], roots⟩ n calls x) : calls.Nodup := by
  have hseen := h.nodup_seen List.nodup_nil
  rwa [h.seen_eq, List.append_nil, List.nodup_reverse] at hseen

/-- Since no node is asked for its successors twice, the turns are at most as many as the roots and
the edges out of `nodes`. -/
theorem length_le (h : Run next ⟨[], roots⟩ n calls x) (hnodes : ∀ q ∈ calls, q ∈ nodes) :
    n ≤ roots.length + (nodes.flatMap next).length := by
  have hwork : n + x.work.length = roots.length + (calls.flatMap next).length := h.length_work
  obtain ⟨called, hperm, hsub⟩ := h.nodup_calls.subperm hnodes
  have hle := (hsub.flatMap next).length_le
  rw [(hperm.flatMap_right next).length_eq] at hle
  omega

end Run

/-! ## What is visited -/

/-- The node was visited or is on the worklist. -/
def Met (x : Traversal σ) (q : σ) : Prop :=
  q ∈ x.seen ∨ q ∈ x.work

/-- A path of zero or more edges leads from a root to the node. -/
def Reachable (next : σ → List σ) (roots : List σ) (q : σ) : Prop :=
  ∃ r ∈ roots, ReflTransGen (fun a b => b ∈ next a) r q

theorem Reachable.mem_nodes (hroots : ∀ r ∈ roots, r ∈ nodes)
    (hclosed : ∀ a ∈ nodes, ∀ b ∈ next a, b ∈ nodes) (h : Reachable next roots q) : q ∈ nodes := by
  obtain ⟨r, hr, hpath⟩ := h
  have hinside : Graph.ReachesIn next nodes r q :=
    (Graph.reachesIn_iff hclosed).mpr ⟨hroots r hr, hpath⟩
  exact hinside.mem_right

theorem Turn.met (h : Turn next x calls y) (hp : x.Met p) : y.Met p := by
  cases h with
  | drop hq =>
    rcases hp with hp | hp
    · exact .inl hp
    · rcases List.mem_cons.mp hp with rfl | hp
      · exact .inl hq
      · exact .inr hp
  | visit =>
    rcases hp with hp | hp
    · exact .inl (List.mem_cons_of_mem _ hp)
    · rcases List.mem_cons.mp hp with rfl | hp
      · exact .inl List.mem_cons_self
      · exact .inr (List.mem_append_right _ hp)

/-- The nodes met are reachable, the roots are among them, and no edge leaves them from a node that
was visited. -/
structure Spans (next : σ → List σ) (roots : List σ) (x : Traversal σ) : Prop where
  root : ∀ r ∈ roots, x.Met r
  successor : ∀ a ∈ x.seen, ∀ b ∈ next a, x.Met b
  reachable : ∀ q, x.Met q → Reachable next roots q

namespace Spans

theorem start (next : σ → List σ) (roots : List σ) : Spans next roots ⟨[], roots⟩ := by
  constructor
  case root => exact fun r hr => .inr hr
  case successor => exact fun a ha => absurd ha List.not_mem_nil
  case reachable =>
    intro q hq
    rcases hq with hq | hq
    · exact absurd hq List.not_mem_nil
    · exact ⟨q, hq, .refl⟩

theorem turn (h : x.Spans next roots) (hturn : Turn next x calls y) : y.Spans next roots := by
  have hroot : ∀ r ∈ roots, y.Met r := fun r hr => hturn.met (h.root r hr)
  have hsuccessor : ∀ a ∈ x.seen, ∀ b ∈ next a, y.Met b :=
    fun a ha b hb => hturn.met (h.successor a ha b hb)
  cases hturn with
  | drop =>
    refine ⟨hroot, hsuccessor, fun p hp => h.reachable p ?_⟩
    exact hp.imp_right (List.mem_cons_of_mem _)
  | @visit q seen work new hq hnew =>
    refine ⟨hroot, fun a ha b hb => ?_, fun p hp => ?_⟩
    · rcases List.mem_cons.mp ha with rfl | ha
      · exact .inr (List.mem_append_left _ (hnew.mem_iff.mpr hb))
      · exact hsuccessor a ha b hb
    · have hreachable : Reachable next roots q := h.reachable q (.inr List.mem_cons_self)
      rcases hp with hp | hp
      · rcases List.mem_cons.mp hp with rfl | hp
        · exact hreachable
        · exact h.reachable p (.inl hp)
      · rcases List.mem_append.mp hp with hp | hp
        · obtain ⟨r, hr, hpath⟩ := hreachable
          exact ⟨r, hr, hpath.tail (hnew.mem_iff.mp hp)⟩
        · exact h.reachable p (.inr (List.mem_cons_of_mem _ hp))

theorem run (h : x.Spans next roots) (hrun : Run next x n calls y) : y.Spans next roots := by
  induction hrun with
  | refl => exact h
  | step hturn _ ih => exact ih (h.turn hturn)

theorem mem_seen_iff (h : x.Spans next roots) (hwork : x.work = []) :
    q ∈ x.seen ↔ Reachable next roots q := by
  have hseen : ∀ p, x.Met p → p ∈ x.seen := by
    intro p hp
    rw [Met, hwork] at hp
    exact hp.resolve_right List.not_mem_nil
  constructor
  · exact fun hq => h.reachable q (.inl hq)
  · intro ⟨r, hr, hpath⟩
    induction hpath with
    | refl => exact hseen r (h.root r hr)
    | tail _ hab ih => exact hseen _ (h.successor _ ih _ hab)

end Spans

/-! ## Walks -/

section

variable [BEq σ] [LawfulBEq σ]

/-- A walk is a run that takes the successors in the order of their listing. -/
theorem run_walk {fresh work seen : List σ} (hclosed : ∀ a ∈ nodes, ∀ b ∈ next a, b ∈ nodes)
    (hwork : ∀ q ∈ work, q ∈ nodes) (hfresh : ∀ q ∈ nodes, q ∈ fresh ↔ q ∉ seen) :
    ∃ n, Run next ⟨seen, work⟩ n (Graph.walk next fresh work)
      ⟨(Graph.walk next fresh work).reverse ++ seen, []⟩ := by
  -- A walk keeps the nodes that are fresh, the loop those that it has seen: among `nodes`, each is the
  -- complement of the other, and every visit keeps it so.
  fun_induction Graph.walk next fresh work generalizing seen with
  | case1 => exact ⟨0, .refl _⟩
  | case2 fresh q work hq ih =>
    have hq : q ∈ fresh := by simpa using hq
    have hqnodes : q ∈ nodes := hwork q List.mem_cons_self
    have hunseen : q ∉ seen := (hfresh q hqnodes).mp hq
    have hwork' : ∀ p ∈ next q ++ work, p ∈ nodes := by
      intro p hp
      rcases List.mem_append.mp hp with hp | hp
      · exact hclosed q hqnodes p hp
      · exact hwork p (List.mem_cons_of_mem _ hp)
    have hfresh' : ∀ p ∈ nodes, p ∈ Graph.without q fresh ↔ p ∉ q :: seen := by
      intro p hp
      rw [Graph.mem_without, hfresh p hp, List.mem_cons, not_or, and_comm]
    obtain ⟨n, hrun⟩ := ih hwork' hfresh'
    refine ⟨n + 1, ?_⟩
    rw [List.reverse_cons, List.append_assoc]
    exact .step (.visit hunseen (.refl _)) hrun
  | case3 fresh q work hq ih =>
    have hq : q ∉ fresh := by simpa using hq
    have hseen : q ∈ seen := by
      by_contra hunseen
      exact hq ((hfresh q (hwork q List.mem_cons_self)).mpr hunseen)
    obtain ⟨n, hrun⟩ := ih (fun p hp => hwork p (List.mem_cons_of_mem _ hp)) hfresh
    exact ⟨n + 1, .step (.drop hseen) hrun⟩

theorem mem_walk_iff (hroots : ∀ r ∈ roots, r ∈ nodes)
    (hclosed : ∀ a ∈ nodes, ∀ b ∈ next a, b ∈ nodes) :
    q ∈ Graph.walk next nodes roots ↔ Reachable next roots q := by
  rw [Graph.mem_walk]
  refine exists_congr fun r => and_congr_right fun hr => ?_
  rw [Graph.reachesIn_iff hclosed, and_iff_right (hroots r hr)]

/-- How the loop goes that begins with `roots` on the worklist and nothing visited, whatever the order
in which it takes successors. -/
structure Thorough (next : σ → List σ) (nodes roots : List σ) : Prop where
  /-- There are at most as many turns as roots and edges. -/
  bounded : ∀ {n calls x}, Run next ⟨[], roots⟩ n calls x →
    n ≤ roots.length + (nodes.flatMap next).length
  ends : ∀ {n calls x}, Run next ⟨[], roots⟩ n calls x →
    ∃ n' calls' y, Run next x n' calls' y ∧ y.Stopped next
  once : ∀ {n calls x}, Run next ⟨[], roots⟩ n calls x →
    calls.Nodup ∧ ∀ q, q ∈ calls ↔ q ∈ x.seen
  /-- What the loop leaves on the worklist lets the next traversal start. -/
  restarts : ∀ {n calls x}, Run next ⟨[], roots⟩ n calls x → x.Stopped next →
    x.work = [] ∧ ∀ roots', start x.work roots' = .ok ⟨[], roots'⟩
  reached : ∀ {n calls x}, Run next ⟨[], roots⟩ n calls x → x.Stopped next →
    ∀ q, q ∈ x.seen ↔ Reachable next roots q
  walked : ∃ n, Run next ⟨[], roots⟩ n (Graph.walk next nodes roots)
    ⟨(Graph.walk next nodes roots).reverse, []⟩
  /-- A walk meets the same nodes if the successors are listed in another way. -/
  unordered : ∀ next' : σ → List σ, (∀ a b, b ∈ next' a ↔ b ∈ next a) →
    ∀ q, q ∈ Graph.walk next' nodes roots ↔ q ∈ Graph.walk next nodes roots

/-- If no edge leaves the finitely many `nodes`, the loop ends and visits what the roots lead to, each
node once. -/
theorem thorough_of_closed (hroots : ∀ r ∈ roots, r ∈ nodes)
    (hclosed : ∀ a ∈ nodes, ∀ b ∈ next a, b ∈ nodes) : Thorough next nodes roots := by
  have hspans : ∀ {n calls x}, Run next ⟨[], roots⟩ n calls x → x.Spans next roots :=
    fun h => (Spans.start next roots).run h
  have hmet : ∀ {n calls x}, Run next ⟨[], roots⟩ n calls x → ∀ q, x.Met q → q ∈ nodes :=
    fun h q hq => ((hspans h).reachable q hq).mem_nodes hroots hclosed
  constructor
  case bounded =>
    intro n calls x h
    exact h.length_le fun q hq => hmet h q (.inl (h.mem_calls_iff.mp hq))
  case ends =>
    intro n calls x h
    have hfresh : ∀ q ∈ nodes, q ∈ nodes.filter (!x.seen.contains ·) ↔ q ∉ x.seen := by
      intro q hq
      simp [hq]
    obtain ⟨n', hrun⟩ := run_walk hclosed (fun q hq => hmet h q (.inr hq)) hfresh
    exact ⟨n', _, _, hrun, stopped_iff.mpr rfl⟩
  case once => exact fun h => ⟨h.nodup_calls, fun q => h.mem_calls_iff⟩
  case restarts =>
    intro n calls x _ hstopped
    have hwork := stopped_iff.mp hstopped
    refine ⟨hwork, fun roots' => ?_⟩
    rw [hwork]
    rfl
  case reached => exact fun h hstopped q => (hspans h).mem_seen_iff (stopped_iff.mp hstopped)
  case walked =>
    have hfresh : ∀ q ∈ nodes, q ∈ nodes ↔ q ∉ ([] : List σ) :=
      fun q hq => iff_of_true hq List.not_mem_nil
    obtain ⟨n, hrun⟩ := run_walk hclosed hroots hfresh
    rw [List.append_nil] at hrun
    exact ⟨n, hrun⟩
  case unordered =>
    intro next' hnext q
    have hclosed' : ∀ a ∈ nodes, ∀ b ∈ next' a, b ∈ nodes :=
      fun a ha b hb => hclosed a ha b ((hnext a b).mp hb)
    rw [mem_walk_iff hroots hclosed, mem_walk_iff hroots hclosed']
    simp only [Reachable, hnext]

/-- The root is on the worklist twice, `0` and `3` lead to themselves, and no path leads to `4`. -/
theorem thorough_of_closed_cycles :
    ∃ next : Nat → List Nat, next 0 = [1, 0] ∧ next 4 = [3] ∧
      Thorough next [0, 1, 2, 3, 4] [1, 1] ∧
      Graph.walk next [0, 1, 2, 3, 4] [1, 1] = [1, 2, 3, 0] ∧
      ∀ n calls x, Run next ⟨[], [1, 1]⟩ n calls x → x.Stopped next →
        n ≤ 10 ∧ 3 ∈ calls ∧ 4 ∉ calls := by
  have h : Thorough (fun n => if n < 3 then [n + 1, n - 1] else [3]) [0, 1, 2, 3, 4] [1, 1] :=
    thorough_of_closed (by decide) (by decide)
  refine ⟨_, rfl, rfl, h, by cbv, fun n calls x hrun hstopped => ⟨h.bounded hrun, ?_, ?_⟩⟩
  · rw [(h.once hrun).2, h.reached hrun hstopped]
    exact ⟨1, by decide, (ReflTransGen.single (b := 2) (by decide)).tail (by decide)⟩
  · rw [(h.once hrun).2, h.reached hrun hstopped]
    intro hreachable
    have hmem : 4 ∈ [0, 1, 2, 3] := hreachable.mem_nodes (by decide) (by decide)
    exact absurd hmem (by decide)

end

end Traversal

end LexGen
