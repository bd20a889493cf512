-- SUMMARY: What a walk meets and which nodes are dead ends, in terms of paths.
import Mathlib.Logic.Relation
import LexGen.Graph

/-! # Reachability

A walk meets exactly the nodes that a path from its work list leads to, as long as the path stays
among the nodes that were fresh at first. Backwards along edges, the walk finds the nodes that lead
to a goal; the others are the dead ends. -/

namespace LexGen.Graph

open Relation

variable {σ ℓ : Type} [BEq σ] [LawfulBEq σ]

/-! ## Walks -/

/-- A path from `p` to `q` that meets only nodes of `fresh`. -/
def ReachesIn (next : σ → List σ) (fresh : List σ) (p q : σ) : Prop :=
  p ∈ fresh ∧ ReflTransGen (fun a b => b ∈ next a ∧ b ∈ fresh) p q

theorem mem_without {p q : σ} {nodes : List σ} : p ∈ without q nodes ↔ p ∈ nodes ∧ p ≠ q := by
  simp [without]

omit [BEq σ] [LawfulBEq σ] in
theorem ReachesIn.mono {next : σ → List σ} {fresh fresh' : List σ} {p q : σ}
    (h : ReachesIn next fresh p q) (hsub : fresh ⊆ fresh') : ReachesIn next fresh' p q :=
  ⟨hsub h.1, ReflTransGen.mono (fun _ _ hab => ⟨hab.1, hsub hab.2⟩) _ _ h.2⟩

omit [BEq σ] [LawfulBEq σ] in
theorem ReachesIn.tail {next : σ → List σ} {fresh : List σ} {p q r : σ}
    (h : ReachesIn next fresh p q) (hr : r ∈ next q) (hfresh : r ∈ fresh) :
    ReachesIn next fresh p r :=
  ⟨h.1, h.2.tail ⟨hr, hfresh⟩⟩

omit [BEq σ] [LawfulBEq σ] in
theorem ReachesIn.mem_right {next : σ → List σ} {fresh : List σ} {p q : σ}
    (h : ReachesIn next fresh p q) : q ∈ fresh := by
  rcases h.2.cases_tail with rfl | ⟨_, _, hq⟩
  · exact h.1
  · exact hq.2

/-- Behind its last visit of `q`, a path goes on from a successor of `q` and avoids `q`. -/
theorem ReachesIn.avoid {next : σ → List σ} {fresh : List σ} {p r : σ} (q : σ)
    (h : ReachesIn next fresh p r) :
    r = q ∨ ReachesIn next (without q fresh) p r ∨
      ∃ s ∈ next q, ReachesIn next (without q fresh) s r := by
  obtain ⟨hp, hpath⟩ := h
  induction hpath with
  | refl =>
    by_cases hpq : p = q
    · exact .inl hpq
    · exact .inr (.inl ⟨mem_without.mpr ⟨hp, hpq⟩, .refl⟩)
  | @tail a b _ hab ih =>
    obtain ⟨hnext, hfresh⟩ := hab
    by_cases hbq : b = q
    · exact .inl hbq
    · have hb : b ∈ without q fresh := mem_without.mpr ⟨hfresh, hbq⟩
      rcases ih with rfl | h | ⟨s, hs, h⟩
      · exact .inr (.inr ⟨b, hnext, hb, .refl⟩)
      · exact .inr (.inl (h.tail hnext hb))
      · exact .inr (.inr ⟨s, hs, h.tail hnext hb⟩)

theorem mem_walk {next : σ → List σ} {fresh work : List σ} {p : σ} :
    p ∈ walk next fresh work ↔ ∃ q ∈ work, ReachesIn next fresh q p := by
  fun_induction walk next fresh work with
  | case1 => simp
  | case2 fresh q work hq ih =>
    have hq : q ∈ fresh := by simpa using hq
    have hsub : without q fresh ⊆ fresh := fun _ h => (mem_without.mp h).1
    rw [List.mem_cons, ih]
    constructor
    · intro h
      rcases h with rfl | ⟨r, hr, h⟩
      · exact ⟨p, List.mem_cons_self, hq, .refl⟩
      · rcases List.mem_append.mp hr with hr | hr
        · have hstep : ReachesIn next fresh q r := ⟨hq, .single ⟨hr, (h.mono hsub).1⟩⟩
          exact ⟨q, List.mem_cons_self, hq, hstep.2.trans (h.mono hsub).2⟩
        · exact ⟨r, List.mem_cons_of_mem _ hr, h.mono hsub⟩
    · intro ⟨r, hr, h⟩
      rcases h.avoid q with rfl | h' | ⟨s, hs, h'⟩
      · exact .inl rfl
      · rcases List.mem_cons.mp hr with rfl | hr
        · exact absurd rfl (mem_without.mp h'.1).2
        · exact .inr ⟨r, List.mem_append_right _ hr, h'⟩
      · exact .inr ⟨s, List.mem_append_left _ hs, h'⟩
  | case3 fresh q work hq ih =>
    have hq : q ∉ fresh := by simpa using hq
    rw [ih]
    constructor
    · intro ⟨r, hr, h⟩
      exact ⟨r, List.mem_cons_of_mem _ hr, h⟩
    · intro ⟨r, hr, h⟩
      rcases List.mem_cons.mp hr with rfl | hr
      · exact absurd h.1 hq
      · exact ⟨r, hr, h⟩

omit [BEq σ] [LawfulBEq σ] in
/-- Where `fresh` is closed under successors, every path from one of its nodes stays inside. -/
theorem reachesIn_iff {next : σ → List σ} {fresh : List σ}
    (hclosed : ∀ a ∈ fresh, ∀ b ∈ next a, b ∈ fresh) {p q : σ} :
    ReachesIn next fresh p q ↔ p ∈ fresh ∧ ReflTransGen (fun a b => b ∈ next a) p q := by
  constructor
  · intro ⟨hp, h⟩
    exact ⟨hp, ReflTransGen.mono (fun _ _ hab => hab.1) _ _ h⟩
  · intro ⟨hp, h⟩
    induction h with
    | refl => exact ⟨hp, .refl⟩
    | tail _ hab ih => exact ih.tail hab (hclosed _ ih.mem_right _ hab)

/-! ## Dead ends -/

/-- A path along `edges` from `p` to `q`, possibly without any edge. -/
def LeadsTo (edges : List (Edge σ ℓ)) : σ → σ → Prop :=
  ReflTransGen fun a b => ∃ e ∈ edges, e.source = a ∧ e.target = b

theorem mem_sources {edges : List (Edge σ ℓ)} {p q : σ} :
    p ∈ sources edges q ↔ ∃ e ∈ edges, e.source = p ∧ e.target = q := by
  simp only [sources, List.mem_map, List.mem_filter, beq_iff_eq]
  constructor
  · intro ⟨e, ⟨he, htarget⟩, hsource⟩
    exact ⟨e, he, hsource, htarget⟩
  · intro ⟨e, he, hsource, htarget⟩
    exact ⟨e, ⟨he, htarget⟩, hsource⟩

theorem mem_leadingTo {edges : List (Edge σ ℓ)} {goals : List σ} {p : σ} :
    p ∈ leadingTo edges goals ↔ ∃ q ∈ goals, LeadsTo edges p q := by
  have hclosed : ∀ a ∈ goals ++ edges.map (·.source), ∀ b ∈ sources edges a,
      b ∈ goals ++ edges.map (·.source) := by
    intro a _ b hb
    obtain ⟨e, he, rfl, -⟩ := mem_sources.mp hb
    exact List.mem_append_right _ (List.mem_map_of_mem he)
  have hswap : ∀ q, ReflTransGen (fun a b => b ∈ sources edges a) q p ↔ LeadsTo edges p q := by
    intro q
    rw [LeadsTo, ← reflTransGen_swap]
    simp only [mem_sources]
  rw [leadingTo, mem_walk]
  constructor
  · intro ⟨q, hq, h⟩
    exact ⟨q, hq, (hswap q).mp ((reachesIn_iff hclosed).mp h).2⟩
  · intro ⟨q, hq, h⟩
    exact ⟨q, hq, (reachesIn_iff hclosed).mpr ⟨List.mem_append_left _ hq, (hswap q).mpr h⟩⟩

/-- The order of edges and goals does not matter, nor does their number. -/
theorem deadEnds_congr {nodes goals goals' : List σ} {edges edges' : List (Edge σ ℓ)}
    (hedges : ∀ e, e ∈ edges ↔ e ∈ edges') (hgoals : ∀ q, q ∈ goals ↔ q ∈ goals') :
    deadEnds nodes edges goals = deadEnds nodes edges' goals' := by
  have hleads : LeadsTo edges = LeadsTo edges' := by
    simp only [LeadsTo, hedges]
  refine List.filter_congr fun q _ => congrArg (!·) ?_
  rw [Bool.eq_iff_iff, List.contains_iff_mem, List.contains_iff_mem, mem_leadingTo, mem_leadingTo,
    hleads]
  simp only [hgoals]

theorem mem_deadEnds {nodes : List σ} {edges : List (Edge σ ℓ)} {goals : List σ} {p : σ} :
    p ∈ deadEnds nodes edges goals ↔ p ∈ nodes ∧ ¬ ∃ q ∈ goals, LeadsTo edges p q := by
  rw [deadEnds, List.mem_filter, ← mem_leadingTo]
  simp

end LexGen.Graph
