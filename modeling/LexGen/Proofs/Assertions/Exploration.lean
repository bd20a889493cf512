-- SUMMARY: The subset construction with its checks: sets are numbered as they are found, transitions are recorded one by one, and no check fails.
import Mathlib
import LexGen.Proofs.Assertions.Closures
import LexGen.Proofs.Nfa.Subsets

/-! # The subset construction step by step

The search holds what it has found so far: the composed states in their order, the transitions
between their numbers, and the numbers that are still to be looked at. One visit reads one character
from one composed state. The visits along the alphabet add exactly the new successors of a set, so
the search goes through the same sets as the one that is defined by them. -/

namespace LexGen

/-! ## The search -/

/-- A state of an automaton: a simple one, or one that is composed of others. -/
inductive Vertex where
  | simple (q : Nat)
  | composed (members : List Nat)
  deriving DecidableEq

/-- What the search has found. -/
structure Exploration where
  found : List Vertex
  table : List (Edge Nat Char)
  accepting : List Nat
  stack : List Nat

namespace Exploration

/-- The number of the state composed of `members`, and whether it is new. -/
def intern (m : Nfa) (x : Exploration) (members : List Nat) :
    Except Violation (Exploration × Nat × Bool) :=
  if members.isEmpty then .error .noMembers
  else if x.found.contains (.composed members) then
    .ok (x, x.found.idxOf (.composed members), false)
  else
    let id := x.found.length
    let accepting := if m.isFinal members then x.accepting ++ [id] else x.accepting
    .ok ({ x with found := x.found ++ [.composed members], accepting }, id, true)

/-- The members of the state with the given number. -/
def origin (x : Exploration) (id : Nat) : Except Violation (List Nat) :=
  match x.found[id]? with
  | some (.composed members) => .ok members
  | some (.simple _) => .error (.notComposed id)
  | none => .error (.noVertex id)

/-- Records a transition. -/
def record (x : Exploration) (e : Edge Nat Char) : Except Violation Exploration :=
  if x.table.any fun e' => e'.source == e.source && e'.label == e.label then
    .error (.repeated e.source e.label)
  else .ok { x with table := x.table ++ [e] }

/-- Reads one character from the state with the given number and members. -/
def visit (m : Nfa) (closures : List (List Nat)) (id : Nat) (members : List Nat)
    (x : Exploration) (c : Char) : Except Violation Exploration :=
  let target := m.advance closures members c
  if target.isEmpty then .ok x
  else do
    let (x, next, fresh) ← x.intern m target
    let x ← x.record ⟨id, c, next⟩
    return if fresh then { x with stack := next :: x.stack } else x

/-- The sets not found yet, and the states still to be looked at. -/
def pending (m : Nfa) (x : Exploration) : Nat :=
  (sublists (List.range m.size)).countP (fun s => !x.found.contains (.composed s)) +
    x.stack.length

variable {m : Nfa} {closures : List (List Nat)} {x y : Exploration} {id : Nat} {c : Char}
  {s members : List Nat}

theorem intern_of_mem (hs : s ≠ []) (hfound : .composed s ∈ x.found) :
    x.intern m s = .ok (x, x.found.idxOf (.composed s), false) := by
  rw [intern, if_neg (by simpa using hs), if_pos (List.contains_iff_mem.mpr hfound)]

theorem intern_of_not_mem (hs : s ≠ []) (hfound : .composed s ∉ x.found) :
    x.intern m s = .ok ({ x with
      found := x.found ++ [.composed s]
      accepting := if m.isFinal s then x.accepting ++ [x.found.length] else x.accepting },
      x.found.length, true) := by
  rw [intern, if_neg (by simpa using hs), if_neg (by simpa using hfound)]

theorem record_eq_ok {e : Edge Nat Char} : x.record e = .ok y ↔
    (∀ e' ∈ x.table, e'.source = e.source → e'.label ≠ e.label) ∧
      { x with table := x.table ++ [e] } = y := by
  have hany : (x.table.any fun e' => e'.source == e.source && e'.label == e.label) = false ↔
      ∀ e' ∈ x.table, e'.source = e.source → e'.label ≠ e.label := by simp
  unfold record
  split
  · rename_i h
    rw [← hany, h]
    simp
  · rename_i h
    rw [← hany, Except.ok.injEq]
    simp [h]

theorem pending_push_le (hs : s ∈ sublists (List.range m.size)) (hnew : .composed s ∉ x.found)
    {table : List (Edge Nat Char)} {accepting : List Nat} :
    pending m ⟨x.found ++ [.composed s], table, accepting, id :: x.stack⟩ ≤ x.pending m := by
  have hlt : (sublists (List.range m.size)).countP
        (fun t => !(x.found ++ [Vertex.composed s]).contains (Vertex.composed t)) <
      (sublists (List.range m.size)).countP (fun t => !x.found.contains (.composed t)) := by
    refine countP_lt_countP hs (by simp) (by simpa using hnew) fun t ht => ?_
    simp only [List.contains_eq_mem, List.mem_append, Bool.not_eq_true', decide_eq_false_iff_not,
      not_or] at ht ⊢
    exact ht.1
  simp only [pending, List.length_cons]
  omega

/-- A visit leads nowhere, or to a set found before, or to a new one, which is then put on the stack. -/
theorem visit_cases (h : x.visit m closures id members c = .ok y) :
    m.advance closures members c = [] ∧ y = x ∨
      (∀ e ∈ x.table, e.source = id → e.label ≠ c) ∧
        ((∃ next, y = { x with table := x.table ++ [⟨id, c, next⟩] }) ∨
          ∃ accepting, .composed (m.advance closures members c) ∉ x.found ∧
            y = ⟨x.found ++ [.composed (m.advance closures members c)],
              x.table ++ [⟨id, c, x.found.length⟩], accepting, x.found.length :: x.stack⟩) := by
  unfold visit at h
  by_cases hempty : m.advance closures members c = []
  · rw [hempty] at h
    exact .inl ⟨hempty, (Except.ok.inj h).symm⟩
  · dsimp only at h
    rw [if_neg (by simpa using hempty)] at h
    refine .inr ?_
    by_cases hfound : .composed (m.advance closures members c) ∈ x.found
    · rw [intern_of_mem hempty hfound, ok_bind] at h
      obtain ⟨z, hz, h⟩ := bind_eq_ok_iff.mp h
      obtain ⟨hlabel, rfl⟩ := record_eq_ok.mp hz
      exact ⟨hlabel, .inl ⟨_, (Except.ok.inj h).symm⟩⟩
    · rw [intern_of_not_mem hempty hfound, ok_bind] at h
      obtain ⟨z, hz, h⟩ := bind_eq_ok_iff.mp h
      obtain ⟨hlabel, rfl⟩ := record_eq_ok.mp hz
      exact ⟨hlabel, .inr ⟨_, hfound, (Except.ok.inj h).symm⟩⟩

/-- A visit puts a state on the stack only when it has found a new set. -/
theorem pending_visit_le (h : x.visit m closures id members c = .ok y) :
    y.pending m ≤ x.pending m := by
  obtain ⟨-, rfl⟩ | ⟨-, ⟨_, rfl⟩ | ⟨_, hfound, rfl⟩⟩ := visit_cases h
  · exact Nat.le_refl _
  · exact Nat.le_refl _
  · exact pending_push_le (filter_mem_sublists _ _) hfound

theorem pending_foldlM_le {cs : List Char} (h : cs.foldlM (visit m closures id members) x = .ok y) :
    y.pending m ≤ x.pending m :=
  foldlM_related (R := fun x y => y.pending m ≤ x.pending m) (fun _ => Nat.le_refl _)
    (fun _ _ _ h h' => Nat.le_trans h' h) (fun _ _ _ => pending_visit_le) h

/-- Looks at the states on the stack, and at those that are found on the way. -/
def explore (m : Nfa) (closures : List (List Nat)) (x : Exploration) :
    Except Violation Exploration :=
  match _hstack : x.stack with
  | [] => .ok x
  | id :: stack =>
    match x.origin id with
    | .error v => .error v
    | .ok members =>
      match _hvisit : m.alphabet.foldlM (visit m closures id members) { x with stack } with
      | .error v => .error v
      | .ok y => explore m closures y
termination_by x.pending m
decreasing_by
  have hle := pending_foldlM_le _hvisit
  have hpop : pending m { x with stack } < x.pending m := by simp [pending, _hstack]
  exact Nat.lt_of_le_of_lt hle hpop

end Exploration

/-! ## The new successors of a set -/

namespace Nfa

variable {m : Nfa} {cs : List Char} {c : Char} {found : List (List Nat)} {qs : List Nat}

theorem newSuccessors_nil : m.newSuccessors [] found qs = [] := rfl

theorem successors_cons_of_ne (h : m.stepSet qs c ≠ []) :
    m.successors (c :: cs) qs = m.stepSet qs c :: m.successors cs qs := by
  simp [successors, h]

theorem newSuccessors_cons_of_empty (h : m.stepSet qs c = []) :
    m.newSuccessors (c :: cs) found qs = m.newSuccessors cs found qs := by
  simp [newSuccessors, successors, h]

theorem newSuccessors_cons_of_mem (hne : m.stepSet qs c ≠ []) (h : m.stepSet qs c ∈ found) :
    m.newSuccessors (c :: cs) found qs = m.newSuccessors cs found qs := by
  rw [newSuccessors, successors_cons_of_ne hne, List.filter_cons_of_neg (by simpa using h)]
  rfl

theorem newSuccessors_cons_of_not_mem (hne : m.stepSet qs c ≠ []) (h : m.stepSet qs c ∉ found) :
    m.newSuccessors (c :: cs) found qs =
      m.stepSet qs c :: m.newSuccessors cs (found ++ [m.stepSet qs c]) qs := by
  have hfilter : ((m.successors cs qs).filter (!found.contains ·)).filter (!· == m.stepSet qs c) =
      (m.successors cs qs).filter (!(found ++ [m.stepSet qs c]).contains ·) := by
    rw [List.filter_filter]
    refine List.filter_congr fun t _ => ?_
    rw [List.contains_append, List.contains_cons, List.contains_nil, Bool.or_false, Bool.not_or,
      Bool.and_comm]
  rw [newSuccessors, successors_cons_of_ne hne, List.filter_cons_of_pos (by simpa using h),
    List.eraseDups_cons, hfilter, newSuccessors]

end Nfa

/-! ## One state -/

namespace Exploration

/-- The search when it has found the given sets. -/
def ofFound (m : Nfa) (found : List (List Nat)) (table : List (Edge Nat Char))
    (stack : List Nat) : Exploration where
  found := found.map .composed
  table := table
  accepting := (List.range found.length).filter fun q => m.isFinal (found.getD q [])
  stack := stack

/-- The transitions on some characters from the state with the given number and members. -/
def rowEdges (m : Nfa) (found : List (List Nat)) (id : Nat) (members : List Nat)
    (cs : List Char) : List (Edge Nat Char) :=
  cs.filterMap fun c =>
    if m.stepSet members c = [] then none
    else some ⟨id, c, found.idxOf (m.stepSet members c)⟩

variable {m : Nfa} {closures found : List (List Nat)} {table : List (Edge Nat Char)}
  {stack : List Nat} {id : Nat} {members s : List Nat} {c : Char} {cs : List Char}

theorem composed_mem_found : .composed s ∈ (ofFound m found table stack).found ↔ s ∈ found := by
  simp [ofFound]

theorem idxOf_composed :
    (ofFound m found table stack).found.idxOf (.composed s) = found.idxOf s := by
  rw [ofFound, List.idxOf, List.findIdx_map, List.idxOf]
  congr 1
  funext t
  rw [Function.comp_apply, Bool.eq_iff_iff, beq_iff_eq, beq_iff_eq, Vertex.composed.injEq]

theorem accepting_append (m : Nfa) (found : List (List Nat)) (s : List Nat) :
    (List.range (found ++ [s]).length).filter (fun q => m.isFinal ((found ++ [s]).getD q [])) =
      (List.range found.length).filter (fun q => m.isFinal (found.getD q [])) ++
        if m.isFinal s then [found.length] else [] := by
  have hold : ∀ q ∈ List.range found.length,
      m.isFinal ((found ++ [s]).getD q []) = m.isFinal (found.getD q []) := by
    intro q hq
    rw [List.getD_append _ _ _ _ (List.mem_range.mp hq)]
  have hlast : (found ++ [s]).getD found.length [] = s := by simp
  rw [List.length_append, List.length_singleton, List.range_succ, List.filter_append,
    List.filter_congr hold, List.filter_singleton, hlast, Bool.cond_eq_ite]

theorem intern_ofFound_of_mem (hs : s ≠ []) (h : s ∈ found) :
    (ofFound m found table stack).intern m s =
      .ok (ofFound m found table stack, found.idxOf s, false) := by
  rw [intern_of_mem hs (composed_mem_found.mpr h), idxOf_composed]

theorem intern_ofFound_of_not_mem (hs : s ≠ []) (h : s ∉ found) :
    (ofFound m found table stack).intern m s =
      .ok (ofFound m (found ++ [s]) table stack, found.length, true) := by
  rw [intern_of_not_mem hs (mt composed_mem_found.mp h), ofFound, ofFound, accepting_append]
  split <;> simp

theorem record_ofFound {e : Edge Nat Char}
    (h : ∀ e' ∈ table, e'.source = e.source → e'.label ≠ e.label) :
    (ofFound m found table stack).record e = .ok (ofFound m found (table ++ [e]) stack) :=
  record_eq_ok.mpr ⟨h, rfl⟩

theorem rowEdges_cons_of_empty (h : m.stepSet members c = []) :
    rowEdges m found id members (c :: cs) = rowEdges m found id members cs := by
  simp [rowEdges, h]

theorem rowEdges_cons_of_ne (h : m.stepSet members c ≠ []) :
    rowEdges m found id members (c :: cs) =
      ⟨id, c, found.idxOf (m.stepSet members c)⟩ :: rowEdges m found id members cs := by
  simp [rowEdges, h]

section

variable (hadvance : ∀ qs c, m.advance closures qs c = m.stepSet qs c)
include hadvance

theorem visit_of_empty (hempty : m.stepSet members c = []) :
    (ofFound m found table stack).visit m closures id members c =
      .ok (ofFound m found table stack) := by
  rw [visit, hadvance, if_pos (by simpa using hempty)]

theorem visit_of_mem (hempty : m.stepSet members c ≠ []) (hs : m.stepSet members c ∈ found)
    (hlabel : ∀ e ∈ table, e.source = id → e.label ≠ c) :
    (ofFound m found table stack).visit m closures id members c =
      .ok (ofFound m found (table ++ [⟨id, c, found.idxOf (m.stepSet members c)⟩]) stack) := by
  rw [visit, hadvance, if_neg (by simpa using hempty), intern_ofFound_of_mem hempty hs, ok_bind]
  dsimp only
  rw [record_ofFound hlabel]
  rfl

theorem visit_of_not_mem (hempty : m.stepSet members c ≠ []) (hs : m.stepSet members c ∉ found)
    (hlabel : ∀ e ∈ table, e.source = id → e.label ≠ c) :
    (ofFound m found table stack).visit m closures id members c =
      .ok (ofFound m (found ++ [m.stepSet members c]) (table ++ [⟨id, c, found.length⟩])
        (found.length :: stack)) := by
  rw [visit, hadvance, if_neg (by simpa using hempty), intern_ofFound_of_not_mem hempty hs, ok_bind]
  dsimp only
  rw [record_ofFound hlabel]
  rfl

/-- The visits along some characters find the new successors on them. -/
theorem foldlM_visit (hcs : cs.Nodup) (hnew : ∀ e ∈ table, e.source = id → e.label ∉ cs) :
    cs.foldlM (visit m closures id members) (ofFound m found table stack) =
      .ok (ofFound m (found ++ m.newSuccessors cs found members)
        (table ++ rowEdges m (found ++ m.newSuccessors cs found members) id members cs)
        ((List.range' found.length (m.newSuccessors cs found members).length).reverse ++ stack)) := by
  induction cs generalizing found table stack with
  | nil =>
    rw [rowEdges, List.filterMap_nil, List.append_nil, Nfa.newSuccessors_nil, List.append_nil]
    rfl
  | cons c cs ih =>
    obtain ⟨hc, hcs⟩ := List.nodup_cons.mp hcs
    have hlabel : ∀ e ∈ table, e.source = id → e.label ≠ c :=
      fun e he hid hec => hnew e he hid (hec ▸ List.mem_cons_self)
    have hold : ∀ e ∈ table, e.source = id → e.label ∉ cs :=
      fun e he hid hmem => hnew e he hid (List.mem_cons_of_mem _ hmem)
    have hrest : ∀ q, ∀ e ∈ table ++ [⟨id, c, q⟩], e.source = id → e.label ∉ cs := by
      intro q e he hid
      rcases List.mem_append.mp he with he | he
      · exact hold e he hid
      · obtain rfl := List.mem_singleton.mp he
        exact hc
    rw [List.foldlM_cons]
    by_cases hempty : m.stepSet members c = []
    · rw [visit_of_empty hadvance hempty, ok_bind, ih hcs hold,
        Nfa.newSuccessors_cons_of_empty hempty, rowEdges_cons_of_empty hempty]
    · by_cases hs : m.stepSet members c ∈ found
      · rw [visit_of_mem hadvance hempty hs hlabel, ok_bind, ih hcs (hrest _),
          Nfa.newSuccessors_cons_of_mem hempty hs, rowEdges_cons_of_ne hempty,
          List.idxOf_append_of_mem hs, List.append_assoc, List.singleton_append]
      · have hidx : ∀ new, (found ++ m.stepSet members c :: new).idxOf (m.stepSet members c) =
            found.length := by
          intro new
          rw [List.idxOf_append_of_notMem hs, List.idxOf_cons_self, Nat.add_zero]
        rw [visit_of_not_mem hadvance hempty hs hlabel, ok_bind, ih hcs (hrest _),
          Nfa.newSuccessors_cons_of_not_mem hempty hs, rowEdges_cons_of_ne hempty, hidx,
          List.length_cons, List.range'_succ, List.reverse_cons]
        simp only [List.append_assoc, List.singleton_append, List.length_append,
          List.length_singleton]

end

/-! ## All states -/

/-- The table holds the transitions out of the sets that were looked at. -/
def Explored (m : Nfa) (found work : List (List Nat)) (table : List (Edge Nat Char)) : Prop :=
  ∀ e, e ∈ table ↔ ∃ qs, found[e.source]? = some qs ∧ qs ∉ work ∧
    m.stepSet qs e.label ≠ [] ∧ e.target = found.idxOf (m.stepSet qs e.label)

variable {work : List (List Nat)} {root qs : List Nat}

theorem mem_rowEdges {e : Edge Nat Char} : e ∈ rowEdges m found id qs m.alphabet ↔
    e.source = id ∧ m.stepSet qs e.label ≠ [] ∧ e.target = found.idxOf (m.stepSet qs e.label) := by
  rw [rowEdges, List.mem_filterMap]
  constructor
  · intro ⟨c, _, h⟩
    split at h
    · cases h
    · rename_i hne
      obtain rfl := Option.some.inj h
      exact ⟨rfl, hne, rfl⟩
  · intro ⟨hsource, hne, htarget⟩
    refine ⟨e.label, Nfa.mem_alphabet_of_stepSet hne, ?_⟩
    rw [if_neg hne, ← hsource, ← htarget]

theorem getElem?_append_of_eq_some {as bs : List (List Nat)} {i : Nat} (h : as[i]? = some s) :
    (as ++ bs)[i]? = some s := by
  rw [List.getElem?_append_left (List.getElem?_eq_some_iff.mp h).1, h]

theorem getElem?_of_append {as bs : List (List Nat)} {i : Nat} (h : (as ++ bs)[i]? = some s)
    (hs : s ∉ bs) : as[i]? = some s := by
  rw [List.getElem?_append] at h
  split at h
  · exact h
  · exact absurd (List.mem_of_getElem? h) hs

/-- Looking at a set adds its transitions, and does not change the numbers of the others. -/
theorem Explored.step (hsearch : m.Search m.alphabet root found (qs :: work))
    (hwork : (qs :: work).Nodup) (hid : found[id]? = some qs)
    (h : Explored m found (qs :: work) table) :
    Explored m (found ++ m.newSuccessors m.alphabet found qs)
      ((m.newSuccessors m.alphabet found qs).reverse ++ work)
      (table ++ rowEdges m (found ++ m.newSuccessors m.alphabet found qs) id qs m.alphabet) := by
  have hnew : ∀ s ∈ found, s ∉ m.newSuccessors m.alphabet found qs :=
    fun s hs hmem => (Nfa.mem_newSuccessors.mp hmem).2 hs
  have hidx : ∀ s c, s ∈ found → s ∉ qs :: work → m.stepSet s c ≠ [] →
      (found ++ m.newSuccessors m.alphabet found qs).idxOf (m.stepSet s c) =
        found.idxOf (m.stepSet s c) :=
    fun s c hs hs' hne => List.idxOf_append_of_mem (hsearch.stepSet_mem hs hs' hne)
  intro e
  rw [List.mem_append, h, mem_rowEdges]
  constructor
  · rintro (⟨s, hs, hlooked, hne, htarget⟩ | ⟨rfl, hne, htarget⟩)
    · have hfound := List.mem_of_getElem? hs
      refine ⟨s, getElem?_append_of_eq_some hs, ?_, hne, ?_⟩
      · rw [List.mem_append, List.mem_reverse]
        exact not_or.mpr ⟨hnew s hfound, fun hs' => hlooked (List.mem_cons_of_mem _ hs')⟩
      · rw [htarget, hidx s _ hfound hlooked hne]
    · refine ⟨qs, getElem?_append_of_eq_some hid, ?_, hne, htarget⟩
      rw [List.mem_append, List.mem_reverse]
      exact not_or.mpr ⟨hnew qs (List.mem_of_getElem? hid), (List.nodup_cons.mp hwork).1⟩
  · intro ⟨s, happend, hlooked, hne, htarget⟩
    rw [List.mem_append, List.mem_reverse, not_or] at hlooked
    have hs := getElem?_of_append happend hlooked.1
    have hfound := List.mem_of_getElem? hs
    -- A set has one number only, so the transitions out of `qs` are those that were just added.
    by_cases hsq : s = qs
    · rw [hsq] at hs hne htarget
      have hlt := (List.getElem?_eq_some_iff.mp hs).1
      have hsource : e.source = id :=
        (List.getElem?_inj hlt hsearch.nodup).mp (hs.trans hid.symm)
      exact .inr ⟨hsource, hne, htarget⟩
    · have hs' : s ∉ qs :: work := by
        rw [List.mem_cons]
        exact not_or.mpr ⟨hsq, hlooked.2⟩
      exact .inl ⟨s, hs, hs', hne, htarget.trans (hidx s _ hfound hs' hne)⟩

theorem explore_nil (x : Exploration) (h : x.stack = []) : x.explore m closures = .ok x := by
  rw [explore]
  split
  · rfl
  · rename_i hcons
    rw [h] at hcons
    cases hcons

theorem explore_cons {x y : Exploration} (hstack : x.stack = id :: stack)
    (horigin : x.origin id = .ok qs)
    (hvisit : m.alphabet.foldlM (visit m closures id qs) { x with stack } = .ok y) :
    x.explore m closures = y.explore m closures := by
  rw [explore]
  split
  · rename_i hnil
    rw [hstack] at hnil
    cases hnil
  · rename_i hcons
    rw [hstack] at hcons
    obtain ⟨rfl, rfl⟩ := List.cons.inj hcons
    rw [horigin]
    dsimp only
    split
    · rename_i hfail
      rw [hvisit] at hfail
      cases hfail
    · rename_i hok
      rw [hvisit] at hok
      rw [Except.ok.inj hok]

theorem origin_ofFound (hid : found[id]? = some qs) :
    (ofFound m found table stack).origin id = .ok qs := by
  simp [origin, ofFound, hid]

/-- The numbers of new sets, the last of them first, are those of the sets behind the found ones. -/
theorem forall₂_numbers (hstack : List.Forall₂ (fun id qs => found[id]? = some qs) stack work)
    (new : List (List Nat)) :
    List.Forall₂ (fun id qs => (found ++ new)[id]? = some qs)
      ((List.range' found.length new.length).reverse ++ stack) (new.reverse ++ work) := by
  refine List.rel_append (List.forall₂_reverse_iff.mpr ?_)
    (hstack.imp fun _ _ h => getElem?_append_of_eq_some h)
  rw [List.forall₂_iff_get]
  refine ⟨List.length_range', fun i hi hi' => ?_⟩
  simp [List.getElem?_append_right]

/-- The search has found the given sets, and its stack holds the numbers of those in `work`. -/
structure Standing (m : Nfa) (root : List Nat) (found work : List (List Nat))
    (table : List (Edge Nat Char)) (stack : List Nat) : Prop where
  search : m.Search m.alphabet root found work
  nodup : work.Nodup
  numbered : List.Forall₂ (fun id qs => found[id]? = some qs) stack work
  explored : Explored m found work table

namespace Standing

theorem step (h : Standing m root found (qs :: work) table (id :: stack)) :
    Standing m root (found ++ m.newSuccessors m.alphabet found qs)
      ((m.newSuccessors m.alphabet found qs).reverse ++ work)
      (table ++ rowEdges m (found ++ m.newSuccessors m.alphabet found qs) id qs m.alphabet)
      ((List.range' found.length (m.newSuccessors m.alphabet found qs).length).reverse ++ stack) := by
  obtain ⟨hid, hstack⟩ := List.forall₂_cons.mp h.numbered
  exact ⟨h.search.step, h.search.nodup_step h.nodup, forall₂_numbers hstack _,
    h.explored.step h.search h.nodup hid⟩

/-- No transition out of a state on the stack is recorded yet, so no check fails. -/
theorem foldlM_visit_eq (hadvance : ∀ qs c, m.advance closures qs c = m.stepSet qs c)
    (h : Standing m root found (qs :: work) table (id :: stack)) :
    m.alphabet.foldlM (visit m closures id qs) (ofFound m found table stack) =
      .ok (ofFound m (found ++ m.newSuccessors m.alphabet found qs)
        (table ++ rowEdges m (found ++ m.newSuccessors m.alphabet found qs) id qs m.alphabet)
        ((List.range' found.length (m.newSuccessors m.alphabet found qs).length).reverse ++
          stack)) := by
  obtain ⟨hid, _⟩ := List.forall₂_cons.mp h.numbered
  refine foldlM_visit hadvance (nodup_eraseDups _) fun e he hsource => ?_
  obtain ⟨s, hs, hlooked, _⟩ := (h.explored e).mp he
  rw [hsource, hid] at hs
  exact absurd (Option.some.inj hs ▸ List.mem_cons_self) hlooked

end Standing

/-- The search finds the sets that the successors of the first one lead to, and no check fails. -/
theorem explore_ofFound (hadvance : ∀ qs c, m.advance closures qs c = m.stepSet qs c)
    (h : Standing m root found work table stack) :
    ∃ table', (ofFound m found table stack).explore m closures =
        .ok (ofFound m (m.collect m.alphabet found work) table' []) ∧
      Explored m (m.collect m.alphabet found work) [] table' := by
  -- The stack holds the numbers of the sets on the work list, so one step of either is one of both.
  fun_induction Nfa.collect m m.alphabet found work generalizing table stack with
  | case1 found =>
    cases h.numbered
    exact ⟨table, explore_nil _ rfl, h.explored⟩
  | case2 found qs work new =>
    rename_i ih
    obtain ⟨id, stack, hid, _, rfl⟩ := List.forall₂_cons_right_iff.mp h.numbered
    obtain ⟨table', hexplore, htable'⟩ := ih h.step
    refine ⟨table', ?_, htable'⟩
    rw [← hexplore]
    exact explore_cons rfl (origin_ofFound hid) (h.foldlM_visit_eq hadvance)

end Exploration

end LexGen
