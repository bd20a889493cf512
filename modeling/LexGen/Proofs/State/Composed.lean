-- SUMMARY: Composed states as canonical sets: their members are strictly increasing, and they are equal exactly if they are composed of the same states.
import Mathlib
import LexGen.Proofs.State.Order
import LexGen.State.Composed

/-! # Composed states are canonical

A state put into an increasing list keeps it increasing and adds nothing but itself. So the members of
a composed state are the states it was composed of, each once and in their order. Two increasing lists
with equal members are equal one by one, and therefore neither the order nor the repetition of what a
state is composed of has any influence on it. All this is up to the equality of states, which does not
look at ordinals. -/

namespace LexGen.State

open Std

variable {s t : State} {set xs ys members : List State}

theorem beq_of_cmp_eq (h : s.cmp t = .eq) : (s == t) = true :=
  LawfulBEqCmp.compare_eq_iff_beq.mp h

theorem beq_eq_false_of_cmp_lt (h : s.cmp t = .lt) : (s == t) = false := by
  rw [Bool.eq_false_iff]
  intro hbeq
  have heq : s.cmp t = .eq := LawfulBEqCmp.compare_eq_iff_beq.mpr hbeq
  rw [heq] at h
  cases h

/-! ## Sets -/

/-- The states are strictly increasing. -/
def Increasing (set : List State) : Prop :=
  set.Pairwise fun s t => s.cmp t = .lt

theorem mem_insert (h : t ∈ insert s set) : t = s ∨ t ∈ set := by
  induction set with
  | nil => exact .inl (List.mem_singleton.mp h)
  | cons u set ih =>
    rw [insert] at h
    split at h
    · exact List.mem_cons.mp h
    · exact (List.mem_cons.mp h).imp_right (List.mem_cons_of_mem u)
    · rcases List.mem_cons.mp h with rfl | h
      · exact .inr List.mem_cons_self
      · exact (ih h).imp_right (List.mem_cons_of_mem u)

theorem contains_insert (s t : State) (set : List State) :
    (insert s set).contains t = (t == s || set.contains t) := by
  induction set with
  | nil => simp [insert]
  | cons u set ih =>
    rw [insert]
    split
    · rw [List.contains_cons]
    · rename_i heq
      rw [List.contains_cons, List.contains_cons, BEq.congr_right (beq_of_cmp_eq heq)]
      cases t == u <;> rfl
    · rw [List.contains_cons, List.contains_cons, ih]
      cases t == u <;> cases t == s <;> rfl

theorem Increasing.insert (h : Increasing set) (s : State) : Increasing (State.insert s set) := by
  induction set with
  | nil => exact List.pairwise_singleton _ s
  | cons u set ih =>
    obtain ⟨hu, hset⟩ := List.pairwise_cons.mp h
    rw [State.insert]
    split
    · rename_i hlt
      refine List.pairwise_cons.mpr ⟨?_, h⟩
      exact List.forall_mem_cons.mpr ⟨hlt, fun t ht => TransCmp.lt_trans hlt (hu t ht)⟩
    · rename_i heq
      exact List.pairwise_cons.mpr ⟨fun t ht => TransCmp.lt_of_eq_of_lt heq (hu t ht), hset⟩
    · rename_i hgt
      refine List.pairwise_cons.mpr ⟨fun t ht => ?_, ih hset⟩
      rcases mem_insert ht with rfl | ht
      · exact OrientedCmp.gt_iff_lt.mp hgt
      · exact hu t ht

/-! ## The set of some states -/

/-- The list holds the states of `xs` up to equality, strictly increasing and so none of them twice. -/
structure MembersOf (xs members : List State) : Prop where
  increasing : Increasing members
  distinct : members.Pairwise fun s t => (s == t) = false
  mem : ∀ s ∈ members, s ∈ xs
  contains : ∀ s, members.contains s = xs.contains s

theorem setOf_concat (xs : List State) (s : State) : setOf (xs ++ [s]) = insert s (setOf xs) := by
  simp [setOf]

theorem membersOf_setOf (xs : List State) : MembersOf xs (setOf xs) := by
  induction xs using List.reverseRecOn with
  | nil => exact ⟨.nil, .nil, fun s hs => hs, fun s => rfl⟩
  | append_singleton xs x ih =>
    have hincreasing : Increasing (setOf (xs ++ [x])) := by
      rw [setOf_concat]
      exact ih.increasing.insert x
    refine ⟨hincreasing, hincreasing.imp beq_eq_false_of_cmp_lt, fun s hs => ?_, fun s => ?_⟩
    · rw [setOf_concat] at hs
      rcases mem_insert hs with rfl | hs
      · exact List.mem_append_right _ (List.mem_singleton_self s)
      · exact List.mem_append_left _ (ih.mem s hs)
    · rw [setOf_concat, contains_insert, ih.contains s]
      simp [Bool.or_comm]

/-! ## Equal sets -/

theorem plainMembers_eq_map (xs : List State) : plainMembers xs = xs.map plain := by
  induction xs with
  | nil => rw [plainMembers, List.map_nil]
  | cons x xs ih => rw [plainMembers, List.map_cons, ih]

theorem cmp_plain (s t : State) : s.plain.cmp t.plain = s.cmp t := by
  have hplain : ∀ s : State, s.plain.cmp s = .eq := fun s =>
    LawfulBEqCmp.compare_eq_iff_beq.mpr (beq_iff_data_eq.mpr (data_plain s))
  rw [TransCmp.congr_left (hplain s), TransCmp.congr_right (hplain t)]

theorem contains_iff_plain_mem : xs.contains s = true ↔ s.plain ∈ xs.map plain := by
  rw [List.contains_iff_exists_mem_beq, List.mem_map]
  simp only [beq_iff_plain_eq, @eq_comm _ s.plain]

/-- Without ordinals, equal states are identical, and increasing lists with the same members are. -/
theorem sameMembers_iff_of_increasing (hxs : Increasing xs) (hys : Increasing ys) :
    sameMembers xs ys = true ↔ ∀ s, xs.contains s = ys.contains s := by
  rw [sameMembers_iff_plainMembers_eq, plainMembers_eq_map, plainMembers_eq_map]
  refine ⟨fun h s => ?_, fun h => ?_⟩
  · rw [Bool.eq_iff_iff, contains_iff_plain_mem, contains_iff_plain_mem, h]
  · have hirrefl : Std.Irrefl fun s t : State => s.cmp t = .lt :=
      ⟨fun s hs => OrientedCmp.not_lt_of_lt hs hs⟩
    have hantisymm : Std.Antisymm fun s t : State => s.cmp t = .lt :=
      ⟨fun s t hst hts => absurd hts (OrientedCmp.not_lt_of_lt hst)⟩
    have hplain : ∀ {zs : List State}, Increasing zs → Increasing (zs.map plain) := fun hzs =>
      List.pairwise_map.mpr (hzs.imp fun hst => (cmp_plain _ _).trans hst)
    refine (hplain hxs).eq_of_mem_iff (hplain hys) fun s => ?_
    constructor
    · intro hs
      obtain ⟨x, hx, rfl⟩ := List.mem_map.mp hs
      rw [← contains_iff_plain_mem, ← h, contains_iff_plain_mem]
      exact hs
    · intro hs
      obtain ⟨y, hy, rfl⟩ := List.mem_map.mp hs
      rw [← contains_iff_plain_mem, h, contains_iff_plain_mem]
      exact hs

/-! ## Composed states -/

theorem compose?_of_ne_nil (h : xs ≠ []) : compose? xs = some (.composed (setOf xs)) := by
  rw [compose?, if_neg (by simpa using h)]

theorem composed_setOf_beq_iff :
    (State.composed (setOf xs) == .composed (setOf ys)) = true ↔
      ∀ s, xs.contains s = ys.contains s := by
  have hxs := membersOf_setOf xs
  have hys := membersOf_setOf ys
  change State.same _ _ = true ↔ _
  rw [same, sameMembers_iff_of_increasing hxs.increasing hys.increasing]
  simp only [hxs.contains, hys.contains]

theorem contains_eq_iff :
    (∀ s, xs.contains s = ys.contains s) ↔
      (∀ x ∈ xs, ∃ y ∈ ys, (x == y) = true) ∧ ∀ y ∈ ys, ∃ x ∈ xs, (y == x) = true := by
  simp only [← List.contains_iff_exists_mem_beq]
  refine ⟨fun h => ⟨fun x hx => ?_, fun y hy => ?_⟩, fun ⟨hxs, hys⟩ s => ?_⟩
  · rw [← h]
    exact List.contains_iff_exists_mem_beq.mpr ⟨x, hx, BEq.rfl⟩
  · rw [h]
    exact List.contains_iff_exists_mem_beq.mpr ⟨y, hy, BEq.rfl⟩
  · rw [Bool.eq_iff_iff]
    constructor
    · intro hs
      obtain ⟨x, hx, hsx⟩ := List.contains_iff_exists_mem_beq.mp hs
      rw [List.contains_congr hsx]
      exact hxs x hx
    · intro hs
      obtain ⟨y, hy, hsy⟩ := List.contains_iff_exists_mem_beq.mp hs
      rw [List.contains_congr hsy]
      exact hys y hy

/-- States composed of some states each are equal exactly if each of the ones equals one of the
others. The members of a composed state are what it is composed of, strictly increasing and each of
them once; order and repetition make no difference, and no simple state is equal to it. -/
theorem compose?_beq_iff (xs ys : List State) (hxs : xs ≠ []) (hys : ys ≠ []) :
    ∃ s t, compose? xs = some s ∧ compose? ys = some t ∧
      ((s == t) = true ↔
        (∀ x ∈ xs, ∃ y ∈ ys, (x == y) = true) ∧ ∀ y ∈ ys, ∃ x ∈ xs, (y == x) = true) ∧
      (∃ members, s.members? = some members ∧ MembersOf xs members) ∧
      (∀ zs, (∀ z, z ∈ zs ↔ z ∈ xs) → ∃ u, compose? zs = some u ∧ (u == s) = true) ∧
      ∀ label ordinal, (s == .simple label ordinal) = false ∧ (.simple label ordinal == s) = false := by
  refine ⟨_, _, compose?_of_ne_nil hxs, compose?_of_ne_nil hys, ?_, ⟨_, rfl, membersOf_setOf xs⟩,
    fun zs hzs => ?_, fun label ordinal => ⟨?_, ?_⟩⟩
  · rw [composed_setOf_beq_iff, contains_eq_iff]
  · have hne : zs ≠ [] := by
      obtain ⟨x, hx⟩ := List.exists_mem_of_ne_nil xs hxs
      exact List.ne_nil_of_mem ((hzs x).mpr hx)
    refine ⟨_, compose?_of_ne_nil hne, composed_setOf_beq_iff.mpr fun s => ?_⟩
    rw [Bool.eq_iff_iff, List.contains_iff_exists_mem_beq, List.contains_iff_exists_mem_beq]
    simp only [hzs]
  · change same _ _ = false
    simp [same]
  · change same _ _ = false
    simp [same]

/-- The sink counts once among nested members, whatever its ordinals, and in any order. -/
theorem compose?_beq_iff_nested :
    ∃ s t, compose? [composed [sink 3], numbered 10, sink 7, numbered 2, sink 3] = some s ∧
      compose? [numbered 2, composed [sink 5], numbered 10, numbered 2, sink 1] = some t ∧
      (s == t) = true ∧ (s == numbered 2) = false := by
  obtain ⟨s, t, hs, ht, hiff, -, -, hsimple⟩ := compose?_beq_iff
    [composed [sink 3], numbered 10, sink 7, numbered 2, sink 3]
    [numbered 2, composed [sink 5], numbered 10, numbered 2, sink 1]
    (List.cons_ne_nil _ _) (List.cons_ne_nil _ _)
  refine ⟨s, t, hs, ht, hiff.mpr ⟨?_, ?_⟩, (hsimple _ _).1⟩
  · decide
  · decide

end LexGen.State
