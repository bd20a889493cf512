-- SUMMARY: The order of states is total and agrees with their equality and their hashes, and none of these looks at ordinals.
import Mathlib
import LexGen.State.Basic

/-! # The order of states

A state is spelled by marks: a label by itself, a set by brackets around the spellings of its members.
The closing bracket comes before all labels and these before the opening one, so states compare as
their spellings do, mark by mark, and the laws of the order are those of the comparison of lists.

Equality and hashes look at the same data as the order: labels and members, but no ordinals. -/

namespace LexGen.State

open Std

/-! ## Labels -/

/-- Numerals come before other labels, in the order of their numbers; the texts decide the rest. -/
theorem cmpLabel_eq : cmpLabel =
    compareLex (compareOn fun a => (labelNumber? a).isNone)
      (compareLex (compareOn fun a => (labelNumber? a).getD 0) compare) := by
  funext a b
  simp only [cmpLabel, compareLex, compareOn]
  cases labelNumber? a with
  | none =>
    cases labelNumber? b with
    | none => rfl
    | some n => rfl
  | some m =>
    cases labelNumber? b with
    | none => rfl
    | some n => rfl

instance : TransCmp cmpLabel := by
  rw [cmpLabel_eq]
  infer_instance

instance : LawfulEqCmp cmpLabel where
  compare_self := ReflCmp.compare_self
  eq_of_compare {a b} h := by
    rw [cmpLabel_eq] at h
    simp only [compareLex, Ordering.then_eq_eq] at h
    exact LawfulEqOrd.eq_of_compare h.2.2

/-! ## Marks -/

/-- The parts that the spelling of a state consists of. -/
inductive Mark where
  | close
  | label (text : String)
  | opening

/-- The order of marks. -/
def Mark.cmp : Mark → Mark → Ordering
  | .close, .close => .eq
  | .close, _ => .lt
  | .label _, .close => .gt
  | .label a, .label b => cmpLabel a b
  | .label _, .opening => .lt
  | .opening, .opening => .eq
  | .opening, _ => .gt

instance : OrientedCmp Mark.cmp where
  eq_swap {a b} := by
    cases a with
    | close | opening => cases b <;> rfl
    | label a =>
      cases b with
      | close | opening => rfl
      | label b => exact (OrientedCmp.eq_swap : cmpLabel a b = _)

instance : TransCmp Mark.cmp where
  isLE_trans {a b c} := by
    cases a <;> cases b <;> cases c <;> try simp [Mark.cmp]
    exact TransCmp.isLE_trans

mutual

/-- The spelling of a state. -/
def marks : State → List Mark
  | .simple label _ => [.label label]
  | .composed members => .opening :: marksOf members

/-- The spellings of some states, and the bracket behind them. -/
def marksOf : List State → List Mark
  | [] => [.close]
  | x :: xs => x.marks ++ marksOf xs

end

mutual

/-- No spelling begins another one, so what follows them decides only if the states are equal. -/
theorem compare_marks_append (r r' : List Mark) : (a b : State) →
    List.compareLex Mark.cmp (a.marks ++ r) (b.marks ++ r') =
      (a.cmp b).then (List.compareLex Mark.cmp r r')
  | .simple .., .simple .. => List.compareLex_cons_cons
  | .simple .., .composed _ => List.compareLex_cons_cons
  | .composed _, .simple .. => List.compareLex_cons_cons
  | .composed xs, .composed ys => by
    rw [marks, marks, List.cons_append, List.cons_append, List.compareLex_cons_cons, cmp,
      compare_marksOf_append r r' xs ys]
    rfl

theorem compare_marksOf_append (r r' : List Mark) : (xs ys : List State) →
    List.compareLex Mark.cmp (marksOf xs ++ r) (marksOf ys ++ r') =
      (cmpMembers xs ys).then (List.compareLex Mark.cmp r r')
  | [], [] => List.compareLex_cons_cons
  | [], .simple .. :: _ => List.compareLex_cons_cons
  | [], .composed _ :: _ => List.compareLex_cons_cons
  | .simple .. :: _, [] => List.compareLex_cons_cons
  | .composed _ :: _, [] => List.compareLex_cons_cons
  | x :: xs, y :: ys => by
    rw [marksOf, marksOf, List.append_assoc, List.append_assoc, compare_marks_append _ _ x y,
      compare_marksOf_append r r' xs ys, cmpMembers, Ordering.then_assoc]

end

theorem cmp_eq_compare_marks (a b : State) :
    a.cmp b = List.compareLex Mark.cmp a.marks b.marks := by
  have h := compare_marks_append [] [] a b
  rw [List.append_nil, List.append_nil, List.compareLex_nil_nil, Ordering.then_eq] at h
  exact h.symm

instance : TransCmp cmp where
  eq_swap {a b} := by
    rw [cmp_eq_compare_marks, cmp_eq_compare_marks]
    exact OrientedCmp.eq_swap
  isLE_trans {a b c} := by
    rw [cmp_eq_compare_marks, cmp_eq_compare_marks, cmp_eq_compare_marks]
    exact TransCmp.isLE_trans

/-! ## Equality -/

mutual

theorem cmp_eq_eq_iff : (a b : State) → (a.cmp b = .eq ↔ a.same b = true)
  | .simple a _, .simple b _ => by
    rw [cmp, same, LawfulEqCmp.compare_eq_iff_eq, beq_iff_eq]
  | .simple .., .composed _ => by simp [cmp, same]
  | .composed _, .simple .. => by simp [cmp, same]
  | .composed xs, .composed ys => by
    rw [cmp, same]
    exact cmpMembers_eq_eq_iff xs ys

theorem cmpMembers_eq_eq_iff :
    (xs ys : List State) → (cmpMembers xs ys = .eq ↔ sameMembers xs ys = true)
  | [], [] => by simp [cmpMembers, sameMembers]
  | [], _ :: _ => by simp [cmpMembers, sameMembers]
  | _ :: _, [] => by simp [cmpMembers, sameMembers]
  | x :: xs, y :: ys => by
    rw [cmpMembers, sameMembers, Ordering.then_eq_eq, Bool.and_eq_true, cmp_eq_eq_iff x y,
      cmpMembers_eq_eq_iff xs ys]

end

instance : LawfulBEqCmp cmp where
  compare_eq_iff_beq {a b} := cmp_eq_eq_iff a b

instance : EquivBEq State :=
  @LawfulBEqCmp.equivBEq State _ cmp _ _

/-! ## Ordinals -/

mutual

/-- The state without its ordinal and without those of its members. -/
def plain : State → State
  | .simple label _ => .simple label none
  | .composed members => .composed (plainMembers members)

/-- Some states without their ordinals. -/
def plainMembers : List State → List State
  | [] => []
  | x :: xs => x.plain :: plainMembers xs

end

mutual

theorem same_iff_plain_eq : (a b : State) → (a.same b = true ↔ a.plain = b.plain)
  | .simple a _, .simple b _ => by simp [same, plain]
  | .simple .., .composed _ => by simp [same, plain]
  | .composed _, .simple .. => by simp [same, plain]
  | .composed xs, .composed ys => by
    rw [same, plain, plain, State.composed.injEq]
    exact sameMembers_iff_plainMembers_eq xs ys

theorem sameMembers_iff_plainMembers_eq :
    (xs ys : List State) → (sameMembers xs ys = true ↔ plainMembers xs = plainMembers ys)
  | [], [] => by simp [sameMembers]
  | [], _ :: _ => by simp [sameMembers, plainMembers]
  | _ :: _, [] => by simp [sameMembers, plainMembers]
  | x :: xs, y :: ys => by
    rw [sameMembers, plainMembers, plainMembers, List.cons.injEq, Bool.and_eq_true,
      same_iff_plain_eq x y, sameMembers_iff_plainMembers_eq xs ys]

end

theorem beq_iff_plain_eq {a b : State} : (a == b) = true ↔ a.plain = b.plain :=
  same_iff_plain_eq a b

/-! ## Data -/

/-- A piece of what a state gives to a hash function. -/
inductive Datum where
  /-- Tells simple states from composed ones. -/
  | tag (n : UInt8)
  /-- The number of members. -/
  | count (n : Nat)
  | text (label : String)

mutual

/-- What a state gives to a hash function, piece by piece. -/
def data : State → List Datum
  | .simple label _ => [.tag 0, .text label]
  | .composed members => .tag 1 :: .count members.length :: dataOf members

/-- What some states give to a hash function. -/
def dataOf : List State → List Datum
  | [] => []
  | x :: xs => x.data ++ dataOf xs

end

mutual

theorem data_plain : (a : State) → a.plain.data = a.data
  | .simple .. => rfl
  | .composed members => by
    obtain ⟨hlength, hdata⟩ := dataOf_plainMembers members
    rw [plain, data, data, hlength, hdata]

theorem dataOf_plainMembers : (xs : List State) →
    (plainMembers xs).length = xs.length ∧ dataOf (plainMembers xs) = dataOf xs
  | [] => ⟨rfl, rfl⟩
  | x :: xs => by
    obtain ⟨hlength, hdata⟩ := dataOf_plainMembers xs
    rw [plainMembers, dataOf, dataOf, data_plain x, hdata, List.length_cons, List.length_cons,
      hlength]
    exact ⟨rfl, rfl⟩

end

mutual

/-- The data of a state tell where they end, so they are the data of no other state. -/
theorem same_of_data_append (r r' : List Datum) :
    (a b : State) → a.data ++ r = b.data ++ r' → a.same b = true ∧ r = r'
  | .simple a _, .simple b _, h => by simpa [data, same] using h
  | .simple .., .composed _, h => by simp [data] at h
  | .composed _, .simple .., h => by simp [data] at h
  | .composed xs, .composed ys, h => by
    simp only [data, List.cons_append, List.cons.injEq, Datum.count.injEq, true_and] at h
    rw [same]
    exact sameMembers_of_dataOf_append r r' xs ys h.1 h.2

theorem sameMembers_of_dataOf_append (r r' : List Datum) :
    (xs ys : List State) → xs.length = ys.length → dataOf xs ++ r = dataOf ys ++ r' →
      sameMembers xs ys = true ∧ r = r'
  | [], [], _, h => ⟨rfl, h⟩
  | [], _ :: _, hlength, _ => by simp at hlength
  | _ :: _, [], hlength, _ => by simp at hlength
  | x :: xs, y :: ys, hlength, h => by
    rw [dataOf, dataOf, List.append_assoc, List.append_assoc] at h
    obtain ⟨hxy, h⟩ := same_of_data_append _ _ x y h
    obtain ⟨hrest, h⟩ := sameMembers_of_dataOf_append r r' xs ys (Nat.succ.inj hlength) h
    rw [sameMembers, hxy, hrest]
    exact ⟨rfl, h⟩

end

theorem beq_iff_data_eq {a b : State} : (a == b) = true ↔ a.data = b.data := by
  refine ⟨fun h => ?_, fun h => (same_of_data_append [] [] a b (by rw [h])).1⟩
  rw [← data_plain a, ← data_plain b, beq_iff_plain_eq.mp h]

mutual

theorem hashOf_plain : (a : State) → a.plain.hashOf = a.hashOf
  | .simple .. => rfl
  | .composed members => by
    rw [plain, hashOf, hashOf, hashMembers_plainMembers members]

theorem hashMembers_plainMembers : (xs : List State) →
    hashMembers (plainMembers xs) = hashMembers xs
  | [] => rfl
  | x :: xs => by
    rw [plainMembers, hashMembers, hashMembers, hashOf_plain x, hashMembers_plainMembers xs]

end

instance : LawfulHashable State where
  hash_eq a b h := by
    change a.hashOf = b.hashOf
    rw [← hashOf_plain a, ← hashOf_plain b, beq_iff_plain_eq.mp h]

/-! ## The laws -/

/-- The order is total and agrees with equality, equal states are those with the same data and they
have the same hash, and ordinals have no influence on any of these. -/
theorem cmp_totalOrder (a b c : State) :
    (a.cmp b = .eq ↔ (a == b) = true) ∧
      b.cmp a = (a.cmp b).swap ∧
      (a.cmp b = .lt → b.cmp c = .lt → a.cmp c = .lt) ∧
      ((a == b) = true ↔ a.data = b.data) ∧
      ((a == b) = true → hash a = hash b) ∧
      ∀ a' b' : State, a'.plain = a.plain → b'.plain = b.plain →
        a'.cmp b' = a.cmp b ∧ (a' == b') = (a == b) ∧ a'.data = a.data ∧ hash a' = hash a := by
  refine ⟨LawfulBEqCmp.compare_eq_iff_beq, OrientedCmp.eq_swap, TransCmp.lt_trans,
    beq_iff_data_eq, hash_eq, fun a' b' ha hb => ?_⟩
  have hcmp : a'.cmp b' = a.cmp b := by
    have haeq : a'.cmp a = .eq := LawfulBEqCmp.compare_eq_iff_beq.mpr (beq_iff_plain_eq.mpr ha)
    have hbeq : b'.cmp b = .eq := LawfulBEqCmp.compare_eq_iff_beq.mpr (beq_iff_plain_eq.mpr hb)
    rw [TransCmp.congr_left haeq, TransCmp.congr_right hbeq]
  refine ⟨hcmp, ?_, beq_iff_data_eq.mp (beq_iff_plain_eq.mpr ha),
    hash_eq (beq_iff_plain_eq.mpr ha)⟩
  rw [Bool.eq_iff_iff, beq_iff_plain_eq, beq_iff_plain_eq, ha, hb]

/-- Inside sets, numerals compare by their numbers and come before other labels, and the ordinal of a
sink does not count. -/
theorem cmp_totalOrder_nested :
    (composed [numbered 2, composed [sink 3]]).cmp (composed [numbered 10]) = .lt ∧
      (composed [numbered 10]).cmp (composed [sink 3]) = .lt ∧
      (composed [numbered 2, composed [sink 3]]).cmp (composed [sink 3]) = .lt ∧
      (composed [numbered 2, composed [sink 7]]).plain =
        (composed [numbered 2, composed [sink 3]]).plain ∧
      (composed [numbered 2, composed [sink 7]]).cmp (composed [numbered 10]) = .lt := by
  have hab : (composed [numbered 2, composed [sink 3]]).cmp (composed [numbered 10]) = .lt := by
    cbv
  have hbc : (composed [numbered 10]).cmp (composed [sink 3]) = .lt := by cbv
  have hplain : (composed [numbered 2, composed [sink 7]]).plain =
      (composed [numbered 2, composed [sink 3]]).plain := rfl
  obtain ⟨_, _, htrans, _, _, hordinals⟩ := cmp_totalOrder
    (composed [numbered 2, composed [sink 3]]) (composed [numbered 10]) (composed [sink 3])
  exact ⟨hab, hbc, htrans hab hbc, hplain, (hordinals _ _ hplain rfl).1.trans hab⟩

end LexGen.State
