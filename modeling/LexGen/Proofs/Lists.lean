-- SUMMARY: Facts about lists: beginnings, duplicates, and association lists built along a list of keys.
import Mathlib.Data.List.Nodup
import Mathlib.Order.Basic

/-! # Lists -/

namespace LexGen

variable {α β : Type} [BEq α] [LawfulBEq α]

/-! ## Beginnings -/

omit [BEq α] [LawfulBEq α] in
/-- A beginning of two lists in a row ends in the first or reaches into the second. -/
theorem prefix_append_cases {u as bs : List α} (h : u <+: as ++ bs) :
    u <+: as ∨ ∃ v, u = as ++ v ∧ v <+: bs := by
  obtain ⟨t, ht⟩ := h
  rcases List.append_eq_append_iff.mp ht with ⟨v, has, _⟩ | ⟨v, hu, hbs⟩
  · exact .inl ⟨v, has.symm⟩
  · exact .inr ⟨v, hu, t, hbs.symm⟩

/-! ## Parts -/

omit [BEq α] [LawfulBEq α] in
/-- No separator is left in the parts of a list. -/
theorem eq_false_of_mem_splitOnP {p : α → Bool} {as part : List α} {a : α}
    (hpart : part ∈ as.splitOnP p) (ha : a ∈ part) : p a = false := by
  induction as generalizing part with
  | nil =>
    obtain rfl := List.mem_singleton.mp hpart
    cases ha
  | cons b as ih =>
    rw [List.splitOnP_cons_eq_if_modifyHead] at hpart
    split at hpart
    · rcases List.mem_cons.mp hpart with rfl | hpart
      · cases ha
      · exact ih hpart ha
    · rename_i hb
      cases hparts : as.splitOnP p with
      | nil => exact absurd hparts (List.splitOnP_ne_nil p as)
      | cons first rest =>
        rw [hparts] at hpart ih
        rcases List.mem_cons.mp hpart with rfl | hpart
        · rcases List.mem_cons.mp ha with rfl | ha
          · exact Bool.eq_false_iff.mpr hb
          · exact ih List.mem_cons_self ha
        · exact ih (List.mem_cons_of_mem _ hpart) ha

omit [BEq α] [LawfulBEq α] in
/-- The first part of a list is a beginning of it. -/
theorem exists_splitOnP_eq_cons (p : α → Bool) (as : List α) :
    ∃ first rest, as.splitOnP p = first :: rest ∧ first <+: as ∧ ∀ part ∈ rest, part <:+: as := by
  induction as with
  | nil => exact ⟨[], [], rfl, List.prefix_rfl, by simp⟩
  | cons a as ih =>
    obtain ⟨first, rest, hparts, hfirst, hrest⟩ := ih
    have hrest' : ∀ part ∈ rest, part <:+: a :: as := fun part hpart =>
      List.infix_cons (hrest part hpart)
    rw [List.splitOnP_cons_eq_if_modifyHead, hparts]
    split
    · exact ⟨[], _, rfl, List.nil_prefix,
        List.forall_mem_cons.mpr ⟨List.infix_cons hfirst.isInfix, hrest'⟩⟩
    · exact ⟨a :: first, rest, rfl, List.cons_prefix_cons.mpr ⟨rfl, hfirst⟩, hrest'⟩

omit [BEq α] [LawfulBEq α] in
theorem infix_of_mem_splitOnP {p : α → Bool} {as part : List α} (h : part ∈ as.splitOnP p) :
    part <:+: as := by
  obtain ⟨first, rest, hparts, hfirst, hrest⟩ := exists_splitOnP_eq_cons p as
  rw [hparts] at h
  rcases List.mem_cons.mp h with rfl | h
  · exact hfirst.isInfix
  · exact hrest part h

omit [BEq α] [LawfulBEq α] in
theorem mem_of_mem_intercalate {sep : List α} {ls : List (List α)} {a : α}
    (h : a ∈ sep.intercalate ls) : a ∈ sep ∨ ∃ l ∈ ls, a ∈ l := by
  induction ls with
  | nil => cases h
  | cons l ls ih =>
    by_cases hls : ls = []
    · subst hls
      rw [List.intercalate_singleton] at h
      exact .inr ⟨l, List.mem_cons_self, h⟩
    · rw [List.intercalate_cons_of_ne_nil hls, List.mem_append, List.mem_append] at h
      rcases h with (h | h) | h
      · exact .inr ⟨l, List.mem_cons_self, h⟩
      · exact .inl h
      · rcases ih h with hsep | ⟨l', hl', ha⟩
        · exact .inl hsep
        · exact .inr ⟨l', List.mem_cons_of_mem _ hl', ha⟩

omit [BEq α] [LawfulBEq α] in
theorem mem_intercalate_of_mem {sep l : List α} {ls : List (List α)} {a : α}
    (hl : l ∈ ls) (ha : a ∈ l) : a ∈ sep.intercalate ls := by
  induction ls with
  | nil => cases hl
  | cons l' ls ih =>
    by_cases hls : ls = []
    · subst hls
      obtain rfl := List.mem_singleton.mp hl
      simpa using ha
    · rw [List.intercalate_cons_of_ne_nil hls, List.mem_append]
      rcases List.mem_cons.mp hl with rfl | hl
      · exact .inl (List.mem_append_left _ ha)
      · exact .inr (ih hl)

/-! ## Codes -/

omit [BEq α] [LawfulBEq α] in
/-- If none of some codes is a beginning of another, a row of codes determines what they show. -/
theorem map_eq_map_of_flatMap_eq {γ δ : Type} {code : α → List γ} {shown : α → δ} {p : α → Prop}
    {as bs : List α} (hne : ∀ a, p a → code a ≠ [])
    (hcode : ∀ a b s t, p a → p b → code a ++ s = code b ++ t → shown a = shown b ∧ s = t)
    (has : ∀ a ∈ as, p a) (hbs : ∀ b ∈ bs, p b) (h : as.flatMap code = bs.flatMap code) :
    as.map shown = bs.map shown := by
  induction as generalizing bs with
  | nil =>
    cases bs with
    | nil => rfl
    | cons b bs =>
      rw [List.flatMap_nil, List.flatMap_cons] at h
      exact absurd (List.append_eq_nil_iff.mp h.symm).1 (hne b (hbs b List.mem_cons_self))
  | cons a as ih =>
    obtain ⟨ha, has⟩ := List.forall_mem_cons.mp has
    cases bs with
    | nil =>
      rw [List.flatMap_nil, List.flatMap_cons] at h
      exact absurd (List.append_eq_nil_iff.mp h).1 (hne a ha)
    | cons b bs =>
      obtain ⟨hb, hbs⟩ := List.forall_mem_cons.mp hbs
      rw [List.flatMap_cons, List.flatMap_cons] at h
      obtain ⟨hshown, hrest⟩ := hcode a b _ _ ha hb h
      rw [List.map_cons, List.map_cons, hshown, ih has hbs hrest]

/-! ## Duplicates -/

omit [LawfulBEq α] in
/-- Induction that removes the later copies of the first member. -/
@[elab_as_elim]
theorem dups_induction {motive : List α → Prop} (nil : motive [])
    (cons : ∀ a as, motive (as.filter fun b => !b == a) → motive (a :: as)) (as : List α) :
    motive as := by
  induction hn : as.length using Nat.strongRecOn generalizing as with
  | ind n ih =>
    cases as with
    | nil => exact nil
    | cons a as =>
      have hlt : (as.filter fun b => !b == a).length < n := by
        have := List.length_filter_le (fun b => !b == a) as
        simp only [List.length_cons] at hn
        omega
      exact cons a as (ih _ hlt _ rfl)

theorem nodup_eraseDups (as : List α) : as.eraseDups.Nodup := by
  induction as using dups_induction with
  | nil => exact List.nodup_nil
  | cons a as ih =>
    rw [List.eraseDups_cons]
    exact List.nodup_cons.mpr ⟨by simp, ih⟩

omit [LawfulBEq α] in
theorem eraseDups_sublist (as : List α) : as.eraseDups.Sublist as := by
  induction as using dups_induction with
  | nil => exact .refl []
  | cons a as ih =>
    rw [List.eraseDups_cons]
    exact (ih.trans List.filter_sublist).cons_cons a

theorem eraseDups_of_nodup {as : List α} (h : as.Nodup) : as.eraseDups = as := by
  induction as with
  | nil => rfl
  | cons a as ih =>
    rw [List.nodup_cons] at h
    have hfilter : as.filter (fun b => !b == a) = as := by
      rw [List.filter_eq_self]
      intro b hb
      have hba : b ≠ a := fun hba => h.1 (hba ▸ hb)
      simpa using hba
    rw [List.eraseDups_cons, hfilter, ih h.2]

/-- In a list without duplicates the positions of the members increase. -/
theorem pairwise_idxOf {as : List α} (h : as.Nodup) :
    as.Pairwise fun a b => as.idxOf a < as.idxOf b := by
  rw [List.pairwise_iff_getElem]
  intro i j hi hj hij
  rw [h.idxOf_getElem, h.idxOf_getElem]
  exact hij

/-! ## Increasing lists -/

omit [BEq α] [LawfulBEq α] in
/-- The last member of an increasing list is its greatest. -/
theorem getLast?_eq_some_of_pairwise [PartialOrder α] {as : List α} {a : α}
    (has : as.Pairwise (· ≤ ·)) : as.getLast? = some a ↔ a ∈ as ∧ ∀ b ∈ as, b ≤ a := by
  have hlast : ∀ c, as.getLast? = some c → c ∈ as ∧ ∀ b ∈ as, b ≤ c := by
    intro c h
    obtain ⟨init, rfl⟩ := List.getLast?_eq_some_iff.mp h
    refine ⟨by simp, fun b hb => ?_⟩
    rcases List.mem_append.mp hb with hb | hb
    · exact (List.pairwise_append.mp has).2.2 b hb c (List.mem_singleton_self c)
    · exact (List.mem_singleton.mp hb).le
  refine ⟨hlast a, fun ⟨ha, hmax⟩ => ?_⟩
  have hc := List.getLast?_eq_some_getLast (List.ne_nil_of_mem ha)
  obtain ⟨hmem, hle⟩ := hlast _ hc
  rw [hc, le_antisymm (hmax _ hmem) (hle a ha)]

/-! ## Members kept by a filter -/

theorem filter_contains_filter (f : α → Bool) (as : List α) :
    as.filter (as.filter f).contains = as.filter f := by
  apply List.filter_congr
  intro a ha
  simp [ha]

/-! ## Association lists -/

/-- The value at a key, in a list that holds a value or none for each of some keys. -/
theorem lookup_filterMap {f : α → Option β} {as : List α} {a : α} :
    (as.filterMap fun a => (f a).map (a, ·)).lookup a = if a ∈ as then f a else none := by
  induction as with
  | nil => rfl
  | cons b as ih =>
    by_cases hab : a = b
    · subst hab
      cases hf : f a with
      | none => simp [hf, ih]
      | some p => simp [hf]
    · cases hf : f b with
      | none => simp [hf, ih, hab]
      | some p => simp [hf, ih, hab, List.lookup_cons, beq_eq_false_iff_ne.mpr hab]

end LexGen
