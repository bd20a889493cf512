-- SUMMARY: When steps that may fail give a result: one behind the other, for each member of a list, and along a list.
import Mathlib.Data.List.Forall2

/-! # Results of steps that may fail -/

namespace LexGen

variable {ε α β σ : Type}

theorem ok_bind (a : α) (f : α → Except ε β) : Except.ok a >>= f = f a := rfl

theorem bind_eq_ok_iff {x : Except ε α} {f : α → Except ε β} {b : β} :
    x >>= f = .ok b ↔ ∃ a, x = .ok a ∧ f a = .ok b := by
  cases x with
  | error e => simp [bind, Except.bind]
  | ok a => simp [bind, Except.bind]

theorem bind_eq_error_iff {x : Except ε α} {f : α → Except ε β} {e : ε} :
    x >>= f = .error e ↔ x = .error e ∨ ∃ a, x = .ok a ∧ f a = .error e := by
  cases x with
  | error e' => simp [bind, Except.bind]
  | ok a => simp [bind, Except.bind]

theorem map_eq_ok_iff {x : Except ε α} {f : α → β} {b : β} :
    x.map f = .ok b ↔ ∃ a, x = .ok a ∧ f a = b := by
  cases x with
  | error e => simp [Except.map]
  | ok a => simp [Except.map]

theorem map_eq_error_iff {x : Except ε α} {f : α → β} {e : ε} :
    x.map f = .error e ↔ x = .error e := by
  cases x with
  | error e' => simp [Except.map]
  | ok a => simp [Except.map]

theorem mapM_eq_ok {f : α → Except ε β} {as : List α} {bs : List β} :
    as.mapM f = .ok bs ↔ List.Forall₂ (fun a b => f a = .ok b) as bs := by
  induction as generalizing bs with
  | nil => cases bs <;> simp [pure, Except.pure]
  | cons a as ih =>
    rw [List.mapM_cons, bind_eq_ok_iff]
    constructor
    · rintro ⟨b, hb, h⟩
      obtain ⟨bs', hbs, h⟩ := bind_eq_ok_iff.mp h
      cases h
      exact .cons hb (ih.mp hbs)
    · intro h
      cases h with
      | cons hb hbs => exact ⟨_, hb, bind_eq_ok_iff.mpr ⟨_, ih.mpr hbs, rfl⟩⟩

/-- The first step that fails decides the error. -/
theorem mapM_eq_error {f : α → Except ε β} {as : List α} {e : ε} :
    as.mapM f = .error e ↔ ∃ before a after bs, as = before ++ a :: after ∧
      List.Forall₂ (fun a b => f a = .ok b) before bs ∧ f a = .error e := by
  induction as with
  | nil => simp [pure, Except.pure]
  | cons a as ih =>
    rw [List.mapM_cons, bind_eq_error_iff]
    constructor
    · rintro (ha | ⟨b, hb, h⟩)
      · exact ⟨[], a, as, [], rfl, .nil, ha⟩
      · obtain h | ⟨bs, _, h⟩ := bind_eq_error_iff.mp h
        · obtain ⟨before, a', after, bs, rfl, hbefore, ha'⟩ := ih.mp h
          exact ⟨a :: before, a', after, b :: bs, rfl, .cons hb hbefore, ha'⟩
        · cases h
    · rintro ⟨before, a', after, bs, heq, hbefore, ha'⟩
      cases hbefore with
      | nil =>
        cases heq
        exact .inl ha'
      | cons hb hbefore =>
        cases heq
        exact .inr ⟨_, hb, bind_eq_error_iff.mpr (.inl (ih.mpr ⟨_, _, _, _, rfl, hbefore, ha'⟩))⟩

theorem forM_eq_ok {f : α → Except ε Unit} {as : List α} :
    as.forM f = .ok () ↔ ∀ a ∈ as, f a = .ok () := by
  induction as with
  | nil => exact iff_of_true rfl (by simp)
  | cons a as ih =>
    rw [List.forM_eq_forM, List.forM_cons, bind_eq_ok_iff, List.forall_mem_cons, ← ih,
      List.forM_eq_forM]
    exact ⟨fun ⟨_, ha, has⟩ => ⟨ha, has⟩, fun ⟨ha, has⟩ => ⟨(), ha, has⟩⟩

/-- How the states before and behind each step are related, those before and behind all are too. -/
theorem foldlM_related {R : σ → σ → Prop} {f : σ → α → Except ε σ} (hrefl : ∀ s, R s s)
    (htrans : ∀ s t u, R s t → R t u → R s u) (h : ∀ s a t, f s a = .ok t → R s t) {as : List α}
    {s t : σ} (hfold : as.foldlM f s = .ok t) : R s t := by
  induction as generalizing s with
  | nil =>
    obtain rfl := Except.ok.inj hfold
    exact hrefl _
  | cons a as ih =>
    rw [List.foldlM_cons] at hfold
    obtain ⟨u, hu, hfold⟩ := bind_eq_ok_iff.mp hfold
    exact htrans _ _ _ (h _ _ _ hu) (ih hfold)

end LexGen
