-- SUMMARY: Thompson's construction: the automaton of an expression accepts exactly its language.
import LexGen.Nfa.Thompson
import LexGen.Proofs.Expr.Language
import LexGen.Proofs.Nfa.Path

/-! # Correctness of Thompson's construction

The edges of a subexpression form a fragment: they stay inside an interval of states, none of them
leaves the last state, and the paths from the first state to the last spell exactly the words of the
subexpression. A larger fragment meets the states of a smaller one only at its two ends, so a path
that enters the smaller one either stays there or leaves it through its last state. -/

namespace LexGen

open Computability

namespace Nfa.Path

variable {edges inner : List (Edge Nat (Option Char))} {first last p q : Nat} {w : List Char}

/-! ## Paths through a part of an automaton -/

/-- A state without outgoing edges is left by no path. -/
theorem stuck (h : Path edges p w q) (hp : ∀ e ∈ edges, e.source ≠ p) : p = q ∧ w = [] := by
  cases h with
  | nil _ => exact ⟨rfl, rfl⟩
  | silent he _ => exact absurd rfl (hp _ he)
  | read he _ => exact absurd rfl (hp _ he)

/-- From a state with silent edges only, a path goes on to one of their targets. -/
theorem jump (targets : List Nat) (h : Path edges p w q) (hpq : p ≠ q)
    (hp : ∀ e ∈ edges, e.source = p → e.label = none ∧ e.target ∈ targets) :
    ∃ t ∈ targets, Path edges t w q := by
  cases h with
  | nil _ => exact absurd rfl hpq
  | silent he h => exact ⟨_, (hp _ he rfl).2, h⟩
  | read he _ => exact absurd (hp _ he rfl).1 (by simp)

/-- The edges of `inner` end between `first` and `last`, and they are the only ones of `edges` that
start at one of these states, apart from `last`. -/
structure Part (first last : Nat) (inner edges : List (Edge Nat (Option Char))) : Prop where
  target_le : ∀ e ∈ inner, first ≤ e.target ∧ e.target ≤ last
  only : ∀ e ∈ edges, first ≤ e.source → e.source < last → e ∈ inner

/-- A path out of a part goes through its last state. -/
theorem leave (hpart : Part first last inner edges) (h : Path edges p w q)
    (hp : first ≤ p ∧ p ≤ last) (hq : ¬(first ≤ q ∧ q < last)) :
    ∃ u v, w = u ++ v ∧ Path inner p u last ∧ Path edges last v q := by
  induction h with
  | nil p =>
    obtain rfl : p = last := by omega
    exact ⟨[], [], rfl, .nil p, .nil p⟩
  | @silent p t q w he h ih =>
    by_cases hlast : p = last
    · subst hlast
      exact ⟨[], w, rfl, .nil p, .silent he h⟩
    · have hinner := hpart.only _ he hp.1 (by simp; omega)
      obtain ⟨u, v, rfl, hu, hv⟩ := ih (hpart.target_le _ hinner) hq
      exact ⟨u, v, rfl, .silent hinner hu, hv⟩
  | @read p t q c w he h ih =>
    by_cases hlast : p = last
    · subst hlast
      exact ⟨[], c :: w, rfl, .nil p, .read he h⟩
    · have hinner := hpart.only _ he hp.1 (by simp; omega)
      obtain ⟨u, v, rfl, hu, hv⟩ := ih (hpart.target_le _ hinner) hq
      exact ⟨c :: u, v, rfl, .read hinner hu, hv⟩

/-- The words that paths along `edges` from one state to another spell. -/
def spelled (edges : List (Edge Nat (Option Char))) (p q : Nat) : Language Char :=
  fun w => Path edges p w q

/-- A part whose last state leads back to its first, or out to the end `q`, is passed any number of
times. -/
theorem loop (hpart : Part first last inner edges) (h : Path edges p w q)
    (hp : first ≤ p ∧ p ≤ last) (hlast : last < q)
    (hexit : ∀ e ∈ edges, e.source = last → e.label = none ∧ e.target ∈ [first, q])
    (hend : ∀ e ∈ edges, e.source ≠ q) :
    ∃ u v, w = u ++ v ∧ Path inner p u last ∧ v ∈ (spelled inner first last)∗ := by
  induction h with
  | nil p => omega
  | @silent p t q w he h ih =>
    by_cases hpl : p = last
    · subst hpl
      refine ⟨[], w, rfl, .nil p, ?_⟩
      have htarget : t ∈ [first, q] := (hexit _ he rfl).2
      rcases List.mem_pair.mp htarget with rfl | rfl
      · obtain ⟨u, v, rfl, hu, hv⟩ := ih ⟨Nat.le_refl _, hp.1⟩ hlast hexit hend
        rw [← Language.one_add_self_mul_kstar_eq_kstar]
        exact .inr (Language.append_mem_mul hu hv)
      · rw [(h.stuck hend).2]
        exact Language.nil_mem_kstar _
    · have hinner := hpart.only _ he hp.1 (by simp; omega)
      obtain ⟨u, v, rfl, hu, hv⟩ := ih (hpart.target_le _ hinner) hlast hexit hend
      exact ⟨u, v, rfl, .silent hinner hu, hv⟩
  | @read p t q c w he h ih =>
    by_cases hpl : p = last
    · subst hpl
      exact absurd (hexit _ he rfl).1 (by simp)
    · have hinner := hpart.only _ he hp.1 (by simp; omega)
      obtain ⟨u, v, rfl, hu, hv⟩ := ih (hpart.target_le _ hinner) hlast hexit hend
      exact ⟨c :: u, v, rfl, .read hinner hu, hv⟩

theorem unloop (hsub : inner ⊆ edges) (hback : ⟨last, none, first⟩ ∈ edges)
    (hout : ⟨last, none, q⟩ ∈ edges) (hw : w ∈ (spelled inner first last)∗) :
    Path edges last w q := by
  obtain ⟨words, rfl, hwords⟩ := Language.mem_kstar.mp hw
  clear hw
  induction words with
  | nil => exact .silent hout (.nil q)
  | cons u words ih =>
    have hu : Path inner first u last := hwords u List.mem_cons_self
    have hrest := ih fun v hv => hwords v (List.mem_cons_of_mem _ hv)
    exact .silent hback ((hu.mono hsub).append hrest)

end Nfa.Path

/-! ## Fragments -/

/-- Edges on the states from `first` to `last`, with paths between the two for the words of `l`. -/
structure Fragment (first last : Nat) (edges : List (Edge Nat (Option Char)))
    (l : Language Char) : Prop where
  le : first ≤ last
  inside : ∀ e ∈ edges, (first ≤ e.source ∧ e.source < last) ∧ first ≤ e.target ∧ e.target ≤ last
  path_iff : ∀ w, Nfa.Path edges first w last ↔ w ∈ l

namespace Fragment

variable {first last inner q : Nat} {edges part : List (Edge Nat (Option Char))}
  {l r : Language Char} {u w : List Char}

theorem spelled_eq (h : Fragment first last edges l) : Nfa.Path.spelled edges first last = l := by
  ext w
  exact h.path_iff w

theorem isPart (h : Fragment first last part l)
    (honly : ∀ e ∈ edges, first ≤ e.source → e.source < last → e ∈ part) :
    Nfa.Path.Part first last part edges :=
  ⟨fun e he => (h.inside e he).2, honly⟩

/-- A path through a fragment and out of it starts with a word of the fragment. -/
theorem leave (hpart : Fragment first last part l)
    (honly : ∀ e ∈ edges, first ≤ e.source → e.source < last → e ∈ part)
    (h : Nfa.Path edges first w q) (hq : ¬(first ≤ q ∧ q < last)) :
    ∃ u ∈ l, ∃ v, u ++ v = w ∧ Nfa.Path edges last v q := by
  obtain ⟨u, v, rfl, hu, hv⟩ := h.leave (hpart.isPart honly) ⟨Nat.le_refl _, hpart.le⟩ hq
  exact ⟨u, (hpart.path_iff u).mp hu, v, rfl, hv⟩

theorem pass (hpart : Fragment first last part l) (hsub : part ⊆ edges) (hu : u ∈ l) :
    Nfa.Path edges first u last :=
  ((hpart.path_iff u).mpr hu).mono hsub

/-! ### One fragment for each operator -/

theorem symbol (first : Nat) (c : Char) :
    Fragment first (first + 1) [⟨first, some c, first + 1⟩] {[c]} := by
  refine ⟨by omega, by simp, fun w => ⟨fun h => ?_, fun h => ?_⟩⟩
  · cases h with
    | silent he _ => simp at he
    | read he h =>
      obtain ⟨rfl, rfl⟩ : _ = c ∧ _ = first + 1 := by simpa using he
      rw [(h.stuck (by simp)).2]
      rfl
  · obtain rfl : w = [c] := h
    exact .read (List.mem_singleton_self _) (.nil _)

theorem epsilon (first : Nat) : Fragment first first [] 1 := by
  refine ⟨Nat.le_refl _, by simp, fun w => ⟨fun h => (h.stuck (by simp)).2, fun h => ?_⟩⟩
  obtain rfl : w = [] := h
  exact .nil first

theorem empty (first : Nat) : Fragment first (first + 1) [] 0 := by
  refine ⟨by omega, by simp, fun w => ⟨fun h => ?_, fun h => ?_⟩⟩
  · have := (h.stuck (by simp)).1
    omega
  · exact absurd h (Language.notMem_zero w)

theorem concat {mid : Nat} {left right : List (Edge Nat (Option Char))}
    (hl : Fragment first mid left l) (hr : Fragment (mid + 1) last right r) :
    Fragment first last (⟨mid, none, mid + 1⟩ :: (right ++ left)) (l * r) := by
  have := hl.le
  have := hr.le
  have := hl.inside
  have := hr.inside
  refine ⟨by omega, by grind, fun w => ?_⟩
  rw [Language.mem_mul]
  refine ⟨fun h => ?_, fun ⟨u, hu, v, hv, hw⟩ => ?_⟩
  · obtain ⟨u, hu, v, rfl, hmid⟩ := hl.leave (by grind) h (by omega)
    obtain ⟨t, ht, hnext⟩ := hmid.jump [mid + 1] (by omega) (by grind)
    obtain rfl := List.mem_singleton.mp ht
    obtain ⟨v, hv, rest, rfl, hlast⟩ := hr.leave (by grind) hnext (by omega)
    rw [(hlast.stuck (by grind)).2]
    exact ⟨u, hu, v, hv, by simp⟩
  · subst hw
    exact (hl.pass (by grind) hu).append (.silent List.mem_cons_self (hr.pass (by grind) hv))

/-- A fragment whose last state leads to the end only is passed once. -/
theorem path_once (edges : List (Edge Nat (Option Char)))
    (hpart : Fragment first last part l) (hsub : part ⊆ edges)
    (hout : ⟨last, none, q⟩ ∈ edges)
    (honly : ∀ e ∈ edges, first ≤ e.source → e.source < last → e ∈ part)
    (hexit : ∀ e ∈ edges, e.source = last → e.label = none ∧ e.target ∈ [q])
    (hend : ∀ e ∈ edges, e.source ≠ q) (hq : last < q) :
    Nfa.Path edges first w q ↔ w ∈ l := by
  refine ⟨fun h => ?_, fun hw => ?_⟩
  · obtain ⟨u, hu, v, rfl, hlast⟩ := hpart.leave honly h (by omega)
    obtain ⟨t, ht, hnext⟩ := hlast.jump [q] (by omega) hexit
    obtain rfl := List.mem_singleton.mp ht
    rw [(hnext.stuck hend).2, List.append_nil]
    exact hu
  · have hpath := (hpart.pass hsub hw).append (.silent hout (.nil q))
    rwa [List.append_nil] at hpath

theorem union {mid inner : Nat} {left right : List (Edge Nat (Option Char))}
    (hl : Fragment (first + 1) mid left l) (hr : Fragment (mid + 1) inner right r) :
    Fragment first (inner + 1)
      (⟨first, none, first + 1⟩ :: ⟨first, none, mid + 1⟩ ::
        ⟨mid, none, inner + 1⟩ :: ⟨inner, none, inner + 1⟩ :: (right ++ left)) (l + r) := by
  have := hl.le
  have := hr.le
  have := hl.inside
  have := hr.inside
  refine ⟨by omega, by grind, fun w => ?_⟩
  have hleft := hl.path_once (w := w) (q := inner + 1)
    (⟨first, none, first + 1⟩ :: ⟨first, none, mid + 1⟩ ::
      ⟨mid, none, inner + 1⟩ :: ⟨inner, none, inner + 1⟩ :: (right ++ left))
    (by grind) (by simp) (by grind) (by grind) (by grind) (by omega)
  have hright := hr.path_once (w := w) (q := inner + 1)
    (⟨first, none, first + 1⟩ :: ⟨first, none, mid + 1⟩ ::
      ⟨mid, none, inner + 1⟩ :: ⟨inner, none, inner + 1⟩ :: (right ++ left))
    (by grind) (by simp) (by grind) (by grind) (by grind) (by omega)
  rw [Language.mem_add, ← hleft, ← hright]
  refine ⟨fun h => ?_, fun h => ?_⟩
  · obtain ⟨t, ht, hbranch⟩ := h.jump [first + 1, mid + 1] (by omega) (by grind)
    rcases List.mem_pair.mp ht with rfl | rfl
    · exact .inl hbranch
    · exact .inr hbranch
  · rcases h with h | h
    · exact .silent (q := first + 1) (by simp) h
    · exact .silent (q := mid + 1) (by simp) h

/-- A fragment with a way back is passed at least once. -/
theorem path_repeat (edges : List (Edge Nat (Option Char)))
    (hpart : Fragment first last part l) (hsub : part ⊆ edges)
    (hback : ⟨last, none, first⟩ ∈ edges) (hout : ⟨last, none, q⟩ ∈ edges)
    (honly : ∀ e ∈ edges, first ≤ e.source → e.source < last → e ∈ part)
    (hexit : ∀ e ∈ edges, e.source = last → e.label = none ∧ e.target ∈ [first, q])
    (hend : ∀ e ∈ edges, e.source ≠ q) (hq : last < q) :
    Nfa.Path edges first w q ↔ w ∈ l * l∗ := by
  rw [Language.mem_mul]
  refine ⟨fun h => ?_, fun ⟨u, hu, v, hv, hw⟩ => ?_⟩
  · obtain ⟨u, v, rfl, hu, hv⟩ :=
      h.loop (hpart.isPart honly) ⟨Nat.le_refl _, hpart.le⟩ hq hexit hend
    rw [hpart.spelled_eq] at hv
    exact ⟨u, (hpart.path_iff u).mp hu, v, hv, rfl⟩
  · subst hw
    rw [← hpart.spelled_eq] at hv
    exact (hpart.pass hsub hu).append (Nfa.Path.unloop hsub hback hout hv)

theorem star {inner : Nat} (hpart : Fragment (first + 1) inner part l) :
    Fragment first (inner + 1)
      (⟨first, none, first + 1⟩ :: ⟨first, none, inner + 1⟩ ::
        ⟨inner, none, first + 1⟩ :: ⟨inner, none, inner + 1⟩ :: part) l∗ := by
  have := hpart.le
  have := hpart.inside
  refine ⟨by omega, by grind, fun w => ?_⟩
  have hrepeat := fun w => hpart.path_repeat (w := w) (q := inner + 1)
    (⟨first, none, first + 1⟩ :: ⟨first, none, inner + 1⟩ ::
      ⟨inner, none, first + 1⟩ :: ⟨inner, none, inner + 1⟩ :: part)
    (by grind) (by simp) (by simp) (by grind) (by grind) (by grind) (by omega)
  rw [← Language.one_add_self_mul_kstar_eq_kstar, Language.mem_add, Language.mem_one, ← hrepeat]
  refine ⟨fun h => ?_, fun hw => ?_⟩
  · obtain ⟨t, ht, hnext⟩ := h.jump [first + 1, inner + 1] (by omega) (by grind)
    rcases List.mem_pair.mp ht with rfl | rfl
    · exact .inr hnext
    · exact .inl (hnext.stuck (by grind)).2
  · rcases hw with rfl | h
    · exact .silent (q := inner + 1) (by simp) (.nil _)
    · exact .silent (q := first + 1) (by simp) h

theorem plus {inner : Nat} (hpart : Fragment (first + 1) inner part l) :
    Fragment first (inner + 1)
      (⟨first, none, first + 1⟩ ::
        ⟨inner, none, first + 1⟩ :: ⟨inner, none, inner + 1⟩ :: part) (l * l∗) := by
  have := hpart.le
  have := hpart.inside
  refine ⟨by omega, by grind, fun w => ?_⟩
  have hrepeat := hpart.path_repeat (w := w) (q := inner + 1)
    (⟨first, none, first + 1⟩ ::
      ⟨inner, none, first + 1⟩ :: ⟨inner, none, inner + 1⟩ :: part)
    (by grind) (by simp) (by simp) (by grind) (by grind) (by grind) (by omega)
  rw [← hrepeat]
  refine ⟨fun h => ?_, fun h => .silent (q := first + 1) (by simp) h⟩
  obtain ⟨t, ht, hnext⟩ := h.jump [first + 1] (by omega) (by grind)
  obtain rfl := List.mem_singleton.mp ht
  exact hnext

end Fragment

/-! ## Expressions -/

namespace Expr

/-- The last state of the fragment of an expression. -/
def last (first : Nat) (e : Expr) : Nat :=
  (e.place first []).1

/-- The edges of the fragment of an expression. -/
def fragment (first : Nat) (e : Expr) : List (Edge Nat (Option Char)) :=
  (e.place first []).2

theorem place_eq (e : Expr) (first : Nat) (edges : List (Edge Nat (Option Char))) :
    e.place first edges = (e.last first, e.fragment first ++ edges) := by
  induction e generalizing first edges with
  | symbol _ | epsilon | empty => rfl
  | concat l r ihl ihr | union l r ihl ihr =>
    simp only [last, fragment, place] at ihl ihr ⊢
    rw [ihl _ edges, ihr _ (_ ++ edges), ihr _ (l.place _ []).2]
    simp
  | star e ih | plus e ih =>
    simp only [last, fragment, place] at ih ⊢
    rw [ih _ edges]
    simp

theorem place_concat (l r : Expr) (first : Nat) :
    (l.concat r).place first [] =
      (r.last (l.last first + 1), ⟨l.last first, none, l.last first + 1⟩ ::
        (r.fragment (l.last first + 1) ++ l.fragment first)) := by
  simp [place, place_eq]

theorem place_union (l r : Expr) (first : Nat) :
    (l.union r).place first [] =
      (r.last (l.last (first + 1) + 1) + 1,
        ⟨first, none, first + 1⟩ :: ⟨first, none, l.last (first + 1) + 1⟩ ::
          ⟨l.last (first + 1), none, r.last (l.last (first + 1) + 1) + 1⟩ ::
          ⟨r.last (l.last (first + 1) + 1), none, r.last (l.last (first + 1) + 1) + 1⟩ ::
          (r.fragment (l.last (first + 1) + 1) ++ l.fragment (first + 1))) := by
  simp [place, place_eq]

theorem fragment_language (e : Expr) (first : Nat) :
    Fragment first (e.last first) (e.fragment first) e.language := by
  induction e generalizing first with
  | symbol c => exact .symbol first c
  | epsilon => exact .epsilon first
  | empty => exact .empty first
  | concat l r ihl ihr =>
    rw [last, fragment, place_concat]
    exact (ihl first).concat (ihr _)
  | union l r ihl ihr =>
    rw [last, fragment, place_union]
    exact (ihl (first + 1)).union (ihr _)
  | star e ih => exact (ih (first + 1)).star
  | plus e ih => exact (ih (first + 1)).plus

/-- The edges that are not silent read the symbols of the expression, each of them once. -/
theorem labels_fragment (e : Expr) (first : Nat) :
    (e.fragment first).filterMap (·.label) = e.symbols.reverse := by
  induction e generalizing first with
  | symbol _ | epsilon | empty => rfl
  | concat l r ihl ihr =>
    rw [fragment, place_concat]
    simp [symbols, ihl, ihr]
  | union l r ihl ihr =>
    rw [fragment, place_union]
    simp [symbols, ihl, ihr]
  | star e ih | plus e ih => exact ih (first + 1)

theorem mem_edges_toNfa {e : Expr} {edge : Edge Nat (Option Char)} :
    edge ∈ e.toNfa.edges ↔ edge ∈ e.fragment 0 := by
  refine Nfa.mem_edges_ofEdges.trans ⟨And.left, fun h => ⟨h, ?_⟩⟩
  have hinside := ((e.fragment_language 0).inside edge h).1.2
  exact Nat.lt_succ_of_lt hinside

theorem mem_alphabet_toNfa {e : Expr} {c : Char} : c ∈ e.toNfa.alphabet ↔ c ∈ e.symbols := by
  rw [Nfa.mem_alphabet, ← List.mem_reverse, ← e.labels_fragment 0, List.mem_filterMap]
  simp only [mem_edges_toNfa]
  refine ⟨fun ⟨p, q, h⟩ => ⟨_, h, rfl⟩, fun ⟨⟨p, label, q⟩, h, hlabel⟩ => ?_⟩
  obtain rfl : label = some c := hlabel
  exact ⟨p, q, h⟩

theorem size_toNfa (e : Expr) : e.toNfa.size = e.last 0 + 1 :=
  Nfa.size_ofEdges

theorem wellFormed_toNfa (e : Expr) : e.toNfa.WellFormed := by
  refine ⟨by simp [size_toNfa], fun edge h => ?_⟩
  have hinside := ((e.fragment_language 0).inside edge (mem_edges_toNfa.mp h)).2.2
  rw [size_toNfa]
  exact Nat.lt_succ_of_le hinside

/-- Thompson's automaton accepts exactly the words of the expression. -/
theorem accept_toNfa (e : Expr) (w : List Char) : e.toNfa.accept w = true ↔ w ∈ e.language := by
  rw [Nfa.accept_iff_path e.wellFormed_toNfa, Nfa.Path.congr fun _ => mem_edges_toNfa]
  exact (e.fragment_language 0).path_iff w

end Expr

end LexGen
