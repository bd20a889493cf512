-- SUMMARY: Infix notation is unambiguous: the text of an expression determines the tree, unless a symbol is one of the characters that the notation itself uses.
import Mathlib
import LexGen.Expr.Render
import LexGen.Expr.Token
import LexGen.Proofs.Expr.Language
import LexGen.Proofs.Text

/-! # Reading infix notation

The text of an expression is read in two steps. Its characters make up tokens, none of which is a
beginning of another; here it matters that a symbol is not one of the characters of the notation. The
tokens make up the tree. Operators with two operands stand between parentheses, so only repetitions
remain to be attributed: a star or a plus belongs to the expression that ends in front of it. -/

namespace LexGen

/-! ## Code points -/

namespace Text.Quoted

theorem digitChar_inj : ∀ m < 16, ∀ n < 16, m.digitChar = n.digitChar → m = n := by
  decide

theorem toDigits_injective : Function.Injective (Nat.toDigits 16) := by
  intro m
  induction m using Nat.strongRecOn with
  | ind m ih =>
    intro n h
    have hlength : ∀ k, (Nat.toDigits 16 k).length ≤ 1 ↔ k < 16 := fun k =>
      Nat.length_toDigits_le_iff (by decide) (by decide)
    have hlt : m < 16 ↔ n < 16 := by rw [← hlength, h, hlength]
    by_cases hm : m < 16
    · rw [Nat.toDigits_of_lt_base hm, Nat.toDigits_of_lt_base (hlt.mp hm)] at h
      exact digitChar_inj m hm n (hlt.mp hm) (List.singleton_inj.mp h)
    · have hn : ¬ n < 16 := mt hlt.mpr hm
      rw [Nat.toDigits_of_base_le (by decide) (Nat.le_of_not_lt hm),
        Nat.toDigits_of_base_le (by decide) (Nat.le_of_not_lt hn)] at h
      obtain ⟨hinit, hlast⟩ := List.append_inj' h rfl
      have hdiv := ih (m / 16) (Nat.div_lt_self (by omega) (by decide)) hinit
      have hmod := digitChar_inj (m % 16) (Nat.mod_lt m (by decide)) (n % 16)
        (Nat.mod_lt n (by decide)) (List.singleton_inj.mp hlast)
      omega

theorem brace_not_mem_toDigits (n : Nat) : '}' ∉ Nat.toDigits 16 n := by
  have hdigit : ∀ k : Nat, '}' ∉ [k.digitChar] := fun k =>
    mt List.mem_singleton.mp (Nat.digitChar_ne '}' (by decide)).symm
  induction n using Nat.base_induction 16 (by decide) with
  | single m hm =>
    rw [Nat.toDigits_of_lt_base hm]
    exact hdigit m
  | digit m k hk hm ih =>
    rw [← Nat.toDigits_append_toDigits (by decide) hm hk, Nat.toDigits_of_lt_base hk, List.mem_append]
    exact not_or.mpr ⟨ih, hdigit k⟩

/-- The brace behind the digits of a code point ends them. -/
theorem codePoint_append_inj {b c : Char} {s t : List Char}
    (h : codePoint b ++ s = codePoint c ++ t) : b = c ∧ s = t := by
  have hdigits : Nat.toDigits 16 b.toNat ++ '}' :: s = Nat.toDigits 16 c.toNat ++ '}' :: t := by
    simpa [codePoint] using h
  obtain ⟨hbc, hst⟩ :=
    append_cons_inj (brace_not_mem_toDigits _) (brace_not_mem_toDigits _) hdigits
  exact ⟨Char.toNat_inj.mp (toDigits_injective hbc), hst⟩

end Text.Quoted

/-! ## Symbols -/

namespace Expr

open Text.Quoted (codePoint codePoint_append_inj)

/-- The symbols that are written as a backslash and one more character. -/
def shortEscapes : List (Char × Char) :=
  [('\t', 't'), ('\r', 'r'), ('\n', 'n'), ('\\', '\\'), ('\'', '\''), ('"', '"')]

theorem shortEscapes_inj : ∀ x ∈ shortEscapes, x.2 ≠ 'u' ∧ ∀ y ∈ shortEscapes, x.2 = y.2 → x = y := by
  decide

theorem infixSymbol_cases (c : Char) :
    (∃ d, (c, d) ∈ shortEscapes ∧ infixSymbol c = ['\\', d]) ∨ infixSymbol c = codePoint c ∨
      c ≠ '\\' ∧ c.toNat ≤ 0x7E ∧ infixSymbol c = [c] := by
  by_cases hc : c ∈ shortEscapes.map (·.1)
  · obtain ⟨⟨c, d⟩, hmem, rfl⟩ := List.mem_map.mp hc
    refine .inl ⟨d, hmem, ?_⟩
    simp only [shortEscapes, List.mem_cons, Prod.mk.injEq, List.not_mem_nil, or_false] at hmem
    rcases hmem with ⟨rfl, rfl⟩ | ⟨rfl, rfl⟩ | ⟨rfl, rfl⟩ | ⟨rfl, rfl⟩ | ⟨rfl, rfl⟩ | ⟨rfl, rfl⟩ <;>
      rfl
  · simp only [shortEscapes, List.map_cons, List.map_nil, List.mem_cons, List.not_mem_nil, or_false,
      not_or] at hc
    obtain ⟨ht, hr, hn, hslash, hquote, hquotes⟩ := hc
    by_cases hascii : (0x20 ≤ c.toNat && c.toNat ≤ 0x7E) = true
    · refine .inr (.inr ⟨hslash, ?_, by simp [infixSymbol, *]⟩)
      simp only [Bool.and_eq_true, decide_eq_true_eq] at hascii
      exact hascii.2
    · exact .inr (.inl (by simp [infixSymbol, *]))

/-- A symbol is written with a backslash in front, unless it is an ASCII character. -/
theorem head?_infixSymbol (c : Char) : (infixSymbol c).head? = some '\\' ∨
    c.toNat ≤ 0x7E ∧ (infixSymbol c).head? = some c := by
  rcases infixSymbol_cases c with ⟨_, -, h⟩ | h | ⟨-, hle, h⟩
  · exact .inl (by rw [h]; rfl)
  · exact .inl (by rw [h]; rfl)
  · exact .inr ⟨hle, by rw [h]; rfl⟩

/-- No form of a symbol is a beginning of that of another. -/
theorem infixSymbol_append_inj {b c : Char} {s t : List Char}
    (h : infixSymbol b ++ s = infixSymbol c ++ t) : b = c ∧ s = t := by
  rcases infixSymbol_cases b with ⟨d, hd, hb⟩ | hb | ⟨hslash, -, hb⟩ <;>
    rcases infixSymbol_cases c with ⟨d', hd', hc⟩ | hc | ⟨hslash', -, hc⟩ <;>
    rw [hb, hc] at h
  · obtain ⟨hdd, hst⟩ := List.cons.inj (List.cons.inj h).2
    exact ⟨congrArg Prod.fst ((shortEscapes_inj _ hd).2 _ hd' hdd), hst⟩
  · exact absurd (List.cons.inj (List.cons.inj h).2).1 (shortEscapes_inj _ hd).1
  · exact absurd (List.cons.inj h).1.symm hslash'
  · exact absurd (List.cons.inj (List.cons.inj h).2).1.symm (shortEscapes_inj _ hd').1
  · exact codePoint_append_inj h
  · exact absurd (List.cons.inj h).1.symm hslash'
  · exact absurd (List.cons.inj h).1 hslash
  · exact absurd (List.cons.inj h).1 hslash
  · exact List.cons.inj h

end Expr

/-! ## Tokens -/

/-- The characters of infix notation that a symbol may be mistaken for. -/
def infixMarks : List Char :=
  ['(', ')', '*', '+', ' ']

/-- A token of infix notation. -/
inductive InfixToken where
  | symbol (c : Char)
  | epsilon
  | empty
  | opening
  | closing
  | unionSign
  | repeated (op : Unary)
  deriving DecidableEq

namespace InfixToken

/-- The text of a token. -/
def text : InfixToken → List Char
  | .symbol c => Expr.infixSymbol c
  | .epsilon => ['ε']
  | .empty => ['∅']
  | .opening => ['(']
  | .closing => [')']
  | .unionSign => [' ', 'U', ' ']
  | .repeated .star => ['*']
  | .repeated .plus => ['+']

/-- The tokens that are not symbols. -/
def marks : List InfixToken :=
  [.epsilon, .empty, .opening, .closing, .unionSign, .repeated .star, .repeated .plus]

/-- The token can stand at the beginning of an expression. -/
def begins : InfixToken → Bool
  | .symbol _ | .epsilon | .empty | .opening => true
  | .closing | .unionSign | .repeated _ => false

/-- The token is not a symbol that looks like another token. -/
def Plain (a : InfixToken) : Prop :=
  ∀ c, a = .symbol c → c ∉ infixMarks

theorem symbol_or_mem_marks (a : InfixToken) : (∃ c, a = symbol c) ∨ a ∈ marks := by
  cases a with
  | symbol c => exact .inl ⟨c, rfl⟩
  | repeated op => cases op <;> exact .inr (by decide)
  | epsilon | empty | opening | closing | unionSign => exact .inr (by decide)

theorem head?_text_of_mem_marks :
    ∀ a ∈ marks, ∃ d ∈ 'ε' :: '∅' :: infixMarks, a.text.head? = some d := by
  simp [marks, infixMarks, text]

theorem eq_of_head?_text : ∀ a ∈ marks, ∀ b ∈ marks, a.text.head? = b.text.head? → a = b := by
  decide

/-- Symbols are told from the other tokens by their first characters. -/
theorem head?_text_symbol {c : Char} (hc : c ∉ infixMarks) :
    ∀ d ∈ 'ε' :: '∅' :: infixMarks, (symbol c).text.head? ≠ some d := by
  intro d hd hhead
  rcases Expr.head?_infixSymbol c with hfirst | ⟨hle, hfirst⟩
  · obtain rfl := Option.some.inj (hfirst.symm.trans hhead)
    exact absurd hd (by decide)
  · obtain rfl := Option.some.inj (hfirst.symm.trans hhead)
    rcases List.mem_cons.mp hd with rfl | hd
    · exact absurd hle (by decide)
    · rcases List.mem_cons.mp hd with rfl | hd
      · exact absurd hle (by decide)
      · exact hc hd

theorem text_ne_nil (a : InfixToken) : a.text ≠ [] := by
  intro htext
  rcases a.symbol_or_mem_marks with ⟨c, rfl⟩ | ha
  · change Expr.infixSymbol c = [] at htext
    rcases Expr.head?_infixSymbol c with hfirst | ⟨-, hfirst⟩ <;>
      rw [htext] at hfirst <;> cases hfirst
  · obtain ⟨d, -, hd⟩ := head?_text_of_mem_marks a ha
    rw [htext] at hd
    cases hd

/-- No token is a beginning of another. -/
theorem text_append_inj {a b : InfixToken} {s t : List Char} (ha : a.Plain) (hb : b.Plain)
    (h : a.text ++ s = b.text ++ t) : a = b ∧ s = t := by
  have hhead : a.text.head? = b.text.head? := by
    have hhead := congrArg List.head? h
    rwa [List.head?_append_of_ne_nil _ a.text_ne_nil,
      List.head?_append_of_ne_nil _ b.text_ne_nil] at hhead
  rcases a.symbol_or_mem_marks with ⟨c, rfl⟩ | hmark
  · rcases b.symbol_or_mem_marks with ⟨c', rfl⟩ | hmark'
    · obtain ⟨rfl, hst⟩ := Expr.infixSymbol_append_inj h
      exact ⟨rfl, hst⟩
    · obtain ⟨d, hd, hfirst⟩ := head?_text_of_mem_marks b hmark'
      exact absurd (hhead.trans hfirst) (head?_text_symbol (ha c rfl) d hd)
  · rcases b.symbol_or_mem_marks with ⟨c', rfl⟩ | hmark'
    · obtain ⟨d, hd, hfirst⟩ := head?_text_of_mem_marks a hmark
      exact absurd (hhead.symm.trans hfirst) (head?_text_symbol (hb c' rfl) d hd)
    · obtain rfl := eq_of_head?_text a hmark b hmark' hhead
      exact ⟨rfl, List.append_cancel_left h⟩

end InfixToken

/-! ## Trees -/

namespace Expr

variable {e e' : Expr}

/-- The tokens of an expression in infix notation. -/
def infixTokens : Expr → List InfixToken
  | .symbol c => [.symbol c]
  | .epsilon => [.epsilon]
  | .empty => [.empty]
  | .concat l r => .opening :: (l.infixTokens ++ (r.infixTokens ++ [.closing]))
  | .union l r => .opening :: (l.infixTokens ++ .unionSign :: (r.infixTokens ++ [.closing]))
  | .star e => e.infixTokens ++ [.repeated .star]
  | .plus e => e.infixTokens ++ [.repeated .plus]

theorem infixChars_eq (e : Expr) : e.infixChars = e.infixTokens.flatMap InfixToken.text := by
  induction e with
  | symbol c => simp [infixChars, infixTokens, InfixToken.text]
  | epsilon | empty => rfl
  | concat l r ihl ihr | union l r ihl ihr =>
    simp [infixChars, infixTokens, InfixToken.text, ihl, ihr]
  | star e ih | plus e ih => simp [infixChars, infixTokens, InfixToken.text, ih]

theorem symbol_mem_infixTokens {c : Char} : .symbol c ∈ e.infixTokens ↔ c ∈ e.symbols := by
  induction e with
  | symbol | epsilon | empty => simp [infixTokens, symbols]
  | concat l r ihl ihr | union l r ihl ihr => simp [infixTokens, symbols, ihl, ihr]
  | star e ih | plus e ih => simp [infixTokens, symbols, ih]

theorem infixTokens_unary (op : Unary) (e : Expr) :
    (op.apply e).infixTokens = e.infixTokens ++ [.repeated op] := by
  cases op <;> rfl

/-- What stands between the operands. -/
def sign : Binary → List InfixToken
  | .concat => []
  | .union => [.unionSign]

theorem infixTokens_binary (op : Binary) (l r : Expr) : (op.apply l r).infixTokens =
    .opening :: (l.infixTokens ++ (sign op ++ (r.infixTokens ++ [.closing]))) := by
  cases op <;> rfl

theorem infixTokens_eq_cons (e : Expr) : ∃ a as, e.infixTokens = a :: as ∧ a.begins = true := by
  induction e with
  | symbol | epsilon | empty | concat | union => exact ⟨_, _, rfl, rfl⟩
  | star e ih | plus e ih =>
    obtain ⟨a, as, htokens, ha⟩ := ih
    exact ⟨a, as ++ _, by rw [infixTokens, htokens]; rfl, ha⟩

/-- The expression under some repetitions, the innermost first. -/
def repeated (e : Expr) (ops : List Unary) : Expr :=
  ops.foldl (fun e op => op.apply e) e

/-- Two expressions at the beginning of the same tokens are the same up to repetitions: what one of
them leaves of the tokens are repetitions that belong to the other. -/
def Comparable (e e' : Expr) : Prop :=
  ∀ rest rest', e.infixTokens ++ rest = e'.infixTokens ++ rest' → ∃ ops : List Unary,
    e' = e.repeated ops ∧ rest = ops.map .repeated ++ rest' ∨
      e = e'.repeated ops ∧ rest' = ops.map .repeated ++ rest

namespace Comparable

theorem symm (h : Comparable e e') : Comparable e' e := by
  intro rest rest' htokens
  obtain ⟨ops, hops⟩ := h rest' rest htokens.symm
  exact ⟨ops, hops.symm⟩

/-- One more repetition is the first one that is left, or comes behind all that are left. -/
theorem unary (h : Comparable e e') (op : Unary) : Comparable (op.apply e) e' := by
  intro rest rest' htokens
  rw [infixTokens_unary, List.append_assoc] at htokens
  obtain ⟨ops, ⟨he, hrest⟩ | ⟨he, hrest⟩⟩ := h _ _ htokens
  · cases ops with
    | nil => exact ⟨[op], .inr ⟨by rw [he]; rfl, hrest.symm⟩⟩
    | cons op' ops =>
      obtain ⟨hop, htail⟩ := List.cons.inj hrest
      obtain rfl := InfixToken.repeated.inj hop
      exact ⟨ops, .inl ⟨he, htail⟩⟩
  · refine ⟨ops ++ [op], .inr ⟨?_, ?_⟩⟩
    · rw [he, repeated, repeated, List.foldl_append]
      rfl
    · rw [hrest, List.map_append, List.append_assoc]
      rfl

/-- Nothing is left if no repetition follows. -/
theorem eq (h : Comparable e e') {rest rest' : List InfixToken}
    (htokens : e.infixTokens ++ rest = e'.infixTokens ++ rest')
    (hrest : ∀ op, rest.head? ≠ some (.repeated op))
    (hrest' : ∀ op, rest'.head? ≠ some (.repeated op)) : e = e' ∧ rest = rest' := by
  obtain ⟨ops, ⟨he, hops⟩ | ⟨he, hops⟩⟩ := h _ _ htokens
  · cases ops with
    | nil => exact ⟨he.symm, hops⟩
    | cons op ops =>
      rw [hops] at hrest
      exact absurd rfl (hrest op)
  · cases ops with
    | nil => exact ⟨he, hops.symm⟩
    | cons op ops =>
      rw [hops] at hrest'
      exact absurd rfl (hrest' op)

/-- Only the expression below the repetitions of the other one matters. -/
theorem of_children (hleaf : ∀ e', e'.children = [] → Comparable e e')
    (hbinary : ∀ op l r, Comparable e (Binary.apply op l r)) (e' : Expr) : Comparable e e' := by
  induction e' with
  | star e' ih => exact (ih.symm.unary .star).symm
  | plus e' ih => exact (ih.symm.unary .plus).symm
  | symbol | epsilon | empty => exact hleaf _ rfl
  | concat l r => exact hbinary .concat l r
  | union l r => exact hbinary .union l r

theorem leaf (he : e.children = []) (e' : Expr) : Comparable e e' := by
  refine of_children (fun e' he' rest rest' htokens => ⟨[], .inl ?_⟩)
    (fun op l r rest rest' htokens => ?_) e'
  · change e' = e ∧ rest = rest'
    cases e <;> cases he <;> cases e' <;> cases he' <;> simp_all [infixTokens]
  · rw [infixTokens_binary] at htokens
    cases e <;> cases he <;> simp [infixTokens] at htokens

theorem sign_append_inj {op op' : Binary} {r r' : Expr} {s t : List InfixToken}
    (h : sign op ++ (r.infixTokens ++ s) = sign op' ++ (r'.infixTokens ++ t)) :
    op = op' ∧ r.infixTokens ++ s = r'.infixTokens ++ t := by
  obtain ⟨a, as, hr, ha⟩ := r.infixTokens_eq_cons
  obtain ⟨b, bs, hr', hb⟩ := r'.infixTokens_eq_cons
  cases op with
  | concat =>
    cases op' with
    | concat => exact ⟨rfl, h⟩
    | union =>
      rw [hr] at h
      obtain ⟨rfl, -⟩ := List.cons.inj h
      cases ha
  | union =>
    cases op' with
    | union => exact ⟨rfl, (List.cons.inj h).2⟩
    | concat =>
      rw [hr'] at h
      obtain ⟨rfl, -⟩ := List.cons.inj h
      cases hb

theorem head?_sign_append_ne (op : Binary) (r : Expr) (s : List InfixToken) (u : Unary) :
    (sign op ++ (r.infixTokens ++ s)).head? ≠ some (.repeated u) := by
  obtain ⟨a, as, hr, ha⟩ := r.infixTokens_eq_cons
  rw [hr]
  intro hhead
  cases op with
  | concat =>
    obtain rfl := Option.some.inj hhead
    cases ha
  | union => cases hhead

/-- The first operand ends where the second one or the sign in front of it begins, and the second one
at the parenthesis. -/
theorem binary {l r : Expr} (hl : ∀ e', Comparable l e') (hr : ∀ e', Comparable r e') (op : Binary)
    (e' : Expr) : Comparable (op.apply l r) e' := by
  refine of_children (fun e' he' => (leaf he' _).symm)
    (fun op' l' r' rest rest' htokens => ⟨[], .inl ?_⟩) e'
  change op'.apply l' r' = op.apply l r ∧ rest = rest'
  rw [infixTokens_binary, infixTokens_binary] at htokens
  simp only [List.cons_append, List.append_assoc, List.cons.injEq, true_and] at htokens
  obtain ⟨hfirst, hbehind⟩ := (hl l').eq htokens (head?_sign_append_ne op r _)
    (head?_sign_append_ne op' r' _)
  obtain ⟨hop, hbehind⟩ := sign_append_inj hbehind
  obtain ⟨hsecond, hbehind⟩ := (hr r').eq hbehind (by simp) (by simp)
  rw [hfirst, hop, hsecond]
  exact ⟨rfl, (List.cons.inj hbehind).2⟩

end Comparable

theorem comparable (e e' : Expr) : Comparable e e' := by
  induction e generalizing e' with
  | symbol | epsilon | empty => exact Comparable.leaf rfl e'
  | concat l r ihl ihr => exact Comparable.binary ihl ihr .concat e'
  | union l r ihl ihr => exact Comparable.binary ihl ihr .union e'
  | star e ih => exact (ih e').unary .star
  | plus e ih => exact (ih e').unary .plus

theorem infixTokens_injective : Function.Injective infixTokens := by
  intro e e' h
  have htokens : e.infixTokens ++ [] = e'.infixTokens ++ [] := congrArg (· ++ []) h
  exact ((comparable e e').eq htokens (by simp) (by simp)).1

/-! ## Texts -/

/-- The infix form of an expression tells which expression it is, if no symbol can be mistaken for a
character of the notation. -/
theorem infixForm_eq_iff (he : ∀ c ∈ e.symbols, c ∉ infixMarks)
    (he' : ∀ c ∈ e'.symbols, c ∉ infixMarks) : e.infixForm = e'.infixForm ↔ e = e' := by
  refine ⟨fun h => infixTokens_injective ?_, congrArg infixForm⟩
  have hplain : ∀ {e : Expr}, (∀ c ∈ e.symbols, c ∉ infixMarks) → ∀ a ∈ e.infixTokens, a.Plain := by
    rintro e he a ha c rfl
    exact he c (symbol_mem_infixTokens.mp ha)
  rw [infixForm, infixForm, String.ofList_inj, infixChars_eq, infixChars_eq] at h
  have htokens := map_eq_map_of_flatMap_eq (fun a _ => a.text_ne_nil)
    (fun _ _ _ _ => InfixToken.text_append_inj) (hplain he) (hplain he') h
  rwa [List.map_id', List.map_id'] at htokens

/-- The letter `U` and the character `ε` as symbols beside the signs that look like them. -/
theorem infixForm_eq_iff_signs :
    let e : Expr := .union (.symbol 'a') (.concat .epsilon (.symbol '\\'))
    let e' : Expr := .concat (.concat (.symbol 'a') (.symbol 'U')) (.concat (.symbol 'ε') (.symbol '\\'))
    (∀ c ∈ e.symbols, c ∉ infixMarks) ∧ (∀ c ∈ e'.symbols, c ∉ infixMarks) ∧
      e.infixForm = "(a U (ε\\\\))" ∧ e'.infixForm = "((aU)(\\u\x7b3b5\x7d\\\\))" ∧
      (e.infixForm = e'.infixForm ↔ e = e') ∧ e.infixForm ≠ e'.infixForm := by
  intro e e'
  have he : ∀ c ∈ e.symbols, c ∉ infixMarks := by simp [e, symbols, infixMarks]
  have he' : ∀ c ∈ e'.symbols, c ∉ infixMarks := by simp [e', symbols, infixMarks]
  have hiff := infixForm_eq_iff he he'
  exact ⟨he, he', by cbv, by cbv, hiff, mt hiff.mp (by decide)⟩

/-- A star as a symbol is mistaken for a repetition. -/
example : (concat (symbol 'a') (star (symbol '*'))).infixForm =
    (concat (star (symbol 'a')) (symbol '*')).infixForm := by decide

end Expr

end LexGen
