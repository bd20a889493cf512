-- SUMMARY: How the fields of a table may be spelled, whoever wrote them, and that the line readers take exactly these spellings.
import Mathlib.Data.List.Forall2
import Mathlib.Data.List.TakeWhile
import Mathlib.Tactic.Common
import LexGen.Proofs.Table.Line

/-! # Spellings

The written form of a field is not the only one that is read: a number may have a sign, leading
zeros and blanks around it, and a backslash may stand for itself between quotes. Each spelling is a
relation between a text and what it denotes, and the reader of the field answers a value exactly if
the text spells it. -/

namespace LexGen

/-! ## Escaped texts -/

namespace Text.Escape

/-- The text spells the symbols one by one: newlines and backslashes by their escapes, all others by
themselves. -/
inductive Spells : List Char → List Char → Prop where
  | nil : Spells [] []
  | newline {text symbols : List Char} (h : Spells text symbols) :
      Spells ('\\' :: 'n' :: text) ('\n' :: symbols)
  | backslash {text symbols : List Char} (h : Spells text symbols) :
      Spells ('\\' :: '\\' :: text) ('\\' :: symbols)
  | plain {c : Char} {text symbols : List Char} (hc : c ≠ '\\') (h : Spells text symbols) :
      Spells (c :: text) (c :: symbols)

theorem decode_cons {c : Char} (hc : c ≠ '\\') (text : List Char) :
    decode (c :: text) = (decode text).map (c :: ·) := by
  rw [decode]
  · exact fun _ h => absurd h hc
  · exact fun _ h => absurd h hc
  · exact fun h => absurd h hc

theorem spells_of_decode {text symbols : List Char} (h : decode text = some symbols) :
    Spells text symbols := by
  fun_induction decode text generalizing symbols with
  | case1 =>
    cases h
    exact .nil
  | case2 rest ih =>
    obtain ⟨symbols', hrest, rfl⟩ := Option.map_eq_some_iff.mp h
    exact .newline (ih hrest)
  | case3 rest ih =>
    obtain ⟨symbols', hrest, rfl⟩ := Option.map_eq_some_iff.mp h
    exact .backslash (ih hrest)
  | case4 => cases h
  | case5 c rest _ _ hc ih =>
    obtain ⟨symbols', hrest, rfl⟩ := Option.map_eq_some_iff.mp h
    exact .plain (fun h => hc h) (ih hrest)

theorem Spells.decode_eq {text symbols : List Char} (h : Spells text symbols) :
    decode text = some symbols := by
  induction h with
  | nil => rfl
  | newline _ ih => simp [decode, ih]
  | backslash _ ih => simp [decode, ih]
  | plain hc _ ih => rw [decode_cons hc, ih, Option.map_some]

theorem decode_eq_some {text symbols : List Char} :
    decode text = some symbols ↔ Spells text symbols :=
  ⟨spells_of_decode, Spells.decode_eq⟩

end Text.Escape

theorem readSymbols_eq_ok {text symbols : List Char} :
    readSymbols text = .ok symbols ↔ Text.Escape.Spells text symbols := by
  rw [← Text.Escape.decode_eq_some, readSymbols]
  cases Text.Escape.decode text with
  | none => simp
  | some decoded => simp

theorem readToken_eq_ok {line : List Char} {token : String} :
    readToken line = .ok token ↔ Text.Escape.Spells line token.toList := by
  rw [← Text.Escape.decode_eq_some, readToken]
  cases Text.Escape.decode line with
  | none => simp
  | some decoded => simp [String.ext_iff]

/-- Of equal symbols the first one counts. -/
theorem readAlphabet_eq_ok {line alphabet : List Char} :
    readAlphabet line = .ok alphabet ↔
      ∃ symbols, Text.Escape.Spells line symbols ∧ symbols.eraseDups = alphabet := by
  rw [readAlphabet, bind_eq_ok_iff]
  constructor
  · rintro ⟨symbols, hsymbols, h⟩
    cases h
    exact ⟨symbols, readSymbols_eq_ok.mp hsymbols, rfl⟩
  · rintro ⟨symbols, hsymbols, rfl⟩
    exact ⟨symbols, readSymbols_eq_ok.mpr hsymbols, rfl⟩

/-! ## Numbers -/

namespace Text

theorem dropWhile_isBlank_append {left text : List Char} (hleft : ∀ c ∈ left, isBlank c = true)
    (htext : ∀ c ∈ text.head?, isBlank c = false) : (left ++ text).dropWhile isBlank = text := by
  rw [List.dropWhile_append_of_pos hleft]
  cases text with
  | nil => rfl
  | cons c text => rw [List.dropWhile_cons_of_neg (by simp [htext c rfl])]

/-- The blanks around a text without blanks are all that is trimmed. -/
theorem trim_append {left text right : List Char} (hleft : ∀ c ∈ left, isBlank c = true)
    (hne : text ≠ []) (htext : ∀ c ∈ text, isBlank c = false)
    (hright : ∀ c ∈ right, isBlank c = true) : trim (left ++ (text ++ right)) = text := by
  have hhead : ∀ c ∈ (text ++ right).head?, isBlank c = false := by
    rw [List.head?_append_of_ne_nil text hne]
    exact fun c hc => htext c (List.mem_of_mem_head? hc)
  have hlast : ∀ c ∈ text.reverse.head?, isBlank c = false :=
    fun c hc => htext c (List.mem_reverse.mp (List.mem_of_mem_head? hc))
  rw [trim, dropWhile_isBlank_append hleft hhead, List.reverse_append,
    dropWhile_isBlank_append (by simpa using hright) hlast, List.reverse_reverse]

/-- Only blanks are trimmed. -/
theorem exists_trim (text : List Char) : ∃ left right, text = left ++ (trim text ++ right) ∧
    (∀ c ∈ left, isBlank c = true) ∧ ∀ c ∈ right, isBlank c = true := by
  refine ⟨text.takeWhile isBlank,
    ((text.dropWhile isBlank).reverse.takeWhile isBlank).reverse, ?_, ?_, ?_⟩
  · rw [trim, ← List.reverse_append, List.takeWhile_append_dropWhile, List.reverse_reverse,
      List.takeWhile_append_dropWhile]
  · exact fun c hc => List.mem_takeWhile_imp hc
  · exact fun c hc => List.mem_takeWhile_imp (List.mem_reverse.mp hc)

namespace Numeral

/-- At least one decimal digit, and a value below the bound. -/
structure Digits (digits : List Char) (n : Nat) : Prop where
  ne_nil : digits ≠ []
  isDigit : ∀ c ∈ digits, c.isDigit = true
  value_eq : Nat.ofDigitChars 10 digits 0 = n
  lt_bound : n < bound

/-- The text is a numeral for the number: digits, with a plus sign in front or without. -/
inductive Spells : List Char → Nat → Prop where
  | unsigned {digits : List Char} {n : Nat} (h : Digits digits n) : Spells digits n
  | signed {digits : List Char} {n : Nat} (h : Digits digits n) : Spells ('+' :: digits) n

theorem readDigits?_eq_some {digits : List Char} {n : Nat} :
    readDigits? digits = some n ↔ Digits digits n := by
  rw [readDigits?]
  split
  · rename_i hbad
    refine ⟨fun h => (by cases h), fun h => ?_⟩
    have hall := List.all_eq_true.mpr h.isDigit
    simp [h.ne_nil, hall] at hbad
  · rename_i hgood
    simp only [Bool.or_eq_true, Bool.not_eq_true', not_or, List.isEmpty_iff,
      Bool.not_eq_false, List.all_eq_true] at hgood
    dsimp only
    split
    · rename_i hlt
      refine ⟨fun h => ?_, fun h => congrArg some h.value_eq⟩
      obtain rfl := Option.some.inj h
      exact ⟨hgood.1, hgood.2, rfl, hlt⟩
    · rename_i hge
      refine ⟨fun h => (by cases h), fun h => ?_⟩
      rw [h.value_eq] at hge
      exact absurd h.lt_bound hge

theorem read?_eq_some {text : List Char} {n : Nat} : read? text = some n ↔ Spells text n := by
  constructor
  · intro h
    unfold read? at h
    split at h
    · exact .signed (readDigits?_eq_some.mp h)
    · exact .unsigned (readDigits?_eq_some.mp h)
  · intro h
    cases h with
    | signed h => exact readDigits?_eq_some.mpr h
    | unsigned h =>
      rw [read?]
      · exact readDigits?_eq_some.mpr h
      · rintro digits rfl
        exact absurd (h.isDigit '+' List.mem_cons_self) (by decide)

theorem Spells.ne_nil {text : List Char} {n : Nat} (h : Spells text n) : text ≠ [] := by
  cases h with
  | unsigned h => exact h.ne_nil
  | signed h => exact List.cons_ne_nil _ _

theorem Spells.isBlank_eq {text : List Char} {n : Nat} (h : Spells text n) :
    ∀ c ∈ text, isBlank c = false := by
  cases h with
  | unsigned h => exact fun c hc => isBlank_of_isDigit (h.isDigit c hc)
  | signed h =>
    rw [List.forall_mem_cons]
    exact ⟨by decide, fun c hc => isBlank_of_isDigit (h.isDigit c hc)⟩

theorem Spells.lt_bound {text : List Char} {n : Nat} (h : Spells text n) : n < bound := by
  cases h with
  | unsigned h => exact h.lt_bound
  | signed h => exact h.lt_bound

end Numeral

end Text

/-- The text is a numeral for the number, with any blanks around it. -/
inductive NumberSpelling : List Char → Nat → Prop where
  | intro {left numeral right : List Char} {n : Nat} (hleft : ∀ c ∈ left, Text.isBlank c = true)
      (hnumeral : Text.Numeral.Spells numeral n) (hright : ∀ c ∈ right, Text.isBlank c = true) :
      NumberSpelling (left ++ (numeral ++ right)) n

theorem readNumber_eq_ok {text : List Char} {n : Nat} :
    readNumber text = .ok n ↔ NumberSpelling text n := by
  have hread : readNumber text = .ok n ↔ Text.Numeral.read? (Text.trim text) = some n := by
    rw [readNumber]
    cases Text.Numeral.read? (Text.trim text) with
    | none => simp
    | some m => simp
  rw [hread, Text.Numeral.read?_eq_some]
  constructor
  · intro h
    obtain ⟨left, right, htext, hleft, hright⟩ := Text.exists_trim text
    rw [htext]
    exact .intro hleft h hright
  · rintro ⟨hleft, hnumeral, hright⟩
    rw [Text.trim_append hleft hnumeral.ne_nil hnumeral.isBlank_eq hright]
    exact hnumeral

/-- In a text without blanks, a number is a numeral. -/
theorem numberSpelling_iff {text : List Char} {n : Nat} (h : ∀ c ∈ text, Text.isBlank c = false) :
    NumberSpelling text n ↔ Text.Numeral.Spells text n := by
  rw [← readNumber_eq_ok, readNumber, Text.trim_of_not_isBlank h, ← Text.Numeral.read?_eq_some]
  cases Text.Numeral.read? text with
  | none => simp
  | some m => simp

theorem NumberSpelling.exists_not_isBlank {text : List Char} {n : Nat}
    (h : NumberSpelling text n) : ∃ c ∈ text, Text.isBlank c = false := by
  obtain ⟨_, hnumeral, _⟩ := h
  obtain ⟨c, hc⟩ := List.exists_mem_of_ne_nil _ hnumeral.ne_nil
  exact ⟨c, by simp [hc], hnumeral.isBlank_eq c hc⟩

theorem NumberSpelling.lt_bound {text : List Char} {n : Nat} (h : NumberSpelling text n) :
    n < Text.Numeral.bound := by
  obtain ⟨_, hnumeral, _⟩ := h
  exact hnumeral.lt_bound

/-! ## Lists of ordinals -/

theorem forall₂_congr_of_mem {α β : Type} {R S : α → β → Prop} {as : List α} {bs : List β}
    (h : ∀ a ∈ as, ∀ b, R a b ↔ S a b) : List.Forall₂ R as bs ↔ List.Forall₂ S as bs := by
  induction as generalizing bs with
  | nil => simp
  | cons a as ih =>
    obtain ⟨ha, has⟩ := List.forall_mem_cons.mp h
    simp only [List.forall₂_cons_left_iff, ha, ih has]

/-- The words of the line are numerals for the ordinals, all of them below `count`. -/
def OrdinalsSpelling (count : Nat) (line : List Char) (ordinals : List Nat) : Prop :=
  List.Forall₂ (fun word n => Text.Numeral.Spells word n ∧ n < count) (Text.words line) ordinals

theorem readOrdinals_eq_ok {count : Nat} {line : List Char} {ordinals : List Nat} :
    readOrdinals count line = .ok ordinals ↔ OrdinalsSpelling count line ordinals := by
  rw [readOrdinals, mapM_eq_ok, OrdinalsSpelling]
  refine forall₂_congr_of_mem fun word hword n => ?_
  rw [readOrdinal_eq_ok, readNumber_eq_ok,
    numberSpelling_iff fun _ hc => Text.isBlank_of_mem_words hword hc]

/-! ## Transitions -/

namespace Text

theorem splitFirst?_eq_some {c : Char} {text before behind : List Char} :
    splitFirst? c text = some (before, behind) ↔ text = before ++ c :: behind ∧ c ∉ before := by
  constructor
  · intro h
    induction text generalizing before with
    | nil => cases h
    | cons b text ih =>
      rw [splitFirst?] at h
      split at h
      · rename_i hb
        cases h
        exact ⟨by rw [hb]; rfl, List.not_mem_nil⟩
      · rename_i hb
        obtain ⟨⟨before', behind'⟩, hrest, h⟩ := Option.map_eq_some_iff.mp h
        cases h
        obtain ⟨rfl, hmem⟩ := ih hrest
        exact ⟨rfl, by simp [hmem, Ne.symm hb]⟩
  · rintro ⟨rfl, h⟩
    exact splitFirst?_append h behind

theorem splitLast?_eq_some {c : Char} {text before behind : List Char} :
    splitLast? c text = some (before, behind) ↔ text = before ++ c :: behind ∧ c ∉ behind := by
  constructor
  · intro h
    obtain ⟨⟨behind', before'⟩, hsplit, h⟩ := Option.map_eq_some_iff.mp h
    cases h
    obtain ⟨htext, hmem⟩ := splitFirst?_eq_some.mp hsplit
    refine ⟨?_, by simpa using hmem⟩
    rw [← List.reverse_reverse text, htext]
    simp
  · rintro ⟨rfl, h⟩
    exact splitLast?_append before h

end Text

theorem unquote?_eq_some {text inner : List Char} :
    unquote? text = some inner ↔ text = '\'' :: (inner ++ ['\'']) := by
  constructor
  · intro h
    unfold unquote? at h
    split at h
    · rename_i rest
      split at h
      · rename_i hlast
        obtain ⟨init, rfl⟩ := List.getLast?_eq_some_iff.mp hlast
        rw [List.dropLast_concat] at h
        rw [Option.some.inj h]
      · cases h
    · cases h
  · rintro rfl
    exact unquote?_quoted inner

theorem edgeFields?_eq_some {line source label target : List Char} :
    edgeFields? line = some (source, label, target) ↔
      line = source ++ ',' :: (('\'' :: (label ++ ['\''])) ++ ',' :: target) ∧
        ',' ∉ source ∧ ',' ∉ target := by
  simp only [edgeFields?, Option.bind_eq_bind, Option.bind_eq_some_iff, Prod.exists]
  constructor
  · rintro ⟨source', rest, hfirst, quoted, target', hlast, label', hquote, h⟩
    cases h
    obtain ⟨rfl, hsource⟩ := Text.splitFirst?_eq_some.mp hfirst
    obtain ⟨rfl, htarget⟩ := Text.splitLast?_eq_some.mp hlast
    obtain rfl := unquote?_eq_some.mp hquote
    exact ⟨rfl, hsource, htarget⟩
  · rintro ⟨rfl, hsource, htarget⟩
    exact ⟨_, _, Text.splitFirst?_eq_some.mpr ⟨rfl, hsource⟩, _, _,
      Text.splitLast?_eq_some.mpr ⟨rfl, htarget⟩, _, unquote?_eq_some.mpr rfl, rfl⟩

/-- The text between the quotes spells the symbol; a backslash may stand for itself. -/
inductive SymbolSpelling : List Char → Char → Prop where
  | escaped {text : List Char} {c : Char} (h : Text.Escape.Spells text [c]) : SymbolSpelling text c
  | backslash : SymbolSpelling ['\\'] '\\'

theorem readSymbol_eq_ok {text : List Char} {c : Char} :
    readSymbol text = .ok c ↔ SymbolSpelling text c := by
  rw [readSymbol]
  split
  · rename_i hslash
    subst hslash
    constructor
    · intro h
      cases h
      exact .backslash
    · rintro (h | _)
      · cases h.decode_eq
      · rfl
  · rename_i hslash
    rw [bind_eq_ok_iff]
    constructor
    · rintro ⟨symbols, hsymbols, h⟩
      split at h
      · cases h
        exact .escaped (readSymbols_eq_ok.mp hsymbols)
      · cases h
    · rintro (h | _)
      · exact ⟨[c], readSymbols_eq_ok.mpr h, rfl⟩
      · exact absurd rfl hslash

/-- The line is `p,'c',q` for a transition between states below `count`. -/
inductive EdgeSpelling (count : Nat) : List Char → Edge Nat Char → Prop where
  | intro {source label target : List Char} {e : Edge Nat Char} (hsource : ',' ∉ source)
      (htarget : ',' ∉ target) (hfrom : NumberSpelling source e.source) (hfrom_lt : e.source < count)
      (hlabel : SymbolSpelling label e.label)
      (hto : NumberSpelling target e.target) (hto_lt : e.target < count) :
      EdgeSpelling count (source ++ ',' :: (('\'' :: (label ++ ['\''])) ++ ',' :: target)) e

theorem readEdge_iff {count : Nat} {line : List Char} {e : Edge Nat Char} :
    readEdge count line = .ok e ↔ EdgeSpelling count line e := by
  rw [readEdge_eq_ok]
  constructor
  · rintro ⟨source, label, target, hfields, hfrom, hlabel, hto⟩
    obtain ⟨rfl, hsource, htarget⟩ := edgeFields?_eq_some.mp hfields
    obtain ⟨hfrom, hfrom_lt⟩ := readOrdinal_eq_ok.mp hfrom
    obtain ⟨hto, hto_lt⟩ := readOrdinal_eq_ok.mp hto
    exact .intro hsource htarget (readNumber_eq_ok.mp hfrom) hfrom_lt (readSymbol_eq_ok.mp hlabel)
      (readNumber_eq_ok.mp hto) hto_lt
  · rintro ⟨hsource, htarget, hfrom, hfrom_lt, hlabel, hto, hto_lt⟩
    exact ⟨_, _, _, edgeFields?_eq_some.mpr ⟨rfl, hsource, htarget⟩,
      readOrdinal_eq_ok.mpr ⟨readNumber_eq_ok.mpr hfrom, hfrom_lt⟩, readSymbol_eq_ok.mpr hlabel,
      readOrdinal_eq_ok.mpr ⟨readNumber_eq_ok.mpr hto, hto_lt⟩⟩

end LexGen
