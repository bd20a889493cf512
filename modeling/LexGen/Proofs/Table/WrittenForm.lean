-- SUMMARY: The written form is one of the spellings: escaping can be undone in both directions, and a written transition is read as it was written.
import Mathlib
import LexGen.Proofs.Table.Spelling

/-! # Written forms

A field may have many spellings, of which one is written. On a line, symbols have no other spelling at
all: a newline could stand for itself, but it would end the line. A transition is written without signs,
leading zeros and blanks, and its line cannot be taken for anything else. Its ends have no commas in
them, so a comma, a quote or a backslash between the quotes is the symbol. -/

namespace LexGen

/-! ## Escaped texts -/

namespace Text.Escape

theorem encode_injective : Function.Injective encode := by
  intro text text' h
  have hdecode := congrArg decode h
  rwa [decode_encode, decode_encode, Option.some.injEq] at hdecode

/-- On one line, symbols are spelled only as they are written. -/
theorem Spells.eq_encode {line symbols : List Char} (h : Spells line symbols)
    (hnewline : '\n' ∉ line) : encode symbols = line := by
  induction h with
  | nil => rfl
  | newline _ ih | backslash _ ih =>
    simp only [List.mem_cons, not_or] at hnewline
    rw [← ih hnewline.2.2]
    rfl
  | @plain c _ _ hslash _ ih =>
    simp only [List.mem_cons, not_or] at hnewline
    have hchar : encodeChar c = [c] := by
      rw [encodeChar, if_neg (Ne.symm hnewline.1), if_neg hslash]
    rw [encode, List.flatMap_cons, hchar, ← ih hnewline.2]
    rfl

/-- Escaping is a bijection between all texts and the lines that can be read: a text is escaped to a
line exactly if there is no newline in the line and it is read as the text. -/
theorem encode_eq_iff_readSymbols :
    (∀ text line, encode text = line ↔ '\n' ∉ line ∧ readSymbols line = .ok text) ∧
      Function.Injective encode := by
  refine ⟨fun text line => ?_, encode_injective⟩
  rw [readSymbols_eq_ok]
  constructor
  · rintro rfl
    exact ⟨newline_not_mem_encode text, spells_of_decode (decode_encode text)⟩
  · rintro ⟨hnewline, hspells⟩
    exact hspells.eq_encode hnewline

end Text.Escape

/-! ## Transitions -/

namespace Dfa

/-- What is written for a transition is one line, not an empty one, and it is read as the transition
and as nothing else if both ends are states. -/
theorem readEdge_edgeLine_eq_ok {count : Nat} (hcount : count < Text.Numeral.bound) (p q : Nat)
    (c : Char) :
    let line := edgeLine ⟨p, c, q⟩
    '\n' ∉ line ∧ line ≠ [] ∧ Text.lines (Text.unlines [line]) = [line] ∧
      ∀ e, readEdge count line = .ok e ↔ p < count ∧ q < count ∧ e = ⟨p, c, q⟩ := by
  intro line
  have hnewline : '\n' ∉ line := newline_not_mem_edgeLine _
  have hline : Text.lines (Text.unlines [line]) = [line] := by
    rw [Text.lines_unlines (by simpa using hnewline), List.map_singleton, dropReturn_edgeLine]
  refine ⟨hnewline, edgeLine_ne_nil _, hline, fun ⟨p', c', q'⟩ => ?_⟩
  constructor
  · intro hread
    obtain ⟨source, label, target, hfields, hsource, hlabel, htarget⟩ := readEdge_eq_ok.mp hread
    rw [edgeFields?_edgeLine] at hfields
    cases hfields
    obtain ⟨hp, rfl⟩ := (readOrdinal_write_eq_ok hcount).mp hsource
    obtain ⟨hq, rfl⟩ := (readOrdinal_write_eq_ok hcount).mp htarget
    rw [readSymbol_encodeChar] at hlabel
    obtain rfl := Except.ok.inj hlabel
    exact ⟨hp, hq, rfl⟩
  · rintro ⟨hp, hq, he⟩
    rw [he]
    exact readEdge_edgeLine hcount hp hq

/-- A comma between the largest ordinals. -/
theorem readEdge_edgeLine_eq_ok_comma :
    let line := edgeLine ⟨18446744073709551613, ',', 18446744073709551612⟩
    18446744073709551614 < Text.Numeral.bound ∧ '\n' ∉ line ∧ line ≠ [] ∧
      Text.lines (Text.unlines [line]) = [line] ∧
      readEdge 18446744073709551614 line =
        .ok ⟨18446744073709551613, ',', 18446744073709551612⟩ := by
  have hcount : 18446744073709551614 < Text.Numeral.bound := by decide
  obtain ⟨hnewline, hempty, hline, hread⟩ :=
    readEdge_edgeLine_eq_ok hcount 18446744073709551613 18446744073709551612 ','
  exact ⟨hcount, hnewline, hempty, hline, (hread _).mpr ⟨by decide, by decide, rfl⟩⟩

end Dfa

end LexGen
