-- SUMMARY: Written texts read back: escapes, numerals, words, fields and lines.
import Mathlib.Tactic.Common
import LexGen.Proofs.Lists
import LexGen.Text.Blank
import LexGen.Text.Escape
import LexGen.Text.Lines
import LexGen.Text.Numeral
import LexGen.Text.Split

/-! # Texts written and read

Each reader is a left inverse of its writer. Line ends are the exception: a carriage return at the
end of a line is taken for a part of the line end and lost. -/

namespace LexGen.Text

/-! ## Line ends -/

theorem dropReturn_of_not_mem {line : List Char} (h : '\r' ∉ line) : dropReturn line = line :=
  if_neg fun hlast => h (List.mem_of_getLast? hlast)

theorem dropReturn_append {u v : List Char} (hv : v ≠ []) :
    dropReturn (u ++ v) = u ++ dropReturn v := by
  have hlast : (u ++ v).getLast? = v.getLast? := by
    rw [List.getLast?_append, List.getLast?_eq_some_getLast hv, Option.some_or]
  unfold dropReturn
  rw [hlast, List.dropLast_append_of_ne_nil hv]
  split
  · rfl
  · rfl

theorem splitOn_unlines_append {ls : List (List Char)} (h : ∀ l ∈ ls, '\n' ∉ l) (text : List Char) :
    (unlines ls ++ text).splitOn '\n' = ls ++ text.splitOn '\n' := by
  induction ls with
  | nil => rfl
  | cons l ls ih =>
    obtain ⟨hl, hls⟩ := List.forall_mem_cons.mp h
    have hunlines : unlines (l :: ls) ++ text = l ++ '\n' :: (unlines ls ++ text) := by
      simp [unlines]
    rw [hunlines, List.splitOn_append_cons_self_of_not_mem hl, ih hls]
    rfl

theorem lines_unlines_append {ls : List (List Char)} (h : ∀ l ∈ ls, '\n' ∉ l) (text : List Char) :
    lines (unlines ls ++ text) = ls.map dropReturn ++ lines text := by
  have hne : text.splitOn '\n' ≠ [] := List.splitOn_ne_nil '\n' text
  have hlast : (ls ++ text.splitOn '\n').getLastD [] = (text.splitOn '\n').getLastD [] := by
    rw [List.getLastD_eq_getLast?, List.getLast?_append_of_ne_nil _ hne,
      ← List.getLastD_eq_getLast?]
  simp only [lines]
  rw [splitOn_unlines_append h, hlast, List.dropLast_append_of_ne_nil hne, List.map_append,
    List.append_assoc]

theorem lines_unlines {ls : List (List Char)} (h : ∀ l ∈ ls, '\n' ∉ l) :
    lines (unlines ls) = ls.map dropReturn := by
  have hlines := lines_unlines_append h []
  rw [List.append_nil] at hlines
  exact hlines.trans (List.append_nil _)

theorem mem_of_mem_dropReturn {line : List Char} {c : Char} (h : c ∈ dropReturn line) :
    c ∈ line := by
  unfold dropReturn at h
  split at h
  · exact List.dropLast_subset _ h
  · exact h

theorem mem_of_mem_lines {text line : List Char} {c : Char} (hline : line ∈ lines text)
    (hc : c ∈ line) : c ∈ text := by
  have hpart : ∀ part ∈ text.splitOn '\n', c ∈ part → c ∈ text := by
    intro part hpart hc
    have hmem : c ∈ ['\n'].intercalate (text.splitOn '\n') := mem_intercalate_of_mem hpart hc
    rwa [List.intercalate_splitOn] at hmem
  rw [lines] at hline
  rcases List.mem_append.mp hline with hline | hline
  · obtain ⟨part, hmem, rfl⟩ := List.mem_map.mp hline
    exact hpart part (List.dropLast_subset _ hmem) (mem_of_mem_dropReturn hc)
  · have hlast : text.splitOn '\n' ≠ [] := List.splitOn_ne_nil '\n' text
    rw [List.getLastD_eq_getLast?, List.getLast?_eq_some_getLast hlast, Option.getD_some] at hline
    split at hline
    · cases hline
    · obtain rfl := List.mem_singleton.mp hline
      exact hpart _ (List.getLast_mem hlast) hc

/-! ## Escapes -/

namespace Escape

theorem encode_append (u v : List Char) : encode (u ++ v) = encode u ++ encode v :=
  List.flatMap_append

theorem decode_encodeChar_append (c : Char) (text : List Char) :
    decode (encodeChar c ++ text) = (decode text).map (c :: ·) := by
  unfold encodeChar
  split
  · subst c
    rfl
  · split
    · subst c
      rfl
    · rename_i hslash
      rw [List.singleton_append, decode]
      · exact fun rest h => absurd h hslash
      · exact fun rest h => absurd h hslash
      · exact fun h => absurd h hslash

theorem decode_encode (text : List Char) : decode (encode text) = some text := by
  induction text with
  | nil => rfl
  | cons c text ih =>
    have hcons : encode (c :: text) = encodeChar c ++ encode text := List.flatMap_cons
    rw [hcons, decode_encodeChar_append, ih]
    rfl

/-- Apart from the characters of escapes, an escaped text has only characters of the text. -/
theorem not_mem_encode {c : Char} {text : List Char} (hslash : c ≠ '\\') (hn : c ≠ 'n')
    (htext : c ∈ text → c = '\n') : c ∉ encode text := by
  intro h
  obtain ⟨b, hb, hc⟩ := List.mem_flatMap.mp h
  unfold encodeChar at hc
  split at hc
  · rcases List.mem_pair.mp hc with hc | hc
    · exact hslash hc
    · exact hn hc
  · split at hc
    · rcases List.mem_pair.mp hc with hc | hc
      · exact hslash hc
      · exact hslash hc
    · rename_i hnewline _
      obtain rfl := List.mem_singleton.mp hc
      exact hnewline (htext hb)

theorem newline_not_mem_encode (text : List Char) : '\n' ∉ encode text :=
  not_mem_encode (by decide) (by decide) fun _ => rfl

theorem return_not_mem_encode {text : List Char} (h : '\r' ∉ text) : '\r' ∉ encode text :=
  not_mem_encode (by decide) (by decide) fun hmem => absurd hmem h

theorem encodeChar_ne_nil (c : Char) : encodeChar c ≠ [] := by
  unfold encodeChar
  split
  · simp
  · split
    · simp
    · simp

theorem encodeChar_cases (c : Char) :
    c = '\n' ∧ encodeChar c = ['\\', 'n'] ∨ c = '\\' ∧ encodeChar c = ['\\', '\\'] ∨
      '\\' ≠ c ∧ encodeChar c = [c] := by
  unfold encodeChar
  split
  · exact .inl ⟨‹_›, rfl⟩
  · split
    · exact .inr (.inl ⟨‹_›, rfl⟩)
    · exact .inr (.inr ⟨Ne.symm ‹_›, rfl⟩)

/-- No written form of a character is a beginning of that of another. -/
theorem encodeChar_append_inj {b c : Char} {s t : List Char}
    (h : encodeChar b ++ s = encodeChar c ++ t) : b = c ∧ s = t := by
  rcases encodeChar_cases b with ⟨rfl, hb⟩ | ⟨rfl, hb⟩ | ⟨hslash, hb⟩ <;>
    rcases encodeChar_cases c with ⟨rfl, hc⟩ | ⟨rfl, hc⟩ | ⟨hslash', hc⟩ <;>
    simp_all

/-- What is lost at the end of an escaped line is lost at the end of the text. -/
theorem dropReturn_encode (text : List Char) :
    dropReturn (encode text) = encode (dropReturn text) := by
  rcases List.eq_nil_or_concat text with rfl | ⟨init, c, rfl⟩
  · rfl
  · have hlast : encode [c] = encodeChar c := List.append_nil _
    rw [List.concat_eq_append, encode_append, hlast, dropReturn_append (encodeChar_ne_nil c),
      dropReturn_append (List.cons_ne_nil c []), encode_append]
    congr 1
    by_cases hc : c = '\r'
    · subst hc
      rfl
    · have hreturn : '\r' ∉ [c] := by simpa using Ne.symm hc
      rw [dropReturn_of_not_mem hreturn, hlast, dropReturn_of_not_mem]
      rw [← hlast]
      exact return_not_mem_encode hreturn

end Escape

/-! ## Words -/

theorem trim_of_not_isBlank {text : List Char} (h : ∀ c ∈ text, isBlank c = false) :
    trim text = text := by
  have hdrop : ∀ {cs : List Char}, (∀ c ∈ cs, isBlank c = false) → cs.dropWhile isBlank = cs := by
    intro cs hcs
    cases cs with
    | nil => rfl
    | cons c cs => rw [List.dropWhile_cons_of_neg (by simp [hcs c])]
  rw [trim, hdrop h, hdrop (by simpa using h), List.reverse_reverse]

theorem isBlank_of_mem_words {text w : List Char} {c : Char} (hw : w ∈ words text) (hc : c ∈ w) :
    isBlank c = false :=
  eq_false_of_mem_splitOnP (List.mem_filter.mp hw).1 hc

theorem infix_of_mem_words {text w : List Char} (hw : w ∈ words text) : w <:+: text :=
  infix_of_mem_splitOnP (List.mem_filter.mp hw).1

theorem ne_newline_of_mem_words {text w : List Char} (hw : w ∈ words text) : w ≠ ['\n'] := by
  rintro rfl
  exact absurd (isBlank_of_mem_words hw (List.mem_singleton_self '\n')) (by decide)

/-- A blank separates the words on its two sides. -/
theorem words_append_cons {b : Char} (hb : isBlank b = true) (u v : List Char) :
    words (u ++ b :: v) = words u ++ words v := by
  unfold words
  rw [List.splitOnP_append_cons u v hb, List.filter_append]

theorem words_of_not_isBlank {w : List Char} (hne : w ≠ []) (h : ∀ c ∈ w, isBlank c = false) :
    words w = [w] := by
  rw [words, List.splitOnP_eq_singleton h]
  simp [hne]

theorem words_intercalate_eq (ws : List (List Char)) :
    words ([' '].intercalate ws) = ws.flatMap words := by
  induction ws with
  | nil => rfl
  | cons w ws ih =>
    cases ws with
    | nil => simp
    | cons w' ws =>
      rw [List.intercalate_cons_cons, List.append_assoc, List.singleton_append,
        words_append_cons (by decide), ih]
      exact List.flatMap_cons.symm

theorem words_intercalate {ws : List (List Char)}
    (h : ∀ w ∈ ws, w ≠ [] ∧ ∀ c ∈ w, isBlank c = false) : words ([' '].intercalate ws) = ws := by
  rw [words_intercalate_eq]
  induction ws with
  | nil => rfl
  | cons w ws ih =>
    obtain ⟨hw, hws⟩ := List.forall_mem_cons.mp h
    rw [List.flatMap_cons, words_of_not_isBlank hw.1 hw.2, ih hws, List.singleton_append]

/-! ## Numerals -/

namespace Numeral

theorem isDigit_of_mem_write {n : Nat} {c : Char} (h : c ∈ write n) : c.isDigit = true :=
  Nat.isDigit_of_mem_toDigits (by decide) (by decide) h

theorem write_ne_nil (n : Nat) : write n ≠ [] :=
  Nat.toDigits_ne_nil

theorem write_injective : Function.Injective write := by
  intro m n h
  have hvalue := congrArg (Nat.ofDigitChars 10 · 0) h
  simpa [write, Nat.ofDigitChars_ten_toDigits] using hvalue

theorem not_mem_write {n : Nat} {c : Char} (hc : c.isDigit = false) : c ∉ write n := by
  intro h
  rw [isDigit_of_mem_write h] at hc
  cases hc

theorem isBlank_of_isDigit {c : Char} (h : c.isDigit = true) : isBlank c = false := by
  simp only [Char.isDigit, Bool.and_eq_true, decide_eq_true_eq] at h
  have hlow : 48 ≤ c.toNat := h.1
  have hhigh : c.toNat ≤ 57 := h.2
  simp only [isBlank, Bool.or_eq_false_iff, Bool.and_eq_false_iff, decide_eq_false_iff_not,
    beq_eq_false_iff_ne]
  omega

theorem isBlank_of_mem_write {n : Nat} {c : Char} (h : c ∈ write n) : isBlank c = false :=
  isBlank_of_isDigit (isDigit_of_mem_write h)

theorem readDigits?_write (n : Nat) :
    readDigits? (write n) = if n < bound then some n else none := by
  have hempty : (write n).isEmpty = false := by simpa using write_ne_nil n
  have hdigits : (write n).all Char.isDigit = true :=
    List.all_eq_true.mpr fun _ hc => isDigit_of_mem_write hc
  have hvalue : Nat.ofDigitChars 10 (write n) 0 = n := Nat.ofDigitChars_ten_toDigits
  simp [readDigits?, hempty, hdigits, hvalue]

theorem read?_write (n : Nat) : read? (write n) = if n < bound then some n else none := by
  rw [read?, readDigits?_write]
  intro digits hplus
  have hmem : '+' ∈ write n := by simp [hplus]
  exact not_mem_write (by decide) hmem

end Numeral

/-! ## Fields -/

theorem splitFirst?_append {c : Char} {u : List Char} (h : c ∉ u) (v : List Char) :
    splitFirst? c (u ++ c :: v) = some (u, v) := by
  induction u with
  | nil => simp [splitFirst?]
  | cons b u ih =>
    rw [List.mem_cons, not_or] at h
    simp [splitFirst?, Ne.symm h.1, ih h.2]

/-- A text tells what is in front of its first separator and what is behind it. -/
theorem append_cons_inj {c : Char} {u v s t : List Char} (hu : c ∉ u) (hv : c ∉ v)
    (h : u ++ c :: s = v ++ c :: t) : u = v ∧ s = t := by
  have hsplit := congrArg (splitFirst? c) h
  rw [splitFirst?_append hu, splitFirst?_append hv] at hsplit
  exact Prod.mk.inj (Option.some.inj hsplit)

theorem splitLast?_append {c : Char} (u : List Char) {v : List Char} (h : c ∉ v) :
    splitLast? c (u ++ c :: v) = some (u, v) := by
  have hreverse : (u ++ c :: v).reverse = v.reverse ++ c :: u.reverse := by simp
  rw [splitLast?, hreverse, splitFirst?_append (by simpa using h)]
  simp

end LexGen.Text
