-- SUMMARY: Edge listings read back: the rows that a listing shows, and when it shows all of them.
import Mathlib
import LexGen.Csv
import LexGen.Proofs.Nfa.Thompson
import LexGen.Proofs.State.Names

/-! # Edge listings

Nothing is quoted in a listing, and the names of states, the mark of an accepting target and the written
form of a character stand directly next to each other. Still a line can be taken apart again, whatever
characters the edges read: names are digits, so they end at the comma or the newline behind them and do
not start with the mark, and no written form of a character is a beginning of another. Only a silent edge
cannot be told from one that reads the character `ε`. -/

namespace LexGen

/-! ## Lines -/

theorem State.toList_display_numbered (n : Nat) :
    (State.numbered n).display.toList = Text.Numeral.write n := by
  rw [numbered, ofLabel, display, String.toList_ofList]

namespace CsvRow

open Text (append_cons_inj)

variable {row row' : CsvRow} {rows rows' : List CsvRow} {rest rest' : List Char}

/-- The states of the row are named by numbers. -/
structure Numbered (row : CsvRow) : Prop where
  source : ∃ p, row.source = .numbered p
  target : ∃ q, row.target = .numbered q

/-- The row as its line shows it: a silent edge looks like one that reads `ε`. -/
def shown (row : CsvRow) : CsvRow :=
  { row with label := some (row.label.getD 'ε') }

theorem labelText_eq (label : Option Char) :
    labelText label = Text.Escape.encodeChar (label.getD 'ε') := by
  cases label with
  | none => rfl
  | some c => rfl

theorem text_eq (row : CsvRow) :
    row.text = row.source.display.toList ++ ',' ::
      (Text.Escape.encodeChar (row.label.getD 'ε') ++ ',' ::
        ((if row.accepting then ['f'] else []) ++ row.target.display.toList ++ ['\n'])) := by
  simp [text, labelText_eq]

theorem text_shown (row : CsvRow) : row.shown.text = row.text := by
  rw [text_eq, text_eq]
  rfl

/-- The mark of an accepting target is told from the digits behind it. -/
theorem target_inj {a b : Bool} {p q : Nat}
    (h : (if a then ['f'] else []) ++ Text.Numeral.write p ++ '\n' :: rest =
      (if b then ['f'] else []) ++ Text.Numeral.write q ++ '\n' :: rest') :
    a = b ∧ p = q ∧ rest = rest' := by
  have hnewline : ∀ (mark : Bool) (n : Nat),
      '\n' ∉ (if mark then ['f'] else []) ++ Text.Numeral.write n := by
    intro mark n
    cases mark <;> simp [Text.Numeral.not_mem_write]
  have hmark : ∀ (mark : Bool) (n : Nat),
      'f' ∈ (if mark then ['f'] else []) ++ Text.Numeral.write n ↔ mark = true := by
    intro mark n
    cases mark <;> simp [Text.Numeral.not_mem_write]
  obtain ⟨htarget, hrest⟩ := append_cons_inj (hnewline a p) (hnewline b q) h
  obtain rfl : a = b := Bool.eq_iff_iff.mpr (by rw [← hmark a p, htarget, hmark])
  exact ⟨rfl, Text.Numeral.write_injective (List.append_cancel_left htarget), hrest⟩

/-- The first line of a text tells what it shows of its row, and where it ends. -/
theorem text_append_inj (hrow : row.Numbered) (hrow' : row'.Numbered)
    (h : row.text ++ rest = row'.text ++ rest') : row.shown = row'.shown ∧ rest = rest' := by
  obtain ⟨source, label, target, accepting⟩ := row
  obtain ⟨source', label', target', accepting'⟩ := row'
  obtain ⟨⟨p, rfl⟩, q, rfl⟩ := hrow
  obtain ⟨⟨p', rfl⟩, q', rfl⟩ := hrow'
  have hcomma : ∀ n, ',' ∉ Text.Numeral.write n := fun _ => Text.Numeral.not_mem_write (by decide)
  simp only [text_eq, State.toList_display_numbered, List.append_assoc, List.cons_append] at h
  obtain ⟨hsource, h⟩ := append_cons_inj (hcomma p) (hcomma p') h
  obtain ⟨hlabel, h⟩ := Text.Escape.encodeChar_append_inj h
  obtain ⟨haccepting, htarget, hrest⟩ := target_inj (by simpa using (List.cons.inj h).2)
  obtain rfl := Text.Numeral.write_injective hsource
  subst haccepting htarget
  exact ⟨by rw [shown, shown, hlabel], hrest⟩

theorem flatMap_text_inj (hrows : ∀ row ∈ rows, row.Numbered) (hrows' : ∀ row ∈ rows', row.Numbered)
    (h : rows.flatMap text = rows'.flatMap text) : rows.map shown = rows'.map shown :=
  map_eq_map_of_flatMap_eq (fun row _ => by simp [text_eq]) (fun _ _ _ _ => text_append_inj)
    hrows hrows' h

theorem render_eq_render_iff (hrows : ∀ row ∈ rows, row.Numbered)
    (hrows' : ∀ row ∈ rows', row.Numbered) :
    render rows = render rows' ↔ rows.map shown = rows'.map shown := by
  rw [render, render, String.append_right_inj, String.ofList_inj]
  refine ⟨flatMap_text_inj hrows hrows', fun h => ?_⟩
  have htext : ∀ rows : List CsvRow, rows.flatMap text = (rows.map shown).flatMap text := by
    intro rows
    rw [List.flatMap_map]
    exact List.flatMap_congr fun row _ => (text_shown row).symm
  rw [htext, h, ← htext]

/-- The row of a line in a listing of edges none of which reads `ε`. -/
def taken (row : CsvRow) : CsvRow :=
  { row with label := row.label.filter (· ≠ 'ε') }

theorem taken_shown (h : row.label ≠ some 'ε') : row.shown.taken = row := by
  obtain ⟨source, label, target, accepting⟩ := row
  cases label with
  | none => rfl
  | some c =>
    have hc : c ≠ 'ε' := fun hc => h (congrArg some hc)
    simp [shown, taken, hc]

theorem map_taken_map_shown (h : ∀ row ∈ rows, row.label ≠ some 'ε') :
    (rows.map shown).map taken = rows := by
  rw [List.map_map]
  exact (List.map_congr_left fun row hrow => taken_shown (h row hrow)).trans (List.map_id rows)

end CsvRow

/-! ## Listings of the automata of expressions -/

namespace Nfa

theorem numbered_of_mem_csvRows (m : Nfa) {row : CsvRow} (h : row ∈ m.csvRows) : row.Numbered := by
  obtain ⟨edge, -, rfl⟩ := List.mem_map.mp h
  exact ⟨⟨_, rfl⟩, _, rfl⟩

end Nfa

namespace Expr

open CsvRow (render shown)

theorem label_ne_of_mem_csvRows {e : Expr} {c : Char} {row : CsvRow} (hc : c ∉ e.symbols)
    (h : row ∈ e.toNfa.csvRows) : row.label ≠ some c := by
  obtain ⟨⟨p, label, q⟩, hedge, rfl⟩ := List.mem_map.mp h
  rintro rfl
  exact hc (mem_alphabet_toNfa.mp (Nfa.mem_alphabet.mpr ⟨p, q, hedge⟩))

/-- Two automata have the same listing exactly if their rows differ at most in that a silent edge of
one stands where the other has an edge that reads `ε`. If no symbol is `ε`, the listing tells all rows. -/
theorem render_csvRows_eq_iff (e e' : Expr) :
    (render e.toNfa.csvRows = render e'.toNfa.csvRows ↔
        e.toNfa.csvRows.map shown = e'.toNfa.csvRows.map shown) ∧
      ('ε' ∉ e.symbols → 'ε' ∉ e'.symbols →
        render e.toNfa.csvRows = render e'.toNfa.csvRows → e.toNfa.csvRows = e'.toNfa.csvRows) := by
  have hshown := CsvRow.render_eq_render_iff (fun _ => e.toNfa.numbered_of_mem_csvRows)
    (fun _ => e'.toNfa.numbered_of_mem_csvRows)
  refine ⟨hshown, fun he he' h => ?_⟩
  rw [← CsvRow.map_taken_map_shown fun _ => label_ne_of_mem_csvRows he, hshown.mp h,
    CsvRow.map_taken_map_shown fun _ => label_ne_of_mem_csvRows he']

/-- A comma, a digit and the mark of accepting targets as symbols: two expressions with the same
listing. -/
theorem csvRows_eq_concat_concat :
    let e : Expr := .concat (.concat (.symbol ',') (.symbol '1')) (.symbol 'f')
    let e' : Expr := .concat (.symbol ',') (.concat (.symbol '1') (.symbol 'f'))
    'ε' ∉ e.symbols ∧ 'ε' ∉ e'.symbols ∧
      render e.toNfa.csvRows = "from,char,to\n0,,,1\n1,ε,2\n2,1,3\n3,ε,4\n4,f,f5\n" ∧
      render e.toNfa.csvRows = render e'.toNfa.csvRows ∧ e.toNfa.csvRows = e'.toNfa.csvRows := by
  intro e e'
  have he : 'ε' ∉ e.symbols := by decide
  have he' : 'ε' ∉ e'.symbols := by decide
  have hlisting : render e.toNfa.csvRows =
      "from,char,to\n0,,,1\n1,ε,2\n2,1,3\n3,ε,4\n4,f,f5\n" := by cbv
  have hlisting' : render e'.toNfa.csvRows =
      "from,char,to\n0,,,1\n1,ε,2\n2,1,3\n3,ε,4\n4,f,f5\n" := by cbv
  have hsame := hlisting.trans hlisting'.symm
  exact ⟨he, he', hlisting, hsame, (render_csvRows_eq_iff e e').2 he he' hsame⟩

/-- An edge that reads `ε` is listed as a silent one. -/
theorem render_csvRows_hides_label :
    render (symbol 'ε').toNfa.csvRows = render (concat .epsilon .epsilon).toNfa.csvRows ∧
      (symbol 'ε').toNfa.csvRows ≠ (concat .epsilon .epsilon).toNfa.csvRows := by
  constructor
  · cbv
  · intro h
    have hlabels := congrArg (List.map CsvRow.label) h
    exact absurd hlabels (by decide)

end Expr

end LexGen
