-- SUMMARY: What the line of an error in a table says about the text: it holds the fault, and nothing in front of it is wrong.
import Mathlib
import LexGen.Proofs.Table.Refusal

/-! # Lines of errors

An error names a line of the text, or the one behind the last if something is missing there. The line
holds what is wrong, and the lines in front of it are all right as far as they go: read by themselves they
may end too early, but there is no fault in any of them. Only the number of states is judged later, so
that its fault may be found in front of that of a transition, or be there only as long as transitions
are missing. -/

namespace LexGen

open Table (Fault)

/-! ## Beginnings of texts -/

namespace Text

theorem lines_append_cons {line : List Char} (h : '\n' ∉ line) (text : List Char) :
    lines (line ++ '\n' :: text) = dropReturn line :: lines text := by
  have hlines := lines_unlines_append (List.forall_mem_singleton.mpr h) text
  simpa [unlines] using hlines

theorem length_lines_le_one {text : List Char} (h : '\n' ∉ text) : (lines text).length ≤ 1 := by
  rw [lines, List.splitOn_eq_singleton h]
  split <;> simp

/-- The first lines of a text are the lines of a beginning of it. -/
theorem exists_prefix_lines (n : Nat) (text : List Char) :
    ∃ start, start <+: text ∧ lines start = (lines text).take n := by
  induction n generalizing text with
  | zero => exact ⟨[], List.nil_prefix, rfl⟩
  | succ n ih =>
    by_cases h : '\n' ∈ text
    · obtain ⟨line, rest, rfl, hline⟩ := List.eq_append_cons_of_mem h
      obtain ⟨start, hstart, hlines⟩ := ih rest
      refine ⟨line ++ '\n' :: start, ?_, ?_⟩
      · exact (List.prefix_append_right_inj line).mpr (List.cons_prefix_cons.mpr ⟨rfl, hstart⟩)
      · rw [lines_append_cons hline, lines_append_cons hline, hlines, List.take_succ_cons]
    · refine ⟨text, List.prefix_rfl, (List.take_of_length_le ?_).symm⟩
      exact (length_lines_le_one h).trans (Nat.succ_le_succ (Nat.zero_le n))

end Text

/-! ## Faults of entries -/

namespace Entry

variable {x : Entry} {lines before block : List (List Char)} {line : List Char} {i : Nat}
  {field : HeaderField} {fault : Fault}

theorem heldBy_of_faulty (hfield : field ∈ x.header) (h : field.Faulty line fault) :
    fault.HeldBy line := by
  simp only [header, List.mem_cons, List.not_mem_nil, or_false] at hfield
  rcases hfield with rfl | rfl | rfl | rfl | rfl
  · obtain ⟨h, rfl⟩ := h
    exact ⟨String.toList_ofList, h⟩
  · obtain ⟨h, rfl⟩ := h
    exact .inl ⟨String.toList_ofList, h⟩
  · obtain ⟨h, rfl⟩ := h
    have hnumber : OrdinalFault x.count line (.badNumber (String.ofList line)) := .badNumber h
    exact hnumber.heldBy List.infix_rfl
  · exact OrdinalFault.heldBy h List.infix_rfl
  · exact OrdinalsFault.heldBy h

theorem Begins.spelledBy (hx : x.Begins before) (hlength : before.length = x.header.length)
    (hblock : x.Block block) (hmax : x.count ≤ x.edges.length + 2) :
    x.SpelledBy (before ++ block) := by
  obtain ⟨_, _, _, _, _, _, rfl, htoken, ⟨halphabet, hsymbols⟩, hcount, ⟨hstart, hlt⟩, haccepting⟩ :=
    hx.exists_lines hlength
  exact .intro htoken halphabet hsymbols hcount hstart hlt haccepting hblock.spelling
    hblock.label_mem hblock.pairwise hmax

/-- The faulty line holds what the fault is about; only a missing line is not there. -/
theorem FaultAt.position (h : FaultAt lines i fault) :
    (i = lines.length ∧ ∃ expected, fault = .truncated expected) ∨
      ∃ line, lines[i]? = some line ∧ fault.HeldBy line := by
  cases h with
  | header hx hfield h =>
    cases h with
    | truncated => exact .inl ⟨by simp, _, rfl⟩
    | line h =>
      exact .inr ⟨_, by simp, heldBy_of_faulty (List.mem_of_getElem? hfield) h⟩
  | edge _ _ _ _ h => exact .inr ⟨_, by simp, h.heldBy⟩
  | states hx hlength _ _ _ =>
    obtain ⟨_, _, count, _, _, _, rfl, _, _, hcount, _⟩ := hx.exists_lines hlength
    exact .inr ⟨count, rfl, hcount⟩

/-- The lines in front of a fault end too early, or too early for their number of states, or are a
whole entry. -/
theorem FaultAt.take (h : FaultAt lines i fault)
    (hstates : ∀ count max, fault ≠ .tooManyStates count max) :
    (∃ expected, FaultAt (lines.take i) i (.truncated expected)) ∨
      (∃ count max, FaultAt (lines.take i) 2 (.tooManyStates count max)) ∨
        ∃ x : Entry, x.SpelledBy (lines.take i) := by
  cases h with
  | @header x before rest field fault hx hfield h =>
    have hend := FaultAt.header hx hfield .truncated
    rw [List.take_left]
    rw [List.append_nil] at hend
    exact .inl ⟨_, hend⟩
  | @edge x before block rest line fault hx hlength hblock _ _ =>
    rw [← List.append_assoc, ← List.length_append, List.take_left]
    by_cases hmax : x.count ≤ x.edges.length + 2
    · exact .inr (.inr ⟨x, hx.spelledBy hlength hblock hmax⟩)
    · have hend : FaultAt (before ++ (block ++ [])) 2 _ :=
        .states hx hlength hblock (by simp) (Nat.lt_of_not_le hmax)
      rw [List.append_nil] at hend
      exact .inr (.inl ⟨_, _, hend⟩)
  | states => exact absurd rfl (hstates _ _)

end Entry

/-! ## Faults of tables -/

/-- What may come out when a text is cut off in front of a line: the table that it holds by then, or an
error that something is missing in that line, or that there are more states than the transitions so far
account for. -/
inductive Table.CutOff (number : Nat) : Except Table.Error Table → Prop where
  | ok {table : Table} : CutOff number (.ok table)
  | truncated {expected : String} : CutOff number (.error ⟨number, .truncated expected⟩)
  | states {line count max : Nat} : CutOff number (.error ⟨line, .tooManyStates count max⟩)

namespace Table

variable {lines : List (List Char)} {i : Nat} {fault : Fault} {result : Except Table.Error Table}

theorem CutOff.map {number : Nat} (h : CutOff number result) (f : Table → Table) :
    CutOff number (result.map f) := by
  cases h with
  | ok => exact .ok
  | truncated => exact .truncated
  | states => exact .states

theorem FaultAt.position (h : FaultAt lines i fault) :
    (i = lines.length ∧ ∃ expected, fault = .truncated expected) ∨
      ∃ line, lines[i]? = some line ∧ fault.HeldBy line := by
  induction h with
  | here _ h => exact h.position
  | @later x lines rest i fault _ _ ih =>
    rcases ih with ⟨rfl, htruncated⟩ | ⟨line, hline, hheld⟩
    · refine .inl ⟨?_, htruncated⟩
      rw [List.length_append, List.length_cons]
      omega
    · refine .inr ⟨line, ?_, hheld⟩
      rw [Nat.add_assoc, List.getElem?_append_right (Nat.le_add_right _ _), Nat.add_sub_cancel_left,
        Nat.add_comm, List.getElem?_cons_succ, hline]

theorem FaultAt.cutOff (h : FaultAt lines i fault)
    (hstates : ∀ count max, fault ≠ .tooManyStates count max) (number : Nat) :
    CutOff (number + i) (Cursor.readEntries ⟨lines.take i, number⟩) := by
  induction h generalizing number with
  | @here lines i fault _ h =>
    cases hblank : Cursor.onlyBlanks ⟨lines.take i, number⟩ with
    | true =>
      rw [Cursor.readEntries_eq_ok.mpr (.inl ⟨hblank, rfl⟩)]
      exact .ok
    | false =>
      have hblank := Cursor.onlyBlanks_eq_false.mp hblank
      rcases h.take hstates with ⟨_, h⟩ | ⟨_, _, h⟩ | ⟨x, hx⟩
      · rw [Cursor.readEntries_of_faultAt (.here hblank h)]
        exact .truncated
      · rw [Cursor.readEntries_of_faultAt (.here hblank h)]
        exact .states
      · rw [Cursor.readEntries_of_spells (.last hx) (.cons hx.consistent.describes_dfa .nil)]
        exact .ok
  | @later x lines rest i fault hx _ ih =>
    have htake : (lines ++ [] :: rest).take (lines.length + 1 + i) = lines ++ [] :: rest.take i := by
      rw [Nat.add_assoc, List.take_length_add_append, Nat.add_comm, List.take_succ_cons]
    have hnumber : number + (lines.length + 1 + i) = number + lines.length + 1 + i := by omega
    rw [htake, Cursor.readEntries_spelledBy_append hx, hnumber]
    exact (ih hstates _).map _

/-! ## Errors of tables -/

/-- The line of the error in the text: it exists unless something is missing, it holds what is wrong,
and what stands in front of it is not wrong. -/
structure Error.Located (text : String) (e : Error) : Prop where
  one_le : 1 ≤ e.line
  faultAt : FaultAt (Text.lines text.toList) (e.line - 1) e.fault
  truncated_iff : (∃ expected, e.fault = .truncated expected) ↔
    e.line = (Text.lines text.toList).length + 1
  heldBy : (∀ expected, e.fault ≠ .truncated expected) →
    ∃ line, (Text.lines text.toList)[e.line - 1]? = some line ∧ e.fault.HeldBy line
  /-- The lines in front of the error are those of a beginning of the text. -/
  beginning : ∃ start, start <+: text.toList ∧
    Text.lines start = (Text.lines text.toList).take (e.line - 1)
  cutOff : (∀ count max, e.fault ≠ .tooManyStates count max) → ∀ start : String,
    Text.lines start.toList = (Text.lines text.toList).take (e.line - 1) → CutOff e.line (parse start)

/-- Every error in a table is located in its line, and unless it is about the number of states it is the
first one. -/
theorem located_of_parse {text : String} {e : Error} (h : parse text = .error e) : e.Located text := by
  obtain ⟨i, hline, hfault⟩ := refused_iff_faultAt.mp h
  have hi : e.line - 1 = i := by omega
  constructor
  case one_le => omega
  case faultAt => rwa [hi]
  case truncated_iff =>
    rcases hfault.position with ⟨rfl, htruncated⟩ | ⟨line, hget, hheld⟩
    · exact iff_of_true htruncated hline
    · have hlt := (List.getElem?_eq_some_iff.mp hget).1
      exact iff_of_false (fun ⟨expected, h⟩ => hheld.ne_truncated expected h) (by omega)
  case heldBy =>
    intro htruncated
    rw [hi]
    exact hfault.position.resolve_left fun ⟨_, expected, h⟩ => htruncated expected h
  case beginning => exact Text.exists_prefix_lines _ _
  case cutOff =>
    intro hstates start hstart
    rw [parse, hstart, hi, hline, Nat.add_comm i]
    exact hfault.cutOff hstates 1

/-- The second entry has two transitions from `0` on `b`; without the second of them it is read. -/
theorem located_of_parse_conflict :
    let text := "T\na\n2\n0\n1\n0,'a',1\n\nU\nab\n3\n0\n1 2\n0,'b',2\n0,'b',1\n"
    parse text = .error ⟨14, .conflict 0 'b'⟩ ∧ Error.Located text ⟨14, .conflict 0 'b'⟩ := by
  intro text
  have h : parse text = .error ⟨14, .conflict 0 'b'⟩ := by cbv
  exact ⟨h, located_of_parse h⟩

end Table

end LexGen
