-- SUMMARY: Which texts are refused as tables, with what fault and in which line.
import Mathlib
import LexGen.Proofs.Table.Faults
import LexGen.Proofs.Table.Grammar

/-! # Refused tables

The grammar of tables says which texts are read; the grammar of faults says where and why the others are
refused. Entries that are spelled properly stand in front, each with an empty line behind it. The next
entry begins properly, up to the line that is faulty or missing. Only the number of states is judged
later, when the transitions of its entry are known. -/

namespace LexGen

open Table (Fault)

/-! ## Faults of entries -/

/-- A header line of an entry: its name in messages, when it is spelled properly, and its faults. -/
structure HeaderField where
  expected : String
  Spelled : List Char → Prop
  Faulty : List Char → Fault → Prop

/-- The lines should begin with the field, but end before it, or their first one is faulty. -/
inductive HeaderField.Fails (field : HeaderField) : List (List Char) → Fault → Prop where
  | truncated : field.Fails [] (.truncated field.expected)
  | line {line : List Char} {rest : List (List Char)} {fault : Fault} (h : field.Faulty line fault) :
      field.Fails (line :: rest) fault

namespace Entry

/-- The header lines of the entry. -/
def header (x : Entry) : List HeaderField := [
  { expected := "a token name"
    Spelled := fun line => Text.Escape.Spells line x.token.toList
    Faulty := fun line fault => (∀ symbols, ¬ Text.Escape.Spells line symbols) ∧
      fault = .badToken (String.ofList line) },
  { expected := "an alphabet"
    Spelled := fun line =>
      ∃ symbols, Text.Escape.Spells line symbols ∧ symbols.eraseDups = x.alphabet
    Faulty := fun line fault => (∀ symbols, ¬ Text.Escape.Spells line symbols) ∧
      fault = .badSymbol (String.ofList line) },
  { expected := "a state count"
    Spelled := fun line => NumberSpelling line x.count
    Faulty := fun line fault => (∀ n, ¬ NumberSpelling line n) ∧
      fault = .badNumber (String.ofList line) },
  { expected := "a start state"
    Spelled := fun line => NumberSpelling line x.start ∧ x.start < x.count
    Faulty := OrdinalFault x.count },
  { expected := "accepting states"
    Spelled := fun line => OrdinalsSpelling x.count line x.accepting
    Faulty := OrdinalsFault x.count }]

/-- The lines are the first header lines of the entry, or all of them. -/
def Begins (x : Entry) (lines : List (List Char)) : Prop :=
  List.Forall₂ (fun line field => field.Spelled line) lines (x.header.take lines.length)

/-- The lines spell the transitions of the entry. -/
structure Block (x : Entry) (block : List (List Char)) : Prop where
  spelling : List.Forall₂ (EdgeSpelling x.count) block x.edges
  label_mem : ∀ e ∈ x.edges, e.label ∈ x.alphabet
  pairwise : x.edges.Pairwise fun e e' => e.source = e'.source → e.label ≠ e'.label

/-- The first fault of the lines as an entry, and the position of its line, counted from zero. -/
inductive FaultAt : List (List Char) → Nat → Fault → Prop where
  | header {x : Entry} {before rest : List (List Char)} {field : HeaderField} {fault : Fault}
      (hx : x.Begins before) (hfield : x.header[before.length]? = some field)
      (h : field.Fails rest fault) :
      FaultAt (before ++ rest) before.length fault
  | edge {x : Entry} {before block rest : List (List Char)} {line : List Char} {fault : Fault}
      (hx : x.Begins before) (hlength : before.length = x.header.length) (hblock : x.Block block)
      (hline : line ≠ []) (h : NewEdgeFault x.alphabet x.count x.edges line fault) :
      FaultAt (before ++ (block ++ line :: rest)) (before.length + block.length) fault
  | states {x : Entry} {before block rest : List (List Char)} (hx : x.Begins before)
      (hlength : before.length = x.header.length) (hblock : x.Block block)
      (hrest : ∀ line ∈ rest.head?, line = []) (hmax : x.edges.length + 2 < x.count) :
      -- The fault is found behind the block, but its line is that of the count.
      FaultAt (before ++ (block ++ rest)) 2 (.tooManyStates x.count (x.edges.length + 2))

end Entry

/-- The first fault of the lines as a table, and the position of its line, counted from zero. -/
inductive Table.FaultAt : List (List Char) → Nat → Fault → Prop where
  | here {lines : List (List Char)} {i : Nat} {fault : Fault}
      (hblank : ∃ line ∈ lines, ∃ c ∈ line, Text.isBlank c = false)
      (h : Entry.FaultAt lines i fault) : FaultAt lines i fault
  | later {x : Entry} {lines rest : List (List Char)} {i : Nat} {fault : Fault}
      (hx : x.SpelledBy lines) (h : FaultAt rest i fault) :
      FaultAt (lines ++ [] :: rest) (lines.length + 1 + i) fault

/-! ## Reading lines with a fault -/

namespace Cursor

variable {alphabet : List Char} {count number : Nat} {edges : List (Edge Nat Char)}
  {lines : List (List Char)} {e : Table.Error}

theorem next_eq_error {α : Type} {field : HeaderField} {k : Cursor}
    {read : List Char → Except Fault α}
    (hread : ∀ {line fault}, read line = .error fault ↔ field.Faulty line fault) :
    k.next field.expected read = .error e ↔ e.line = k.number ∧ field.Fails k.lines e.fault := by
  obtain ⟨lines, number⟩ := k
  obtain ⟨line, fault⟩ := e
  cases lines with
  | nil =>
    rw [next]
    constructor
    · intro h
      cases h
      exact ⟨rfl, .truncated⟩
    · rintro ⟨rfl, h⟩
      cases h
      rfl
  | cons first rest =>
    simp only [next]
    constructor
    · intro h
      split at h
      · cases h
      · rename_i hfault
        cases h
        exact ⟨rfl, .line (hread.mp hfault)⟩
    · rintro ⟨rfl, h⟩
      cases h with
      | line h => rw [hread.mpr h]

theorem nextEdges_eq_error : nextEdges alphabet count edges number lines = .error e ↔
    ∃ block new line rest, lines = block ++ line :: rest ∧ EdgeBlock alphabet count block new ∧
      (∀ e ∈ edges, ∀ e' ∈ new, e.source = e'.source → e.label ≠ e'.label) ∧ line ≠ [] ∧
      e.line = number + block.length ∧
      NewEdgeFault alphabet count (new.reverse ++ edges) line e.fault := by
  constructor
  · intro h
    induction lines generalizing edges number with
    | nil => cases h
    | cons line lines ih =>
      rw [nextEdges] at h
      split at h
      · cases h
      · rename_i hempty
        split at h
        · rename_i edge hjoin
          obtain ⟨hread, hlabel, hnew⟩ := readNewEdge_eq_ok.mp hjoin
          obtain ⟨block, new, last, rest, rfl, hblock, hedges, hlast, hline, hfault⟩ := ih h
          obtain ⟨hfirst, hedges⟩ := List.forall_mem_cons.mp hedges
          refine ⟨line :: block, edge :: new, last, rest, rfl,
            EdgeBlock.cons_iff.mpr ⟨hread, hlabel, hfirst, hblock⟩, fun e₁ h₁ => ?_, hlast, ?_, ?_⟩
          · exact List.forall_mem_cons.mpr ⟨hnew e₁ h₁, hedges e₁ h₁⟩
          · rw [hline, List.length_cons]
            omega
          · rwa [List.reverse_cons, List.append_assoc]
        · rename_i fault hfault
          cases h
          exact ⟨[], [], line, lines, rfl, .nil _ _, by simp, by simpa using hempty, rfl,
            readNewEdge_eq_error.mp hfault⟩
  · rintro ⟨block, new, line, rest, rfl, hblock, hedges, hline, he, hfault⟩
    rw [nextEdges_block hblock hedges, nextEdges, if_neg (by simpa using hline),
      readNewEdge_eq_error.mpr hfault, ← he]

end Cursor

namespace Entry

variable {x : Entry} {before block rest : List (List Char)}

/-- The five lines of a complete header. -/
theorem Begins.exists_lines (hx : x.Begins before) (hlength : before.length = x.header.length) :
    ∃ token alphabet count start accepting symbols,
      before = [token, alphabet, count, start, accepting] ∧
        Text.Escape.Spells token x.token.toList ∧
        (Text.Escape.Spells alphabet symbols ∧ symbols.eraseDups = x.alphabet) ∧
        NumberSpelling count x.count ∧ (NumberSpelling start x.start ∧ x.start < x.count) ∧
        OrdinalsSpelling x.count accepting x.accepting := by
  match before, hlength with
  | [token, alphabet, count, start, accepting], _ =>
    obtain ⟨htoken, hx⟩ := List.forall₂_cons.mp hx
    obtain ⟨⟨symbols, halphabet⟩, hx⟩ := List.forall₂_cons.mp hx
    obtain ⟨hcount, hx⟩ := List.forall₂_cons.mp hx
    obtain ⟨hstart, hx⟩ := List.forall₂_cons.mp hx
    obtain ⟨haccepting, _⟩ := List.forall₂_cons.mp hx
    exact ⟨token, alphabet, count, start, accepting, symbols, rfl, htoken, halphabet, hcount, hstart,
      haccepting⟩

theorem Block.edgeBlock (h : x.Block block) : EdgeBlock x.alphabet x.count block x.edges :=
  SpelledBy.edgeBlock h.spelling h.label_mem h.pairwise

theorem block_of_edgeBlock (h : EdgeBlock x.alphabet x.count block x.edges) : x.Block block :=
  ⟨h.read.imp fun _ _ => readEdge_iff.mp, h.label_mem, h.pairwise⟩

end Entry

/-! ## Reading an entry with a fault -/

namespace Cursor

variable {number : Nat} {lines before rest : List (List Char)} {e : Table.Error} {x : Entry}
  {field : HeaderField} {fault : Fault}

/-- Reading has come behind the first lines of an entry, which started at the given number. -/
structure Behind (lines : List (List Char)) (number : Nat) (before : List (List Char))
    (k : Cursor) : Prop where
  lines_eq : lines = before ++ k.lines
  number_eq : k.number = number + before.length

/-- Reading the next header line finds its fault, or comes behind it. -/
theorem Behind.faultAt_or_next {α β : Type} {k : Cursor} {read : List Char → Except Fault α}
    {f : α × Cursor → Except Table.Error β} (hk : Behind lines number before k)
    (hx : x.Begins before) (hfield : x.header[before.length]? = some field)
    (hread : ∀ {line fault}, read line = .error fault ↔ field.Faulty line fault)
    (h : k.next field.expected read >>= f = .error e) :
    (∃ i, e.line = number + i ∧ Entry.FaultAt lines i e.fault) ∨
      ∃ a line k', Behind lines number (before ++ [line]) k' ∧ read line = .ok a ∧
        f (a, k') = .error e := by
  rcases bind_eq_error_iff.mp h with hfault | ⟨⟨a, k'⟩, hnext, h⟩
  · obtain ⟨hline, hfails⟩ := (next_eq_error hread).mp hfault
    rw [hk.lines_eq]
    exact .inl ⟨_, hline.trans hk.number_eq, .header hx hfield hfails⟩
  · obtain ⟨line, hlines, hok, hnumber⟩ := next_eq_ok.mp hnext
    refine .inr ⟨a, line, k', ⟨?_, ?_⟩, hok, h⟩
    · rw [hk.lines_eq, hlines, List.append_assoc, List.singleton_append]
    · rw [hnumber, hk.number_eq, List.length_append, List.length_singleton, Nat.add_assoc]

theorem faultAt_of_readFields (h : readFields ⟨lines, number⟩ = .error e) :
    ∃ i, e.line = number + i ∧ Entry.FaultAt lines i e.fault := by
  have hk : Behind lines number [] ⟨lines, number⟩ := ⟨rfl, rfl⟩
  -- The fields of the entry become known one by one; those behind the faulty line do not matter.
  obtain hfault | ⟨token, l₁, k₁, hk, htoken, h⟩ :=
    hk.faultAt_or_next (x := ⟨"", [], 0, 0, [], []⟩) .nil rfl readToken_eq_error h
  · exact hfault
  have htoken := readToken_eq_ok.mp htoken
  obtain hfault | ⟨alphabet, l₂, k₂, hk, halphabet, h⟩ :=
    hk.faultAt_or_next (x := ⟨token, [], 0, 0, [], []⟩) (.cons htoken .nil) rfl
      readAlphabet_eq_error h
  · exact hfault
  have halphabet := readAlphabet_eq_ok.mp halphabet
  have hnumber : k₂.number = number + 2 := hk.number_eq
  obtain hfault | ⟨count, l₃, k₃, hk, hcount, h⟩ :=
    hk.faultAt_or_next (x := ⟨token, alphabet, 0, 0, [], []⟩) (.cons htoken (.cons halphabet .nil))
      rfl readNumber_eq_error h
  · exact hfault
  have hcount := readNumber_eq_ok.mp hcount
  obtain hfault | ⟨start, l₄, k₄, hk, hstart, h⟩ :=
    hk.faultAt_or_next (x := ⟨token, alphabet, count, 0, [], []⟩)
      (.cons htoken (.cons halphabet (.cons hcount .nil))) rfl readOrdinal_eq_error h
  · exact hfault
  have hstart := readOrdinal_eq_ok.mp hstart
  rw [readNumber_eq_ok] at hstart
  obtain hfault | ⟨accepting, l₅, k₅, hk, haccepting, h⟩ :=
    hk.faultAt_or_next (x := ⟨token, alphabet, count, start, [], []⟩)
      (.cons htoken (.cons halphabet (.cons hcount (.cons hstart .nil)))) rfl
      readOrdinals_eq_error h
  · exact hfault
  have haccepting := readOrdinals_eq_ok.mp haccepting
  have hbegins : ∀ edges, Entry.Begins ⟨token, alphabet, count, start, accepting, edges⟩
      [l₁, l₂, l₃, l₄, l₅] := fun _ =>
    .cons htoken (.cons halphabet (.cons hcount (.cons hstart (.cons haccepting .nil))))
  rcases bind_eq_error_iff.mp h with h | ⟨⟨edges, k₆⟩, hedges, h⟩
  · obtain ⟨block, new, line, rest, hlines, hblock, -, hline, he, hfault⟩ := nextEdges_eq_error.mp h
    rw [hk.lines_eq, hlines]
    refine ⟨5 + block.length, ?_, .edge (hbegins new) rfl (Entry.block_of_edgeBlock hblock) hline ?_⟩
    · rw [he, hk.number_eq, Nat.add_assoc]
      rfl
    · exact hfault.mono (by simp)
  · obtain ⟨block, new, hlines, hrest, -, hblock, -, hnew⟩ := edgeBlock_of_nextEdges hedges
    dsimp only at h
    split at h
    · rename_i hmax
      cases h
      rw [hk.lines_eq, hlines]
      rw [hnew, List.append_nil, List.length_reverse] at hmax ⊢
      exact ⟨2, hnumber, .states (hbegins new) rfl (Entry.block_of_edgeBlock hblock) hrest hmax⟩
    · cases h

theorem next_bind_of_ok {α β : Type} {read : List Char → Except Fault α} {line : List Char} {a : α}
    {expected : String} {f : α × Cursor → Except Table.Error β} (h : read line = .ok a) :
    next ⟨line :: rest, number⟩ expected read >>= f = f (a, ⟨rest, number + 1⟩) := by
  have hnext : next ⟨line :: rest, number⟩ expected read = .ok (a, ⟨rest, number + 1⟩) :=
    next_eq_ok.mpr ⟨line, rfl, h, rfl⟩
  rw [hnext, ok_bind]

theorem next_bind_of_fails {α β : Type} {read : List Char → Except Fault α}
    {f : α × Cursor → Except Table.Error β}
    (hread : ∀ {line fault}, read line = .error fault ↔ field.Faulty line fault)
    (h : field.Fails rest fault) :
    next ⟨rest, number⟩ field.expected read >>= f = .error ⟨number, fault⟩ :=
  bind_eq_error_iff.mpr (.inl ((next_eq_error hread).mpr ⟨rfl, h⟩))

theorem readFields_of_fails (hx : x.Begins before) (hfield : x.header[before.length]? = some field)
    (h : field.Fails rest fault) :
    readFields ⟨before ++ rest, number⟩ = .error ⟨number + before.length, fault⟩ := by
  rcases before with _ | ⟨token, before⟩
  · cases hfield
    exact next_bind_of_fails readToken_eq_error h
  obtain ⟨htoken, hx⟩ := List.forall₂_cons.mp hx
  refine (next_bind_of_ok (readToken_eq_ok.mpr htoken)).trans ?_
  rcases before with _ | ⟨alphabet, before⟩
  · cases hfield
    exact next_bind_of_fails readAlphabet_eq_error h
  obtain ⟨halphabet, hx⟩ := List.forall₂_cons.mp hx
  refine (next_bind_of_ok (readAlphabet_eq_ok.mpr halphabet)).trans ?_
  rcases before with _ | ⟨count, before⟩
  · cases hfield
    exact next_bind_of_fails readNumber_eq_error h
  obtain ⟨hcount, hx⟩ := List.forall₂_cons.mp hx
  refine (next_bind_of_ok (readNumber_eq_ok.mpr hcount)).trans ?_
  rcases before with _ | ⟨start, before⟩
  · cases hfield
    exact next_bind_of_fails readOrdinal_eq_error h
  obtain ⟨⟨hstart, hlt⟩, hx⟩ := List.forall₂_cons.mp hx
  refine (next_bind_of_ok (readOrdinal_eq_ok.mpr ⟨readNumber_eq_ok.mpr hstart, hlt⟩)).trans ?_
  rcases before with _ | ⟨accepting, before⟩
  · cases hfield
    exact next_bind_of_fails readOrdinals_eq_error h
  · cases hfield

/-- A complete header is read before the transitions. -/
theorem readFields_of_begins (hx : x.Begins before) (hlength : before.length = x.header.length) :
    readFields ⟨before ++ rest, number⟩ =
      nextEdges x.alphabet x.count [] (number + before.length) rest >>= fun (edges, k) =>
        if edges.length + 2 < x.count then
          .error ⟨number + 2, .tooManyStates x.count (edges.length + 2)⟩
        else .ok ({ x with edges }, k) := by
  obtain ⟨token, alphabet, count, start, accepting, symbols, rfl, htoken, halphabet, hcount,
    ⟨hstart, hlt⟩, haccepting⟩ := hx.exists_lines hlength
  refine (next_bind_of_ok (readToken_eq_ok.mpr htoken)).trans ?_
  refine (next_bind_of_ok (readAlphabet_eq_ok.mpr ⟨symbols, halphabet⟩)).trans ?_
  refine (next_bind_of_ok (readNumber_eq_ok.mpr hcount)).trans ?_
  refine (next_bind_of_ok (readOrdinal_eq_ok.mpr ⟨readNumber_eq_ok.mpr hstart, hlt⟩)).trans ?_
  exact next_bind_of_ok (readOrdinals_eq_ok.mpr haccepting)

theorem readFields_of_faultAt {i : Nat} (h : Entry.FaultAt lines i fault) (number : Nat) :
    readFields ⟨lines, number⟩ = .error ⟨number + i, fault⟩ := by
  cases h with
  | header hx hfield h => exact readFields_of_fails hx hfield h
  | edge hx hlength hblock hline h =>
    rw [readFields_of_begins hx hlength]
    refine bind_eq_error_iff.mpr (.inl (nextEdges_eq_error.mpr ?_))
    refine ⟨_, _, _, _, rfl, hblock.edgeBlock, by simp, hline, ?_, h.mono (by simp)⟩
    exact (Nat.add_assoc _ _ _).symm
  | states hx hlength hblock hrest hmax =>
    rw [readFields_of_begins hx hlength, nextEdges_append hblock.edgeBlock hrest (by simp), ok_bind]
    simp [hmax]

theorem readFields_eq_error : readFields ⟨lines, number⟩ = .error e ↔
    ∃ i, e.line = number + i ∧ Entry.FaultAt lines i e.fault := by
  refine ⟨faultAt_of_readFields, fun ⟨i, hline, h⟩ => ?_⟩
  rw [readFields_of_faultAt h, ← hline]

theorem readEntry_eq_error {k : Cursor} : k.readEntry = .error e ↔ k.readFields = .error e := by
  rw [readEntry, bind_eq_error_iff]
  refine or_iff_left ?_
  rintro ⟨r, _, h⟩
  cases h

/-! ## Reading a table with a fault -/

theorem readEntries_of_faultAt {i : Nat} (h : Table.FaultAt lines i fault) (number : Nat) :
    readEntries ⟨lines, number⟩ = .error ⟨number + i, fault⟩ := by
  induction h generalizing number with
  | here hblank h =>
    rw [readEntries_eq, onlyBlanks_eq_false.mpr hblank, if_neg Bool.false_ne_true]
    exact bind_eq_error_iff.mpr (.inl (readEntry_eq_error.mpr (readFields_of_faultAt h number)))
  | later hx _ ih =>
    rw [readEntries_spelledBy_append hx, ih]
    simp [Except.map, Nat.add_assoc]

theorem faultAt_of_readEntries (h : readEntries ⟨lines, number⟩ = .error e) :
    ∃ i, e.line = number + i ∧ Table.FaultAt lines i e.fault := by
  induction hlength : lines.length using Nat.strongRecOn generalizing lines number with
  | ind length ih =>
    subst hlength
    rw [readEntries_eq] at h
    split at h
    · cases h
    · rename_i hblank
      rw [Bool.not_eq_true, onlyBlanks_eq_false] at hblank
      rcases bind_eq_error_iff.mp h with hentry | ⟨⟨d, k'⟩, hentry, hrest⟩
      · obtain ⟨i, hline, hfault⟩ := readFields_eq_error.mp (readEntry_eq_error.mp hentry)
        exact ⟨i, hline, .here hblank hfault⟩
      · obtain ⟨y, hy, _⟩ := readEntry_eq_ok.mp hentry
        obtain ⟨x, entry, hx, hlines, hhead, _⟩ := Entry.exists_spelledBy_of_holds hy
        obtain ⟨rest, number'⟩ := k'
        obtain rfl : lines = entry ++ rest := hlines
        rw [readEntry_of_spelledBy hx hx.consistent.describes_dfa hhead] at hentry
        cases hentry
        have hrest := map_eq_error_iff.mp hrest
        cases rest with
        | nil =>
          rw [readEntries_eq] at hrest
          cases hrest
        | cons line rest =>
          obtain rfl := hhead line rfl
          have hlt : rest.length < (entry ++ [] :: rest).length := by
            rw [List.length_append, List.length_cons]
            omega
          obtain ⟨i, hline, hfault⟩ := ih _ hlt hrest rfl
          have hline : e.line = number + entry.length + 1 + i := hline
          exact ⟨entry.length + 1 + i, by omega, .later hx hfault⟩

theorem readEntries_eq_error : readEntries ⟨lines, number⟩ = .error e ↔
    ∃ i, e.line = number + i ∧ Table.FaultAt lines i e.fault := by
  refine ⟨faultAt_of_readEntries, fun ⟨i, hline, h⟩ => ?_⟩
  rw [readEntries_of_faultAt h, ← hline]

end Cursor

/-- A text is refused exactly if its lines have a fault, and with the fault that they have. -/
theorem Table.refused_iff_faultAt {text : String} {e : Table.Error} : parse text = .error e ↔
    ∃ i, e.line = i + 1 ∧ FaultAt (Text.lines text.toList) i e.fault := by
  simp only [parse, Cursor.readEntries_eq_error, Nat.add_comm 1]

end LexGen
