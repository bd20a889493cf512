-- SUMMARY: What a successful reading of a table entry says about its lines, and the well-formedness of what is read.
import Mathlib.Data.List.Forall2
import LexGen.Proofs.Dfa.Live
import LexGen.Proofs.Table.Line

/-! # Reading entries

An entry is read from five header lines and some transitions. The automaton made of them is
well-formed: ordinals are checked against the number of states when they are read. -/

namespace LexGen

namespace Cursor

theorem next_eq_ok {α : Type} {k k' : Cursor} {expected : String}
    {read : List Char → Except Table.Fault α} {a : α} :
    k.next expected read = .ok (a, k') ↔
      ∃ line, k.lines = line :: k'.lines ∧ read line = .ok a ∧ k'.number = k.number + 1 := by
  obtain ⟨lines, number⟩ := k
  obtain ⟨lines', number'⟩ := k'
  cases lines with
  | nil => simp [next]
  | cons line rest =>
    simp only [next, List.cons.injEq]
    constructor
    · intro h
      split at h
      · rename_i hread
        cases h
        exact ⟨line, ⟨rfl, rfl⟩, hread, rfl⟩
      · cases h
    · intro ⟨line', ⟨hline, hrest⟩, hread, hnumber⟩
      subst hline hrest hnumber
      rw [hread]

end Cursor

/-! ## Blocks of transitions -/

/-- Transitions read from the lines of a block: their labels are in the alphabet, and no two of them
have the same source and label. -/
structure EdgeBlock (alphabet : List Char) (count : Nat) (block : List (List Char))
    (edges : List (Edge Nat Char)) : Prop where
  read : List.Forall₂ (fun line e => readEdge count line = .ok e) block edges
  label_mem : ∀ e ∈ edges, e.label ∈ alphabet
  pairwise : edges.Pairwise fun e e' => e.source = e'.source → e.label ≠ e'.label

namespace EdgeBlock

variable {alphabet line : List Char} {count : Nat} {block : List (List Char)}
  {edges : List (Edge Nat Char)} {e : Edge Nat Char}

theorem nil (alphabet : List Char) (count : Nat) : EdgeBlock alphabet count [] [] :=
  ⟨.nil, by simp, .nil⟩

theorem cons_iff : EdgeBlock alphabet count (line :: block) (e :: edges) ↔
    readEdge count line = .ok e ∧ e.label ∈ alphabet ∧
      (∀ e' ∈ edges, e.source = e'.source → e.label ≠ e'.label) ∧
      EdgeBlock alphabet count block edges := by
  constructor
  · rintro ⟨hread, hlabels, hpairwise⟩
    obtain ⟨hline, hread⟩ := List.forall₂_cons.mp hread
    obtain ⟨hlabel, hlabels⟩ := List.forall_mem_cons.mp hlabels
    obtain ⟨hfirst, hpairwise⟩ := List.pairwise_cons.mp hpairwise
    exact ⟨hline, hlabel, hfirst, hread, hlabels, hpairwise⟩
  · rintro ⟨hline, hlabel, hfirst, hread, hlabels, hpairwise⟩
    exact ⟨.cons hline hread, List.forall_mem_cons.mpr ⟨hlabel, hlabels⟩,
      List.pairwise_cons.mpr ⟨hfirst, hpairwise⟩⟩

theorem ends_lt (h : EdgeBlock alphabet count block edges) :
    ∀ e ∈ edges, e.source < count ∧ e.target < count := by
  have hread := h.read
  clear h
  induction hread with
  | nil => simp
  | cons hline _ ih =>
    obtain ⟨_, _, _, _, hsource, _, htarget⟩ := readEdge_eq_ok.mp hline
    exact List.forall_mem_cons.mpr
      ⟨⟨(readOrdinal_eq_ok.mp hsource).2, (readOrdinal_eq_ok.mp htarget).2⟩, ih⟩

end EdgeBlock

namespace Cursor

variable {alphabet : List Char} {count number : Nat} {edges edges' : List (Edge Nat Char)}

theorem edgeBlock_of_nextEdges {lines : List (List Char)} {k' : Cursor}
    (h : nextEdges alphabet count edges number lines = .ok (edges', k')) :
    ∃ block new, lines = block ++ k'.lines ∧ (∀ line ∈ k'.lines.head?, line = []) ∧
      k'.number = number + block.length ∧ EdgeBlock alphabet count block new ∧
      (∀ e ∈ edges, ∀ e' ∈ new, e.source = e'.source → e.label ≠ e'.label) ∧
      edges' = new.reverse ++ edges := by
  induction lines generalizing edges number with
  | nil =>
    cases h
    exact ⟨[], [], rfl, by simp, rfl, .nil _ _, by simp, rfl⟩
  | cons line lines ih =>
    rw [nextEdges] at h
    split at h
    · rename_i hempty
      cases h
      exact ⟨[], [], rfl, by simpa using hempty, rfl, .nil _ _, by simp, rfl⟩
    · split at h
      · rename_i e hjoin
        obtain ⟨hread, hlabel, hnew⟩ := readNewEdge_eq_ok.mp hjoin
        obtain ⟨block, new, rfl, hrest, hnumber, hblock, hedges, rfl⟩ := ih h
        obtain ⟨hfirst, hedges⟩ := List.forall_mem_cons.mp hedges
        refine ⟨line :: block, e :: new, rfl, hrest, ?_,
          EdgeBlock.cons_iff.mpr ⟨hread, hlabel, hfirst, hblock⟩, fun e₁ h₁ => ?_, by simp⟩
        · rw [hnumber, List.length_cons]
          omega
        · exact List.forall_mem_cons.mpr ⟨hnew e₁ h₁, hedges e₁ h₁⟩
      · cases h

/-- Reading stops at the first empty line. -/
theorem lines_of_nextEdges {block rest : List (List Char)} {k' : Cursor}
    (hblock : ∀ line ∈ block, line ≠ []) (hrest : ∀ line ∈ rest.head?, line = [])
    (h : nextEdges alphabet count edges number (block ++ rest) = .ok (edges', k')) :
    k'.lines = rest := by
  induction block generalizing edges number with
  | nil =>
    cases rest with
    | nil =>
      cases h
      rfl
    | cons line rest =>
      obtain rfl := hrest line rfl
      cases h
      rfl
  | cons line block ih =>
    obtain ⟨hline, hblock⟩ := List.forall_mem_cons.mp hblock
    rw [List.cons_append, nextEdges, if_neg (by simpa using hline)] at h
    split at h
    · exact ih hblock h
    · cases h

/-- A block is read before what follows it, if none of its transitions is in conflict with those read
before. -/
theorem nextEdges_block {block : List (List Char)} {new : List (Edge Nat Char)}
    (hblock : EdgeBlock alphabet count block new)
    (hedges : ∀ e ∈ edges, ∀ e' ∈ new, e.source = e'.source → e.label ≠ e'.label)
    (rest : List (List Char)) :
    nextEdges alphabet count edges number (block ++ rest) =
      nextEdges alphabet count (new.reverse ++ edges) (number + block.length) rest := by
  induction block generalizing edges new number with
  | nil =>
    obtain rfl := List.forall₂_nil_left_iff.mp hblock.read
    rfl
  | cons line block ih =>
    obtain ⟨e, new, _, _, rfl⟩ := List.forall₂_cons_left_iff.mp hblock.read
    obtain ⟨hread, hlabel, hfirst, hblock⟩ := EdgeBlock.cons_iff.mp hblock
    have hjoin : readNewEdge alphabet count edges line = .ok e :=
      readNewEdge_eq_ok.mpr ⟨hread, hlabel, fun e' he' => hedges e' he' e List.mem_cons_self⟩
    have hempty : ¬ line.isEmpty = true := by
      intro hempty
      rw [List.isEmpty_iff.mp hempty] at hread
      exact absurd hread nofun
    have hedges' : ∀ e₁ ∈ e :: edges, ∀ e₂ ∈ new, e₁.source = e₂.source → e₁.label ≠ e₂.label :=
      List.forall_mem_cons.mpr
        ⟨hfirst, fun e₁ h₁ e₂ h₂ => hedges e₁ h₁ e₂ (List.mem_cons_of_mem _ h₂)⟩
    rw [List.cons_append, nextEdges, if_neg hempty, hjoin]
    dsimp only
    rw [ih hblock hedges', List.length_cons, List.reverse_cons, List.append_assoc]
    rw [Nat.add_assoc, Nat.add_comm 1, List.singleton_append]

/-- A block ends at an empty line or at the end. -/
theorem nextEdges_append {block rest : List (List Char)} {new : List (Edge Nat Char)}
    (hblock : EdgeBlock alphabet count block new) (hrest : ∀ line ∈ rest.head?, line = [])
    (hedges : ∀ e ∈ edges, ∀ e' ∈ new, e.source = e'.source → e.label ≠ e'.label) :
    nextEdges alphabet count edges number (block ++ rest) =
      .ok (new.reverse ++ edges, ⟨rest, number + block.length⟩) := by
  rw [nextEdges_block hblock hedges]
  cases rest with
  | nil => rfl
  | cons line rest =>
    obtain rfl := hrest line rfl
    rfl

end Cursor

/-! ## Entries -/

/-- The entry read from one cursor to another. -/
inductive Cursor.Holds : Cursor → Entry → Cursor → Prop where
  | intro {token alphabet count start accepting : List Char} {rest : List (List Char)}
      {number : Nat} {x : Entry} {k' : Cursor}
      (htoken : readToken token = .ok x.token)
      (halphabet : readAlphabet alphabet = .ok x.alphabet)
      (hcount : readNumber count = .ok x.count)
      (hstart : readOrdinal x.count start = .ok x.start)
      (haccepting : readOrdinals x.count accepting = .ok x.accepting)
      (hedges : nextEdges x.alphabet x.count [] (number + 5) rest = .ok (x.edges, k'))
      (hmax : x.count ≤ x.edges.length + 2) :
      Holds ⟨token :: alphabet :: count :: start :: accepting :: rest, number⟩ x k'

theorem Cursor.readFields_eq_ok {k k' : Cursor} {x : Entry} :
    k.readFields = .ok (x, k') ↔ k.Holds x k' := by
  obtain ⟨lines, number⟩ := k
  refine ⟨fun h => ?_, fun h => ?_⟩
  · obtain ⟨⟨token, k₁⟩, h₁, h⟩ := exists_of_bind_eq_ok h
    obtain ⟨⟨alphabet, k₂⟩, h₂, h⟩ := exists_of_bind_eq_ok h
    obtain ⟨⟨count, k₃⟩, h₃, h⟩ := exists_of_bind_eq_ok h
    obtain ⟨⟨start, k₄⟩, h₄, h⟩ := exists_of_bind_eq_ok h
    obtain ⟨⟨accepting, ⟨rest, number'⟩⟩, h₅, h⟩ := exists_of_bind_eq_ok h
    obtain ⟨⟨edges, k₆⟩, h₆, hend⟩ := exists_of_bind_eq_ok h
    obtain ⟨l₁, hl₁, htoken, hn₁⟩ := next_eq_ok.mp h₁
    obtain ⟨l₂, hl₂, halphabet, hn₂⟩ := next_eq_ok.mp h₂
    obtain ⟨l₃, hl₃, hcount, hn₃⟩ := next_eq_ok.mp h₃
    obtain ⟨l₄, hl₄, hstart, hn₄⟩ := next_eq_ok.mp h₄
    obtain ⟨l₅, hl₅, haccepting, hn₅⟩ := next_eq_ok.mp h₅
    obtain rfl : number' = number + 5 := by
      dsimp only at hn₁ hn₅
      omega
    obtain rfl : lines = l₁ :: l₂ :: l₃ :: l₄ :: l₅ :: rest := by
      dsimp only at hl₁ hl₅
      rw [hl₁, hl₂, hl₃, hl₄, hl₅]
    dsimp only at hend
    split at hend
    · cases hend
    · rename_i hmax
      cases hend
      exact ⟨htoken, halphabet, hcount, hstart, haccepting, h₆, Nat.le_of_not_lt hmax⟩
  · cases h with
    | intro htoken halphabet hcount hstart haccepting hedges hmax =>
      simp only [readFields, next, htoken, halphabet, hcount, hstart, haccepting, bind, Except.bind,
        hedges, if_neg (Nat.not_lt.mpr hmax)]

theorem Cursor.readEntry_eq_ok {k k' : Cursor} {d : Dfa} :
    k.readEntry = .ok (d, k') ↔ ∃ x, k.Holds x k' ∧ x.dfa = d := by
  rw [readEntry, bind_eq_ok_iff]
  constructor
  · rintro ⟨⟨x, k₁⟩, hfields, h⟩
    cases h
    exact ⟨x, readFields_eq_ok.mp hfields, rfl⟩
  · rintro ⟨x, hx, rfl⟩
    exact ⟨(x, k'), readFields_eq_ok.mpr hx, rfl⟩

theorem Cursor.onlyBlanks_iff {k : Cursor} :
    k.onlyBlanks = true ↔ ∀ line ∈ k.lines, ∀ c ∈ line, Text.isBlank c = true := by
  simp [onlyBlanks]

theorem Cursor.onlyBlanks_eq_false {k : Cursor} :
    k.onlyBlanks = false ↔ ∃ line ∈ k.lines, ∃ c ∈ line, Text.isBlank c = false := by
  simp [onlyBlanks]

/-- A table is read entry by entry, up to blank lines. -/
theorem Cursor.readEntries_eq (k : Cursor) :
    k.readEntries =
      if k.onlyBlanks then .ok []
      else k.readEntry >>= fun (d, k') => k'.skipEmpty.readEntries.map (d :: ·) := by
  rw [readEntries]
  split
  · rfl
  · split
    · rename_i herror
      rw [herror]
      rfl
    · rename_i d k' hok
      rw [hok]
      change _ = k'.skipEmpty.readEntries.map (d :: ·)
      cases k'.skipEmpty.readEntries with
      | error e => rfl
      | ok ds => rfl

theorem Cursor.readEntries_eq_ok {k : Cursor} {table : Table} :
    k.readEntries = .ok table ↔
      k.onlyBlanks = true ∧ table = [] ∨
        k.onlyBlanks = false ∧ ∃ d k' ds, k.readEntry = .ok (d, k') ∧
          k'.skipEmpty.readEntries = .ok ds ∧ table = d :: ds := by
  rw [readEntries_eq]
  cases hblank : k.onlyBlanks with
  | true => simp [eq_comm]
  | false =>
    rw [if_neg Bool.false_ne_true]
    constructor
    · intro h
      obtain ⟨⟨d, k'⟩, hentry, h⟩ := exists_of_bind_eq_ok h
      obtain ⟨ds, hrest, rfl⟩ := map_eq_ok_iff.mp h
      exact .inr ⟨rfl, d, k', ds, hentry, hrest, rfl⟩
    · rintro (⟨hblank, _⟩ | ⟨_, d, k', ds, hentry, hrest, rfl⟩)
      · cases hblank
      · rw [hentry]
        exact map_eq_ok_iff.mpr ⟨ds, hrest, rfl⟩

/-! ## Well-formedness -/

namespace Automaton

variable {alphabet : List Char} {count start : Nat} {accepting : List Nat}
  {edges : List (Edge Nat Char)}

theorem size_ofEdges : (ofEdges alphabet count start accepting edges).size = count := by
  simp [size, ofEdges]

theorem mem_labels {c : Char} :
    c ∈ labels alphabet edges ↔ c ∈ alphabet ∨ ∃ e ∈ edges, e.label = c := by
  rw [labels, List.mem_eraseDups, List.mem_append, List.mem_map]

theorem labels_eq (halphabet : alphabet.Nodup) (hlabels : ∀ e ∈ edges, e.label ∈ alphabet) :
    labels alphabet edges = alphabet := by
  have hothers : (edges.map (·.label)).removeAll alphabet = [] := by
    simpa [List.removeAll, List.filter_eq_nil_iff] using hlabels
  rw [labels, List.eraseDups_append, hothers, eraseDups_of_nodup halphabet, List.eraseDups_nil,
    List.append_nil]

theorem row_ofEdges {q : Nat} (hq : q < count) :
    (ofEdges alphabet count start accepting edges).rows.getD q [] =
      (labels alphabet edges).filterMap fun c =>
        ((edges.find? fun e => e.source == q && e.label == c).map (·.target)).map (c, ·) := by
  simp [ofEdges, hq, Function.comp_def]

/-- Every transition is looked up, whatever its label is. -/
theorem get?_ofEdges_of_lt {q : Nat} (hq : q < count) (c : Char) :
    (ofEdges alphabet count start accepting edges).get? q c =
      (edges.find? fun e => e.source == q && e.label == c).map (·.target) := by
  rw [get?, row_ofEdges hq, lookup_filterMap]
  split
  · rfl
  · rename_i hc
    have hfind : (edges.find? fun e => e.source == q && e.label == c) = none := by
      rw [List.find?_eq_none]
      intro e he hkey
      have hlabel : e.label = c := by simpa using (Bool.and_eq_true_iff.mp hkey).2
      exact hc (mem_labels.mpr (.inr ⟨e, he, hlabel⟩))
    rw [hfind]
    rfl

/-- The rows are in the order of the alphabet if all labels belong to it. -/
theorem wellFormed_ofEdges (halphabet : alphabet.Nodup) (hstart : start < count)
    (hlabels : ∀ e ∈ edges, e.label ∈ alphabet) (htargets : ∀ e ∈ edges, e.target < count) :
    (ofEdges alphabet count start accepting edges).WellFormed := by
  refine ⟨?_, halphabet, ?_, fun q hq => ?_, fun q c p h => ?_⟩
  · rw [size_ofEdges]
    exact hstart
  · rw [size_ofEdges]
    exact (filter_contains_filter accepting.contains (List.range count)).symm
  · rw [size_ofEdges] at hq
    have hrow := @row_ofEdges alphabet count start accepting edges q hq
    rw [labels_eq halphabet hlabels] at hrow
    exact row_eq_of_filterMap hrow
  · rw [size_ofEdges]
    have hq := WellFormed.lt_of_get? h
    rw [size_ofEdges] at hq
    rw [get?_ofEdges_of_lt hq] at h
    obtain ⟨e, he, rfl⟩ := Option.map_eq_some_iff.mp h
    exact htargets e (List.mem_of_find?_eq_some he)

/-- The trap is the first sink, or else the first number that is no state. -/
theorem toEntry_eq (a : Automaton) (token : String) : a.toEntry token =
    .ofAutomaton a token (a.deadStates.head?.getD a.size) a.deadStates.isEmpty := by
  rw [toEntry]
  split
  · rename_i hdead
    simp [hdead]
  · rename_i hdead
    simp [hdead]

theorem toAutomaton_toEntry (a : Automaton) (token : String) : (a.toEntry token).toAutomaton = a := by
  rw [toEntry_eq, Dfa.ofAutomaton]

theorem token_toEntry (a : Automaton) (token : String) : (a.toEntry token).token = token := by
  rw [toEntry_eq, Dfa.ofAutomaton]

theorem sinks_toEntry (a : Automaton) (token : String) :
    (a.toEntry token).sinks = a.deadStates := by
  rw [toEntry_eq, Dfa.ofAutomaton]

end Automaton

theorem Automaton.WellFormed.toEntry {a : Automaton} (ha : a.WellFormed) (token : String) :
    (a.toEntry token).WellFormed := by
  rw [toEntry_eq]
  refine ⟨ha, rfl, ?_⟩
  cases hdead : a.deadStates with
  | nil =>
    intro h
    have hout : ∀ c, a.get? a.size c = none := fun c => get?_of_size_le (Nat.le_refl _)
    have hmem := (live_iff_of_follow?_none hout).mp h
    exact Nat.lt_irrefl _ (ha.lt_of_mem_accepting hmem)
  | cons sink rest =>
    have hsink : sink ∈ a.deadStates := by simp [hdead]
    exact (ha.mem_deadStates.mp hsink).2

theorem Cursor.Holds.wellFormed {k k' : Cursor} {x : Entry} (h : k.Holds x k') :
    x.dfa.WellFormed := by
  cases h with
  | intro htoken halphabet hcount hstart haccepting hedges hmax =>
    apply Automaton.WellFormed.toEntry
    obtain ⟨symbols, _, halphabet⟩ := bind_eq_ok_iff.mp halphabet
    obtain ⟨block, new, _, _, _, hblock, _, hnew⟩ := edgeBlock_of_nextEdges hedges
    rw [List.append_nil] at hnew
    apply Automaton.wellFormed_ofEdges
    · rw [← Except.ok.inj halphabet]
      exact nodup_eraseDups _
    · exact (readOrdinal_eq_ok.mp hstart).2
    · rw [hnew]
      exact fun e he => hblock.label_mem e (List.mem_reverse.mp he)
    · rw [hnew]
      exact fun e he => (hblock.ends_lt e (List.mem_reverse.mp he)).2

/-- Every automaton of a table is that of an entry. -/
theorem Cursor.exists_holds_of_readEntries {k : Cursor} {table : Table}
    (h : k.readEntries = .ok table) : ∀ d ∈ table, ∃ k₁ x k₂, Holds k₁ x k₂ ∧ x.dfa = d := by
  induction table generalizing k with
  | nil => simp
  | cons d ds ih =>
    obtain ⟨_, hnil⟩ | ⟨_, d', k', ds', hentry, hrest, htable⟩ := readEntries_eq_ok.mp h
    · cases hnil
    · cases htable
      obtain ⟨x, hx, rfl⟩ := readEntry_eq_ok.mp hentry
      rw [List.forall_mem_cons]
      exact ⟨⟨k, x, k', hx, rfl⟩, ih hrest⟩

/-- Every automaton of a table that can be read is well-formed. -/
theorem Table.wellFormed_of_parse {text : String} {table : Table}
    (h : Table.parse text = .ok table) : ∀ d ∈ table, d.WellFormed := by
  intro d hd
  obtain ⟨_, _, _, hx, rfl⟩ := Cursor.exists_holds_of_readEntries h d hd
  exact hx.wellFormed

end LexGen
