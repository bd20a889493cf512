-- SUMMARY: The grammar of tables: which texts are read, and what automaton each of their entries describes.
import Mathlib
import LexGen.Proofs.Table.Reader
import LexGen.Proofs.Table.Spelling

/-! # The grammar of tables

The lines of a table fall into entries, each of them five header lines and a block of transitions up
to the next empty line or the end. The grammar speaks of lines and spellings only; it does not say in
which order anything is read or checked. A text is read exactly if its lines follow the grammar, and
then each entry describes its automaton completely. -/

namespace LexGen

/-! ## Entries -/

/-- The lines spell the entry: a token name, an alphabet, a number of states, a start state,
accepting states, and transitions in the order of `x.edges`. -/
inductive Entry.SpelledBy (x : Entry) : List (List Char) → Prop where
  | intro {token alphabet count start accepting symbols : List Char} {block : List (List Char)}
      (htoken : Text.Escape.Spells token x.token.toList)
      (halphabet : Text.Escape.Spells alphabet symbols) (hsymbols : symbols.eraseDups = x.alphabet)
      (hcount : NumberSpelling count x.count)
      (hstart : NumberSpelling start x.start) (hstart_lt : x.start < x.count)
      (haccepting : OrdinalsSpelling x.count accepting x.accepting)
      (hedges : List.Forall₂ (EdgeSpelling x.count) block x.edges)
      (hlabels : ∀ e ∈ x.edges, e.label ∈ x.alphabet)
      (hpairwise : x.edges.Pairwise fun e e' => e.source = e'.source → e.label ≠ e'.label)
      (hmax : x.count ≤ x.edges.length + 2) :
      x.SpelledBy (token :: alphabet :: count :: start :: accepting :: block)

/-- The automaton has the token name, alphabet, states, start state, accepting states and transitions
of the entry, and no others. Its sinks are the states from which no word leads to an accepting one,
and its trap is the first of them, or a state `S` outside if there is none. -/
structure Entry.Describes (x : Entry) (d : Dfa) : Prop where
  token : d.token = x.token
  alphabet : d.alphabet = x.alphabet
  size : d.size = x.count
  start : d.start = x.start
  accepting_increasing : d.accepting.Pairwise (· < ·)
  mem_accepting : ∀ q, q ∈ d.accepting ↔ q ∈ x.accepting
  get?_eq_some : ∀ p c q, d.get? p c = some q ↔ ⟨p, c, q⟩ ∈ x.edges
  /-- The transitions out of a state are kept in the order of the alphabet. -/
  row_eq : ∀ q, q < d.size →
    d.rows.getD q [] = d.alphabet.filterMap fun c => (d.get? q c).map (c, ·)
  sinks_increasing : d.sinks.Pairwise (· < ·)
  mem_sinks : ∀ q, q ∈ d.sinks ↔ q < d.size ∧ ¬ d.Live q
  trap_eq : d.trap = d.sinks.head?.getD d.size
  trapLabelled_eq : d.trapLabelled = d.sinks.isEmpty

/-! ## Transitions in any order -/

namespace Automaton

theorem find?_eq_some_iff {edges : List (Edge Nat Char)} {p q : Nat} {c : Char}
    (h : edges.Pairwise fun e e' => e.source = e'.source → e.label ≠ e'.label) :
    (edges.find? fun e => e.source == p && e.label == c).map (·.target) = some q ↔
      ⟨p, c, q⟩ ∈ edges := by
  induction edges with
  | nil => simp
  | cons e edges ih =>
    obtain ⟨hfirst, h⟩ := List.pairwise_cons.mp h
    by_cases hkey : e.source = p ∧ e.label = c
    · obtain ⟨rfl, rfl⟩ := hkey
      have hnot : ⟨e.source, e.label, q⟩ ∉ edges := fun hmem => hfirst _ hmem rfl rfl
      obtain ⟨source, label, target⟩ := e
      simp only [List.mem_cons, hnot, or_false]
      simp [eq_comm]
    · have hne : e ≠ ⟨p, c, q⟩ := by
        rintro rfl
        exact hkey ⟨rfl, rfl⟩
      have hfind : (e.source == p && e.label == c) = false := by simpa using hkey
      rw [List.find?_cons_of_neg (by simp [hfind]), ih h, List.mem_cons]
      simp [Ne.symm hne]

theorem get?_ofEdges {alphabet : List Char} {count start p q : Nat} {accepting : List Nat}
    {edges : List (Edge Nat Char)} {c : Char} (hsources : ∀ e ∈ edges, e.source < count)
    (hpairwise : edges.Pairwise fun e e' => e.source = e'.source → e.label ≠ e'.label) :
    (ofEdges alphabet count start accepting edges).get? p c = some q ↔ ⟨p, c, q⟩ ∈ edges := by
  constructor
  · intro h
    have hp := WellFormed.lt_of_get? h
    rw [size_ofEdges] at hp
    rw [get?_ofEdges_of_lt hp] at h
    exact (find?_eq_some_iff hpairwise).mp h
  · intro h
    rw [get?_ofEdges_of_lt (hsources _ h)]
    exact (find?_eq_some_iff hpairwise).mpr h

end Automaton

namespace Entry

variable {x : Entry} {d : Dfa}

/-- The parts of an entry fit together. -/
structure Consistent (x : Entry) : Prop where
  alphabet_nodup : x.alphabet.Nodup
  start_lt : x.start < x.count
  accepting_lt : ∀ q ∈ x.accepting, q < x.count
  label_mem : ∀ e ∈ x.edges, e.label ∈ x.alphabet
  ends_lt : ∀ e ∈ x.edges, e.source < x.count ∧ e.target < x.count
  pairwise : x.edges.Pairwise fun e e' => e.source = e'.source → e.label ≠ e'.label

namespace Consistent

/-- The order in which the transitions are listed does not matter. -/
theorem reverse (hx : x.Consistent) : { x with edges := x.edges.reverse : Entry }.Consistent := by
  refine ⟨hx.alphabet_nodup, hx.start_lt, hx.accepting_lt, ?_, ?_, ?_⟩
  · simpa using hx.label_mem
  · simpa using hx.ends_lt
  · rw [List.pairwise_reverse]
    exact hx.pairwise.imp fun h hsource => Ne.symm (h hsource.symm)

theorem wellFormed (hx : x.Consistent) :
    (Automaton.ofEdges x.alphabet x.count x.start x.accepting x.edges).WellFormed :=
  Automaton.wellFormed_ofEdges hx.alphabet_nodup hx.start_lt hx.label_mem
    fun e he => (hx.ends_lt e he).2

theorem get?_eq_some (hx : x.Consistent) {p q : Nat} {c : Char} :
    (Automaton.ofEdges x.alphabet x.count x.start x.accepting x.edges).get? p c = some q ↔
      ⟨p, c, q⟩ ∈ x.edges :=
  Automaton.get?_ofEdges (fun e he => (hx.ends_lt e he).1) hx.pairwise

theorem dfa_reverse (hx : x.Consistent) : { x with edges := x.edges.reverse : Entry }.dfa = x.dfa := by
  have hreverse := hx.reverse
  have hget : ∀ q c,
      (Automaton.ofEdges x.alphabet x.count x.start x.accepting x.edges.reverse).get? q c =
        (Automaton.ofEdges x.alphabet x.count x.start x.accepting x.edges).get? q c := by
    intro q c
    apply Option.ext
    intro p
    rw [hx.get?_eq_some, hreverse.get?_eq_some, List.mem_reverse]
  have hsame : Automaton.ofEdges x.alphabet x.count x.start x.accepting x.edges.reverse =
      Automaton.ofEdges x.alphabet x.count x.start x.accepting x.edges :=
    Automaton.ext_get? rfl (by rw [Automaton.size_ofEdges, Automaton.size_ofEdges]) rfl rfl hget
      hreverse.wellFormed.row_eq hx.wellFormed.row_eq
  rw [dfa, dfa, hsame]

theorem describes_dfa (hx : x.Consistent) : x.Describes x.dfa := by
  have ha := hx.wellFormed
  rw [dfa, Automaton.toEntry_eq]
  constructor
  case token => rfl
  case alphabet => rfl
  case size => exact Automaton.size_ofEdges
  case start => rfl
  case accepting_increasing => exact List.pairwise_lt_range.filter _
  case mem_accepting =>
    intro q
    have hmem : q ∈ (Automaton.ofEdges x.alphabet x.count x.start x.accepting x.edges).accepting ↔
        q < x.count ∧ q ∈ x.accepting := by simp [Automaton.ofEdges]
    exact hmem.trans (and_iff_right_of_imp (hx.accepting_lt q))
  case get?_eq_some => exact fun p c q => hx.get?_eq_some
  case row_eq => exact ha.row_eq
  case sinks_increasing => exact List.pairwise_lt_range.filter _
  case mem_sinks => exact fun q => ha.mem_deadStates
  case trap_eq => rfl
  case trapLabelled_eq => rfl

end Consistent

/-- An entry describes no more than one automaton. -/
theorem Describes.unique {d' : Dfa} (h : x.Describes d) (h' : x.Describes d') : d = d' := by
  have haccepting : d.accepting = d'.accepting :=
    h.accepting_increasing.eq_of_mem_iff h'.accepting_increasing fun q => by
      rw [h.mem_accepting, h'.mem_accepting]
  have hget : ∀ q c, d.get? q c = d'.get? q c := by
    intro q c
    apply Option.ext
    intro p
    rw [h.get?_eq_some, h'.get?_eq_some]
  have hautomaton : d.toAutomaton = d'.toAutomaton :=
    Automaton.ext_get? (h.alphabet.trans h'.alphabet.symm) (h.size.trans h'.size.symm)
      (h.start.trans h'.start.symm) haccepting hget h.row_eq h'.row_eq
  have hsinks : d.sinks = d'.sinks :=
    h.sinks_increasing.eq_of_mem_iff h'.sinks_increasing fun q => by
      rw [h.mem_sinks, h'.mem_sinks, hautomaton]
  have htrap : d.trap = d'.trap := by rw [h.trap_eq, h'.trap_eq, hsinks, hautomaton]
  have hlabelled : d.trapLabelled = d'.trapLabelled := by
    rw [h.trapLabelled_eq, h'.trapLabelled_eq, hsinks]
  have htoken : d.token = d'.token := h.token.trans h'.token.symm
  obtain ⟨automaton, token, sinks, trap, trapLabelled⟩ := d
  obtain ⟨automaton', token', sinks', trap', trapLabelled'⟩ := d'
  subst hautomaton hsinks htrap hlabelled htoken
  rfl

/-! ## Reading an entry -/

variable {lines : List (List Char)}

theorem SpelledBy.edgeBlock {count : Nat} {block : List (List Char)} {edges : List (Edge Nat Char)}
    {alphabet : List Char} (hedges : List.Forall₂ (EdgeSpelling count) block edges)
    (hlabels : ∀ e ∈ edges, e.label ∈ alphabet)
    (hpairwise : edges.Pairwise fun e e' => e.source = e'.source → e.label ≠ e'.label) :
    EdgeBlock alphabet count block edges :=
  ⟨hedges.imp fun _ _ h => readEdge_iff.mpr h, hlabels, hpairwise⟩

theorem SpelledBy.consistent (hx : x.SpelledBy lines) : x.Consistent := by
  obtain ⟨_, _, hsymbols, _, _, hstart_lt, haccepting, hedges, hlabels, hpairwise, _⟩ := hx
  refine ⟨?_, hstart_lt, fun q hq => ?_, hlabels, (edgeBlock hedges hlabels hpairwise).ends_lt,
    hpairwise⟩
  · rw [← hsymbols]
    exact nodup_eraseDups _
  · have hlt : ∀ {words : List (List Char)} {ordinals : List Nat},
        List.Forall₂ (fun word n => Text.Numeral.Spells word n ∧ n < x.count) words ordinals →
          ∀ n ∈ ordinals, n < x.count := by
      intro words ordinals h
      induction h with
      | nil => simp
      | cons h _ ih => exact List.forall_mem_cons.mpr ⟨h.2, ih⟩
    exact hlt haccepting q hq

/-- The transitions are collected last to first. -/
theorem SpelledBy.holds (hx : x.SpelledBy lines) {rest : List (List Char)}
    (hrest : ∀ line ∈ rest.head?, line = []) (number : Nat) :
    Cursor.Holds ⟨lines ++ rest, number⟩ { x with edges := x.edges.reverse }
      ⟨rest, number + lines.length⟩ := by
  cases hx with
  | @intro token alphabet count start accepting symbols block htoken halphabet hsymbols hcount hstart
      hstart_lt haccepting hedges hlabels hpairwise hmax =>
    have hblock := edgeBlock hedges hlabels hpairwise
    have hread : Cursor.nextEdges x.alphabet x.count [] (number + 5) (block ++ rest) =
        .ok (x.edges.reverse ++ [], ⟨rest, number + 5 + block.length⟩) :=
      Cursor.nextEdges_append hblock hrest (by simp)
    refine .intro (readToken_eq_ok.mpr htoken) (readAlphabet_eq_ok.mpr ⟨_, halphabet, hsymbols⟩)
      (readNumber_eq_ok.mpr hcount)
      (readOrdinal_eq_ok.mpr ⟨readNumber_eq_ok.mpr hstart, hstart_lt⟩)
      (readOrdinals_eq_ok.mpr haccepting) ?_ (by simpa using hmax)
    rw [List.append_nil] at hread
    refine hread.trans ?_
    simp [Nat.add_assoc, Nat.add_comm 5]

theorem exists_spelledBy_of_holds {k k' : Cursor} {y : Entry} (h : k.Holds y k') :
    ∃ x lines, SpelledBy x lines ∧ k.lines = lines ++ k'.lines ∧
      (∀ line ∈ k'.lines.head?, line = []) ∧ y = { x with edges := x.edges.reverse } := by
  obtain ⟨htoken, halphabet, hcount, hstart, haccepting, hedges, hmax⟩ := h
  obtain ⟨symbols, halphabet, hsymbols⟩ := readAlphabet_eq_ok.mp halphabet
  obtain ⟨hstart, hstart_lt⟩ := readOrdinal_eq_ok.mp hstart
  obtain ⟨block, new, rfl, hrest, _, hblock, _, hnew⟩ := Cursor.edgeBlock_of_nextEdges hedges
  rw [List.append_nil] at hnew
  refine ⟨{ y with edges := new }, _, .intro (readToken_eq_ok.mp htoken) halphabet hsymbols
    (readNumber_eq_ok.mp hcount) (readNumber_eq_ok.mp hstart) hstart_lt
    (readOrdinals_eq_ok.mp haccepting) (hblock.read.imp fun _ _ h => readEdge_iff.mp h)
    hblock.label_mem hblock.pairwise ?_, rfl, hrest, ?_⟩
  · rw [hnew, List.length_reverse] at hmax
    exact hmax
  · rw [← hnew]

end Entry

/-! ## Tables -/

/-- The lines spell the entries of a table, with an empty line behind each but the last, where it may
stand or not. Nothing but blank lines may follow. -/
inductive Table.Spells : List (List Char) → List Entry → Prop where
  | blank {lines : List (List Char)} (h : ∀ line ∈ lines, ∀ c ∈ line, Text.isBlank c = true) :
      Spells lines []
  | last {lines : List (List Char)} {x : Entry} (hx : x.SpelledBy lines) : Spells lines [x]
  | more {lines rest : List (List Char)} {x : Entry} {xs : List Entry} (hx : x.SpelledBy lines)
      (hrest : Spells rest xs) : Spells (lines ++ [] :: rest) (x :: xs)

namespace Cursor

/-- An entry is not blank, since it has a count. -/
theorem onlyBlanks_of_spelledBy {x : Entry} {lines rest : List (List Char)} {number : Nat}
    (hx : x.SpelledBy lines) : onlyBlanks ⟨lines ++ rest, number⟩ = false := by
  obtain ⟨_, _, _, hcount, _⟩ := hx
  obtain ⟨c, hc, hblank⟩ := hcount.exists_not_isBlank
  exact onlyBlanks_eq_false.mpr ⟨_, by simp, c, hc, hblank⟩

theorem spells_of_readEntries {table : Table} {k : Cursor} (h : k.readEntries = .ok table) :
    ∃ xs, Table.Spells k.lines xs ∧ List.Forall₂ Entry.Describes xs table := by
  induction table generalizing k with
  | nil =>
    obtain ⟨hblank, _⟩ | ⟨_, d, _, ds, _, _, htable⟩ := readEntries_eq_ok.mp h
    · exact ⟨[], .blank (onlyBlanks_iff.mp hblank), .nil⟩
    · cases htable
  | cons d ds ih =>
    obtain ⟨_, htable⟩ | ⟨_, d', k', ds', hentry, hrest, htable⟩ := readEntries_eq_ok.mp h
    · cases htable
    · cases htable
      obtain ⟨y, hy, rfl⟩ := readEntry_eq_ok.mp hentry
      obtain ⟨x, lines, hx, hlines, hhead, rfl⟩ := Entry.exists_spelledBy_of_holds hy
      have hdescribes : x.Describes { x with edges := x.edges.reverse : Entry }.dfa := by
        rw [hx.consistent.dfa_reverse]
        exact hx.consistent.describes_dfa
      obtain ⟨xs, hspells, hds⟩ := ih hrest
      rw [hlines]
      obtain ⟨rest, number⟩ := k'
      cases rest with
      | nil =>
        obtain ⟨_, rfl⟩ | ⟨hblank, _⟩ := readEntries_eq_ok.mp hrest
        · rw [List.append_nil]
          exact ⟨[x], .last hx, .cons hdescribes .nil⟩
        · cases hblank
      | cons line rest =>
        obtain rfl := hhead line rfl
        exact ⟨x :: xs, .more hx hspells, .cons hdescribes hds⟩

theorem readEntry_of_spelledBy {x : Entry} {d : Dfa} {lines rest : List (List Char)}
    (hx : x.SpelledBy lines) (hd : x.Describes d) (hrest : ∀ line ∈ rest.head?, line = [])
    (number : Nat) :
    readEntry ⟨lines ++ rest, number⟩ = .ok (d, ⟨rest, number + lines.length⟩) := by
  have hdfa : { x with edges := x.edges.reverse : Entry }.dfa = d := by
    rw [hx.consistent.dfa_reverse]
    exact hx.consistent.describes_dfa.unique hd
  exact readEntry_eq_ok.mpr ⟨_, hx.holds hrest number, hdfa⟩

/-- Behind an entry and an empty line, the rest is read as a table. -/
theorem readEntries_spelledBy_append {x : Entry} {lines : List (List Char)} (hx : x.SpelledBy lines)
    (rest : List (List Char)) (number : Nat) :
    readEntries ⟨lines ++ [] :: rest, number⟩ =
      (readEntries ⟨rest, number + lines.length + 1⟩).map (x.dfa :: ·) := by
  rw [readEntries_eq, onlyBlanks_of_spelledBy hx, if_neg Bool.false_ne_true,
    readEntry_of_spelledBy hx hx.consistent.describes_dfa (by simp), ok_bind]
  rfl

theorem readEntries_of_spells {xs : List Entry} {lines : List (List Char)} {table : Table}
    (h : Table.Spells lines xs) (hdescribes : List.Forall₂ Entry.Describes xs table) (number : Nat) :
    readEntries ⟨lines, number⟩ = .ok table := by
  induction h generalizing table number with
  | blank h =>
    cases hdescribes
    exact readEntries_eq_ok.mpr (.inl ⟨onlyBlanks_iff.mpr h, rfl⟩)
  | @last lines x hx =>
    obtain ⟨d, _, hd, hnil, rfl⟩ := List.forall₂_cons_left_iff.mp hdescribes
    obtain rfl := List.forall₂_nil_left_iff.mp hnil
    have hentry : readEntry ⟨lines ++ [], number⟩ = .ok (d, ⟨[], number + lines.length⟩) :=
      readEntry_of_spelledBy hx hd (by simp) number
    have hblank : onlyBlanks ⟨lines ++ [], number⟩ = false := onlyBlanks_of_spelledBy hx
    rw [List.append_nil] at hentry hblank
    refine readEntries_eq_ok.mpr (.inr ⟨hblank, d, _, [], hentry, ?_, rfl⟩)
    exact readEntries_eq_ok.mpr (.inl ⟨rfl, rfl⟩)
  | @more lines rest x xs hx _ ih =>
    obtain ⟨d, ds, hd, hds, rfl⟩ := List.forall₂_cons_left_iff.mp hdescribes
    obtain rfl := hd.unique hx.consistent.describes_dfa
    rw [readEntries_spelledBy_append hx, ih hds]
    rfl

end Cursor

namespace Table

theorem exists_describes {lines : List (List Char)} {xs : List Entry} (h : Spells lines xs) :
    ∃ table, List.Forall₂ Entry.Describes xs table := by
  induction h with
  | blank _ => exact ⟨[], .nil⟩
  | last hx => exact ⟨[_], .cons hx.consistent.describes_dfa .nil⟩
  | more hx _ ih =>
    obtain ⟨table, htable⟩ := ih
    exact ⟨_ :: table, .cons hx.consistent.describes_dfa htable⟩

/-- A text is read exactly if its lines follow the grammar of tables, and what is read are the
automata that its entries describe, in their order. -/
theorem parse_iff_spells (text : String) :
    ((∃ table, parse text = .ok table) ↔ ∃ xs, Spells (Text.lines text.toList) xs) ∧
      ∀ table, parse text = .ok table ↔
        ∃ xs, Spells (Text.lines text.toList) xs ∧ List.Forall₂ Entry.Describes xs table := by
  refine ⟨⟨fun ⟨table, h⟩ => ?_, fun ⟨xs, h⟩ => ?_⟩, fun table => ⟨fun h => ?_, fun ⟨xs, h, hxs⟩ => ?_⟩⟩
  · obtain ⟨xs, hxs, _⟩ := Cursor.spells_of_readEntries h
    exact ⟨xs, hxs⟩
  · obtain ⟨table, htable⟩ := exists_describes h
    exact ⟨table, Cursor.readEntries_of_spells h htable 1⟩
  · exact Cursor.spells_of_readEntries h
  · exact Cursor.readEntries_of_spells h hxs 1

end Table

end LexGen
