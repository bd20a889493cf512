-- SUMMARY: What a command changes in a session, and what every session preserves of its automata and lexers.
import LexGen.Proofs.Lexer.Longest
import LexGen.Proofs.Results
import LexGen.Session

/-! # What a session preserves

A command changes one part of a session: the table, the current automaton, the configuration or the
lexers. What it puts there is made from what the session holds, from an expression or from a text. So
whatever the commands are, every automaton of a session is one that a program can come by, and every
lexer stands somewhere in its input, over such automata. An open lexer goes on over the table it was
opened with. -/

namespace LexGen.Session

variable {s s' : Session} {c : Command} {answer : Answer} {l : Lexer}

/-! ## Changes -/

/-- Whether a command only shows something. -/
def Command.shows : Command → Bool
  | .write | .query .. | .accept _ | .longest _ | .dump | .rest => true
  | _ => false

/-- What a command can make of a session. -/
inductive Change (s : Session) : Command → Session → Prop where
  | shown {c : Command} (hc : c.shows = true) : Change s c s
  | compiled (e : Expr) (token : String) :
      Change s (.compile e token) { s with current := some (e.toNfa.toDfa.withToken token) }
  | renamed {d : Dfa} (hd : s.current = some d) (name : String) :
      Change s (.token name) { s with current := some (d.withToken name) }
  | reclassified {d : Dfa} (hd : s.current = some d) :
      Change s .sinks { s with current := some d.withSinks }
  | selected {d : Dfa} {index : Nat} (hd : s.table[index]? = some d) :
      Change s (.select index) { s with current := some d }
  | pushed {d : Dfa} (hd : s.current = some d) : Change s .push { s with table := s.table ++ [d] }
  | read {text : String} {table : Table} (h : Table.parse text = .ok table) :
      Change s (.read text) { s with table }
  | reloaded {table : Table} (h : Table.parse s.table.render = .ok table) :
      Change s .reload { s with table }
  | reversed : Change s .reverse { s with table := s.table.reverse }
  | begun {d : Dfa} (hd : s.current = some d) (word : List Char) (state : Option State) :
      Change s (.begin word state)
        { s with configuration := some (state.getD (d.stateAt d.start), word) }
  | stepped {d : Dfa} {state : State} {rest : List Char} (hd : s.current = some d)
      (hconfiguration : s.configuration = some (state, rest)) :
      Change s .step { s with configuration := some (d.stepNamed state rest) }
  | opened (input : List Char) :
      Change s (.lexer input) { s with lexer := some (.new s.table input) }
  | advanced {l : Lexer} (hl : s.lexer = some l) : Change s .next { s with lexer := some l.next.2 }
  | forked {l : Lexer} (hl : s.lexer = some l) : Change s .fork { s with saved := some l }
  | swapped : Change s .swap { s with lexer := s.saved, saved := s.lexer }

theorem dfa_eq_ok {d : Dfa} : s.dfa = .ok d ↔ s.current = some d := by
  rw [dfa]
  cases s.current <;> simp

theorem openLexer_eq_ok : s.openLexer = .ok l ↔ s.lexer = some l := by
  rw [openLexer]
  cases s.lexer <;> simp

theorem exists_table_of_load {text : String} (h : s.load text = .ok (answer, s')) :
    ∃ table, Table.parse text = .ok table ∧ s' = { s with table } := by
  unfold load at h
  split at h
  · rename_i table hparse
    cases h
    exact ⟨table, hparse, rfl⟩
  · cases h

theorem change_of_run (h : s.run c = .ok (answer, s')) : s.Change c s' := by
  cases c with
  | compile e token =>
    cases h
    exact .compiled e token
  | token name =>
    obtain ⟨d, hd, h⟩ := bind_eq_ok_iff.mp h
    cases h
    exact .renamed (dfa_eq_ok.mp hd) name
  | push =>
    obtain ⟨d, hd, h⟩ := bind_eq_ok_iff.mp h
    cases h
    exact .pushed (dfa_eq_ok.mp hd)
  | select index =>
    simp only [run] at h
    split at h
    · rename_i hindex
      cases h
      exact .selected hindex
    · cases h
  | read text =>
    obtain ⟨table, hparse, rfl⟩ := exists_table_of_load h
    exact .read hparse
  | reload =>
    obtain ⟨table, hparse, rfl⟩ := exists_table_of_load h
    exact .reloaded hparse
  | reverse =>
    cases h
    exact .reversed
  | begin word state =>
    obtain ⟨d, hd, h⟩ := bind_eq_ok_iff.mp h
    cases h
    exact .begun (dfa_eq_ok.mp hd) word state
  | step =>
    obtain ⟨d, hd, h⟩ := bind_eq_ok_iff.mp h
    split at h
    · cases h
    · rename_i hconfiguration
      cases h
      exact .stepped (dfa_eq_ok.mp hd) hconfiguration
  | sinks =>
    obtain ⟨d, hd, h⟩ := bind_eq_ok_iff.mp h
    cases h
    exact .reclassified (dfa_eq_ok.mp hd)
  | lexer input =>
    cases h
    exact .opened input
  | next =>
    obtain ⟨l, hl, h⟩ := bind_eq_ok_iff.mp h
    cases h
    exact .advanced (openLexer_eq_ok.mp hl)
  | fork =>
    obtain ⟨l, hl, h⟩ := bind_eq_ok_iff.mp h
    cases h
    exact .forked (openLexer_eq_ok.mp hl)
  | swap =>
    cases h
    exact .swapped
  | write =>
    cases h
    exact .shown rfl
  | query _ _ | accept _ | longest _ | dump | rest =>
    obtain ⟨_, _, h⟩ := bind_eq_ok_iff.mp h
    cases h
    exact .shown rfl

/-- The other parts stay as they are: a new current automaton leaves the configuration alone, and a
new table leaves the lexers alone. -/
theorem Change.one_part (h : s.Change c s') :
    (∃ table, s' = { s with table }) ∨ (∃ current, s' = { s with current }) ∨
      (∃ configuration, s' = { s with configuration }) ∨
        ∃ lexer saved, s' = { s with lexer, saved } := by
  cases h with
  | shown _ | pushed _ | read _ | reloaded _ | reversed => exact .inl ⟨_, rfl⟩
  | compiled _ _ | renamed _ _ | reclassified _ | selected _ => exact .inr (.inl ⟨_, rfl⟩)
  | begun _ _ _ | stepped _ _ => exact .inr (.inr (.inl ⟨_, rfl⟩))
  | opened _ | advanced _ | forked _ | swapped => exact .inr (.inr (.inr ⟨_, _, rfl⟩))

/-! ## Automata and lexers -/

/-- The lexer was opened on some input over automata that a program can come by, and calls have led it
to where it is. -/
def Lexing (l : Lexer) : Prop :=
  ∃ dfas input, (∀ d ∈ dfas, d.Public) ∧ Lexer.Reachable dfas input l

/-- All that a session holds was made by the operations on automata and lexers. -/
structure Sound (s : Session) : Prop where
  table : ∀ d ∈ s.table, d.Public
  current : ∀ d, s.current = some d → d.Public
  lexer : ∀ l, s.lexer = some l → Lexing l
  saved : ∀ l, s.saved = some l → Lexing l

theorem sound_empty : Sound {} :=
  ⟨by simp, by simp, by simp, by simp⟩

namespace Sound

theorem with_table {table : Table} (h : s.Sound) (htable : ∀ d ∈ table, d.Public) :
    Sound { s with table } :=
  ⟨htable, h.current, h.lexer, h.saved⟩

theorem with_current {d : Dfa} (h : s.Sound) (hd : d.Public) : Sound { s with current := some d } :=
  ⟨h.table, fun _ heq => Option.some.inj heq ▸ hd, h.lexer, h.saved⟩

theorem with_lexer {l : Lexer} (h : s.Sound) (hl : Lexing l) : Sound { s with lexer := some l } :=
  ⟨h.table, h.current, fun _ heq => Option.some.inj heq ▸ hl, h.saved⟩

theorem with_saved {l : Lexer} (h : s.Sound) (hl : Lexing l) : Sound { s with saved := some l } :=
  ⟨h.table, h.current, h.lexer, fun _ heq => Option.some.inj heq ▸ hl⟩

theorem change (h : s.Sound) (hchange : s.Change c s') : s'.Sound := by
  cases hchange with
  | shown _ => exact h
  | compiled e token => exact h.with_current (.renamed (.compiled e) token)
  | renamed hd name => exact h.with_current (.renamed (h.current _ hd) name)
  | reclassified hd => exact h.with_current (.reclassified (h.current _ hd))
  | selected hd => exact h.with_current (h.table _ (List.mem_of_getElem? hd))
  | pushed hd =>
    refine h.with_table (List.forall_mem_append.mpr ⟨h.table, ?_⟩)
    exact List.forall_mem_singleton.mpr (h.current _ hd)
  | read hparse | reloaded hparse => exact h.with_table fun d hd => .read hparse hd
  | reversed => exact h.with_table fun d hd => h.table d (List.mem_reverse.mp hd)
  | begun _ _ _ | stepped _ _ => exact ⟨h.table, h.current, h.lexer, h.saved⟩
  | opened input => exact h.with_lexer ⟨s.table, input, h.table, .new⟩
  | advanced hl =>
    obtain ⟨dfas, input, hdfas, hreachable⟩ := h.lexer _ hl
    exact h.with_lexer ⟨dfas, input, hdfas, hreachable.next⟩
  | forked hl => exact h.with_saved (h.lexer _ hl)
  | swapped => exact ⟨h.table, h.current, h.saved, h.lexer⟩

end Sound

/-! ## Whole sessions -/

/-- The session behind a command. A command that fails leaves it as it was. -/
def after (s : Session) (c : Command) : Session :=
  match s.run c with
  | .ok (_, s') => s'
  | .error _ => s

theorem Sound.after (h : s.Sound) (c : Command) : (s.after c).Sound := by
  unfold Session.after
  split
  · rename_i hrun
    exact h.change (change_of_run hrun)
  · exact h

theorem Sound.foldl_after (h : s.Sound) (cs : List Command) : (cs.foldl Session.after s).Sound := by
  induction cs generalizing s with
  | nil => exact h
  | cons c cs ih => exact ih (h.after c)

/-- Whatever the commands are, a session holds only what the operations on automata and lexers can
make. -/
theorem sound_commands (cs : List Command) : (cs.foldl after {}).Sound :=
  sound_empty.foldl_after cs

/-! ## An open lexer -/

/-- Whether a command is a call of the lexer. -/
def Command.isNext : Command → Bool
  | .next => true
  | _ => false

/-- Whether a command leaves the lexer open, so that only calls change it. -/
def Command.keepsLexer : Command → Bool
  | .lexer _ | .swap => false
  | _ => true

theorem run_next (hl : s.lexer = some l) :
    s.run .next = .ok (.item l.next.1 l.next.2, { s with lexer := some l.next.2 }) := by
  rw [run, openLexer_eq_ok.mpr hl]
  rfl

theorem Change.lexer_eq (h : s.Change c s') (hl : s.lexer = some l) (hc : c.keepsLexer = true) :
    s'.lexer = some (if c.isNext then l.next.2 else l) := by
  cases h with
  | opened _ => cases hc
  | swapped => cases hc
  | advanced hl' =>
    rw [hl] at hl'
    cases hl'
    rfl
  | @shown c hshows =>
    have hnext : c.isNext = false := by cases c <;> first | rfl | cases hshows
    rw [hl, hnext]
    rfl
  | _ => exact hl

theorem lexer_after (hl : s.lexer = some l) (hc : c.keepsLexer = true) :
    (s.after c).lexer = some (if c.isNext then l.next.2 else l) := by
  unfold after
  split
  · rename_i hrun
    exact (change_of_run hrun).lexer_eq hl hc
  · rename_i herror
    have hnext : c.isNext = false := by
      cases c with
      | next =>
        rw [run_next hl] at herror
        cases herror
      | _ => rfl
    rw [hl, hnext]
    rfl

theorem lexer_foldl_after {cs : List Command} (hl : s.lexer = some l)
    (hcs : ∀ c ∈ cs, c.keepsLexer = true) :
    (cs.foldl after s).lexer = some (l.after (cs.countP (·.isNext))) := by
  induction cs generalizing s l with
  | nil => exact hl
  | cons c cs ih =>
    obtain ⟨hc, hcs⟩ := List.forall_mem_cons.mp hcs
    rw [List.foldl_cons, ih (lexer_after hl hc) hcs]
    cases hnext : c.isNext with
    | true => rw [List.countP_cons_of_pos hnext, Lexer.after, if_pos rfl]
    | false => rw [List.countP_cons_of_neg (by simp [hnext]), if_neg Bool.false_ne_true]

/-- A lexer answers the lexemes of its input over the table it was opened with, in order, then the
failure if there is one, and then nothing, whatever is done to the table and the current automaton
between the calls. -/
theorem next_answers (s : Session) (input : List Char) {cs : List Command}
    (hcs : ∀ c ∈ cs, c.keepsLexer = true) :
    ∃ behind s', (cs.foldl after (s.after (.lexer input))).run .next =
      .ok (.item (((Lexer.new s.table input).lexemes.1.map .ok ++
        (Lexer.new s.table input).lexemes.2.toList.map .error)[cs.countP (·.isNext)]?) behind, s') := by
  have hopen : (s.after (.lexer input)).lexer = some (.new s.table input) := rfl
  rw [run_next (lexer_foldl_after hopen hcs), (Lexer.new s.table input).run_lexemes.answers]
  exact ⟨_, _, rfl⟩

end LexGen.Session
