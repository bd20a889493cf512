-- SUMMARY: The order of the automata decides nothing but the token names of texts that several of them accept.
import Mathlib
import LexGen.Proofs.Lexer.Longest

/-! # The order of the automata

The length of the next lexeme is that of the longest beginning that any automaton accepts, so it is the
same in every order of them. Two lexers over the same automata in different orders therefore stay at the
same position, call after call. Which automaton names the lexeme depends on the order only if several
of them accept its text. -/

namespace LexGen

/-- In every order the first member with a property is the same if it is the only one. -/
theorem find?_eq_of_perm {α : Type} {p : α → Bool} {as bs : List α} (h : as.Perm bs)
    (hone : as.countP p ≤ 1) : as.find? p = bs.find? p := by
  have hfilter : (as.filter p).Perm (bs.filter p) := h.filter p
  rw [List.countP_eq_length_filter] at hone
  rw [← List.head?_filter, ← List.head?_filter]
  generalize as.filter p = found at hfilter hone
  match found, hone with
  | [], _ => rw [List.nil_perm.mp hfilter]
  | [a], _ => rw [List.singleton_perm.mp hfilter]

theorem Table.accepts_perm {ds ds' : Table} (h : ds.Perm ds') : ds.Accepts = ds'.Accepts := by
  funext u
  exact propext (exists_congr fun d => and_congr_left fun _ => h.mem_iff)

namespace Lexer

variable {ds ds' : Table}

/-! ## One call -/

/-- In every order the same beginning is chosen, under the same automaton if only one accepts it. -/
theorem longest?_perm (hds : ∀ d ∈ ds, d.WellFormed) (h : ds.Perm ds') (text : List Char) :
    (longest? text ds = none ∧ longest? text ds' = none) ∨
      ∃ d d' best, longest? text ds = some (d, best) ∧ longest? text ds' = some (d', best) ∧
        (ds.countP (·.accept best) ≤ 1 → d = d') := by
  have hds' : ∀ d ∈ ds', d.WellFormed := fun d hd => hds d (h.mem_iff.mpr hd)
  obtain ⟨n, hn, hcases⟩ := longest?_cases hds text
  obtain ⟨n', hn', hcases'⟩ := longest?_cases hds' text
  rw [← Table.accepts_perm h] at hn'
  -- The greatest length is the same, so only the automaton that is found first can be another one.
  obtain rfl := hn.unique hn'
  rcases hcases with ⟨hn0, hnone⟩ | ⟨hn0, d, hfind, hsome⟩
  · rcases hcases' with ⟨_, hnone'⟩ | ⟨hn0', _⟩
    · exact .inl ⟨hnone, hnone'⟩
    · exact absurd hn0 hn0'
  · rcases hcases' with ⟨hn0', _⟩ | ⟨_, d', hfind', hsome'⟩
    · exact absurd hn0' hn0
    · refine .inr ⟨d, d', _, hsome, hsome', fun hone => ?_⟩
      rw [find?_eq_of_perm h hone, hfind'] at hfind
      exact (Option.some.inj hfind).symm

/-- Two lexemes of the same text at the same place. Their token names are the same unless several
automata of the table accept the text. -/
structure SamePart (ds : Table) (x x' : Lexeme) : Prop where
  text_eq : x.text = x'.text
  start_eq : x.start = x'.start
  stop_eq : x.stop = x'.stop
  several : x.token ≠ x'.token → 2 ≤ ds.countP (·.accept x.text)

/-- Two answers of the same kind: both none, the same failure, or lexemes of the same part. -/
inductive SameAnswer (ds : Table) :
    Option (Except NoMatch Lexeme) → Option (Except NoMatch Lexeme) → Prop where
  | none : SameAnswer ds none none
  | failure (e : NoMatch) : SameAnswer ds (some (.error e)) (some (.error e))
  | lexeme {x x' : Lexeme} (h : SamePart ds x x') :
      SameAnswer ds (some (.ok x)) (some (.ok x'))

/-- Two lexers at the same position of the same input, over the same automata in some order. -/
structure Abreast (ds : Table) (l l' : Lexer) : Prop where
  dfas_eq : l.dfas = ds
  perm : ds.Perm l'.dfas
  rest_eq : l.rest = l'.rest
  position_eq : l.position = l'.position
  failed_eq : l.failed = l'.failed

variable {l l' : Lexer} {xs xs' : List Lexeme} {failure failure' : Option NoMatch}

theorem Abreast.next (h : Abreast ds l l') (hds : ∀ d ∈ ds, d.WellFormed) :
    SameAnswer ds l.next.1 l'.next.1 ∧ Abreast ds l.next.2 l'.next.2 := by
  rw [Lexer.next, Lexer.next, h.dfas_eq, ← h.rest_eq, ← h.position_eq, ← h.failed_eq]
  split
  · exact ⟨.none, h⟩
  · rcases longest?_perm hds h.perm l.rest with
      ⟨hnone, hnone'⟩ | ⟨d, d', best, hsome, hsome', hone⟩
    · rw [hnone, hnone']
      exact ⟨.failure _, rfl, h.perm, rfl, rfl, rfl⟩
    · rw [hsome, hsome']
      refine ⟨.lexeme ⟨rfl, rfl, rfl, fun htoken => ?_⟩, rfl, h.perm, rfl, rfl, rfl⟩
      by_contra hfew
      exact htoken (congrArg Dfa.token (hone (Nat.le_of_lt_succ (Nat.lt_of_not_le hfew))))

/-! ## Whole runs -/

theorem Run.abreast (hrun : Run l xs failure) (hrun' : Run l' xs' failure') (h : Abreast ds l l')
    (hds : ∀ d ∈ ds, d.WellFormed) :
    failure = failure' ∧ List.Forall₂ (SamePart ds) xs xs' := by
  -- The other run goes on in the same way, since its next answer is of the same kind.
  induction hrun generalizing l' xs' failure' with
  | ended hnext =>
    obtain ⟨hanswer, _⟩ := h.next hds
    cases hrun' with
    | ended _ => exact ⟨rfl, .nil⟩
    | stuck hnext' | lexeme hnext' _ =>
      rw [hnext, hnext'] at hanswer
      cases hanswer
  | stuck hnext =>
    obtain ⟨hanswer, _⟩ := h.next hds
    cases hrun' with
    | stuck hnext' =>
      rw [hnext, hnext'] at hanswer
      cases hanswer
      exact ⟨rfl, .nil⟩
    | ended hnext' | lexeme hnext' _ =>
      rw [hnext, hnext'] at hanswer
      cases hanswer
  | lexeme hnext _ ih =>
    obtain ⟨hanswer, hbehind⟩ := h.next hds
    cases hrun' with
    | lexeme hnext' hrun' =>
      rw [hnext, hnext'] at hanswer hbehind
      cases hanswer with
      | lexeme hpart =>
        obtain ⟨hfailure, hparts⟩ := ih hrun' hbehind
        exact ⟨hfailure, .cons hpart hparts⟩
    | ended hnext' | stuck hnext' =>
      rw [hnext, hnext'] at hanswer
      cases hanswer

/-- Another order of the automata changes neither the texts and positions of the lexemes nor the
failure, and changes a token name only where several automata accept the text. -/
theorem lexemes_perm (hds : ∀ d ∈ ds, d.Public) (h : ds.Perm ds') (input : List Char) :
    (new ds input).lexemes.2 = (new ds' input).lexemes.2 ∧
      List.Forall₂ (SamePart ds) (new ds input).lexemes.1 (new ds' input).lexemes.1 := by
  have habreast : Abreast ds (new ds input) (new ds' input) := ⟨rfl, h, rfl, rfl, rfl⟩
  exact (run_lexemes _).abreast (run_lexemes _) habreast fun d hd => (hds d hd).wellFormed

/-- A keyword and an identifier over `éif!`: `if` changes its name with the order of the two, and lexing
fails behind it in both orders. -/
theorem lexemes_perm_keyword :
    ∃ ds ds' : Table, (∀ d ∈ ds, d.Public) ∧ ds.Perm ds' ∧
      (new ds "éif!".toList).lexemes.1.map (·.token) = ["ID", "KW"] ∧
      (new ds' "éif!".toList).lexemes.1.map (·.token) = ["ID", "ID"] ∧
      (new ds' "éif!".toList).lexemes.2 = some ⟨4⟩ ∧
      List.Forall₂ (SamePart ds) (new ds "éif!".toList).lexemes.1
        (new ds' "éif!".toList).lexemes.1 := by
  obtain ⟨kw, id, hkw, hid, hnames, hnames', hstuck⟩ : ∃ kw id : Dfa, kw.Public ∧ id.Public ∧
      (new [kw, id] "éif!".toList).lexemes.1.map (·.token) = ["ID", "KW"] ∧
      (new [id, kw] "éif!".toList).lexemes.1.map (·.token) = ["ID", "ID"] ∧
      (new [kw, id] "éif!".toList).lexemes.2 = some ⟨4⟩ :=
    ⟨(Expr.concat (.symbol 'i') (.symbol 'f')).toNfa.toDfa.withToken "KW",
      (Expr.union (.symbol 'é') (.plus (.union (.symbol 'i') (.symbol 'f')))).toNfa.toDfa.withToken
        "ID", .renamed (.compiled _) _, .renamed (.compiled _) _, by cbv, by cbv, by cbv⟩
  have hds : ∀ d ∈ [kw, id], d.Public := by simp [hkw, hid]
  have hperm : [kw, id].Perm [id, kw] := .swap id kw []
  obtain ⟨hfailure, hparts⟩ := lexemes_perm hds hperm "éif!".toList
  exact ⟨_, _, hds, hperm, hnames, hnames', hfailure.symm.trans hstuck, hparts⟩

end Lexer

end LexGen
