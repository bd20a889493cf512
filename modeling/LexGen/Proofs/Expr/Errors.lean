-- SUMMARY: Which error the reader of prefix notation answers for the words of a text.
import Mathlib.Tactic.Common
import LexGen.Proofs.Expr.Listing

/-! # Errors of the reader

What is wrong with a text can be said of its words alone. Until it has read the listing of an
expression, the reader waits, and its stack lists the words read; the innermost waiting operator is
the last one among them that lacks an operand. So what comes first decides: the end of a listing, a
word that is no token, or the end of the words. -/

namespace LexGen

/-! ## Words of tokens -/

namespace Token

/-- The word is a keyword, `\n`, or a single character. -/
def WellSpelled (word : List Char) : Prop :=
  word ∈ ["STAR", "PLUS", "CONCAT", "UNION", "NULL"].map String.toList ∨
    word = ['\\', 'n'] ∨ word.length = 1

theorem wellSpelled_text (token : Token) : WellSpelled token.text := by
  cases token with
  | unary op =>
    cases op with
    | star => exact .inl (by decide)
    | plus => exact .inl (by decide)
  | binary op =>
    cases op with
    | concat => exact .inl (by decide)
    | union => exact .inl (by decide)
  | null => exact .inl (by decide)
  | symbol c =>
    by_cases hc : c = '\n'
    · subst hc
      exact .inr (.inl rfl)
    · rw [text, if_neg hc]
      exact .inr (.inr rfl)

theorem read?_eq_none_iff {word : List Char} : read? word = none ↔ ¬ WellSpelled word := by
  constructor
  · intro h hword
    rcases hword with hkeyword | rfl | hlength
    · obtain ⟨keyword, hmem, rfl⟩ := List.mem_map.mp hkeyword
      revert h
      revert keyword
      decide
    · cases h
    · obtain ⟨c, rfl⟩ := List.length_eq_one_iff.mp hlength
      unfold read? at h
      split_ifs at h
  · intro hword
    cases h : read? word with
    | none => rfl
    | some token =>
      have hnewline : word ≠ ['\n'] := fun hnewline => hword (.inr (.inr (by rw [hnewline]; rfl)))
      rw [← text_of_read? h hnewline] at hword
      exact absurd (wellSpelled_text token) hword

theorem exists_text_of_wellSpelled {ws : List (List Char)} (h : ∀ w ∈ ws, WellSpelled w)
    (hws : ∀ w ∈ ws, w ≠ ['\n']) : ∀ w ∈ ws, ∃ token : Token, token.text = w := by
  intro w hw
  cases hread : read? w with
  | none => exact absurd (h w hw) (read?_eq_none_iff.mp hread)
  | some token => exact ⟨token, text_of_read? hread (hws w hw)⟩

end Token

/-! ## Operators and their operands -/

namespace Expr

/-- The words are the listing of some expression. -/
def IsListing (ws : List (List Char)) : Prop :=
  ∃ e : Expr, e.listing? = some ws

/-- The words begin with the listings of `k` expressions, one behind the other. -/
def StartsWithListings : Nat → List (List Char) → Prop
  | 0, _ => True
  | k + 1, ws => ∃ us vs, ws = us ++ vs ∧ IsListing us ∧ StartsWithListings k vs

/-- The keyword of an operator with so many operands. -/
inductive IsOperator : String → Nat → Prop where
  | unary (op : Unary) : IsOperator op.keyword 1
  | binary (op : Binary) : IsOperator op.keyword 2

/-- Each operator among the words has all of its operands behind it. -/
def Saturated (ws : List (List Char)) : Prop :=
  ∀ us op arity vs, ws = us ++ op.toList :: vs → IsOperator op arity → StartsWithListings arity vs

/-- The last operator among the words that lacks an operand is `op`, and it has `index` of them. -/
def LastOpen (op : String) (index : Nat) (ws : List (List Char)) : Prop :=
  ∃ us arity vs, ws = us ++ op.toList :: vs ∧ IsOperator op arity ∧ index < arity ∧
    StartsWithListings index vs ∧ ¬ StartsWithListings (index + 1) vs ∧ Saturated vs

variable {us vs ws : List (List Char)} {op op' : String} {index index' arity k l : Nat}

theorem parseWords_listing {e : Expr} (h : e.listing? = some us) (vs : List (List Char)) :
    parseWords [] 0 (us ++ vs) =
      if vs.isEmpty then .ok e else .error (.trailing (vs.map String.ofList)) :=
  readAs_of_listing? h [] 0 vs

/-- No listing is the beginning of another one. -/
theorem IsListing.eq_nil_of_append (hus : IsListing us) (h : IsListing (us ++ vs)) : vs = [] := by
  obtain ⟨e, he⟩ := hus
  obtain ⟨e', he'⟩ := h
  have hread := parseWords_listing he' []
  rw [List.append_nil, parseWords_listing he vs] at hread
  cases vs with
  | nil => rfl
  | cons v vs => cases hread

theorem not_isListing_nil : ¬ IsListing [] := by
  rintro ⟨e, he⟩
  cases parseWords_listing he []

theorem StartsWithListings.append (h : StartsWithListings k us) (vs : List (List Char)) :
    StartsWithListings k (us ++ vs) := by
  induction k generalizing us with
  | zero => trivial
  | succ k ih =>
    obtain ⟨first, rest, rfl, hfirst, hrest⟩ := h
    exact ⟨first, rest ++ vs, List.append_assoc .., hfirst, ih hrest⟩

theorem StartsWithListings.mono (h : StartsWithListings k ws) (hlk : l ≤ k) :
    StartsWithListings l ws := by
  induction l generalizing k ws with
  | zero => trivial
  | succ l ih =>
    obtain ⟨k, rfl⟩ := Nat.exists_eq_add_of_lt hlk
    obtain ⟨us, vs, rfl, hus, hvs⟩ := h
    exact ⟨us, vs, rfl, hus, ih hvs (by omega)⟩

theorem not_startsWithListings_nil : ¬ StartsWithListings 1 [] := by
  rintro ⟨us, vs, h, hus, -⟩
  obtain ⟨rfl, -⟩ := List.append_eq_nil_iff.mp h.symm
  exact not_isListing_nil hus

theorem IsListing.startsWithListings (h : IsListing ws) : StartsWithListings 1 ws :=
  ⟨ws, [], (List.append_nil ws).symm, h, trivial⟩

theorem IsListing.not_startsWithListings (h : IsListing ws) : ¬ StartsWithListings 2 ws := by
  rintro ⟨us, vs, rfl, hus, hvs⟩
  obtain rfl := hus.eq_nil_of_append h
  exact not_startsWithListings_nil hvs

/-! ## Operators of a listing -/

theorem IsOperator.exists_read? (h : IsOperator op arity) :
    ∃ token, Token.read? op.toList = some token ∧ token.arity = arity := by
  cases h with
  | unary op => exact ⟨.unary op, Token.read?_text (.unary op), rfl⟩
  | binary op => exact ⟨.binary op, Token.read?_text (.binary op), rfl⟩

theorem saturated_nil : Saturated [] := by
  intro us op arity vs h
  exact absurd h (by simp)

theorem Saturated.cons (token : Token) (hws : Saturated ws)
    (h : StartsWithListings token.arity ws) : Saturated (token.text :: ws) := by
  intro us op arity vs heq hop
  cases us with
  | nil =>
    obtain ⟨hword, rfl⟩ := List.cons.inj heq
    obtain ⟨token', htoken', harity⟩ := hop.exists_read?
    rw [← hword, Token.read?_text] at htoken'
    obtain rfl := Option.some.inj htoken'
    rwa [← harity]
  | cons u us =>
    obtain ⟨-, rfl⟩ := List.cons.inj heq
    exact hws us op arity vs rfl hop

theorem Saturated.append (hus : Saturated us) (hvs : Saturated vs) : Saturated (us ++ vs) := by
  intro us' op arity vs' heq hop
  rcases List.append_eq_append_iff.mp heq with ⟨as, rfl, hvs'⟩ | ⟨as, rfl, has⟩
  · exact hvs as op arity vs' hvs' hop
  · cases as with
    | nil => exact hvs [] op arity vs' has.symm hop
    | cons a as =>
      obtain ⟨rfl, rfl⟩ := List.cons.inj has
      exact (hus us' op arity as rfl hop).append vs

theorem ListedAs.saturated {e : Expr} (h : ListedAs e ws) : Saturated ws := by
  induction h with
  | symbol c => exact saturated_nil.cons (.symbol c) trivial
  | empty => exact saturated_nil.cons .null trivial
  | unary op h ih => exact ih.cons (.unary op) (IsListing.startsWithListings ⟨_, h.listing?_eq⟩)
  | binary op hl hr ihl ihr =>
    exact (ihl.append ihr).cons (.binary op)
      ⟨_, _, rfl, ⟨_, hl.listing?_eq⟩, IsListing.startsWithListings ⟨_, hr.listing?_eq⟩⟩

/-! ## The last operator that lacks an operand -/

/-- An operator that lacks an operand does not stand behind the last one that does. -/
theorem length_le_of_saturated {us' vs' : List (List Char)} {word : List Char}
    (heq : us ++ word :: vs = us' ++ op.toList :: vs') (hvs : Saturated vs)
    (hop : IsOperator op arity) (hopen : ¬ StartsWithListings arity vs') :
    us'.length ≤ us.length := by
  rcases List.append_eq_append_iff.mp heq with ⟨as, rfl, has⟩ | ⟨as, rfl, -⟩
  · cases as with
    | nil => simp
    | cons a as =>
      obtain ⟨-, rfl⟩ := List.cons.inj has
      exact absurd (hvs as op arity vs' rfl hop) hopen
  · simp

theorem le_of_not_startsWithListings (h : StartsWithListings k ws)
    (hl : ¬ StartsWithListings (l + 1) ws) : k ≤ l := by
  by_contra hlt
  exact hl (h.mono (Nat.lt_of_not_le hlt))

theorem LastOpen.unique (h : LastOpen op index ws) (h' : LastOpen op' index' ws) :
    op = op' ∧ index = index' := by
  obtain ⟨us, arity, vs, rfl, hop, hindex, hhas, hlacks, hvs⟩ := h
  obtain ⟨us', arity', vs', heq, hop', hindex', hhas', hlacks', hvs'⟩ := h'
  -- neither of the two operators stands behind the other
  have hopen : ¬ StartsWithListings arity vs := fun h => hlacks (h.mono hindex)
  have hopen' : ¬ StartsWithListings arity' vs' := fun h => hlacks' (h.mono hindex')
  have hlength : us.length = us'.length :=
    Nat.le_antisymm (length_le_of_saturated heq.symm hvs' hop hopen)
      (length_le_of_saturated heq hvs hop' hopen')
  obtain ⟨-, htail⟩ := List.append_inj heq hlength
  obtain ⟨hword, rfl⟩ := List.cons.inj htail
  exact ⟨String.toList_inj.mp hword,
    Nat.le_antisymm (le_of_not_startsWithListings hhas hlacks')
      (le_of_not_startsWithListings hhas' hlacks)⟩

theorem lastOpen_of_stackListing {frame : Frame} {stack : List Frame}
    (h : StackListing (frame :: stack) ws) : LastOpen frame.keyword frame.index ws := by
  cases h with
  | unary op h =>
    exact ⟨_, 1, [], rfl, .unary op, Nat.one_pos, trivial, not_startsWithListings_nil,
      saturated_nil⟩
  | first op h =>
    exact ⟨_, 2, [], rfl, .binary op, Nat.two_pos, trivial, not_startsWithListings_nil,
      saturated_nil⟩
  | second op h hl =>
    have hlisting : IsListing _ := ⟨_, hl⟩
    exact ⟨_, 2, _, rfl, .binary op, Nat.one_lt_two, hlisting.startsWithListings,
      hlisting.not_startsWithListings, (listedAs_of_listing? hl).saturated⟩

/-! ## Reading without an end -/

/-- Words among which no listing ends all go to the stack. -/
theorem parseWords_append {stack : List Frame} (consumed : Nat) (hstack : StackListing stack us)
    (hws : ∀ w ∈ ws, ∃ token : Token, token.text = w)
    (hnone : ∀ ps, ps <+: ws → ¬ IsListing (us ++ ps)) (rest : List (List Char)) :
    ∃ stack', StackListing stack' (us ++ ws) ∧
      parseWords stack consumed (ws ++ rest) = parseWords stack' (consumed + ws.length) rest := by
  -- each word moves from `ws` to `us`, the words that the stack lists
  induction ws generalizing stack consumed us with
  | nil => exact ⟨stack, by rwa [List.append_nil], rfl⟩
  | cons w ws ih =>
    obtain ⟨⟨token, rfl⟩, hrest⟩ := List.forall_mem_cons.mp hws
    have hlists := Progress.lists_read hstack token
    rw [List.cons_append, parseWords_cons (Token.read?_text token)]
    cases hread : Progress.read stack token with
    | complete e =>
      rw [hread] at hlists
      exact absurd ⟨e, hlists⟩ (hnone [token.text] (by simp))
    | waiting stack' =>
      rw [hread] at hlists
      have hnone' : ∀ ps, ps <+: ws → ¬ IsListing (us ++ [token.text] ++ ps) := by
        intro ps hps
        rw [List.append_assoc]
        exact hnone _ (List.cons_prefix_cons.mpr ⟨rfl, hps⟩)
      obtain ⟨stack'', hstack'', hparse⟩ := ih (consumed + 1) hlists hrest hnone'
      refine ⟨stack'', by rwa [List.append_assoc] at hstack'', ?_⟩
      rw [Progress.resume, hparse, List.length_cons, Nat.add_assoc, Nat.add_comm 1]

/-! ## The outcome of reading -/

/-- What is wrong with the words of a text. -/
inductive Fails : List (List Char) → ParseError → Prop where
  | noInput : Fails [] .noInput
  /-- The first word that is no token, with no listing in front of it. -/
  | badSymbol {us vs : List (List Char)} {word : List Char} (hus : ∀ u ∈ us, Token.WellSpelled u)
      (hword : ¬ Token.WellSpelled word) (hnone : ∀ ps, ps <+: us → ¬ IsListing ps) :
      Fails (us ++ word :: vs) (.badSymbol (String.ofList word))
  /-- The words behind a listing, whatever they are. -/
  | trailing {us vs : List (List Char)} (hus : IsListing us) (hvs : vs ≠ []) :
      Fails (us ++ vs) (.trailing (vs.map String.ofList))
  /-- All words are tokens, and no listing ends among them. -/
  | missingOperand {ws : List (List Char)} {op : String} {index : Nat} (hne : ws ≠ [])
      (hws : ∀ w ∈ ws, Token.WellSpelled w) (hnone : ∀ ps, ps <+: ws → ¬ IsListing ps)
      (hlast : LastOpen op index ws) : Fails ws (.missingOperand op index ws.length)

variable {err : ParseError} {word : List Char}

theorem parseWords_of_not_wellSpelled (hus : ∀ u ∈ us, ∃ token : Token, token.text = u)
    (hword : ¬ Token.WellSpelled word) (hnone : ∀ ps, ps <+: us → ¬ IsListing ps)
    (vs : List (List Char)) :
    parseWords [] 0 (us ++ word :: vs) = .error (.badSymbol (String.ofList word)) := by
  obtain ⟨stack, -, hparse⟩ := parseWords_append 0 .nil hus hnone (word :: vs)
  rw [hparse, parseWords, Token.read?_eq_none_iff.mpr hword]

theorem parseWords_of_open (hne : ws ≠ []) (hws : ∀ w ∈ ws, ∃ token : Token, token.text = w)
    (hnone : ∀ ps, ps <+: ws → ¬ IsListing ps) :
    ∃ op index, LastOpen op index ws ∧
      parseWords [] 0 ws = .error (.missingOperand op index ws.length) := by
  obtain ⟨stack, hstack, hparse⟩ := parseWords_append 0 .nil hws hnone []
  rw [List.append_nil, Nat.zero_add] at hparse
  cases stack with
  | nil =>
    cases hstack
    exact absurd rfl hne
  | cons frame stack => exact ⟨_, _, lastOpen_of_stackListing hstack, hparse⟩

/-- The words are all well spelled up to their end, or up to a first one that is not. -/
theorem wellSpelled_or_exists (ws : List (List Char)) :
    (∀ w ∈ ws, Token.WellSpelled w) ∨
      ∃ us word vs, ws = us ++ word :: vs ∧ (∀ u ∈ us, Token.WellSpelled u) ∧
        ¬ Token.WellSpelled word := by
  induction ws with
  | nil => exact .inl (List.forall_mem_nil _)
  | cons w ws ih =>
    by_cases hw : Token.WellSpelled w
    · rcases ih with hws | ⟨us, word, vs, rfl, hus, hword⟩
      · exact .inl (List.forall_mem_cons.mpr ⟨hw, hws⟩)
      · exact .inr ⟨w :: us, word, vs, rfl, List.forall_mem_cons.mpr ⟨hw, hus⟩, hword⟩
    · exact .inr ⟨[], w, ws, rfl, List.forall_mem_nil _, hw⟩

theorem fails_of_parseWords (hws : ∀ w ∈ ws, w ≠ ['\n']) (h : parseWords [] 0 ws = .error err) :
    Fails ws err := by
  by_cases hlisting : ∃ us vs, us ++ vs = ws ∧ IsListing us
  · obtain ⟨us, vs, rfl, e, he⟩ := hlisting
    rw [parseWords_listing he] at h
    cases vs with
    | nil => cases h
    | cons v vs =>
      cases h
      exact .trailing ⟨e, he⟩ (List.cons_ne_nil v vs)
  · have hnone : ∀ ps, ps <+: ws → ¬ IsListing ps :=
      fun ps ⟨vs, hvs⟩ hps => hlisting ⟨ps, vs, hvs, hps⟩
    rcases wellSpelled_or_exists ws with hspelled | ⟨us, word, vs, rfl, hus, hword⟩
    · by_cases hne : ws = []
      · subst hne
        cases h
        exact .noInput
      · obtain ⟨op, index, hlast, hparse⟩ :=
          parseWords_of_open hne (Token.exists_text_of_wellSpelled hspelled hws) hnone
        rw [hparse] at h
        cases h
        exact .missingOperand hne hspelled hnone hlast
    · have hnone' : ∀ ps, ps <+: us → ¬ IsListing ps :=
        fun ps hps => hnone ps (hps.trans (List.prefix_append us _))
      have hus' := Token.exists_text_of_wellSpelled hus fun u hu => hws u (List.mem_append_left _ hu)
      rw [parseWords_of_not_wellSpelled hus' hword hnone'] at h
      cases h
      exact .badSymbol hus hword hnone'

theorem Fails.parseWords_eq (hws : ∀ w ∈ ws, w ≠ ['\n']) (h : Fails ws err) :
    parseWords [] 0 ws = .error err := by
  cases h with
  | noInput => rfl
  | badSymbol hus hword hnone =>
    have hus' := Token.exists_text_of_wellSpelled hus fun u hu => hws u (List.mem_append_left _ hu)
    exact parseWords_of_not_wellSpelled hus' hword hnone _
  | trailing hus hvs =>
    obtain ⟨e, he⟩ := hus
    rw [parseWords_listing he, if_neg (by simpa using hvs)]
  | missingOperand hne hspelled hnone hlast =>
    obtain ⟨op, index, hlast', hparse⟩ :=
      parseWords_of_open hne (Token.exists_text_of_wellSpelled hspelled hws) hnone
    obtain ⟨rfl, rfl⟩ := hlast.unique hlast'
    exact hparse

/-- The words of a text decide its outcome: one of the errors with what it reports, or else an
expression. -/
theorem parse_eq_error_iff (text : String) :
    (∀ err, parse text = .error err ↔ Fails (Text.words text.toList) err) ∧
      ((∃ e, parse text = .ok e) ↔ ¬ ∃ err, Fails (Text.words text.toList) err) := by
  have hws : ∀ w ∈ Text.words text.toList, w ≠ ['\n'] := fun w => Text.ne_newline_of_mem_words
  have herror : ∀ err, parse text = .error err ↔ Fails (Text.words text.toList) err :=
    fun err => ⟨fails_of_parseWords hws, Fails.parseWords_eq hws⟩
  refine ⟨herror, ?_⟩
  simp only [← herror]
  cases parse text with
  | error err => simp
  | ok e => simp

/-- An end of the expression comes before a word that is no token, and such a word before the end of
the words. -/
example :
    parse "STAR a ab" = .error (.trailing ["ab"]) ∧
      parse "CONCAT a STAR ab" = .error (.badSymbol "ab") ∧
      parse "CONCAT STAR a UNION b" = .error (.missingOperand "UNION" 1 5) := by decide

end Expr

end LexGen
