-- SUMMARY: The faults of single lines: which line of a table is faulty, and that its reader answers exactly this fault.
import LexGen.Proofs.Table.Spelling

/-! # Faults of lines

A line is faulty if it does not spell what it should. Its fault is that of its first faulty part: the
parts in front of that one are spelled properly. The readers of the lines answer exactly these faults. -/

namespace LexGen

open Table (Fault)

variable {alphabet line text : List Char} {count : Nat} {edges : List (Edge Nat Char)} {fault : Fault}

/-! ## Header lines -/

theorem readSymbols_eq_error : readSymbols text = .error fault ↔
    (∀ symbols, ¬ Text.Escape.Spells text symbols) ∧ fault = .badSymbol (String.ofList text) := by
  simp only [readSymbols, ← Text.Escape.decode_eq_some]
  cases Text.Escape.decode text with
  | none => simp [eq_comm]
  | some symbols => simp

theorem readToken_eq_error : readToken line = .error fault ↔
    (∀ symbols, ¬ Text.Escape.Spells line symbols) ∧ fault = .badToken (String.ofList line) := by
  simp only [readToken, ← Text.Escape.decode_eq_some]
  cases Text.Escape.decode line with
  | none => simp [eq_comm]
  | some symbols => simp

theorem readAlphabet_eq_error : readAlphabet line = .error fault ↔
    (∀ symbols, ¬ Text.Escape.Spells line symbols) ∧ fault = .badSymbol (String.ofList line) := by
  rw [readAlphabet, bind_eq_error_iff, readSymbols_eq_error]
  refine or_iff_left ?_
  rintro ⟨symbols, _, h⟩
  cases h

theorem readNumber_eq_error : readNumber text = .error fault ↔
    (∀ n, ¬ NumberSpelling text n) ∧ fault = .badNumber (String.ofList text) := by
  simp only [← readNumber_eq_ok, readNumber]
  cases Text.Numeral.read? (Text.trim text) with
  | none => simp [eq_comm]
  | some n => simp

/-- The text should be the ordinal of one of `count` states, but is not. -/
inductive OrdinalFault (count : Nat) (text : List Char) : Fault → Prop where
  | badNumber (h : ∀ n, ¬ NumberSpelling text n) :
      OrdinalFault count text (.badNumber (String.ofList text))
  | outOfRange {n : Nat} (h : NumberSpelling text n) (hn : count ≤ n) :
      OrdinalFault count text (.outOfRange n count)

theorem readOrdinal_eq_error : readOrdinal count text = .error fault ↔ OrdinalFault count text fault := by
  rw [readOrdinal, bind_eq_error_iff, readNumber_eq_error]
  constructor
  · rintro (⟨h, rfl⟩ | ⟨n, hn, h⟩)
    · exact .badNumber h
    · split at h
      · cases h
      · cases h
        exact .outOfRange (readNumber_eq_ok.mp hn) (Nat.le_of_not_lt ‹_›)
  · intro h
    cases h with
    | badNumber h => exact .inl ⟨h, rfl⟩
    | outOfRange h hn =>
      refine .inr ⟨_, readNumber_eq_ok.mpr h, ?_⟩
      rw [if_neg (Nat.not_lt.mpr hn)]
      rfl

/-- The words of the line should be ordinals; the first one that is none has the fault. -/
inductive OrdinalsFault (count : Nat) (line : List Char) : Fault → Prop where
  | intro {good rest : List (List Char)} {word : List Char} {ordinals : List Nat} {fault : Fault}
      (hline : Text.words line = good ++ word :: rest)
      (hgood : List.Forall₂ (fun word n => NumberSpelling word n ∧ n < count) good ordinals)
      (h : OrdinalFault count word fault) : OrdinalsFault count line fault

theorem readOrdinals_eq_error :
    readOrdinals count line = .error fault ↔ OrdinalsFault count line fault := by
  simp only [readOrdinals, mapM_eq_error, readOrdinal_eq_ok, readNumber_eq_ok, readOrdinal_eq_error]
  constructor
  · rintro ⟨good, word, rest, ordinals, hline, hgood, h⟩
    exact .intro hline hgood h
  · rintro ⟨hline, hgood, h⟩
    exact ⟨_, _, _, _, hline, hgood, h⟩

/-! ## Transition lines -/

theorem readSymbol_eq_error : readSymbol text = .error fault ↔
    (∀ c, ¬ SymbolSpelling text c) ∧ fault = .badSymbol (String.ofList text) := by
  simp only [← readSymbol_eq_ok]
  rw [readSymbol]
  split
  · refine iff_of_false (fun h => ?_) fun h => h.1 '\\' rfl
    cases h
  · cases hsymbols : readSymbols text with
    | error fault' =>
      obtain ⟨_, rfl⟩ := readSymbols_eq_error.mp hsymbols
      simp [bind, Except.bind, eq_comm]
    | ok symbols =>
      rw [ok_bind]
      split
      · refine iff_of_false (fun h => ?_) fun h => h.1 _ rfl
        cases h
      · simp [throw, throwThe, MonadExceptOf.throw, eq_comm]

/-- The line has three fields, the second of them between quotes: no comma is in the first or in the
last. -/
structure EdgeFields (line source label target : List Char) : Prop where
  line_eq : line = source ++ ',' :: (('\'' :: (label ++ ['\''])) ++ ',' :: target)
  source : ',' ∉ source
  target : ',' ∉ target

theorem edgeFields?_iff {source label target : List Char} :
    edgeFields? line = some (source, label, target) ↔ EdgeFields line source label target := by
  rw [edgeFields?_eq_some]
  exact ⟨fun ⟨hline, hsource, htarget⟩ => ⟨hline, hsource, htarget⟩,
    fun ⟨hline, hsource, htarget⟩ => ⟨hline, hsource, htarget⟩⟩

theorem EdgeFields.unique {source source' label label' target target' : List Char}
    (h : EdgeFields line source label target) (h' : EdgeFields line source' label' target') :
    source' = source ∧ label' = label ∧ target' = target := by
  have hfields := (edgeFields?_iff.mpr h').symm.trans (edgeFields?_iff.mpr h)
  cases hfields
  exact ⟨rfl, rfl, rfl⟩

/-- The line should be a transition between `count` states, but is not. -/
inductive EdgeFault (count : Nat) (line : List Char) : Fault → Prop where
  | fields (h : ∀ source label target, ¬ EdgeFields line source label target) :
      EdgeFault count line (.badTransition (String.ofList line))
  | source {source label target : List Char} {fault : Fault}
      (hfields : EdgeFields line source label target) (h : OrdinalFault count source fault) :
      EdgeFault count line fault
  | label {source label target : List Char} {p : Nat}
      (hfields : EdgeFields line source label target) (hsource : NumberSpelling source p)
      (hp : p < count) (h : ∀ c, ¬ SymbolSpelling label c) :
      EdgeFault count line (.badSymbol (String.ofList label))
  | target {source label target : List Char} {p : Nat} {c : Char} {fault : Fault}
      (hfields : EdgeFields line source label target) (hsource : NumberSpelling source p)
      (hp : p < count) (hlabel : SymbolSpelling label c) (h : OrdinalFault count target fault) :
      EdgeFault count line fault

theorem readEdge_eq_error : readEdge count line = .error fault ↔ EdgeFault count line fault := by
  rw [readEdge]
  cases hfields : edgeFields? line with
  | none =>
    have hnone : ∀ source label target, ¬ EdgeFields line source label target := by
      intro source label target h
      rw [edgeFields?_iff.mpr h] at hfields
      cases hfields
    constructor
    · intro h
      cases h
      exact .fields hnone
    · intro h
      cases h with
      | fields _ => rfl
      | source h | label h | target h => exact absurd h (hnone _ _ _)
  | some fields =>
    obtain ⟨source, label, target⟩ := fields
    have hline := edgeFields?_iff.mp hfields
    simp only [bind_eq_error_iff, readOrdinal_eq_error, readOrdinal_eq_ok, readNumber_eq_ok,
      readSymbol_eq_error, readSymbol_eq_ok]
    constructor
    · rintro (h | ⟨p, ⟨hsource, hp⟩, ⟨h, rfl⟩ | ⟨c, hlabel, h | ⟨_, _, h⟩⟩⟩)
      · exact .source hline h
      · exact .label hline hsource hp h
      · exact .target hline hsource hp hlabel h
      · cases h
    · intro h
      cases h with
      | fields h => exact absurd hline (h _ _ _)
      | source hfields h =>
        obtain ⟨rfl, rfl, rfl⟩ := hline.unique hfields
        exact .inl h
      | label hfields hsource hp h =>
        obtain ⟨rfl, rfl, rfl⟩ := hline.unique hfields
        exact .inr ⟨_, ⟨hsource, hp⟩, .inl ⟨h, rfl⟩⟩
      | target hfields hsource hp hlabel h =>
        obtain ⟨rfl, rfl, rfl⟩ := hline.unique hfields
        exact .inr ⟨_, ⟨hsource, hp⟩, .inr ⟨_, hlabel, .inl h⟩⟩

/-- The line should be a transition that can join those in `edges`, but is not. -/
inductive NewEdgeFault (alphabet : List Char) (count : Nat) (edges : List (Edge Nat Char))
    (line : List Char) : Fault → Prop where
  | edge {fault : Fault} (h : EdgeFault count line fault) :
      NewEdgeFault alphabet count edges line fault
  | unknownSymbol {e : Edge Nat Char} (he : EdgeSpelling count line e) (h : e.label ∉ alphabet) :
      NewEdgeFault alphabet count edges line (.unknownSymbol e.label)
  | conflict {e e' : Edge Nat Char} (he : EdgeSpelling count line e) (hlabel : e.label ∈ alphabet)
      (he' : e' ∈ edges) (hsource : e'.source = e.source) (h : e'.label = e.label) :
      NewEdgeFault alphabet count edges line (.conflict e.source e.label)

theorem NewEdgeFault.mono {edges' : List (Edge Nat Char)}
    (h : NewEdgeFault alphabet count edges line fault) (hedges : edges ⊆ edges') :
    NewEdgeFault alphabet count edges' line fault := by
  cases h with
  | edge h => exact .edge h
  | unknownSymbol he h => exact .unknownSymbol he h
  | conflict he hlabel he' hsource h => exact .conflict he hlabel (hedges he') hsource h

theorem readNewEdge_eq_error : readNewEdge alphabet count edges line = .error fault ↔
    NewEdgeFault alphabet count edges line fault := by
  rw [readNewEdge, bind_eq_error_iff, readEdge_eq_error]
  constructor
  · rintro (h | ⟨e, he, h⟩)
    · exact .edge h
    · have he := readEdge_iff.mp he
      simp only [bind, Except.bind, throw, throwThe, MonadExceptOf.throw, pure, Except.pure] at h
      split at h
      · rename_i hlabel
        cases h
        exact .unknownSymbol he (by simpa using hlabel)
      · rename_i hlabel
        split at h
        · rename_i hany
          cases h
          obtain ⟨e', he', hsame⟩ := List.any_eq_true.mp hany
          obtain ⟨hsource, hlabel'⟩ := Bool.and_eq_true_iff.mp hsame
          exact .conflict he (by simpa using hlabel) he' (eq_of_beq hsource) (eq_of_beq hlabel')
        · cases h
  · intro h
    cases h with
    | edge h => exact .inl h
    | unknownSymbol he h =>
      refine .inr ⟨_, readEdge_iff.mpr he, ?_⟩
      simp [h, bind, Except.bind, throw, throwThe, MonadExceptOf.throw]
    | @conflict e e' he hlabel he' hsource h =>
      refine .inr ⟨_, readEdge_iff.mpr he, ?_⟩
      have hany : edges.any (fun e' => e'.source == e.source && e'.label == e.label) = true :=
        List.any_eq_true.mpr ⟨e', he', by simp [hsource, h]⟩
      simp [hlabel, hany, bind, Except.bind, throw, throwThe, MonadExceptOf.throw]

/-! ## Offending texts -/

/-- The line holds what the fault is about: the faulty text that it names, or the text that spells the
ordinal, the symbol or the number of states that it names. A token name and a transition are the whole
line. No line holds what is missing at the end. -/
def Table.Fault.HeldBy (line : List Char) : Fault → Prop
  | .truncated _ => False
  | .badNumber text => text.toList <:+: line ∧ ∀ n, ¬ NumberSpelling text.toList n
  | .outOfRange ordinal count => ∃ text, text <:+: line ∧ NumberSpelling text ordinal ∧ count ≤ ordinal
  | .badTransition text =>
    text.toList = line ∧ ∀ source label target, ¬ EdgeFields line source label target
  | .badSymbol text =>
    (text.toList = line ∧ ∀ symbols, ¬ Text.Escape.Spells line symbols) ∨
      ∃ source target, EdgeFields line source text.toList target ∧
        ∀ c, ¬ SymbolSpelling text.toList c
  | .unknownSymbol c =>
    ∃ source label target, EdgeFields line source label target ∧ SymbolSpelling label c
  | .conflict state c =>
    ∃ source label target, EdgeFields line source label target ∧ NumberSpelling source state ∧
      SymbolSpelling label c
  | .badToken text => text.toList = line ∧ ∀ symbols, ¬ Text.Escape.Spells line symbols
  | .tooManyStates count _ => NumberSpelling line count

theorem Table.Fault.HeldBy.ne_truncated (h : fault.HeldBy line) (expected : String) :
    fault ≠ .truncated expected := by
  rintro rfl
  exact h

theorem EdgeFields.source_infix {source label target : List Char}
    (h : EdgeFields line source label target) : source <:+: line := by
  rw [h.line_eq]
  exact (List.prefix_append _ _).isInfix

theorem EdgeFields.target_infix {source label target : List Char}
    (h : EdgeFields line source label target) : target <:+: line := by
  have hsplit : line = source ++ ',' :: ('\'' :: (label ++ ['\''])) ++ [','] ++ target := by
    simp [h.line_eq]
  rw [hsplit]
  exact (List.suffix_append _ _).isInfix

theorem EdgeSpelling.exists_fields {e : Edge Nat Char} (h : EdgeSpelling count line e) :
    ∃ source label target, EdgeFields line source label target ∧ NumberSpelling source e.source ∧
      SymbolSpelling label e.label := by
  obtain ⟨hsource, htarget, hfrom, _, hlabel, _, _⟩ := h
  exact ⟨_, _, _, ⟨rfl, hsource, htarget⟩, hfrom, hlabel⟩

theorem OrdinalFault.heldBy (h : OrdinalFault count text fault) (htext : text <:+: line) :
    fault.HeldBy line := by
  cases h with
  | badNumber h => exact ⟨by rwa [String.toList_ofList], by rwa [String.toList_ofList]⟩
  | outOfRange h hn => exact ⟨text, htext, h, hn⟩

theorem OrdinalsFault.heldBy (h : OrdinalsFault count line fault) : fault.HeldBy line := by
  obtain ⟨hline, _, h⟩ := h
  refine h.heldBy (Text.infix_of_mem_words ?_)
  rw [hline]
  exact List.mem_append_right _ List.mem_cons_self

theorem EdgeFault.heldBy (h : EdgeFault count line fault) : fault.HeldBy line := by
  cases h with
  | fields h => exact ⟨String.toList_ofList, h⟩
  | source hfields h => exact h.heldBy hfields.source_infix
  | label hfields _ _ h =>
    exact .inr ⟨_, _, by rwa [String.toList_ofList], by rwa [String.toList_ofList]⟩
  | target hfields _ _ _ h => exact h.heldBy hfields.target_infix

theorem NewEdgeFault.heldBy (h : NewEdgeFault alphabet count edges line fault) :
    fault.HeldBy line := by
  cases h with
  | edge h => exact h.heldBy
  | unknownSymbol he _ =>
    obtain ⟨source, label, target, hfields, _, hlabel⟩ := he.exists_fields
    exact ⟨source, label, target, hfields, hlabel⟩
  | conflict he _ _ _ _ => exact he.exists_fields

end LexGen
