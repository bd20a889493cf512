-- SUMMARY: The lines of a table: what they say when they can be read, and that written lines can be read.
import LexGen.Proofs.Lists
import LexGen.Proofs.Results
import LexGen.Proofs.Text
import LexGen.Table.Printer
import LexGen.Table.Reader

/-! # Lines of a table

A line that can be read determines the ordinals and symbols in it, which pass the checks of its
reader. A written line is read as what was written, for a number of states that has a numeral. -/

namespace LexGen

/-! ## What a line says -/

theorem readOrdinal_eq_ok {count n : Nat} {text : List Char} :
    readOrdinal count text = .ok n ↔ readNumber text = .ok n ∧ n < count := by
  rw [readOrdinal, bind_eq_ok_iff]
  refine ⟨fun ⟨m, hm, h⟩ => ?_, fun ⟨hn, hlt⟩ => ⟨n, hn, by rw [if_pos hlt]; rfl⟩⟩
  split at h
  · cases h
    exact ⟨hm, ‹_›⟩
  · cases h

theorem readEdge_eq_ok {count : Nat} {line : List Char} {e : Edge Nat Char} :
    readEdge count line = .ok e ↔ ∃ source label target,
      edgeFields? line = some (source, label, target) ∧ readOrdinal count source = .ok e.source ∧
        readSymbol label = .ok e.label ∧ readOrdinal count target = .ok e.target := by
  obtain ⟨p, c, q⟩ := e
  rw [readEdge]
  cases edgeFields? line with
  | none => simp [throw, throwThe, MonadExceptOf.throw]
  | some fields =>
    obtain ⟨source, label, target⟩ := fields
    simp only [bind_eq_ok_iff, Option.some.injEq, Prod.mk.injEq]
    constructor
    · intro ⟨p', hp, c', hc, q', hq, he⟩
      cases he
      exact ⟨source, label, target, ⟨rfl, rfl, rfl⟩, hp, hc, hq⟩
    · intro ⟨source', label', target', ⟨hsource, hlabel, htarget⟩, hp, hc, hq⟩
      subst hsource hlabel htarget
      exact ⟨p, hp, c, hc, q, hq, rfl⟩

theorem readNewEdge_eq_ok {alphabet line : List Char} {count : Nat} {edges : List (Edge Nat Char)}
    {e : Edge Nat Char} :
    readNewEdge alphabet count edges line = .ok e ↔ readEdge count line = .ok e ∧
      e.label ∈ alphabet ∧ ∀ e' ∈ edges, e'.source = e.source → e'.label ≠ e.label := by
  rw [readNewEdge]
  cases readEdge count line with
  | error fault => simp [bind, Except.bind]
  | ok e₀ =>
    simp only [bind, Except.bind, throw, throwThe, MonadExceptOf.throw, pure, Except.pure]
    refine ⟨fun h => ?_, fun ⟨he, hlabel, hnew⟩ => ?_⟩
    · split at h
      · cases h
      · rename_i hlabel
        split at h
        · cases h
        · rename_i hnew
          cases h
          exact ⟨rfl, by simpa using hlabel, by simpa using hnew⟩
    · cases he
      have hany : edges.any (fun e' => e'.source == e.source && e'.label == e.label) = false := by
        simpa using hnew
      simp [hlabel, hany]

/-! ## Written header lines -/

theorem readNumber_write_eq_ok {m n : Nat} :
    readNumber (Text.Numeral.write n) = .ok m ↔ n < Text.Numeral.bound ∧ n = m := by
  rw [readNumber, Text.trim_of_not_isBlank fun _ hc => Text.Numeral.isBlank_of_mem_write hc,
    Text.Numeral.read?_write]
  by_cases h : n < Text.Numeral.bound
  · simp [h]
  · simp [h]

theorem readNumber_write {n : Nat} (h : n < Text.Numeral.bound) :
    readNumber (Text.Numeral.write n) = .ok n :=
  readNumber_write_eq_ok.mpr ⟨h, rfl⟩

theorem readOrdinal_write_eq_ok {count m n : Nat} (hcount : count < Text.Numeral.bound) :
    readOrdinal count (Text.Numeral.write n) = .ok m ↔ n < count ∧ n = m := by
  rw [readOrdinal_eq_ok, readNumber_write_eq_ok]
  constructor
  · rintro ⟨⟨_, rfl⟩, hlt⟩
    exact ⟨hlt, rfl⟩
  · rintro ⟨hlt, rfl⟩
    exact ⟨⟨Nat.lt_trans hlt hcount, rfl⟩, hlt⟩

theorem readOrdinal_write {count n : Nat} (hcount : count < Text.Numeral.bound) (hn : n < count) :
    readOrdinal count (Text.Numeral.write n) = .ok n :=
  (readOrdinal_write_eq_ok hcount).mpr ⟨hn, rfl⟩

theorem readOrdinals_intercalate {count : Nat} {ns : List Nat} (hcount : count < Text.Numeral.bound)
    (hns : ∀ n ∈ ns, n < count) :
    readOrdinals count ([' '].intercalate (ns.map Text.Numeral.write)) = .ok ns := by
  have hwords : ∀ w ∈ ns.map Text.Numeral.write, w ≠ [] ∧ ∀ c ∈ w, Text.isBlank c = false := by
    intro w hw
    obtain ⟨n, _, rfl⟩ := List.mem_map.mp hw
    exact ⟨Text.Numeral.write_ne_nil n, fun _ hc => Text.Numeral.isBlank_of_mem_write hc⟩
  rw [readOrdinals, Text.words_intercalate hwords]
  induction ns with
  | nil => rfl
  | cons n ns ih =>
    obtain ⟨hn, hns⟩ := List.forall_mem_cons.mp hns
    rw [List.map_cons, List.mapM_cons, readOrdinal_write hcount hn]
    rw [List.map_cons, List.forall_mem_cons] at hwords
    rw [ih hns hwords.2]
    rfl

/-- The token name of a written line comes back without a carriage return at its end. -/
theorem readToken_encode (token : List Char) :
    readToken (Text.dropReturn (Text.Escape.encode token)) =
      .ok (String.ofList (Text.dropReturn token)) := by
  rw [readToken, Text.Escape.dropReturn_encode, Text.Escape.decode_encode]

theorem readAlphabet_encode {alphabet : List Char} (h : alphabet.Nodup) :
    readAlphabet (Text.Escape.encode alphabet) = .ok alphabet := by
  rw [readAlphabet, readSymbols, Text.Escape.decode_encode]
  exact congrArg Except.ok (eraseDups_of_nodup h)

/-! ## Written transitions -/

theorem readSymbol_encodeChar (c : Char) : readSymbol (Text.Escape.encodeChar c) = .ok c := by
  have hslash : Text.Escape.encodeChar c ≠ ['\\'] := by
    unfold Text.Escape.encodeChar
    split
    · decide
    · split
      · decide
      · rename_i hc
        exact fun h => hc (List.singleton_inj.mp h)
  have hdecode : Text.Escape.decode (Text.Escape.encodeChar c) = some [c] := by
    have h := Text.Escape.decode_encodeChar_append c []
    rwa [List.append_nil] at h
  rw [readSymbol, if_neg hslash, readSymbols, hdecode]
  rfl

theorem unquote?_quoted (text : List Char) : unquote? ('\'' :: (text ++ ['\''])) = some text := by
  simp [unquote?]

namespace Dfa

theorem edgeLine_eq (e : Edge Nat Char) :
    edgeLine e = Text.Numeral.write e.source ++
      ',' :: (('\'' :: (Text.Escape.encodeChar e.label ++ ['\''])) ++
        ',' :: Text.Numeral.write e.target) := by
  simp [edgeLine]

theorem edgeFields?_edgeLine (e : Edge Nat Char) :
    edgeFields? (edgeLine e) = some (Text.Numeral.write e.source,
      Text.Escape.encodeChar e.label, Text.Numeral.write e.target) := by
  have hcomma : ∀ n, ',' ∉ Text.Numeral.write n := fun n => Text.Numeral.not_mem_write (by decide)
  rw [edgeFields?, edgeLine_eq, Text.splitFirst?_append (hcomma _)]
  simp only [Option.bind_eq_bind, Option.bind_some]
  rw [Text.splitLast?_append _ (hcomma _)]
  simp only [Option.bind_some, unquote?_quoted]
  rfl

theorem readEdge_edgeLine {count : Nat} {e : Edge Nat Char} (hcount : count < Text.Numeral.bound)
    (hsource : e.source < count) (htarget : e.target < count) :
    readEdge count (edgeLine e) = .ok e :=
  readEdge_eq_ok.mpr ⟨_, _, _, edgeFields?_edgeLine e, readOrdinal_write hcount hsource,
    readSymbol_encodeChar e.label, readOrdinal_write hcount htarget⟩

theorem edgeLine_ne_nil (e : Edge Nat Char) : edgeLine e ≠ [] := by
  simp [edgeLine]

theorem dropReturn_edgeLine (e : Edge Nat Char) : Text.dropReturn (edgeLine e) = edgeLine e := by
  unfold edgeLine
  rw [Text.dropReturn_append (Text.Numeral.write_ne_nil e.target),
    Text.dropReturn_of_not_mem (Text.Numeral.not_mem_write (by decide))]

theorem newline_not_mem_edgeLine (e : Edge Nat Char) : '\n' ∉ edgeLine e := by
  have hnumeral : ∀ n, '\n' ∉ Text.Numeral.write n :=
    fun n => Text.Numeral.not_mem_write (by decide)
  have hlabel : '\n' ∉ Text.Escape.encodeChar e.label := by
    have h := Text.Escape.newline_not_mem_encode [e.label]
    rwa [Text.Escape.encode, List.flatMap_singleton] at h
  simp [edgeLine, hnumeral, hlabel]

end Dfa

end LexGen
