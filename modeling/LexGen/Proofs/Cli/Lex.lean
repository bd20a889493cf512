-- SUMMARY: What lexing a text prints, and when the printed lines show the lexemes.
import Mathlib
import LexGen.Cli.Command
import LexGen.Proofs.Results
import LexGen.Proofs.Table.Spelling

/-! # Printed lexemes

For each lexeme its token name, a tab and its escaped text are printed, and a newline behind them. The
text never contains a newline then, and what is behind the first tab gives it back. The token name is
printed as it is: a newline in it breaks the line in two, and a tab in it ends the name too early. -/

namespace LexGen

/-- The text to be lexed: that of a file if one is given, or else the standard input. -/
def Directory.inputText? (dir : Directory) : Option String → Option String
  | some path => dir.read? path
  | none => String.fromUTF8? dir.input

namespace Cli

open Text (unlines)

/-! ## Lines -/

/-- The token name and the text that a line shows: what is in front of its first tab, and what is behind
it with the escapes undone. -/
def readLexemeLine? (line : List Char) : Option (List Char × List Char) := do
  let (token, text) ← Text.splitFirst? '\t' line
  return (token, ← Text.Escape.decode text)

/-- The output has one line for each lexeme, in their order, that shows its token name and its text. -/
def Shows (output : String) (xs : List Lexeme) : Prop :=
  ∃ lines, output.toList = unlines lines ∧ (∀ line ∈ lines, '\n' ∉ line) ∧
    List.Forall₂ (fun line x => readLexemeLine? line = some (x.token.toList, x.text)) lines xs

/-- The printed form of a lexeme without the newline behind it. -/
def lexemeFields (x : Lexeme) : List Char :=
  x.token.toList ++ '\t' :: Text.Escape.encode x.text

theorem readLexemeLine?_eq_some {line token text : List Char} :
    readLexemeLine? line = some (token, text) ↔
      ∃ field, line = token ++ '\t' :: field ∧ '\t' ∉ token ∧ Text.Escape.Spells field text := by
  simp only [readLexemeLine?, Option.bind_eq_bind, Option.bind_eq_some_iff, Option.pure_def,
    Option.some.injEq, Prod.exists, Prod.mk.injEq, Text.splitFirst?_eq_some,
    Text.Escape.decode_eq_some]
  constructor
  · rintro ⟨token, field, ⟨hline, htab⟩, text, htext, rfl, rfl⟩
    exact ⟨field, hline, htab, htext⟩
  · rintro ⟨field, hline, htab, htext⟩
    exact ⟨token, field, ⟨hline, htab⟩, text, htext, rfl, rfl⟩

theorem readLexemeLine?_lexemeFields {x : Lexeme} (htab : '\t' ∉ x.token.toList) :
    readLexemeLine? (lexemeFields x) = some (x.token.toList, x.text) :=
  readLexemeLine?_eq_some.mpr
    ⟨_, rfl, htab, Text.Escape.spells_of_decode (Text.Escape.decode_encode x.text)⟩

theorem newline_not_mem_lexemeFields {x : Lexeme} (hnewline : '\n' ∉ x.token.toList) :
    '\n' ∉ lexemeFields x := by
  rw [lexemeFields, List.mem_append, List.mem_cons]
  rintro (h | h | h)
  · exact hnewline h
  · exact absurd h (by decide)
  · exact Text.Escape.newline_not_mem_encode x.text h

theorem toList_lexemeLines (xs : List Lexeme) :
    (String.join (xs.map lexemeLine)).toList = unlines (xs.map lexemeFields) := by
  induction xs with
  | nil => rfl
  | cons x xs ih =>
    have hline : (lexemeLine x).toList = lexemeFields x ++ ['\n'] := by
      simp [lexemeLine, lexemeFields]
    rw [List.map_cons, String.join_cons, String.toList_append, hline, ih, List.map_cons, unlines,
      unlines, List.flatMap_cons]

/-- A line can show no token name with a tab or a newline. -/
theorem Shows.not_mem_token {output : String} {xs : List Lexeme} (h : Shows output xs) :
    ∀ x ∈ xs, '\t' ∉ x.token.toList ∧ '\n' ∉ x.token.toList := by
  obtain ⟨lines, -, hlines, hshow⟩ := h
  induction hshow with
  | nil => simp
  | cons hread _ ih =>
    obtain ⟨hline, hrest⟩ := List.forall_mem_cons.mp hlines
    obtain ⟨field, rfl, htab, _⟩ := readLexemeLine?_eq_some.mp hread
    exact List.forall_mem_cons.mpr
      ⟨⟨htab, fun hnewline => hline (List.mem_append_left _ hnewline)⟩, ih hrest⟩

theorem shows_lexemeLines_iff {xs : List Lexeme} :
    Shows (String.join (xs.map lexemeLine)) xs ↔
      ∀ x ∈ xs, '\t' ∉ x.token.toList ∧ '\n' ∉ x.token.toList := by
  refine ⟨Shows.not_mem_token, fun h => ⟨_, toList_lexemeLines xs, ?_, ?_⟩⟩
  · rw [List.forall_mem_map]
    exact fun x hx => newline_not_mem_lexemeFields (h x hx).2
  · rw [List.forall₂_map_left_iff, List.forall₂_same]
    exact fun x hx => readLexemeLine?_lexemeFields (h x hx).1

/-! ## Runs -/

theorem run_printLexemes (dir : Directory) (output : String) (failure : Option NoMatch)
    (xs : List Lexeme) :
    (printLexemes failure xs).run dir output =
      ⟨if failure.isNone then 0 else 1, output ++ String.join (xs.map lexemeLine), dir.files⟩ := by
  induction xs generalizing output with
  | nil =>
    cases failure with
    | none => simp [printLexemes, Script.run]
    | some e => simp [printLexemes, Script.run]
  | cons x xs ih =>
    rw [printLexemes, Script.run, ih, List.map_cons, String.join_cons, String.append_assoc]

theorem run_lex {dir : Directory} {args : LexArgs} {source input : String} {table : Table}
    (hsource : dir.read? args.table = some source) (htable : Table.parse source = .ok table)
    (hinput : dir.inputText? args.input = some input) :
    (lex args).run dir "" = (lexText table input).run dir "" := by
  rw [lex, readText, Script.run, hsource]
  dsimp only
  rw [htable]
  dsimp only
  cases hargs : args.input with
  | some path =>
    rw [hargs, Directory.inputText?] at hinput
    dsimp only
    rw [readText, Script.run, hinput]
  | none =>
    rw [hargs, Directory.inputText?] at hinput
    dsimp only
    rw [Script.run, hinput]

/-- Lexing prints a line for each lexeme up to the end or the first failure, and fails exactly if there
is a failure. The lines show the lexemes exactly if no token name among them has a tab or a newline. -/
theorem lex_shows_iff (dir : Directory) (args : LexArgs) {source input : String} {table : Table}
    {xs : List Lexeme} {failure : Option NoMatch} (hsource : dir.read? args.table = some source)
    (htable : Table.parse source = .ok table) (hinput : dir.inputText? args.input = some input)
    (hlexemes : (Lexer.new table input.toList).lexemes = (xs, failure)) :
    (lex args).run dir "" =
        ⟨if failure.isNone then 0 else 1, String.join (xs.map lexemeLine), dir.files⟩ ∧
      (Shows ((lex args).run dir "").output xs ↔
        ∀ x ∈ xs, '\t' ∉ x.token.toList ∧ '\n' ∉ x.token.toList) := by
  have hrun : (lex args).run dir "" =
      ⟨if failure.isNone then 0 else 1, String.join (xs.map lexemeLine), dir.files⟩ := by
    rw [run_lex hsource htable hinput, lexText, hlexemes, run_printLexemes, String.empty_append]
  refine ⟨hrun, ?_⟩
  rw [hrun]
  exact shows_lexemeLines_iff

/-- Two newlines under the token name `A B\` are printed and shown before an `x` that no automaton
accepts. -/
theorem lex_shows_iff_newlines :
    let dir : Directory :=
      ⟨[("t", "A B\\\\\n\\n\n2\n0\n1\n0,'\\n',1\n".toUTF8)], "\n\nx".toUTF8⟩
    ∃ source table xs, dir.read? "t" = some source ∧ Table.parse source = .ok table ∧
      dir.inputText? none = some "\n\nx" ∧
      (Lexer.new table "\n\nx".toList).lexemes = (xs, some ⟨2⟩) ∧
      (lex ⟨"t", none⟩).run dir "" = ⟨1, "A B\\\t\\n\nA B\\\t\\n\n", dir.files⟩ ∧
      Shows ((lex ⟨"t", none⟩).run dir "").output xs := by
  intro dir
  have hsource : dir.read? "t" = some "A B\\\\\n\\n\n2\n0\n1\n0,'\\n',1\n" := by cbv
  have hinput : dir.inputText? none = some "\n\nx" := by cbv
  have hlex : (Table.parse "A B\\\\\n\\n\n2\n0\n1\n0,'\\n',1\n").map
      (fun table => (Lexer.new table "\n\nx".toList).lexemes) =
        .ok ([⟨"A B\\", ['\n'], 0, 1⟩, ⟨"A B\\", ['\n'], 1, 2⟩], some ⟨2⟩) := by cbv
  obtain ⟨table, htable, hlexemes⟩ := map_eq_ok_iff.mp hlex
  obtain ⟨hrun, hshows⟩ := lex_shows_iff dir ⟨"t", none⟩ hsource htable hinput hlexemes
  exact ⟨_, table, _, hsource, htable, hinput, hlexemes, hrun, hshows.mpr (by simp)⟩

/-- A token name with a newline is read from its table, but printed it makes two lines of one lexeme. -/
theorem lex_hides_newline_in_token :
    let dir : Directory :=
      ⟨[("t", "t\\nu\na\n2\n0\n1\n0,'a',1\n".toUTF8), ("i", "a".toUTF8)], .empty⟩
    ∃ source table, dir.read? "t" = some source ∧ Table.parse source = .ok table ∧
      dir.inputText? (some "i") = some "a" ∧
      (Lexer.new table "a".toList).lexemes = ([⟨"t\nu", ['a'], 0, 1⟩], none) ∧
      (lex ⟨"t", some "i"⟩).run dir "" = ⟨0, "t\nu\ta\n", dir.files⟩ ∧
      ¬ Shows "t\nu\ta\n" [⟨"t\nu", ['a'], 0, 1⟩] := by
  intro dir
  have hsource : dir.read? "t" = some "t\\nu\na\n2\n0\n1\n0,'a',1\n" := by cbv
  have hinput : dir.inputText? (some "i") = some "a" := by cbv
  have hlex : (Table.parse "t\\nu\na\n2\n0\n1\n0,'a',1\n").map
      (fun table => (Lexer.new table "a".toList).lexemes) =
        .ok ([⟨"t\nu", ['a'], 0, 1⟩], none) := by cbv
  obtain ⟨table, htable, hlexemes⟩ := map_eq_ok_iff.mp hlex
  have hrun : (lex ⟨"t", some "i"⟩).run dir "" = ⟨0, "t\nu\ta\n", dir.files⟩ := by cbv
  refine ⟨_, table, hsource, htable, hinput, hlexemes, hrun, fun hshows => ?_⟩
  exact absurd (hshows.not_mem_token _ (List.mem_singleton_self _)).2 (by decide)

end Cli

end LexGen
