-- SUMMARY: What one call of a lexer can do, and how the lexemes of a whole run divide the input.
import Mathlib.Tactic.Common
import LexGen.Lexer

/-! # Runs of a lexer

A call of `next` takes a nonempty part off the front of the rest, or fails, or finds that lexing has
ended. So the lexemes of a run tile the input from its first byte on, and what is left behind them is
the rest. None of this depends on the automata. -/

namespace LexGen

/-! ## Byte positions -/

/-- The text in front of byte position `n` and the text from there on; none if the position is inside
a character or behind the end. -/
def splitAtByte? (n : Nat) : List Char → Option (List Char × List Char)
  | [] => if n = 0 then some ([], []) else none
  | c :: text =>
    if n = 0 then some ([], c :: text)
    else if n < c.utf8Size then none
    else (splitAtByte? (n - c.utf8Size) text).map fun (u, v) => (c :: u, v)

/-- The text between two byte positions, if both are between characters. -/
def slice? (start stop : Nat) (text : List Char) : Option (List Char) :=
  if stop < start then none
  else (splitAtByte? start text).bind fun (_, behind) =>
    (splitAtByte? (stop - start) behind).map (·.1)

theorem byteLength_append (u v : List Char) : byteLength (u ++ v) = byteLength u + byteLength v := by
  induction u with
  | nil => simp [byteLength]
  | cons c u ih => simp [byteLength, ih, Nat.add_assoc]

theorem splitAtByte?_append (u v : List Char) : splitAtByte? (byteLength u) (u ++ v) = some (u, v) := by
  induction u with
  | nil =>
    cases v with
    | nil => rfl
    | cons c v => rfl
  | cons c u ih =>
    have hsize : 0 < c.utf8Size := c.utf8Size_pos
    rw [List.cons_append, splitAtByte?, byteLength, if_neg (by omega), if_neg (by omega),
      Nat.add_sub_cancel_left, ih]
    rfl

theorem slice?_append (u text v : List Char) :
    slice? (byteLength u) (byteLength u + byteLength text) (u ++ (text ++ v)) = some text := by
  rw [slice?, if_neg (by omega), splitAtByte?_append, Option.bind_some]
  dsimp only
  rw [Nat.add_sub_cancel_left, splitAtByte?_append]
  rfl

/-- The lexemes are not empty and lie in the input one behind the other, from byte `start` to byte
`stop`. -/
inductive Tiles (input : List Char) : Nat → List Lexeme → Nat → Prop where
  | nil (start : Nat) : Tiles input start [] start
  | cons {x : Lexeme} {xs : List Lexeme} {stop : Nat} (htext : x.text ≠ [])
      (hslice : slice? x.start x.stop input = some x.text) (hrest : Tiles input x.stop xs stop) :
      Tiles input x.start (x :: xs) stop

namespace Lexer

/-! ## One call -/

/-- The lexer `l'` is what `l` becomes behind a lexeme at the front of its rest. -/
structure Takes (l : Lexer) (x : Lexeme) (l' : Lexer) : Prop where
  text_ne_nil : x.text ≠ []
  rest_eq : l.rest = x.text ++ l'.rest
  start_eq : x.start = l.position
  stop_eq : x.stop = l'.position
  position_eq : l'.position = l.position + byteLength x.text
  dfas_eq : l'.dfas = l.dfas
  not_failed : l'.failed = false
  longest : ∃ d, longest? l.rest l.dfas = some (d, x.text) ∧ x.token = d.token

/-- What a call of `next` can answer, and the lexer behind it. -/
inductive Step : Lexer → Option (Except NoMatch Lexeme) → Lexer → Prop where
  | ended {l : Lexer} (h : l.failed = true ∨ l.rest = []) : Step l none l
  | stuck {l : Lexer} (hfailed : l.failed = false) (hrest : l.rest ≠ [])
      (hlongest : longest? l.rest l.dfas = none) :
      Step l (some (.error ⟨l.position⟩)) { l with failed := true }
  | lexeme {l l' : Lexer} {x : Lexeme} (hfailed : l.failed = false) (htakes : l.Takes x l') :
      Step l (some (.ok x)) l'

theorem prefix_of_longest? {text best : List Char} {ds : Table} {d : Dfa}
    (h : longest? text ds = some (d, best)) : best <+: text := by
  have hown : ∀ d : Dfa, (d.longest text).text <+: text := by
    intro d
    unfold Dfa.longest
    split
    · exact List.nil_prefix
    · exact List.take_prefix _ _
  induction ds generalizing d best with
  | nil => cases h
  | cons d' ds ih =>
    unfold longest? at h
    dsimp only at h
    split at h
    · rename_i hrest
      split at h
      · cases h
        exact hown d'
      · cases h
        exact ih hrest
    · split at h
      · cases h
      · cases h
        exact hown d'

theorem step_next (l : Lexer) : l.Step l.next.1 l.next.2 := by
  unfold next
  split
  · rename_i hended
    refine .ended ?_
    simpa using hended
  · rename_i hgoing
    obtain ⟨hfailed, hrest⟩ : l.failed = false ∧ l.rest ≠ [] := by simpa using hgoing
    split
    · exact .stuck hfailed hrest ‹_›
    · rename_i d text hlongest
      have htext := List.length_pos_iff.mp (length_pos_of_longest? hlongest)
      obtain ⟨rest, hsplit⟩ := prefix_of_longest? hlongest
      have hdrop : l.rest.drop text.length = rest := by rw [← hsplit, List.drop_left]
      dsimp only
      rw [hdrop]
      exact .lexeme hfailed ⟨htext, hsplit.symm, rfl, rfl, rfl, rfl, hfailed, d, hlongest, rfl⟩

theorem step_of_next {l l' : Lexer} {answer : Option (Except NoMatch Lexeme)}
    (h : l.next = (answer, l')) : l.Step answer l' := by
  have hstep := l.step_next
  rwa [h] at hstep

/-! ## Calls in a row -/

/-- The lexer behind `n` calls. -/
def after : Lexer → Nat → Lexer
  | l, 0 => l
  | l, n + 1 => after l.next.2 n

/-- The lexemes that calls answer up to the end or to a failure, and the failure. -/
inductive Run : Lexer → List Lexeme → Option NoMatch → Prop where
  | ended {l l' : Lexer} (h : l.next = (none, l')) : Run l [] none
  | stuck {l l' : Lexer} {e : NoMatch} (h : l.next = (some (.error e), l')) : Run l [] (some e)
  | lexeme {l l' : Lexer} {x : Lexeme} {xs : List Lexeme} {failure : Option NoMatch}
      (h : l.next = (some (.ok x), l')) (hrun : Run l' xs failure) : Run l (x :: xs) failure

theorem run_lexemes (l : Lexer) : l.Run l.lexemes.1 l.lexemes.2 := by
  fun_induction lexemes l with
  | case1 l l' h => exact .ended h
  | case2 l e l' h => exact .stuck h
  | case3 l x l' h rest failure hrest ih =>
    rw [hrest] at ih
    exact .lexeme h ih

variable {l l' : Lexer} {xs : List Lexeme} {failure : Option NoMatch}

theorem after_of_ended (h : l.next = (none, l)) (n : Nat) : l.after n = l := by
  induction n with
  | zero => rfl
  | succ n ih => rw [after, h, ih]

theorem next_of_failed (h : l.failed = true) : l.next = (none, l) := by
  simp [next, h]

namespace Run

/-- Calls answer the lexemes in order, then the failure, and then nothing for ever. -/
theorem answers (h : Run l xs failure) (n : Nat) :
    (l.after n).next.1 = (xs.map .ok ++ failure.toList.map .error)[n]? := by
  induction h generalizing n with
  | @ended l l' h =>
    cases step_of_next h with
    | ended _ => simp [after_of_ended h, h]
  | @stuck l l' e h =>
    cases n with
    | zero => simp [after, h]
    | succ n =>
      cases step_of_next h with
      | stuck _ _ _ =>
        have hended : ({ l with failed := true } : Lexer).next = (none, { l with failed := true }) :=
          next_of_failed rfl
        simp [after, h, after_of_ended hended, hended]
  | lexeme h _ ih =>
    cases n with
    | zero => simp [after, h]
    | succ n => simpa [after, h] using ih n

/-- Each call but the last takes a character off the rest. -/
theorem length_le (h : Run l xs failure) :
    xs.length + failure.toList.length ≤ l.rest.length + 1 := by
  induction h with
  | ended _ => simp
  | stuck _ => simp
  | lexeme h _ ih =>
    cases step_of_next h with
    | lexeme _ htakes =>
      have hpos := List.length_pos_iff.mpr htakes.text_ne_nil
      rw [htakes.rest_eq, List.length_append, List.length_cons]
      omega

/-- The lexemes of the first calls and the rest behind these put the rest together again. -/
theorem rest_eq (h : Run l xs failure) (n : Nat) :
    l.rest = (xs.take n).flatMap (·.text) ++ (l.after n).rest := by
  induction h generalizing n with
  | ended h =>
    cases step_of_next h with
    | ended _ => simp [after_of_ended h]
  | stuck h =>
    cases n with
    | zero => rfl
    | succ n =>
      cases step_of_next h with
      | stuck _ _ _ => simp [after, h, after_of_ended (next_of_failed _)]
  | lexeme h _ ih =>
    cases n with
    | zero => rfl
    | succ n =>
      cases step_of_next h with
      | lexeme _ htakes =>
        rw [htakes.rest_eq, after, h, List.take_succ_cons, List.flatMap_cons, List.append_assoc,
          ← ih n]

/-- Behind the part of the input that was read before, the lexemes tile the part that they make
up. -/
theorem tiles (h : Run l xs failure) {done : List Char} (hdone : l.position = byteLength done)
    (n : Nat) :
    Tiles (done ++ l.rest) l.position (xs.take n)
      (l.position + byteLength ((xs.take n).flatMap (·.text))) := by
  induction h generalizing done n with
  | ended _ => simpa [byteLength] using Tiles.nil _
  | stuck _ => simpa [byteLength] using Tiles.nil _
  | @lexeme l l' x xs failure h _ ih =>
    cases n with
    | zero => simpa [byteLength] using Tiles.nil _
    | succ n =>
      cases step_of_next h with
      | lexeme _ htakes =>
        have hdone' : l'.position = byteLength (done ++ x.text) := by
          rw [htakes.position_eq, hdone, byteLength_append]
        have hslice : slice? x.start x.stop (done ++ l.rest) = some x.text := by
          rw [htakes.start_eq, htakes.stop_eq, htakes.position_eq, hdone, htakes.rest_eq]
          exact slice?_append done x.text l'.rest
        have hstop : l'.position + byteLength ((xs.take n).flatMap (·.text)) =
            l.position + byteLength (((x :: xs).take (n + 1)).flatMap (·.text)) := by
          rw [htakes.position_eq, List.take_succ_cons, List.flatMap_cons, byteLength_append,
            Nat.add_assoc]
        have hgo := ih hdone' n
        rw [List.append_assoc, ← htakes.rest_eq, ← htakes.stop_eq] at hgo
        rw [← hstop, ← htakes.start_eq, ← htakes.stop_eq]
        exact .cons htakes.text_ne_nil hslice hgo

/-- Without a failure nothing is left. -/
theorem rest_eq_nil (h : Run l xs none) (hfailed : l.failed = false) :
    l.rest = xs.flatMap (·.text) := by
  generalize hnone : (none : Option NoMatch) = failure at h
  induction h with
  | ended h =>
    cases step_of_next h with
    | ended hend => simpa [hfailed] using hend
  | stuck _ => cases hnone
  | lexeme h _ ih =>
    cases step_of_next h with
    | lexeme _ htakes => rw [htakes.rest_eq, ih htakes.not_failed hnone, List.flatMap_cons]

/-- A failure happens where the last lexeme ends. -/
theorem position_eq {e : NoMatch} (h : Run l xs (some e)) :
    e.position = l.position + byteLength (xs.flatMap (·.text)) := by
  generalize hsome : some e = failure at h
  induction h with
  | ended _ => cases hsome
  | stuck h =>
    cases hsome
    cases step_of_next h with
    | stuck _ _ _ => rfl
  | lexeme h _ ih =>
    cases step_of_next h with
    | lexeme _ htakes =>
      rw [ih hsome, htakes.position_eq, List.flatMap_cons, byteLength_append, Nat.add_assoc]

end Run

/-! ## Whole runs -/

/-- How the lexemes and the failure of a lexer divide its input. -/
structure Divides (l : Lexer) (input : List Char) (xs : List Lexeme) (failure : Option NoMatch) :
    Prop where
  /-- Calls answer the lexemes in order, then the failure, and then nothing for ever. -/
  answers : ∀ n, (l.after n).next.1 = (xs.map .ok ++ failure.toList.map .error)[n]?
  length_le : xs.length + failure.toList.length ≤ input.length + 1
  /-- Behind each call, the input is cut where the last lexeme ends. -/
  tiles : ∀ n, ∃ stop, Tiles input 0 (xs.take n) stop ∧
    splitAtByte? stop input = some ((xs.take n).flatMap (·.text), (l.after n).rest)
  complete : failure = none → Tiles input 0 xs (byteLength input)
  stuck : ∀ e, failure = some e → Tiles input 0 xs e.position

/-- Lexemes tile the input, up to its end or to the position of the only failure. -/
theorem divides_lexemes (dfas : Table) (input : List Char) :
    (new dfas input).Divides input (new dfas input).lexemes.1 (new dfas input).lexemes.2 := by
  have hrun := (new dfas input).run_lexemes
  have hstart : (new dfas input).position = byteLength [] := rfl
  have htiles := hrun.tiles hstart
  have hall := htiles (new dfas input).lexemes.1.length
  rw [List.take_length] at hall
  refine ⟨hrun.answers, hrun.length_le, fun n => ⟨_, htiles n, ?_⟩, fun hnone => ?_, fun e he => ?_⟩
  · have hsplit := splitAtByte?_append (((new dfas input).lexemes.1.take n).flatMap (·.text))
      ((new dfas input).after n).rest
    rw [← hrun.rest_eq n] at hsplit
    simpa [new] using hsplit
  · rw [hnone] at hrun
    rw [← hrun.rest_eq_nil rfl] at hall
    simpa [new] using hall
  · rw [he] at hrun
    rw [hrun.position_eq]
    exact hall

end Lexer

end LexGen
