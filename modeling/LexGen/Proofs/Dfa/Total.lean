-- SUMMARY: Steps until no input is left against the total transition function: giving up the input in a gap changes no answer.
import Mathlib
import LexGen.Proofs.Dfa.Sinks
import LexGen.Proofs.State.Names

/-! # Giving up the input

A step in a gap of the table goes to the trap and gives up the rest of the input. Made total, the
transition function goes to the trap as well, but reads on from there. The two part only at the
trap, and behind it neither can come to an accepting state any more. This holds of states by their
numbers and by their names alike, so it is shown once, for any kind of states. -/

namespace LexGen

/-! ## Steps until no input is left -/

/-- Steps from a configuration are taken until no input is left: so many, and they end in the last
state. -/
inductive Exhausts {σ : Type} (step : σ → List Char → σ × List Char) :
    σ → List Char → Nat → σ → Prop where
  | stop (q : σ) : Exhausts step q [] 0 q
  | more {q p r : σ} {c : Char} {w rest : List Char} {n : Nat}
      (hstep : step q (c :: w) = (p, rest)) (h : Exhausts step p rest n r) :
      Exhausts step q (c :: w) (n + 1) r

section

variable {σ : Type} {step : σ → List Char → σ × List Char} {get? : σ → Char → Option σ} {trap : σ}
  {Dead : σ → Prop}

theorem dead_foldl (hdead : ∀ q c, Dead q → Dead ((get? q c).getD trap)) {q : σ} (hq : Dead q)
    (w : List Char) : Dead (w.foldl (fun q c => (get? q c).getD trap) q) := by
  induction w generalizing q with
  | nil => exact hq
  | cons c w ih => exact ih (hdead q c hq)

/-- The steps end in the state in which the total function ends, or both end in dead states. -/
theorem exists_exhausts
    (hstep : ∀ q c w, step q (c :: w) = ((get? q c).elim (trap, []) fun p => (p, w)))
    (htrap : Dead trap) (hdead : ∀ q c, Dead q → Dead ((get? q c).getD trap))
    (q : σ) (w : List Char) :
    ∃ n p, Exhausts step q w n p ∧ n ≤ w.length ∧
      (p = w.foldl (fun q c => (get? q c).getD trap) q ∨
        Dead p ∧ Dead (w.foldl (fun q c => (get? q c).getD trap) q)) := by
  induction w generalizing q with
  | nil => exact ⟨0, q, .stop q, Nat.le_refl 0, .inl rfl⟩
  | cons c w ih =>
    have hfirst := hstep q c w
    rw [List.foldl_cons]
    cases hget : get? q c with
    | none =>
      rw [hget] at hfirst
      exact ⟨1, trap, .more hfirst (.stop trap), Nat.succ_le_succ (Nat.zero_le _),
        .inr ⟨htrap, dead_foldl hdead htrap w⟩⟩
    | some p =>
      rw [hget] at hfirst
      obtain ⟨n, r, hr, hn, hend⟩ := ih p
      exact ⟨n + 1, r, .more hfirst hr, Nat.succ_le_succ hn, hend⟩

end

namespace Dfa

variable {d : Dfa} {p q n : Nat} {s : State} {c : Char} {w : List Char}

/-! ## States by their numbers -/

/-- The transition function made total: a gap leads to the trap. -/
def total (d : Dfa) (q : Nat) (c : Char) : Nat :=
  (d.get? q c).getD d.trap

theorem step_cons (d : Dfa) (q : Nat) (c : Char) (w : List Char) :
    d.step q (c :: w) = (d.get? q c).elim (d.trap, []) fun p => (p, w) := by
  rw [step]
  cases d.get? q c <;> rfl

theorem eq_run_of_exhausts (h : Exhausts d.step q w n p) : p = d.run q w := by
  induction h with
  | stop q => rfl
  | @more q p r c w rest n hstep h ih =>
    rw [step_cons] at hstep
    rw [run]
    cases hget : d.get? q c with
    | none =>
      rw [hget] at hstep
      obtain ⟨rfl, rfl⟩ := Prod.mk.inj hstep
      exact ih
    | some p' =>
      rw [hget] at hstep
      obtain ⟨rfl, rfl⟩ := Prod.mk.inj hstep
      exact ih

theorem WellFormed.isSink_total (hd : d.WellFormed) (q : Nat) (c : Char) (h : d.isSink q = true) :
    d.isSink (d.total q c) = true := by
  rw [total]
  cases hget : d.get? q c with
  | none => exact d.isSink_trap
  | some p => exact hd.isSink_of_get? h hget

theorem WellFormed.exhausts_step (hd : d.WellFormed) (q : Nat) (w : List Char) :
    ∃ n p, Exhausts d.step q w n p ∧ n ≤ w.length ∧
      d.isAccepting p = d.isAccepting (w.foldl d.total q) := by
  obtain ⟨n, p, hp, hn, hend⟩ :=
    exists_exhausts d.step_cons d.isSink_trap hd.isSink_total q w
  refine ⟨n, p, hp, hn, ?_⟩
  rcases hend with heq | ⟨hp, htotal⟩
  · rw [heq]
    rfl
  · exact (hd.isAccepting_of_isSink hp).trans (hd.isAccepting_of_isSink htotal).symm

/-! ## States by their names -/

/-- The transition function on names made total: a gap leads to the trap. -/
def totalNamed (d : Dfa) (s : State) (c : Char) : State :=
  (d.getNamed? s c).getD (d.stateAt d.trap)

theorem stepNamed_cons (d : Dfa) (s : State) (c : Char) (w : List Char) :
    d.stepNamed s (c :: w) = (d.getNamed? s c).elim (d.stateAt d.trap, []) fun t => (t, w) := by
  rw [stepNamed]
  cases d.getNamed? s c <;> rfl

/-- The state with the given name, if there is one, is a sink. -/
def DeadNamed (d : Dfa) (s : State) : Prop :=
  ∀ q, d.find? s = some q → d.isSink q = true

theorem deadNamed_stateAt (h : d.isSink q = true) : d.DeadNamed (d.stateAt q) := by
  intro p hp
  rw [eq_of_find?_stateAt hp]
  exact h

theorem WellFormed.deadNamed_totalNamed (hd : d.WellFormed) (s : State) (c : Char)
    (h : d.DeadNamed s) : d.DeadNamed (d.totalNamed s c) := by
  rw [totalNamed]
  cases hget : d.getNamed? s c with
  | none => exact deadNamed_stateAt d.isSink_trap
  | some t =>
    obtain ⟨p, hp, rfl⟩ := Option.map_eq_some_iff.mp hget
    obtain ⟨q, hq, hp⟩ := Option.bind_eq_some_iff.mp hp
    exact deadNamed_stateAt (hd.isSink_of_get? (h q hq) hp)

theorem WellFormed.isAcceptingNamed_of_deadNamed (hd : d.WellFormed) (h : d.DeadNamed s) :
    d.isAcceptingNamed s = false := by
  rw [isAcceptingNamed]
  cases hq : d.find? s with
  | none => rfl
  | some q => exact hd.isAccepting_of_isSink (h q hq)

theorem WellFormed.exhausts_stepNamed (hd : d.WellFormed) (s : State) (w : List Char) :
    ∃ n t, Exhausts d.stepNamed s w n t ∧ n ≤ w.length ∧
      d.isAcceptingNamed t = d.isAcceptingNamed (w.foldl d.totalNamed s) := by
  obtain ⟨n, t, ht, hn, hend⟩ :=
    exists_exhausts d.stepNamed_cons (deadNamed_stateAt d.isSink_trap) hd.deadNamed_totalNamed s w
  refine ⟨n, t, ht, hn, ?_⟩
  rcases hend with heq | ⟨ht, htotal⟩
  · rw [heq]
    rfl
  · exact (hd.isAcceptingNamed_of_deadNamed ht).trans
      (hd.isAcceptingNamed_of_deadNamed htotal).symm

/-! ## Every automaton -/

/-- From every state, by its number or its name, the steps over a word run out of input after no more
steps than the word has characters, and end in an accepting state exactly if the total transition
function does. So a word is accepted exactly if the total function accepts it. -/
theorem Public.exhausts_total (hd : d.Public) :
    (∀ q w, ∃ n p, Exhausts d.step q w n p ∧ n ≤ w.length ∧
      d.isAccepting p = d.isAccepting (w.foldl d.total q)) ∧
    (∀ s w, ∃ n t, Exhausts d.stepNamed s w n t ∧ n ≤ w.length ∧
      d.isAcceptingNamed t = d.isAcceptingNamed (w.foldl d.totalNamed s)) ∧
    ∀ w, d.accept w = d.isAccepting (w.foldl d.total d.start) := by
  have hwf := hd.wellFormed
  refine ⟨hwf.exhausts_step, hwf.exhausts_stepNamed, fun w => ?_⟩
  obtain ⟨n, p, hp, _, haccept⟩ := hwf.exhausts_step d.start w
  rw [accept, ← eq_run_of_exhausts hp, haccept]

/-- In an automaton read from a table, the gap at `0` leads to the sink `2`, where the steps end. The
total function reads on from there and ends in the sink `3`. -/
theorem Public.exhausts_total_behind_gap :
    ∃ d : Dfa, d.Public ∧ d.get? 0 'b' = none ∧ d.trap = 2 ∧ ['b', 'a'].foldl d.total 0 = 3 ∧
      (∃ n p, Exhausts d.step 0 ['b', 'a'] n p ∧ n ≤ 2 ∧ d.isAccepting p = d.isAccepting 3) ∧
      d.accept ['b', 'a'] = d.isAccepting (['b', 'a'].foldl d.total d.start) := by
  have hread : (Table.parse "T\nab\n4\n0\n1\n0,'a',1\n2,'a',3\n").map
      (·.map fun d => (d.get? 0 'b', d.trap, ['b', 'a'].foldl d.total 0)) = .ok [(none, 2, 3)] := by
    cbv
  obtain ⟨table, hparse, htable⟩ := map_eq_ok_iff.mp hread
  obtain ⟨d, rfl, hd⟩ := List.map_eq_singleton_iff.mp htable
  obtain ⟨hgap, htrap, htotal⟩ : d.get? 0 'b' = none ∧ d.trap = 2 ∧
      ['b', 'a'].foldl d.total 0 = 3 := by simpa using hd
  have hpublic : d.Public := .read hparse (List.mem_singleton_self d)
  obtain ⟨hsteps, _, haccept⟩ := hpublic.exhausts_total
  have hend := hsteps 0 ['b', 'a']
  rw [htotal] at hend
  exact ⟨d, hpublic, hgap, htrap, htotal, hend, haccept _⟩

end Dfa

end LexGen
