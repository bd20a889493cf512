-- SUMMARY: What the builders of automata assert, and the automaton put together from its parts under these assertions.
import LexGen.Proofs.Results
import LexGen.Proofs.State.Names
import LexGen.Table.Reader

/-! # Automata from parts

The builders of automata check what they rely on and give up if a check fails. A violation names the
check. The parts of a deterministic automaton are sets and maps over named states; they make an
automaton only if the start state, the accepting states and both ends of each transition belong to
the states, and the states are then numbered in their order. -/

namespace LexGen

/-! ## Violations -/

/-- A check that failed. -/
inductive Violation where
  /-- An index behind the last slot of the layout. -/
  | noSlot (id : Nat)
  /-- A slot whose number of operands is not that of its operator. -/
  | operandCount (operator : String)
  /-- The last state of a block without states. -/
  | emptyBlock
  /-- An edge of the nondeterministic automaton that does not start at one of its states. -/
  | nfaSource (q : Nat)
  | nfaTarget (q : Nat)
  | nfaAccepting (q : Nat)
  /-- A walk that starts with nodes left over from the one before. -/
  | leftOver
  /-- A composed state without members. -/
  | noMembers
  /-- An index behind the last state that was found. -/
  | noVertex (id : Nat)
  /-- A state that was found and is not composed. -/
  | notComposed (id : Nat)
  /-- A second transition from a state on the same symbol. -/
  | repeated (id : Nat) (c : Char)
  /-- A start state that is none of the states of the deterministic automaton. -/
  | dfaStart (s : State)
  | dfaAccepting (s : State)
  | dfaSource (s : State)
  | dfaTarget (s : State)

/-! ## Parts -/

/-- The parts of a deterministic automaton. -/
structure Dfa.Parts where
  token : String
  states : List State
  alphabet : List Char
  start : State
  delta : List (Edge State Char)
  accepting : List State
  sinks : List State
  trap? : Option State

namespace Dfa.Parts

/-- The place of a state among the states, or the first number that is none. -/
def position (x : Parts) (s : State) : Nat :=
  x.states.findIdx (· == s)

/-- The transition between the places of two states. -/
def positions (x : Parts) (e : Edge State Char) : Edge Nat Char :=
  ⟨x.position e.source, e.label, x.position e.target⟩

/-- The trap: the one given, or else the first sink, or else a state outside. -/
def trap (x : Parts) : State :=
  (x.trap?.or x.sinks.head?).getD (.ofLabel State.sinkLabel)

/-- The automaton of the parts. -/
def dfa (x : Parts) : Dfa where
  toAutomaton := .ofEdges x.alphabet x.states.length (x.position x.start)
    (x.accepting.map x.position) (x.delta.map x.positions)
  token := x.token
  sinks := x.sinks.map x.position
  trap := x.position x.trap
  trapLabelled := x.trap == .ofLabel State.sinkLabel

/-- Checks both ends of a transition. -/
def checkEdge (x : Parts) (e : Edge State Char) : Except Violation Unit :=
  if !x.states.contains e.source then .error (.dfaSource e.source)
  else if !x.states.contains e.target then .error (.dfaTarget e.target)
  else .ok ()

/-- The automaton of the parts, if they belong together. -/
def build (x : Parts) : Except Violation Dfa := do
  if !x.states.contains x.start then throw (.dfaStart x.start)
  if let some s := x.accepting.find? (!x.states.contains ·) then throw (.dfaAccepting s)
  x.delta.forM x.checkEdge
  return x.dfa

/-- All states that occur in the parts belong to the states. -/
structure Closed (x : Parts) : Prop where
  start : x.states.contains x.start = true
  accepting : ∀ s ∈ x.accepting, x.states.contains s = true
  source : ∀ e ∈ x.delta, x.states.contains e.source = true
  target : ∀ e ∈ x.delta, x.states.contains e.target = true

variable {x : Parts}

theorem checkEdge_eq_ok {e : Edge State Char} :
    x.checkEdge e = .ok () ↔
      x.states.contains e.source = true ∧ x.states.contains e.target = true := by
  unfold checkEdge
  cases x.states.contains e.source <;> cases x.states.contains e.target <;> simp

/-- The checks fail exactly on parts that do not belong together. -/
theorem build_eq_ok {d : Dfa} : x.build = .ok d ↔ x.Closed ∧ x.dfa = d := by
  have hclosed : x.Closed ↔ x.states.contains x.start = true ∧
      x.accepting.find? (!x.states.contains ·) = none ∧ x.delta.forM x.checkEdge = .ok () := by
    rw [forM_eq_ok]
    simp only [checkEdge_eq_ok, List.find?_eq_none, Bool.not_eq_true, Bool.not_eq_false']
    constructor
    · exact fun h => ⟨h.start, h.accepting, fun e he => ⟨h.source e he, h.target e he⟩⟩
    · exact fun ⟨hstart, haccepting, hdelta⟩ =>
        ⟨hstart, haccepting, fun e he => (hdelta e he).1, fun e he => (hdelta e he).2⟩
  rw [hclosed]
  unfold build
  cases hstart : x.states.contains x.start with
  | false => simp [bind, Except.bind, throw, throwThe, MonadExceptOf.throw]
  | true =>
    cases haccepting : x.accepting.find? (!x.states.contains ·) with
    | some s => simp [bind, Except.bind, throw, throwThe, MonadExceptOf.throw]
    | none =>
      cases hdelta : x.delta.forM x.checkEdge with
      | error v => simp [bind, Except.bind]
      | ok u => simp [bind, Except.bind, pure, Except.pure]

/-! ## Numbered states -/

/-- The transition between the states labelled with two numbers. -/
def numberedEdge (e : Edge Nat Char) : Edge State Char :=
  ⟨.numbered e.source, e.label, .numbered e.target⟩

variable {count : Nat} {rest : List State}

theorem contains_numbered (h : x.states = (List.range count).map .numbered ++ rest) {q : Nat}
    (hq : q < count) : x.states.contains (.numbered q) = true := by
  rw [h, List.contains_iff_exists_mem_beq]
  refine ⟨.numbered q, ?_, (State.numbered_beq_numbered q q).trans (decide_eq_true rfl)⟩
  exact List.mem_append_left _ (List.mem_map.mpr ⟨q, List.mem_range.mpr hq, rfl⟩)

theorem position_numbered (h : x.states = (List.range count).map .numbered ++ rest) {q : Nat}
    (hq : q < count) : x.position (.numbered q) = q := by
  have hlt : q < x.states.length := by
    rw [h, List.length_append, List.length_map, List.length_range]
    omega
  have hget : ∀ (j : Nat) (hj : j < count) (hlt : j < x.states.length),
      x.states[j] = .numbered j := by
    intro j hj hlt
    simp [h, hj]
  rw [position, List.findIdx_eq hlt]
  refine ⟨?_, fun j hj => ?_⟩
  · rw [hget q hq hlt, State.numbered_beq_numbered]
    simp
  · rw [hget j (by omega), State.numbered_beq_numbered]
    simp
    omega

theorem map_position_numbered (h : x.states = (List.range count).map .numbered ++ rest)
    {qs : List Nat} (hqs : ∀ q ∈ qs, q < count) :
    (qs.map State.numbered).map x.position = qs := by
  rw [List.map_map]
  exact (List.map_congr_left fun q hq => position_numbered h (hqs q hq)).trans (List.map_id _)

theorem map_positions_numberedEdge (h : x.states = (List.range count).map .numbered ++ rest)
    {es : List (Edge Nat Char)} (hes : ∀ e ∈ es, e.source < count ∧ e.target < count) :
    (es.map numberedEdge).map x.positions = es := by
  rw [List.map_map]
  refine (List.map_congr_left fun e he => ?_).trans (List.map_id _)
  obtain ⟨hsource, htarget⟩ := hes e he
  exact congrArg₂ (Edge.mk · e.label ·) (position_numbered h hsource) (position_numbered h htarget)

/-- A state labelled `S` comes behind the numbered ones. -/
theorem position_sink (h : x.states = (List.range count).map .numbered ++ rest)
    (ordinal : Option Nat) :
    x.position (.simple State.sinkLabel ordinal) =
      count + rest.findIdx (· == .simple State.sinkLabel ordinal) := by
  have hnot : ((List.range count).map State.numbered).findIdx
      (· == .simple State.sinkLabel ordinal) = count := by
    rw [List.findIdx_eq_length_of_false]
    · rw [List.length_map, List.length_range]
    · intro s hs
      obtain ⟨q, _, rfl⟩ := List.mem_map.mp hs
      exact State.numbered_beq_sink q ordinal
  rw [position, h, List.findIdx_append, hnot]
  simp [Nat.add_comm count]

end Dfa.Parts

end LexGen
