-- SUMMARY: The walk for the longest accepted beginning of a text, and what it answers.
import LexGen.Proofs.Dfa.Live

/-! # Longest beginnings

The walk carries two lengths: of the longest accepted beginning of the part it has read, and of that
part, which is always the beginning of some accepted word. When it stops in front of a sink, no
longer beginning is accepted or can be extended, so both lengths are those of the whole text. -/

namespace LexGen

/-- The longest beginning of `text` with the property `P`. -/
def LongestPrefix (P : List Char → Prop) (text p : List Char) : Prop :=
  p <+: text ∧ P p ∧ ∀ u, u <+: text → P u → u.length ≤ p.length

/-- The length of the longest nonempty beginning of `text` with the property `P`, or zero. -/
structure LongestLength (P : List Char → Prop) (text : List Char) (n : Nat) : Prop where
  le : n ≤ text.length
  holds : n ≠ 0 → P (text.take n)
  longest : ∀ u, u <+: text → P u → u.length ≤ n

namespace LongestLength

variable {P : List Char → Prop} {text done rest : List Char} {n : Nat}

theorem zero (P : List Char → Prop) : LongestLength P [] 0 :=
  ⟨Nat.le_refl 0, fun h => absurd rfl h, fun u hu _ => by simp [List.prefix_nil.mp hu]⟩

theorem length_take (h : LongestLength P text n) : (text.take n).length = n := by
  rw [List.length_take, Nat.min_eq_left h.le]

theorem le_of_take {k : Nat} (h : LongestLength P text n) (hk : k ≤ text.length)
    (hP : P (text.take k)) : k ≤ n := by
  have hlen := h.longest _ (List.take_prefix k text) hP
  rwa [List.length_take, Nat.min_eq_left hk] at hlen

theorem whole (h : P text) : LongestLength P text text.length := by
  refine ⟨Nat.le_refl _, fun _ => ?_, fun u hu _ => hu.length_le⟩
  rw [List.take_length]
  exact h

/-- Text behind the part read does not count if no beginning that reaches into it has the
property. -/
theorem append (h : LongestLength P done n)
    (hrest : ∀ u, u <+: rest → u ≠ [] → ¬ P (done ++ u)) : LongestLength P (done ++ rest) n := by
  refine ⟨?_, fun hn => ?_, fun u hu hPu => ?_⟩
  · have := h.le
    simp only [List.length_append]
    omega
  · rw [List.take_append_of_le_length h.le]
    exact h.holds hn
  · rcases prefix_append_cases hu with hu | ⟨v, rfl, hv⟩
    · exact h.longest u hu hPu
    · by_cases hempty : v = []
      · subst hempty
        exact h.longest _ (by simp) hPu
      · exact absurd hPu (hrest v hv hempty)

theorem snoc_of {c : Char} (h : P (done ++ [c])) :
    LongestLength P (done ++ [c]) (done.length + 1) := by
  have hwhole := whole h
  rwa [List.length_append, List.length_singleton] at hwhole

theorem snoc_of_not {c : Char} (h : LongestLength P done n) (hc : ¬ P (done ++ [c])) :
    LongestLength P (done ++ [c]) n := by
  refine h.append fun u hu hne => ?_
  obtain ⟨v, rfl, hv⟩ := (List.prefix_cons_iff.mp hu).resolve_left hne
  rw [List.prefix_nil.mp hv]
  exact hc

/-- The length determines the longest beginning with the property, if there is a nonempty one. -/
theorem longestPrefix_iff (h : LongestLength P text n) {p : List Char} (hp : p ≠ []) :
    LongestPrefix P text p ↔ n ≠ 0 ∧ text.take n = p := by
  refine ⟨fun ⟨hbegin, hPp, hmax⟩ => ?_, fun ⟨hn, htake⟩ => ?_⟩
  · have hlen := h.longest p hbegin hPp
    have hpos := List.length_pos_iff.mpr hp
    have hn : n ≠ 0 := by omega
    have htake := hmax _ (List.take_prefix n text) (h.holds hn)
    rw [h.length_take] at htake
    refine ⟨hn, ?_⟩
    rw [List.prefix_iff_eq_take.mp hbegin, Nat.le_antisymm hlen htake]
  · subst htake
    refine ⟨List.take_prefix n text, h.holds hn, fun u hu hPu => ?_⟩
    rw [h.length_take]
    exact h.longest u hu hPu

theorem eq_zero_iff (h : LongestLength P text n) :
    n = 0 ↔ ∀ u, u <+: text → u ≠ [] → ¬ P u := by
  refine ⟨fun hn u hu hne hPu => ?_, fun hnone => ?_⟩
  · have := h.longest u hu hPu
    exact hne (List.eq_nil_of_length_eq_zero (by omega))
  · by_contra hn
    refine hnone _ (List.take_prefix n text) (fun hnil => ?_) (h.holds hn)
    have hlen := congrArg List.length hnil
    rw [h.length_take] at hlen
    exact hn hlen

theorem unique {n' : Nat} (h : LongestLength P text n) (h' : LongestLength P text n') : n = n' := by
  have key : ∀ {n n'}, LongestLength P text n → LongestLength P text n' → n ≤ n' := by
    intro n n' h h'
    by_cases hn : n = 0
    · omega
    · exact h'.le_of_take h.le (h.holds hn)
  exact Nat.le_antisymm (key h h') (key h' h)

theorem exists_longestPrefix_iff (h : LongestLength P text n) {i : Nat} :
    (∃ u, LongestPrefix P text u ∧ u.length = i + 1) ↔ n = i + 1 := by
  refine ⟨fun ⟨u, hu, hui⟩ => ?_, fun hn => ?_⟩
  · have hne : u ≠ [] := List.ne_nil_of_length_eq_add_one hui
    obtain ⟨_, rfl⟩ := (h.longestPrefix_iff hne).mp hu
    rw [← h.length_take, hui]
  · have hlen : (text.take n).length = i + 1 := h.length_take.trans hn
    have hne : text.take n ≠ [] := List.ne_nil_of_length_eq_add_one hlen
    exact ⟨_, (h.longestPrefix_iff hne).mpr ⟨by omega, rfl⟩, hlen⟩

end LongestLength

namespace Dfa

/-! ## Answers -/

attribute [ext] Longest

theorem Longest.last?_eq_some {m : Longest} {i : Nat} : m.last? = some i ↔ m.read = i + 1 := by
  unfold last?
  split
  · simp [*]
  · rw [Option.some.injEq]
    omega

theorem Longest.last?_eq_none {m : Longest} : m.last? = none ↔ m.read = 0 := by
  unfold last?
  split
  · simp [*]
  · simp [*]

variable {d : Dfa} {q best : Nat} {done text : List Char}

/-! ## The walk -/

/-- Behind a character that leads into a sink, nothing can be extended to an accepted word. -/
theorem WellFormed.not_extendable (hd : d.WellFormed) {c : Char}
    (hq : d.follow? d.start done = some q) (hsink : d.isSink ((d.get? q c).getD d.trap) = true)
    {u : List Char} : ¬ d.Extendable (done ++ c :: u) := by
  intro h
  obtain ⟨p, hp, hlive⟩ := hd.extendable_iff.mp h
  rw [Automaton.follow?_append, hq, Option.bind_some, Automaton.follow?] at hp
  obtain ⟨r, hr, hp⟩ := Option.bind_eq_some_iff.mp hp
  exact hd.isSink_step.mp hsink r hr (hlive.of_follow? hp)

theorem extendable_of_accept (h : d.accept text = true) : d.Extendable text :=
  ⟨[], by rwa [List.append_nil]⟩

theorem walkFrom_lengths (hd : d.WellFormed) (hq : d.follow? d.start done = some q)
    (hlive : d.Live q) (hbest : LongestLength (d.accept · = true) done best) (rest : List Char) :
    LongestLength (d.accept · = true) (done ++ rest) (d.walkFrom q done.length best rest).1 ∧
      LongestLength d.Extendable (done ++ rest) (d.walkFrom q done.length best rest).2 := by
  have hread : LongestLength d.Extendable done done.length :=
    .whole (hd.extendable_iff.mpr ⟨q, hq, hlive⟩)
  induction rest generalizing done q best with
  | nil =>
    rw [List.append_nil]
    exact ⟨hbest, hread⟩
  | cons c rest ih =>
    rw [walkFrom]
    split
    · rename_i hsink
      have hstop : ∀ u, u <+: c :: rest → u ≠ [] → ¬ d.Extendable (done ++ u) := by
        intro u hu hne
        obtain ⟨v, rfl, _⟩ := (List.prefix_cons_iff.mp hu).resolve_left hne
        exact hd.not_extendable hq hsink
      exact ⟨hbest.append fun u hu hne h => hstop u hu hne (extendable_of_accept h),
        hread.append hstop⟩
    · rename_i hsink
      obtain ⟨p, hget, hlive⟩ : ∃ p, d.get? q c = some p ∧ d.Live p := by
        by_contra hnone
        refine hsink (hd.isSink_step.mpr fun p hp hlive => hnone ⟨p, hp, hlive⟩)
      have hfollow : d.follow? d.start (done ++ [c]) = some p := by
        simp [Automaton.follow?_append, hq, Automaton.follow?, hget]
      have haccept : d.accept (done ++ [c]) = d.isAccepting p := by
        rw [accept, run_eq, hfollow, Option.getD_some]
      have hbest' : LongestLength (d.accept · = true) (done ++ [c])
          (if d.isAccepting p then done.length + 1 else best) := by
        split
        · exact .snoc_of (haccept.trans ‹_›)
        · exact hbest.snoc_of_not (haccept ▸ ‹_›)
      have hgo := ih hfollow hlive hbest' (.whole (hd.extendable_iff.mpr ⟨p, hfollow, hlive⟩))
      simpa [hget] using hgo

theorem longest_lengths (hd : d.WellFormed) (text : List Char) :
    ∃ n, (d.longest text).text = text.take n ∧ LongestLength (d.accept · = true) text n ∧
      LongestLength d.Extendable text (d.longest text).read := by
  rw [longest]
  split
  · rename_i hsink
    have hdead : ¬ d.Live d.start := (hd.isSink_iff (.inl hd.start_lt)).mp hsink
    have hnone : ∀ u, ¬ d.Extendable u := by
      intro u h
      obtain ⟨q, hq, hlive⟩ := hd.extendable_iff.mp h
      exact hdead (hlive.of_follow? hq)
    refine ⟨0, rfl, ?_, ?_⟩
    · exact (LongestLength.zero _).append fun u _ _ h => hnone _ (extendable_of_accept h)
    · exact (LongestLength.zero _).append fun u _ _ h => hnone _ h
  · rename_i hsink
    have hlive : d.Live d.start := by
      by_contra hdead
      exact hsink ((hd.isSink_iff (.inl hd.start_lt)).mpr hdead)
    have hstart : d.follow? d.start [] = some d.start := rfl
    have hgo := walkFrom_lengths hd hstart hlive (.zero _) text
    exact ⟨_, rfl, hgo.1, hgo.2⟩

/-! ## Automata with the same table -/

theorem WellFormed.accept_congr {d' : Dfa} (hd : d.WellFormed) (hd' : d'.WellFormed)
    (h : d.toAutomaton = d'.toAutomaton) (w : List Char) : d.accept w = d'.accept w := by
  rw [Bool.eq_iff_iff, hd.accept_iff, hd'.accept_iff, h]

theorem WellFormed.longest_congr {d' : Dfa} (hd : d.WellFormed) (hd' : d'.WellFormed)
    (h : d.toAutomaton = d'.toAutomaton) (w : List Char) : d.longest w = d'.longest w := by
  obtain ⟨n, htext, hbest, hread⟩ := longest_lengths hd w
  obtain ⟨n', htext', hbest', hread'⟩ := longest_lengths hd' w
  have haccept : d.accept = d'.accept := funext (hd.accept_congr hd' h)
  have hextend : d.Extendable = d'.Extendable := by
    unfold Extendable
    rw [haccept]
  rw [← haccept] at hbest'
  rw [← hextend] at hread'
  rw [← hbest.unique hbest', ← htext] at htext'
  exact Longest.ext htext'.symm (hread.unique hread')

end Dfa

end LexGen
