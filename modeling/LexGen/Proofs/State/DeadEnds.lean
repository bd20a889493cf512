-- SUMMARY: The dead ends among states: exactly those from which no path leads to an accepting state, where states are compared and not identified.
import Mathlib
import LexGen.Proofs.Reachability
import LexGen.Proofs.State.Order

/-! # Dead ends among states

Equal states may differ in their ordinals, so the ends of edges are found by comparison. A walk looks
at a node only through a key that decides the comparison. Among keys, to be equal is to be identical,
so what is known of walks there carries over to the nodes. -/

namespace LexGen

/-- The edge between the images of its ends. -/
def Edge.mapNodes {σ τ ℓ : Type} (f : σ → τ) (e : Edge σ ℓ) : Edge τ ℓ :=
  ⟨f e.source, e.label, f e.target⟩

namespace Graph

variable {σ τ ℓ : Type} [BEq σ] [BEq τ] {f : σ → τ}

/-! ## Walks over keys -/

section

variable (hf : ∀ a b, (a == b) = (f a == f b))
include hf

theorem contains_map (nodes : List σ) (q : σ) :
    (nodes.map f).contains (f q) = nodes.contains q := by
  simp only [List.contains_eq_any_beq, List.any_map, Function.comp_def, hf]

theorem any_beq_map (nodes : List σ) (q : σ) :
    (nodes.map f).any (· == f q) = nodes.any (· == q) := by
  simp only [List.any_map, Function.comp_def, hf]

theorem without_map (nodes : List σ) (q : σ) :
    without (f q) (nodes.map f) = (without q nodes).map f := by
  simp only [without, List.filter_map, Function.comp_def, hf]

theorem walk_map {next : σ → List σ} {next' : τ → List τ}
    (hnext : ∀ q, next' (f q) = (next q).map f) (fresh work : List σ) :
    walk next' (fresh.map f) (work.map f) = (walk next fresh work).map f := by
  fun_induction walk next fresh work with
  | case1 fresh => rw [List.map_nil, walk]
  | case2 fresh q work hq ih =>
    rw [List.map_cons, walk, any_beq_map hf, if_pos hq, without_map hf, hnext, ← List.map_append,
      ih, List.map_cons]
  | case3 fresh q work hq ih =>
    rw [List.map_cons, walk, any_beq_map hf, if_neg hq, ih]

theorem sources_map (edges : List (Edge σ ℓ)) (q : σ) :
    sources (edges.map (Edge.mapNodes f)) (f q) = (sources edges q).map f := by
  simp only [sources, List.filter_map, List.map_map, Function.comp_def, hf, Edge.mapNodes]

theorem leadingTo_map (edges : List (Edge σ ℓ)) (goals : List σ) :
    leadingTo (edges.map (Edge.mapNodes f)) (goals.map f) = (leadingTo edges goals).map f := by
  have hfresh : goals.map f ++ (edges.map (Edge.mapNodes f)).map Edge.source =
      (goals ++ edges.map Edge.source).map f := by
    simp only [List.map_append, List.map_map, Function.comp_def, Edge.mapNodes]
  rw [leadingTo, hfresh, walk_map hf (sources_map hf edges), leadingTo]

end

/-! ## Paths -/

/-- A path along `edges`, possibly without any edge. Where it enters and leaves a node, the two need
only be equal by comparison. -/
inductive Path (edges : List (Edge σ ℓ)) : σ → σ → Prop where
  | stop {p q : σ} (h : (p == q) = true) : Path edges p q
  | step {p q : σ} {e : Edge σ ℓ} (he : e ∈ edges) (hsource : (p == e.source) = true)
      (h : Path edges e.target q) : Path edges p q

section

variable [LawfulBEq τ] (hf : ∀ a b, (a == b) = (f a == f b)) {edges : List (Edge σ ℓ)}
  {nodes goals : List σ} {p q : σ}
include hf

theorem beq_iff_key_eq : (p == q) = true ↔ f p = f q := by
  rw [hf, beq_iff_eq]

theorem path_iff_leadsTo : Path edges p q ↔ LeadsTo (edges.map (Edge.mapNodes f)) (f p) (f q) := by
  constructor
  · intro h
    induction h with
    | stop h =>
      rw [(beq_iff_key_eq hf).mp h]
      exact .refl
    | step he hsource _ ih =>
      have hsource := (beq_iff_key_eq hf).mp hsource
      exact .head ⟨_, List.mem_map_of_mem he, hsource.symm, rfl⟩ ih
  · intro h
    generalize hp : f p = k at h
    induction h using Relation.ReflTransGen.head_induction_on generalizing p with
    | refl => exact .stop ((beq_iff_key_eq hf).mpr hp)
    | head hstep _ ih =>
      obtain ⟨e', he', hsource, htarget⟩ := hstep
      obtain ⟨e, he, rfl⟩ := List.mem_map.mp he'
      exact .step he ((beq_iff_key_eq hf).mpr (hp.trans hsource.symm)) (ih htarget)

theorem Path.congr_left {p' : σ} (h : (p == p') = true) : Path edges p q ↔ Path edges p' q := by
  rw [path_iff_leadsTo hf, path_iff_leadsTo hf, (beq_iff_key_eq hf).mp h]

theorem contains_leadingTo :
    (leadingTo edges goals).contains p = true ↔ ∃ q ∈ goals, Path edges p q := by
  rw [← contains_map hf, ← leadingTo_map hf, List.contains_iff_mem, mem_leadingTo]
  simp only [List.mem_map, exists_exists_and_eq_and, path_iff_leadsTo hf]

theorem mem_deadEnds_iff_path :
    p ∈ deadEnds nodes edges goals ↔ p ∈ nodes ∧ ¬ ∃ q ∈ goals, Path edges p q := by
  rw [deadEnds, List.mem_filter, ← contains_leadingTo hf, Bool.not_eq_true', Bool.not_eq_true]

end

end Graph

/-! ## States -/

namespace State

open Classical in
theorem beq_eq_data_beq (s t : State) : (s == t) = (s.data == t.data) := by
  rw [Bool.eq_iff_iff, beq_iff_data_eq, beq_iff_eq]

/-- The dead ends are those of the given states from which no path of the given edges leads to an
accepting state, in their order. -/
theorem deadEnds_iff_no_path (states : List State) (edges : List (Edge State Char))
    (accepting : List State) :
    (Graph.deadEnds states edges accepting).Sublist states ∧
      (∀ s, s ∈ Graph.deadEnds states edges accepting ↔
        s ∈ states ∧ ¬ ∃ t ∈ accepting, Graph.Path edges s t) ∧
      ∀ s, (Graph.deadEnds states edges accepting).contains s = true ↔
        states.contains s = true ∧ ¬ ∃ t ∈ accepting, Graph.Path edges s t := by
  classical
  have hmem : ∀ s, s ∈ Graph.deadEnds states edges accepting ↔
      s ∈ states ∧ ¬ ∃ t ∈ accepting, Graph.Path edges s t :=
    fun s => Graph.mem_deadEnds_iff_path beq_eq_data_beq
  have hcongr : ∀ s s' : State, (s == s') = true →
      ((∃ t ∈ accepting, Graph.Path edges s t) ↔ ∃ t ∈ accepting, Graph.Path edges s' t) :=
    fun s s' h => exists_congr fun t => and_congr_right fun _ =>
      Graph.Path.congr_left beq_eq_data_beq h
  refine ⟨List.filter_sublist, hmem, fun s => ?_⟩
  rw [List.contains_iff_exists_mem_beq, List.contains_iff_exists_mem_beq]
  constructor
  · intro ⟨s', hs', h⟩
    obtain ⟨hstates, hdead⟩ := (hmem s').mp hs'
    exact ⟨⟨s', hstates, h⟩, fun hlive => hdead ((hcongr s s' h).mp hlive)⟩
  · intro ⟨⟨s', hs', h⟩, hdead⟩
    exact ⟨s', (hmem s').mpr ⟨hs', fun hlive => hdead ((hcongr s s' h).mpr hlive)⟩, h⟩

/-- The path from `0` runs through the sink and a state outside, whatever the ordinals. -/
example :
    Graph.deadEnds [numbered 0, numbered 1] [⟨numbered 0, 'a', sink 2⟩, ⟨sink 7, 'b', numbered 9⟩]
      [numbered 9] = [numbered 1] := by
  cbv

end State

end LexGen
