-- SUMMARY: A written table in front of another text: both are read as if they stood alone.
import Mathlib
import LexGen.Proofs.Table.Grammar
import LexGen.Proofs.Table.RoundTrip

/-! # Joining tables

Tables that were written apart can be put together with an empty line between them. The entries of
the first end where they ended by themselves, whatever follows, and nothing that is read depends on
the number of its line except the number in an error. -/

namespace LexGen

/-! ## Further down -/

/-- The same fault some lines further down. -/
def Table.Error.down (n : Nat) (e : Table.Error) : Table.Error :=
  ⟨e.line + n, e.fault⟩

namespace Cursor

/-- The same lines some lines further down. -/
def down (n : Nat) (k : Cursor) : Cursor :=
  ⟨k.lines, k.number + n⟩

/-- The same result some lines further down. -/
def resultDown {α : Type} (n : Nat) :
    Except Table.Error (α × Cursor) → Except Table.Error (α × Cursor)
  | .error e => .error (e.down n)
  | .ok (a, k) => .ok (a, k.down n)

variable {α β : Type} {n : Nat}

theorem resultDown_bind {f g : α × Cursor → Except Table.Error (β × Cursor)}
    (h : ∀ a k, f (a, k.down n) = resultDown n (g (a, k)))
    (x : Except Table.Error (α × Cursor)) :
    resultDown n x >>= f = resultDown n (x >>= g) := by
  cases x with
  | error e => rfl
  | ok r => exact h r.1 r.2

theorem next_down (k : Cursor) (expected : String) (read : List Char → Except Table.Fault α) :
    (k.down n).next expected read = resultDown n (k.next expected read) := by
  obtain ⟨lines, number⟩ := k
  cases lines with
  | nil => rfl
  | cons line rest =>
    simp only [next, down]
    cases read line with
    | error fault => rfl
    | ok a => simp [resultDown, down, Nat.add_right_comm]

theorem nextEdges_down {alphabet : List Char} {count number : Nat} {edges : List (Edge Nat Char)}
    {lines : List (List Char)} :
    nextEdges alphabet count edges (number + n) lines =
      resultDown n (nextEdges alphabet count edges number lines) := by
  induction lines generalizing edges number with
  | nil => rfl
  | cons line rest ih =>
    rw [nextEdges, nextEdges]
    split
    · rfl
    · cases readNewEdge alphabet count edges line with
      | error fault => rfl
      | ok e =>
        dsimp only
        rw [Nat.add_right_comm, ih]

theorem readFields_down (k : Cursor) : (k.down n).readFields = resultDown n k.readFields := by
  unfold readFields
  simp only [next_down]
  refine resultDown_bind (fun token k => ?_) _
  simp only [next_down]
  refine resultDown_bind (fun alphabet k => ?_) _
  have hnumber : (k.down n).number = k.number + n := rfl
  simp only [next_down, hnumber]
  refine resultDown_bind (fun count k => ?_) _
  simp only [next_down]
  refine resultDown_bind (fun start k => ?_) _
  simp only [next_down]
  refine resultDown_bind (fun accepting k => ?_) _
  have hnumber : (k.down n).number = k.number + n := rfl
  have hlines : (k.down n).lines = k.lines := rfl
  simp only [hnumber, hlines, nextEdges_down]
  refine resultDown_bind (fun edges k => ?_) _
  dsimp only
  split
  · rfl
  · rfl

theorem readEntry_down (k : Cursor) : (k.down n).readEntry = resultDown n k.readEntry := by
  rw [readEntry, readFields_down]
  exact resultDown_bind (fun x k => rfl) _

theorem skipEmpty_down (k : Cursor) : (k.down n).skipEmpty = k.skipEmpty.down n := by
  obtain ⟨lines, number⟩ := k
  simp only [down, skipEmpty]
  split
  · simp [Nat.add_right_comm]
  · rfl

theorem readEntries_down (k : Cursor) :
    (k.down n).readEntries = k.readEntries.mapError (Table.Error.down n) := by
  induction hlength : k.lines.length using Nat.strongRecOn generalizing k with
  | ind length ih =>
    subst hlength
    have hblank : (k.down n).onlyBlanks = k.onlyBlanks := rfl
    rw [readEntries_eq, readEntries_eq k, hblank, readEntry_down]
    split
    · rfl
    · cases hentry : k.readEntry with
      | error e => rfl
      | ok r =>
        obtain ⟨d, k'⟩ := r
        have hlt : k'.skipEmpty.lines.length < k.lines.length :=
          Nat.lt_of_le_of_lt k'.length_lines_skipEmpty (length_lines_of_readEntry hentry)
        change (k'.down n).skipEmpty.readEntries.map (d :: ·) =
          (k'.skipEmpty.readEntries.map (d :: ·)).mapError (Table.Error.down n)
        rw [skipEmpty_down, ih _ hlt k'.skipEmpty rfl]
        cases k'.skipEmpty.readEntries with
        | error e => rfl
        | ok ds => rfl

/-! ## Written entries -/

/-- A written entry that can be read ends where it ended by itself. -/
theorem exists_spelledBy_entryLines {d d' : Dfa} {rest : List (List Char)} {number : Nat}
    {k' : Cursor} (hrest : ∀ line ∈ rest.head?, line = [])
    (h : readEntry ⟨d.entryLines.map Text.dropReturn ++ rest, number⟩ = .ok (d', k')) :
    ∃ x : Entry, x.SpelledBy (d.entryLines.map Text.dropReturn) ∧ x.dfa = d' ∧
      k' = ⟨rest, number + d.entryLines.length⟩ := by
  obtain ⟨y, hy, rfl⟩ := readEntry_eq_ok.mp h
  obtain ⟨x, lines, hx, hlines, _, rfl⟩ := Entry.exists_spelledBy_of_holds hy
  have hstop : k'.lines = rest := by
    rw [d.dropReturn_entryLines] at hy
    cases hy with
    | intro _ _ _ _ _ hedges _ =>
      refine lines_of_nextEdges ?_ hrest hedges
      simpa using fun e _ => Dfa.edgeLine_ne_nil e
  obtain rfl : d.entryLines.map Text.dropReturn = lines := by
    rw [hstop] at hlines
    exact List.append_cancel_right hlines
  have hread := readEntry_of_spelledBy hx hx.consistent.describes_dfa hrest number
  rw [hread, List.length_map] at h
  obtain ⟨hdfa, hk⟩ := Prod.mk.inj (Except.ok.inj h)
  exact ⟨x, hx, hdfa, hk.symm⟩

/-- A written entry in front of an empty line is read as it was, and then the rest is read. -/
theorem readEntries_entryLines_append {d : Dfa} {A : Table} {tail : List (List Char)} {number : Nat}
    (htail : ∀ line ∈ tail.head?, line = [])
    (h : readEntries ⟨d.entryLines.map Text.dropReturn ++ tail, number⟩ = .ok A) :
    ∃ d' A', A = d' :: A' ∧
      (skipEmpty ⟨tail, number + d.entryLines.length⟩).readEntries = .ok A' ∧
      ∀ rest : List (List Char),
        readEntries ⟨d.entryLines.map Text.dropReturn ++ [] :: rest, number⟩ =
          (readEntries ⟨rest, number + d.entryLines.length + 1⟩).map (d' :: ·) := by
  obtain ⟨hblank, _⟩ | ⟨_, d', k', A', hentry, hnext, rfl⟩ := readEntries_eq_ok.mp h
  · rw [onlyBlanks_entryLines] at hblank
    cases hblank
  · obtain ⟨x, hx, rfl, rfl⟩ := exists_spelledBy_entryLines htail hentry
    refine ⟨x.dfa, A', rfl, hnext, fun rest => ?_⟩
    rw [readEntries_spelledBy_append hx, List.length_map]

/-- The same of a written table. -/
theorem readEntries_lines_append {table A : Table} {number : Nat} (hne : table ≠ [])
    (h : readEntries ⟨table.lines.map Text.dropReturn, number⟩ = .ok A)
    (rest : List (List Char)) :
    readEntries ⟨table.lines.map Text.dropReturn ++ [] :: rest, number⟩ =
      (readEntries ⟨rest, number + table.lines.length + 1⟩).map (A ++ ·) := by
  induction table generalizing number A with
  | nil => exact absurd rfl hne
  | cons d ds ih =>
    cases ds with
    | nil =>
      have hlines : Table.lines [d] = d.entryLines := List.intercalate_singleton
      rw [hlines, ← List.append_nil (d.entryLines.map Text.dropReturn)] at h
      obtain ⟨d', A', rfl, hnext, hread⟩ := readEntries_entryLines_append (by simp) h
      obtain ⟨_, rfl⟩ | ⟨hblank, _⟩ := readEntries_eq_ok.mp hnext
      · rw [hlines]
        exact hread rest
      · cases hblank
    | cons d₂ ds =>
      have hlines : Table.lines (d :: d₂ :: ds) = d.entryLines ++ [] :: Table.lines (d₂ :: ds) := by
        simp [Table.lines, List.intercalate_cons_cons]
      have hempty : Text.dropReturn [] = [] := rfl
      rw [hlines, List.map_append, List.map_cons, hempty] at h ⊢
      obtain ⟨d', A', rfl, hnext, hread⟩ := readEntries_entryLines_append (by simp) h
      have hrest := ih (List.cons_ne_nil _ _) hnext
      rw [List.append_assoc, List.cons_append, hread, hrest]
      have hnumber : number + d.entryLines.length + 1 + (Table.lines (d₂ :: ds)).length + 1 =
          number + (d.entryLines ++ [] :: Table.lines (d₂ :: ds)).length + 1 := by
        rw [List.length_append, List.length_cons]
        omega
      rw [hnumber]
      cases readEntries ⟨rest, _⟩ with
      | error e => rfl
      | ok ds => rfl

end Cursor

/-! ## Written tables -/

namespace Table

theorem lines_render (table : Table) :
    Text.lines table.render.toList = table.lines.map Text.dropReturn := by
  rw [render, String.toList_ofList, Text.lines_unlines table.newline_not_mem_lines]

theorem lines_join (table : Table) (text : String) :
    Text.lines (table.render ++ "\n" ++ text).toList =
      table.lines.map Text.dropReturn ++ [] :: Text.lines text.toList := by
  have hnewline : ∀ line ∈ table.lines ++ [[]], '\n' ∉ line := by
    rw [List.forall_mem_append, List.forall_mem_singleton]
    exact ⟨table.newline_not_mem_lines, List.not_mem_nil⟩
  have hunlines : (table.render ++ "\n" ++ text).toList =
      Text.unlines (table.lines ++ [[]]) ++ text.toList := by
    simp [render, Text.unlines]
  rw [hunlines, Text.lines_unlines_append hnewline, List.map_append, List.append_assoc]
  rfl

/-- Behind a written table that can be read and an empty line, every text is read as if it stood
alone: its entries follow those of the table, and its errors are found as many lines further down. -/
theorem parse_join {table A : Table} (hne : table ≠ []) (ha : parse table.render = .ok A)
    (b : String) :
    (∀ B, parse b = .ok B → parse (table.render ++ "\n" ++ b) = .ok (A ++ B)) ∧
      ∀ e, parse b = .error e → parse (table.render ++ "\n" ++ b) =
        .error ⟨e.line + (Text.lines table.render.toList).length + 1, e.fault⟩ := by
  have hlength : (Text.lines table.render.toList).length = table.lines.length := by
    rw [lines_render, List.length_map]
  have hjoin : parse (table.render ++ "\n" ++ b) =
      ((parse b).mapError (Error.down (table.lines.length + 1))).map (A ++ ·) := by
    rw [parse_render_eq] at ha
    have hnumber : 1 + table.lines.length + 1 = 1 + (table.lines.length + 1) := by omega
    rw [parse, parse, lines_join, Cursor.readEntries_lines_append hne ha, hnumber]
    exact congrArg (Except.map (A ++ ·)) (Cursor.readEntries_down ⟨Text.lines b.toList, 1⟩)
  constructor
  · intro B hB
    rw [hjoin, hB]
    rfl
  · intro e he
    rw [hjoin, he, hlength]
    rfl

/-- The entry of the expression without words ends in an empty line; behind it stand the same entry
again and a text that is faulty in its third line. -/
theorem parse_join_empty :
    ∃ table A : Table, table = [Expr.empty.toNfa.toDfa.withToken "T"] ∧
      table.render = "T\n\n2\n0\n\n" ∧ parse table.render = .ok A ∧
      parse (table.render ++ "\n" ++ table.render) = .ok (A ++ A) ∧
      parse (table.render ++ "\n" ++ "U\n\ntwo\n") = .error ⟨9, .badNumber "two"⟩ := by
  have hrender : render [Expr.empty.toNfa.toDfa.withToken "T"] = "T\n\n2\n0\n\n" := by cbv
  have hread : (parse "T\n\n2\n0\n\n").map List.length = .ok 1 := by cbv
  have hfault : parse "U\n\ntwo\n" = .error ⟨3, .badNumber "two"⟩ := by cbv
  cases hparse : parse "T\n\n2\n0\n\n" with
  | error e =>
    rw [hparse] at hread
    cases hread
  | ok A =>
    rw [← hrender] at hparse
    have hlines : (Text.lines (render [Expr.empty.toNfa.toDfa.withToken "T"]).toList).length = 5 := by
      rw [hrender]
      cbv
    refine ⟨_, A, rfl, hrender, hparse, ?_, ?_⟩
    · exact (parse_join (List.cons_ne_nil _ []) hparse _).1 A hparse
    · rw [(parse_join (List.cons_ne_nil _ []) hparse _).2 _ hfault, hlines]

end Table

end LexGen
