-- SUMMARY: The listing of an expression in prefix order, and that reading accepts exactly the listings.
import Mathlib.Tactic.Common
import LexGen.Proofs.Expr.Parser

/-! # Listings

The listing of an expression has the word of each operator in front of the listings of its operands.
The reader takes a listing for what it lists, whatever operators wait and whatever words follow.
Conversely, the words that it has read list the expressions that it holds. -/

namespace LexGen

/-! ## Listings -/

namespace Expr

/-- The words that list an expression; the empty word has none. -/
def listing? : Expr → Option (List (List Char))
  | .symbol c => some [if c = '\n' then ['\\', 'n'] else [c]]
  | .epsilon => none
  | .empty => some ["NULL".toList]
  | .star e => e.listing?.map ("STAR".toList :: ·)
  | .plus e => e.listing?.map ("PLUS".toList :: ·)
  | .concat l r => l.listing?.bind fun us => r.listing?.map fun vs => "CONCAT".toList :: (us ++ vs)
  | .union l r => l.listing?.bind fun us => r.listing?.map fun vs => "UNION".toList :: (us ++ vs)

theorem listing?_unary (op : Unary) (e : Expr) :
    (op.apply e).listing? = e.listing?.map (op.keyword.toList :: ·) := by
  cases op with
  | star => rfl
  | plus => rfl

theorem listing?_binary (op : Binary) (l r : Expr) :
    (op.apply l r).listing? =
      l.listing?.bind fun us => r.listing?.map fun vs => op.keyword.toList :: (us ++ vs) := by
  cases op with
  | concat => rfl
  | union => rfl

/-- The words list the expression, operator by operator. -/
inductive ListedAs : Expr → List (List Char) → Prop where
  | symbol (c : Char) : ListedAs (.symbol c) [(Token.symbol c).text]
  | empty : ListedAs .empty [Token.null.text]
  | unary {e : Expr} {us : List (List Char)} (op : Unary) (h : ListedAs e us) :
      ListedAs (op.apply e) (op.keyword.toList :: us)
  | binary {l r : Expr} {us vs : List (List Char)} (op : Binary) (hl : ListedAs l us)
      (hr : ListedAs r vs) : ListedAs (op.apply l r) (op.keyword.toList :: (us ++ vs))

theorem listedAs_of_listing? {e : Expr} {ws : List (List Char)} (h : e.listing? = some ws) :
    ListedAs e ws := by
  induction e generalizing ws with
  | symbol c =>
    obtain rfl := Option.some.inj h
    exact .symbol c
  | epsilon => cases h
  | empty =>
    obtain rfl := Option.some.inj h
    exact .empty
  | star e ih =>
    obtain ⟨us, hus, rfl⟩ := Option.map_eq_some_iff.mp h
    exact (ih hus).unary .star
  | plus e ih =>
    obtain ⟨us, hus, rfl⟩ := Option.map_eq_some_iff.mp h
    exact (ih hus).unary .plus
  | concat l r ihl ihr =>
    obtain ⟨us, hus, h⟩ := Option.bind_eq_some_iff.mp h
    obtain ⟨vs, hvs, rfl⟩ := Option.map_eq_some_iff.mp h
    exact (ihl hus).binary .concat (ihr hvs)
  | union l r ihl ihr =>
    obtain ⟨us, hus, h⟩ := Option.bind_eq_some_iff.mp h
    obtain ⟨vs, hvs, rfl⟩ := Option.map_eq_some_iff.mp h
    exact (ihl hus).binary .union (ihr hvs)

theorem ListedAs.listing?_eq {e : Expr} {ws : List (List Char)} (h : ListedAs e ws) :
    e.listing? = some ws := by
  induction h with
  | symbol c => rfl
  | empty => rfl
  | unary op _ ih =>
    rw [listing?_unary, ih]
    rfl
  | binary op _ _ ihl ihr =>
    rw [listing?_binary, ihl, ihr]
    rfl

end Expr

/-! ## Words and tokens -/

namespace Token

/-- The number of operands of a token. -/
def arity : Token → Nat
  | .unary _ => 1
  | .binary _ => 2
  | .null | .symbol _ => 0

theorem read?_text (token : Token) : read? token.text = some token := by
  cases token with
  | unary op =>
    cases op with
    | star => rfl
    | plus => rfl
  | binary op =>
    cases op with
    | concat => rfl
    | union => rfl
  | null => rfl
  | symbol c =>
    by_cases hc : c = '\n'
    · subst hc
      rfl
    · simp [read?, text, hc, Unary.keyword, Binary.keyword]

/-- Only the newline itself is read as a token that is written otherwise. -/
theorem text_of_read? {word : List Char} {token : Token} (h : read? word = some token)
    (hword : word ≠ ['\n']) : token.text = word := by
  unfold read? at h
  split_ifs at h
  case neg =>
    split at h
    · cases h
      rw [text, if_neg fun hc => hword (congrArg ([·]) hc)]
    · cases h
  -- the other words are compared with the text of their token
  all_goals
    obtain rfl := Option.some.inj h
    exact Eq.symm ‹_›

end Token

/-! ## Listings are read -/

/-- Goes on with the words that are left, `consumed` words having been read before. -/
def Progress.resume (consumed : Nat) (rest : List (List Char)) :
    Progress → Except ParseError Expr
  | .complete e => if rest.isEmpty then .ok e else .error (.trailing (rest.map String.ofList))
  | .waiting stack => Expr.parseWords stack consumed rest

namespace Expr

variable {stack : List Frame} {consumed : Nat} {rest : List (List Char)}

theorem parseWords_cons {word : List Char} {token : Token} (h : Token.read? word = some token) :
    parseWords stack consumed (word :: rest) =
      (Progress.read stack token).resume (consumed + 1) rest := by
  rw [parseWords, h]
  dsimp only
  cases Progress.read stack token with
  | complete e => rfl
  | waiting stack => rfl

/-- The words are read as the expression, which goes to the innermost waiting operator, whatever
words follow. -/
def ReadAs (ws : List (List Char)) (e : Expr) : Prop :=
  ∀ stack consumed rest, parseWords stack consumed (ws ++ rest) =
    (Progress.supply e stack).resume (consumed + ws.length) rest

namespace ReadAs

variable {us vs : List (List Char)} {e l r : Expr}

theorem unary (op : Unary) (h : ReadAs us e) :
    ReadAs (op.keyword.toList :: us) (op.apply e) := by
  intro stack consumed rest
  have hlength : consumed + 1 + us.length = consumed + (us.length + 1) := by omega
  have htoken : Token.read? op.keyword.toList = some (.unary op) := Token.read?_text (.unary op)
  rw [List.cons_append, parseWords_cons htoken, Progress.read, Progress.resume, h, Progress.supply,
    hlength, List.length_cons]

theorem binary (op : Binary) (hl : ReadAs us l) (hr : ReadAs vs r) :
    ReadAs (op.keyword.toList :: (us ++ vs)) (op.apply l r) := by
  intro stack consumed rest
  have hlength : consumed + 1 + us.length + vs.length = consumed + ((us ++ vs).length + 1) := by
    simp only [List.length_append]
    omega
  have htoken : Token.read? op.keyword.toList = some (.binary op) := Token.read?_text (.binary op)
  rw [List.cons_append, List.append_assoc, parseWords_cons htoken, Progress.read, Progress.resume,
    hl, Progress.supply, Progress.resume, hr, Progress.supply, hlength, List.length_cons]

end ReadAs

theorem ListedAs.readAs {e : Expr} {ws : List (List Char)} (h : ListedAs e ws) : ReadAs ws e := by
  induction h with
  | symbol c => exact fun _ _ _ => parseWords_cons (Token.read?_text (.symbol c))
  | empty => exact fun _ _ _ => parseWords_cons (Token.read?_text .null)
  | unary op _ ih => exact ih.unary op
  | binary op _ _ ihl ihr => exact ihl.binary op ihr

theorem readAs_of_listing? {e : Expr} {ws : List (List Char)} (h : e.listing? = some ws) :
    ReadAs ws e :=
  (listedAs_of_listing? h).readAs

end Expr

/-! ## What is read is listed -/

/-- The words that list waiting operators, the outermost first, with the operands that they have. -/
inductive StackListing : List Frame → List (List Char) → Prop where
  | nil : StackListing [] []
  | unary {stack : List Frame} {us : List (List Char)} (op : Unary) (h : StackListing stack us) :
      StackListing (.unary op :: stack) (us ++ [op.keyword.toList])
  | first {stack : List Frame} {us : List (List Char)} (op : Binary) (h : StackListing stack us) :
      StackListing (.first op :: stack) (us ++ [op.keyword.toList])
  | second {stack : List Frame} {us vs : List (List Char)} (op : Binary) {l : Expr}
      (h : StackListing stack us) (hl : l.listing? = some vs) :
      StackListing (.second op l :: stack) (us ++ op.keyword.toList :: vs)

namespace Progress

/-- The words list what the reader holds. -/
def Lists : Progress → List (List Char) → Prop
  | .complete e, ws => e.listing? = some ws
  | .waiting stack, ws => StackListing stack ws

variable {stack : List Frame} {us ws : List (List Char)}

theorem lists_supply {e : Expr} (hstack : StackListing stack us) (he : e.listing? = some ws) :
    (supply e stack).Lists (us ++ ws) := by
  induction hstack generalizing e ws with
  | nil => exact he
  | unary op _ ih =>
    rw [List.append_assoc]
    apply ih
    rw [Expr.listing?_unary, he]
    rfl
  | first op hstack _ =>
    rw [List.append_assoc]
    exact .second op hstack he
  | second op _ hl ih =>
    rw [List.append_assoc]
    apply ih
    rw [Expr.listing?_binary, hl, he]
    rfl

theorem lists_read (hstack : StackListing stack us) (token : Token) :
    (read stack token).Lists (us ++ [token.text]) := by
  cases token with
  | unary op => exact .unary op hstack
  | binary op => exact .first op hstack
  | null => exact lists_supply hstack rfl
  | symbol c => exact lists_supply hstack rfl

end Progress

namespace Expr

theorem listing?_of_parseWords {stack : List Frame} {consumed : Nat} {us ws : List (List Char)}
    {e : Expr} (hstack : StackListing stack us) (hws : ∀ w ∈ ws, w ≠ ['\n'])
    (h : parseWords stack consumed ws = .ok e) : e.listing? = some (us ++ ws) := by
  induction ws generalizing stack consumed us with
  | nil => cases h
  | cons word rest ih =>
    obtain ⟨hword, hrest⟩ := List.forall_mem_cons.mp hws
    obtain ⟨token, htoken, h⟩ := parseWords_cons_eq_ok.mp h
    have hlists := Progress.lists_read hstack token
    rw [Token.text_of_read? htoken hword] at hlists
    rcases h with ⟨stack', hread, h⟩ | ⟨hread, rfl⟩
    · rw [hread] at hlists
      have hgo := ih hlists hrest h
      rwa [List.append_assoc] at hgo
    · rwa [hread] at hlists

/-- A text is read as an expression exactly if its words are the listing of that expression. -/
theorem parse_eq_ok_iff {text : String} {e : Expr} :
    parse text = .ok e ↔ e.listing? = some (Text.words text.toList) := by
  constructor
  · intro h
    refine listing?_of_parseWords .nil (fun w hw hnewline => ?_) h
    have hblank : Text.isBlank '\n' = false :=
      Text.isBlank_of_mem_words hw (by rw [hnewline]; exact List.mem_singleton_self _)
    exact absurd hblank (by decide)
  · intro h
    have hread := readAs_of_listing? h [] 0 []
    rwa [List.append_nil] at hread

/-- The words of a nested expression stand in front of those of its operands; the empty word cannot
be listed. -/
example :
    parse " CONCAT STAR \\n\tNULL" = .ok (.concat (.star (.symbol '\n')) .empty) ∧
      (Expr.star .epsilon).listing? = none := by decide

end Expr

end LexGen
