-- SUMMARY: Writing and reading in prefix notation: what the prefix form of an expression is read back as.
import Mathlib
import LexGen.Proofs.Expr.Errors
import LexGen.Proofs.Expr.Language

/-! # Prefix forms

The prefix form of an expression lists its nodes as the reader takes them, with `STAR NULL` for the
empty word. So the form of what was read is the text that was read, with its blanks made even. A
symbol that is blank is lost among the blanks between the words, though, and what remains is then
read as no expression at all: every token but the last one is there for some operand. -/

namespace LexGen

/-! ## Blank tokens -/

namespace Token

/-- Whether the word of the token is a blank: that of a symbol can be one. -/
def isBlank : Token → Bool
  | .symbol c => c ≠ '\n' && Text.isBlank c
  | _ => false

theorem isBlank_symbol {c : Char} :
    (symbol c).isBlank = false ↔ c = '\n' ∨ Text.isBlank c = false := by
  simp [isBlank, or_iff_not_imp_left]

theorem arity_of_isBlank {token : Token} (h : token.isBlank = true) : token.arity = 0 := by
  cases token with
  | unary op => cases h
  | binary op => cases h
  | null => cases h
  | symbol c => rfl

theorem text_injective : Function.Injective text := by
  intro token token' h
  rw [← Option.some.injEq, ← read?_text token, h, read?_text]

theorem words_text (token : Token) :
    Text.words token.text = if token.isBlank then [] else [token.text] := by
  cases token with
  | unary op =>
    cases op with
    | star => rfl
    | plus => rfl
  | binary op =>
    cases op with
    | concat => rfl
    | union => rfl
  | null => rfl
  | symbol c =>
    by_cases hc : c = '\n'
    · subst hc
      rfl
    · have htext : (symbol c).text = [c] := if_neg hc
      rw [htext]
      cases hblank : Text.isBlank c with
      | true =>
        rw [if_pos (by simp [isBlank, hc, hblank])]
        exact Text.words_append_cons hblank [] []
      | false =>
        rw [if_neg (by simp [isBlank, hblank])]
        exact Text.words_of_not_isBlank (List.cons_ne_nil c []) (by simpa using hblank)

theorem sum_arity_filter (tokens : List Token) :
    ((tokens.filter (!·.isBlank)).map arity).sum = (tokens.map arity).sum := by
  induction tokens with
  | nil => rfl
  | cons token tokens ih =>
    cases h : token.isBlank with
    | true => simp [h, ih, arity_of_isBlank h]
    | false => simp [h, ih]

end Token

namespace Expr

variable {e e' : Expr} {ws : List (List Char)} {text : String}

/-! ## Nodes and tokens of a tree -/

/-- The nodes of a tree, each in front of its operands, by recursion on the tree. -/
def nodes : Expr → List Expr
  | .star e => .star e :: e.nodes
  | .plus e => .plus e :: e.nodes
  | .concat l r => .concat l r :: (l.nodes ++ r.nodes)
  | .union l r => .union l r :: (l.nodes ++ r.nodes)
  | e => [e]

theorem nodes_eq (e : Expr) : e.nodes = e :: e.children.flatMap nodes := by
  cases e <;> simp [nodes, children]

theorem nodesOnto_eq (seen work : List Expr) :
    nodesOnto seen work = seen.reverse ++ work.flatMap nodes := by
  fun_induction nodesOnto seen work with
  | case1 seen => simp
  | case2 seen e work ih => simp [ih, nodes_eq e]

theorem preorder_eq (e : Expr) : e.preorder = e :: e.children.flatMap preorder := by
  have hnodes : preorder = nodes := by
    funext e
    simp [preorder, nodesOnto_eq]
  rw [hnodes]
  exact nodes_eq e

theorem tokens_eq (e : Expr) : e.tokens = e.ownTokens ++ e.children.flatMap tokens := by
  unfold tokens
  rw [preorder_eq, List.flatMap_cons, List.flatMap_assoc]

theorem nodeCount_unary (op : Unary) (e : Expr) : (op.apply e).nodeCount = e.nodeCount + 1 := by
  unfold nodeCount
  rw [preorder_eq]
  cases op <;> simp [Unary.apply, children]

theorem nodeCount_binary (op : Binary) (l r : Expr) :
    (op.apply l r).nodeCount = l.nodeCount + r.nodeCount + 1 := by
  unfold nodeCount
  rw [preorder_eq]
  cases op <;> simp [Binary.apply, children]

theorem symbol_mem_tokens {c : Char} : .symbol c ∈ e.tokens ↔ c ∈ e.symbols := by
  induction e with
  | symbol | epsilon | empty =>
    rw [tokens_eq]
    simp [ownTokens, children, symbols]
  | star e ih | plus e ih =>
    rw [tokens_eq]
    simp [ownTokens, children, symbols, ih]
  | concat l r ihl ihr | union l r ihl ihr =>
    rw [tokens_eq]
    simp [ownTokens, children, symbols, ihl, ihr]

/-- Every token but the first is an operand of another one. -/
theorem sum_arity_tokens (e : Expr) : (e.tokens.map Token.arity).sum + 1 = e.tokens.length := by
  induction e with
  | symbol | epsilon | empty =>
    rw [tokens_eq]
    rfl
  | star e ih | plus e ih =>
    rw [tokens_eq]
    simp only [ownTokens, children, List.flatMap_singleton, List.singleton_append, List.map_cons,
      List.sum_cons, List.length_cons, Token.arity]
    omega
  | concat l r ihl ihr | union l r ihl ihr =>
    rw [tokens_eq]
    simp only [ownTokens, children, List.flatMap_cons, List.flatMap_nil, List.append_nil,
      List.singleton_append, List.map_cons, List.map_append, List.sum_cons, List.sum_append,
      List.length_cons, List.length_append, Token.arity]
    omega

/-! ## Expressions without the empty word -/

/-- The expression with `STAR NULL` in the place of the empty word. -/
def expandEpsilon : Expr → Expr
  | .symbol c => .symbol c
  | .epsilon => .star .empty
  | .empty => .empty
  | .concat l r => .concat l.expandEpsilon r.expandEpsilon
  | .union l r => .union l.expandEpsilon r.expandEpsilon
  | .star e => .star e.expandEpsilon
  | .plus e => .plus e.expandEpsilon

theorem expandEpsilon_eq_self_iff : e.expandEpsilon = e ↔ .epsilon ∉ e.preorder := by
  induction e with
  | symbol | epsilon | empty =>
    rw [preorder_eq]
    simp [expandEpsilon, children]
  | star e ih | plus e ih =>
    rw [preorder_eq]
    simp [expandEpsilon, children, ih]
  | concat l r ihl ihr | union l r ihl ihr =>
    rw [preorder_eq]
    simp [expandEpsilon, children, ihl, ihr]

theorem language_expandEpsilon (e : Expr) : e.expandEpsilon.language = e.language := by
  induction e with
  | symbol | empty => rfl
  | epsilon => exact kstar_zero
  | star e ih | plus e ih => rw [expandEpsilon, language, language, ih]
  | concat l r ihl ihr | union l r ihl ihr => rw [expandEpsilon, language, language, ihl, ihr]

/-- The tokens of an expression list it, apart from the empty word. -/
theorem listedAs_expandEpsilon (e : Expr) :
    ListedAs e.expandEpsilon (e.tokens.map Token.text) := by
  induction e with
  | symbol c =>
    rw [tokens_eq]
    exact .symbol c
  | epsilon =>
    rw [tokens_eq]
    exact ListedAs.empty.unary .star
  | empty =>
    rw [tokens_eq]
    exact .empty
  | star e ih =>
    rw [tokens_eq]
    simp only [ownTokens, children, List.flatMap_singleton, List.singleton_append, List.map_cons]
    exact ih.unary .star
  | plus e ih =>
    rw [tokens_eq]
    simp only [ownTokens, children, List.flatMap_singleton, List.singleton_append, List.map_cons]
    exact ih.unary .plus
  | concat l r ihl ihr =>
    rw [tokens_eq]
    simp only [ownTokens, children, List.flatMap_cons, List.flatMap_nil, List.append_nil,
      List.singleton_append, List.map_cons, List.map_append]
    exact ihl.binary .concat ihr
  | union l r ihl ihr =>
    rw [tokens_eq]
    simp only [ownTokens, children, List.flatMap_cons, List.flatMap_nil, List.append_nil,
      List.singleton_append, List.map_cons, List.map_append]
    exact ihl.binary .union ihr

namespace ListedAs

theorem expandEpsilon_eq (h : ListedAs e ws) : e.expandEpsilon = e := by
  induction h with
  | symbol | empty => rfl
  | unary op _ ih => cases op <;> simp [Unary.apply, expandEpsilon, ih]
  | binary op _ _ ihl ihr => cases op <;> simp [Binary.apply, expandEpsilon, ihl, ihr]

theorem eq_map_tokens (h : ListedAs e ws) : ws = e.tokens.map Token.text := by
  have hform := listedAs_expandEpsilon e
  rw [h.expandEpsilon_eq] at hform
  exact Option.some.inj (h.listing?_eq.symm.trans hform.listing?_eq)

theorem length_eq (h : ListedAs e ws) : ws.length = e.nodeCount := by
  induction h with
  | symbol | empty =>
    rw [nodeCount, preorder_eq]
    rfl
  | unary op _ ih => rw [nodeCount_unary, List.length_cons, ih]
  | binary op _ _ ihl ihr =>
    rw [nodeCount_binary, List.length_cons, List.length_append, ihl, ihr]

end ListedAs

/-! ## Reading and writing -/

theorem listedAs_of_parse (h : parse text = .ok e) : ListedAs e (Text.words text.toList) :=
  listedAs_of_listing? (listing?_of_parseWords .nil (fun _ => Text.ne_newline_of_mem_words) h)

theorem ListedAs.parse_eq (h : ListedAs e (Text.words text.toList)) : parse text = .ok e := by
  have hparse := parseWords_listing h.listing?_eq []
  rwa [List.append_nil] at hparse

/-- The prefix form of what a text is read as has the words of the text, and one for each node. -/
theorem prefixForm_of_parse (h : parse text = .ok e) :
    e.prefixForm = String.ofList ([' '].intercalate (Text.words text.toList)) ∧
      e.nodeCount = (Text.words text.toList).length := by
  have hlisted := listedAs_of_parse h
  rw [prefixForm, ← hlisted.eq_map_tokens]
  exact ⟨rfl, hlisted.length_eq.symm⟩

/-- The words may stand between a tab, a newline and an ideographic space. -/
theorem prefixForm_of_parse_spaced :
    ∃ e, parse "\tCONCAT STAR \\n\n\u3000\\" = .ok e ∧ e.prefixForm = "CONCAT STAR \\n \\" ∧
      e.nodeCount = 4 := by
  have hparse : parse "\tCONCAT STAR \\n\n\u3000\\" =
      .ok (.concat (.star (.symbol '\n')) (.symbol '\\')) := by decide
  obtain ⟨hform, hcount⟩ := prefixForm_of_parse hparse
  exact ⟨_, hparse, hform.trans (by decide), hcount.trans (by decide)⟩

/-! ## Writing and reading -/

/-- Only words that are not blank are left of a prefix form. -/
theorem words_prefixForm (e : Expr) :
    Text.words e.prefixForm.toList = (e.tokens.filter (!·.isBlank)).map Token.text := by
  rw [prefixForm, String.toList_ofList, Text.words_intercalate_eq]
  induction e.tokens with
  | nil => rfl
  | cons token tokens ih =>
    rw [List.map_cons, List.flatMap_cons, ih, Token.words_text]
    cases h : token.isBlank with
    | true => simp [h]
    | false => simp [h]

/-- What is left of a prefix form lists an expression only if nothing is lost. -/
theorem isBlank_of_tokens_eq (h : e'.tokens = e.tokens.filter (!·.isBlank)) :
    ∀ token ∈ e.tokens, token.isBlank = false := by
  -- both token lists have one more member than operands, and blank tokens have no operands
  have hlength : (e.tokens.filter (!·.isBlank)).length = e.tokens.length := by
    rw [← h, ← sum_arity_tokens e', h, Token.sum_arity_filter, sum_arity_tokens]
  intro token htoken
  simpa using List.length_filter_eq_length_iff.mp hlength token htoken

theorem parse_prefixForm (h : ∀ token ∈ e.tokens, token.isBlank = false) :
    parse e.prefixForm = .ok e.expandEpsilon := by
  apply ListedAs.parse_eq
  have hkeep : e.tokens.filter (!·.isBlank) = e.tokens := by
    rw [List.filter_eq_self]
    intro token htoken
    rw [h token htoken, Bool.not_false]
  rw [words_prefixForm, hkeep]
  exact listedAs_expandEpsilon e

theorem isBlank_tokens_iff :
    (∀ token ∈ e.tokens, token.isBlank = false) ↔
      ∀ c ∈ e.symbols, c = '\n' ∨ Text.isBlank c = false := by
  constructor
  · intro h c hc
    exact Token.isBlank_symbol.mp (h _ (symbol_mem_tokens.mpr hc))
  · intro h token htoken
    cases token with
    | unary | binary | null => rfl
    | symbol c => exact Token.isBlank_symbol.mpr (h c (symbol_mem_tokens.mp htoken))

/-- A prefix form is read back exactly if no symbol but the newline is blank, and then as the same
expression, with `STAR NULL` for the empty word. -/
theorem parse_prefixForm_eq_ok_iff (e : Expr) :
    (∀ e', parse e.prefixForm = .ok e' ↔
      (∀ c ∈ e.symbols, c = '\n' ∨ Text.isBlank c = false) ∧ e' = e.expandEpsilon) ∧
    (e.expandEpsilon = e ↔ .epsilon ∉ e.preorder) ∧ e.expandEpsilon.language = e.language := by
  refine ⟨fun e' => ⟨fun h => ?_, ?_⟩, expandEpsilon_eq_self_iff, language_expandEpsilon e⟩
  · have htokens := (listedAs_of_parse h).eq_map_tokens
    rw [words_prefixForm, List.map_inj_right Token.text_injective] at htokens
    have hblank := isBlank_of_tokens_eq htokens.symm
    rw [parse_prefixForm hblank] at h
    exact ⟨isBlank_tokens_iff.mp hblank, (Except.ok.inj h).symm⟩
  · rintro ⟨hsymbols, rfl⟩
    exact parse_prefixForm (isBlank_tokens_iff.mpr hsymbols)

/-- The prefix form of `a` and a space in a row has no second operand left. -/
theorem parse_prefixForm_space :
    parse (Expr.concat (.symbol 'a') (.symbol ' ')).prefixForm =
        .error (.missingOperand "CONCAT" 1 2) ∧
      ¬ ∀ e : Expr, parse e.prefixForm = .ok e.expandEpsilon := by
  have htokens : (Expr.concat (.symbol 'a') (.symbol ' ')).tokens =
      [.binary .concat, .symbol 'a', .symbol ' '] := by
    simp [tokens, preorder, nodesOnto, children, ownTokens]
  have hparse : parse (Expr.concat (.symbol 'a') (.symbol ' ')).prefixForm =
      .error (.missingOperand "CONCAT" 1 2) := by
    rw [prefixForm, htokens]
    decide
  refine ⟨hparse, fun h => ?_⟩
  rw [h] at hparse
  cases hparse

end Expr

end LexGen
