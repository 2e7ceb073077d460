import Diversity.Expr.Basic
import Diversity.Proofs.Lexing
/-! The binary operators of C: how operands with operators between them are grouped. A chain of one operator is one
operation on all its operands. -/
namespace Diversity.C

/-- Operators that bind alike, and whether they group from the right. -/
structure Level where
  operators : List String
  fromRight : Bool

/-- Levels that bind tighter come first. -/
def levels : List Level :=
  [⟨["*", "/", "%"], false⟩, ⟨["+", "-"], false⟩, ⟨["<<", ">>"], false⟩, ⟨["<", ">", "<=", ">="], false⟩,
    ⟨["==", "!="], false⟩, ⟨["&"], false⟩, ⟨["^"], false⟩, ⟨["|"], false⟩, ⟨["&&"], false⟩, ⟨["||"], false⟩,
    ⟨["=", "*=", "/=", "%=", "+=", "-=", "<<=", ">>=", "&=", "^=", "|="], true⟩, ⟨[","], false⟩]

def binaryOperators : List String := levels.flatMap Level.operators

def unaryOperators : List String := ["!", "~", "-", "+"]

/-- Grouped operands. A leaf is an operand as it is read, with or without parentheses. -/
inductive Tree where
  | leaf (e : Expr)
  | node (symbol : String) (left right : Tree)

namespace Tree

/-- The operands of a chain of one operator. -/
def operands (chain : String) : Tree → List Expr
  | .leaf e => [e]
  | .node symbol left right =>
    if symbol = chain then left.operands symbol ++ right.operands symbol
    else [.op .unnumbered symbol (left.operands symbol ++ right.operands symbol)]

def expr : Tree → Expr
  | .leaf e => e
  | .node symbol left right => .op .unnumbered symbol (left.operands symbol ++ right.operands symbol)

end Tree

/-- Operands that the operators of a level join become one operand. -/
def Level.group (l : Level) (first : Tree) : List (String × Tree) → Tree × List (String × Tree)
  | [] => (first, [])
  | (symbol, t) :: rest =>
    if symbol ∈ l.operators then
      if l.fromRight then (.node symbol first (l.group t rest).1, (l.group t rest).2)
      else l.group (.node symbol first t) rest
    else (first, (symbol, (l.group t rest).1) :: (l.group t rest).2)

def groupAll (ls : List Level) (r : Tree × List (String × Tree)) : Tree × List (String × Tree) :=
  ls.foldl (fun r l => l.group r.1 r.2) r

/-- The expression that an operand and further ones, each behind an operator, stand for. -/
def assemble (first : Expr) (rest : List (String × Expr)) : Option Expr :=
  match groupAll levels (.leaf first, rest.map fun p => (p.1, .leaf p.2)) with
  | (t, []) => some t.expr
  | _ => none

variable {symbol : String} {l : Level}

theorem group_of_notMem (h : symbol ∉ l.operators) (first : Tree) (ts : List Tree) :
    l.group first (ts.map (symbol, ·)) = (first, ts.map (symbol, ·)) := by
  induction ts generalizing first with
  | nil => rfl
  | cons t ts ih => simp [Level.group, h, ih]

/-- The tree holds the chain of the operands, which are as many as the operator needs. -/
def IsChain (symbol : String) (operands : List Expr) (t : Tree) : Prop :=
  t.operands symbol = operands ∧ t.expr = .op .unnumbered symbol operands

theorem isChain_node (left right : Tree) :
    IsChain symbol (left.operands symbol ++ right.operands symbol) (.node symbol left right) :=
  ⟨by simp [Tree.operands], rfl⟩

theorem exists_group (h : symbol ∈ l.operators) (first t : Tree) (ts : List Tree) :
    ∃ chain, l.group first ((t :: ts).map (symbol, ·)) = (chain, []) ∧
      IsChain symbol (first.operands symbol ++ (t :: ts).flatMap (Tree.operands symbol)) chain := by
  induction ts generalizing first t with
  | nil =>
      refine ⟨.node symbol first t, ?_, by simpa using isChain_node first t⟩
      simp [Level.group, h]
  | cons t' ts ih =>
      by_cases hright : l.fromRight = true
      · obtain ⟨chain, hgroup, hchain⟩ := ih t t'
        refine ⟨.node symbol first chain, ?_, ?_⟩
        · rw [List.map_cons, Level.group, if_pos h, if_pos hright, hgroup]
        · rw [List.flatMap_cons, ← hchain.1]
          exact isChain_node first chain
      · obtain ⟨chain, hgroup, hchain⟩ := ih (.node symbol first t) t'
        refine ⟨chain, ?_, ?_⟩
        · rw [List.map_cons, Level.group, if_pos h, if_neg hright, hgroup]
        · simpa [Tree.operands] using hchain

theorem groupAll_nil (ls : List Level) (t : Tree) : groupAll ls (t, []) = (t, []) := by
  induction ls with
  | nil => rfl
  | cons l ls ih => exact ih

theorem exists_groupAll {ls : List Level} (h : symbol ∈ ls.flatMap Level.operators) (first t : Tree) (ts : List Tree) :
    ∃ chain, groupAll ls (first, (t :: ts).map (symbol, ·)) = (chain, []) ∧
      IsChain symbol (first.operands symbol ++ (t :: ts).flatMap (Tree.operands symbol)) chain := by
  induction ls with
  | nil => cases h
  | cons l ls ih =>
      rw [groupAll, List.foldl_cons, ← groupAll]
      by_cases hl : symbol ∈ l.operators
      · obtain ⟨chain, hgroup, hchain⟩ := exists_group hl first t ts
        exact ⟨chain, by rw [hgroup, groupAll_nil], hchain⟩
      · rw [group_of_notMem hl]
        exact ih ((List.mem_append.1 h).resolve_left hl)

theorem assemble_nil (first : Expr) : assemble first [] = some first := by
  rw [assemble, List.map_nil, groupAll_nil]
  rfl

/-- Whatever its level, a chain of one operator is one operation. -/
theorem assemble_chain (h : symbol ∈ binaryOperators) (first e : Expr) (es : List Expr) :
    assemble first ((e :: es).map (symbol, ·)) = some (.op .unnumbered symbol (first :: e :: es)) := by
  obtain ⟨chain, hgroup, hchain⟩ := exists_groupAll h (.leaf first) (.leaf e) (es.map .leaf)
  have hleaves : ((e :: es).map (symbol, ·)).map (fun p => (p.1, Tree.leaf p.2)) =
      (Tree.leaf e :: es.map .leaf).map (symbol, ·) := by
    simp [Function.comp_def]
  rw [assemble, hleaves, hgroup]
  simp [hchain.2, Tree.operands, List.flatMap_map]

example : assemble (.value .unnumbered "1") [("-", .value .unnumbered "2"), ("*", .value .unnumbered "3"),
    ("-", .value .unnumbered "4")] = some (.op .unnumbered "-" [.value .unnumbered "1",
      .op .unnumbered "*" [.value .unnumbered "2", .value .unnumbered "3"], .value .unnumbered "4"]) := rfl

end Diversity.C
