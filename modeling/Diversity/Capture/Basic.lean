import Diversity.Error
import Diversity.Expr.Basic
/-! Captures: how an expression gets at a variable. -/
namespace Diversity

inductive Capture where
  | base (e : Expr)
  | ref (inner : Capture)
  /-- The variable itself is assigned to. This counts as taking its address and reads as the variable. -/
  | assigned (inner : Capture)
  | deref (inner : Capture)
  | index (inner : Capture) (position : Expr)
  deriving Inhabited

namespace Capture

/-- The innermost expression. -/
def root : Capture → Expr
  | .base e => e
  | .ref inner | .assigned inner | .deref inner | .index inner _ => root inner

/-- The variable captured. -/
def key (c : Capture) : Option (Option ChunkId × String) := c.root.var?.map (·.key)

def depth : Capture → Nat
  | .base _ => 0
  | .ref inner | .assigned inner | .deref inner | .index inner _ => depth inner + 1

/-- Equal up to the identities of nodes and the types of variables. -/
def sameShape : Capture → Capture → Bool
  | .base a, .base b => a.sameShape b
  | .ref a, .ref b | .assigned a, .assigned b | .deref a, .deref b => sameShape a b
  | .index a i, .index b j => i.sameShape j && sameShape a b
  | _, _ => false

def text : Capture → String
  | .base e => e.text
  | .ref inner => "&" ++ text inner
  | .assigned inner => "=" ++ text inner
  | .deref inner => "*" ++ text inner
  | .index inner position => text inner ++ "[" ++ position.text ++ "]"

/-- The expression that a capture stands for. -/
def toExpr : Capture → Expr
  | .base e => e
  | .ref inner => .ref .unnumbered (toExpr inner)
  | .assigned inner => toExpr inner
  | .deref inner => .deref .unnumbered (toExpr inner)
  | .index inner position => .index .unnumbered (toExpr inner) position

/-- The value to pass as an argument: the address of what is assigned to. -/
def toArgument : Capture → Capture
  | .base e => .base e
  | .ref inner | .assigned inner => .ref (toArgument inner)
  | .deref inner => .deref (toArgument inner)
  | .index inner position => .index (toArgument inner) position

/-- Puts a capture in the place of the innermost expression. -/
def replace : Capture → Capture → Capture
  | .base _, r => r
  | .ref inner, r => .ref (replace inner r)
  | .assigned inner, r => .assigned (replace inner r)
  | .deref inner, r => .deref (replace inner r)
  | .index inner position, r => .index (replace inner r) position

/-- The address of a capture; the address of what is pointed at is the pointer. -/
def addressOf : Capture → Capture
  | .deref inner => inner
  | c => .ref c

/-- What a capture points at; at an address this is what has the address. -/
def target : Capture → Capture
  | .ref inner => inner
  | c => .deref c

/-- Without an address of what is pointed at, and without a dereferenced address. -/
def simplify : Capture → Capture
  | .base e => .base e
  | .ref inner => addressOf (simplify inner)
  | .assigned inner => .assigned (simplify inner)
  | .deref inner => target (simplify inner)
  | .index inner position => .index (simplify inner) position

/-- Undoes the layers of a capture, from the outside, on top of another one. -/
def invertOnto : Capture → Capture → Capture
  | .base _, done => done
  | .ref inner, done | .assigned inner, done => invertOnto inner (.deref done)
  | .deref inner, done | .index inner _, done => invertOnto inner (.ref done)

/-- The variable again, from an expression that has the captured value. -/
def invert (c : Capture) (hole : Expr) : Capture := c.invertOnto (.base hole)

/-- The capture `c` through an expression that has the value of `context`. -/
def through (c context : Capture) (hole : Expr) : Capture :=
  c.simplify.replace (context.simplify.invert hole)

/-- The type of a parameter that holds the captured value. -/
def paramType : Capture → Except SynthesisError CType
  | .base e =>
    match e.var? with
    | none => .error (.parameterType e.text .noVariable)
    | some v =>
      match v.type with
      | none => .error (.parameterType v.name .noType)
      | some type => .ok type
  | .ref inner | .assigned inner => do return .pointer (← paramType inner)
  | .deref inner | .index inner _ => do
    let type ← paramType inner
    match type.pointee with
    | some type => return type
    | none => throw (.parameterType inner.root.text (.notDereferenceable type))

end Capture

end Diversity
