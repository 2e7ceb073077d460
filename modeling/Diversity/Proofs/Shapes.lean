import Diversity.Capture.Join
import Diversity.Proofs.Parts
/-! Shapes of expressions and captures: all that is left without the identities of nodes and the types of
variables. -/
namespace Diversity

namespace Expr

mutual

/-- The expression with no node numbered and no variable typed. -/
def shape : Expr → Expr
  | .var _ v => .var .unnumbered ⟨v.name, none, v.chunk⟩
  | .ref _ target => .ref .unnumbered (shape target)
  | .deref _ target => .deref .unnumbered (shape target)
  | .index _ target position => .index .unnumbered (shape target) (shape position)
  | .call _ target args => .call .unnumbered (shape target) (shapes args)
  | .op _ symbol operands => .op .unnumbered symbol (shapes operands)
  | .value _ literal => .value .unnumbered literal
  | .cast _ target type => .cast .unnumbered (shape target) type
  | .sizeofExpr _ target => .sizeofExpr .unnumbered (shape target)
  | .sizeofType _ type => .sizeofType .unnumbered type

def shapes : List Expr → List Expr
  | [] => []
  | e :: es => shape e :: shapes es

end

theorem sameShapes_iff {as : List Expr} (h : ∀ a ∈ as, ∀ b, a.sameShape b = true ↔ a.shape = b.shape)
    (bs : List Expr) : sameShapes as bs = true ↔ shapes as = shapes bs := by
  induction as generalizing bs with
  | nil => cases bs <;> simp [sameShapes, shapes]
  | cons a as ih =>
      obtain ⟨ha, has⟩ := List.forall_mem_cons.1 h
      cases bs with
      | nil => simp [sameShapes, shapes]
      | cons b bs => simp [sameShapes, shapes, ha b, ih has bs]

theorem sameShape_iff (a b : Expr) : a.sameShape b = true ↔ a.shape = b.shape := by
  induction a using parts_induction generalizing b with
  | step a ih =>
      cases a <;> cases b <;> try simp [sameShape, shape]
      case var.var v _ w => simp [Variable.key, and_comm]
      case ref.ref s _ t | deref.deref s _ t | sizeofExpr.sizeofExpr s _ t =>
        exact ih s List.mem_cons_self t
      case cast.cast s _ _ t _ => rw [ih s List.mem_cons_self t, and_comm]
      case index.index s i _ t j => rw [ih s List.mem_cons_self t, ih i (by simp [children]) j]
      case call.call s as _ t bs =>
        rw [ih s List.mem_cons_self t, sameShapes_iff fun a ha => ih a (List.mem_cons_of_mem _ ha)]
      case op.op as _ _ bs => exact fun _ => sameShapes_iff ih bs

theorem shape_eq_of_sameLiteral {a b : Expr} (h : a.sameLiteral b = true) : a.shape = b.shape := by
  cases a <;> cases b <;> simp_all [sameLiteral, shape]

theorem sameLiteral_comm (a b : Expr) : a.sameLiteral b = b.sameLiteral a := by
  cases a <;> cases b <;> simp [sameLiteral, Bool.beq_comm]

end Expr

namespace Capture

def shape : Capture → Capture
  | .base e => .base e.shape
  | .ref inner => .ref (shape inner)
  | .assigned inner => .assigned (shape inner)
  | .deref inner => .deref (shape inner)
  | .index inner position => .index (shape inner) position.shape

theorem sameShape_iff (c d : Capture) : c.sameShape d = true ↔ c.shape = d.shape := by
  induction c generalizing d with
  | base e => cases d <;> simp [sameShape, shape, Expr.sameShape_iff]
  | ref c ih | assigned c ih | deref c ih => cases d <;> simp [sameShape, shape, ih]
  | index c i ih => cases d <;> simp [sameShape, shape, ih, Expr.sameShape_iff, and_comm]

end Capture

end Diversity
