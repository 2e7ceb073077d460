import Diversity.Block
import Diversity.Proofs.Anonymous
/-! How blocks run: big steps over statement lists, for any meaning of what expressions do. -/
namespace Diversity

universe u

/-- A meaning of the parts that are not control flow: which states an assignment, an expression and a
condition can lead to. It does not look at the identities of nodes. -/
structure Meaning (S : Type u) where
  assign (target value : Expr) (s t : S) : Prop
  expr (e : Expr) (s t : S) : Prop
  /-- In `s` the condition comes out as `b`, which leaves `t`. -/
  test (e : Expr) (b : Bool) (s t : S) : Prop
  assign_congr {target target' value value' : Expr} : target.anonymous = target'.anonymous →
    value.anonymous = value'.anonymous → assign target value = assign target' value'
  expr_congr {e e' : Expr} : e.anonymous = e'.anonymous → expr e = expr e'
  test_congr {e e' : Expr} : e.anonymous = e'.anonymous → test e = test e'

variable {S : Type u}

namespace Stmt

mutual

/-- A run of the statements from one state can end in the other. A call runs the block that has its
name. -/
inductive Runs (M : Meaning S) (bs : BlockSet) : List Stmt → S → S → Prop
  | nil {s} : Runs M bs [] s s
  | assign {i target value rest s u t} : M.assign target value s u → Runs M bs rest u t →
      Runs M bs (.assign i target value :: rest) s t
  | call {i callee b rest s u t} : bs.find? callee.name = some b → Runs M bs b.statements s u →
      Runs M bs rest u t → Runs M bs (.call i callee :: rest) s t
  | choice {i branches rest s u t} : RunsBranches M bs branches s u → Runs M bs rest u t →
      Runs M bs (.choice i branches :: rest) s t
  | again {i condition body rest s u v t} : M.test condition true s u → Runs M bs body u v →
      Runs M bs (.loop i condition body :: rest) v t → Runs M bs (.loop i condition body :: rest) s t
  | leave {i condition body rest s u t} : M.test condition false s u → Runs M bs rest u t →
      Runs M bs (.loop i condition body :: rest) s t
  | expr {i e rest s u t} : M.expr e s u → Runs M bs rest u t → Runs M bs (.expr i e :: rest) s t
  | group {i body rest s u t} : Runs M bs body s u → Runs M bs rest u t →
      Runs M bs (.group i body :: rest) s t

/-- The first branch whose condition holds runs. If there is none, nothing more happens. -/
inductive RunsBranches (M : Meaning S) (bs : BlockSet) : List Branch → S → S → Prop
  | done {s} : RunsBranches M bs [] s s
  | otherwise {body rest s t} : Runs M bs body s t → RunsBranches M bs (.mk none body :: rest) s t
  | taken {condition body rest s u t} : M.test condition true s u → Runs M bs body u t →
      RunsBranches M bs (.mk (some condition) body :: rest) s t
  | skipped {condition body rest s u t} : M.test condition false s u → RunsBranches M bs rest u t →
      RunsBranches M bs (.mk (some condition) body :: rest) s t

end

variable {M : Meaning S} {bs : BlockSet}

theorem Runs.append {front back s u t} (h : Runs M bs front s u) (hb : Runs M bs back u t) :
    Runs M bs (front ++ back) s t := by
  match h with
  | .nil => exact hb
  | .assign h₁ h => exact .assign h₁ (h.append hb)
  | .call hf h₁ h => exact .call hf h₁ (h.append hb)
  | .choice h₁ h => exact .choice h₁ (h.append hb)
  | .again h₁ h₂ h => exact .again h₁ h₂ (h.append hb)
  | .leave h₁ h => exact .leave h₁ (h.append hb)
  | .expr h₁ h => exact .expr h₁ (h.append hb)
  | .group h₁ h => exact .group h₁ (h.append hb)

/-- The state after the first statement of a run. -/
theorem Runs.head {body x rest s t} (h : Runs M bs body s t) (e : body = x :: rest) :
    ∃ u, Runs M bs [x] s u ∧ Runs M bs rest u t := by
  match h, e with
  | .assign h₁ h, rfl => exact ⟨_, .assign h₁ .nil, h⟩
  | .call hf h₁ h, rfl => exact ⟨_, .call hf h₁ .nil, h⟩
  | .choice h₁ h, rfl => exact ⟨_, .choice h₁ .nil, h⟩
  | .again h₁ h₂ h, rfl =>
      obtain ⟨u, hx, hr⟩ := h.head rfl
      exact ⟨u, .again h₁ h₂ hx, hr⟩
  | .leave h₁ h, rfl => exact ⟨_, .leave h₁ .nil, h⟩
  | .expr h₁ h, rfl => exact ⟨_, .expr h₁ .nil, h⟩
  | .group h₁ h, rfl => exact ⟨_, .group h₁ .nil, h⟩

theorem Runs.split {front back s t} (h : Runs M bs (front ++ back) s t) :
    ∃ u, Runs M bs front s u ∧ Runs M bs back u t := by
  induction front generalizing s with
  | nil => exact ⟨s, .nil, h⟩
  | cons x front ih =>
      obtain ⟨u, hx, h⟩ := h.head rfl
      obtain ⟨v, hf, hb⟩ := ih h
      exact ⟨v, hx.append hf, hb⟩

end Stmt

end Diversity
