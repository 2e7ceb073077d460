import Diversity.Proofs.Anonymous
import Diversity.Proofs.NodeIds
/-! Copies under new identities: they mention the same variables and call the same blocks. -/
namespace Diversity

namespace Expr

theorem anonymousAll_eq_map (es : List Expr) : anonymousAll es = es.map anonymous := by
  induction es with
  | nil => rfl
  | cons e es ih => rw [anonymousAll, ih, List.map_cons]

theorem children_anonymous (e : Expr) : e.anonymous.children = e.children.map anonymous := by
  cases e <;> simp [anonymous, children, anonymousAll_eq_map]

theorem nodes_anonymous (e : Expr) : e.anonymous.nodes = e.nodes.map anonymous := by
  induction e using parts_induction with
  | step e ih =>
      rw [nodes_eq, nodes_eq e, children_anonymous, List.flatMap_map, List.map_cons, List.map_flatMap]
      exact congrArg _ (List.flatMap_congr ih)

theorem vars_anonymous (e : Expr) : e.anonymous.vars = e.vars := by
  have hvar (n : Expr) : n.anonymous.var? = n.var? := by cases n <;> rfl
  rw [vars, nodes_anonymous, List.filterMap_map, vars]
  exact List.filterMap_congr fun n _ => hvar n

end Expr

namespace Stmt

mutual

theorem operands_anonymous (x : Stmt) : operands x.anonymous = (operands x).map (·.map Expr.anonymous) := by
  match x with
  | .assign _ _ _ => rfl
  | .call _ _ => rfl
  | .choice _ branches => simp [anonymous, operands, operandsOfBranches_anonymous branches]
  | .loop _ _ body => simp [anonymous, operands, Operand.map, operandsOfAll_anonymous body]
  | .expr _ _ => rfl
  | .group _ body => simp [anonymous, operands, operandsOfAll_anonymous body]

theorem operandsOfAll_anonymous (body : List Stmt) :
    operandsOfAll (anonymousAll body) = (operandsOfAll body).map (·.map Expr.anonymous) := by
  match body with
  | [] => rfl
  | x :: rest => simp [anonymousAll, operandsOfAll, operands_anonymous x, operandsOfAll_anonymous rest]

theorem operandsOfBranches_anonymous (branches : List Branch) :
    operandsOfBranches (anonymousBranches branches) =
      (operandsOfBranches branches).map (·.map Expr.anonymous) := by
  match branches with
  | [] => rfl
  | .mk none body :: rest =>
      simp [anonymousBranches, anonymousBranch, operandsOfBranches, operandsOfBranch,
        operandsOfAll_anonymous body, operandsOfBranches_anonymous rest]
  | .mk (some condition) body :: rest =>
      simp [anonymousBranches, anonymousBranch, operandsOfBranches, operandsOfBranch, Operand.map,
        operandsOfAll_anonymous body, operandsOfBranches_anonymous rest]

end

theorem operands_of_refreshAll {body copy : List Stmt} {s s' : Supply} (h : refreshAll body s = (copy, s')) :
    (operandsOfAll copy).map (·.map Expr.anonymous) = (operandsOfAll body).map (·.map Expr.anonymous) := by
  rw [← operandsOfAll_anonymous, ← operandsOfAll_anonymous, anonymousAll_of_refreshAll h]

theorem vars_anonymous (body : List Stmt) : vars (anonymousAll body) = vars body := by
  simp [vars_eq, operandsOfAll_anonymous, List.flatMap_map, Operand.map, Expr.vars_anonymous]

/-- The blocks that statements call. -/
def refs (body : List Stmt) : List BlockRef := (calls body).map (·.2)

def refsOfBranches (branches : List Branch) : List BlockRef := (callsOfBranches branches).map (·.2)

section

variable {i : NodeId} {e e' : Expr} {callee : BlockRef} {branches : List Branch} {body rest : List Stmt}

theorem refs_assign : refs (.assign i e e' :: rest) = refs rest := by simp [refs]

theorem refs_call : refs (.call i callee :: rest) = callee :: refs rest := by simp [refs]

theorem refs_choice : refs (.choice i branches :: rest) = refsOfBranches branches ++ refs rest := by
  simp [refs, refsOfBranches]

theorem refs_loop : refs (.loop i e body :: rest) = refs body ++ refs rest := by simp [refs]

theorem refs_expr : refs (.expr i e :: rest) = refs rest := by simp [refs]

theorem refs_group : refs (.group i body :: rest) = refs body ++ refs rest := by simp [refs]

theorem refsOfBranches_cons {condition : Option Expr} :
    refsOfBranches (.mk condition body :: branches) = refs body ++ refsOfBranches branches := by
  simp [refs, refsOfBranches]

end

mutual

theorem refs_refreshAll (body : List Stmt) (s : Supply) : refs (refreshAll body s).1 = refs body := by
  match body with
  | [] => rfl
  | .assign _ _ _ :: rest => exact refs_assign.trans ((refs_refreshAll rest _).trans refs_assign.symm)
  | .call _ _ :: rest =>
      exact refs_call.trans ((congrArg _ (refs_refreshAll rest _)).trans refs_call.symm)
  | .choice _ branches :: rest =>
      exact refs_choice.trans ((congrArg₂ _ (refsOfBranches_refreshBranches branches s)
        (refs_refreshAll rest _)).trans refs_choice.symm)
  | .loop _ _ body :: rest =>
      exact refs_loop.trans ((congrArg₂ _ (refs_refreshAll body _) (refs_refreshAll rest _)).trans
        refs_loop.symm)
  | .expr _ _ :: rest => exact refs_expr.trans ((refs_refreshAll rest _).trans refs_expr.symm)
  | .group _ body :: rest =>
      exact refs_group.trans ((congrArg₂ _ (refs_refreshAll body _) (refs_refreshAll rest _)).trans
        refs_group.symm)

theorem refsOfBranches_refreshBranches (branches : List Branch) (s : Supply) :
    refsOfBranches (refreshBranches branches s).1 = refsOfBranches branches := by
  match branches with
  | [] => rfl
  | .mk none body :: rest =>
      exact refsOfBranches_cons.trans ((congrArg₂ _ (refs_refreshAll body _)
        (refsOfBranches_refreshBranches rest _)).trans refsOfBranches_cons.symm)
  | .mk (some _) body :: rest =>
      exact refsOfBranches_cons.trans ((congrArg₂ _ (refs_refreshAll body _)
        (refsOfBranches_refreshBranches rest _)).trans refsOfBranches_cons.symm)

end

theorem refs_of_refreshAll {body copy : List Stmt} {s s' : Supply} (h : refreshAll body s = (copy, s')) :
    refs copy = refs body := by
  rw [← refs_refreshAll body s, h]

end Stmt

end Diversity
