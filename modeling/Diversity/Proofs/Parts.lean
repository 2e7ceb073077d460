import Diversity.Capture.Usage
import Diversity.Expr.Substitution
/-! Expressions by their parts and statements by the expressions that they hold. -/
namespace Diversity

namespace Expr

def isRef : Expr → Bool
  | .ref _ _ => true
  | _ => false

theorem sizeOf_child_lt {c e : Expr} (h : c ∈ e.children) : sizeOf c < sizeOf e := by
  cases e with
  | var _ _ | value _ _ | sizeofType _ _ => cases h
  | ref _ _ | deref _ _ | cast _ _ _ | sizeofExpr _ _ =>
      obtain rfl := List.mem_singleton.1 h
      simp +arith
  | index _ _ _ =>
      simp only [children, List.mem_cons, List.not_mem_nil, or_false] at h
      rcases h with rfl | rfl <;> simp +arith
  | call _ _ args =>
      rcases List.mem_cons.1 h with rfl | h
      · simp +arith
      · have := List.sizeOf_lt_of_mem h
        simp only [call.sizeOf_spec]
        omega
  | op _ _ operands =>
      have : sizeOf c < sizeOf operands := List.sizeOf_lt_of_mem h
      simp only [op.sizeOf_spec]
      omega

/-- What holds of an expression if it holds of its parts, holds of every expression. -/
theorem parts_induction {P : Expr → Prop} (step : ∀ e, (∀ c ∈ e.children, P c) → P e) (e : Expr) : P e :=
  step e fun c hc =>
    have := sizeOf_child_lt hc
    parts_induction step c
termination_by sizeOf e

theorem nodesOfAll_eq (es : List Expr) : nodesOfAll es = es.flatMap nodes := by
  induction es with
  | nil => rfl
  | cons e es ih => rw [nodesOfAll, ih, List.flatMap_cons]

theorem nodes_eq (e : Expr) : e.nodes = e :: e.children.flatMap nodes := by
  cases e <;> simp [nodes, children, nodesOfAll_eq]

theorem mem_nodes_self (e : Expr) : e ∈ e.nodes := by
  rw [nodes_eq]
  exact List.mem_cons_self

theorem mem_nodes_iff {e n : Expr} : n ∈ e.nodes ↔ n = e ∨ ∃ c ∈ e.children, n ∈ c.nodes := by
  rw [nodes_eq, List.mem_cons, List.mem_flatMap]

/-- What holds of a node and of those in its parts, holds of all nodes. -/
theorem forall_nodes_iff {e : Expr} {Q : Expr → Prop} :
    (∀ n ∈ e.nodes, Q n) ↔ Q e ∧ ∀ c ∈ e.children, ∀ n ∈ c.nodes, Q n := by
  constructor
  · intro h
    exact ⟨h e (mem_nodes_self e), fun c hc n hn => h n (mem_nodes_iff.2 (Or.inr ⟨c, hc, hn⟩))⟩
  · rintro ⟨he, hchildren⟩ n hn
    rcases mem_nodes_iff.1 hn with rfl | ⟨c, hc, hn⟩
    · exact he
    · exact hchildren c hc n hn

theorem nodes_subset {e n : Expr} (h : n ∈ e.nodes) : n.nodes ⊆ e.nodes := by
  induction e using parts_induction with
  | step e ih =>
      rcases mem_nodes_iff.1 h with rfl | ⟨c, hc, h⟩
      · exact fun _ h => h
      · exact fun m hm => mem_nodes_iff.2 (Or.inr ⟨c, hc, ih c hc h hm⟩)

theorem eq_of_mem_nodes_of_isZero {e n : Expr} (he : e.isZero = true) (hn : n ∈ e.nodes) : n = e := by
  cases e with
  | value _ _ => exact List.mem_singleton.1 hn
  | _ => cases he

theorem vars_eq (e : Expr) : e.vars = e.var?.toList ++ e.children.flatMap vars := by
  rw [vars, nodes_eq, List.filterMap_cons, List.filterMap_flatMap]
  cases e.var? <;> rfl

/-- What holds of the variable that a node is and of those in its parts, holds of all variables. -/
theorem forall_vars_iff {e : Expr} {Q : Variable → Prop} : (∀ v ∈ e.vars, Q v) ↔
    (∀ v ∈ e.var?, Q v) ∧ ∀ c ∈ e.children, ∀ v ∈ c.vars, Q v := by
  rw [vars_eq]
  simp only [List.mem_append, Option.mem_toList, List.mem_flatMap]
  exact ⟨fun h => ⟨fun v hv => h v (Or.inl hv), fun c hc v hv => h v (Or.inr ⟨c, hc, hv⟩)⟩,
    fun h v hv => hv.elim (h.1 v) fun ⟨c, hc, hv⟩ => h.2 c hc v hv⟩

theorem vars_subset {e n : Expr} (h : n ∈ e.nodes) : n.vars ⊆ e.vars :=
  List.filterMap_subset _ (nodes_subset h)

theorem mapChildren_id {e : Expr} {f : Expr → Expr} (h : ∀ c ∈ e.children, f c = c) :
    e.mapChildren f = e := by
  have hmap (es : List Expr) (hes : ∀ c ∈ es, f c = c) : es.map f = es :=
    (List.map_congr_left hes).trans es.map_id
  cases e <;> simp_all [mapChildren, children]

theorem children_mapChildren (e : Expr) (f : Expr → Expr) : (e.mapChildren f).children = e.children.map f := by
  cases e <;> simp [mapChildren, children]

theorem var?_mapChildren (e : Expr) (f : Expr → Expr) : (e.mapChildren f).var? = e.var? := by
  cases e <;> rfl

theorem replaceNodesOfAll_eq (f : Expr → Option Expr) (es : List Expr) :
    replaceNodesOfAll f es = es.map (replaceNodes f) := by
  induction es with
  | nil => rfl
  | cons e es ih => rw [replaceNodesOfAll, ih, List.map_cons]

theorem replaceNodes_eq (f : Expr → Option Expr) (e : Expr) :
    e.replaceNodes f = (f e).getD (e.mapChildren (replaceNodes f)) := by
  cases e <;> simp [replaceNodes, mapChildren, replaceNodesOfAll_eq]

variable {key : Option ChunkId × String}

theorem usagesOfAll_eq (es : List Expr) : usagesOfAll key es = es.flatMap (usages key) := by
  induction es with
  | nil => rfl
  | cons e es ih => rw [usagesOfAll, ih, List.flatMap_cons]

theorem usages_eq (e : Expr) : e.usages key = e.usageOr key (e.children.flatMap (usages key)) := by
  cases e <;> simp [usages, children, usagesOfAll_eq]

end Expr

/-- An expression that a statement holds; a target is assigned to. -/
structure Operand where
  expr : Expr
  isTarget : Bool

namespace Operand

def usages (key : Option ChunkId × String) (o : Operand) : List Usage :=
  if o.isTarget then o.expr.usagesAssigned key else o.expr.usages key

def map (f : Expr → Expr) (o : Operand) : Operand := ⟨f o.expr, o.isTarget⟩

end Operand

namespace Stmt

mutual

/-- The expressions in a statement, from left to right. -/
def operands : Stmt → List Operand
  | .assign _ target value => [⟨target, true⟩, ⟨value, false⟩]
  | .call _ _ => []
  | .choice _ branches => operandsOfBranches branches
  | .loop _ condition body => ⟨condition, false⟩ :: operandsOfAll body
  | .expr _ e => [⟨e, false⟩]
  | .group _ body => operandsOfAll body

def operandsOfAll : List Stmt → List Operand
  | [] => []
  | x :: rest => operands x ++ operandsOfAll rest

def operandsOfBranch : Branch → List Operand
  | .mk condition body => condition.toList.map (⟨·, false⟩) ++ operandsOfAll body

def operandsOfBranches : List Branch → List Operand
  | [] => []
  | b :: rest => operandsOfBranch b ++ operandsOfBranches rest

end

theorem operandsOfAll_append (front back : List Stmt) :
    operandsOfAll (front ++ back) = operandsOfAll front ++ operandsOfAll back := by
  induction front with
  | nil => rfl
  | cons x front ih => rw [List.cons_append, operandsOfAll, ih, operandsOfAll, List.append_assoc]

theorem operandsOfBranches_append (front back : List Branch) :
    operandsOfBranches (front ++ back) = operandsOfBranches front ++ operandsOfBranches back := by
  induction front with
  | nil => rfl
  | cons b front ih => rw [List.cons_append, operandsOfBranches, ih, operandsOfBranches, List.append_assoc]

theorem operandsOfAll_flatten (fronts : List (List Stmt)) :
    operandsOfAll fronts.flatten = fronts.flatMap operandsOfAll := by
  induction fronts with
  | nil => rfl
  | cons front fronts ih => rw [List.flatten_cons, operandsOfAll_append, ih, List.flatMap_cons]

theorem nodesOfAll_append (front back : List Stmt) :
    nodesOfAll (front ++ back) = nodesOfAll front ++ nodesOfAll back := by
  induction front with
  | nil => rfl
  | cons x front ih => rw [List.cons_append, nodesOfAll, ih, nodesOfAll, List.append_assoc]

end Stmt

/-- The expression that a node is, if it is one. -/
def Node.expr? : Node → Option Expr
  | .stmt _ => none
  | .expr e => some e

theorem Expr.filterMap_asNodes (e : Expr) : e.asNodes.filterMap Node.expr? = e.nodes := by
  rw [Expr.asNodes, List.filterMap_map]
  exact List.filterMap_some

theorem Expr.filterMap_call? (e : Expr) : e.asNodes.filterMap Node.call? = [] := by
  simp [Expr.asNodes, Node.call?]

namespace Stmt

mutual

theorem exprNodes (x : Stmt) :
    (nodes x).filterMap Node.expr? = (operands x).flatMap (·.expr.nodes) := by
  match x with
  | .assign _ _ _ => simp [nodes, operands, List.filterMap_cons, Node.expr?, Expr.filterMap_asNodes]
  | .call _ _ => rfl
  | .choice _ branches => simp [nodes, operands, List.filterMap_cons, Node.expr?, exprNodesOfBranches branches]
  | .loop _ _ body =>
      simp [nodes, operands, List.filterMap_cons, Node.expr?, Expr.filterMap_asNodes, exprNodesOfAll body]
  | .expr _ _ => simp [nodes, operands, List.filterMap_cons, Node.expr?, Expr.filterMap_asNodes]
  | .group _ body => simp [nodes, operands, List.filterMap_cons, Node.expr?, exprNodesOfAll body]

/-- The nodes that are expressions are the nodes of the expressions held. -/
theorem exprNodesOfAll (body : List Stmt) :
    (nodesOfAll body).filterMap Node.expr? = (operandsOfAll body).flatMap (·.expr.nodes) := by
  match body with
  | [] => rfl
  | x :: rest => simp [nodesOfAll, operandsOfAll, exprNodes x, exprNodesOfAll rest]

theorem exprNodesOfBranches (branches : List Branch) :
    (nodesOfBranches branches).filterMap Node.expr? = (operandsOfBranches branches).flatMap (·.expr.nodes) := by
  match branches with
  | [] => rfl
  | .mk none body :: rest =>
      simp [nodesOfBranches, nodesOfBranch, operandsOfBranches, operandsOfBranch, exprNodesOfAll body,
        exprNodesOfBranches rest]
  | .mk (some condition) body :: rest =>
      simp [nodesOfBranches, nodesOfBranch, operandsOfBranches, operandsOfBranch, exprNodesOfAll body,
        exprNodesOfBranches rest, Expr.filterMap_asNodes]

end

theorem expr_mem_nodesOfAll {body : List Stmt} {e : Expr} :
    .expr e ∈ nodesOfAll body ↔ ∃ o ∈ operandsOfAll body, e ∈ o.expr.nodes := by
  rw [← List.mem_flatMap, ← exprNodesOfAll, List.mem_filterMap]
  constructor
  · exact fun h => ⟨_, h, rfl⟩
  · rintro ⟨n, hn, h⟩
    cases n with
    | stmt _ => cases h
    | expr _ => cases h; exact hn

theorem vars_eq (body : List Stmt) : vars body = (operandsOfAll body).flatMap (·.expr.vars) := by
  have hvar : Node.var? = fun n => n.expr?.bind Expr.var? := by
    funext n
    cases n <;> rfl
  simp only [vars, hvar, ← List.filterMap_filterMap, exprNodesOfAll, List.filterMap_flatMap, Expr.vars]

theorem mem_vars_iff {body : List Stmt} {v : Variable} :
    v ∈ vars body ↔ ∃ o ∈ operandsOfAll body, v ∈ o.expr.vars := by
  rw [vars_eq, List.mem_flatMap]

variable {key : Option ChunkId × String}

mutual

theorem usages_eq (x : Stmt) : usages key x = (operands x).flatMap (·.usages key) := by
  match x with
  | .assign _ _ _ => simp [usages, operands, Operand.usages]
  | .call _ _ => rfl
  | .choice _ branches => simp [usages, operands, usagesOfBranches_eq branches]
  | .loop _ _ body => simp [usages, operands, Operand.usages, usagesOfAll_eq body]
  | .expr _ _ => simp [usages, operands, Operand.usages]
  | .group _ body => simp [usages, operands, usagesOfAll_eq body]

theorem usagesOfAll_eq (body : List Stmt) :
    usagesOfAll key body = (operandsOfAll body).flatMap (·.usages key) := by
  match body with
  | [] => rfl
  | x :: rest => simp [usagesOfAll, operandsOfAll, usages_eq x, usagesOfAll_eq rest]

theorem usagesOfBranches_eq (branches : List Branch) :
    usagesOfBranches key branches = (operandsOfBranches branches).flatMap (·.usages key) := by
  match branches with
  | [] => rfl
  | .mk none body :: rest =>
      simp [usagesOfBranches, usagesOfBranch, operandsOfBranches, operandsOfBranch, usagesOfAll_eq body,
        usagesOfBranches_eq rest]
  | .mk (some condition) body :: rest =>
      simp [usagesOfBranches, usagesOfBranch, operandsOfBranches, operandsOfBranch, usagesOfAll_eq body,
        usagesOfBranches_eq rest, Operand.usages]

end

variable {f : Expr → Expr}

mutual

theorem operands_mapExprs (x : Stmt) : operands (mapExprs f x) = (operands x).map (·.map f) := by
  match x with
  | .assign _ _ _ => rfl
  | .call _ _ => rfl
  | .choice _ branches => simp [mapExprs, operands, operandsOfBranches_mapExprs branches]
  | .loop _ _ body => simp [mapExprs, operands, Operand.map, operandsOfAll_mapExprs body]
  | .expr _ _ => rfl
  | .group _ body => simp [mapExprs, operands, operandsOfAll_mapExprs body]

theorem operandsOfAll_mapExprs (body : List Stmt) :
    operandsOfAll (mapExprsOfAll f body) = (operandsOfAll body).map (·.map f) := by
  match body with
  | [] => rfl
  | x :: rest => simp [mapExprsOfAll, operandsOfAll, operands_mapExprs x, operandsOfAll_mapExprs rest]

theorem operandsOfBranches_mapExprs (branches : List Branch) :
    operandsOfBranches (mapExprsOfBranches f branches) = (operandsOfBranches branches).map (·.map f) := by
  match branches with
  | [] => rfl
  | .mk none body :: rest =>
      simp [mapExprsOfBranches, mapExprsOfBranch, operandsOfBranches, operandsOfBranch,
        operandsOfAll_mapExprs body, operandsOfBranches_mapExprs rest]
  | .mk (some condition) body :: rest =>
      simp [mapExprsOfBranches, mapExprsOfBranch, operandsOfBranches, operandsOfBranch, Operand.map,
        operandsOfAll_mapExprs body, operandsOfBranches_mapExprs rest]

end

/-- The calls in the branches of a choice. -/
def callsOfBranches (branches : List Branch) : List (NodeId × BlockRef) :=
  (nodesOfBranches branches).filterMap Node.call?

section

variable {i : NodeId} {e e' : Expr} {callee : BlockRef} {branches : List Branch} {body rest : List Stmt}

@[simp] theorem calls_nil : calls [] = [] := rfl

@[simp] theorem calls_assign : calls (.assign i e e' :: rest) = calls rest := by
  simp [calls, nodesOfAll, nodes, List.filterMap_cons, Node.call?, Expr.filterMap_call?]

@[simp] theorem calls_call : calls (.call i callee :: rest) = (i, callee) :: calls rest := by
  simp [calls, nodesOfAll, nodes, Node.call?]

@[simp] theorem calls_choice : calls (.choice i branches :: rest) = callsOfBranches branches ++ calls rest := by
  simp [calls, callsOfBranches, nodesOfAll, nodes, List.filterMap_cons, Node.call?]

@[simp] theorem calls_loop : calls (.loop i e body :: rest) = calls body ++ calls rest := by
  simp [calls, nodesOfAll, nodes, List.filterMap_cons, Node.call?, Expr.filterMap_call?]

@[simp] theorem calls_expr : calls (.expr i e :: rest) = calls rest := by
  simp [calls, nodesOfAll, nodes, List.filterMap_cons, Node.call?, Expr.filterMap_call?]

@[simp] theorem calls_group : calls (.group i body :: rest) = calls body ++ calls rest := by
  simp [calls, nodesOfAll, nodes, List.filterMap_cons, Node.call?]

@[simp] theorem callsOfBranches_cons {condition : Option Expr} :
    callsOfBranches (.mk condition body :: branches) = calls body ++ callsOfBranches branches := by
  cases condition <;>
    simp [calls, callsOfBranches, nodesOfBranches, nodesOfBranch, Expr.filterMap_call?]

theorem calls_append (front back : List Stmt) : calls (front ++ back) = calls front ++ calls back := by
  simp [calls, nodesOfAll_append]

theorem callsOfBranches_append (front back : List Branch) :
    callsOfBranches (front ++ back) = callsOfBranches front ++ callsOfBranches back := by
  induction front with
  | nil => rfl
  | cons b front ih =>
      obtain ⟨condition, body⟩ := b
      rw [List.cons_append, callsOfBranches_cons, ih, callsOfBranches_cons, List.append_assoc]

theorem calls_flatten (fronts : List (List Stmt)) : calls fronts.flatten = fronts.flatMap calls := by
  induction fronts with
  | nil => rfl
  | cons front fronts ih => rw [List.flatten_cons, calls_append, ih, List.flatMap_cons]

end

mutual

theorem calls_mapExprs (body : List Stmt) : calls (mapExprsOfAll f body) = calls body := by
  match body with
  | [] => rfl
  | .assign _ _ _ :: rest => simp [mapExprsOfAll, mapExprs, calls_mapExprs rest]
  | .call _ _ :: rest => simp [mapExprsOfAll, mapExprs, calls_mapExprs rest]
  | .choice _ branches :: rest =>
      simp [mapExprsOfAll, mapExprs, callsOfBranches_mapExprs branches, calls_mapExprs rest]
  | .loop _ _ body :: rest => simp [mapExprsOfAll, mapExprs, calls_mapExprs body, calls_mapExprs rest]
  | .expr _ _ :: rest => simp [mapExprsOfAll, mapExprs, calls_mapExprs rest]
  | .group _ body :: rest => simp [mapExprsOfAll, mapExprs, calls_mapExprs body, calls_mapExprs rest]

theorem callsOfBranches_mapExprs (branches : List Branch) :
    callsOfBranches (mapExprsOfBranches f branches) = callsOfBranches branches := by
  match branches with
  | [] => rfl
  | .mk _ body :: rest =>
      simp [mapExprsOfBranches, mapExprsOfBranch, calls_mapExprs body, callsOfBranches_mapExprs rest]

end

end Stmt

end Diversity
