import Diversity.Decoy.Basic
import Diversity.Program.Render
import Diversity.Proofs.Lockstep
import Diversity.Proofs.MappedCalls
import Diversity.Proofs.Parts
/-! Graphs under other identities. -/
namespace Diversity

/-- New identities for old ones. What is not numbered stays so. -/
structure Renaming where
  node : NodeId → NodeId
  block : BlockId → BlockId
  chunk : ChunkId → ChunkId
  unnumbered : node .unnumbered = .unnumbered

namespace Renaming

attribute [simp] unnumbered

/-- Different identities stay different. -/
class Faithful (ρ : Renaming) : Prop where
  node : Function.Injective ρ.node
  block : Function.Injective ρ.block
  chunk : Function.Injective ρ.chunk

/-- What is drawn from the first supply becomes what is drawn from the second one. -/
def Paces (ρ : Renaming) (s s' : Supply) : Prop :=
  ∀ k, ρ.node ⟨s.next + k⟩ = ⟨s'.next + k⟩ ∧ ρ.block ⟨s.next + k⟩ = ⟨s'.next + k⟩

theorem Paces.next {ρ : Renaming} {s s' : Supply} (h : ρ.Paces s s') : ρ.Paces ⟨s.next + 1⟩ ⟨s'.next + 1⟩ := by
  intro k
  simpa only [Nat.add_assoc] using h (1 + k)

def key (ρ : Renaming) (k : Option ChunkId × String) : Option ChunkId × String := (k.1.map ρ.chunk, k.2)

end Renaming

variable {ρ : Renaming}

def Variable.rename (ρ : Renaming) (v : Variable) : Variable := { v with chunk := v.chunk.map ρ.chunk }

def BlockRef.rename (ρ : Renaming) (r : BlockRef) : BlockRef := ⟨r.name, ρ.block r.id⟩

namespace Expr

mutual

def rename (ρ : Renaming) : Expr → Expr
  | .var id v => .var (ρ.node id) (v.rename ρ)
  | .ref id target => .ref (ρ.node id) (rename ρ target)
  | .deref id target => .deref (ρ.node id) (rename ρ target)
  | .index id target position => .index (ρ.node id) (rename ρ target) (rename ρ position)
  | .call id target args => .call (ρ.node id) (rename ρ target) (renameAll ρ args)
  | .op id symbol operands => .op (ρ.node id) symbol (renameAll ρ operands)
  | .value id literal => .value (ρ.node id) literal
  | .cast id target type => .cast (ρ.node id) (rename ρ target) type
  | .sizeofExpr id target => .sizeofExpr (ρ.node id) (rename ρ target)
  | .sizeofType id type => .sizeofType (ρ.node id) type

def renameAll (ρ : Renaming) : List Expr → List Expr
  | [] => []
  | e :: es => rename ρ e :: renameAll ρ es

end

end Expr

namespace Stmt

mutual

def rename (ρ : Renaming) : Stmt → Stmt
  | .assign id target value => .assign (ρ.node id) (target.rename ρ) (value.rename ρ)
  | .call id callee => .call (ρ.node id) (callee.rename ρ)
  | .choice id branches => .choice (ρ.node id) (renameBranches ρ branches)
  | .loop id condition body => .loop (ρ.node id) (condition.rename ρ) (renameAll ρ body)
  | .expr id e => .expr (ρ.node id) (e.rename ρ)
  | .group id body => .group (ρ.node id) (renameAll ρ body)

def renameAll (ρ : Renaming) : List Stmt → List Stmt
  | [] => []
  | s :: ss => rename ρ s :: renameAll ρ ss

def renameBranch (ρ : Renaming) : Branch → Branch
  | .mk condition body => .mk (condition.map (·.rename ρ)) (renameAll ρ body)

def renameBranches (ρ : Renaming) : List Branch → List Branch
  | [] => []
  | b :: bs => renameBranch ρ b :: renameBranches ρ bs

end

end Stmt

def Node.rename (ρ : Renaming) : Node → Node
  | .stmt s => .stmt (s.rename ρ)
  | .expr e => .expr (e.rename ρ)

def Block.rename (ρ : Renaming) (b : Block) : Block :=
  { b with id := ρ.block b.id, statements := Stmt.renameAll ρ b.statements }

def BlockSet.rename (ρ : Renaming) (bs : BlockSet) : BlockSet := .of (bs.toList.map (·.rename ρ))

def Declaration.rename (ρ : Renaming) (d : Declaration) : Declaration :=
  ⟨d.var.rename ρ, d.initial.map (·.rename ρ)⟩

def Chunk.rename (ρ : Renaming) (c : Chunk) : Chunk :=
  .of (ρ.chunk c.id) c.name c.constraint (c.vars.map (·.rename ρ))

@[simp] theorem Chunk.id_rename (c : Chunk) : (c.rename ρ).id = ρ.chunk c.id := rfl

@[simp] theorem Chunk.constraint_rename (c : Chunk) : (c.rename ρ).constraint = c.constraint := rfl

@[simp] theorem Chunk.vars_rename (c : Chunk) : (c.rename ρ).vars = c.vars.map (Declaration.rename ρ) := rfl

def Graph.rename (ρ : Renaming) (g : Graph) : Graph :=
  ⟨g.entry, g.chunks.map (·.rename ρ), g.externs.map (·.rename ρ), g.blocks.rename ρ⟩

def DecoyPool.rename (ρ : Renaming) (pool : DecoyPool) : DecoyPool := ⟨pool.assets.map (·.rename ρ)⟩

/-! ## Expressions -/

@[simp] theorem Variable.name_rename (v : Variable) : (v.rename ρ).name = v.name := rfl

@[simp] theorem Variable.type_rename (v : Variable) : (v.rename ρ).type = v.type := rfl

@[simp] theorem Variable.chunk_rename (v : Variable) : (v.rename ρ).chunk = v.chunk.map ρ.chunk := rfl

@[simp] theorem Variable.key_rename (v : Variable) : (v.rename ρ).key = ρ.key v.key := rfl

theorem Renaming.key_injective [ρ.Faithful] : Function.Injective ρ.key := by
  intro k l h
  obtain ⟨hc, hn⟩ := Prod.mk.inj h
  exact Prod.ext (Option.map_injective Faithful.chunk hc) hn

namespace Expr

theorem renameAll_eq (es : List Expr) : renameAll ρ es = es.map (rename ρ) := by
  induction es with
  | nil => rfl
  | cons e es ih => rw [renameAll, ih, List.map_cons]

@[simp] theorem id_rename (e : Expr) : (e.rename ρ).id = ρ.node e.id := by
  cases e <;> rfl

theorem children_rename (e : Expr) : (e.rename ρ).children = e.children.map (rename ρ) := by
  cases e <;> simp [rename, children, renameAll_eq]

theorem nodes_rename (e : Expr) : (e.rename ρ).nodes = e.nodes.map (rename ρ) := by
  induction e using parts_induction with
  | step e ih =>
      rw [nodes_eq, nodes_eq e, children_rename, List.flatMap_map, List.map_cons, List.map_flatMap]
      exact congrArg _ (List.flatMap_congr ih)

@[simp] theorem var?_rename (e : Expr) : (e.rename ρ).var? = e.var?.map (Variable.rename ρ) := by
  cases e <;> rfl

@[simp] theorem isZero_rename (e : Expr) : (e.rename ρ).isZero = e.isZero := by
  cases e <;> rfl

theorem mapChildren_rename (e : Expr) {f g : Expr → Expr} (h : ∀ c ∈ e.children, g (c.rename ρ) = (f c).rename ρ) :
    (e.rename ρ).mapChildren g = (e.mapChildren f).rename ρ := by
  cases e <;> simp_all [rename, mapChildren, renameAll_eq, children]

mutual

@[simp] theorem text_rename (e : Expr) : (e.rename ρ).text = e.text := by
  match e with
  | .var _ _ | .value _ _ | .sizeofType _ _ => rfl
  | .ref _ target | .deref _ target | .cast _ target _ | .sizeofExpr _ target =>
      simp only [rename, text, text_rename target]
  | .index _ target position => simp only [rename, text, text_rename target, text_rename position]
  | .call _ target args => simp only [rename, text, text_rename target, texts_rename args]
  | .op _ _ operands => simp only [rename, text, texts_rename operands]

theorem texts_rename (es : List Expr) : texts (renameAll ρ es) = texts es := by
  match es with
  | [] => rfl
  | e :: es => simp only [renameAll, texts, text_rename e, texts_rename es]

end

theorem isBuiltin_rename (v : Variable) : (v.rename ρ).isBuiltin = v.isBuiltin := by
  simp [Variable.isBuiltin]

theorem guarded_rename (e : Expr) (rendered : String) : (e.rename ρ).guarded rendered = e.guarded rendered := by
  cases e <;> rfl

mutual

@[simp] theorem render_rename (e : Expr) : (e.rename ρ).render = e.render := by
  match e with
  | .var _ v => simp only [rename, render, Variable.render, isBuiltin_rename, Variable.name_rename]
  | .value _ _ | .sizeofType _ _ => rfl
  | .ref _ target | .deref _ target | .cast _ target _ | .sizeofExpr _ target =>
      simp only [rename, render, render_rename target]
  | .index _ target position =>
      simp only [rename, render, guarded_rename, render_rename target, render_rename position]
  | .call _ target args => simp only [rename, render, guarded_rename, render_rename target, renderAll_rename args]
  | .op _ _ operands => simp only [rename, render, renderAll_rename operands]

theorem renderAll_rename (es : List Expr) : renderAll (renameAll ρ es) = renderAll es := by
  match es with
  | [] => rfl
  | e :: es => simp only [renameAll, renderAll, render_rename e, renderAll_rename es]

end

@[simp] theorem renderCondition_rename (e : Expr) : (e.rename ρ).renderCondition = e.renderCondition := by
  have h := e.render_rename (ρ := ρ)
  cases e <;> simp only [rename, renderCondition] at h ⊢ <;> rw [h]

@[simp] theorem ownSymbols_rename (e : Expr) : (e.rename ρ).ownSymbols = e.ownSymbols := by
  cases e <;> simp [rename, ownSymbols, isBuiltin_rename]

@[simp] theorem symbols_rename (e : Expr) : (e.rename ρ).symbols = e.symbols := by
  simp [symbols, nodes_rename, List.flatMap_map]

theorem sameShapes_map {f : Expr → Expr} {as : List Expr} (h : ∀ a ∈ as, ∀ b, (f a).sameShape (f b) = a.sameShape b)
    (bs : List Expr) : sameShapes (as.map f) (bs.map f) = sameShapes as bs := by
  induction as generalizing bs with
  | nil => cases bs <;> rfl
  | cons a as ih =>
      cases bs with
      | nil => rfl
      | cons b bs =>
          rw [List.map_cons, List.map_cons, sameShapes, sameShapes, h a List.mem_cons_self,
            ih fun a ha => h a (List.mem_cons_of_mem _ ha)]

@[simp] theorem sameShape_rename [ρ.Faithful] (a b : Expr) : (a.rename ρ).sameShape (b.rename ρ) = a.sameShape b := by
  induction a using parts_induction generalizing b with
  | step a ih =>
      cases a <;> cases b <;> try rfl
      case var.var => simp [rename, sameShape, Renaming.key_injective.eq_iff]
      case ref.ref s _ t | deref.deref s _ t | sizeofExpr.sizeofExpr s _ t =>
        simp [rename, sameShape, ih s (List.mem_singleton_self s)]
      case cast.cast s _ _ t _ => simp [rename, sameShape, ih s (List.mem_singleton_self s)]
      case index.index s i _ t j => simp [rename, sameShape, ih s (by simp [children]), ih i (by simp [children])]
      case call.call s as _ t bs =>
        simp [rename, sameShape, renameAll_eq, ih s List.mem_cons_self,
          sameShapes_map fun a ha => ih a (List.mem_cons_of_mem _ ha)]
      case op.op as _ _ bs =>
        have hall : sameShapes (as.map (rename ρ)) (bs.map (rename ρ)) = sameShapes as bs := sameShapes_map ih bs
        rw [rename, rename, sameShape, sameShape, renameAll_eq, renameAll_eq, hall]

end Expr

/-! ## Drawing from two supplies -/

namespace Renaming

/-- Drawing identities in step. -/
abbrev pace (ρ : Renaming) : Lockstep (StateM Supply) := .state ρ.Paces

theorem holds_node : ρ.pace.Holds ρ.node Supply.node Supply.node := fun _ _ h => ⟨((h 0).1).symm, h.next⟩

theorem holds_block : ρ.pace.Holds ρ.block Supply.block Supply.block := fun _ _ h => ⟨((h 0).2).symm, h.next⟩

end Renaming

namespace Expr

open Renaming

mutual

theorem holds_refresh (e : Expr) : ρ.pace.Holds (rename ρ) e.refresh (e.rename ρ).refresh := by
  match e with
  | .var _ v => exact ρ.pace.bind holds_node fun i => ρ.pace.pure (rename ρ) (.var i v)
  | .ref _ target =>
      refine ρ.pace.bind (holds_refresh target) fun target => ?_
      exact ρ.pace.bind holds_node fun i => ρ.pace.pure (rename ρ) (.ref i target)
  | .deref _ target =>
      refine ρ.pace.bind (holds_refresh target) fun target => ?_
      exact ρ.pace.bind holds_node fun i => ρ.pace.pure (rename ρ) (.deref i target)
  | .index _ target position =>
      refine ρ.pace.bind (holds_refresh target) fun target => ?_
      refine ρ.pace.bind (holds_refresh position) fun position => ?_
      exact ρ.pace.bind holds_node fun i => ρ.pace.pure (rename ρ) (.index i target position)
  | .call _ target args =>
      refine ρ.pace.bind (holds_refresh target) fun target => ?_
      refine ρ.pace.bind (holds_refreshAll args) fun args => ?_
      exact ρ.pace.bind holds_node fun i => ρ.pace.pure (rename ρ) (.call i target args)
  | .op _ symbol operands =>
      refine ρ.pace.bind (holds_refreshAll operands) fun operands => ?_
      exact ρ.pace.bind holds_node fun i => ρ.pace.pure (rename ρ) (.op i symbol operands)
  | .value _ literal => exact ρ.pace.bind holds_node fun i => ρ.pace.pure (rename ρ) (.value i literal)
  | .cast _ target type =>
      refine ρ.pace.bind (holds_refresh target) fun target => ?_
      exact ρ.pace.bind holds_node fun i => ρ.pace.pure (rename ρ) (.cast i target type)
  | .sizeofExpr _ target =>
      refine ρ.pace.bind (holds_refresh target) fun target => ?_
      exact ρ.pace.bind holds_node fun i => ρ.pace.pure (rename ρ) (.sizeofExpr i target)
  | .sizeofType _ type => exact ρ.pace.bind holds_node fun i => ρ.pace.pure (rename ρ) (.sizeofType i type)

theorem holds_refreshAll (es : List Expr) :
    ρ.pace.Holds (renameAll ρ) (refreshAll es) (refreshAll (renameAll ρ es)) := by
  match es with
  | [] => exact ρ.pace.pure (renameAll ρ) []
  | e :: es =>
      refine ρ.pace.bind (holds_refresh e) fun e => ?_
      exact ρ.pace.bind (holds_refreshAll es) fun es => ρ.pace.pure (renameAll ρ) (e :: es)

end

end Expr

/-! ## Statements -/

namespace Stmt

theorem renameAll_append (front back : List Stmt) :
    renameAll ρ (front ++ back) = renameAll ρ front ++ renameAll ρ back := by
  induction front with
  | nil => rfl
  | cons x front ih => rw [List.cons_append, renameAll, ih, renameAll, List.cons_append]

theorem asNodes_rename (e : Expr) : (e.rename ρ).asNodes = e.asNodes.map (Node.rename ρ) := by
  simp [Expr.asNodes, Expr.nodes_rename, Node.rename]

mutual

theorem nodes_rename (x : Stmt) : (x.rename ρ).nodes = x.nodes.map (Node.rename ρ) := by
  match x with
  | .assign _ target value => simp [rename, nodes, asNodes_rename, Node.rename]
  | .call _ _ => rfl
  | .choice _ branches => simp [rename, nodes, nodesOfBranches_rename branches, Node.rename]
  | .loop _ condition body => simp [rename, nodes, asNodes_rename, nodesOfAll_rename body, Node.rename]
  | .expr _ e => simp [rename, nodes, asNodes_rename, Node.rename]
  | .group _ body => simp [rename, nodes, nodesOfAll_rename body, Node.rename]

theorem nodesOfAll_rename (body : List Stmt) :
    nodesOfAll (renameAll ρ body) = (nodesOfAll body).map (Node.rename ρ) := by
  match body with
  | [] => rfl
  | x :: rest => simp [renameAll, nodesOfAll, nodes_rename x, nodesOfAll_rename rest]

theorem nodesOfBranches_rename (branches : List Branch) :
    nodesOfBranches (renameBranches ρ branches) = (nodesOfBranches branches).map (Node.rename ρ) := by
  match branches with
  | [] => rfl
  | .mk none body :: rest =>
      simp [renameBranches, renameBranch, nodesOfBranches, nodesOfBranch, nodesOfAll_rename body,
        nodesOfBranches_rename rest]
  | .mk (some condition) body :: rest =>
      simp [renameBranches, renameBranch, nodesOfBranches, nodesOfBranch, asNodes_rename, nodesOfAll_rename body,
        nodesOfBranches_rename rest]

end

theorem calls_rename (body : List Stmt) :
    calls (renameAll ρ body) = (calls body).map fun c => (ρ.node c.1, c.2.rename ρ) := by
  have hcall (n : Node) : (n.rename ρ).call? = n.call?.map fun c => (ρ.node c.1, c.2.rename ρ) := by
    cases n with
    | expr _ => rfl
    | stmt s => cases s <;> rfl
  simp only [calls, nodesOfAll_rename, List.filterMap_map, List.map_filterMap, Function.comp_def, hcall]

theorem vars_rename (body : List Stmt) : vars (renameAll ρ body) = (vars body).map (Variable.rename ρ) := by
  have hvar (n : Node) : (n.rename ρ).var? = n.var?.map (Variable.rename ρ) := by
    cases n with
    | stmt _ => rfl
    | expr e => exact e.var?_rename
  simp only [vars, nodesOfAll_rename, List.filterMap_map, List.map_filterMap, Function.comp_def, hvar]

theorem symbols_rename (body : List Stmt) : symbols (renameAll ρ body) = symbols body := by
  rw [symbols, nodesOfAll_rename, List.flatMap_map, symbols]
  refine List.flatMap_congr fun n _ => ?_
  cases n with
  | stmt _ => rfl
  | expr e => exact e.ownSymbols_rename

mutual

theorem operands_rename (x : Stmt) : operands (x.rename ρ) = (operands x).map (·.map (Expr.rename ρ)) := by
  match x with
  | .assign _ _ _ => rfl
  | .call _ _ => rfl
  | .choice _ branches => simp [rename, operands, operandsOfBranches_rename branches]
  | .loop _ _ body => simp [rename, operands, Operand.map, operandsOfAll_rename body]
  | .expr _ _ => rfl
  | .group _ body => simp [rename, operands, operandsOfAll_rename body]

theorem operandsOfAll_rename (body : List Stmt) :
    operandsOfAll (renameAll ρ body) = (operandsOfAll body).map (·.map (Expr.rename ρ)) := by
  match body with
  | [] => rfl
  | x :: rest => simp [renameAll, operandsOfAll, operands_rename x, operandsOfAll_rename rest]

theorem operandsOfBranches_rename (branches : List Branch) :
    operandsOfBranches (renameBranches ρ branches) = (operandsOfBranches branches).map (·.map (Expr.rename ρ)) := by
  match branches with
  | [] => rfl
  | .mk none body :: rest =>
      simp [renameBranches, renameBranch, operandsOfBranches, operandsOfBranch,
        operandsOfAll_rename body, operandsOfBranches_rename rest]
  | .mk (some condition) body :: rest =>
      simp [renameBranches, renameBranch, operandsOfBranches, operandsOfBranch, Operand.map,
        operandsOfAll_rename body, operandsOfBranches_rename rest]

end

mutual

theorem render_rename (depth : Nat) (x : Stmt) : (x.rename ρ).render depth = x.render depth := by
  match x with
  | .assign _ _ _ | .expr _ _ => simp [rename, render]
  | .call _ _ => rfl
  | .choice _ branches => simp [rename, render, renderBranches_rename depth true branches]
  | .loop _ _ body => simp [rename, render, renderAll_rename (depth + 1) body]
  | .group _ body => simp [rename, render, renderAll_rename depth body]

theorem renderAll_rename (depth : Nat) (body : List Stmt) :
    renderAll depth (renameAll ρ body) = renderAll depth body := by
  match body with
  | [] => rfl
  | x :: rest => simp [renameAll, renderAll, render_rename depth x, renderAll_rename depth rest]

theorem renderBranches_rename (depth : Nat) (isFirst : Bool) (branches : List Branch) :
    renderBranches depth isFirst (renameBranches ρ branches) = renderBranches depth isFirst branches := by
  match branches with
  | [] => rfl
  | .mk none body :: rest | .mk (some condition) body :: rest =>
      simp [renameBranches, renameBranch, renderBranches, renderBranch, renderAll_rename (depth + 1) body,
        renderBranches_rename depth false rest]

end

mutual

theorem mapExprs_rename {f g : Expr → Expr} (h : ∀ e, g (e.rename ρ) = (f e).rename ρ) (x : Stmt) :
    (x.rename ρ).mapExprs g = (x.mapExprs f).rename ρ := by
  match x with
  | .assign _ _ _ | .expr _ _ => simp [rename, mapExprs, h]
  | .call _ _ => rfl
  | .choice _ branches => simp [rename, mapExprs, mapExprsOfBranches_rename h branches]
  | .loop _ _ body => simp [rename, mapExprs, h, mapExprsOfAll_rename h body]
  | .group _ body => simp [rename, mapExprs, mapExprsOfAll_rename h body]

theorem mapExprsOfAll_rename {f g : Expr → Expr} (h : ∀ e, g (e.rename ρ) = (f e).rename ρ) (body : List Stmt) :
    mapExprsOfAll g (renameAll ρ body) = renameAll ρ (mapExprsOfAll f body) := by
  match body with
  | [] => rfl
  | x :: rest => simp [renameAll, mapExprsOfAll, mapExprs_rename h x, mapExprsOfAll_rename h rest]

theorem mapExprsOfBranches_rename {f g : Expr → Expr} (h : ∀ e, g (e.rename ρ) = (f e).rename ρ)
    (branches : List Branch) :
    mapExprsOfBranches g (renameBranches ρ branches) = renameBranches ρ (mapExprsOfBranches f branches) := by
  match branches with
  | [] => rfl
  | .mk none body :: rest | .mk (some condition) body :: rest =>
      simp [renameBranches, renameBranch, mapExprsOfBranches, mapExprsOfBranch, h, mapExprsOfAll_rename h body,
        mapExprsOfBranches_rename h rest]

end

open Renaming

mutual

theorem holds_refresh (x : Stmt) : ρ.pace.Holds (rename ρ) x.refresh (x.rename ρ).refresh := by
  match x with
  | .assign _ target value =>
      refine ρ.pace.bind target.holds_refresh fun target => ?_
      refine ρ.pace.bind value.holds_refresh fun value => ?_
      exact ρ.pace.bind holds_node fun i => ρ.pace.pure (rename ρ) (.assign i target value)
  | .call _ callee => exact ρ.pace.bind holds_node fun i => ρ.pace.pure (rename ρ) (.call i callee)
  | .choice _ branches =>
      refine ρ.pace.bind (holds_refreshBranches branches) fun branches => ?_
      exact ρ.pace.bind holds_node fun i => ρ.pace.pure (rename ρ) (.choice i branches)
  | .loop _ condition body =>
      refine ρ.pace.bind condition.holds_refresh fun condition => ?_
      refine ρ.pace.bind (holds_refreshAll body) fun body => ?_
      exact ρ.pace.bind holds_node fun i => ρ.pace.pure (rename ρ) (.loop i condition body)
  | .expr _ e =>
      refine ρ.pace.bind e.holds_refresh fun e => ?_
      exact ρ.pace.bind holds_node fun i => ρ.pace.pure (rename ρ) (.expr i e)
  | .group _ body =>
      refine ρ.pace.bind (holds_refreshAll body) fun body => ?_
      exact ρ.pace.bind holds_node fun i => ρ.pace.pure (rename ρ) (.group i body)

theorem holds_refreshAll (body : List Stmt) :
    ρ.pace.Holds (renameAll ρ) (refreshAll body) (refreshAll (renameAll ρ body)) := by
  match body with
  | [] => exact ρ.pace.pure (renameAll ρ) []
  | x :: rest =>
      refine ρ.pace.bind (holds_refresh x) fun x => ?_
      exact ρ.pace.bind (holds_refreshAll rest) fun rest => ρ.pace.pure (renameAll ρ) (x :: rest)

theorem holds_refreshBranches (branches : List Branch) :
    ρ.pace.Holds (renameBranches ρ) (refreshBranches branches) (refreshBranches (renameBranches ρ branches)) := by
  match branches with
  | [] => exact ρ.pace.pure (renameBranches ρ) []
  | .mk none body :: rest =>
      refine ρ.pace.bind (φ := renameBranch ρ) ?_ fun b => ?_
      · exact ρ.pace.bind (holds_refreshAll body) fun body => ρ.pace.pure (renameBranch ρ) (.mk none body)
      · exact ρ.pace.bind (holds_refreshBranches rest) fun rest => ρ.pace.pure (renameBranches ρ) (b :: rest)
  | .mk (some condition) body :: rest =>
      refine ρ.pace.bind (φ := renameBranch ρ) ?_ fun b => ?_
      · refine ρ.pace.bind condition.holds_refresh fun condition => ?_
        exact ρ.pace.bind (holds_refreshAll body) fun body => ρ.pace.pure (renameBranch ρ) (.mk (some condition) body)
      · exact ρ.pace.bind (holds_refreshBranches rest) fun rest => ρ.pace.pure (renameBranches ρ) (b :: rest)

end

section

variable {m : Type → Type} [Monad m] {L : Lockstep m} {f g : NodeId → BlockRef → m (Option (List Stmt))}

mutual

/-- If the replacements of calls go in step, all statements do. -/
theorem holds_mapCalls (h : ∀ i c, L.Holds (Option.map (renameAll ρ)) (f i c) (g (ρ.node i) (c.rename ρ))) (x : Stmt) :
    L.Holds (renameAll ρ) (x.mapCalls f) ((x.rename ρ).mapCalls g) := by
  match x with
  | .assign i target value => exact L.pure (renameAll ρ) [.assign i target value]
  | .call i callee =>
      refine L.bind (h i callee) fun o => ?_
      cases o with
      | none => exact L.pure (renameAll ρ) [.call i callee]
      | some front => exact L.pure (renameAll ρ) front
  | .choice i branches =>
      exact L.bind (holds_mapCallsOfBranches h branches) fun branches => L.pure (renameAll ρ) [.choice i branches]
  | .loop i condition body =>
      exact L.bind (holds_mapCallsOfAll h body) fun body => L.pure (renameAll ρ) [.loop i condition body]
  | .expr i e => exact L.pure (renameAll ρ) [.expr i e]
  | .group i body => exact L.bind (holds_mapCallsOfAll h body) fun body => L.pure (renameAll ρ) [.group i body]

theorem holds_mapCallsOfAll (h : ∀ i c, L.Holds (Option.map (renameAll ρ)) (f i c) (g (ρ.node i) (c.rename ρ)))
    (body : List Stmt) : L.Holds (renameAll ρ) (mapCallsOfAll f body) (mapCallsOfAll g (renameAll ρ body)) := by
  match body with
  | [] => exact L.pure (renameAll ρ) []
  | x :: rest =>
      refine L.bind (holds_mapCalls h x) fun front => ?_
      refine L.bind (holds_mapCallsOfAll h rest) fun rest => ?_
      rw [← renameAll_append]
      exact L.pure (renameAll ρ) (front ++ rest)

theorem holds_mapCallsOfBranches (h : ∀ i c, L.Holds (Option.map (renameAll ρ)) (f i c) (g (ρ.node i) (c.rename ρ)))
    (branches : List Branch) :
    L.Holds (renameBranches ρ) (mapCallsOfBranches f branches) (mapCallsOfBranches g (renameBranches ρ branches)) := by
  match branches with
  | [] => exact L.pure (renameBranches ρ) []
  | .mk condition body :: rest =>
      refine L.bind (φ := renameBranch ρ) ?_ fun b => ?_
      · exact L.bind (holds_mapCallsOfAll h body) fun body => L.pure (renameBranch ρ) (.mk condition body)
      · exact L.bind (holds_mapCallsOfBranches h rest) fun rest => L.pure (renameBranches ρ) (b :: rest)

end

end

end Stmt

end Diversity
