import Diversity.Proofs.RenamedCaptures
import Diversity.Proofs.RenamedTraces
/-! Programs under other identities: a graph is lowered to the same text. -/
namespace Diversity

variable {ρ : Renaming}

def Parameter.rename (ρ : Renaming) (p : Parameter) : Parameter := ⟨ρ.key p.key, p.lifted.rename ρ⟩

def Parameters.rename (ρ : Renaming) (ps : Parameters) : Parameters :=
  ps.map fun r => (r.1, r.2.map (Parameter.rename ρ))

def Global.rename (ρ : Renaming) (g : Global) : Global := { g with declaration := g.declaration.rename ρ }

def Function.rename (ρ : Renaming) (f : Function) : Function :=
  { f with
    params := f.params.map (·.rename ρ)
    statics := f.statics.map (·.rename ρ)
    locals := f.locals.map (·.rename ρ)
    body := Stmt.renameAll ρ f.body }

def Program.rename (ρ : Renaming) (p : Program) : Program :=
  ⟨p.externs.map (·.rename ρ), p.globals.map (·.rename ρ), p.functions.map (·.rename ρ)⟩

/-! ## Parameters -/

namespace Parameters

theorem of_rename (ps : Parameters) (function : String) :
    (Parameters.rename ρ ps).of function = (ps.of function).map (Parameter.rename ρ) := by
  have hlookup := lookup_map Function.injective_id (List.map (Parameter.rename ρ)) ps function
  simp only [of, rename, id] at hlookup ⊢
  rw [hlookup]
  cases ps.lookup function <;> rfl

theorem substitution_rename (ps : Parameters) :
    (Parameters.rename ρ ps).substitution = Substitution.rename ρ ps.substitution := by
  simp only [substitution, rename, Substitution.rename, List.flatMap_map, List.map_flatMap]
  rfl

end Parameters

theorem BlockSet.get_rename (bs : BlockSet) (name : String) :
    (bs.rename ρ).get name = (bs.get name).map (Block.rename ρ) := by
  simp only [get, find?_rename]
  cases bs.find? name <;> rfl

namespace Trace

variable [ρ.Faithful]

theorem parametersOf_rename (t : Trace) (bs : BlockSet) (p : Placement) (name : String) :
    (t.rename ρ).parametersOf (bs.rename ρ) (p.rename ρ) name =
      (t.parametersOf bs p name).map (List.map (Parameter.rename ρ)) := by
  refine Lockstep.except.bind (bs.get_rename name) fun b => ?_
  have hlocal (v : Variable) : (v.rename ρ).chunk.any (p.rename ρ).isLocal = v.chunk.any p.isLocal := by
    simp only [Variable.chunk_rename, Option.any_map, Placement.isLocal_rename]
  rw [needs_rename, List.filter_map]
  simp only [Function.comp_def, hlocal]
  refine Lockstep.except.mapM fun v _ => ?_
  exact Lockstep.except.bind (b.lift_rename bs v) fun l => Lockstep.except.pure (Parameter.rename ρ) ⟨v.key, l⟩

theorem parameters_rename (t : Trace) (bs : BlockSet) (p : Placement) :
    (t.rename ρ).parameters (bs.rename ρ) (p.rename ρ) = (t.parameters bs p).map (Parameters.rename ρ) := by
  rw [parameters, blocks_rename]
  refine Lockstep.except.mapM_same fun name _ => ?_
  refine Lockstep.except.bind (t.parametersOf_rename bs p name) fun ps => ?_
  exact Lockstep.except.pure (fun r => (r.1, r.2.map (Parameter.rename ρ))) (name, ps)

end Trace

theorem Capture.argument_rename (c : Capture) : (c.rename ρ).argument = c.argument.rename ρ := by
  simp [argument]

section

variable [ρ.Faithful]

theorem Parameter.argument_rename (t : Trace) (caller : String) (own : List Parameter) (p : Parameter) :
    (p.rename ρ).argument (t.rename ρ) caller (own.map (Parameter.rename ρ)) =
      (p.argument t caller own).map (Expr.rename ρ) := by
  have hkey (q : Parameter) : (q.rename ρ).key = (p.rename ρ).key ↔ q.key = p.key := ρ.key_injective.eq_iff
  simp only [argument, List.find?_map, Function.comp_def, hkey]
  cases own.find? (·.key = p.key) with
  | none =>
      have hdeclares : (t.rename ρ).declares caller (p.rename ρ).key = t.declares caller p.key :=
        t.declares_rename caller p.key
      simp only [Option.map_none, hdeclares]
      refine Lockstep.except.ite (fun _ => ?_) fun _ => rfl
      exact congrArg Except.ok p.lifted.maximal.argument_rename
  | some q =>
      have hhole : (Expr.var .unnumbered q.lifted.param.var).rename ρ =
          .var .unnumbered (q.lifted.param.var.rename ρ) := by
        rw [Expr.rename, ρ.unnumbered]
      have hthrough := p.lifted.maximal.through_rename (ρ := ρ) q.lifted.maximal (.var .unnumbered q.lifted.param.var)
      rw [hhole] at hthrough
      refine congrArg Except.ok (Eq.trans ?_ (Capture.argument_rename _))
      exact congrArg Capture.argument hthrough

theorem callFunction_rename (t : Trace) (ps : Parameters) (caller : String) (callee : BlockRef) :
    callFunction (t.rename ρ) (Parameters.rename ρ ps) caller (callee.rename ρ) =
      (callFunction t ps caller callee).map (Stmt.rename ρ) := by
  simp only [callFunction, Parameters.of_rename, BlockRef.name_rename, List.map_map]
  refine Lockstep.except.bind (Lockstep.except.mapM fun p _ => p.argument_rename t caller (ps.of caller)) fun args => ?_
  have htypes : (fun p => p.type) ∘ Parameter.rename ρ = Parameter.type := rfl
  rw [htypes]
  have hcall (function : Variable) (hf : function.rename ρ = function) :
      Stmt.expr .unnumbered (.call .unnumbered (.var .unnumbered function) (args.map (Expr.rename ρ))) =
        (Stmt.expr .unnumbered (.call .unnumbered (.var .unnumbered function) args)).rename ρ := by
    simp [Stmt.rename, Expr.rename, Expr.renameAll_eq, hf]
  exact congrArg Except.ok (hcall _ rfl)

end

/-! ## Lowering -/

namespace Graph

variable [ρ.Faithful]

theorem chunksAt_rename (g : Graph) (p : Placement) (t : Trace) (function : String) :
    (g.rename ρ).chunksAt (p.rename ρ) (t.rename ρ) function = (g.chunksAt p t function).map (Chunk.rename ρ) := by
  have hat (c : Chunk) : ((p.rename ρ).isLocal (c.rename ρ).id && (t.rename ρ).site (c.rename ρ).id == function) =
      (p.isLocal c.id && t.site c.id == function) := by
    rw [Chunk.id_rename, Placement.isLocal_rename, Trace.site_rename]
  simp only [chunksAt, rename, List.filter_map, Function.comp_def, hat]

theorem lowerBlock_rename (g : Graph) (p : Placement) (t : Trace) (ps : Parameters) (b : Block) :
    (g.rename ρ).lowerBlock (p.rename ρ) (t.rename ρ) (Parameters.rename ρ ps) (b.rename ρ) =
      (g.lowerBlock p t ps b).map (Function.rename ρ) := by
  have hbody := Stmt.mapExprsOfAll_rename (ρ := ρ) (fun e => e.substitute_rename ps.substitution) b.statements
  rw [← Parameters.substitution_rename] at hbody
  have hcalls := Stmt.holds_mapCallsOfAll (ρ := ρ) (L := Lockstep.except)
    (f := fun _ callee => do return some [← callFunction t ps b.name callee])
    (g := fun _ callee => do return some [← callFunction (t.rename ρ) (Parameters.rename ρ ps) b.name callee])
    (fun _ callee => Lockstep.except.bind (callFunction_rename t ps b.name callee) fun x =>
      Lockstep.except.pure (Option.map (Stmt.renameAll ρ)) (some [x]))
    (Stmt.mapExprsOfAll (·.substitute ps.substitution) b.statements)
  rw [← hbody] at hcalls
  refine Lockstep.except.bind hcalls fun body => ?_
  have hchunks := g.chunksAt_rename (ρ := ρ) p t b.name
  have hvars (chosen : Chunk → Bool) (hc : ∀ c, chosen (c.rename ρ) = chosen c) (cs : List Chunk) :
      ((cs.map (Chunk.rename ρ)).filter chosen).flatMap (·.vars) =
        ((cs.filter chosen).flatMap (·.vars)).map (Declaration.rename ρ) := by
    simp only [List.filter_map, Function.comp_def, hc, List.flatMap_map, List.map_flatMap]
    rfl
  simp only [Block.name_rename, hchunks, Parameters.of_rename, hvars (·.constraint.isStatic) fun _ => rfl,
    hvars (!·.constraint.isStatic) fun _ => rfl]
  refine congrArg Except.ok ?_
  simp only [Function.rename, List.map_map]
  rfl

theorem globals_rename (g : Graph) (p : Placement) :
    (g.rename ρ).globals (p.rename ρ) = (g.globals p).map (Global.rename ρ) := by
  simp only [globals, rename, List.filter_map, Function.comp_def, List.flatMap_map, List.map_flatMap, List.map_map,
    Chunk.id_rename, Chunk.constraint_rename, Chunk.vars_rename, Placement.isLocal_rename]
  rfl

theorem lower_rename (g : Graph) (bs : BlockSet) (p : Placement) :
    (g.rename ρ).lower (bs.rename ρ) (p.rename ρ) = (g.lower bs p).map (Program.rename ρ) := by
  refine Lockstep.except.bind (bs.get_rename g.entry) fun root => ?_
  refine Lockstep.except.bind (Trace.ofBlock_rename bs root true) fun t => ?_
  refine Lockstep.except.bind (t.parameters_rename bs p) fun ps => ?_
  rw [Trace.blocks_rename]
  refine Lockstep.except.bind (φ := List.map (Function.rename ρ)) (Lockstep.except.mapM_same fun name _ => ?_)
    fun functions => ?_
  · exact Lockstep.except.bind (bs.get_rename name) fun b => g.lowerBlock_rename p t ps b
  · have hdistinct (ds : List Declaration) :
        distinctBy (·.name) (ds.map (Declaration.rename ρ)) = (distinctBy (·.name) ds).map (Declaration.rename ρ) :=
      distinctBy_map (fun _ _ => Iff.rfl) ds
    refine congrArg Except.ok ?_
    simp only [Program.rename, ← hdistinct, ← globals_rename, List.map_append, Trace.externs_rename, List.map_map]
    rfl

end Graph

/-! ## Text -/

namespace Declaration

@[simp] theorem name_rename (d : Declaration) : (d.rename ρ).name = d.name := rfl

@[simp] theorem declarator_rename (d : Declaration) : (d.rename ρ).var.declarator = d.var.declarator := rfl

@[simp] theorem isBuiltin_rename (d : Declaration) : (d.rename ρ).var.isBuiltin = d.var.isBuiltin :=
  Expr.isBuiltin_rename d.var

@[simp] theorem typeSymbols_rename (d : Declaration) : (d.rename ρ).typeSymbols = d.typeSymbols := rfl

@[simp] theorem render_rename (depth : Nat) (isStatic : Bool) (d : Declaration) :
    (d.rename ρ).render depth isStatic = d.render depth isStatic := by
  have hinitial : (d.rename ρ).initial = d.initial.map (Expr.rename ρ) := rfl
  rw [render, render, declarator_rename, hinitial]
  cases d.initial <;> simp

@[simp] theorem symbols_rename (d : Declaration) : (d.rename ρ).symbols = d.symbols := by
  have hinitial : (d.rename ρ).initial = d.initial.map (Expr.rename ρ) := rfl
  rw [symbols, symbols, typeSymbols_rename, hinitial]
  cases d.initial <;> simp

@[simp] theorem renderExtern_rename (d : Declaration) : (d.rename ρ).renderExtern = d.renderExtern := by
  simp [renderExtern]

@[simp] theorem externSymbols_rename (d : Declaration) : (d.rename ρ).externSymbols = d.externSymbols := by
  simp [externSymbols]

end Declaration

namespace Function

@[simp] theorem signature_rename (f : Function) : (f.rename ρ).signature = f.signature := by
  simp [signature, rename, Function.comp_def]

@[simp] theorem render_rename (f : Function) : (f.rename ρ).render = f.render := by
  rw [render, render, signature_rename]
  simp [rename, isMain, Function.comp_def, Stmt.renderAll_rename]

@[simp] theorem symbols_rename (f : Function) : (f.rename ρ).symbols = f.symbols := by
  simp [symbols, rename, List.flatMap_map, Stmt.symbols_rename]

end Function

namespace Program

theorem headers_rename (p : Program) : (p.rename ρ).headers = p.headers := by
  simp [headers, symbols, rename, List.flatMap_map, Global.rename]

theorem render_rename (p : Program) : (p.rename ρ).render = p.render := by
  have hmain (f : Function) : (f.rename ρ).isMain = f.isMain := rfl
  simp only [render, headers_rename]
  simp [rename, Global.rename, List.filter_map, Function.comp_def, hmain]

end Program

end Diversity
