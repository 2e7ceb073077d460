import Diversity.Inline
import Diversity.Proofs.Failure
import Diversity.Proofs.Renaming
/-! Blocks under other identities: they are found, called, placed and spliced as before. -/
namespace Diversity

variable {ρ : Renaming}

/-! ## Sets of blocks -/

namespace Block

@[simp] theorem name_rename (b : Block) : (b.rename ρ).name = b.name := rfl

@[simp] theorem constraint_rename (b : Block) : (b.rename ρ).constraint = b.constraint := rfl

@[simp] theorem ref_rename (b : Block) : (b.rename ρ).ref = b.ref.rename ρ := rfl

@[simp] theorem calls_rename (b : Block) : (b.rename ρ).calls = b.calls.map fun c => (ρ.node c.1, c.2.rename ρ) :=
  Stmt.calls_rename b.statements

@[simp] theorem vars_rename (b : Block) : (b.rename ρ).vars = b.vars.map (Variable.rename ρ) :=
  Stmt.vars_rename b.statements

end Block

@[simp] theorem BlockRef.name_rename (r : BlockRef) : (r.rename ρ).name = r.name := rfl

namespace BlockSet

@[simp] theorem toList_rename (bs : BlockSet) : (bs.rename ρ).toList = bs.toList.map (Block.rename ρ) := rfl

@[simp] theorem names_rename (bs : BlockSet) : (bs.rename ρ).names = bs.names := by
  simp [names, Function.comp_def]

@[simp] theorem index_rename (bs : BlockSet) : (bs.rename ρ).index = bs.index :=
  bs.index_of_map Block.name_rename

theorem find?_rename (bs : BlockSet) (name : String) :
    (bs.rename ρ).find? name = (bs.find? name).map (Block.rename ρ) :=
  bs.find?_of_map Block.name_rename name

@[simp] theorem contains_rename (bs : BlockSet) (name : String) : (bs.rename ρ).contains name = bs.contains name := by
  rw [contains, contains, index_rename]

theorem insert_rename (bs : BlockSet) (b : Block) :
    (bs.rename ρ).insert (b.rename ρ) = (bs.insert b).map (rename ρ) := by
  simp only [insert, contains_rename, Block.name_rename]
  split
  · rfl
  · exact congrArg Except.ok (BlockSet.ext (by simp))

theorem insertAll_rename (bs : BlockSet) (blocks : List Block) :
    (bs.rename ρ).insertAll (blocks.map (Block.rename ρ)) = (bs.insertAll blocks).map (rename ρ) :=
  Lockstep.except.foldlM bs fun bs b _ => insert_rename bs b

theorem ofList_rename (blocks : List Block) : ofList (blocks.map (Block.rename ρ)) = (ofList blocks).map (rename ρ) :=
  insertAll_rename empty blocks

theorem replace_rename (bs : BlockSet) (b : Block) :
    (bs.rename ρ).replace (b.rename ρ) = (bs.replace b).map (rename ρ) := by
  rw [replace_eq, replace_eq, index_rename, toList_rename, Block.name_rename]
  cases bs.index.find? b.name with
  | none => rfl
  | some i => exact congrArg Except.ok (BlockSet.ext (List.map_set.symm))

theorem resolve_rename [ρ.Faithful] (bs : BlockSet) (c : BlockRef) :
    (bs.rename ρ).resolve (c.rename ρ) = (bs.resolve c).map (Block.rename ρ) := by
  simp only [resolve, find?_rename, BlockRef.name_rename]
  cases bs.find? c.name with
  | none => rfl
  | some b =>
      have hid : (b.rename ρ).id = (c.rename ρ).id ↔ b.id = c.id := Renaming.Faithful.block.eq_iff
      simp only [Option.map_some, hid]
      split <;> rfl

theorem redirect_rename (bs : BlockSet) (i : NodeId) (c : BlockRef) :
    (bs.rename ρ).redirect (ρ.node i) (c.rename ρ) = (bs.redirect i c).map (Option.map (Stmt.renameAll ρ)) := by
  simp only [redirect, find?_rename, BlockRef.name_rename]
  cases bs.find? c.name <;> rfl

theorem repaired_rename (blocks : List Block) :
    repaired (blocks.map (Block.rename ρ)) = (repaired blocks).map (rename ρ) := by
  refine Lockstep.except.bind (ofList_rename blocks) fun bs => ?_
  refine Lockstep.except.bind (Lockstep.except.mapM (φ := Block.rename ρ) (ψ := Block.rename ρ) ?_) ofList_rename
  intro b _
  refine Lockstep.except.bind (Stmt.holds_mapCallsOfAll (redirect_rename bs) b.statements) fun body => ?_
  exact Lockstep.except.pure (Block.rename ρ) (b.withBody body)

end BlockSet

/-! ## Placements -/

namespace Block

theorem pushCallees_rename [ρ.Faithful] (bs : BlockSet) (goal : String) (calls : List BlockRef) (seen : List String)
    (pending : List Block) :
    pushCallees (bs.rename ρ) goal (calls.map (BlockRef.rename ρ)) seen (pending.map (Block.rename ρ)) =
      (pushCallees bs goal calls seen pending).map (Option.map fun r => (r.1, r.2.map (Block.rename ρ))) := by
  induction calls generalizing seen pending with
  | nil => rfl
  | cons c calls ih =>
      simp only [List.map_cons, pushCallees, BlockRef.name_rename]
      refine Lockstep.except.ite (fun _ => rfl) fun _ => Lockstep.except.ite (fun _ => ih seen pending) fun _ => ?_
      exact Lockstep.except.bind (BlockSet.resolve_rename bs c) fun b => ih (c.name :: seen) (b :: pending)

theorem callsBelow_cons (bs : BlockSet) (goal : String) (seen : List String) (b : Block) (pending : List Block) :
    callsBelow bs goal seen (b :: pending) =
      pushCallees bs goal (b.calls.map (·.2)) seen pending >>= fun r =>
        r.elim (.ok true) fun r => callsBelow bs goal r.1 r.2 := by
  rw [callsBelow]
  split
  all_goals
    rename_i he
    rw [he]
    rfl

theorem callsBelow_rename [ρ.Faithful] (bs : BlockSet) (goal : String) (seen : List String) (pending : List Block) :
    callsBelow (bs.rename ρ) goal seen (pending.map (Block.rename ρ)) = callsBelow bs goal seen pending := by
  have hpush (b : Block) (seen : List String) (pending : List Block) :
      pushCallees (bs.rename ρ) goal ((b.rename ρ).calls.map (·.2)) seen (pending.map (Block.rename ρ)) =
        (pushCallees bs goal (b.calls.map (·.2)) seen pending).map
          (Option.map fun r => (r.1, r.2.map (Block.rename ρ))) := by
    rw [calls_rename, List.map_map, ← pushCallees_rename, List.map_map]
    rfl
  fun_induction callsBelow bs goal seen pending with
  | case1 seen => rw [List.map_nil, callsBelow]
  | case2 seen b pending e he =>
      rw [List.map_cons, callsBelow_cons, hpush, he]
      rfl
  | case3 seen b pending he =>
      rw [List.map_cons, callsBelow_cons, hpush, he]
      rfl
  | case4 seen b pending seen' pending' he ih =>
      rw [List.map_cons, callsBelow_cons, hpush, he]
      exact ih

theorem reachesItself_rename [ρ.Faithful] (bs : BlockSet) (b : Block) :
    (b.rename ρ).reachesItself (bs.rename ρ) = b.reachesItself bs :=
  callsBelow_rename bs b.name [] [b]

end Block

theorem Graph.root_rename (g : Graph) : (g.rename ρ).root = g.root.map (Block.rename ρ) := by
  simp only [root, rename, BlockSet.find?_rename]
  cases g.blocks.find? g.entry <;> rfl

def Placement.rename (ρ : Renaming) (p : Placement) : Placement := { p with locals := p.locals.map ρ.chunk }

namespace Placement

@[simp] theorem isFunc_rename (p : Placement) (block : String) : (p.rename ρ).isFunc block = p.isFunc block := rfl

@[simp] theorem isInline_rename (p : Placement) (block : String) : (p.rename ρ).isInline block = p.isInline block := rfl

@[simp] theorem isLocal_rename [ρ.Faithful] (p : Placement) (c : ChunkId) :
    (p.rename ρ).isLocal (ρ.chunk c) = p.isLocal c := by
  simp [isLocal, rename, Renaming.Faithful.chunk.eq_iff]

section

variable {σ : Type} [RandomSource σ]

/-- Drawing from the same random source. -/
abbrev chance (σ : Type) : Lockstep (StateT σ (Except SynthesisError)) := .stateT Eq

theorem holds_drawFunc [ρ.Faithful] (g : Graph) (b : Block) :
    (chance σ).Holds id (drawFunc g b) (drawFunc (g.rename ρ) (b.rename ρ)) := by
  unfold drawFunc
  refine (chance σ).ite (fun _ => (chance σ).pure id true) fun _ => ?_
  refine (chance σ).ite (fun _ => (chance σ).pure id false) fun _ => ?_
  have hitself := Lockstep.except_id.2 (b.reachesItself_rename (ρ := ρ) g.blocks)
  refine (chance σ).bind (Lockstep.liftM hitself) fun itself => ?_
  exact (chance σ).ite (fun _ => (chance σ).pure id true) fun _ => Lockstep.modifyGet_self _

theorem holds_draw [ρ.Faithful] (g : Graph) :
    (chance σ).Holds (rename ρ) (draw g : StateT σ _ Placement) (draw (g.rename ρ)) := by
  unfold draw
  refine (chance σ).bind (Lockstep.liftM g.root_rename) fun _ => ?_
  refine (chance σ).bind ((chance σ).filterM fun b _ => holds_drawFunc g b) fun funcs => ?_
  refine (chance σ).bind ((chance σ).filterM fun c _ => Lockstep.modifyGet_self (drawLocal c)) fun locals => ?_
  have hnames : (funcs.map (Block.rename ρ)).map (·.name) = funcs.map (·.name) := by
    rw [List.map_map]
    rfl
  have hids : (locals.map (Chunk.rename ρ)).map (·.id) = (locals.map (·.id)).map ρ.chunk := by
    rw [List.map_map, List.map_map]
    rfl
  rw [hnames, hids]
  have hset : (g.rename ρ).blocks.names = g.blocks.names := g.blocks.names_rename
  rw [hset]
  exact (chance σ).pure (rename ρ) _

end

/-- Drawing from supplies that go in step. -/
abbrev numbering (ρ : Renaming) : Lockstep (StateT Supply (Except SynthesisError)) := .stateT ρ.Paces

theorem holds_expand [ρ.Faithful] (p : Placement) (bs : BlockSet) (entered : List String) (body : List Stmt) :
    (numbering ρ).Holds (Stmt.renameAll ρ) (p.expand bs entered body)
      ((p.rename ρ).expand (bs.rename ρ) entered (Stmt.renameAll ρ body)) := by
  induction entered, body using expand.induct bs with
  | case1 entered body ih =>
      rw [expand, expand]
      refine Stmt.holds_mapCallsOfAll ?_ body
      intro i c
      refine (numbering ρ).ite (fun _ => (numbering ρ).pure _ none) fun _ => ?_
      refine (numbering ρ).ite (fun _ => Lockstep.throw _) fun _ => ?_
      by_cases hn : c.name ∈ entered
      · simp only [BlockRef.name_rename, hn, ↓reduceDIte]
        exact Lockstep.throw _
      · simp only [BlockRef.name_rename, hn, ↓reduceDIte]
        have hr' := bs.resolve_rename (ρ := ρ) c
        generalize hr : bs.resolve c = r at hr' ⊢
        generalize (bs.rename ρ).resolve (c.rename ρ) = r' at hr' ⊢
        subst hr'
        cases r with
        | error e => exact Lockstep.throw e
        | ok b =>
            refine (numbering ρ).bind (Lockstep.modifyGet (Stmt.holds_refreshAll b.statements)) fun copy => ?_
            refine (numbering ρ).bind (ih c hn b hr copy) fun front => ?_
            exact (numbering ρ).pure _ (some front)

theorem holds_inline [ρ.Faithful] (p : Placement) (bs : BlockSet) :
    (numbering ρ).Holds (List.map (Block.rename ρ)) (p.inline bs) ((p.rename ρ).inline (bs.rename ρ)) := by
  unfold inline
  rw [BlockSet.toList_rename, List.filter_map]
  refine (numbering ρ).mapM fun b _ => ?_
  refine (numbering ρ).bind (holds_expand p bs [] b.statements) fun body => ?_
  exact (numbering ρ).pure (Block.rename ρ) (b.withBody body)

end Placement

end Diversity
