import Diversity.Program.Lowering
import Diversity.Proofs.RenamedBlocks
/-! Traces under other identities: the same paths lead to the same blocks. -/
namespace Diversity

variable {ρ : Renaming}

theorem distinctBy_map {α β κ μ : Type} [DecidableEq κ] [DecidableEq μ] {f : α → β} {k : α → κ} {l : β → μ}
    (h : ∀ a b, l (f a) = l (f b) ↔ k a = k b) (as : List α) :
    distinctBy l (as.map f) = (distinctBy k as).map f := by
  induction as with
  | nil => rfl
  | cons a as ih => simp [distinctBy, ih, List.filter_map, Function.comp_def, h]

theorem Variable.distinct_rename [ρ.Faithful] (vs : List Variable) :
    distinctBy key (vs.map (rename ρ)) = (distinctBy key vs).map (rename ρ) :=
  distinctBy_map (fun a b => ρ.key_injective.eq_iff (a := a.key) (b := b.key)) vs

def CallSite.rename (ρ : Renaming) (s : CallSite) : CallSite := ⟨ρ.node s.call, s.block⟩

theorem CallSite.rename_injective [ρ.Faithful] : Function.Injective (rename ρ) := by
  intro a b h
  obtain ⟨hcall, hblock⟩ := CallSite.mk.inj h
  cases a
  cases b
  cases Renaming.Faithful.node hcall
  cases hblock
  rfl

def Visit.rename (ρ : Renaming) (v : Visit) : Visit := ⟨v.block.rename ρ, v.path.map (·.rename ρ)⟩

def Use.rename (ρ : Renaming) (u : Use) : Use := ⟨u.var.rename ρ, u.path.map (·.rename ρ)⟩

def Trace.rename (ρ : Renaming) (t : Trace) : Trace := ⟨t.root, t.visits.map (·.rename ρ)⟩

/-! ## Paths -/

namespace CallPath

theorem common_map [ρ.Faithful] (p q : CallPath) :
    common (p.map (CallSite.rename ρ)) (q.map (CallSite.rename ρ)) = (common p q).map (CallSite.rename ρ) := by
  induction p generalizing q with
  | nil => rfl
  | cons a p ih =>
      cases q with
      | nil => rfl
      | cons b q =>
          simp only [List.map_cons, common, CallSite.rename_injective.eq_iff, ih]
          split <;> rfl

theorem commonOfAll_map [ρ.Faithful] (paths : List CallPath) :
    commonOfAll (paths.map (List.map (CallSite.rename ρ))) = (commonOfAll paths).map (CallSite.rename ρ) := by
  cases paths with
  | nil => rfl
  | cons p paths =>
      simp only [List.map_cons, commonOfAll]
      induction paths generalizing p with
      | nil => rfl
      | cons q paths ih => rw [List.map_cons, List.foldl_cons, common_map, ih, List.foldl_cons]

end CallPath

namespace Visit

theorem rename_entered (b : Block) (path : CallPath) (call : NodeId) :
    (⟨b, path ++ [⟨call, b.name⟩]⟩ : Visit).rename ρ =
      ⟨b.rename ρ, path.map (·.rename ρ) ++ [⟨ρ.node call, (b.rename ρ).name⟩]⟩ := by
  simp [rename, CallSite.rename]

theorem below_rename [ρ.Faithful] (bs : BlockSet) (entered : List String) (v : Visit) :
    (v.rename ρ).below (bs.rename ρ) entered = (v.below bs entered).map (List.map (rename ρ)) := by
  induction entered, v using below.induct bs with
  | case1 entered v ih =>
      rw [below, below]
      refine Lockstep.except.bind (φ := List.map (List.map (rename ρ))) ?_ fun visits => ?_
      · have hcalls : (v.rename ρ).block.calls = _ := v.block.calls_rename
        rw [hcalls]
        refine Lockstep.except.mapM ?_
        rintro ⟨call, callee⟩ _
        by_cases hn : callee.name ∈ entered
        · simp only [BlockRef.name_rename, hn, ↓reduceDIte]
          rfl
        · simp only [BlockRef.name_rename, hn, ↓reduceDIte]
          have hr' := bs.resolve_rename (ρ := ρ) callee
          generalize hr : bs.resolve callee = r at hr' ⊢
          generalize (bs.rename ρ).resolve (callee.rename ρ) = r' at hr' ⊢
          subst hr'
          cases r with
          | error e => rfl
          | ok b =>
              have hentered := rename_entered (ρ := ρ) b v.path call
              have hbelow := ih call callee hn b hr
              dsimp only at hbelow
              rw [hentered] at hbelow
              refine Lockstep.except.bind hbelow fun below => ?_
              exact congrArg (fun w => Except.ok (w :: below.map (rename ρ))) hentered.symm
      · rw [← List.map_flatten]
        exact Lockstep.except.pure (List.map (rename ρ)) visits.flatten

theorem uses_rename [ρ.Faithful] (v : Visit) : (v.rename ρ).uses = v.uses.map (Use.rename ρ) := by
  have hvars : (v.rename ρ).block.vars = v.block.vars.map (Variable.rename ρ) := v.block.vars_rename
  simp only [uses, hvars, List.filter_map, Function.comp_def, Variable.chunk_rename, Option.isSome_map,
    Variable.distinct_rename, List.map_map]
  rfl

theorem mentions_rename [ρ.Faithful] (v : Visit) (c : ChunkId) : (v.rename ρ).mentions (ρ.chunk c) = v.mentions c := by
  have hc (v : Variable) : (v.rename ρ).chunk = some (ρ.chunk c) ↔ v.chunk = some c :=
    (Option.map_injective Renaming.Faithful.chunk).eq_iff (b := some c)
  have hvars : (v.rename ρ).block.vars = v.block.vars.map (Variable.rename ρ) := v.block.vars_rename
  rw [mentions, hvars, List.any_map, mentions]
  refine congrArg _ (funext fun v => ?_)
  rw [Function.comp_apply, Bool.eq_iff_iff, beq_iff_eq, beq_iff_eq]
  exact hc v

end Visit

namespace Trace

theorem ofBlock_rename [ρ.Faithful] (bs : BlockSet) (root : Block) (recursive : Bool) :
    ofBlock (bs.rename ρ) (root.rename ρ) recursive = (ofBlock bs root recursive).map (rename ρ) := by
  cases recursive with
  | false => rfl
  | true =>
      refine Lockstep.except.bind (Visit.below_rename bs [root.name] ⟨root, []⟩) fun below => ?_
      exact Lockstep.except.pure (rename ρ) ⟨root.name, ⟨root, []⟩ :: below⟩

@[simp] theorem blocks_rename (t : Trace) : (t.rename ρ).blocks = t.blocks := by
  simp [blocks, rename, Visit.rename, Function.comp_def]

theorem uses_rename [ρ.Faithful] (t : Trace) : (t.rename ρ).uses = t.uses.map (Use.rename ρ) := by
  simp [uses, rename, Visit.uses_rename, List.flatMap_map, List.map_flatMap]

theorem chunks_rename [ρ.Faithful] (t : Trace) : (t.rename ρ).chunks = t.chunks.map ρ.chunk := by
  have hdistinct (cs : List ChunkId) : distinct (cs.map ρ.chunk) = (distinct cs).map ρ.chunk :=
    distinctBy_map (f := ρ.chunk) (k := id) (l := id) (fun _ _ => Renaming.Faithful.chunk.eq_iff) cs
  rw [chunks, uses_rename, List.filterMap_map, chunks, ← hdistinct, List.map_filterMap]
  rfl

theorem externs_rename (t : Trace) : (t.rename ρ).externs = t.externs.map (Variable.rename ρ) := by
  have hdistinct (vs : List Variable) :
      distinctBy (·.name) (vs.map (Variable.rename ρ)) = (distinctBy (·.name) vs).map (Variable.rename ρ) :=
    distinctBy_map (fun _ _ => Iff.rfl) vs
  rw [externs, externs, ← hdistinct]
  simp [rename, Visit.rename, List.flatMap_map, List.map_flatMap, List.filter_map, Function.comp_def]

theorem paths_rename [ρ.Faithful] (t : Trace) (c : ChunkId) :
    (t.rename ρ).paths (ρ.chunk c) = (t.paths c).map (List.map (CallSite.rename ρ)) := by
  simp only [paths, rename, List.filter_map, List.map_map, Function.comp_def, Visit.mentions_rename]
  rfl

theorem stem_rename [ρ.Faithful] (t : Trace) (c : ChunkId) :
    (t.rename ρ).stem (ρ.chunk c) = (t.stem c).map (CallSite.rename ρ) := by
  rw [stem, paths_rename, CallPath.commonOfAll_map, stem]

@[simp] theorem site_rename [ρ.Faithful] (t : Trace) (c : ChunkId) : (t.rename ρ).site (ρ.chunk c) = t.site c := by
  simp only [site, home?, paths_rename, stem_rename, List.isEmpty_map, List.getLast?_map, Option.elim_map]
  rfl

theorem needs_rename [ρ.Faithful] (t : Trace) (block : String) :
    (t.rename ρ).needs block = (t.needs block).map (Variable.rename ρ) := by
  have hneeds (u : Use) : (t.rename ρ).needsFrom block (u.rename ρ) = t.needsFrom block u := by
    simp only [needsFrom, Use.rename, Variable.chunk_rename, Option.any_map, Function.comp_def, stem_rename,
      List.length_map, ← List.map_drop, List.any_map]
    rfl
  simp only [needs, uses_rename, List.filter_map, Function.comp_def, hneeds, List.map_map, ← Variable.distinct_rename]
  rfl

@[simp] theorem declares_rename [ρ.Faithful] (t : Trace) (function : String) (k : Option ChunkId × String) :
    (t.rename ρ).declares function (ρ.key k) = t.declares function k := by
  simp only [declares, Renaming.key, Option.any_map, site_rename]

end Trace

end Diversity
