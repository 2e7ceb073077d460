import Diversity.Proofs.RenamedTraces
/-! Decoys under other identities: the same decoys come in at the same places. -/
namespace Diversity

variable {ρ : Renaming}

namespace Graph

@[simp] theorem names_rename (g : Graph) : (g.rename ρ).names = g.names := by
  have hname (d : Declaration) : (d.rename ρ).name = d.name := rfl
  simp [names, rename, List.flatMap_map, Function.comp_def, hname]

/-! ## Taking over an asset -/

variable [ρ.Faithful]

theorem chunk?_rename (g : Graph) (c : ChunkId) :
    (g.rename ρ).chunk? (ρ.chunk c) = (g.chunk? c).map (Chunk.rename ρ) := by
  have hid (d : Chunk) : (d.rename ρ).id = ρ.chunk c ↔ d.id = c := Renaming.Faithful.chunk.eq_iff
  simp only [chunk?, rename, List.find?_map, Function.comp_def, hid]

theorem absorbBlock_rename (asset : String) (g : Graph) (b : Block) :
    (g.rename ρ).absorbBlock asset (b.rename ρ) = (g.absorbBlock asset b).map (rename ρ) := by
  have hfind : (g.rename ρ).blocks.find? (b.rename ρ).name = _ := g.blocks.find?_rename b.name
  rw [absorbBlock, absorbBlock, hfind]
  cases g.blocks.find? b.name with
  | none => exact Lockstep.except.bind (g.blocks.insert_rename b) fun bs => rfl
  | some c =>
      have hid : (c.rename ρ).id = (b.rename ρ).id ↔ c.id = b.id := Renaming.Faithful.block.eq_iff
      simp only [Option.map_some, hid]
      exact Lockstep.except.ite (fun _ => rfl) fun _ => rfl

theorem absorbChunk_rename (g : Graph) (c : Chunk) :
    (g.rename ρ).absorbChunk (c.rename ρ) = (g.absorbChunk c).rename ρ := by
  have hchunk : (g.rename ρ).chunk? (c.rename ρ).id = _ := g.chunk?_rename c.id
  rw [absorbChunk, absorbChunk, hchunk, Option.isSome_map]
  split
  · rfl
  · simp [rename]

omit [ρ.Faithful] in
theorem absorbExtern_rename (g : Graph) (v : Variable) :
    (g.rename ρ).absorbExtern (v.rename ρ) = (g.absorbExtern v).rename ρ := by
  have hany : (g.rename ρ).externs.any (·.name == (v.rename ρ).name) = g.externs.any (·.name == v.name) := by
    rw [rename, List.any_map]
    rfl
  rw [absorbExtern, absorbExtern, hany]
  split
  · rfl
  · simp [rename, Declaration.rename]

theorem absorb_rename (g asset : Graph) (root : Block) :
    (g.rename ρ).absorb (asset.rename ρ) (root.rename ρ) = (g.absorb asset root).map (rename ρ) := by
  refine Lockstep.except.bind (Trace.ofBlock_rename asset.blocks root true) fun t => ?_
  rw [Trace.blocks_rename]
  refine Lockstep.except.bind (Lockstep.except.foldlM_same g fun g name _ => ?_) fun g => ?_
  · have hfind : (asset.rename ρ).blocks.find? name = _ := asset.blocks.find?_rename name
    rw [hfind]
    cases asset.blocks.find? name with
    | none => rfl
    | some b => exact absorbBlock_rename root.name g b
  · have hchunks : (t.rename ρ).chunks.filterMap (asset.rename ρ).chunk? =
        (t.chunks.filterMap asset.chunk?).map (Chunk.rename ρ) := by
      rw [Trace.chunks_rename, List.filterMap_map, List.map_filterMap]
      exact List.filterMap_congr fun c _ => asset.chunk?_rename c
    refine congrArg Except.ok ?_
    rw [hchunks, Trace.externs_rename, List.foldl_map, List.foldl_map, List.foldl_hom (rename ρ) absorbChunk_rename,
      List.foldl_hom (rename ρ) absorbExtern_rename]

end Graph

/-! ## Injecting -/

namespace Injection

variable {σ : Type}

/-- The second injection is the first one under other identities. -/
structure Follows (ρ : Renaming) (i i' : Injection σ) : Prop where
  source : i'.source = i.source
  names : i'.names = i.names
  supply : ρ.Paces i.supply i'.supply
  graph : i'.graph = i.graph.rename ρ
  wrappers : i'.wrappers = i.wrappers.map (Block.rename ρ)

/-- Injecting in step. -/
abbrev following (σ : Type) (ρ : Renaming) : Lockstep (Step σ) := .stateT (Follows ρ)

theorem holds_drawn {α : Type} (x : StateM σ α) : (following σ ρ).Holds id (drawn x) (drawn x) := by
  intro i i' h
  have hrun (i : Injection σ) : drawn x i = .ok ((x i.source).1, { i with source := (x i.source).2 }) := rfl
  rw [hrun, hrun, h.source]
  exact .ok ⟨rfl, rfl, h.names, h.supply, h.graph, h.wrappers⟩

theorem holds_numbered {α β : Type} {φ : α → β} {x : StateM Supply α} {y : StateM Supply β} (h : ρ.pace.Holds φ x y) :
    (following σ ρ).Holds φ (numbered x) (numbered y) := by
  intro i i' hi
  obtain ⟨ha, hs⟩ := h _ _ hi.supply
  exact .ok ⟨ha, hi.source, hi.names, hs, hi.graph, hi.wrappers⟩

theorem holds_freshName [RandomSource σ] (stem : String) :
    (following σ ρ).Holds id (freshName stem) (freshName stem) := by
  unfold freshName
  refine Lockstep.get_then fun i i' h => ?_
  rw [h.names]
  refine (following σ ρ).bind (holds_drawn (i.names.fresh stem)) ?_ i i' h
  rintro ⟨name, names⟩
  refine (following σ ρ).bind (Lockstep.modify ?_) fun _ => (following σ ρ).pure id name
  intro i i' h
  exact ⟨h.source, rfl, h.supply, h.graph, h.wrappers⟩

variable [RandomSource σ] [ρ.Faithful]

theorem holds_wrap (pool : DecoyPool) (i : NodeId) (c : BlockRef) :
    (following σ ρ).Holds (Stmt.renameAll ρ) (wrap pool i c) (wrap (pool.rename ρ) (ρ.node i) (c.rename ρ)) := by
  have hasset (k : Nat) : (pool.rename ρ).assets.getD k default = (pool.assets.getD k default).rename ρ := by
    rw [DecoyPool.rename, List.getD_eq_getElem?_getD, List.getD_eq_getElem?_getD, List.getElem?_map]
    cases pool.assets[k]? <;> rfl
  have hsize : (pool.rename ρ).size = pool.size := List.length_map _
  unfold wrap
  rw [hsize]
  refine (following σ ρ).bind (holds_drawn (Index.draw64 pool.size)) fun k => ?_
  simp only [id, hasset]
  generalize pool.assets.getD k default = asset
  refine (following σ ρ).bind (Lockstep.liftM asset.root_rename) fun root => ?_
  refine Lockstep.get_bind (φ := Graph.rename ρ) ?_ fun g => ?_
  · intro i i' h
    rw [h.graph]
    exact i.graph.absorb_rename asset root
  refine (following σ ρ).bind (Lockstep.modify ?_) fun _ => ?_
  · intro i i' h
    exact ⟨h.source, h.names, h.supply, rfl, h.wrappers⟩
  refine (following σ ρ).bind (holds_numbered (Stmt.holds_refreshAll root.statements)) fun decoy => ?_
  refine (following σ ρ).bind (holds_freshName "nop") fun name => ?_
  refine (following σ ρ).bind (holds_numbered Renaming.holds_block) fun b => ?_
  refine (following σ ρ).bind (Lockstep.modify ?_) fun _ => ?_
  · intro i i' h
    refine ⟨h.source, h.names, h.supply, h.graph, ?_⟩
    simp [h.wrappers, Block.rename, Stmt.renameAll_append, Stmt.renameAll, Stmt.rename]
  refine (following σ ρ).bind (holds_numbered Renaming.holds_node) fun n => ?_
  exact (following σ ρ).pure (Stmt.renameAll ρ) [.call n ⟨name, b⟩]

theorem holds_wrapByChance (pool : DecoyPool) (chance : Chance) (i : NodeId) (c : BlockRef) :
    (following σ ρ).Holds (Option.map (Stmt.renameAll ρ)) (wrapByChance pool chance i c)
      (wrapByChance (pool.rename ρ) chance (ρ.node i) (c.rename ρ)) := by
  refine (following σ ρ).bind (holds_drawn chance.draw) fun taken => ?_
  refine (following σ ρ).ite (fun _ => ?_) fun _ => (following σ ρ).pure _ none
  exact (following σ ρ).bind (holds_wrap pool i c) fun front => (following σ ρ).pure _ (some front)

theorem holds_wrapCalls (pool : DecoyPool) (chance : Chance) (b : Block) :
    (following σ ρ).Holds id (wrapCalls pool chance b) (wrapCalls (pool.rename ρ) chance (b.rename ρ)) := by
  refine (following σ ρ).bind (Stmt.holds_mapCallsOfAll (holds_wrapByChance pool chance) b.statements) fun body => ?_
  refine Lockstep.get_bind (φ := BlockSet.rename ρ) ?_ fun bs => Lockstep.modify ?_
  · intro i i' h
    rw [h.graph]
    exact i.graph.blocks.replace_rename (b.withBody body)
  · intro i i' h
    refine ⟨h.source, h.names, h.supply, ?_, h.wrappers⟩
    rw [h.graph]
    rfl

theorem holds_wrapAll (pool : DecoyPool) (chance : Chance) (g : Graph) :
    (following σ ρ).Holds id (wrapAll pool chance g) (wrapAll (pool.rename ρ) chance (g.rename ρ)) := by
  have hnop : (g.rename ρ).blocks.toList.filter (!·.constraint.nop) =
      (g.blocks.toList.filter (!·.constraint.nop)).map (Block.rename ρ) :=
    List.filter_map
  rw [wrapAll, wrapAll, hnop]
  refine (following σ ρ).bind ((following σ ρ).forM fun b _ => holds_wrapCalls pool chance b) fun _ => ?_
  refine Lockstep.get_then fun i i' h => ?_
  have hinsert : i'.graph.blocks.insertAll i'.wrappers =
      (i.graph.blocks.insertAll i.wrappers).map (BlockSet.rename ρ) := by
    rw [h.graph, h.wrappers]
    exact i.graph.blocks.insertAll_rename i.wrappers
  refine (following σ ρ).bind (Lockstep.liftM hinsert) (fun bs => Lockstep.set ?_) i i' h
  refine ⟨h.source, h.names, h.supply, ?_, h.wrappers⟩
  rw [h.graph]
  rfl

end Injection

theorem Graph.withDecoys_rename {σ : Type} [RandomSource σ] [ρ.Faithful] (g : Graph) (pool : DecoyPool)
    (chance : Chance) (names : Names) {s s' : Supply} (hs : ρ.Paces s s') (source : σ) :
    Lockstep.Agrees (Injection.Follows ρ) (g.withDecoys pool chance names s source)
      ((g.rename ρ).withDecoys (pool.rename ρ) chance names s' source) := by
  have hstart : Injection.Follows ρ ⟨source, names, s, g, []⟩ ⟨source, names, s', g.rename ρ, []⟩ :=
    ⟨rfl, rfl, hs, rfl, rfl⟩
  have hempty : (pool.rename ρ).assets.isEmpty = pool.assets.isEmpty := List.isEmpty_map
  rw [withDecoys, withDecoys, hempty]
  split
  · exact .ok hstart
  · refine Lockstep.Agrees.bind (Injection.holds_wrapAll pool chance g _ _ hstart) ?_
    rintro ⟨_, i⟩ ⟨_, i'⟩ ⟨-, h⟩
    exact .ok h

end Diversity
