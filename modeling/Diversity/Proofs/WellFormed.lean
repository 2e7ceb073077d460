import Diversity.Proofs.Branching
import Diversity.Proofs.Consistency
import Diversity.Proofs.Erasure
/-! Well-formed graphs: descriptions give them, and decoys and splicing keep them. -/
namespace Diversity

namespace Graph

structure WellFormed (g : Graph) : Prop where
  names : g.blocks.names.Nodup
  found : ∀ b ∈ g.blocks.toList, g.blocks.find? b.name = some b
  entry : ∃ b, g.root = .ok b
  calls : ∀ b ∈ g.blocks.toList, ∀ c ∈ b.calls, ∃ d ∈ g.blocks.toList, d.name = c.2.name ∧ d.id = c.2.id
  vars : ∀ b ∈ g.blocks.toList, ∀ v ∈ b.vars, ∀ c, v.chunk = some c →
    ∃ k ∈ g.chunks, k.id = c ∧ v ∈ k.vars.map (·.var)
  ids : g.blocks.ids.Nodup
  branched : ∀ b ∈ g.blocks.toList, Stmt.Branched b.statements

/-- The two graphs have no node, block or chunk identity in common. -/
structure Apart (g h : Graph) : Prop where
  nodes : ∀ i ∈ g.blocks.ids, i ∉ h.blocks.ids
  blocks : ∀ b ∈ g.blocks.toList, ∀ c ∈ h.blocks.toList, b.id ≠ c.id
  chunks : ∀ c ∈ g.chunks, ∀ k ∈ h.chunks, c.id ≠ k.id

variable {g h : Graph}

theorem Apart.symm (hgh : g.Apart h) : h.Apart g :=
  ⟨fun i hi hi' => hgh.nodes i hi' hi, fun b hb c hc e => hgh.blocks c hc b hb e.symm,
    fun c hc k hk e => hgh.chunks k hk c hc e.symm⟩

theorem apart_of_le {s s' t t' : Supply} (hg : g.AllIds fun n => s.next ≤ n ∧ n < s'.next)
    (hh : h.AllIds fun n => t.next ≤ n ∧ n < t'.next) (hle : s'.next ≤ t.next) : g.Apart h := by
  have hlt {m n : Nat} (hm : s.next ≤ m ∧ m < s'.next) (hn : t.next ≤ n ∧ n < t'.next) : m < n :=
    hm.2.trans_le (hle.trans hn.1)
  refine ⟨fun i hi hi' => ?_, fun b hb c hc e => ?_, fun c hc k hk e => ?_⟩
  · exact Nat.lt_irrefl _ (hlt (hg.nodes i hi) (hh.nodes i hi'))
  · exact Nat.lt_irrefl _ (e ▸ hlt (hg.blocks b hb) (hh.blocks c hc))
  · exact Nat.lt_irrefl _ (e ▸ hlt (hg.chunks c hc) (hh.chunks k hk))

theorem wellFormed_of_tied (htied : g.blocks.Tied) (hentry : g.entry ∈ g.blocks.names)
    (hvars : ∀ b ∈ g.blocks.toList, ∀ v ∈ b.vars, ∀ c, v.chunk = some c →
      ∃ k ∈ g.chunks, k.id = c ∧ v ∈ k.vars.map (·.var))
    (hids : g.blocks.ids.Nodup) (hbranched : ∀ b ∈ g.blocks.toList, Stmt.Branched b.statements) :
    g.WellFormed := by
  refine ⟨htied.names, fun b hb => BlockSet.find?_name htied.names hb, ?_, fun b hb c hc => ?_, hvars, hids, hbranched⟩
  · cases hf : g.blocks.find? g.entry with
    | none => exact absurd hentry (BlockSet.find?_eq_none.1 hf)
    | some b => exact ⟨b, by simp [root, hf]⟩
  · obtain ⟨d, hd, hcd, -⟩ := htied.find? hb hc
    exact ⟨d, hd, by simp [hcd, Block.ref]⟩

theorem WellFormed.tied (hg : g.WellFormed) : g.blocks.Tied := by
  refine ⟨hg.names, fun b hb c hc => ?_⟩
  obtain ⟨d, hd, hname, hid⟩ := hg.calls b hb c hc
  simp only [BlockSet.refs, List.map_id, List.mem_map]
  exact ⟨d, hd, by simp [Block.ref, hname, hid]⟩

theorem WellFormed.mem_names (hg : g.WellFormed) : g.entry ∈ g.blocks.names := by
  obtain ⟨b, hb⟩ := hg.entry
  unfold root at hb
  split at hb
  · next hf => exact BlockSet.mem_names_of_find? hf
  · cases hb

/-! ## Descriptions -/

theorem Compiled.vars {s s' : Supply} (hg : g.Compiled s s') : ∀ b ∈ g.blocks.toList, ∀ v ∈ b.vars, ∀ c,
    v.chunk = some c → ∃ k ∈ g.chunks, k.id = c ∧ v ∈ k.vars.map (·.var) := by
  intro b hb v hv c hc
  obtain ⟨k, hk, hv⟩ := List.mem_flatMap.1 (hg.declared b hb v hv (by simp [hc]))
  have hv := (List.mem_filter.1 hv).1
  obtain ⟨d, hd, rfl⟩ := List.mem_map.1 hv
  exact ⟨k, hk, by simpa [hc] using (hg.owned k hk d hd).symm, hv⟩

theorem wellFormed_of_toGraph {d : Description} {s s' : Supply} (h : d.toGraph s = .ok (g, s')) : g.WellFormed := by
  have hg := Description.compiled h
  exact wellFormed_of_tied hg.tied hg.entry hg.vars hg.drawn.nodup (Description.branched h)

/-! ## Splicing -/

theorem WellFormed.repaired {p : Placement} {s s' : Supply} {blocks : List Block} {bs : BlockSet}
    (hg : g.WellFormed) (hbelow : g.Below s) (hentry : p.isFunc g.entry = true)
    (hin : p.inline g.blocks s = .ok (blocks, s')) (hrep : BlockSet.repaired blocks = .ok bs) :
    ({ g with blocks := bs } : Graph).WellFormed := by
  refine wellFormed_of_tied (BlockSet.tied_of_repaired hrep) ?_ (fun b hb v hv c hc => ?_) ?_ ?_
  · show g.entry ∈ bs.names
    rw [BlockSet.names_of_repaired hrep, BlockSet.names_of_inline hin, List.mem_filter]
    exact ⟨hg.mem_names, hentry⟩
  · obtain ⟨b', hb', hv⟩ := BlockSet.mem_vars_of_repaired hin hrep hb hv
    exact hg.vars b' hb' v hv c hc
  · exact (BlockSet.keeps_ids hin hrep).nodup hg.ids hbelow.nodes
  · exact BlockSet.branched_of_repaired hin hrep hg.branched

end Graph

/-! ## Decoys -/

namespace Additions

variable {pool : DecoyPool} {g : Graph} {a a' : Additions} {id : NodeId} {callee : BlockRef} {front : List Stmt}

/-- The identities of the nodes of new decoys. -/
def ids (a : Additions) : Multiset NodeId := BlockSet.ids (.of a.wrappers)

theorem Wraps.keeps (h : Wraps pool g a id callee front a') :
    a.supply.Keeps ({id} + a.ids) (Stmt.ids front + a'.ids) a'.supply := by
  cases h with
  | kept => exact .refl _ _
  | @wrapped asset root decoy s name blocks chunks externs _ _ hdecoy =>
      have hnode : Supply.Draws s {⟨s.next + 1⟩} ⟨s.next + 2⟩ := (Supply.Draws.node ⟨s.next + 1⟩).of_le (Nat.le_succ _)
      refine ⟨_, (Stmt.draws_of_refreshAll hdecoy).append hnode, le_of_eq ?_⟩
      have hcall (i : NodeId) (r : BlockRef) : Stmt.ids [.call i r] = {i} := rfl
      simp only [ids, BlockSet.ids, BlockSet.toList_of, List.map_append, List.sum_append, List.map_cons, List.map_nil,
        List.sum_cons, List.sum_nil, Injection.wrapper, Stmt.ids_append, hcall, add_zero]
      abel

theorem Rewraps.keeps {b b' : Block} (h : Rewraps pool g a b b' a') :
    a.supply.Keeps (Stmt.ids b.statements + a.ids) (Stmt.ids b'.statements + a'.ids) a'.supply := by
  cases h with
  | kept _ => exact .refl _ _
  | wrapped _ h =>
      obtain ⟨fronts, hf, -, -, hi⟩ := h.parted
      have hfronts := Supply.Keeps.chained (n := (·.supply)) (fun _ _ _ _ hw => hw.keeps) hf
      exact hfronts.exchange hi

theorem Wraps.front_eq (h : Wraps pool g a id callee front a') : ∃ i r, front = [.call i r] := by
  cases h with
  | kept => exact ⟨_, _, rfl⟩
  | wrapped => exact ⟨_, _, rfl⟩

/-- A block mentions the variables that it did before, and its choices are what they were. -/
theorem Rewraps.kept_parts {b b' : Block} (h : Rewraps pool g a b b' a') :
    b'.vars ⊆ b.vars ∧ (Stmt.Branched b.statements → Stmt.Branched b'.statements) := by
  cases h with
  | kept _ => exact ⟨List.Subset.refl _, fun h => h⟩
  | wrapped _ h =>
      refine ⟨fun v hv => ?_, fun hb => h.branched hb fun s i callee front s' hf => ?_⟩
      · obtain ⟨o, ho, hv⟩ := Stmt.mem_vars_iff.1 hv
        rcases h.operand_cases ho with ho | ⟨s, i, callee, front, s', -, hf, ho⟩
        · exact Stmt.mem_vars_iff.2 ⟨o, ho, hv⟩
        · obtain ⟨i, r, rfl⟩ := hf.front_eq
          cases ho
      · obtain ⟨i, r, rfl⟩ := hf.front_eq
        exact Stmt.branched_call _ _

end Additions

namespace DecoyPool

/-- The assets are well formed, their identities are in use, and they share none with the graph or with each
other. -/
structure Fits (pool : DecoyPool) (g : Graph) (supply : Supply) : Prop where
  wellFormed : ∀ asset ∈ pool.assets, asset.WellFormed
  chunkIds : ∀ asset ∈ pool.assets, (asset.chunks.map (·.id)).Nodup
  below : ∀ asset ∈ pool.assets, asset.Below supply
  apart : ∀ asset ∈ pool.assets, g.Apart asset
  assets : ∀ asset ∈ pool.assets, ∀ asset' ∈ pool.assets, asset = asset' ∨ asset.Apart asset'

def marked (g : Graph) : Graph := { g with blocks := .of (g.blocks.toList.map mark) }

theorem ids_marked (g : Graph) : (marked g).blocks.ids = g.blocks.ids := by
  simp only [marked, BlockSet.ids, BlockSet.toList_of, List.map_map]
  rfl

theorem forall_marked {g : Graph} {P : Block → Prop} (h : ∀ b ∈ g.blocks.toList, P (mark b)) :
    ∀ b ∈ (marked g).blocks.toList, P b := by
  intro b hb
  obtain ⟨c, hc, rfl⟩ := List.mem_map.1 hb
  exact h c hc

theorem wellFormed_marked {g : Graph} (hg : g.WellFormed) : (marked g).WellFormed := by
  refine Graph.wellFormed_of_tied hg.tied.mark ?_ (forall_marked hg.vars) ?_ (forall_marked hg.branched)
  · rw [← BlockSet.map_name_refs]
    exact (BlockSet.refs_mark g.blocks).symm ▸ (BlockSet.map_name_refs g.blocks).symm ▸ hg.mem_names
  · rw [ids_marked]
    exact hg.ids

theorem allIds_marked {g : Graph} {P : Nat → Prop} (hg : g.AllIds P) : (marked g).AllIds P :=
  ⟨(ids_marked g).symm ▸ hg.nodes, forall_marked hg.blocks, forall_marked hg.callees, hg.chunks⟩

theorem apart_marked {g h : Graph} (hgh : g.Apart h) : g.Apart (marked h) :=
  ⟨(ids_marked h).symm ▸ hgh.nodes, fun b hb => forall_marked (hgh.blocks b hb), hgh.chunks⟩

theorem fits_ofGraphs {graphs : List Graph} {g : Graph} {supply : Supply}
    (hcompiled : ∀ asset ∈ graphs, ∃ (d : Description) (s s' : Supply), d.toGraph s = .ok (asset, s'))
    (hbelow : ∀ asset ∈ graphs, asset.Below supply) (hapart : ∀ asset ∈ graphs, g.Apart asset)
    (hassets : graphs.Pairwise fun asset asset' => asset = asset' ∨ asset.Apart asset') :
    (ofGraphs graphs).Fits g supply := by
  have hmarked {P : Graph → Prop} (h : ∀ asset ∈ graphs, P (marked asset)) :
      ∀ asset ∈ (ofGraphs graphs).assets, P asset := by
    intro asset hasset
    obtain ⟨g, hg, rfl⟩ := List.mem_map.1 hasset
    exact h g hg
  have hall : ∀ asset ∈ graphs, ∀ asset' ∈ graphs, asset = asset' ∨ asset.Apart asset' := by
    intro asset ha asset' ha'
    by_cases heq : asset = asset'
    · exact Or.inl heq
    · have hsymm : Std.Symm fun asset asset' : Graph => asset = asset' ∨ asset.Apart asset' :=
        ⟨fun _ _ h => h.imp Eq.symm Graph.Apart.symm⟩
      exact hassets.forall ha ha' heq
  refine ⟨hmarked fun asset ha => ?_, hmarked fun asset ha => ?_, hmarked fun asset ha => ?_,
    hmarked fun asset ha => ?_, hmarked fun asset ha => hmarked fun asset' ha' => ?_⟩
  · obtain ⟨d, s, s', h⟩ := hcompiled asset ha
    exact wellFormed_marked (Graph.wellFormed_of_toGraph h)
  · obtain ⟨d, s, s', h⟩ := hcompiled asset ha
    exact (Description.compiled h).chunkIds
  · exact allIds_marked (hbelow asset ha)
  · exact apart_marked (hapart asset ha)
  · exact (hall asset ha asset' ha').imp (congrArg marked) fun h => (apart_marked (apart_marked h).symm).symm

end DecoyPool

namespace Graph

section

variable {σ : Type} {g : Graph} {pool : DecoyPool} {supply : Supply} {i : Injection σ} {blocks : List Block}
  {a : Additions}

/-- What an asset's block mentions has been taken over with it. -/
theorem Decoyed.exists_chunk (h : g.Decoyed pool supply i blocks a) (hpool : pool.Fits g supply) {asset : Graph}
    (hasset : asset ∈ pool.assets) {b : Block} (hb : b ∈ asset.blocks.toList)
    (hcovers : asset.Covers (g.chunks ++ a.chunks) b) {v : Variable} (hv : v ∈ b.vars) {c : ChunkId}
    (hc : v.chunk = some c) : ∃ k ∈ g.chunks ++ a.chunks, k.id = c ∧ v ∈ k.vars.map (·.var) := by
  obtain ⟨k, hk, hid, hvk⟩ := (hpool.wellFormed asset hasset).vars b hb v hv c hc
  have hsome : (asset.chunk? c).isSome := by
    rw [chunk?, List.find?_isSome]
    exact ⟨k, hk, by simpa using hid⟩
  obtain ⟨k', hk', hid'⟩ := List.mem_map.1 (hcovers v hv c hc hsome)
  -- the chunk with this identity is the asset's, since no other asset and not the graph has one
  obtain rfl : k' = k := by
    rcases List.mem_append.1 hk' with hk' | hk'
    · exact absurd (hid'.trans hid.symm) ((hpool.apart asset hasset).chunks k' hk' k hk)
    · obtain ⟨asset', hasset', hk'⟩ := h.sound.chunks k' hk'
      rcases hpool.assets asset' hasset' asset hasset with rfl | hapart
      · exact List.inj_on_of_nodup_map (hpool.chunkIds asset' hasset') hk' hk (hid'.trans hid.symm)
      · exact absurd (hid'.trans hid.symm) (hapart.chunks k' hk' k hk)
  exact ⟨k', hk', hid', hvk⟩

theorem Decoyed.vars (h : g.Decoyed pool supply i blocks a) (hg : g.WellFormed) (hpool : pool.Fits g supply) :
    ∀ b ∈ blocks ++ a.blocks ++ a.wrappers, ∀ v ∈ b.vars, ∀ c, v.chunk = some c →
      ∃ k ∈ g.chunks ++ a.chunks, k.id = c ∧ v ∈ k.vars.map (·.var) := by
  refine List.forall_mem_append.2 ⟨List.forall_mem_append.2 ⟨?_, ?_⟩, ?_⟩ <;> intro b hb v hv c hc
  · obtain ⟨b, hb, s, s', hr⟩ := forall₂_mem_right h.run.forall₂ hb
    obtain ⟨k, hk, hkv⟩ := hg.vars b hb v (hr.kept_parts.1 hv) c hc
    exact ⟨k, List.mem_append_left _ hk, hkv⟩
  · obtain ⟨asset, hasset, hb, hcovers⟩ := h.sound.blocks b hb
    exact h.exists_chunk hpool hasset hb hcovers hv hc
  · obtain ⟨asset, hasset, root, decoy, id, callee, hroot, hcopy, hbody, -, hcovers⟩ := h.sound.wrappers b hb
    have hv : v ∈ root.vars := by
      rw [Block.vars, ← Stmt.vars_anonymous, ← hcopy.same, Stmt.vars_anonymous]
      simpa [Block.vars, hbody, Stmt.vars_eq, Stmt.operandsOfAll_append, Stmt.operandsOfAll, Stmt.operands] using hv
    exact h.exists_chunk hpool hasset (BlockSet.mem_of_find? (find?_of_root hroot)) hcovers hv hc

theorem Decoyed.branched (h : g.Decoyed pool supply i blocks a) (hg : g.WellFormed) (hpool : pool.Fits g supply) :
    ∀ b ∈ blocks ++ a.blocks ++ a.wrappers, Stmt.Branched b.statements := by
  refine List.forall_mem_append.2 ⟨List.forall_mem_append.2 ⟨?_, ?_⟩, ?_⟩ <;> intro b hb
  · obtain ⟨b, hb, s, s', hr⟩ := forall₂_mem_right h.run.forall₂ hb
    exact hr.kept_parts.2 (hg.branched b hb)
  · obtain ⟨asset, hasset, hb, -⟩ := h.sound.blocks b hb
    exact (hpool.wellFormed asset hasset).branched b hb
  · obtain ⟨asset, hasset, root, decoy, id, callee, hroot, hcopy, hbody, -⟩ := h.sound.wrappers b hb
    have hdecoy := ((hpool.wellFormed asset hasset).branched root
      (BlockSet.mem_of_find? (find?_of_root hroot))).copy hcopy.same
    rw [hbody, Stmt.Branched, Stmt.shapes_append]
    exact List.forall_mem_append.2 ⟨hdecoy, Stmt.branched_call _ _⟩

theorem Decoyed.keeps (h : g.Decoyed pool supply i blocks a) :
    supply.Keeps g.blocks.ids (BlockSet.ids (.of blocks) + a.ids) a.supply := by
  have hrun := Supply.Keeps.chained (n := (·.supply)) (fun _ _ _ _ hr => hr.keeps) h.run
  have hnone : (Additions.none supply).ids = 0 := rfl
  rw [hnone, add_zero] at hrun
  exact hrun

/-- Blocks of assets come in once each, so that no identity comes in twice. -/
theorem Decoyed.nodup_absorbed (h : g.Decoyed pool supply i blocks a) (hpool : pool.Fits g supply) :
    (BlockSet.ids (.of a.blocks)).Nodup := by
  have hnames := h.names
  rw [h.graph, BlockSet.names, BlockSet.toList_of, List.map_append, List.map_append] at hnames
  have hnodup : a.blocks.Nodup := .of_map (·.name) (List.nodup_append.1 (List.nodup_append.1 hnames).1).2.1
  refine BlockSet.nodup_ids_of_blocks hnodup (fun b hb => ?_) fun b hb c hc i hi hi' => ?_
  · obtain ⟨asset, hasset, hb, -⟩ := h.sound.blocks b hb
    exact BlockSet.nodup_block_ids (hpool.wellFormed asset hasset).ids hb
  · obtain ⟨asset, hasset, hb, -⟩ := h.sound.blocks b hb
    obtain ⟨asset', hasset', hc, -⟩ := h.sound.blocks c hc
    rcases hpool.assets asset hasset asset' hasset' with rfl | hapart
    · exact BlockSet.eq_of_mem_block_ids (hpool.wellFormed asset hasset).ids hb hc hi hi'
    · exact absurd (BlockSet.mem_ids.2 ⟨c, hc, hi'⟩) (hapart.nodes i (BlockSet.mem_ids.2 ⟨b, hb, hi⟩))

theorem Decoyed.mem_absorbed (h : g.Decoyed pool supply i blocks a) {n : NodeId}
    (hn : n ∈ BlockSet.ids (.of a.blocks)) : ∃ asset ∈ pool.assets, n ∈ asset.blocks.ids := by
  obtain ⟨b, hb, hn⟩ := BlockSet.mem_ids.1 hn
  obtain ⟨asset, hasset, hb, -⟩ := h.sound.blocks b hb
  exact ⟨asset, hasset, BlockSet.mem_ids.2 ⟨b, hb, hn⟩⟩

theorem Decoyed.keeps_all (h : g.Decoyed pool supply i blocks a) : supply.Keeps
    (g.blocks.ids + BlockSet.ids (.of a.blocks)) (BlockSet.ids (.of (blocks ++ a.blocks ++ a.wrappers))) a.supply := by
  have hids : BlockSet.ids (.of (blocks ++ a.blocks ++ a.wrappers)) =
      BlockSet.ids (.of blocks) + a.ids + BlockSet.ids (.of a.blocks) := by
    rw [BlockSet.ids_append, BlockSet.ids_append, Additions.ids, add_right_comm]
  rw [hids]
  exact h.keeps.add _

theorem Decoyed.nodup_ids (h : g.Decoyed pool supply i blocks a) (hg : g.WellFormed) (hbelow : g.Below supply)
    (hpool : pool.Fits g supply) : (BlockSet.ids (.of (blocks ++ a.blocks ++ a.wrappers))).Nodup := by
  refine h.keeps_all.nodup ?_ fun n hn => ?_
  · refine Multiset.nodup_add.2 ⟨hg.ids, h.nodup_absorbed hpool, Multiset.disjoint_left.2 fun hn hn' => ?_⟩
    obtain ⟨asset, hasset, hn'⟩ := h.mem_absorbed hn'
    exact (hpool.apart asset hasset).nodes _ hn hn'
  · rcases Multiset.mem_add.1 hn with hn | hn
    · exact hbelow.nodes n hn
    · obtain ⟨asset, hasset, hn⟩ := h.mem_absorbed hn
      exact (hpool.below asset hasset).nodes n hn

/-- All identities of the new graph are in use. -/
theorem Decoyed.below (h : g.Decoyed pool supply i blocks a) (htied : i.graph.blocks.Tied) (hbelow : g.Below supply)
    (hpool : pool.Fits g supply) : i.graph.Below i.supply := by
  have hle := h.sound.later
  have hblocks : ∀ b ∈ i.graph.blocks.toList, b.id.index < a.supply.next := by
    rw [h.graph]
    refine List.forall_mem_append.2 ⟨List.forall_mem_append.2 ⟨?_, ?_⟩, ?_⟩ <;> intro b hb
    · obtain ⟨b, hb, s, s', hr⟩ := forall₂_mem_right h.run.forall₂ hb
      have hid := hbelow.blocks b hb
      cases hr with
      | kept _ => exact hid.trans_le hle
      | wrapped _ _ => exact hid.trans_le hle
    · obtain ⟨asset, hasset, hb, -⟩ := h.sound.blocks b hb
      exact ((hpool.below asset hasset).blocks b hb).trans_le hle
    · exact (h.sound.bounds b hb).2
  rw [h.supply]
  refine ⟨?_, hblocks, fun b hb r hr => ?_, ?_⟩
  · rw [h.graph]
    intro n hn
    rcases h.keeps_all.mem hn with hn | ⟨-, hn⟩
    · rcases Multiset.mem_add.1 hn with hn | hn
      · exact (hbelow.nodes n hn).trans_le hle
      · obtain ⟨asset, hasset, hn⟩ := h.mem_absorbed hn
        exact ((hpool.below asset hasset).nodes n hn).trans_le hle
    · exact hn
  · obtain ⟨d, hd, rfl⟩ := List.mem_map.1 (htied.refs_subset hb hr)
    exact hblocks d hd
  · rw [h.graph]
    refine List.forall_mem_append.2 ⟨fun c hc => (hbelow.chunks c hc).trans_le hle, fun c hc => ?_⟩
    obtain ⟨asset, hasset, hc⟩ := h.sound.chunks c hc
    exact ((hpool.below asset hasset).chunks c hc).trans_le hle

end

variable {σ : Type} [RandomSource σ] {g : Graph} {pool : DecoyPool} {chance : Chance} {names : Names}
  {supply : Supply} {source : σ} {i : Injection σ}

theorem WellFormed.withDecoys (hg : g.WellFormed) (hbelow : g.Below supply) (hpool : pool.Fits g supply)
    (h : g.withDecoys pool chance names supply source = .ok i) : i.graph.WellFormed ∧ i.graph.Below i.supply := by
  obtain ⟨blocks, a, hd⟩ := withDecoys_eq_ok h hg.names
  obtain ⟨htied, hentry⟩ := linkedBy_withDecoys h (fun asset hasset => (hpool.wellFormed asset hasset).tied.agrees)
    hg.tied hg.mem_names
  refine ⟨wellFormed_of_tied htied hentry ?_ ?_ ?_, hd.below htied hbelow hpool⟩ <;> rw [hd.graph]
  · exact hd.vars hg hpool
  · exact hd.nodup_ids hg hbelow hpool
  · exact hd.branched hg hpool

end Graph

/-- Every description gives a well-formed graph, decoys from compiled assets keep it well formed whatever the
chance and the random source, and so does splicing wherever the entry stays a function. -/
theorem wellFormed_through_passes :
    (∀ (d : Description) (s s' : Supply) (g : Graph), d.toGraph s = .ok (g, s') → g.WellFormed ∧ g.Below s') ∧
    (∀ (σ : Type) [RandomSource σ] (g : Graph) (graphs : List Graph) (chance : Chance) (names : Names)
      (supply : Supply) (source : σ) (i : Injection σ), g.WellFormed → g.Below supply →
      (∀ asset ∈ graphs, ∃ (d : Description) (s s' : Supply), d.toGraph s = .ok (asset, s')) →
      (∀ asset ∈ graphs, asset.Below supply) → (∀ asset ∈ graphs, g.Apart asset) →
      (graphs.Pairwise fun asset asset' => asset = asset' ∨ asset.Apart asset') →
      g.withDecoys (.ofGraphs graphs) chance names supply source = .ok i →
      i.graph.WellFormed ∧ i.graph.Below i.supply) ∧
    ∀ (g : Graph) (p : Placement) (s s' : Supply) (blocks : List Block) (bs : BlockSet), g.WellFormed → g.Below s →
      p.isFunc g.entry = true → p.inline g.blocks s = .ok (blocks, s') → BlockSet.repaired blocks = .ok bs →
      ({ g with blocks := bs } : Graph).WellFormed := by
  refine ⟨fun d s s' g h => ?_, ?_, ?_⟩
  · exact ⟨Graph.wellFormed_of_toGraph h, (Description.compiled h).ids.mono fun n hn => hn.2⟩
  · intro σ _ g graphs chance names supply source i hg hbelow hcompiled hassets hapart hpairwise h
    exact hg.withDecoys hbelow (DecoyPool.fits_ofGraphs hcompiled hassets hapart hpairwise) h
  · intro g p s s' blocks bs hg hbelow hentry hin hrep
    exact hg.repaired hbelow hentry hin hrep

theorem wellFormed_nesting : ∃ g s asset s' i p blocks s'' bs,
    Description.nesting.toGraph .first = .ok (g, s) ∧ Description.ticking.toGraph s = .ok (asset, s') ∧
    g.withDecoys (.ofGraphs [asset]) .always (.reserveAll .empty g.names) s' (ChaCha.ofSeed 0) = .ok i ∧
    i.wrappers.length = 3 ∧ Placement.inline p i.graph.blocks i.supply = .ok (blocks, s'') ∧
    BlockSet.repaired blocks = .ok bs ∧ g.WellFormed ∧ i.graph.WellFormed ∧
    ({ i.graph with blocks := bs } : Graph).WellFormed := by
  have h : (do
      let r ← (Description.nesting.toGraph .first).toOption
      let a ← (Description.ticking.toGraph r.2).toOption
      let i ← (r.1.withDecoys (.ofGraphs [a.1]) .always (.reserveAll .empty r.1.names) a.2 (ChaCha.ofSeed 0)).toOption
      let q ← (Placement.inline ⟨[i.graph.entry], i.graph.blocks.names, []⟩ i.graph.blocks i.supply).toOption
      let bs ← (BlockSet.repaired q.1).toOption
      guard (i.wrappers.length = 3 ∧ bs.toList.length = 1) : Option Unit).isSome = true := by
    decide +kernel
  simp only [Option.isSome_iff_exists, Option.bind_eq_bind, Option.bind_eq_some_iff, toOption_eq_some] at h
  obtain ⟨_, ⟨g, s⟩, hg, ⟨asset, s'⟩, hasset, i, hi, ⟨blocks, s''⟩, hin, bs, hrep, h⟩ := h
  have hlength : i.wrappers.length = 3 := by
    by_contra hne
    simp [guard, hne] at h
  have hcompiled := Description.compiled hg
  have hcompiled' := Description.compiled hasset
  obtain ⟨hfirst, hdecoys, hinline⟩ := wellFormed_through_passes
  have hwell := (hfirst _ _ _ _ hg).1
  have hbelow : g.Below s' := hcompiled.ids.mono fun n hn => hn.2.trans_le hcompiled'.drawn.le
  obtain ⟨hwell', hbelow'⟩ := hdecoys _ _ _ _ _ _ _ _ hwell hbelow
    (List.forall_mem_singleton.2 ⟨_, _, _, hasset⟩) (List.forall_mem_singleton.2 (hfirst _ _ _ _ hasset).2)
    (List.forall_mem_singleton.2 (Graph.apart_of_le hcompiled.ids hcompiled'.ids (Nat.le_refl _)))
    (List.pairwise_singleton _ _) hi
  have hentry : Placement.isFunc ⟨[i.graph.entry], i.graph.blocks.names, []⟩ i.graph.entry = true := by
    simp [Placement.isFunc]
  exact ⟨g, s, asset, s', i, _, blocks, s'', bs, hg, hasset, hi, hlength, hin, hrep, hwell, hwell',
    hinline _ _ _ _ _ _ hwell' hbelow' hentry hin hrep⟩

end Diversity
