import Diversity.Proofs.Injected
import Diversity.Random.ChaCha
/-! Decoys can be taken out again: with the calls of new decoys replaced by what these decoys end in, every
block has the body that it had before. -/
namespace Diversity

/-- All identities in use lie below those that the supply gives out. -/
def Graph.Below (s : Supply) (g : Graph) : Prop := g.AllIds (· < s.next)

namespace Stmt

/-- The second list is the first one, with the same callees, under distinct identities that are all new. -/
structure FreshCopy (s : Supply) (body copy : List Stmt) : Prop where
  same : anonymousAll copy = anonymousAll body
  callees : refs copy = refs body
  nodup : (ids copy).Nodup
  fresh : ∀ i ∈ ids copy, s.next ≤ i.index

theorem freshCopy_of_refreshAll {body copy : List Stmt} {s₀ s s' : Supply} (hle : s₀.next ≤ s.next)
    (h : refreshAll body s = (copy, s')) : FreshCopy s₀ body copy := by
  have hdraws := (draws_of_refreshAll h).of_le hle
  exact ⟨anonymousAll_of_refreshAll h, refs_of_refreshAll h, hdraws.nodup, fun i hi => (hdraws.bounds i hi).1⟩

/-- The statements with every call of a decoy replaced by the last statement of the decoy. -/
def unwrapped (decoys : List Block) : List Stmt → List Stmt :=
  replaceCalls fun callee => (decoys.find? (·.ref = callee)).map (·.statements.getLast?.toList)

theorem refs_append (body rest : List Stmt) : refs (body ++ rest) = refs body ++ refs rest := by
  simp [refs, calls_append]

end Stmt

namespace Additions

variable {pool : DecoyPool} {g : Graph} {supply : Supply} {a a' : Additions} {id : NodeId} {callee : BlockRef}
  {front : List Stmt}

/-! ## What has come in -/

/-- The block is a copy of an asset's entry block and then a call of the graph. -/
def Wrapper (pool : DecoyPool) (g : Graph) (supply : Supply) (chunks : List Chunk) (w : Block) : Prop :=
  ∃ asset ∈ pool.assets, ∃ root decoy id callee, asset.root = .ok root ∧
    Stmt.FreshCopy supply root.statements decoy ∧ w.statements = decoy ++ [.call id callee] ∧
    (∃ b ∈ g.blocks.toList, b.constraint.nop = false ∧ (id, callee) ∈ b.calls) ∧ asset.Covers chunks root

/-- All that has come in has its place in an asset or is a new decoy. -/
structure Sound (pool : DecoyPool) (g : Graph) (start : Supply) (a : Additions) : Prop where
  later : start.next ≤ a.supply.next
  blocks : ∀ b ∈ a.blocks, ∃ asset ∈ pool.assets, b ∈ asset.blocks.toList ∧ asset.Covers (g.chunks ++ a.chunks) b
  chunks : ∀ c ∈ a.chunks, ∃ asset ∈ pool.assets, c ∈ asset.chunks
  wrappers : ∀ w ∈ a.wrappers, Wrapper pool g start (g.chunks ++ a.chunks) w
  nodup : (a.wrappers.map (·.id)).Nodup
  bounds : ∀ w ∈ a.wrappers, start.next ≤ w.id.index ∧ w.id.index < a.supply.next

theorem sound_none : Sound pool g supply (.none supply) := by
  refine ⟨Nat.le_refl _, ?_, ?_, ?_, List.nodup_nil, ?_⟩ <;> exact List.forall_mem_nil _

theorem Wraps.sound (h : Wraps pool g a id callee front a')
    (hcall : ∃ b ∈ g.blocks.toList, b.constraint.nop = false ∧ (id, callee) ∈ b.calls)
    (ha : a.Sound pool g supply) : a'.Sound pool g supply := by
  cases h with
  | kept => exact ha
  | @wrapped asset root decoy s name blocks chunks externs hasset hroot hdecoy hblocks hchunks hcovers =>
      have hle : a.supply.next ≤ s.next := (Stmt.draws_of_refreshAll hdecoy).le
      have hsub : g.chunks ++ a.chunks ⊆ g.chunks ++ (a.chunks ++ chunks) := by
        rw [← List.append_assoc]
        exact List.subset_append_left _ _
      obtain ⟨hcoverRoot, hcovers⟩ := List.forall_mem_cons.1 hcovers
      refine ⟨?_, ?_, ?_, ?_, ?_, ?_⟩
      · have := ha.later
        show supply.next ≤ s.next + 2
        omega
      · refine List.forall_mem_append.2 ⟨fun b hb => ?_, fun b hb => ⟨asset, hasset, hblocks b hb, hcovers b hb⟩⟩
        obtain ⟨asset, hasset, hb, hc⟩ := ha.blocks b hb
        exact ⟨asset, hasset, hb, hc.mono hsub⟩
      · exact List.forall_mem_append.2 ⟨ha.chunks, fun c hc => ⟨asset, hasset, hchunks c hc⟩⟩
      · refine List.forall_mem_append.2 ⟨fun w hw => ?_, List.forall_mem_singleton.2 ?_⟩
        · obtain ⟨asset, hasset, root, decoy, id, callee, hroot, hcopy, hw, hcall, hc⟩ := ha.wrappers w hw
          exact ⟨asset, hasset, root, decoy, id, callee, hroot, hcopy, hw, hcall, hc.mono hsub⟩
        · exact ⟨asset, hasset, root, decoy, id, callee, hroot, Stmt.freshCopy_of_refreshAll ha.later hdecoy, rfl,
            hcall, hcoverRoot⟩
      · rw [List.map_append, List.map_singleton, ← List.concat_eq_append]
        refine ha.nodup.concat fun hmem => ?_
        obtain ⟨w, hw, hid⟩ := List.mem_map.1 hmem
        have hlt := (ha.bounds w hw).2
        rw [hid] at hlt
        exact absurd hlt (Nat.not_lt.2 hle)
      · refine List.forall_mem_append.2 ⟨fun w hw => ?_, List.forall_mem_singleton.2 ?_⟩
        · have := ha.bounds w hw
          exact ⟨this.1, show w.id.index < s.next + 2 by omega⟩
        · exact ⟨ha.later.trans hle, show s.next < s.next + 2 by omega⟩

theorem Rewraps.sound {b b' : Block} (h : Rewraps pool g a b b' a') (hb : b ∈ g.blocks.toList)
    (ha : a.Sound pool g supply) : a'.Sound pool g supply := by
  cases h with
  | kept _ => exact ha
  | wrapped hnop h =>
      obtain ⟨fronts, hf, -⟩ := h.parted
      refine hf.invariant (fun s c front s' hc hw hs => ?_) ha
      exact hw.sound ⟨b, hb, hnop, hc⟩ hs

/-! ## Taking the decoys out -/

/-- The blocks have distinct identities that were not in use before. -/
structure Unused (supply : Supply) (decoys : List Block) : Prop where
  nodup : (decoys.map (·.id)).Nodup
  fresh : ∀ w ∈ decoys, supply.next ≤ w.id.index

theorem Unused.find? {decoys : List Block} (h : Unused supply decoys) {w : Block} (hw : w ∈ decoys) :
    decoys.find? (·.ref = w.ref) = some w := by
  cases hf : decoys.find? (·.ref = w.ref) with
  | none => simpa using List.find?_eq_none.1 hf w hw
  | some w' =>
      have href : w'.ref = w.ref := by simpa using List.find?_some hf
      have hid : w'.id = w.id := congrArg BlockRef.id href
      rw [List.inj_on_of_nodup_map h.nodup (List.mem_of_find?_eq_some hf) hw hid]

theorem Unused.find?_eq_none {decoys : List Block} (h : Unused supply decoys) {r : BlockRef}
    (hr : r.id.index < supply.next) : decoys.find? (·.ref = r) = Option.none := by
  refine List.find?_eq_none.2 fun w hw => ?_
  have hle := h.fresh w hw
  simp only [decide_eq_true_eq]
  rintro rfl
  exact absurd hr (Nat.not_lt.2 hle)

theorem Wraps.unwrapped_eq {decoys : List Block} (h : Wraps pool g a id callee front a')
    (hd : Unused supply decoys) (hc : callee.id.index < supply.next) (ha : a'.wrappers ⊆ decoys) :
    a.wrappers ⊆ decoys ∧ Stmt.unwrapped decoys front = [.call id callee] := by
  cases h with
  | kept =>
      refine ⟨ha, ?_⟩
      rw [Stmt.unwrapped, Stmt.replaceCalls_call, hd.find?_eq_none hc]
      rfl
  | wrapped =>
      refine ⟨List.Subset.trans (List.subset_append_left _ _) ha, ?_⟩
      rw [Stmt.unwrapped, Stmt.replaceCalls_call, hd.find? (ha (List.mem_append_right _ List.mem_cons_self))]
      simp [Injection.wrapper]

theorem Rewraps.unwrapped_eq {decoys : List Block} {b b' : Block} (h : Rewraps pool g a b b' a')
    (hd : Unused supply decoys) (hb : ∀ r ∈ Stmt.refs b.statements, r.id.index < supply.next)
    (ha : a'.wrappers ⊆ decoys) : a.wrappers ⊆ decoys ∧ b'.name = b.name ∧ b'.id = b.id ∧
      b'.constraint = b.constraint ∧
      if b.constraint.nop then b' = b else Stmt.unwrapped decoys b'.statements = b.statements := by
  cases h with
  | kept hnop => exact ⟨ha, rfl, rfl, rfl, by simp [hnop]⟩
  | wrapped hnop h =>
      obtain ⟨ha, hbody⟩ := h.replaceCalls_eq (P := (·.wrappers ⊆ decoys)) (fun s id callee front s' hc hw =>
        hw.unwrapped_eq hd (hb callee (List.mem_map_of_mem hc))) ha
      rw [hnop]
      exact ⟨ha, rfl, rfl, rfl, hbody⟩

/-! ## The calls of decoys -/

/-- Each new decoy comes with one call of it. -/
theorem Wraps.count_refs {r : BlockRef} (h : Wraps pool g a id callee front a')
    (hc : callee.id.index < supply.next) (hr : supply.next ≤ r.id.index) :
    (a'.wrappers.map (·.ref)).count r = (a.wrappers.map (·.ref)).count r + (Stmt.refs front).count r := by
  cases h with
  | kept =>
      have hne : r ≠ callee := by
        rintro rfl
        exact absurd hc (Nat.not_lt.2 hr)
      simp [Stmt.refs, Ne.symm hne]
  | wrapped => simp [Stmt.refs]

theorem Rewraps.count_refs {r : BlockRef} {b b' : Block} (h : Rewraps pool g a b b' a')
    (hb : ∀ r ∈ Stmt.refs b.statements, r.id.index < supply.next) (hr : supply.next ≤ r.id.index) :
    (a'.wrappers.map (·.ref)).count r = (a.wrappers.map (·.ref)).count r + (Stmt.refs b'.statements).count r := by
  cases h with
  | kept _ =>
      have hnot : r ∉ Stmt.refs b.statements := fun hmem => absurd (hb r hmem) (Nat.not_lt.2 hr)
      rw [List.count_eq_zero_of_not_mem hnot, Nat.add_zero]
  | @wrapped _ _ body _ h =>
      obtain ⟨fronts, hf, hcalls, -⟩ := h.parted
      have hrefs : Stmt.refs body = fronts.flatMap Stmt.refs := by
        rw [Stmt.refs, hcalls, Stmt.calls_flatten, List.map_flatMap]
        rfl
      rw [Block.withBody, hrefs, List.count_flatMap]
      refine hf.sum_eq (m := fun a => (a.wrappers.map (·.ref)).count r) fun s c front s' hc hw => ?_
      exact hw.count_refs (hb c.2 (List.mem_map_of_mem hc)) hr

theorem count_refs_of_run {r : BlockRef} {blocks blocks' : List Block}
    (h : Chained (Rewraps pool g) a blocks blocks' a')
    (hb : ∀ b ∈ blocks, ∀ r ∈ Stmt.refs b.statements, r.id.index < supply.next) (hr : supply.next ≤ r.id.index) :
    (a'.wrappers.map (·.ref)).count r =
      (a.wrappers.map (·.ref)).count r + (blocks'.flatMap (Stmt.refs ·.statements)).count r := by
  rw [List.count_flatMap]
  refine h.sum_eq (m := fun a => (a.wrappers.map (·.ref)).count r) fun s b b' s' hmem hw => ?_
  exact hw.count_refs (hb b hmem) hr

end Additions

namespace DecoyPool

variable {graphs : List Graph} {asset : Graph}

theorem exists_mark (h : asset ∈ (ofGraphs graphs).assets) :
    ∃ g ∈ graphs, asset = { g with blocks := .of (g.blocks.toList.map mark) } := by
  obtain ⟨g, hg, rfl⟩ := List.mem_map.1 h
  exact ⟨g, hg, rfl⟩

theorem root_mark {g : Graph} {root : Block}
    (h : ({ g with blocks := .of (g.blocks.toList.map mark) } : Graph).root = .ok root) :
    ∃ b, g.root = .ok b ∧ root = mark b := by
  have hf : (g.blocks.find? g.entry).map mark = some root := by
    rw [← BlockSet.find?_of_map (f := mark) fun _ => rfl]
    unfold Graph.root at h
    split at h
    · next hf =>
      cases h
      exact hf
    · cases h
  obtain ⟨b, hb, rfl⟩ := Option.map_eq_some_iff.1 hf
  refine ⟨b, ?_, rfl⟩
  rw [Graph.root, hb]

end DecoyPool

namespace Graph

section

variable {σ : Type} {g : Graph} {pool : DecoyPool} {supply : Supply} {i : Injection σ} {blocks : List Block}
  {a : Additions}

theorem Decoyed.sound (h : g.Decoyed pool supply i blocks a) : a.Sound pool g supply :=
  h.run.invariant (fun _ _ _ _ hb hr => hr.sound hb) Additions.sound_none

/-- Of all blocks exactly one calls a new decoy, and it does so once. -/
theorem Decoyed.count_refs (h : g.Decoyed pool supply i blocks a) (hg : g.Below supply)
    (hpool : ∀ asset ∈ pool.assets, ∀ b ∈ asset.blocks.toList, ∀ r ∈ Stmt.refs b.statements, r.id.index < supply.next)
    {w : Block} (hw : w ∈ a.wrappers) :
    ((blocks ++ a.blocks ++ a.wrappers).flatMap (Stmt.refs ·.statements)).count w.ref = 1 := by
  have hr : supply.next ≤ w.ref.id.index := (h.sound.bounds w hw).1
  have hrefs : (a.wrappers.map (·.ref)).Nodup := by
    refine .of_map (·.id) ?_
    rw [List.map_map]
    exact h.sound.nodup
  have hrun := Additions.count_refs_of_run h.run hg.callees hr
  rw [List.count_eq_one_of_mem hrefs (List.mem_map_of_mem hw)] at hrun
  -- what was there before calls no new block
  have hold {l : List Block} (hl : ∀ b ∈ l, ∀ r ∈ Stmt.refs b.statements, r.id.index < supply.next) :
      (l.flatMap (Stmt.refs ·.statements)).count w.ref = 0 := by
    refine List.count_eq_zero_of_not_mem fun hmem => ?_
    obtain ⟨b, hb, hmem⟩ := List.mem_flatMap.1 hmem
    exact absurd (hl b hb _ hmem) (Nat.not_lt.2 hr)
  have hblocks : (a.blocks.flatMap (Stmt.refs ·.statements)).count w.ref = 0 := by
    refine hold fun b hb => ?_
    obtain ⟨asset, hasset, hb, -⟩ := h.sound.blocks b hb
    exact hpool asset hasset b hb
  have hwrappers : (a.wrappers.flatMap (Stmt.refs ·.statements)).count w.ref = 0 := by
    refine hold fun v hv r hr => ?_
    obtain ⟨asset, hasset, root, decoy, id, callee, hroot, hcopy, hbody, ⟨b, hb, -, hcall⟩, -⟩ := h.sound.wrappers v hv
    rw [hbody, Stmt.refs_append, hcopy.callees, List.mem_append, Stmt.refs_call] at hr
    rcases hr with hr | hr
    · exact hpool asset hasset root (BlockSet.mem_of_find? (find?_of_root hroot)) r hr
    · obtain rfl : r = callee := List.mem_singleton.1 hr
      exact hg.callees b hb r (List.mem_map_of_mem hcall)
  rw [List.flatMap_append, List.flatMap_append, List.count_append, List.count_append, hblocks, hwrappers]
  simpa [Additions.none] using hrun.symm

end

/-- The second graph is the first one with decoys, which are new blocks, and with blocks of assets that they
need. With every call of a new decoy replaced by what the decoy ends in, its own blocks are what they were. -/
structure Unwraps {σ : Type} (g : Graph) (graphs : List Graph) (supply : Supply) (i : Injection σ)
    (blocks absorbed : List Block) : Prop where
  chunks : g.chunks <+: i.graph.chunks
  externs : g.externs <+: i.graph.externs
  layout : i.graph.blocks.toList = blocks ++ absorbed ++ i.wrappers
  own : List.Forall₂ (fun b b' => b'.name = b.name ∧ b'.id = b.id ∧ b'.constraint = b.constraint ∧
    if b.constraint.nop then b' = b else Stmt.unwrapped i.wrappers b'.statements = b.statements)
    g.blocks.toList blocks
  absorbed : ∀ b ∈ absorbed, ∃ asset ∈ graphs, ∃ c ∈ asset.blocks.toList, b = DecoyPool.mark c
  /-- A new decoy is called once. -/
  called : ∀ w ∈ i.wrappers, (i.graph.blocks.toList.flatMap (Stmt.refs ·.statements)).count w.ref = 1
  /-- It is a copy of an asset's entry block and then one of the calls that were there before. -/
  wrapper : ∀ w ∈ i.wrappers, supply.next ≤ w.id.index ∧ ∃ asset ∈ graphs, ∃ root decoy id callee,
    asset.root = .ok root ∧ Stmt.FreshCopy supply root.statements decoy ∧
    w.statements = decoy ++ [.call id callee] ∧
    ∃ b ∈ g.blocks.toList, b.constraint.nop = false ∧ (id, callee) ∈ b.calls

variable {σ : Type} [RandomSource σ] {g : Graph} {graphs : List Graph} {chance : Chance} {names : Names}
  {supply : Supply} {source : σ} {i : Injection σ}

/-- Decoys only come in, and they can be taken out again. -/
theorem withDecoys_unwraps (h : g.withDecoys (.ofGraphs graphs) chance names supply source = .ok i)
    (hn : g.blocks.names.Nodup) (hg : g.Below supply) (hgraphs : ∀ asset ∈ graphs, asset.Below supply) :
    ∃ blocks absorbed, g.Unwraps graphs supply i blocks absorbed := by
  obtain ⟨blocks, a, hd⟩ := withDecoys_eq_ok h hn
  have hunused : Additions.Unused supply a.wrappers := ⟨hd.sound.nodup, fun w hw => (hd.sound.bounds w hw).1⟩
  refine ⟨blocks, a.blocks, ?_, ?_, ?_, ?_, fun b hb => ?_, fun w hw => ?_, fun w hw => ?_⟩
  · rw [hd.graph]
    exact List.prefix_append _ _
  · rw [hd.graph]
    exact List.prefix_append _ _
  · rw [hd.graph, hd.wrappers, BlockSet.toList_of]
  · rw [hd.wrappers]
    refine (hd.run.forall₂_back (P := (·.wrappers ⊆ a.wrappers)) (fun s b b' s' hb hr hs => ?_) ?_).2
    · exact hr.unwrapped_eq hunused (hg.callees b hb) hs
    · exact List.Subset.refl _
  · obtain ⟨asset, hasset, hb, -⟩ := hd.sound.blocks b hb
    obtain ⟨g, hg, rfl⟩ := DecoyPool.exists_mark hasset
    obtain ⟨c, hc, rfl⟩ := List.mem_map.1 hb
    exact ⟨g, hg, c, hc, rfl⟩
  · rw [hd.wrappers] at hw
    rw [hd.graph]
    refine hd.count_refs hg (fun asset hasset b hb => ?_) hw
    obtain ⟨g, hg, rfl⟩ := DecoyPool.exists_mark hasset
    obtain ⟨c, hc, rfl⟩ := List.mem_map.1 hb
    exact (hgraphs g hg).callees c hc
  · rw [hd.wrappers] at hw
    obtain ⟨asset, hasset, root, decoy, id, callee, hroot, hcopy, hbody, hcall, -⟩ := hd.sound.wrappers w hw
    obtain ⟨g, hg, rfl⟩ := DecoyPool.exists_mark hasset
    obtain ⟨b, hb, rfl⟩ := DecoyPool.root_mark hroot
    exact ⟨(hd.sound.bounds w hw).1, g, hg, b, decoy, id, callee, hb, hcopy, hbody, hcall⟩

end Graph

/-- A loop that calls a block at two depths, and a block that is a decoy already. -/
def Description.nesting : Description where
  entry := "main"
  externs := []
  chunks := [⟨none, true, false, false, [⟨"n", "int", none⟩]⟩]
  blocks := [
    ⟨"main", true, false, false,
      [.loop (.var "n") [.call "step", .choice [.mk (.var "n") [.call "step"]] (some [.call "rest"])]]⟩,
    ⟨"step", false, false, false, [.assign (.var "n") (.value "1")]⟩,
    ⟨"rest", false, false, true, [.call "step"]⟩]

/-- A decoy with a variable and a block of its own. -/
def Description.ticking : Description where
  entry := "tick"
  externs := []
  chunks := [⟨none, false, false, false, [⟨"ticks", "int", none⟩]⟩]
  blocks := [
    ⟨"tick", false, false, false, [.call "tock"]⟩,
    ⟨"tock", false, false, false, [.assign (.var "ticks") (.value "0")]⟩]

theorem Graph.withDecoys_unwraps_nesting : ∃ g s asset s' i blocks absorbed,
    Description.nesting.toGraph .first = .ok (g, s) ∧ Description.ticking.toGraph s = .ok (asset, s') ∧
    g.withDecoys (.ofGraphs [asset]) .always (.reserveAll .empty g.names) s' (ChaCha.ofSeed 0) = .ok i ∧
    i.wrappers.length = 3 ∧ g.Unwraps [asset] s' i blocks absorbed := by
  have h : (do
      let r ← (Description.nesting.toGraph .first).toOption
      let a ← (Description.ticking.toGraph r.2).toOption
      let i ← (r.1.withDecoys (.ofGraphs [a.1]) .always (.reserveAll .empty r.1.names) a.2 (ChaCha.ofSeed 0)).toOption
      guard (i.wrappers.length = 3) : Option Unit).isSome = true := by
    decide +kernel
  simp only [Option.isSome_iff_exists, Option.bind_eq_bind, Option.bind_eq_some_iff, toOption_eq_some] at h
  obtain ⟨_, ⟨g, s⟩, hg, ⟨asset, s'⟩, hasset, i, hi, h⟩ := h
  have hlength : i.wrappers.length = 3 := by
    by_contra hne
    simp [guard, hne] at h
  have hcompiled := Description.compiled hg
  have hcompiled' := Description.compiled hasset
  have hle : s.next ≤ s'.next := hcompiled'.drawn.le
  obtain ⟨blocks, absorbed, hunwraps⟩ := withDecoys_unwraps hi hcompiled.names
    (hcompiled.ids.mono fun n hn => hn.2.trans_le hle)
    (List.forall_mem_singleton.2 (hcompiled'.ids.mono fun n hn => hn.2))
  exact ⟨g, s, asset, s', i, blocks, absorbed, hg, hasset, hi, hlength, hunwraps⟩

end Diversity
