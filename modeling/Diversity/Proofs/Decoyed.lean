import Diversity.Decoy.Basic
import Diversity.Proofs.CallPaths
import Diversity.Proofs.Compiled
import Diversity.Proofs.Copies
/-! Decoys put in front of calls: every call of the new graph is of one of its blocks, as before. How much
a call says of its callee is left open: its name alone, or its name and its identity. -/
namespace Diversity

namespace BlockSet

def refs (bs : BlockSet) : List BlockRef := bs.toList.map (·.ref)

/-- The names are distinct, and every call shows, under `view`, a block of the set. -/
structure LinkedBy {α : Type} (view : BlockRef → α) (bs : BlockSet) : Prop where
  names : bs.names.Nodup
  calls : ∀ b ∈ bs.toList, ∀ c ∈ b.calls, view c.2 ∈ bs.refs.map view

/-- Every call is of a block of the set. -/
abbrev Tied (bs : BlockSet) : Prop := bs.LinkedBy id

/-- A call shows of its callee what the block of that name shows. -/
def Agrees {α : Type} (view : BlockRef → α) (bs : BlockSet) : Prop :=
  ∀ b ∈ bs.toList, ∀ c ∈ b.calls, ∀ d, bs.find? c.2.name = some d → view c.2 = view d.ref

variable {α : Type} {view : BlockRef → α} {bs bs' : BlockSet} {b : Block}

theorem map_name_refs (bs : BlockSet) : bs.refs.map (·.name) = bs.names := by
  simp [refs, names, Block.ref]

theorem linkedBy_name : bs.LinkedBy BlockRef.name ↔ bs.Linked := by
  constructor
  · exact fun h => ⟨h.names, fun b hb c hc => map_name_refs bs ▸ h.calls b hb c hc⟩
  · exact fun h => ⟨h.names, fun b hb c hc => (map_name_refs bs).symm ▸ h.calls b hb c hc⟩

theorem agrees_name (bs : BlockSet) : bs.Agrees BlockRef.name := by
  intro b _ c _ d hd
  exact (name_of_find? hd).symm

theorem Tied.find? (h : bs.Tied) (hb : b ∈ bs.toList) {c : NodeId × BlockRef} (hc : c ∈ b.calls) :
    ∃ d ∈ bs.toList, c.2 = d.ref ∧ bs.find? c.2.name = some d := by
  have hmem : c.2 ∈ bs.refs := by simpa using h.calls b hb c hc
  obtain ⟨d, hd, hdc⟩ := List.mem_map.1 hmem
  exact ⟨d, hd, hdc.symm, hdc ▸ find?_name h.names hd⟩

theorem Tied.agrees (h : bs.Tied) : bs.Agrees view := by
  intro b hb c hc d hd
  obtain ⟨d', -, hc', hd'⟩ := h.find? hb hc
  rw [hd, Option.some.injEq] at hd'
  rw [hc', hd']

theorem Tied.linked (h : bs.Tied) : bs.Linked := by
  refine ⟨h.names, fun b hb c hc => ?_⟩
  obtain ⟨d, -, -, hd⟩ := h.find? hb hc
  exact mem_names_of_find? hd

/-- A block that stands for itself in the set may be replaced. -/
theorem refs_replace (h : bs.replace b = .ok bs') (hn : bs.names.Nodup) (hb : b.ref ∈ bs.refs) :
    bs'.refs = bs.refs := by
  obtain ⟨i, hi, rfl⟩ := replace_eq_ok h
  obtain ⟨c, hc, hname⟩ := exists_of_position hi
  obtain ⟨d, hd, hdb⟩ := List.mem_map.1 hb
  obtain rfl := List.inj_on_of_nodup_map hn hd (List.mem_of_getElem? hc) ((congrArg BlockRef.name hdb).trans hname.symm)
  rw [refs, toList_of, List.map_set]
  refine set_eq_self ?_
  rw [List.getElem?_map, hc, Option.map_some, hdb]

end BlockSet

namespace Graph

/-- The second graph has the blocks of the first one, under distinct names, and behind them others that satisfy
`P`. -/
structure Extends (P : Block → Prop) (g g' : Graph) : Prop where
  entry : g'.entry = g.entry
  nodup : g.blocks.names.Nodup → g'.blocks.names.Nodup
  blocks : ∃ added, g'.blocks.toList = g.blocks.toList ++ added ∧ ∀ b ∈ added, P b

variable {α : Type} {view : BlockRef → α} {P Q : Block → Prop} {g g' g₁ asset : Graph} {b root : Block}

theorem Extends.refl (g : Graph) : g.Extends P g :=
  ⟨rfl, fun h => h, [], (List.append_nil _).symm, List.forall_mem_nil _⟩

theorem Extends.trans (h : g.Extends P g₁) (h' : g₁.Extends P g') : g.Extends P g' := by
  obtain ⟨added, hadded, hP⟩ := h.blocks
  obtain ⟨added', hadded', hP'⟩ := h'.blocks
  refine ⟨h'.entry.trans h.entry, fun hn => h'.nodup (h.nodup hn), added ++ added', ?_, ?_⟩
  · rw [hadded', hadded, List.append_assoc]
  · exact List.forall_mem_append.2 ⟨hP, hP'⟩

theorem Extends.mono (h : g.Extends P g') (hPQ : ∀ b, P b → Q b) : g.Extends Q g' := by
  obtain ⟨added, hadded, hP⟩ := h.blocks
  exact ⟨h.entry, h.nodup, added, hadded, fun b hb => hPQ b (hP b hb)⟩

theorem Extends.refs (h : g.Extends P g') : g.blocks.refs ⊆ g'.blocks.refs := by
  obtain ⟨added, hadded, -⟩ := h.blocks
  intro r hr
  rw [BlockSet.refs, hadded, List.map_append]
  exact List.mem_append_left _ hr

theorem Extends.cases (h : g.Extends P g') (hb : b ∈ g'.blocks.toList) : b ∈ g.blocks.toList ∨ P b := by
  obtain ⟨added, hadded, hP⟩ := h.blocks
  rw [hadded, List.mem_append] at hb
  exact hb.imp_right (hP b)

theorem extends_absorbBlock {name : String} (h : g.absorbBlock name b = .ok g') :
    g.Extends (· = b) g' ∧ b.ref ∈ g'.blocks.refs ∧ g'.chunks = g.chunks ∧ g'.externs = g.externs := by
  unfold absorbBlock at h
  split at h
  · next c hf =>
    split at h
    · next hid =>
      cases h
      have hc : c.ref = b.ref := by simp [Block.ref, hid, BlockSet.name_of_find? hf]
      exact ⟨.refl g, hc ▸ List.mem_map_of_mem (BlockSet.mem_of_find? hf), rfl, rfl⟩
    · cases h
  · next hf =>
    obtain ⟨bs, hbs, h⟩ := bind_eq_ok.1 h
    cases h
    obtain ⟨hn, rfl⟩ := BlockSet.insert_eq_ok.1 hbs
    refine ⟨⟨rfl, fun hnd => ?_, [b], rfl, List.forall_mem_singleton.2 rfl⟩, ?_, rfl, rfl⟩
    · rw [BlockSet.names_append, List.map_singleton, ← List.concat_eq_append]
      exact hnd.concat hn
    · simp [BlockSet.refs]

/-- Every block of a list of names is there after they have been added. -/
theorem extends_absorbBlocks {name : String} {names : List String}
    (h : names.foldlM (fun g n => do
      match asset.blocks.find? n with
      | some b => g.absorbBlock name b
      | none => throw (SynthesisError.unknownBlock n)) g = .ok g') :
    g.Extends (fun b => ∃ n ∈ names, asset.blocks.find? n = some b) g' ∧
      (∀ n ∈ names, ∃ b, asset.blocks.find? n = some b ∧ b.ref ∈ g'.blocks.refs) ∧
      g'.chunks = g.chunks ∧ g'.externs = g.externs := by
  induction names generalizing g with
  | nil =>
      cases h
      exact ⟨.refl _, List.forall_mem_nil _, rfl, rfl⟩
  | cons n names ih =>
      rw [List.foldlM_cons] at h
      obtain ⟨g₁, hg₁, h⟩ := bind_eq_ok.1 h
      obtain ⟨hext, hall, hchunks, hexterns⟩ := ih h
      split at hg₁
      · next b hf =>
        obtain ⟨hb, hn, hchunks', hexterns'⟩ := extends_absorbBlock hg₁
        refine ⟨(hb.mono ?_).trans (hext.mono ?_), List.forall_mem_cons.2 ⟨⟨b, hf, hext.refs hn⟩, hall⟩,
          hchunks.trans hchunks', hexterns.trans hexterns'⟩
        · rintro c rfl
          exact ⟨n, List.mem_cons_self, hf⟩
        · rintro c ⟨m, hm, hc⟩
          exact ⟨m, List.mem_cons_of_mem n hm, hc⟩
      · cases hg₁

/-- Every chunk of a list is there after they have been added. -/
theorem foldl_absorbChunk (cs : List Chunk) (g : Graph) : ∃ added,
    cs.foldl absorbChunk g = { g with chunks := g.chunks ++ added } ∧ (∀ c ∈ added, c ∈ cs) ∧
      ∀ c ∈ cs, c.id ∈ (g.chunks ++ added).map (·.id) := by
  induction cs generalizing g with
  | nil => exact ⟨[], by simp, List.forall_mem_nil _, List.forall_mem_nil _⟩
  | cons c cs ih =>
      rw [List.foldl_cons, absorbChunk]
      split
      · next hsome =>
        obtain ⟨added, hadded, hcs, hids⟩ := ih g
        refine ⟨added, hadded, fun d hd => List.mem_cons_of_mem _ (hcs d hd), List.forall_mem_cons.2 ⟨?_, hids⟩⟩
        obtain ⟨d, hd⟩ := Option.isSome_iff_exists.1 hsome
        have hid : d.id = c.id := by simpa using List.find?_some hd
        exact hid ▸ List.mem_map_of_mem (List.mem_append_left _ (List.mem_of_find?_eq_some hd))
      · obtain ⟨added, hadded, hcs, hids⟩ := ih { g with chunks := g.chunks ++ [c] }
        refine ⟨c :: added, by simpa using hadded, ?_, List.forall_mem_cons.2 ⟨by simp, by simpa using hids⟩⟩
        exact List.forall_mem_cons.2 ⟨List.mem_cons_self, fun d hd => List.mem_cons_of_mem _ (hcs d hd)⟩

theorem foldl_absorbExtern (vs : List Variable) (g : Graph) :
    ∃ added, vs.foldl absorbExtern g = { g with externs := g.externs ++ added } := by
  induction vs generalizing g with
  | nil => exact ⟨[], by simp⟩
  | cons v vs ih =>
      rw [List.foldl_cons, absorbExtern]
      split
      · exact ih g
      · obtain ⟨added, hadded⟩ := ih { g with externs := g.externs ++ [⟨v, none⟩] }
        exact ⟨⟨v, none⟩ :: added, by simpa using hadded⟩

/-- What the root of an asset reaches is there after it has been added: its blocks, and the chunks of the asset
that they mention. -/
theorem absorb_eq_ok (h : g.absorb asset root = .ok g') (hroot : asset.blocks.find? root.name = some root) :
    ∃ t, Trace.ofBlock asset.blocks root true = .ok t ∧ g.Extends (fun b => ∃ w ∈ t.visits, w.block = b) g' ∧
      (∀ w ∈ t.visits, w.block.ref ∈ g'.blocks.refs) ∧
      (∃ added, g'.chunks = g.chunks ++ added ∧ ∀ c ∈ added, c ∈ asset.chunks) ∧
      (∀ c ∈ t.chunks, (asset.chunk? c).isSome → c ∈ g'.chunks.map (·.id)) ∧ g.externs <+: g'.externs := by
  unfold absorb at h
  obtain ⟨t, ht, h⟩ := bind_eq_ok.1 h
  obtain ⟨g₁, hg₁, h⟩ := bind_eq_ok.1 h
  cases h
  obtain ⟨hext, hall, hchunks, hexterns⟩ := extends_absorbBlocks hg₁
  obtain ⟨chunks, hg₂, hadded, hids⟩ := foldl_absorbChunk (t.chunks.filterMap asset.chunk?) g₁
  obtain ⟨externs, hg₃⟩ := foldl_absorbExtern t.externs { g₁ with chunks := g₁.chunks ++ chunks }
  have hvisit {w : Visit} (hw : w ∈ t.visits) : asset.blocks.find? w.block.name = some w.block :=
    ((Trace.mem_visits ht).1 hw).1.find? hroot
  rw [hg₂, hg₃]
  refine ⟨t, ht, ⟨hext.entry, hext.nodup, ?_⟩, fun w hw => ?_, ⟨chunks, by rw [hchunks], fun c hc => ?_⟩,
    fun c hc hsome => ?_, ⟨externs, by rw [hexterns]⟩⟩
  · obtain ⟨added, hblocks, hnamed⟩ := hext.blocks
    refine ⟨added, hblocks, fun b hb => ?_⟩
    obtain ⟨n, hn, hf⟩ := hnamed b hb
    obtain ⟨w, hw, rfl⟩ := Trace.mem_blocks.1 hn
    exact ⟨w, hw, Option.some.inj ((hvisit hw).symm.trans hf)⟩
  · obtain ⟨b, hf, hb⟩ := hall _ (Trace.mem_blocks.2 ⟨w, hw, rfl⟩)
    obtain rfl := Option.some.inj (hf.symm.trans (hvisit hw))
    exact hb
  · obtain ⟨i, -, hi⟩ := List.mem_filterMap.1 (hadded c hc)
    exact List.mem_of_find?_eq_some hi
  · obtain ⟨k, hk⟩ := Option.isSome_iff_exists.1 hsome
    have hid : k.id = c := by simpa using List.find?_some hk
    exact hid ▸ hids k (List.mem_filterMap.2 ⟨c, hc, hk⟩)

/-- What is added of an asset calls nothing but what is there then. -/
theorem extends_absorb (h : g.absorb asset root = .ok g') (hroot : asset.blocks.find? root.name = some root)
    (hasset : asset.blocks.Agrees view) :
    g.Extends (fun b => ∀ c ∈ b.calls, view c.2 ∈ g'.blocks.refs.map view) g' ∧
      ∀ c ∈ root.calls, view c.2 ∈ g'.blocks.refs.map view := by
  obtain ⟨t, ht, hext, hrefs, -⟩ := absorb_eq_ok h hroot
  have hvisit {w : Visit} (hw : w ∈ t.visits) : asset.blocks.find? w.block.name = some w.block :=
    ((Trace.mem_visits ht).1 hw).1.find? hroot
  have hcalls {w : Visit} (hw : w ∈ t.visits) : ∀ c ∈ w.block.calls, view c.2 ∈ g'.blocks.refs.map view := by
    intro c hc
    obtain ⟨u, hu, hname⟩ := Trace.mem_blocks.1 (Trace.mem_blocks_of_call ht hw hc)
    rw [hasset _ (BlockSet.mem_of_find? (hvisit hw)) c hc u.block (hname ▸ hvisit hu)]
    exact List.mem_map_of_mem (hrefs u hu)
  refine ⟨hext.mono ?_, hcalls ((Trace.mem_visits ht (w := ⟨root, []⟩)).2 ⟨.nil, CallPath.fresh_nil _⟩)⟩
  rintro b ⟨w, hw, rfl⟩
  exact hcalls hw

theorem find?_of_root (h : g.root = .ok b) : g.blocks.find? b.name = some b := by
  unfold root at h
  split at h
  · next hf =>
    cases h
    rwa [BlockSet.name_of_find? hf]
  · cases h

end Graph

namespace Injection

variable {σ α : Type} {view : BlockRef → α} {i i' i₁ : Injection σ} {pool : DecoyPool} {chance : Chance}

/-- What all blocks so far show. -/
def known (view : BlockRef → α) (i : Injection σ) : List α :=
  (i.graph.blocks.refs ++ i.wrappers.map (·.ref)).map view

/-- Every call of a block so far shows one of them. -/
structure Linked (view : BlockRef → α) (i : Injection σ) : Prop where
  names : i.graph.blocks.names.Nodup
  calls : ∀ b ∈ i.graph.blocks.toList ++ i.wrappers, ∀ c ∈ b.calls, view c.2 ∈ i.known view

/-- The second state is linked and has all blocks of the first one, with bodies that may differ. -/
structure Grows (view : BlockRef → α) (i i' : Injection σ) : Prop where
  entry : i'.graph.entry = i.graph.entry
  refs : i.graph.blocks.refs ⊆ i'.graph.blocks.refs
  wrappers : i.wrappers ⊆ i'.wrappers
  linked : i'.Linked view

theorem mem_known_of_refs {a : α} (h : a ∈ i.graph.blocks.refs.map view) : a ∈ i.known view := by
  rw [known, List.map_append]
  exact List.mem_append_left _ h

theorem known_subset (hr : i.graph.blocks.refs ⊆ i'.graph.blocks.refs) (hw : i.wrappers ⊆ i'.wrappers) :
    i.known view ⊆ i'.known view := by
  refine List.map_subset view fun r h => ?_
  rcases List.mem_append.1 h with h | h
  · exact List.mem_append_left _ (hr h)
  · exact List.mem_append_right _ (List.map_subset _ hw h)

theorem Grows.known (h : i.Grows view i') : i.known view ⊆ i'.known view := known_subset h.refs h.wrappers

theorem Grows.trans (h : i.Grows view i₁) (h' : i₁.Grows view i') : i.Grows view i' :=
  ⟨h'.entry.trans h.entry, List.Subset.trans h.refs h'.refs, List.Subset.trans h.wrappers h'.wrappers, h'.linked⟩

theorem Linked.grows_of_eq (h : i.Linked view) (hg : i'.graph = i.graph) (hw : i'.wrappers = i.wrappers) :
    i.Grows view i' := by
  have hk : i'.known view = i.known view := by rw [Injection.known, Injection.known, hg, hw]
  refine ⟨by rw [hg], by simp [hg], by simp [hw], by rw [hg]; exact h.names, ?_⟩
  rw [hg, hw, hk]
  exact h.calls

theorem drawn_eq_ok {β : Type} {m : StateM σ β} {a : β} (h : drawn m i = .ok (a, i')) :
    ∃ source, i' = { i with source } := by
  cases h
  exact ⟨_, rfl⟩

theorem numbered_eq_ok {β : Type} {m : StateM Supply β} {a : β} (h : numbered m i = .ok (a, i')) :
    ∃ supply, m i.supply = (a, supply) ∧ i' = { i with supply } := by
  cases h
  exact ⟨_, rfl, rfl⟩

/-- A decoy that ends in a call, numbered from a supply. -/
def wrapper (s : Supply) (name : String) (decoy : List Stmt) (id : NodeId) (callee : BlockRef) : Block :=
  ⟨⟨s.next⟩, name, ⟨false, false, true⟩, decoy ++ [.call id callee]⟩

section

variable [RandomSource σ]

theorem freshName_eq_ok {stem name : String} (h : freshName stem i = .ok (name, i')) :
    ∃ source names, i' = { i with source, names } := by
  unfold freshName at h
  obtain ⟨_, _, h₁, h⟩ := run_bind_eq_ok.1 h
  obtain ⟨⟨_, _⟩, _, h₂, h⟩ := run_bind_eq_ok.1 h
  cases h₁
  obtain ⟨source, rfl⟩ := drawn_eq_ok h₂
  cases h
  exact ⟨_, _, rfl⟩

/-- A call gives way to the call of a new decoy, which is an asset's entry block, copied, and then the call. -/
theorem wrap_eq_ok {id : NodeId} {callee : BlockRef} {front : List Stmt}
    (h : wrap pool id callee i = .ok (front, i')) : ∃ asset ∈ pool.assets, ∃ root decoy s name,
      asset.root = .ok root ∧ i.graph.absorb asset root = .ok i'.graph ∧
      Stmt.refreshAll root.statements i.supply = (decoy, s) ∧
      i'.wrappers = i.wrappers ++ [wrapper s name decoy id callee] ∧ i'.supply = ⟨s.next + 2⟩ ∧
      front = [.call ⟨s.next + 1⟩ (wrapper s name decoy id callee).ref] := by
  unfold wrap at h
  obtain ⟨n, i₁, h₁, h⟩ := run_bind_eq_ok.1 h
  obtain ⟨root, i₂, h₂, h⟩ := run_bind_eq_ok.1 h
  obtain ⟨_, _, h₃, h⟩ := run_bind_eq_ok.1 h
  obtain ⟨g, i₄, h₄, h⟩ := run_bind_eq_ok.1 h
  obtain ⟨_, _, h₅, h⟩ := run_bind_eq_ok.1 h
  obtain ⟨decoy, i₆, h₆, h⟩ := run_bind_eq_ok.1 h
  obtain ⟨name, i₇, h₇, h⟩ := run_bind_eq_ok.1 h
  obtain ⟨block, i₈, h₈, h⟩ := run_bind_eq_ok.1 h
  obtain ⟨_, i₉, h₉, h⟩ := run_bind_eq_ok.1 h
  obtain ⟨node, i₁₀, h₁₀, h⟩ := run_bind_eq_ok.1 h
  obtain ⟨_, rfl⟩ := drawn_eq_ok h₁
  obtain ⟨hroot, rfl⟩ := run_liftM_eq_ok h₂
  cases h₃
  obtain ⟨habsorb, rfl⟩ := run_liftM_eq_ok h₄
  cases h₅
  obtain ⟨s, hdecoy, rfl⟩ := numbered_eq_ok h₆
  obtain ⟨_, _, rfl⟩ := freshName_eq_ok h₇
  cases h₈
  cases h₉
  cases h₁₀
  cases h
  refine ⟨_, ?_, root, decoy, s, name, hroot, habsorb, hdecoy, rfl, rfl, rfl⟩
  -- outside the pool there is only the empty graph, which has no root
  rw [List.getD_eq_getElem?_getD] at hroot ⊢
  cases hget : pool.assets[n]? with
  | none =>
      rw [hget] at hroot
      cases hroot
  | some asset => exact List.mem_of_getElem? hget

/-- A call of a known block gives way to the call of a decoy, which is known then. -/
theorem grows_wrap {id : NodeId} {callee : BlockRef} {front : List Stmt}
    (h : wrap pool id callee i = .ok (front, i')) (hpool : ∀ asset ∈ pool.assets, asset.blocks.Agrees view)
    (hi : i.Linked view) (hc : view callee ∈ i.known view) :
    i.Grows view i' ∧ ∀ c ∈ Stmt.calls front, view c.2 ∈ i'.known view := by
  obtain ⟨asset, hasset, root, decoy, s, name, hroot, habsorb, hdecoy, hwrap, -, rfl⟩ := wrap_eq_ok h
  obtain ⟨hext, hrootcalls⟩ := Graph.extends_absorb habsorb (Graph.find?_of_root hroot) (hpool asset hasset)
  have hwrappers : i.wrappers ⊆ i'.wrappers := by simp [hwrap]
  have hknown : i.known view ⊆ i'.known view := known_subset hext.refs hwrappers
  refine ⟨⟨hext.entry, hext.refs, hwrappers, hext.nodup hi.names, fun b hb c hc' => ?_⟩, ?_⟩
  · rw [hwrap, ← List.append_assoc] at hb
    rcases List.mem_append.1 hb with hb | hb
    · rcases List.mem_append.1 hb with hb | hb
      · rcases hext.cases hb with hb | hb
        · exact hknown (hi.calls b (List.mem_append_left _ hb) c hc')
        · exact mem_known_of_refs (hb c hc')
      · exact hknown (hi.calls b (List.mem_append_right _ hb) c hc')
    · -- the decoy calls what its root calls, and the block that was called before
      obtain rfl := List.mem_singleton.1 hb
      rw [Block.calls, wrapper, Stmt.calls_append, List.mem_append] at hc'
      rcases hc' with hc' | hc'
      · have href : c.2 ∈ Stmt.refs decoy := List.mem_map_of_mem hc'
        rw [Stmt.refs_of_refreshAll hdecoy] at href
        obtain ⟨d, hd, hdc⟩ := List.mem_map.1 href
        exact hdc ▸ mem_known_of_refs (hrootcalls d hd)
      · rw [Stmt.calls_call, Stmt.calls_nil, List.mem_singleton] at hc'
        subst hc'
        exact hknown hc
  · intro c hc
    rw [Stmt.calls_call, Stmt.calls_nil, List.mem_singleton] at hc
    subst hc
    exact List.mem_map_of_mem (List.mem_append_right _ (by simp [hwrap]))

/-- By chance a call stays, or it is wrapped. -/
theorem wrapByChance_cases {id : NodeId} {callee : BlockRef} {front : List Stmt}
    (h : Stmt.ReplacedBy (wrapByChance pool chance) i id callee front i') : ∃ source,
      (front = [.call id callee] ∧ i' = { i with source }) ∨
        wrap pool id callee { i with source } = .ok (front, i') := by
  obtain ⟨o, ho, rfl⟩ := h
  rw [gives_iff_run, wrapByChance] at ho
  obtain ⟨yes, _, h₁, ho⟩ := run_bind_eq_ok.1 ho
  obtain ⟨source, rfl⟩ := drawn_eq_ok h₁
  refine ⟨source, ?_⟩
  split at ho
  · obtain ⟨front, i₂, h₂, ho⟩ := run_bind_eq_ok.1 ho
    cases ho
    exact Or.inr h₂
  · cases ho
    exact Or.inl ⟨rfl, rfl⟩

theorem grows_wrapByChance {id : NodeId} {callee : BlockRef} {front : List Stmt}
    (h : Stmt.ReplacedBy (wrapByChance pool chance) i id callee front i')
    (hpool : ∀ asset ∈ pool.assets, asset.blocks.Agrees view) (hi : i.Linked view)
    (hc : view callee ∈ i.known view) : i.Grows view i' ∧ ∀ c ∈ Stmt.calls front, view c.2 ∈ i'.known view := by
  obtain ⟨source, ⟨rfl, rfl⟩ | h⟩ := wrapByChance_cases h
  · refine ⟨hi.grows_of_eq rfl rfl, fun c hc' => ?_⟩
    rw [Stmt.calls_call, Stmt.calls_nil, List.mem_singleton] at hc'
    subst hc'
    exact hc
  · have hgrows : i.Grows view { i with source } := hi.grows_of_eq rfl rfl
    obtain ⟨hgrows', hfront⟩ := grows_wrap h hpool hgrows.linked (hgrows.known hc)
    exact ⟨hgrows.trans hgrows', hfront⟩

/-- Calls of known blocks give way one after the other to calls of known blocks. -/
theorem grows_of_chained {calls : List (NodeId × BlockRef)} {fronts : List (List Stmt)}
    (h : Chained (fun i c front i' => Stmt.ReplacedBy (wrapByChance pool chance) i c.1 c.2 front i')
      i calls fronts i') (hpool : ∀ asset ∈ pool.assets, asset.blocks.Agrees view) (hi : i.Linked view)
    (hc : ∀ c ∈ calls, view c.2 ∈ i.known view) :
    i.Grows view i' ∧ ∀ c ∈ Stmt.calls fronts.flatten, view c.2 ∈ i'.known view := by
  induction h with
  | nil => exact ⟨hi.grows_of_eq rfl rfl, fun c hc => by cases hc⟩
  | cons h _ ih =>
      obtain ⟨hgrows, hfront⟩ := grows_wrapByChance h hpool hi (hc _ List.mem_cons_self)
      obtain ⟨hgrows', hfronts⟩ :=
        ih hgrows.linked fun c hc' => hgrows.known (hc c (List.mem_cons_of_mem _ hc'))
      refine ⟨hgrows.trans hgrows', fun c hc' => ?_⟩
      rw [List.flatten_cons, Stmt.calls_append, List.mem_append] at hc'
      exact hc'.elim (fun hc' => hgrows'.known (hfront c hc')) (hfronts c)

theorem grows_wrapCalls {b : Block} (h : wrapCalls pool chance b i = .ok ((), i'))
    (hpool : ∀ asset ∈ pool.assets, asset.blocks.Agrees view) (hi : i.Linked view)
    (hb : b.ref ∈ i.graph.blocks.refs) (hc : ∀ c ∈ b.calls, view c.2 ∈ i.known view) : i.Grows view i' := by
  unfold wrapCalls at h
  obtain ⟨body, i₁, hbody, h⟩ := run_bind_eq_ok.1 h
  obtain ⟨_, _, h₂, h⟩ := run_bind_eq_ok.1 h
  obtain ⟨bs, i₃, h₃, h⟩ := run_bind_eq_ok.1 h
  cases h
  obtain ⟨hreplace, rfl⟩ := run_liftM_eq_ok h₃
  cases h₂
  obtain ⟨fronts, hf, hcalls, -, -⟩ := (Stmt.mapsAll_of_gives (gives_iff_run.2 hbody)).parted
  obtain ⟨hgrows, hfronts⟩ := grows_of_chained hf hpool hi hc
  have hnames := BlockSet.names_of_replace hreplace
  have hrefs := BlockSet.refs_replace hreplace hgrows.linked.names (hgrows.refs hb)
  refine ⟨hgrows.entry, ?_, hgrows.wrappers, ⟨?_, ?_⟩⟩
  · exact hrefs.symm ▸ hgrows.refs
  · exact hnames.symm ▸ hgrows.linked.names
  · simp only [known, hrefs]
    intro d hd c hc
    rcases List.mem_append.1 hd with hd | hd
    · rcases BlockSet.mem_of_replace hreplace hd with hd | rfl
      · exact hgrows.linked.calls d (List.mem_append_left _ hd) c hc
      · exact hfronts c (hcalls ▸ hc)
    · exact hgrows.linked.calls d (List.mem_append_right _ hd) c hc

theorem grows_wrapEach {blocks : List Block} (h : blocks.forM (wrapCalls pool chance) i = .ok ((), i'))
    (hpool : ∀ asset ∈ pool.assets, asset.blocks.Agrees view) (hi : i.Linked view)
    (hb : ∀ b ∈ blocks, b.ref ∈ i.graph.blocks.refs ∧ ∀ c ∈ b.calls, view c.2 ∈ i.known view) :
    i.Grows view i' := by
  induction blocks generalizing i with
  | nil =>
      cases h
      exact hi.grows_of_eq rfl rfl
  | cons b blocks ih =>
      obtain ⟨_, i₁, h₁, h⟩ := run_bind_eq_ok.1 h
      obtain ⟨hb, hblocks⟩ := List.forall_mem_cons.1 hb
      have hgrows := grows_wrapCalls h₁ hpool hi hb.1 hb.2
      refine hgrows.trans (ih h hgrows.linked fun d hd => ?_)
      exact ⟨hgrows.refs (hblocks d hd).1, fun c hc => hgrows.known ((hblocks d hd).2 c hc)⟩

end

end Injection

namespace Graph

variable {σ α : Type} [RandomSource σ] {view : BlockRef → α} {g : Graph} {pool : DecoyPool} {chance : Chance}
  {names : Names} {supply : Supply} {source : σ} {i : Injection σ}

/-- A graph with decoys is linked if the graph was, and starts where it did. -/
theorem linkedBy_withDecoys (h : g.withDecoys pool chance names supply source = .ok i)
    (hpool : ∀ asset ∈ pool.assets, asset.blocks.Agrees view) (hg : g.blocks.LinkedBy view)
    (he : g.entry ∈ g.blocks.names) :
    i.graph.blocks.LinkedBy view ∧ i.graph.entry ∈ i.graph.blocks.names := by
  unfold withDecoys at h
  split at h
  · cases h
    exact ⟨hg, he⟩
  · obtain ⟨⟨_, _⟩, hall, h⟩ := bind_eq_ok.1 h
    cases h
    unfold Injection.wrapAll at hall
    obtain ⟨_, i₁, h₁, hall⟩ := run_bind_eq_ok.1 hall
    obtain ⟨_, _, h₂, hall⟩ := run_bind_eq_ok.1 hall
    obtain ⟨bs, _, h₃, hall⟩ := run_bind_eq_ok.1 hall
    cases hall
    obtain ⟨hinsert, rfl⟩ := run_liftM_eq_ok h₃
    cases h₂
    have hstart : (⟨source, names, supply, g, []⟩ : Injection σ).known view = g.blocks.refs.map view := by
      simp [Injection.known]
    have hgrows := Injection.grows_wrapEach h₁ hpool ⟨hg.names, by simpa [hstart] using hg.calls⟩ fun b hb =>
      ⟨List.mem_map_of_mem (List.mem_filter.1 hb).1, fun c hc =>
        hstart ▸ hg.calls b (List.mem_filter.1 hb).1 c hc⟩
    obtain ⟨hwrappers, hnew, rfl⟩ := BlockSet.insertAll_eq_ok.1 hinsert
    have hnames := BlockSet.names_append i₁.graph.blocks i₁.wrappers
    refine ⟨⟨?_, fun b hb c hc => ?_⟩, ?_⟩
    · rw [hnames]
      refine hgrows.linked.names.append hwrappers fun n hn hw => ?_
      obtain ⟨b, hb, rfl⟩ := List.mem_map.1 hw
      exact hnew b hb hn
    · simpa [BlockSet.refs, Injection.known] using hgrows.linked.calls b hb c hc
    · rw [hnames, hgrows.entry]
      rw [← BlockSet.map_name_refs] at he
      exact List.mem_append_left _ (BlockSet.map_name_refs _ ▸ List.map_subset _ hgrows.refs he)

theorem linked_withDecoys (h : g.withDecoys pool chance names supply source = .ok i) (hg : g.blocks.Linked)
    (he : g.entry ∈ g.blocks.names) : i.graph.blocks.Linked ∧ i.graph.entry ∈ i.graph.blocks.names := by
  obtain ⟨hl, he⟩ := linkedBy_withDecoys h (fun asset _ => asset.blocks.agrees_name)
    (BlockSet.linkedBy_name.2 hg) he
  exact ⟨BlockSet.linkedBy_name.1 hl, he⟩

end Graph

end Diversity
