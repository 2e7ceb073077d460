import Diversity.Proofs.Decoyed
/-! What an injection of decoys brings into a graph. Each step is described by what it adds, so that nothing
below has to look into the random source, the names or the graph so far. -/
namespace Diversity

/-- Of the asset's chunks, those that the block mentions are there. -/
def Graph.Covers (asset : Graph) (chunks : List Chunk) (b : Block) : Prop :=
  ∀ v ∈ b.vars, ∀ c, v.chunk = some c → (asset.chunk? c).isSome → c ∈ chunks.map (·.id)

theorem Graph.Covers.mono {asset : Graph} {chunks chunks' : List Chunk} {b : Block} (h : asset.Covers chunks b)
    (hsub : chunks ⊆ chunks') : asset.Covers chunks' b :=
  fun v hv c hc hsome => List.map_subset _ hsub (h v hv c hc hsome)

/-- What has come in: the next identities, the new decoy blocks, and what has been taken over from assets. -/
structure Additions where
  supply : Supply
  wrappers : List Block
  blocks : List Block
  chunks : List Chunk
  externs : List Declaration

namespace Additions

def none (supply : Supply) : Additions := ⟨supply, [], [], [], []⟩

variable (pool : DecoyPool) (g : Graph)

/-- What becomes of one call: it stays, or it gives way to the call of a decoy that ends in it, and what the
decoy needs is taken over from its asset. -/
inductive Wraps : Additions → NodeId → BlockRef → List Stmt → Additions → Prop
  | kept {a id callee} : Wraps a id callee [.call id callee] a
  | wrapped {a id callee asset root decoy s name blocks chunks externs} : asset ∈ pool.assets →
      asset.root = .ok root → Stmt.refreshAll root.statements a.supply = (decoy, s) →
      (∀ b ∈ blocks, b ∈ asset.blocks.toList) → (∀ c ∈ chunks, c ∈ asset.chunks) →
      (∀ b ∈ root :: blocks, asset.Covers (g.chunks ++ (a.chunks ++ chunks)) b) →
      Wraps a id callee [.call ⟨s.next + 1⟩ (Injection.wrapper s name decoy id callee).ref]
        ⟨⟨s.next + 2⟩, a.wrappers ++ [Injection.wrapper s name decoy id callee], a.blocks ++ blocks,
          a.chunks ++ chunks, a.externs ++ externs⟩

/-- What becomes of one block: it stays if it is a decoy, and else its calls are wrapped. -/
inductive Rewraps : Additions → Block → Block → Additions → Prop
  | kept {a b} : b.constraint.nop = true → Rewraps a b b a
  | wrapped {a a' b body} : b.constraint.nop = false → Stmt.MapsAll (Wraps pool g) a b.statements body a' →
      Rewraps a b (b.withBody body) a'

variable {pool g}

theorem Rewraps.refl {a : Additions} (b : Block) : Rewraps pool g a b b a := by
  cases hb : b.constraint.nop with
  | true => exact .kept hb
  | false => exact .wrapped hb (.refl (fun _ _ => .kept) _)

end Additions

namespace Injection

variable {σ : Type} {g : Graph} {pool : DecoyPool} {chance : Chance} {i i' : Injection σ} {a : Additions}

/-- The state of an injection, told by what has come in behind the blocks `front`. -/
structure Shows (g : Graph) (front : List Block) (i : Injection σ) (a : Additions) : Prop where
  supply : i.supply = a.supply
  wrappers : i.wrappers = a.wrappers
  graph : i.graph = ⟨g.entry, g.chunks ++ a.chunks, g.externs ++ a.externs, .of (front ++ a.blocks)⟩
  names : i.graph.blocks.names.Nodup

variable [RandomSource σ]

theorem shows_wrap {front : List Block} {id : NodeId} {callee : BlockRef} {calls : List Stmt}
    (hi : i.Shows g front a) (h : wrap pool id callee i = .ok (calls, i')) :
    ∃ a', Additions.Wraps pool g a id callee calls a' ∧ i'.Shows g front a' := by
  obtain ⟨asset, hasset, root, decoy, s, name, hroot, habsorb, hdecoy, hwrap, hsupply, rfl⟩ := wrap_eq_ok h
  obtain ⟨t, ht, hext, -, ⟨chunks, hchunks, hfrom⟩, hcover, externs, hexterns⟩ :=
    Graph.absorb_eq_ok habsorb (Graph.find?_of_root hroot)
  obtain ⟨blocks, hblocks, hvisits⟩ := hext.blocks
  rw [hi.graph] at hchunks hexterns hblocks
  have hcovers {w : Visit} (hw : w ∈ t.visits) : asset.Covers (g.chunks ++ (a.chunks ++ chunks)) w.block := by
    intro v hv c hc hsome
    have hmem := hcover c (Trace.mem_chunks hw hv hc) hsome
    rwa [hchunks, List.append_assoc] at hmem
  have hvisit {w : Visit} (hw : w ∈ t.visits) : w.block ∈ asset.blocks.toList :=
    BlockSet.mem_of_find? (((Trace.mem_visits ht).1 hw).1.find? (Graph.find?_of_root hroot))
  refine ⟨⟨⟨s.next + 2⟩, _, a.blocks ++ blocks, a.chunks ++ chunks, a.externs ++ externs⟩,
    .wrapped hasset hroot (hi.supply ▸ hdecoy) (fun b hb => ?_) hfrom
      (List.forall_mem_cons.2 ⟨?_, fun b hb => ?_⟩),
    ⟨hsupply, by rw [hwrap, hi.wrappers], ?_, hext.nodup hi.names⟩⟩
  · obtain ⟨w, hw, rfl⟩ := hvisits b hb
    exact hvisit hw
  · exact hcovers ((Trace.mem_visits ht (w := ⟨root, []⟩)).2 ⟨.nil, CallPath.fresh_nil _⟩)
  · obtain ⟨w, hw, rfl⟩ := hvisits b hb
    exact hcovers hw
  · have hentry : i'.graph.entry = g.entry := by rw [hext.entry, hi.graph]
    generalize i'.graph = g' at hentry hchunks hexterns hblocks
    obtain ⟨_, _, _, bs⟩ := g'
    obtain rfl : bs = .of (front ++ a.blocks ++ blocks) := BlockSet.ext hblocks
    subst hentry hchunks hexterns
    simp

theorem shows_wrapByChance {front : List Block} {id : NodeId} {callee : BlockRef} {calls : List Stmt}
    (hi : i.Shows g front a) (h : Stmt.ReplacedBy (wrapByChance pool chance) i id callee calls i') :
    ∃ a', Additions.Wraps pool g a id callee calls a' ∧ i'.Shows g front a' := by
  obtain ⟨source, ⟨rfl, rfl⟩ | h⟩ := wrapByChance_cases h
  · exact ⟨a, .kept, hi.supply, hi.wrappers, hi.graph, hi.names⟩
  · have hi' : ({ i with source } : Injection σ).Shows g front a := ⟨hi.supply, hi.wrappers, hi.graph, hi.names⟩
    exact shows_wrap hi' h

theorem shows_wrapCalls {front back : List Block} {b : Block} (hb : b.constraint.nop = false)
    (hi : i.Shows g (front ++ b :: back) a) (h : wrapCalls pool chance b i = .ok ((), i')) :
    ∃ b' a', Additions.Rewraps pool g a b b' a' ∧ i'.Shows g (front ++ b' :: back) a' := by
  unfold wrapCalls at h
  obtain ⟨body, i₁, hbody, h⟩ := run_bind_eq_ok.1 h
  obtain ⟨_, _, h₂, h⟩ := run_bind_eq_ok.1 h
  obtain ⟨bs, _, h₃, h⟩ := run_bind_eq_ok.1 h
  cases h
  obtain ⟨hreplace, rfl⟩ := run_liftM_eq_ok h₃
  cases h₂
  have hmaps := Stmt.mapsAll_of_gives (gives_iff_run.2 hbody)
  obtain ⟨a', hmaps, hi₁⟩ := hmaps.simulated (S := fun i a => i.Shows g (front ++ b :: back) a)
    (fun _ _ _ _ _ _ hi h => shows_wrapByChance hi h) hi
  have hnames := hi₁.names
  have hblocks : i₁.graph.blocks = .of (front ++ b :: (back ++ a'.blocks)) := by simp [hi₁.graph]
  rw [hblocks] at hreplace hnames
  obtain rfl := BlockSet.replace_between (b := b.withBody body) hnames rfl hreplace
  refine ⟨b.withBody body, a', .wrapped hb hmaps, hi₁.supply, hi₁.wrappers, by simp [hi₁.graph], ?_⟩
  simpa [BlockSet.names, Block.withBody] using hnames

theorem shows_wrapEach {front blocks : List Block} (hi : i.Shows g (front ++ blocks) a)
    (h : (blocks.filter (!·.constraint.nop)).forM (wrapCalls pool chance) i = .ok ((), i')) :
    ∃ blocks' a', Chained (Additions.Rewraps pool g) a blocks blocks' a' ∧ i'.Shows g (front ++ blocks') a' := by
  induction blocks generalizing i a front with
  | nil =>
      cases h
      exact ⟨[], a, .nil, hi⟩
  | cons b blocks ih =>
      cases hb : b.constraint.nop with
      | true =>
          rw [List.filter_cons_of_neg (by simp [hb])] at h
          have hi : i.Shows g ((front ++ [b]) ++ blocks) a := by simpa using hi
          obtain ⟨blocks', a', hchained, hi'⟩ := ih hi h
          exact ⟨b :: blocks', a', .cons (.kept hb) hchained, by simpa using hi'⟩
      | false =>
          rw [List.filter_cons_of_pos (by simp [hb])] at h
          obtain ⟨_, i₁, h₁, h⟩ := run_bind_eq_ok.1 h
          obtain ⟨b', a₁, hb', hi₁⟩ := shows_wrapCalls hb hi h₁
          have hi₁ : i₁.Shows g ((front ++ [b']) ++ blocks) a₁ := by simpa using hi₁
          obtain ⟨blocks', a', hchained, hi'⟩ := ih hi₁ h
          exact ⟨b' :: blocks', a', .cons hb' hchained, by simpa using hi'⟩

end Injection

namespace Graph

/-- The graph with decoys has its own blocks first, then what was taken over from assets, then the new decoys. -/
structure Decoyed {σ : Type} (g : Graph) (pool : DecoyPool) (supply : Supply) (i : Injection σ)
    (blocks : List Block) (a : Additions) : Prop where
  run : Chained (Additions.Rewraps pool g) (.none supply) g.blocks.toList blocks a
  supply : i.supply = a.supply
  wrappers : i.wrappers = a.wrappers
  graph : i.graph = ⟨g.entry, g.chunks ++ a.chunks, g.externs ++ a.externs, .of (blocks ++ a.blocks ++ a.wrappers)⟩
  names : i.graph.blocks.names.Nodup

variable {σ : Type} [RandomSource σ] {g : Graph} {pool : DecoyPool} {chance : Chance} {names : Names}
  {supply : Supply} {source : σ} {i : Injection σ}

theorem withDecoys_eq_ok (h : g.withDecoys pool chance names supply source = .ok i) (hn : g.blocks.names.Nodup) :
    ∃ blocks a, g.Decoyed pool supply i blocks a := by
  unfold withDecoys at h
  split at h
  · cases h
    exact ⟨g.blocks.toList, .none supply, .refl (fun b => .refl b) _, rfl, rfl, by simp [Additions.none], hn⟩
  · obtain ⟨⟨_, _⟩, hall, h⟩ := bind_eq_ok.1 h
    cases h
    unfold Injection.wrapAll at hall
    obtain ⟨_, i₁, h₁, hall⟩ := run_bind_eq_ok.1 hall
    obtain ⟨_, _, h₂, hall⟩ := run_bind_eq_ok.1 hall
    obtain ⟨bs, _, h₃, hall⟩ := run_bind_eq_ok.1 hall
    cases hall
    obtain ⟨hinsert, rfl⟩ := run_liftM_eq_ok h₃
    cases h₂
    have hstart : (⟨source, names, supply, g, []⟩ : Injection σ).Shows g ([] ++ g.blocks.toList) (.none supply) :=
      ⟨rfl, rfl, by simp [Additions.none], hn⟩
    obtain ⟨blocks, a, hchained, hi⟩ := Injection.shows_wrapEach hstart h₁
    obtain ⟨hwrappers, hnew, rfl⟩ := BlockSet.insertAll_eq_ok.1 hinsert
    refine ⟨blocks, a, hchained, hi.supply, hi.wrappers, by simp [hi.graph, hi.wrappers], ?_⟩
    rw [BlockSet.names_append]
    refine hi.names.append hwrappers fun n hn hw => ?_
    obtain ⟨b, hb, rfl⟩ := List.mem_map.1 hw
    exact hnew b hb hn

end Graph

end Diversity
