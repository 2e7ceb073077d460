import Diversity.Description.Graph
import Diversity.Proofs.Inlined
import Diversity.Proofs.Resolved
/-! The graph of a description: what its blocks, calls, chunks and variables have in common with those of
any other. -/
namespace Diversity

namespace Description

theorem nodup_of_firstRepeated {seen names : List String} (h : firstRepeated seen names = none) :
    names.Nodup ∧ ∀ n ∈ names, n ∉ seen := by
  induction names generalizing seen with
  | nil => exact ⟨List.nodup_nil, nofun⟩
  | cons name names ih =>
      unfold firstRepeated at h
      split at h
      · cases h
      · next hn =>
        obtain ⟨hnodup, hseen⟩ := ih h
        rw [List.contains_iff_mem] at hn
        refine ⟨List.nodup_cons.2 ⟨fun hm => hseen name hm (by simp), hnodup⟩, ?_⟩
        exact List.forall_mem_cons.2 ⟨hn, fun n hm hs => hseen n hm (List.mem_append_left _ hs)⟩

namespace Scope

variable {part : Part} {scope scope' : Scope}

theorem declare_eq_ok {v : Diversity.Variable} (h : scope.declare part v = .ok scope') :
    v.name ∉ scope.vars.map (·.name) ∧ scope'.vars = scope.vars ++ [v] := by
  unfold declare at h
  split at h
  · cases h
  · next hn =>
    cases h
    simpa [find?] using hn

theorem declareAll_eq_ok {vs : List Diversity.Variable} (h : scope.declareAll part vs = .ok scope') :
    scope'.vars = scope.vars ++ vs ∧
      ((scope.vars.map (·.name)).Nodup → (scope'.vars.map (·.name)).Nodup) := by
  induction vs generalizing scope with
  | nil =>
      cases h
      exact ⟨by simp, fun h => h⟩
  | cons v vs ih =>
      rw [declareAll, List.foldlM_cons] at h
      obtain ⟨scope₁, h₁, h⟩ := bind_eq_ok.1 h
      obtain ⟨hv, h₁⟩ := declare_eq_ok h₁
      obtain ⟨h₂, hn⟩ := ih h
      refine ⟨by rw [h₂, h₁, List.append_assoc, List.singleton_append], fun hs => hn ?_⟩
      rw [h₁, List.map_append, List.nodup_append]
      refine ⟨hs, List.nodup_singleton _, fun n hn m hm e => hv ?_⟩
      rw [List.map_singleton, List.mem_singleton] at hm
      exact hm ▸ e ▸ hn

end Scope

theorem resolveExterns_eq_ok {externs : List Extern} {scope : Scope} {declared : List Declaration}
    (h : resolveExterns externs = .ok (scope, declared)) :
    (∀ v ∈ scope.vars, v.chunk = none) ∧ (scope.vars.map (·.name)).Nodup := by
  refine foldlM_induction (P := fun acc : Scope × List Declaration =>
    (∀ v ∈ acc.1.vars, v.chunk = none) ∧ (acc.1.vars.map (·.name)).Nodup) h ⟨nofun, List.nodup_nil⟩ ?_
  rintro ⟨scope, declared⟩ e acc ⟨hnone, hnodup⟩ h
  obtain ⟨type, -, h⟩ := bind_eq_ok.1 h
  obtain ⟨scope', hs, h⟩ := bind_eq_ok.1 h
  cases h
  have hall : scope.declareAll (.external e.name) [.free e.name (some type)] = .ok scope' := by
    rw [Scope.declareAll, List.foldlM_cons]
    exact bind_eq_ok.2 ⟨_, hs, rfl⟩
  obtain ⟨hvars, hn⟩ := Scope.declareAll_eq_ok hall
  refine ⟨?_, hn hnodup⟩
  rw [hvars]
  exact List.forall_mem_append.2 ⟨hnone, List.forall_mem_singleton.2 rfl⟩

/-- The variables of a chunk that a description can name. -/
def visible (c : Diversity.Chunk) : List Diversity.Variable := (c.vars.map (·.var)).filter (!·.isHidden)

theorem blockScope_eq_ok {scope scope' : Scope} {chunks : List Diversity.Chunk}
    (h : blockScope scope chunks = .ok scope') : scope'.vars = scope.vars ++ chunks.flatMap visible ∧
      ((scope.vars.map (·.name)).Nodup → (scope'.vars.map (·.name)).Nodup) := by
  induction chunks generalizing scope with
  | nil =>
      cases h
      exact ⟨by simp, fun h => h⟩
  | cons c chunks ih =>
      rw [blockScope, List.foldlM_cons] at h
      obtain ⟨scope₁, h₁, h⟩ := bind_eq_ok.1 h
      obtain ⟨h₁, hn₁⟩ := Scope.declareAll_eq_ok h₁
      obtain ⟨h₂, hn₂⟩ := ih h
      refine ⟨?_, fun hn => hn₂ (hn₁ hn)⟩
      rw [h₂, h₁, List.flatMap_cons, List.append_assoc, visible]

end Description

/-- Every variable of the chunk knows it. -/
def Chunk.Owned (c : Chunk) : Prop := ∀ d ∈ c.vars, d.var.chunk = some c.id

theorem Chunk.owned_make (id : ChunkId) (name : Option String) (constraint : Constraint)
    (vars : List Declaration) : (Chunk.make id name constraint vars).Owned := by
  intro d hd
  obtain ⟨d', -, rfl⟩ := List.mem_map.1 hd
  rfl

namespace Description

/-- Chunks with different identities, all drawn on the way from `s` to `s'`, that own their variables. -/
structure Numbered (s : Supply) (chunks : List Diversity.Chunk) (s' : Supply) : Prop where
  le : s.next ≤ s'.next
  nodup : (chunks.map (·.id)).Nodup
  bounds : ∀ c ∈ chunks, s.next ≤ c.id.index ∧ c.id.index < s'.next
  owned : ∀ c ∈ chunks, c.Owned

theorem join_eq_ok {part : Part} {c : Diversity.Chunk} {joined joined' : List Diversity.Chunk}
    (h : join part c joined = .ok joined') (hc : c.Owned) (ho : ∀ d ∈ joined, d.Owned) :
    (joined'.map (·.id) = joined.map (·.id) ∨ joined'.map (·.id) = joined.map (·.id) ++ [c.id]) ∧
      ∀ d ∈ joined', d.Owned := by
  induction joined generalizing joined' with
  | nil =>
      cases h
      exact ⟨Or.inr rfl, List.forall_mem_singleton.2 hc⟩
  | cons d ds ih =>
      obtain ⟨hd, hds⟩ := List.forall_mem_cons.1 ho
      unfold join at h
      split at h
      · obtain ⟨m, hm, h⟩ := bind_eq_ok.1 h
        cases h
        obtain ⟨constraint, -, hm⟩ := bind_eq_ok.1 (mapError_eq_ok.1 hm)
        cases hm
        exact ⟨Or.inl rfl, List.forall_mem_cons.2 ⟨Chunk.owned_make _ _ _ _, hds⟩⟩
      · obtain ⟨ds', hds', h⟩ := bind_eq_ok.1 h
        cases h
        obtain ⟨hids, hown⟩ := ih hds' hds
        refine ⟨?_, List.forall_mem_cons.2 ⟨hd, hown⟩⟩
        simpa using hids

theorem numbered_of_joinAll {scope : Scope} {cs : List Chunk} {joined joined' : List Diversity.Chunk}
    {s₀ s s' : Supply} (h : joinAll scope joined s cs = .ok (joined', s')) (hj : Numbered s₀ joined s) :
    Numbered s₀ joined' s' := by
  induction cs generalizing joined s with
  | nil =>
      cases h
      exact hj
  | cons c cs ih =>
      obtain ⟨chunk, hchunk, h⟩ := bind_eq_ok.1 h
      obtain ⟨constraint, -, hchunk⟩ := bind_eq_ok.1 hchunk
      obtain ⟨vars, -, hchunk⟩ := bind_eq_ok.1 hchunk
      cases hchunk
      obtain ⟨joined₁, h₁, h⟩ := bind_eq_ok.1 h
      obtain ⟨hids, howned⟩ := join_eq_ok h₁ (Chunk.owned_make _ _ _ _) hj.owned
      have hbounds : ∀ i ∈ joined.map (·.id), s₀.next ≤ i.index ∧ i.index < s.next := by
        rintro i hi
        obtain ⟨d, hd, rfl⟩ := List.mem_map.1 hi
        exact hj.bounds d hd
      refine ih h ⟨hj.le.trans (Nat.le_succ _), ?_, fun d hd => ?_, howned⟩
      · rcases hids with hids | hids <;> rw [hids]
        · exact hj.nodup
        · refine List.nodup_append.2 ⟨hj.nodup, List.nodup_singleton _, fun i hi j hj e => ?_⟩
          obtain rfl := List.mem_singleton.1 hj
          exact absurd (hbounds i hi).2 (by rw [e]; exact Nat.lt_irrefl _)
      · have hmem : d.id ∈ joined₁.map (·.id) := List.mem_map_of_mem hd
        have hold (hmem : d.id ∈ joined.map (·.id)) : s₀.next ≤ d.id.index ∧ d.id.index < s.next + 1 :=
          ⟨(hbounds _ hmem).1, Nat.lt_succ_of_lt (hbounds _ hmem).2⟩
        rcases hids with hids | hids <;> rw [hids] at hmem
        · exact hold hmem
        · rcases List.mem_append.1 hmem with hmem | hmem
          · exact hold hmem
          · rw [List.mem_singleton.1 hmem]
            exact ⟨hj.le, Nat.lt_succ_self _⟩

theorem resolveChunks_eq_ok {scope : Scope} {cs : List Chunk} {chunks : List Diversity.Chunk} {s s' : Supply}
    (h : resolveChunks scope s cs = .ok (chunks, s')) :
    Numbered s chunks s' ∧ ∀ c ∈ chunks, (c.vars.map (·.name)).Nodup := by
  obtain ⟨⟨joined, s₁⟩, hj, h⟩ := bind_eq_ok.1 h
  obtain ⟨_, hd, h⟩ := bind_eq_ok.1 h
  cases h
  refine ⟨numbered_of_joinAll hj ⟨Nat.le_refl _, List.nodup_nil, List.forall_mem_nil _, List.forall_mem_nil _⟩,
    fun c hc => ?_⟩
  have hcheck := forM_eq_ok hd c hc
  unfold checkDistinct at hcheck
  split at hcheck
  · cases hcheck
  · next hf => exact (nodup_of_firstRepeated hf).1

theorem callees_cons (s : Supply) (b : Block) (bs : List Block) :
    callees s (b :: bs) =
      (⟨b.name, ⟨s.next⟩⟩ :: (callees ⟨s.next + 1⟩ bs).1, (callees ⟨s.next + 1⟩ bs).2) := by
  rw [callees, List.mapM_cons]
  rfl

theorem names_callees (s : Supply) (bs : List Block) : (callees s bs).1.map (·.name) = bs.map (·.name) := by
  induction bs generalizing s with
  | nil => rfl
  | cons b bs ih => rw [callees_cons, List.map_cons, ih, List.map_cons]

theorem zip_callees (s : Supply) (bs : List Block) :
    ((callees s bs).1.zip bs).map (fun p => (⟨p.2.name, p.1.id⟩ : BlockRef)) = (callees s bs).1 := by
  induction bs generalizing s with
  | nil => rfl
  | cons b bs ih => rw [callees_cons, List.zip_cons_cons, List.map_cons, ih]

theorem le_callees (s : Supply) (bs : List Block) : s.next ≤ (callees s bs).2.next := by
  induction bs generalizing s with
  | nil => exact Nat.le_refl _
  | cons b bs ih =>
      rw [callees_cons]
      exact (Nat.le_succ _).trans (ih _)

theorem bounds_callees (s : Supply) (bs : List Block) :
    ∀ r ∈ (callees s bs).1, s.next ≤ r.id.index ∧ r.id.index < (callees s bs).2.next := by
  induction bs generalizing s with
  | nil => exact List.forall_mem_nil _
  | cons b bs ih =>
      rw [callees_cons]
      refine List.forall_mem_cons.2 ⟨⟨Nat.le_refl _, le_callees ⟨s.next + 1⟩ bs⟩, fun r hr => ?_⟩
      exact ⟨(Nat.le_succ _).trans (ih _ r hr).1, (ih _ r hr).2⟩

/-- The terms in the statements of blocks. -/
def termsOf (bs : List Block) : List Term := bs.flatMap fun b => Statement.termsOfAll b.statements

/-- Without identities, the expression is the term, resolved. -/
def Term.Denotes (scope : Scope) (t : Term) (e : Expr) : Prop :=
  ∃ part e', t.resolve part scope = .ok e' ∧ e'.anonymous = e.anonymous

theorem Term.Denotes.allows {scope : Scope} {t : Term} {e : Expr} (h : t.Denotes scope e) :
    ∀ v ∈ e.vars, scope.Allows v := by
  obtain ⟨part, e', hr, hsame⟩ := h
  rw [← Expr.vars_anonymous, ← hsame, Expr.vars_anonymous]
  exact Term.allows_of_resolve hr

/-- Blocks keep their callees' names and identities; what they hold are their terms, resolved, what they call
is declared, and their nodes are numbered from the supply. -/
theorem resolveBlocks_eq_ok {scope : Scope} {callees : List BlockRef} {s s' : Supply}
    {pairs : List (BlockRef × Block)} {blocks : List Diversity.Block}
    (h : resolveBlocks scope callees s pairs = .ok (blocks, s')) :
    blocks.map (·.ref) = pairs.map (fun p => ⟨p.2.name, p.1.id⟩) ∧
      (∀ b ∈ blocks, (∀ o ∈ Stmt.operandsOfAll b.statements,
        ∃ t ∈ termsOf (pairs.map (·.2)), t.Denotes scope o.expr) ∧ ∀ c ∈ b.calls, c.2 ∈ callees) ∧
      s.Draws (BlockSet.ids (.of blocks)) s' := by
  induction pairs generalizing s blocks with
  | nil =>
      cases h
      exact ⟨rfl, nofun, .none _⟩
  | cons pair pairs ih =>
      obtain ⟨⟨block, s₁⟩, hb, h⟩ := bind_eq_ok.1 h
      obtain ⟨⟨rest, s₂⟩, hrest, h⟩ := bind_eq_ok.1 h
      cases h
      obtain ⟨statements, hs, hb⟩ := bind_eq_ok.1 hb
      cases hb
      obtain ⟨hrefs, hall, hdraws⟩ := ih hrest
      obtain ⟨hoperands, hcalls⟩ := Statement.valid_of_resolveAll hs
      refine ⟨congrArg _ hrefs, List.forall_mem_cons.2 ⟨⟨fun o ho => ?_, fun c hc => ?_⟩, fun b hb => ?_⟩, ?_⟩
      · have hmem := List.mem_map_of_mem (f := (·.map Expr.anonymous)) ho
        rw [Stmt.operands_of_refreshAll rfl] at hmem
        obtain ⟨o', ho', hsame⟩ := List.mem_map.1 hmem
        obtain ⟨t, ht, hr⟩ := hoperands o' ho'
        exact ⟨t, List.mem_append_left _ ht, _, _, hr, congrArg Operand.expr hsame⟩
      · have hc' : c.2 ∈ Stmt.refs (Stmt.refreshAll statements s).1 := List.mem_map_of_mem hc
        rw [Stmt.refs_refreshAll] at hc'
        obtain ⟨c', hc', e⟩ := List.mem_map.1 hc'
        exact e ▸ hcalls c' hc'
      · refine ⟨fun o ho => ?_, (hall b hb).2⟩
        obtain ⟨t, ht, hr⟩ := (hall b hb).1 o ho
        exact ⟨t, List.mem_append_right _ ht, hr⟩
      · exact (Stmt.draws_refreshAll statements s).append hdraws

theorem exists_pair_of_resolveBlocks {scope : Scope} {callees : List BlockRef} {s s' : Supply}
    {pairs : List (BlockRef × Block)} {blocks : List Diversity.Block}
    (h : resolveBlocks scope callees s pairs = .ok (blocks, s')) {b : Diversity.Block} (hb : b ∈ blocks) :
    ∃ pair ∈ pairs, pair.2.name = b.name ∧ pair.2.constraint = b.constraint := by
  induction pairs generalizing s blocks with
  | nil =>
      cases h
      cases hb
  | cons pair pairs ih =>
      obtain ⟨⟨block, s₁⟩, hblock, h⟩ := bind_eq_ok.1 h
      obtain ⟨⟨rest, s₂⟩, hrest, h⟩ := bind_eq_ok.1 h
      cases h
      obtain ⟨statements, -, hblock⟩ := bind_eq_ok.1 hblock
      cases hblock
      rcases List.mem_cons.1 hb with rfl | hb
      · exact ⟨pair, List.mem_cons_self, rfl, rfl⟩
      · obtain ⟨pair', hmem, hsame⟩ := ih hrest hb
        exact ⟨pair', List.mem_cons_of_mem pair hmem, hsame⟩

theorem toGraph_eq_ok {d : Description} {s s' : Supply} {g : Graph} (h : d.toGraph s = .ok (g, s')) :
    ∃ scope scope' s₁, resolveExterns d.externs = .ok (scope, g.externs) ∧
      resolveChunks scope s d.chunks = .ok (g.chunks, s₁) ∧ blockScope scope g.chunks = .ok scope' ∧
      firstRepeated [] (d.blocks.map (·.name)) = none ∧
      resolveBlocks scope' (callees s₁ d.blocks).1 (callees s₁ d.blocks).2
        ((callees s₁ d.blocks).1.zip d.blocks) = .ok (g.blocks.toList, s') ∧
      g.blocks.contains g.entry = true ∧ g.check = .ok () := by
  unfold toGraph at h
  obtain ⟨⟨scope, externs⟩, hexterns, h⟩ := bind_eq_ok.1 h
  obtain ⟨⟨chunks, s₁⟩, hchunks, h⟩ := bind_eq_ok.1 h
  obtain ⟨scope', hscope, h⟩ := bind_eq_ok.1 h
  simp only at h
  split at h
  · cases h
  · next hfirst =>
    obtain ⟨⟨blocks, s₂⟩, hblocks, h⟩ := bind_eq_ok.1 h
    split at h
    · next hentry =>
      obtain ⟨_, hcheck, h⟩ := bind_eq_ok.1 h
      cases h
      refine ⟨scope, scope', s₁, hexterns, hchunks, hscope, ?_, hblocks, hentry, hcheck⟩
      cases hf : firstRepeated [] (d.blocks.map (·.name)) with
      | none => rfl
      | some name => exact absurd hf (hfirst name)
    · cases h

end Description

/-- Every identity of a node, a block, a callee or a chunk satisfies `P`. -/
structure Graph.AllIds (P : Nat → Prop) (g : Graph) : Prop where
  nodes : ∀ i ∈ g.blocks.ids, P i.index
  blocks : ∀ b ∈ g.blocks.toList, P b.id.index
  callees : ∀ b ∈ g.blocks.toList, ∀ r ∈ Stmt.refs b.statements, P r.id.index
  chunks : ∀ c ∈ g.chunks, P c.id.index

theorem Graph.AllIds.mono {P Q : Nat → Prop} {g : Graph} (h : g.AllIds P) (hPQ : ∀ n, P n → Q n) : g.AllIds Q :=
  ⟨fun i hi => hPQ _ (h.nodes i hi), fun b hb => hPQ _ (h.blocks b hb),
    fun b hb r hr => hPQ _ (h.callees b hb r hr), fun c hc => hPQ _ (h.chunks c hc)⟩

/-- What holds of the graph of every description. -/
structure Graph.Compiled (g : Graph) (s s' : Supply) : Prop where
  names : g.blocks.names.Nodup
  entry : g.entry ∈ g.blocks.names
  /-- Calls are of blocks of the graph. -/
  linked : ∀ b ∈ g.blocks.toList, ∀ c ∈ b.calls, ∃ d ∈ g.blocks.toList, c.2 = d.ref
  drawn : s.Draws g.blocks.ids s'
  /-- All identities come from the supply. -/
  ids : g.AllIds fun n => s.next ≤ n ∧ n < s'.next
  chunkIds : (g.chunks.map (·.id)).Nodup
  owned : ∀ c ∈ g.chunks, c.Owned
  varNames : ∀ c ∈ g.chunks, (c.vars.map (·.name)).Nodup
  visibleNames : ((g.chunks.flatMap Description.visible).map (·.name)).Nodup
  /-- Blocks mention no variables of chunks but those that can be named. -/
  declared : ∀ b ∈ g.blocks.toList, ∀ v ∈ b.vars, v.chunk ≠ none → v ∈ g.chunks.flatMap Description.visible

theorem Description.compiled {d : Description} {s s' : Supply} {g : Graph} (h : d.toGraph s = .ok (g, s')) :
    g.Compiled s s' := by
  obtain ⟨scope, scope', s₁, hexterns, hchunks, hscope, hfirst, hblocks, hentry, -⟩ := toGraph_eq_ok h
  obtain ⟨hnone, hexternNames⟩ := resolveExterns_eq_ok hexterns
  obtain ⟨hnumbered, hvarNames⟩ := resolveChunks_eq_ok hchunks
  obtain ⟨hvars, hscopeNames⟩ := blockScope_eq_ok hscope
  obtain ⟨hrefs, hall, hdraws⟩ := resolveBlocks_eq_ok hblocks
  -- the callees are numbered like the blocks
  have hcallees : g.blocks.toList.map (·.ref) = (callees s₁ d.blocks).1 := by
    rw [hrefs, zip_callees]
  have hnames : g.blocks.names = d.blocks.map (·.name) := by
    rw [← names_callees s₁ d.blocks, ← hcallees, List.map_map]
    rfl
  have hrange : ∀ r ∈ (callees s₁ d.blocks).1, s.next ≤ r.id.index ∧ r.id.index < s'.next := fun r hr =>
    ⟨hnumbered.le.trans (bounds_callees _ _ r hr).1, (bounds_callees _ _ r hr).2.trans_le hdraws.le⟩
  have hdrawn := hdraws.of_le (hnumbered.le.trans (le_callees _ _))
  refine ⟨hnames ▸ (nodup_of_firstRepeated hfirst).1, ?_, ?_, hdrawn, ⟨hdrawn.bounds, fun b hb => ?_,
    fun b hb r hr => ?_, fun c hc => ?_⟩, hnumbered.nodup, hnumbered.owned, hvarNames, ?_, ?_⟩
  · exact BlockSet.contains_iff.1 hentry
  · intro b hb c hc
    have hmem := (hall b hb).2 c hc
    rw [← hcallees] at hmem
    obtain ⟨d, hd, e⟩ := List.mem_map.1 hmem
    exact ⟨d, hd, e.symm⟩
  · exact hrange b.ref (hcallees ▸ List.mem_map_of_mem hb)
  · obtain ⟨c, hc, rfl⟩ := List.mem_map.1 hr
    exact hrange c.2 ((hall b hb).2 c hc)
  · obtain ⟨hge, hlt⟩ := hnumbered.bounds c hc
    exact ⟨hge, hlt.trans_le ((le_callees _ _).trans hdraws.le)⟩
  · have hn := hscopeNames hexternNames
    rw [hvars, List.map_append] at hn
    exact (List.nodup_append.1 hn).2.1
  · intro b hb v hv hc
    obtain ⟨o, ho, hv⟩ := Stmt.mem_vars_iff.1 hv
    obtain ⟨t, -, ht⟩ := (hall b hb).1 o ho
    rcases ht.allows v hv with hv | hv
    · rw [hvars] at hv
      exact (List.mem_append.1 hv).resolve_left fun hv => hc (hnone v hv)
    · exact absurd hv hc

/-- Without identities, what the blocks of a graph hold are the terms of the description, resolved. -/
theorem Description.exists_denotes {d : Description} {s s' : Supply} {g : Graph} (h : d.toGraph s = .ok (g, s')) :
    ∃ scope, ∀ b ∈ g.blocks.toList, ∀ o ∈ Stmt.operandsOfAll b.statements,
      ∃ t ∈ termsOf d.blocks, t.Denotes scope o.expr := by
  obtain ⟨_, scope, s₁, -, -, -, -, hblocks, -⟩ := toGraph_eq_ok h
  obtain ⟨-, hall, -⟩ := resolveBlocks_eq_ok hblocks
  have hlength : (callees s₁ d.blocks).1.length = d.blocks.length := by
    simpa using congrArg List.length (names_callees s₁ d.blocks)
  rw [List.map_snd_zip hlength.ge] at hall
  exact ⟨scope, fun b hb => (hall b hb).1⟩

/-- Every block of a graph is asked for what the description asks of the block of that name. -/
theorem Description.exists_block {d : Description} {s s' : Supply} {g : Graph} (h : d.toGraph s = .ok (g, s'))
    {b : Diversity.Block} (hb : b ∈ g.blocks.toList) :
    ∃ b' ∈ d.blocks, b'.name = b.name ∧ b'.constraint = b.constraint := by
  obtain ⟨_, scope, s₁, -, -, -, -, hblocks, -⟩ := toGraph_eq_ok h
  obtain ⟨pair, hpair, hname, hconstraint⟩ := exists_pair_of_resolveBlocks hblocks hb
  exact ⟨pair.2, (List.of_mem_zip hpair).2, hname, hconstraint⟩

/-- A variable whose address is taken below one call and that is read below another one. -/
def Description.sharing : Description where
  entry := "main"
  externs := [⟨"say", "fn (int) void"⟩]
  chunks := [⟨none, true, false, false, [⟨"x", "int", none⟩]⟩]
  blocks := [
    ⟨"main", false, false, false, [.call "relay", .call "show", .call "relay"]⟩,
    ⟨"relay", true, false, false, [.call "fill"]⟩,
    ⟨"fill", true, false, false, [.assign (.var "x") (.value "1"), .expr (.ref (.var "x"))]⟩,
    ⟨"show", true, false, false, [.expr (.call (.var "say") [.var "x"])]⟩]

end Diversity
