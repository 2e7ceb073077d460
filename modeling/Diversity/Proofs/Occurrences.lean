import Diversity.Proofs.Compiled
import Diversity.Proofs.Inlined
import Diversity.Proofs.Substituted
import Mathlib.Data.List.Pairwise
/-! Where an expression stands: under distinct identities, its identity tells. -/
namespace Diversity

theorem eq_of_nodup_flatMap {α β : Type} {f : α → List β} {as : List α} (h : (as.flatMap f).Nodup) {a a' : α} {b : β}
    (ha : a ∈ as) (ha' : a' ∈ as) (hb : b ∈ f a) (hb' : b ∈ f a') : a = a' := by
  by_contra hne
  have : Std.Symm (Function.onFun List.Disjoint f) := ⟨fun _ _ h => h.symm⟩
  exact (List.nodup_flatMap.1 h).2.forall ha ha' hne hb hb'

namespace Stmt

theorem filterMap_map_sublist {α β γ : Type} {f : α → Option β} {g : β → γ} {k : α → γ}
    (h : ∀ a b, f a = some b → g b = k a) (as : List α) :
    List.Sublist ((as.filterMap f).map g) (as.map k) := by
  induction as with
  | nil => exact List.Sublist.refl _
  | cons a as ih =>
      cases hf : f a with
      | none =>
          rw [List.filterMap_cons_none hf, List.map_cons]
          exact ih.cons _
      | some b =>
          rw [List.filterMap_cons_some hf, List.map_cons, List.map_cons, h a b hf]
          exact ih.cons_cons _

theorem nodup_exprs {body : List Stmt} (h : (ids body).Nodup) :
    ((operandsOfAll body).flatMap (·.expr.nodes.map Expr.id)).Nodup := by
  rw [← List.map_flatMap, ← exprNodesOfAll]
  refine (Multiset.coe_nodup.1 h).sublist (filterMap_map_sublist ?_ _)
  intro n e hn
  cases n with
  | stmt _ => cases hn
  | expr _ =>
      cases hn
      rfl

end Stmt

/-- The expression is a node of one of the block's operands. -/
def Block.Holds (b : Block) (o : Operand) (e : Expr) : Prop :=
  o ∈ Stmt.operandsOfAll b.statements ∧ e ∈ o.expr.nodes

namespace BlockSet

variable {bs : BlockSet} {b c : Block} {o o' : Operand} {e e' : Expr}

theorem nodup_block_ids (h : bs.ids.Nodup) (hb : b ∈ bs.toList) : (Stmt.ids b.statements).Nodup := by
  obtain ⟨blocks, _, rfl⟩ := bs
  induction blocks with
  | nil => cases hb
  | cons a blocks ih =>
      rw [ids, List.map_cons, List.sum_cons, Multiset.nodup_add] at h
      rcases List.mem_cons.1 hb with rfl | hb
      · exact h.1
      · exact ih h.2.1 hb

theorem eq_of_mem_block_ids (h : bs.ids.Nodup) (hb : b ∈ bs.toList) (hc : c ∈ bs.toList) {i : NodeId}
    (hi : i ∈ Stmt.ids b.statements) (hi' : i ∈ Stmt.ids c.statements) : b = c := by
  obtain ⟨blocks, _, rfl⟩ := bs
  induction blocks with
  | nil => cases hb
  | cons a blocks ih =>
      rw [ids, List.map_cons, List.sum_cons, Multiset.nodup_add] at h
      have hrest {d : Block} (hd : d ∈ blocks) (hi : i ∈ Stmt.ids d.statements) : i ∈ ids (.of blocks) :=
        mem_ids.2 ⟨d, hd, hi⟩
      rcases List.mem_cons.1 hb, List.mem_cons.1 hc with ⟨rfl | hbs, rfl | hcs⟩
      · rfl
      · exact absurd (hrest hcs hi') (Multiset.disjoint_left.1 h.2.2 hi)
      · exact absurd (hrest hbs hi) (Multiset.disjoint_left.1 h.2.2 hi')
      · exact ih h.2.1 hbs hcs

/-- Different blocks without identities in common have no identity twice. -/
theorem nodup_ids_of_blocks (hn : bs.toList.Nodup) (hnodup : ∀ b ∈ bs.toList, (Stmt.ids b.statements).Nodup)
    (heq : ∀ b ∈ bs.toList, ∀ c ∈ bs.toList, ∀ i ∈ Stmt.ids b.statements, i ∈ Stmt.ids c.statements → b = c) :
    bs.ids.Nodup := by
  obtain ⟨blocks, _, rfl⟩ := bs
  induction blocks with
  | nil => exact Multiset.nodup_zero
  | cons a blocks ih =>
      obtain ⟨ha, hn⟩ := List.nodup_cons.1 hn
      obtain ⟨hnodup, hrest⟩ := List.forall_mem_cons.1 hnodup
      rw [ids, List.map_cons, List.sum_cons, Multiset.nodup_add]
      refine ⟨hnodup, ih hn hrest fun b hb c hc => ?_, Multiset.disjoint_left.2 fun {i} hi hi' => ?_⟩
      · exact heq b (List.mem_cons_of_mem _ hb) c (List.mem_cons_of_mem _ hc)
      · have hi' : i ∈ ids (.of blocks) := hi'
        obtain ⟨b, hb, hi'⟩ := mem_ids.1 hi'
        obtain rfl := heq a List.mem_cons_self b (List.mem_cons_of_mem _ hb) i hi hi'
        exact ha hb

theorem id_mem_of_holds (hb : b.Holds o e) : e.id ∈ Stmt.ids b.statements :=
  Multiset.mem_coe.2 (List.mem_map_of_mem (f := Node.id) (Stmt.expr_mem_nodesOfAll.2 ⟨o, hb.1, hb.2⟩))

theorem id_mem_of_call {i : NodeId} {callee : BlockRef} (hc : (i, callee) ∈ b.calls) : i ∈ Stmt.ids b.statements := by
  obtain ⟨n, hn, hcall⟩ := List.mem_filterMap.1 hc
  refine Multiset.mem_coe.2 (List.mem_map.2 ⟨n, hn, ?_⟩)
  cases n with
  | expr _ => cases hcall
  | stmt x =>
      cases x <;> cases hcall
      rfl

theorem nodup_operand_ids (h : bs.ids.Nodup) (hb : b ∈ bs.toList) (ho : o ∈ Stmt.operandsOfAll b.statements) :
    (o.expr.nodes.map Expr.id).Nodup :=
  (List.nodup_flatMap.1 (Stmt.nodup_exprs (nodup_block_ids h hb))).1 o ho

theorem eq_of_mem_operand_ids (h : bs.ids.Nodup) (hb : b ∈ bs.toList) (ho : b.Holds o e) (ho' : b.Holds o' e')
    (hid : e.id = e'.id) : o = o' :=
  eq_of_nodup_flatMap (Stmt.nodup_exprs (nodup_block_ids h hb)) ho.1 ho'.1 (List.mem_map_of_mem ho.2)
    (hid ▸ List.mem_map_of_mem ho'.2)

/-- An identity is that of one expression, at one place. -/
theorem eq_of_holds (h : bs.ids.Nodup) (hb : b ∈ bs.toList) (hc : c ∈ bs.toList) (ho : b.Holds o e)
    (ho' : c.Holds o' e') (hid : e.id = e'.id) : b = c ∧ o = o' ∧ e = e' := by
  obtain rfl := eq_of_mem_block_ids h hb hc (id_mem_of_holds ho) (hid ▸ id_mem_of_holds ho')
  obtain rfl := eq_of_mem_operand_ids h hb ho ho' hid
  exact ⟨rfl, rfl, Operand.id_inj (nodup_operand_ids h hb ho.1) ho.2 ho'.2 hid⟩

end BlockSet

/-- What the functions have that the blocks of a description's graph become once everything else is
spliced in. -/
structure Graph.Placed (g : Graph) (bs : BlockSet) : Prop where
  graph : ∃ s s', g.Compiled s s'
  names : bs.names.Nodup
  ids : bs.ids.Nodup
  numbered : NodeId.unnumbered ∉ bs.ids
  linked : ∀ b ∈ bs.toList, ∀ c ∈ b.calls, ∃ d ∈ bs.toList, c.2 = d.ref ∧ bs.resolve c.2 = .ok d
  mentioned : ∀ b ∈ bs.toList, ∀ v ∈ b.vars, ∃ c ∈ g.blocks.toList, v ∈ c.vars

namespace Graph

variable {g : Graph} {bs : BlockSet} {b c : Block} {v w : Variable}

theorem Compiled.placed {s s' s₁ s₂ : Supply} {p : Placement} {blocks : List Block} (hg : g.Compiled s s')
    (hs : 0 < s.next) (hs' : s'.next ≤ s₁.next) (hin : p.inline g.blocks s₁ = .ok (blocks, s₂))
    (hrep : BlockSet.repaired blocks = .ok bs) : g.Placed bs := by
  have hkeeps := BlockSet.keeps_ids hin hrep
  refine ⟨⟨s, s', hg⟩, (BlockSet.repaired_eq_ok hrep).1, ?_, fun h => ?_,
    fun b hb c hc => BlockSet.resolve_of_repaired hrep hb hc,
    fun b hb v hv => BlockSet.mem_vars_of_repaired hin hrep hb hv⟩
  · exact hkeeps.nodup hg.drawn.nodup fun i hi => (hg.drawn.bounds i hi).2.trans_le hs'
  · rcases hkeeps.mem h with h | ⟨h, -⟩
    · exact absurd (hs.trans_le (hg.drawn.bounds _ h).1) (Nat.lt_irrefl 0)
    · exact absurd (hs.trans_le (hg.drawn.le.trans (hs'.trans h))) (Nat.lt_irrefl 0)

theorem Placed.declared (h : g.Placed bs) (hb : b ∈ bs.toList) (hv : v ∈ b.vars) (hc : v.chunk ≠ none) :
    v ∈ g.chunks.flatMap Description.visible := by
  obtain ⟨s, s', hg⟩ := h.graph
  obtain ⟨d, hd, hvd⟩ := h.mentioned b hb v hv
  exact hg.declared d hd v hvd hc

/-- Of the variables of chunks, no two have one key. -/
theorem Placed.eq_of_key (h : g.Placed bs) (hb : b ∈ bs.toList) (hc : c ∈ bs.toList) (hv : v ∈ b.vars)
    (hw : w ∈ c.vars) (hchunk : v.chunk ≠ none) (hkey : w.key = v.key) : w = v := by
  obtain ⟨s, s', hg⟩ := h.graph
  have hname : w.name = v.name := congrArg Prod.snd hkey
  have hchunk' : w.chunk = v.chunk := congrArg Prod.fst hkey
  exact List.inj_on_of_nodup_map hg.visibleNames (h.declared hc hw (hchunk' ▸ hchunk))
    (h.declared hb hv hchunk) hname

end Graph

end Diversity
