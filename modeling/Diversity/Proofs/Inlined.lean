import Diversity.Proofs.BlockSet
import Diversity.Proofs.Copies
import Diversity.Proofs.Expansion
import Mathlib.Algebra.Order.BigOperators.Group.List
/-! The functions that splicing and repairing leave: their names, identities, variables and calls. -/
namespace Diversity

namespace Placement

variable {p : Placement} {bs : BlockSet}

/-- Without identities, the operands that splicing leaves are those of the body and of blocks. -/
theorem operands_expand {entered : List String} {body body' : List Stmt} {s s' : Supply}
    (h : p.expand bs entered body s = .ok (body', s')) {o : Operand} (ho : o ∈ Stmt.operandsOfAll body') :
    ∃ o', (o' ∈ Stmt.operandsOfAll body ∨ ∃ b ∈ bs.toList, o' ∈ Stmt.operandsOfAll b.statements) ∧
      o'.map Expr.anonymous = o.map Expr.anonymous := by
  refine expand_induction (Q := fun _ body body' _ => ∀ o ∈ Stmt.operandsOfAll body',
    ∃ o', (o' ∈ Stmt.operandsOfAll body ∨ ∃ b ∈ bs.toList, o' ∈ Stmt.operandsOfAll b.statements) ∧
      o'.map Expr.anonymous = o.map Expr.anonymous) ?_ h o ho
  intro s body body' s' h o ho
  rcases h.operand_cases ho with ho | ⟨s, i, callee, front, s', -, hR, ho⟩
  · exact ⟨o, Or.inl ho, rfl⟩
  · cases hR with
    | kept _ => cases ho
    | spliced _ hr hc hq =>
        have hb := BlockSet.mem_of_find? (BlockSet.find?_of_resolve hr)
        obtain ⟨o', ho' | ho', hsame⟩ := hq o ho
        · have hmem := List.mem_map_of_mem (f := (·.map Expr.anonymous)) ho'
          rw [Stmt.operands_of_refreshAll hc] at hmem
          obtain ⟨o'', ho'', hsame'⟩ := List.mem_map.1 hmem
          exact ⟨o'', Or.inr ⟨_, hb, ho''⟩, hsame'.trans hsame⟩
        · exact ⟨o', Or.inr ho', hsame⟩

/-- The calls that splicing leaves are of functions, and were calls of the body or of a block. -/
theorem calls_expand {entered : List String} {body body' : List Stmt} {s s' : Supply}
    (h : p.expand bs entered body s = .ok (body', s')) {r : BlockRef} (hr : r ∈ Stmt.refs body') :
    p.isFunc r.name = true ∧ (r ∈ Stmt.refs body ∨ ∃ b ∈ bs.toList, r ∈ Stmt.refs b.statements) := by
  refine expand_induction (Q := fun _ body body' _ => ∀ r ∈ Stmt.refs body', p.isFunc r.name = true ∧
    (r ∈ Stmt.refs body ∨ ∃ b ∈ bs.toList, r ∈ Stmt.refs b.statements)) ?_ h r hr
  intro s body body' s' h r hr
  obtain ⟨c, hc, rfl⟩ := List.mem_map.1 hr
  obtain ⟨s₁, i, callee, front, s₂, hcall, hR, hc⟩ := h.call_cases hc
  cases hR with
  | kept hf =>
      rw [Stmt.calls_call, Stmt.calls_nil, List.mem_singleton] at hc
      subst hc
      exact ⟨hf, Or.inl (List.mem_map_of_mem hcall)⟩
  | spliced _ hr hcopy hq =>
      have hb := BlockSet.mem_of_find? (BlockSet.find?_of_resolve hr)
      obtain ⟨hf, hc | hc⟩ := hq _ (List.mem_map_of_mem hc)
      · rw [Stmt.refs_of_refreshAll hcopy] at hc
        exact ⟨hf, Or.inr ⟨_, hb, hc⟩⟩
      · exact ⟨hf, Or.inr hc⟩

end Placement

namespace BlockSet

/-- The identities of all nodes. -/
def ids (bs : BlockSet) : Multiset NodeId := (bs.toList.map (Stmt.ids ·.statements)).sum

variable {p : Placement} {bs bs' : BlockSet} {blocks : List Block} {s s' : Supply}

theorem ids_append (front back : List Block) : ids (.of (front ++ back)) = ids (.of front) + ids (.of back) := by
  simp [ids]

theorem mem_ids {bs : BlockSet} {i : NodeId} : i ∈ bs.ids ↔ ∃ b ∈ bs.toList, i ∈ Stmt.ids b.statements := by
  obtain ⟨blocks, _, rfl⟩ := bs
  induction blocks with
  | nil => simp [ids]
  | cons b blocks ih => simp_all [ids]

/-- Repairing leaves all nodes their identities. -/
theorem ids_repaired (h : repaired blocks = .ok bs) :
    bs.ids = (blocks.map (Stmt.ids ·.statements)).sum := by
  refine (congrArg List.sum (map_eq_map_of_forall₂ (repaired_eq_ok h).2 ?_)).symm
  rintro b b' ⟨body, rfl, hm⟩
  obtain ⟨fronts, hf, -, -, hi⟩ := hm.parted
  have hfronts : (Stmt.calls b.statements).map (fun c => ({c.1} : Multiset NodeId)) =
      fronts.map Stmt.ids := by
    refine map_eq_map_of_forall₂ hf.forall₂ ?_
    rintro c front ⟨-, -, d, -, -, rfl⟩
    rfl
  rw [hfronts] at hi
  exact (add_right_cancel hi).symm

theorem keeps_ids (hin : p.inline bs s = .ok (blocks, s')) (hrep : repaired blocks = .ok bs') :
    s.Keeps bs.ids bs'.ids s' := by
  have hk := Supply.Keeps.sum (f := (Stmt.ids ·.statements)) (g := (Stmt.ids ·.statements))
    (fun s b b' s' ⟨body, hb, e⟩ => by rw [e]; exact Placement.keeps_expand hb)
    (Placement.inline_chained hin)
  rw [← ids_repaired hrep] at hk
  obtain ⟨drawn, hd, hle⟩ := hk
  refine ⟨drawn, hd, hle.trans (add_le_add_left ?_ _)⟩
  exact (List.filter_sublist.map _).sum_le_sum fun _ _ => Multiset.zero_le _

/-- Without identities, the operands of functions are those of the blocks before. -/
theorem exists_operand_of_repaired (hin : p.inline bs s = .ok (blocks, s')) (hrep : repaired blocks = .ok bs')
    {b' : Block} (hb' : b' ∈ bs'.toList) {o : Operand} (ho : o ∈ Stmt.operandsOfAll b'.statements) :
    ∃ b ∈ bs.toList, ∃ o' ∈ Stmt.operandsOfAll b.statements, o'.map Expr.anonymous = o.map Expr.anonymous := by
  obtain ⟨a, ha, body, rfl, hm⟩ := forall₂_mem_right (repaired_eq_ok hrep).2 hb'
  obtain ⟨b, hb, s₁, s₂, body', hx, rfl⟩ := forall₂_mem_right (Placement.inline_chained hin).forall₂ ha
  have ho : o ∈ Stmt.operandsOfAll body' := by
    rcases hm.operand_cases ho with ho | ⟨-, i, callee, front, -, -, ⟨d, -, -, rfl⟩, ho⟩
    · exact ho
    · cases ho
  obtain ⟨o', ho' | ⟨c, hc, ho'⟩, hsame⟩ := Placement.operands_expand hx ho
  · exact ⟨b, (List.mem_filter.1 hb).1, o', ho', hsame⟩
  · exact ⟨c, hc, o', ho', hsame⟩

theorem mem_vars_of_repaired (hin : p.inline bs s = .ok (blocks, s')) (hrep : repaired blocks = .ok bs')
    {b' : Block} (hb' : b' ∈ bs'.toList) {v : Variable} (hv : v ∈ b'.vars) :
    ∃ b ∈ bs.toList, v ∈ b.vars := by
  obtain ⟨o, ho, hv⟩ := Stmt.mem_vars_iff.1 hv
  obtain ⟨b, hb, o', ho', hsame⟩ := exists_operand_of_repaired hin hrep hb' ho
  refine ⟨b, hb, Stmt.mem_vars_iff.2 ⟨o', ho', ?_⟩⟩
  have hexpr : o'.expr.anonymous = o.expr.anonymous := congrArg Operand.expr hsame
  rwa [← Expr.vars_anonymous, hexpr, Expr.vars_anonymous]

/-- Every call of a function means the function that has its name. -/
theorem resolve_of_repaired (hrep : repaired blocks = .ok bs) {b : Block} (hb : b ∈ bs.toList)
    {c : NodeId × BlockRef} (hc : c ∈ b.calls) : ∃ d ∈ bs.toList, c.2 = d.ref ∧ bs.resolve c.2 = .ok d := by
  obtain ⟨hn, hall⟩ := repaired_eq_ok hrep
  obtain ⟨a, -, body, rfl, hm⟩ := forall₂_mem_right hall hb
  obtain ⟨-, i, callee, front, -, -, ⟨d, hd, -, rfl⟩, hc⟩ := hm.call_cases hc
  rw [Stmt.calls_call, Stmt.calls_nil, List.mem_singleton] at hc
  obtain ⟨d', hd', body, rfl, -⟩ := forall₂_mem_left hall hd
  subst hc
  exact ⟨_, hd', rfl, resolve_eq_ok.2 ⟨find?_name hn hd', rfl⟩⟩

theorem names_of_inline (hin : p.inline bs s = .ok (blocks, s')) :
    blocks.map (·.name) = bs.names.filter p.isFunc := by
  have hinlined : (bs.toList.filter (p.isFunc ·.name)).map (·.name) = blocks.map (·.name) := by
    refine map_eq_map_of_forall₂ (Placement.inline_chained hin).forall₂ ?_
    rintro b b' ⟨s, s', body, -, rfl⟩
    rfl
  rw [← hinlined, names, List.filter_map]
  rfl

/-- Whatever is spliced of a linked set can be repaired. -/
theorem Linked.exists_repaired (h : bs.Linked) (hin : p.inline bs s = .ok (blocks, s')) :
    ∃ bs', repaired blocks = .ok bs' := by
  refine BlockSet.exists_repaired ?_ fun b hb c hc => ?_
  · rw [names_of_inline hin]
    exact h.names.filter _
  · obtain ⟨a, ha, s₁, s₂, body, hx, rfl⟩ := forall₂_mem_right (Placement.inline_chained hin).forall₂ hb
    obtain ⟨hf, href⟩ := Placement.calls_expand hx (List.mem_map_of_mem hc)
    rw [names_of_inline hin, List.mem_filter]
    refine ⟨?_, hf⟩
    have hlinked {d : Block} (hd : d ∈ bs.toList) {r : BlockRef} (hr : r ∈ Stmt.refs d.statements) :
        r.name ∈ bs.names := by
      obtain ⟨c, hc, rfl⟩ := List.mem_map.1 hr
      exact h.calls d hd c hc
    rcases href with href | ⟨d, hd, href⟩
    · exact hlinked (List.mem_filter.1 ha).1 href
    · exact hlinked hd href

end BlockSet

end Diversity
