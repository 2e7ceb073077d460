import Diversity.Proofs.Access
import Mathlib.Data.List.Nodup
/-! Substitution for the usages of variables: it reaches every occurrence of them, and nothing else. -/
namespace Diversity

theorem Substitution.mem_of_lookup {σ : Substitution} {i : NodeId} {r : Expr} (h : σ.lookup i = some r) :
    (i, r) ∈ σ := by
  obtain ⟨front, back, rfl, -⟩ := List.lookup_eq_some_iff.1 h
  exact List.mem_append_right _ List.mem_cons_self

namespace Expr

variable {e : Expr} {σ : Substitution}

theorem replaceNodes_of_none {f : Expr → Option Expr} (h : ∀ n ∈ e.nodes, f n = none) :
    e.replaceNodes f = e := by
  induction e using parts_induction with
  | step e ih =>
      rw [replaceNodes_eq, h e (mem_nodes_self e), Option.getD_none]
      exact mapChildren_id fun c hc => ih c hc fun n hn => h n (mem_nodes_iff.2 (Or.inr ⟨c, hc, hn⟩))

theorem substituteWithin_of_none (h : ∀ n ∈ e.nodes, σ.lookup n.id = none) (depth : Nat) :
    e.substituteWithin σ depth = e := by
  cases depth with
  | zero => rfl
  | succ depth => exact replaceNodes_of_none fun n hn => by rw [h n hn, Option.map_none]

/-- No replacement holds a node that is replaced itself. -/
def Substitution.Closed (σ : Substitution) : Prop :=
  ∀ i r, σ.lookup i = some r → ∀ n ∈ r.nodes, σ.lookup n.id = none

/-- Where no replacement is to be looked into again, substitution is one pass. -/
theorem substitute_eq (hσ : Substitution.Closed σ) (e : Expr) :
    e.substitute σ = e.replaceNodes fun n => σ.lookup n.id := by
  unfold substitute
  cases hl : σ.length with
  | zero =>
      obtain rfl := List.length_eq_zero_iff.1 hl
      exact (replaceNodes_of_none fun n _ => rfl).symm
  | succ depth =>
      rw [substituteWithin]
      refine congrArg (e.replaceNodes ·) (funext fun n => ?_)
      cases hr : σ.lookup n.id with
      | none => rfl
      | some r =>
          refine congrArg some (mapChildren_id fun c hc => ?_)
          refine substituteWithin_of_none (fun m hm => hσ _ r hr m ?_) depth
          exact mem_nodes_iff.2 (Or.inr ⟨c, hc, hm⟩)

variable {K : Option ChunkId × String → Prop}

/-- A node that stays contributes its own variable and what its parts become. -/
theorem mem_vars_of_kept (hr : σ.lookup e.id = none) {w : Variable}
    (hw : w ∈ (e.replaceNodes fun n => σ.lookup n.id).vars) :
    e.var? = some w ∨ ∃ c ∈ e.children, w ∈ (c.replaceNodes fun n => σ.lookup n.id).vars := by
  rw [replaceNodes_eq, hr, Option.getD_none, vars_eq, var?_mapChildren, children_mapChildren, List.mem_append,
    List.flatMap_map, List.mem_flatMap, Option.mem_toList] at hw
  exact hw

theorem mem_vars_or_of_child {c : Expr} {w : Variable} (hc : c ∈ e.children)
    (h : (w ∈ c.vars ∧ ¬ K w.key) ∨ ∃ n ∈ c.nodes, ∃ r, σ.lookup n.id = some r ∧ w ∈ r.vars) :
    (w ∈ e.vars ∧ ¬ K w.key) ∨ ∃ n ∈ e.nodes, ∃ r, σ.lookup n.id = some r ∧ w ∈ r.vars := by
  have hsub : c.nodes ⊆ e.nodes := fun n hn => mem_nodes_iff.2 (Or.inr ⟨c, hc, hn⟩)
  rcases h with ⟨hw, hk⟩ | ⟨n, hn, hr⟩
  · exact Or.inl ⟨vars_subset (hsub (mem_nodes_self c)) hw, hk⟩
  · exact Or.inr ⟨n, hsub hn, hr⟩

/-- If all usages of some variables are replaced, none of those variables is left. -/
theorem vars_replaceNodes (hσ : ∀ key, K key → ∀ u ∈ e.usages key, ∃ r, σ.lookup u.origin = some r)
    {w : Variable} (hw : w ∈ (e.replaceNodes fun n => σ.lookup n.id).vars) :
    (w ∈ e.vars ∧ ¬ K w.key) ∨ ∃ n ∈ e.nodes, ∃ r, σ.lookup n.id = some r ∧ w ∈ r.vars := by
  induction e using parts_induction with
  | step e ih =>
      cases hr : σ.lookup e.id with
      | some r =>
          rw [replaceNodes_eq, hr] at hw
          exact Or.inr ⟨e, mem_nodes_self e, r, hr, hw⟩
      | none =>
          -- the expression is no usage itself, so its usages are those of its parts
          have hcapture (key) (hk : K key) : e.capture? key = none := by
            cases hc : e.capture? key with
            | none => rfl
            | some c =>
                have hu : ⟨e.id, c⟩ ∈ e.usages key := by
                  rw [usages_eq, usageOr, hc]
                  exact List.mem_singleton.2 rfl
                obtain ⟨r, hr'⟩ := hσ key hk _ hu
                rw [hr] at hr'
                cases hr'
          rcases mem_vars_of_kept hr hw with hv | ⟨c, hc, hw⟩
          · refine Or.inl ⟨by rw [vars_eq, hv]; exact List.mem_cons_self, fun hk => ?_⟩
            cases e with
            | var i v =>
                cases hv
                have := hcapture w.key hk
                rw [capture?, if_pos rfl] at this
                cases this
            | _ => cases hv
          · have hσc (key) (hk : K key) : ∀ u ∈ c.usages key, ∃ r, σ.lookup u.origin = some r := by
              intro u hu
              refine hσ key hk u ?_
              rw [usages_eq, usageOr, hcapture key hk]
              exact List.mem_flatMap.2 ⟨c, hc, hu⟩
            exact mem_vars_or_of_child hc (ih c hc hσc hw)

/-- If only access paths are replaced, the replacement of a usage stands where the usage stood. -/
theorem mem_nodes_replaceNodes {key : Option ChunkId × String}
    (hσ : ∀ n ∈ e.nodes, ∀ r, σ.lookup n.id = some r → ∃ v k, n.Along v k) {u : Usage} (hu : u ∈ e.usages key) :
    ∃ n ∈ e.nodes, n.id = u.origin ∧ n.capture? key = some u.capture ∧
      (n.replaceNodes fun n => σ.lookup n.id) ∈ (e.replaceNodes fun n => σ.lookup n.id).nodes := by
  induction e using parts_induction with
  | step e ih =>
      rw [usages_eq, usageOr] at hu
      split at hu
      · next c hc =>
        obtain rfl := List.mem_singleton.1 hu
        exact ⟨e, mem_nodes_self e, rfl, hc, mem_nodes_self _⟩
      · next hnone =>
        obtain ⟨c, hc, hu⟩ := List.mem_flatMap.1 hu
        have hsub : c.nodes ⊆ e.nodes := fun n hn => mem_nodes_iff.2 (Or.inr ⟨c, hc, hn⟩)
        obtain ⟨n, hn, hid, hcap, hmem⟩ := ih c hc (fun n hn => hσ n (hsub hn)) hu
        refine ⟨n, hsub hn, hid, hcap, ?_⟩
        -- an access path mentions one variable only, so this one cannot lie inside another one
        have hkept : σ.lookup e.id = none := by
          cases hr : σ.lookup e.id with
          | none => rfl
          | some r =>
              obtain ⟨v, k, he⟩ := hσ e (mem_nodes_self e) r hr
              obtain ⟨w, l, hw, hn', -⟩ := along_of_capture? hcap
              have hmem : w ∈ e.vars := vars_subset (hsub hn) (hn'.vars ▸ List.mem_singleton.2 rfl)
              rw [he.vars, List.mem_singleton] at hmem
              obtain ⟨c, hc⟩ := exists_capture?_of_along he
              rw [← hmem, hw, hnone] at hc
              cases hc
        rw [replaceNodes_eq _ e, hkept, Option.getD_none, mem_nodes_iff, children_mapChildren]
        exact Or.inr ⟨_, List.mem_map_of_mem hc, hmem⟩

end Expr

namespace Operand

variable {o : Operand} {σ : Substitution} {K : Option ChunkId × String → Prop}

theorem vars_replaceNodes (hσ : ∀ key, K key → ∀ u ∈ o.usages key, ∃ r, σ.lookup u.origin = some r)
    {w : Variable} (hw : w ∈ (o.expr.replaceNodes fun n => σ.lookup n.id).vars) :
    (w ∈ o.expr.vars ∧ ¬ K w.key) ∨ ∃ n ∈ o.expr.nodes, ∃ r, σ.lookup n.id = some r ∧ w ∈ r.vars := by
  obtain ⟨e, isTarget⟩ := o
  cases isTarget with
  | false => exact Expr.vars_replaceNodes hσ hw
  | true =>
      cases hr : σ.lookup e.id with
      | some r =>
          rw [Expr.replaceNodes_eq, hr] at hw
          exact Or.inr ⟨e, Expr.mem_nodes_self e, r, hr, hw⟩
      | none =>
          rcases Expr.mem_vars_of_kept hr hw with hv | ⟨c, hc, hw⟩
          · cases e with
            | var i v =>
                cases hv
                refine Or.inl ⟨List.mem_singleton.2 rfl, fun hk => ?_⟩
                obtain ⟨r, hr'⟩ := hσ w.key hk ⟨i, .assigned (.base (.var i w))⟩
                  (by simp [Operand.usages, Expr.usagesAssigned])
                rw [show (Expr.var i w).id = i from rfl] at hr
                rw [hr] at hr'
                cases hr'
            | _ => cases hv
          · refine Expr.mem_vars_or_of_child hc (Expr.vars_replaceNodes (fun key hk u hu => hσ key hk u ?_) hw)
            cases e with
            | var i v => cases hc
            | _ =>
                simp only [Operand.usages, Expr.usagesAssigned, Expr.usagesOfAll_eq]
                exact List.mem_flatMap.2 ⟨c, hc, hu⟩

theorem id_inj {e m n : Expr} (h : (e.nodes.map Expr.id).Nodup) (hm : m ∈ e.nodes) (hn : n ∈ e.nodes)
    (hid : m.id = n.id) : m = n :=
  List.inj_on_of_nodup_map h hm hn hid

/-- If only usages are replaced, the replacement of a usage stands where the usage stood. -/
theorem mem_nodes_replaceNodes (hids : (o.expr.nodes.map Expr.id).Nodup)
    (hσ : ∀ n ∈ o.expr.nodes, ∀ r, σ.lookup n.id = some r → ∃ key, ∃ u ∈ o.usages key, u.origin = n.id)
    {key : Option ChunkId × String} {u : Usage} (hu : u ∈ o.usages key) {n : Expr} (hn : n ∈ o.expr.nodes)
    (hid : n.id = u.origin) :
    (n.replaceNodes fun n => σ.lookup n.id) ∈ (o.expr.replaceNodes fun n => σ.lookup n.id).nodes := by
  have halong : ∀ n ∈ o.expr.nodes, ∀ r, σ.lookup n.id = some r → ∃ v k, n.Along v k := by
    intro n hn r hr
    obtain ⟨key, u, hu, hid⟩ := hσ n hn r hr
    obtain ⟨m, hm, hmid, v, k, p, -, hal, -⟩ := exists_node_of_usages hu
    exact ⟨v, k, id_inj hids hm hn (hmid.trans hid) ▸ hal⟩
  obtain ⟨e, isTarget⟩ := o
  cases isTarget with
  | false =>
      obtain ⟨m, hm, hmid, -, hmem⟩ := Expr.mem_nodes_replaceNodes halong hu
      exact id_inj hids hm hn (hmid.trans hid.symm) ▸ hmem
  | true =>
      rcases Expr.mem_usagesAssigned hu with ⟨i, v, rfl, -, -⟩ | ⟨c, hc, huc⟩
      · obtain rfl := List.mem_singleton.1 hn
        exact Expr.mem_nodes_self _
      · have hsub : c.nodes ⊆ e.nodes := fun n hn => Expr.mem_nodes_iff.2 (Or.inr ⟨c, hc, hn⟩)
        obtain ⟨m, hm, hmid, -, hmem⟩ := Expr.mem_nodes_replaceNodes (fun n hn => halong n (hsub hn)) huc
        obtain rfl := id_inj hids (hsub hm) hn (hmid.trans hid.symm)
        -- what is assigned to is no usage unless it is the variable itself
        have hkept : σ.lookup e.id = none := by
          cases hr : σ.lookup e.id with
          | none => rfl
          | some r =>
              obtain ⟨key', u', hu', hid'⟩ := hσ e (Expr.mem_nodes_self e) r hr
              rcases Expr.mem_usagesAssigned hu' with ⟨i, v, rfl, -, -⟩ | ⟨c', hc', hu'⟩
              · cases hc
              · obtain ⟨n', hn', hnid, -⟩ := c'.exists_node_of_usages hu'
                rw [Expr.nodes_eq, List.map_cons, List.nodup_cons] at hids
                refine absurd ?_ hids.1
                rw [← hid', ← hnid]
                exact List.mem_map_of_mem (List.mem_flatMap.2 ⟨c', hc', hn'⟩)
        rw [Expr.replaceNodes_eq _ e, hkept, Option.getD_none, Expr.mem_nodes_iff, Expr.children_mapChildren]
        exact Or.inr ⟨_, List.mem_map_of_mem hc, hmem⟩

end Operand

end Diversity
