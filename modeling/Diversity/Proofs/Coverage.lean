import Diversity.Proofs.Parameters
import Mathlib.Data.List.Flatten
/-! The captures of a block cover every occurrence of a variable once, and no two of them overlap. So the
substitutions for several variables can be merged in any order, and nothing changes but what is captured. -/
namespace Diversity

/-- The node lies on the chain that is captured, which starts at the origin. -/
def Usage.Covers (nodes : List Expr) (u : Usage) (n : Expr) : Prop := ∃ o ∈ nodes, o.id = u.origin ∧ n ∈ o.nodes

variable {whole part : List Expr} {u u' : Usage} {e n : Expr} {key key' : Option ChunkId × String}

/-- An origin in a part is found there. -/
theorem Usage.Covers.within (h : u.Covers whole n) (hids : (whole.map Expr.id).Nodup) (hsub : part ⊆ whole)
    (hpart : ∃ o ∈ part, o.id = u.origin) : u.Covers part n := by
  obtain ⟨o, ho, hid, hn⟩ := h
  obtain ⟨o', ho', hid'⟩ := hpart
  obtain rfl := List.inj_on_of_nodup_map hids ho (hsub ho') (hid.trans hid'.symm)
  exact ⟨o, ho', hid, hn⟩

/-- Every origin is a captured node, and captures that share a node are one capture of one variable. -/
structure Separate (nodes : List Expr) (usages : Option ChunkId × String → List Usage) : Prop where
  closed : ∀ o ∈ nodes, o.nodes ⊆ nodes
  origin : ∀ key, ∀ u ∈ usages key, ∃ o ∈ nodes, o.id = u.origin ∧ ∃ c, o.capture? key = some c
  apart : ∀ {key key' u u' n}, u ∈ usages key → u' ∈ usages key' → u.Covers nodes n → u'.Covers nodes n →
    key = key' ∧ u = u'

theorem Separate.mem_of_covers {usages : Option ChunkId × String → List Usage} (h : Separate whole usages)
    (hn : u.Covers whole n) : n ∈ whole := by
  obtain ⟨o, ho, -, hn⟩ := hn
  exact h.closed o ho hn

theorem Separate.exists_origin {usages : Option ChunkId × String → List Usage} (h : Separate whole usages)
    (hu : u ∈ usages key) : ∃ o ∈ whole, o.id = u.origin := by
  obtain ⟨o, ho, hid, -⟩ := h.origin key u hu
  exact ⟨o, ho, hid⟩

/-- What is separate in parts that have no identity in common is separate. -/
theorem Separate.flatMap {α : Type} {as : List α} {nodesOf : α → List Expr}
    {usagesOf : α → Option ChunkId × String → List Usage} (hids : ((as.flatMap nodesOf).map Expr.id).Nodup)
    (h : ∀ a ∈ as, Separate (nodesOf a) (usagesOf a)) :
    Separate (as.flatMap nodesOf) fun key => as.flatMap (usagesOf · key) := by
  have hsub {a : α} (ha : a ∈ as) : nodesOf a ⊆ as.flatMap nodesOf := fun n hn => List.mem_flatMap.2 ⟨a, ha, hn⟩
  refine ⟨fun o ho n hn => ?_, fun key u hu => ?_, fun {key key' u u' n} hu hu' hn hn' => ?_⟩
  · obtain ⟨a, ha, ho⟩ := List.mem_flatMap.1 ho
    exact hsub ha ((h a ha).closed o ho hn)
  · obtain ⟨a, ha, hu⟩ := List.mem_flatMap.1 hu
    obtain ⟨o, ho, hid, hc⟩ := (h a ha).origin key u hu
    exact ⟨o, hsub ha ho, hid, hc⟩
  · obtain ⟨a, ha, hu⟩ := List.mem_flatMap.1 hu
    obtain ⟨a', ha', hu'⟩ := List.mem_flatMap.1 hu'
    have hn := hn.within hids (hsub ha) ((h a ha).exists_origin hu)
    have hn' := hn'.within hids (hsub ha') ((h a' ha').exists_origin hu')
    rw [List.map_flatMap] at hids
    obtain rfl := eq_of_nodup_flatMap hids ha ha' (List.mem_map_of_mem ((h a ha).mem_of_covers hn))
      (List.mem_map_of_mem ((h a' ha').mem_of_covers hn'))
    exact (h a ha).apart hu hu' hn hn'

/-- A node above all captures keeps them separate. -/
theorem Separate.of_children {usages : Option ChunkId × String → List Usage}
    (h : Separate (e.children.flatMap Expr.nodes) usages) (hids : (e.nodes.map Expr.id).Nodup) :
    Separate e.nodes usages := by
  have hsub : e.children.flatMap Expr.nodes ⊆ e.nodes := by
    rw [Expr.nodes_eq]
    exact List.subset_cons_self _ _
  refine ⟨fun o ho => Expr.nodes_subset ho, fun key u hu => ?_, fun hu hu' hn hn' => ?_⟩
  · obtain ⟨o, ho, hid, hc⟩ := h.origin key u hu
    exact ⟨o, hsub ho, hid, hc⟩
  · exact h.apart hu hu' (hn.within hids hsub (h.exists_origin hu)) (hn'.within hids hsub (h.exists_origin hu'))

namespace Expr

variable {v : Variable} {k : ℤ} {c c' : Capture}

/-- On an access path there is nothing but access paths over the same variable, and zeros. -/
theorem Along.mem_nodes (h : Along v e k) (hn : n ∈ e.nodes) : (∃ l, Along v n l) ∨ n.isZero = true := by
  induction h with
  | var =>
      obtain rfl := List.mem_singleton.1 hn
      exact .inl ⟨0, .var⟩
  | ref h ih =>
      rcases mem_nodes_iff.1 hn with rfl | ⟨c, hc, hn'⟩
      · exact .inl ⟨_, h.ref⟩
      · exact ih (List.mem_singleton.1 hc ▸ hn')
  | deref h ih =>
      rcases mem_nodes_iff.1 hn with rfl | ⟨c, hc, hn'⟩
      · exact .inl ⟨_, h.deref⟩
      · exact ih (List.mem_singleton.1 hc ▸ hn')
  | index hz h ih =>
      rcases mem_nodes_iff.1 hn with rfl | ⟨c, hc, hn'⟩
      · exact .inl ⟨_, h.index hz⟩
      · rcases List.mem_cons.1 hc with rfl | hc
        · exact ih hn'
        · obtain rfl := List.mem_singleton.1 hc
          exact .inr (eq_of_mem_nodes_of_isZero hz hn' ▸ hz)

theorem Along.eq_of_along {w : Variable} {l : ℤ} (h : Along v e k) (h' : Along w e l) : v = w :=
  List.singleton_inj.1 (h.vars.symm.trans h'.vars)

/-- A captured node in a captured expression is captured with it. -/
theorem key_eq_of_capture? (he : e.capture? key = some c) (hn : n ∈ e.nodes) (hc : n.capture? key' = some c') :
    key = key' := by
  obtain ⟨v, k, rfl, hv, -⟩ := along_of_capture? he
  obtain ⟨w, l, rfl, hw, -⟩ := along_of_capture? hc
  rcases hv.mem_nodes hn with ⟨m, hm⟩ | hz
  · rw [hm.eq_of_along hw]
  · cases hw <;> cases hz

theorem nodup_children (hids : (e.nodes.map id).Nodup) :
    ((e.children.flatMap nodes).map id).Nodup ∧ ∀ c ∈ e.children, (c.nodes.map id).Nodup := by
  rw [nodes_eq, List.map_cons, List.nodup_cons] at hids
  refine ⟨hids.2, fun c hc => ?_⟩
  have hparts := hids.2
  rw [List.map_flatMap, List.nodup_flatMap] at hparts
  exact hparts.1 c hc

theorem usages_of_some (h : e.capture? key = some c) : e.usages key = [⟨e.id, c⟩] := by
  rw [usages_eq, usageOr, h]

theorem usages_of_none (h : e.capture? key = none) : e.usages key = e.children.flatMap (usages key) := by
  rw [usages_eq, usageOr, h]

theorem usagesAssigned_of_none (h : e.var? = none) :
    e.usagesAssigned key = e.children.flatMap (usages key) := by
  cases e with
  | var _ _ => cases h
  | _ => exact usagesOfAll_eq _

theorem separate (hids : (e.nodes.map id).Nodup) : Separate e.nodes fun key => e.usages key := by
  induction e using parts_induction with
  | step e ih =>
      obtain ⟨hchildren, hchild⟩ := nodup_children hids
      have hparts := (Separate.flatMap hchildren fun c hc => ih c hc (hchild c hc)).of_children hids
      -- a node that is captured leaves no captures to its parts
      have hinside {key key' : Option ChunkId × String} {c : Capture} {u : Usage} (he : e.capture? key = some c)
          (he' : e.capture? key' = none) (hu : u ∈ e.usages key') : False := by
        rw [usages_of_none he'] at hu
        obtain ⟨o, ho, -, c', hc'⟩ := hparts.origin key' u hu
        obtain rfl := key_eq_of_capture? he ho hc'
        rw [he] at he'
        cases he'
      refine ⟨fun o ho => nodes_subset ho, fun key u hu => ?_, fun {key key' u u' n} hu hu' hn hn' => ?_⟩
      · cases he : e.capture? key with
        | some c =>
            rw [usages_of_some he] at hu
            obtain rfl := List.mem_singleton.1 hu
            exact ⟨e, mem_nodes_self e, rfl, c, he⟩
        | none =>
            rw [usages_of_none he] at hu
            exact hparts.origin key u hu
      · cases he : e.capture? key with
        | some c =>
            cases he' : e.capture? key' with
            | some c' =>
                obtain rfl := key_eq_of_capture? he (mem_nodes_self e) he'
                rw [usages_of_some he, List.mem_singleton] at hu hu'
                exact ⟨rfl, hu.trans hu'.symm⟩
            | none => exact (hinside he he' hu').elim
        | none =>
            cases he' : e.capture? key' with
            | some c' => exact (hinside he' he hu).elim
            | none =>
                rw [usages_of_none he] at hu
                rw [usages_of_none he'] at hu'
                exact hparts.apart hu hu' hn hn'

end Expr

/-- Assigned to or read, the captures in an expression are separate. -/
theorem Operand.separate {o : Operand} (hids : (o.expr.nodes.map Expr.id).Nodup) :
    Separate o.expr.nodes fun key => o.usages key := by
  obtain ⟨e, isTarget⟩ := o
  cases isTarget with
  | false => exact Expr.separate hids
  | true =>
      obtain ⟨hchildren, hchild⟩ := Expr.nodup_children hids
      have hparts := (Separate.flatMap hchildren fun c hc => Expr.separate (hchild c hc)).of_children hids
      cases e with
      | var i v =>
          have hassigned {key : Option ChunkId × String} {u : Usage} (hu : u ∈ (Expr.var i v).usagesAssigned key) :
              v.key = key ∧ u = ⟨i, .assigned (.base (.var i v))⟩ := by
            rcases Expr.mem_usagesAssigned hu with ⟨i, v, he, hk, rfl⟩ | ⟨c, hc, -⟩
            · cases he
              exact ⟨hk, rfl⟩
            · cases hc
          refine ⟨fun o ho => Expr.nodes_subset ho, fun key u hu => ?_, fun hu hu' _ _ => ?_⟩
          · obtain ⟨rfl, rfl⟩ := hassigned hu
            exact ⟨_, Expr.mem_nodes_self _, rfl, _, if_pos rfl⟩
          · obtain ⟨rfl, rfl⟩ := hassigned hu
            obtain ⟨rfl, rfl⟩ := hassigned hu'
            exact ⟨rfl, rfl⟩
      | _ => simpa [Operand.usages, Expr.usagesAssigned, Expr.usagesOfAll_eq] using hparts

/-! ### Every occurrence is covered -/

namespace Expr

theorem sublist_usages (key : Option ChunkId × String) (e : Expr) :
    List.Sublist ((e.usages key).map Usage.origin) (e.nodes.map id) := by
  induction e using parts_induction with
  | step e ih =>
      rw [nodes_eq, List.map_cons]
      cases he : e.capture? key with
      | some c =>
          rw [usages_of_some he]
          exact (List.nil_sublist _).cons_cons _
      | none =>
          rw [usages_of_none he, List.map_flatMap, List.map_flatMap]
          exact (List.Sublist.flatMap_right _ ih).cons _

/-- A variable lies on a captured chain. -/
theorem exists_covers {v : Variable} (hn : n ∈ e.nodes) (hv : n.var? = some v) :
    ∃ u ∈ e.usages v.key, u.Covers e.nodes n := by
  induction e using parts_induction with
  | step e ih =>
      cases he : e.capture? v.key with
      | some c =>
          rw [usages_of_some he]
          exact ⟨_, List.mem_singleton.2 rfl, e, mem_nodes_self e, rfl, hn⟩
      | none =>
          rw [usages_of_none he]
          rcases mem_nodes_iff.1 hn with rfl | ⟨c, hc, hn⟩
          · cases n <;> cases hv
            rw [capture?, if_pos rfl] at he
            cases he
          · obtain ⟨u, hu, o, ho, hid, hno⟩ := ih c hc hn
            exact ⟨u, List.mem_flatMap.2 ⟨c, hc, hu⟩, o, mem_nodes_iff.2 (.inr ⟨c, hc, ho⟩), hid, hno⟩

end Expr

namespace Operand

variable {o : Operand}

theorem sublist_usages (key : Option ChunkId × String) (o : Operand) :
    List.Sublist ((o.usages key).map Usage.origin) (o.expr.nodes.map Expr.id) := by
  obtain ⟨e, isTarget⟩ := o
  cases isTarget with
  | false => exact Expr.sublist_usages key e
  | true =>
      rw [Expr.nodes_eq, List.map_cons]
      cases e with
      | var i v =>
          rw [usages, if_pos rfl, Expr.usagesAssigned]
          split
          · exact (List.nil_sublist _).cons_cons _
          · exact List.nil_sublist _
      | _ =>
          rw [usages, if_pos rfl, Expr.usagesAssigned_of_none rfl, List.map_flatMap, List.map_flatMap]
          exact (List.Sublist.flatMap_right _ fun c _ => c.sublist_usages key).cons _

theorem exists_covers {v : Variable} (hn : n ∈ o.expr.nodes) (hv : n.var? = some v) :
    ∃ u ∈ o.usages v.key, u.Covers o.expr.nodes n := by
  obtain ⟨e, isTarget⟩ := o
  cases isTarget with
  | false => exact Expr.exists_covers hn hv
  | true =>
      rcases Expr.mem_nodes_iff.1 hn with rfl | ⟨c, hc, hn⟩
      · cases n <;> cases hv
        rename_i i
        refine ⟨⟨i, .assigned (.base (.var i v))⟩, ?_, _, Expr.mem_nodes_self _, rfl,
          Expr.mem_nodes_self _⟩
        rw [usages, if_pos rfl, Expr.usagesAssigned, if_pos rfl]
        exact List.mem_singleton.2 rfl
      · obtain ⟨u, hu, o, ho, hid, hno⟩ := Expr.exists_covers hn hv
        refine ⟨u, ?_, o, Expr.mem_nodes_iff.2 (.inr ⟨c, hc, ho⟩), hid, hno⟩
        cases e with
        | var _ _ => cases hc
        | _ =>
            rw [usages, if_pos rfl, Expr.usagesAssigned_of_none rfl]
            exact List.mem_flatMap.2 ⟨c, hc, hu⟩

end Operand

namespace Block

/-- The expressions among the nodes of a block. -/
def exprs (b : Block) : List Expr := (Stmt.nodesOfAll b.statements).filterMap Node.expr?

variable {b : Block}

theorem exprs_eq (b : Block) : b.exprs = (Stmt.operandsOfAll b.statements).flatMap (·.expr.nodes) :=
  Stmt.exprNodesOfAll b.statements

theorem usages_eq (b : Block) (key : Option ChunkId × String) :
    b.usages key = (Stmt.operandsOfAll b.statements).flatMap (·.usages key) :=
  Stmt.usagesOfAll_eq b.statements

theorem nodup_exprs (hids : ((Stmt.nodesOfAll b.statements).map Node.id).Nodup) : (b.exprs.map Expr.id).Nodup := by
  have hexprs := Stmt.nodup_exprs (Multiset.coe_nodup.2 hids)
  rwa [exprs_eq, List.map_flatMap]

theorem ids_exprs_subset (b : Block) : b.exprs.map Expr.id ⊆ (Stmt.nodesOfAll b.statements).map Node.id := by
  rintro i hi
  obtain ⟨e, he, rfl⟩ := List.mem_map.1 hi
  obtain ⟨n, hn, h⟩ := List.mem_filterMap.1 he
  cases n with
  | stmt _ => cases h
  | expr _ =>
      cases h
      exact List.mem_map.2 ⟨_, hn, rfl⟩

theorem separate (hids : (b.exprs.map Expr.id).Nodup) : Separate b.exprs fun key => b.usages key := by
  simp only [exprs_eq, usages_eq] at hids ⊢
  refine Separate.flatMap hids fun o ho => Operand.separate ?_
  rw [List.map_flatMap, List.nodup_flatMap] at hids
  exact hids.1 o ho

theorem nodup_origins (hids : (b.exprs.map Expr.id).Nodup) (key : Option ChunkId × String) :
    ((b.usages key).map Usage.origin).Nodup := by
  rw [exprs_eq, List.map_flatMap] at hids
  rw [usages_eq, List.map_flatMap]
  exact hids.sublist (List.Sublist.flatMap_right _ fun o _ => o.sublist_usages key)

theorem exists_covers {v : Variable} (hn : n ∈ b.exprs) (hv : n.var? = some v) :
    ∃ u ∈ b.usages v.key, u.Covers b.exprs n := by
  rw [exprs_eq] at hn ⊢
  obtain ⟨o, ho, hn⟩ := List.mem_flatMap.1 hn
  obtain ⟨u, hu, m, hm, hid, hnm⟩ := Operand.exists_covers hn hv
  exact ⟨u, usages_eq b _ ▸ List.mem_flatMap.2 ⟨o, ho, hu⟩, m, List.mem_flatMap.2 ⟨o, ho, hm⟩, hid, hnm⟩

end Block

end Diversity
