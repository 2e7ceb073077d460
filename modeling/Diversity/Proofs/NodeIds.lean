import Diversity.Proofs.Outcome
import Diversity.Proofs.Parts
import Mathlib.Algebra.Order.Group.Multiset
import Mathlib.Tactic.Abel
/-! The identities of nodes: a copy under new identities has no identity twice, and none that was in use
before. -/
namespace Diversity

namespace Supply

/-- The identities are among those that the supply gives out on the way from `s` to `s'`, none twice. -/
structure Draws (s : Supply) (drawn : Multiset NodeId) (s' : Supply) : Prop where
  le : s.next ≤ s'.next
  nodup : drawn.Nodup
  bounds : ∀ i ∈ drawn, s.next ≤ i.index ∧ i.index < s'.next

theorem Draws.none (s : Supply) : Draws s 0 s :=
  ⟨Nat.le_refl _, Multiset.nodup_zero, fun _ h => absurd h (Multiset.notMem_zero _)⟩

theorem Draws.node (s : Supply) : Draws s {⟨s.next⟩} ⟨s.next + 1⟩ := by
  refine ⟨Nat.le_succ _, Multiset.nodup_singleton _, fun i h => ?_⟩
  obtain rfl := Multiset.mem_singleton.1 h
  exact ⟨Nat.le_refl _, Nat.lt_succ_self _⟩

theorem Draws.append {s s₁ s' : Supply} {d₁ d₂ : Multiset NodeId} (h₁ : Draws s d₁ s₁)
    (h₂ : Draws s₁ d₂ s') : Draws s (d₁ + d₂) s' := by
  refine ⟨h₁.le.trans h₂.le, ?_, fun i h => ?_⟩
  · refine (Multiset.nodup_add).2 ⟨h₁.nodup, h₂.nodup, Multiset.disjoint_left.2 fun hi₁ hi₂ => ?_⟩
    exact absurd (h₂.bounds _ hi₂).1 (Nat.not_le.2 (h₁.bounds _ hi₁).2)
  · rcases Multiset.mem_add.1 h with hi | hi
    · exact ⟨(h₁.bounds i hi).1, (h₁.bounds i hi).2.trans_le h₂.le⟩
    · exact ⟨h₁.le.trans (h₂.bounds i hi).1, (h₂.bounds i hi).2⟩

/-- A node is numbered after its parts. -/
theorem Draws.thenNode {s s' : Supply} {d : Multiset NodeId} (h : Draws s d s') :
    Draws s ({⟨s'.next⟩} + d) ⟨s'.next + 1⟩ :=
  add_comm d _ ▸ h.append (.node s')

theorem Draws.of_le {s₀ s s' : Supply} {d : Multiset NodeId} (h : Draws s d s') (hle : s₀.next ≤ s.next) :
    Draws s₀ d s' :=
  ⟨hle.trans h.le, h.nodup, fun i hi => ⟨hle.trans (h.bounds i hi).1, (h.bounds i hi).2⟩⟩

/-- Every new identity is an old one or has been drawn, and none has become more frequent. -/
def Keeps (s : Supply) (old new : Multiset NodeId) (s' : Supply) : Prop :=
  ∃ drawn, Draws s drawn s' ∧ new ≤ old + drawn

theorem Keeps.refl (s : Supply) (old : Multiset NodeId) : Keeps s old old s :=
  ⟨0, .none s, by rw [add_zero]⟩

theorem Keeps.add {s s' : Supply} {old new : Multiset NodeId} (h : Keeps s old new s') (others : Multiset NodeId) :
    Keeps s (old + others) (new + others) s' := by
  obtain ⟨drawn, hd, hle⟩ := h
  refine ⟨drawn, hd, ?_⟩
  rw [add_right_comm]
  gcongr

/-- What is held from one step to the next is passed on. -/
theorem Keeps.carry {s s₁ s' : Supply} {o₁ o₂ n₁ n₂ held held₁ held' : Multiset NodeId}
    (h₁ : Keeps s (o₁ + held) (n₁ + held₁) s₁) (h₂ : Keeps s₁ (o₂ + held₁) (n₂ + held') s') :
    Keeps s (o₁ + o₂ + held) (n₁ + n₂ + held') s' := by
  obtain ⟨d₁, hd₁, hn₁⟩ := h₁
  obtain ⟨d₂, hd₂, hn₂⟩ := h₂
  refine ⟨d₁ + d₂, hd₁.append hd₂, ?_⟩
  calc n₁ + n₂ + held' = n₁ + (n₂ + held') := add_assoc _ _ _
    _ ≤ n₁ + (o₂ + held₁ + d₂) := by gcongr
    _ = n₁ + held₁ + (o₂ + d₂) := by abel
    _ ≤ o₁ + held + d₁ + (o₂ + d₂) := by gcongr
    _ = o₁ + o₂ + held + (d₁ + d₂) := by abel

/-- Identities without repetition, all below the supply, stay so. -/
theorem Keeps.nodup {s s' : Supply} {old new : Multiset NodeId} (h : Keeps s old new s') (hn : old.Nodup)
    (hb : ∀ i ∈ old, i.index < s.next) : new.Nodup := by
  obtain ⟨drawn, hd, hle⟩ := h
  refine Multiset.nodup_of_le hle (Multiset.nodup_add.2 ⟨hn, hd.nodup, Multiset.disjoint_left.2 ?_⟩)
  exact fun hi hi' => absurd (hd.bounds _ hi').1 (Nat.not_le.2 (hb _ hi))

theorem Keeps.mem {s s' : Supply} {old new : Multiset NodeId} (h : Keeps s old new s') {i : NodeId}
    (hi : i ∈ new) : i ∈ old ∨ (s.next ≤ i.index ∧ i.index < s'.next) := by
  obtain ⟨drawn, hd, hle⟩ := h
  exact (Multiset.mem_add.1 (Multiset.mem_of_le hle hi)).imp_right (hd.bounds i)

/-- If some identities give way to others, it is enough that these come from them and from the supply. -/
theorem Keeps.exchange {s s' : Supply} {old new gone come held held' : Multiset NodeId}
    (h : Keeps s (gone + held) (come + held') s') (hi : new + gone = old + come) :
    Keeps s (old + held) (new + held') s' := by
  obtain ⟨drawn, hd, hle⟩ := h
  refine ⟨drawn, hd, le_of_add_le_add_right (a := gone) ?_⟩
  calc new + held' + gone = new + gone + held' := by abel
    _ = old + (come + held') := by rw [hi, add_assoc]
    _ ≤ old + (gone + held + drawn) := by gcongr
    _ = old + held + drawn + gone := by abel

theorem Keeps.chained {σ α β : Type} {R : σ → α → β → σ → Prop} {n : σ → Supply}
    {held : σ → Multiset NodeId} {f : α → Multiset NodeId} {g : β → Multiset NodeId}
    (hR : ∀ s a b s', R s a b s' → Keeps (n s) (f a + held s) (g b + held s') (n s')) {s s' : σ}
    {as : List α} {bs : List β} (h : Chained R s as bs s') :
    Keeps (n s) ((as.map f).sum + held s) ((bs.map g).sum + held s') (n s') := by
  induction h with
  | nil => exact .refl _ _
  | cons h _ ih =>
      rw [List.map_cons, List.map_cons, List.sum_cons, List.sum_cons]
      exact (hR _ _ _ _ h).carry ih

theorem Keeps.sum {α β : Type} {R : Supply → α → β → Supply → Prop} {f : α → Multiset NodeId}
    {g : β → Multiset NodeId} (hR : ∀ s a b s', R s a b s' → Keeps s (f a) (g b) s') {s s' : Supply}
    {as : List α} {bs : List β} (h : Chained R s as bs s') :
    Keeps s (as.map f).sum (bs.map g).sum s' := by
  have hR' : ∀ s a b s', R s a b s' → Keeps s (f a + 0) (g b + 0) s' := by simpa using hR
  simpa using Keeps.chained (n := fun s => s) hR' h

end Supply

open Supply (Draws)

namespace Expr

def ids (e : Expr) : Multiset NodeId := e.nodes.map id

def idsOfAll (es : List Expr) : Multiset NodeId := (nodesOfAll es).map id

section

variable (i : NodeId) (e e' : Expr) (es : List Expr)

theorem ids_index : (index i e e').ids = {i} + (e.ids + e'.ids) := by
  simp [ids, nodes, id, ← Multiset.singleton_add, ← Multiset.cons_coe, ← Multiset.coe_add]
theorem ids_call : (call i e es).ids = {i} + (e.ids + idsOfAll es) := by
  simp [ids, idsOfAll, nodes, id, ← Multiset.singleton_add, ← Multiset.cons_coe, ← Multiset.coe_add]
theorem idsOfAll_cons : idsOfAll (e :: es) = e.ids + idsOfAll es := by
  simp [ids, idsOfAll, nodesOfAll, ← Multiset.coe_add]

end

mutual

theorem draws_refresh (e : Expr) (s : Supply) : Draws s (e.refresh s).1.ids (e.refresh s).2 := by
  match e with
  | .var _ _ => exact .node s
  | .ref _ target => exact (draws_refresh target s).thenNode
  | .deref _ target => exact (draws_refresh target s).thenNode
  | .index _ target position =>
      have h := ((draws_refresh target s).append (draws_refresh position _)).thenNode
      rw [← ids_index] at h
      exact h
  | .call _ target args =>
      have h := ((draws_refresh target s).append (draws_refreshAll args _)).thenNode
      rw [← ids_call] at h
      exact h
  | .op _ _ operands => exact (draws_refreshAll operands s).thenNode
  | .value _ _ => exact .node s
  | .cast _ target _ => exact (draws_refresh target s).thenNode
  | .sizeofExpr _ target => exact (draws_refresh target s).thenNode
  | .sizeofType _ _ => exact .node s

theorem draws_refreshAll (es : List Expr) (s : Supply) :
    Draws s (idsOfAll (refreshAll es s).1) (refreshAll es s).2 := by
  match es with
  | [] => exact .none s
  | e :: es =>
      have h := (draws_refresh e s).append (draws_refreshAll es _)
      rw [← idsOfAll_cons] at h
      exact h

end

end Expr

theorem Expr.map_asNodes (e : Expr) : (e.asNodes.map Node.id : Multiset NodeId) = e.ids := by
  simp [Expr.asNodes, Expr.ids, Function.comp_def, Node.id]

namespace Stmt

def ids (body : List Stmt) : Multiset NodeId := (nodesOfAll body).map Node.id

def idsOfBranches (branches : List Branch) : Multiset NodeId := (nodesOfBranches branches).map Node.id

section

variable (i : NodeId) (e e' : Expr) (branches : List Branch) (body rest : List Stmt)

theorem ids_append : ids (body ++ rest) = ids body + ids rest := by
  simp only [ids, nodesOfAll_append, List.map_append, Multiset.coe_add]

theorem ids_assign : ids (assign i e e' :: rest) = {i} + (e.ids + e'.ids) + ids rest := by
  simp only [ids, nodesOfAll, nodes, List.map_append, List.map_cons, ← Multiset.cons_coe,
    ← Multiset.coe_add, Expr.map_asNodes, ← Multiset.singleton_add, Node.id, id]

theorem ids_choice : ids (choice i branches :: rest) = {i} + idsOfBranches branches + ids rest := by
  simp only [ids, idsOfBranches, nodesOfAll, nodes, List.map_append, List.map_cons, ← Multiset.cons_coe,
    ← Multiset.coe_add, ← Multiset.singleton_add, Node.id, id]

theorem ids_loop : ids (loop i e body :: rest) = {i} + (e.ids + ids body) + ids rest := by
  simp only [ids, nodesOfAll, nodes, List.map_append, List.map_cons, ← Multiset.cons_coe,
    ← Multiset.coe_add, Expr.map_asNodes, ← Multiset.singleton_add, Node.id, id]

theorem ids_expr : ids (expr i e :: rest) = {i} + e.ids + ids rest := by
  simp only [ids, nodesOfAll, nodes, List.map_append, List.map_cons, ← Multiset.cons_coe,
    ← Multiset.coe_add, Expr.map_asNodes, ← Multiset.singleton_add, Node.id, id]

theorem ids_group : ids (group i body :: rest) = {i} + ids body + ids rest := by
  simp only [ids, nodesOfAll, nodes, List.map_append, List.map_cons, ← Multiset.cons_coe,
    ← Multiset.coe_add, ← Multiset.singleton_add, Node.id, id]

theorem idsOfBranches_cons (condition : Option Expr) :
    idsOfBranches (.mk condition body :: branches) =
      condition.elim 0 Expr.ids + ids body + idsOfBranches branches := by
  cases condition <;>
    simp only [ids, idsOfBranches, nodesOfBranches, nodesOfBranch, Option.elim, List.map_append,
      ← Multiset.coe_add, Expr.map_asNodes, List.nil_append, zero_add]

end

mutual

theorem draws_refreshAll (body : List Stmt) (s : Supply) :
    Draws s (ids (refreshAll body s).1) (refreshAll body s).2 := by
  match body with
  | [] => exact .none s
  | .assign _ target value :: rest =>
      have h := ((target.draws_refresh s).append (value.draws_refresh _)).thenNode.append
        (draws_refreshAll rest _)
      rw [← ids_assign] at h
      exact h
  | .call _ callee :: rest => exact (Supply.Draws.node s).append (draws_refreshAll rest _)
  | .choice _ branches :: rest =>
      have h := (draws_refreshBranches branches s).thenNode.append (draws_refreshAll rest _)
      rw [← ids_choice] at h
      exact h
  | .loop _ condition body :: rest =>
      have h := ((condition.draws_refresh s).append (draws_refreshAll body _)).thenNode.append
        (draws_refreshAll rest _)
      rw [← ids_loop] at h
      exact h
  | .expr _ e :: rest =>
      have h := (e.draws_refresh s).thenNode.append (draws_refreshAll rest _)
      rw [← ids_expr] at h
      exact h
  | .group _ body :: rest =>
      have h := (draws_refreshAll body s).thenNode.append (draws_refreshAll rest _)
      rw [← ids_group] at h
      exact h

theorem draws_refreshBranches (branches : List Branch) (s : Supply) :
    Draws s (idsOfBranches (refreshBranches branches s).1) (refreshBranches branches s).2 := by
  match branches with
  | [] => exact .none s
  | .mk none body :: rest =>
      have h := ((Supply.Draws.none s).append (draws_refreshAll body s)).append
        (draws_refreshBranches rest _)
      exact (idsOfBranches_cons _ _ none).symm ▸ h
  | .mk (some condition) body :: rest =>
      have h := ((condition.draws_refresh s).append (draws_refreshAll body _)).append
        (draws_refreshBranches rest _)
      exact (idsOfBranches_cons _ _ (some _)).symm ▸ h

end

theorem draws_of_refreshAll {body copy : List Stmt} {s s' : Supply} (h : refreshAll body s = (copy, s')) :
    Draws s (ids copy) s' := by
  have hd := draws_refreshAll body s
  rw [h] at hd
  exact hd

end Stmt

end Diversity
