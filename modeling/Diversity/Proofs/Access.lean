import Diversity.Capture.Lift
import Diversity.Proofs.Anonymous
import Diversity.Proofs.Parts
import Mathlib.Algebra.Order.Group.Int
import Mathlib.Logic.Function.Iterate
import Mathlib.Tactic.Ring
/-! Access paths: chains of addresses, dereferences and zero positions over a variable. All that counts of
such a chain is its level, how many more addresses it takes than it follows. -/
namespace Diversity

namespace Expr

/-- The address of a normal form; the address of what is pointed at is the pointer. -/
def addressed : Expr → Expr
  | .deref _ e => e
  | e => .ref .unnumbered e

/-- What a normal form points at; at an address this is what has the address. -/
def pointed : Expr → Expr
  | .ref _ e => e
  | e => .deref .unnumbered e

/-- The normal form of an access path: position zero reads as a dereference, and an address and a
dereference next to each other cancel. Where the path ends only identities are dropped. -/
def normal : Expr → Expr
  | .ref _ target => addressed (normal target)
  | .deref _ target => pointed (normal target)
  | e@(.index _ target position) => if position.isZero then pointed (normal target) else e.anonymous
  | e => e.anonymous

/-- The expression is an access path over the variable, of the given level. -/
inductive Along (v : Variable) : Expr → ℤ → Prop
  | var {i} : Along v (.var i v) 0
  | ref {i e k} : Along v e k → Along v (.ref i e) (k + 1)
  | deref {i e k} : Along v e k → Along v (.deref i e) (k - 1)
  | index {i e position k} : position.isZero = true → Along v e k → Along v (.index i e position) (k - 1)

/-- The normal form of the access paths of one level. -/
def layered (v : Variable) : ℤ → Expr
  | .ofNat n => (ref .unnumbered)^[n] (.var .unnumbered v)
  | .negSucc n => (deref .unnumbered)^[n + 1] (.var .unnumbered v)

theorem addressed_layered (v : Variable) (k : ℤ) : addressed (layered v k) = layered v (k + 1) := by
  match k with
  | .ofNat 0 => rfl
  | .ofNat (n + 1) =>
      have h : (Int.ofNat (n + 1) + 1 : ℤ) = Int.ofNat (n + 2) := rfl
      rw [h, layered, layered, Function.iterate_succ_apply', Function.iterate_succ_apply' _ (n + 1),
        Function.iterate_succ_apply' _ n]
      rfl
  | .negSucc 0 => rfl
  | .negSucc (n + 1) =>
      have h : Int.negSucc (n + 1) + 1 = Int.negSucc n := by omega
      rw [h, layered, layered, Function.iterate_succ_apply']
      rfl

theorem pointed_layered (v : Variable) (k : ℤ) : pointed (layered v k) = layered v (k - 1) := by
  match k with
  | .ofNat 0 => rfl
  | .ofNat (n + 1) =>
      have h : (Int.ofNat (n + 1) - 1 : ℤ) = Int.ofNat n := by simp
      rw [h, layered, layered, Function.iterate_succ_apply']
      rfl
  | .negSucc n =>
      have h : Int.negSucc n - 1 = Int.negSucc (n + 1) := by omega
      rw [h, layered, layered, Function.iterate_succ_apply', Function.iterate_succ_apply' _ (n + 1),
        Function.iterate_succ_apply' _ n]
      rfl

variable {v w : Variable} {e e' : Expr} {k l : ℤ}

/-- The normal form of an access path depends on the variable and the level alone. -/
theorem Along.normal_eq (h : Along v e k) : e.normal = layered v k := by
  induction h with
  | var => rfl
  | ref _ ih => rw [normal, ih, addressed_layered]
  | deref _ ih => rw [normal, ih, pointed_layered]
  | index hz _ ih => rw [normal, if_pos hz, ih, pointed_layered]

theorem vars_eq_nil_of_isZero (h : e.isZero = true) : e.vars = [] := by
  cases e with
  | value _ _ => rfl
  | _ => cases h

/-- An access path mentions its variable once, and nothing else. -/
theorem Along.vars (h : Along v e k) : e.vars = [v] := by
  induction h with
  | var => rfl
  | ref _ ih => rw [vars_eq, children, List.flatMap_singleton, ih]; rfl
  | deref _ ih => rw [vars_eq, children, List.flatMap_singleton, ih]; rfl
  | index hz _ ih =>
      rw [vars_eq, children, List.flatMap_cons, List.flatMap_singleton, ih, vars_eq_nil_of_isZero hz]
      rfl

theorem Along.level_unique (h : Along v e k) (h' : Along v e l) : k = l := by
  induction h generalizing l with
  | var => cases h'; rfl
  | ref _ ih =>
      cases h' with
      | ref h' => rw [ih h']
  | deref _ ih =>
      cases h' with
      | deref h' => rw [ih h']
  | index _ _ ih =>
      cases h' with
      | index _ h' => rw [ih h']

/-- The expression with another one in the place of a variable. -/
def plug (e : Expr) (v : Variable) (e' : Expr) : Expr :=
  e.replaceNodes fun n => if n.var? = some v then some e' else none

theorem plug_var {i : NodeId} : (var i v).plug v e' = e' := by
  simp [plug, replaceNodes, var?]

theorem plug_ref {i : NodeId} : (ref i e).plug v e' = ref i (e.plug v e') := by
  simp [plug, replaceNodes, var?]

theorem plug_deref {i : NodeId} : (deref i e).plug v e' = deref i (e.plug v e') := by
  simp [plug, replaceNodes, var?]

theorem plug_index {i : NodeId} {position : Expr} (h : position.isZero = true) :
    (index i e position).plug v e' = index i (e.plug v e') position := by
  cases position with
  | value _ _ => simp [plug, replaceNodes, var?]
  | _ => cases h

/-- An access path in the place of the variable of another one. -/
theorem Along.plug (h : Along v e k) (h' : Along w e' l) : Along w (e.plug v e') (k + l) := by
  induction h with
  | var => rwa [plug_var, zero_add]
  | ref _ ih =>
      rw [plug_ref, add_right_comm]
      exact ih.ref
  | deref _ ih =>
      rw [plug_deref, sub_add_eq_add_sub]
      exact ih.deref
  | index hz _ ih =>
      rw [plug_index hz, sub_add_eq_add_sub]
      exact ih.index hz

end Expr

namespace Capture

/-- The capture is an access path over the variable. Where the variable is assigned to, it reads as the
variable and is passed as the address, so there are two levels. -/
inductive Along (v : Variable) : Capture → (reading passing : ℤ) → Prop
  | base {i} : Along v (.base (.var i v)) 0 0
  | ref {c r p} : Along v c r p → Along v (.ref c) (r + 1) (p + 1)
  | assigned {c r p} : Along v c r p → Along v (.assigned c) r (p + 1)
  | deref {c r p} : Along v c r p → Along v (.deref c) (r - 1) (p - 1)
  | index {c position r p} : position.isZero = true → Along v c r p → Along v (.index c position) (r - 1) (p - 1)

variable {v w : Variable} {c d : Capture} {r p r' p' : ℤ}

theorem Along.congr (h : Along v c r p) (hr : r = r') (hp : p = p') : Along v c r' p' := hr ▸ hp ▸ h

theorem Along.toExpr (h : Along v c r p) : Expr.Along v c.toExpr r := by
  induction h with
  | base => exact .var
  | ref _ ih => exact ih.ref
  | assigned _ ih => exact ih
  | deref _ ih => exact ih.deref
  | index hz _ ih => exact ih.index hz

theorem Along.toArgument (h : Along v c r p) : Along v c.toArgument p p := by
  induction h with
  | base => exact .base
  | ref _ ih => exact ih.ref
  | assigned _ ih => exact ih.ref
  | deref _ ih => exact ih.deref
  | index hz _ ih => exact ih.index hz

theorem Along.replace (h : Along v c r p) (h' : Along w d r' p') :
    Along w (c.replace d) (r + r') (p + p') := by
  induction h with
  | base => exact h'.congr (by ring) (by ring)
  | ref _ ih => exact ih.ref.congr (by ring) (by ring)
  | assigned _ ih => exact ih.assigned.congr rfl (by ring)
  | deref _ ih => exact ih.deref.congr (by ring) (by ring)
  | index hz _ ih => exact (ih.index hz).congr (by ring) (by ring)

theorem Along.addressOf (h : Along v c r p) : Along v c.addressOf (r + 1) (p + 1) := by
  cases h with
  | deref h => simpa [Capture.addressOf] using h
  | base => exact Along.base.ref
  | ref h => exact h.ref.ref
  | assigned h => exact h.assigned.ref
  | index hz h => exact (h.index hz).ref

theorem Along.target (h : Along v c r p) : Along v c.target (r - 1) (p - 1) := by
  cases h with
  | ref h => simpa [Capture.target] using h
  | base => exact Along.base.deref
  | deref h => exact h.deref.deref
  | assigned h => exact h.assigned.deref
  | index hz h => exact (h.index hz).deref

theorem Along.simplify (h : Along v c r p) : Along v c.simplify r p := by
  induction h with
  | base => exact .base
  | ref _ ih => exact ih.addressOf
  | assigned _ ih => exact ih.assigned
  | deref _ ih => exact ih.target
  | index hz _ ih => exact ih.index hz

theorem Along.invertOnto (h : Along v c r p) (h' : Along w d r' p') :
    Along w (c.invertOnto d) (r' - p) (p' - p) := by
  induction h generalizing d r' p' with
  | base => exact h'.congr (by ring) (by ring)
  | ref _ ih => exact (ih h'.deref).congr (by ring) (by ring)
  | assigned _ ih => exact (ih h'.deref).congr (by ring) (by ring)
  | deref _ ih => exact (ih h'.ref).congr (by ring) (by ring)
  | index hz _ ih => exact (ih h'.ref).congr (by ring) (by ring)

theorem Along.invert (h : Along v c r p) (i : NodeId) : Along w (c.invert (.var i w)) (-p) (-p) :=
  (h.invertOnto .base).congr (by ring) (by ring)

/-- The capture is an access path over the variable, of whatever levels. -/
def Over (v : Variable) (c : Capture) : Prop := ∃ r p, Along v c r p

theorem over_ref : Over v (.ref c) ↔ Over v c :=
  ⟨fun ⟨_, _, h⟩ => by cases h with | ref h => exact ⟨_, _, h⟩, fun ⟨_, _, h⟩ => ⟨_, _, h.ref⟩⟩

theorem over_assigned : Over v (.assigned c) ↔ Over v c :=
  ⟨fun ⟨_, _, h⟩ => by cases h with | assigned h => exact ⟨_, _, h⟩, fun ⟨_, _, h⟩ => ⟨_, _, h.assigned⟩⟩

theorem over_deref : Over v (.deref c) ↔ Over v c :=
  ⟨fun ⟨_, _, h⟩ => by cases h with | deref h => exact ⟨_, _, h⟩, fun ⟨_, _, h⟩ => ⟨_, _, h.deref⟩⟩

theorem over_index {position : Expr} : Over v (.index c position) ↔ position.isZero = true ∧ Over v c :=
  ⟨fun ⟨_, _, h⟩ => by cases h with | index hz h => exact ⟨hz, _, _, h⟩,
    fun ⟨hz, _, _, h⟩ => ⟨_, _, h.index hz⟩⟩

theorem Over.absorb {inner joined : Capture} (hc : Over v c) (hj : Over v joined) :
    Over v (absorb c inner joined) := by
  unfold Capture.absorb
  split
  · exact hc
  · exact hj

/-- The join of two access paths over a variable is one again. -/
theorem Over.join (hc : Over v c) (hd : Over v d) : Over v (c.join d) := by
  fun_induction Capture.join c d with
  | case1 a b ih => exact over_ref.2 (ih (over_ref.1 hc) (over_ref.1 hd))
  | case2 a b ih => exact over_assigned.2 (ih (over_ref.1 hc) (over_assigned.1 hd))
  | case3 a b ih => exact over_assigned.2 (ih (over_assigned.1 hc) (over_ref.1 hd))
  | case4 a b ih => exact over_assigned.2 (ih (over_assigned.1 hc) (over_assigned.1 hd))
  | case5 a d _ _ ih => exact hc.absorb (ih (over_ref.1 hc) hd)
  | case6 a d _ _ ih => exact hc.absorb (ih (over_assigned.1 hc) hd)
  | case7 c b _ _ ih => exact hd.absorb (ih (over_ref.1 hd) hc)
  | case8 c b _ _ ih => exact hd.absorb (ih (over_assigned.1 hd) hc)
  | case9 => exact hc
  | case10 => exact hd
  | case11 a b ih => exact over_deref.2 (ih (over_deref.1 hc) (over_deref.1 hd))
  | case12 a i b j _ ih =>
      exact over_index.2 ⟨(over_index.1 hc).1, ih (over_index.1 hc).2 (over_index.1 hd).2⟩
  | case13 a i b j _ ih => exact ih (over_index.1 hc).2 (over_index.1 hd).2
  | case14 a b _ ih => exact ih (over_deref.1 hc) (over_index.1 hd).2
  | case15 a _ b ih => exact ih (over_index.1 hc).2 (over_deref.1 hd)

end Capture

namespace Expr

variable {e : Expr} {key : Option ChunkId × String} {c : Capture}

/-- What is captured of an expression is an access path, and the whole of it. -/
theorem along_of_capture? (h : e.capture? key = some c) :
    ∃ v k, v.key = key ∧ Along v e k ∧ c.Along v k k := by
  fun_induction capture? key e generalizing c with
  | case1 i v hk =>
      cases h
      exact ⟨v, 0, hk, .var, .base⟩
  | case2 => cases h
  | case3 i target ih =>
      obtain ⟨c, hc, rfl⟩ := Option.map_eq_some_iff.1 h
      obtain ⟨v, k, hk, he, hc⟩ := ih hc
      exact ⟨v, k + 1, hk, he.ref, hc.ref⟩
  | case4 i target ih =>
      obtain ⟨c, hc, rfl⟩ := Option.map_eq_some_iff.1 h
      obtain ⟨v, k, hk, he, hc⟩ := ih hc
      exact ⟨v, k - 1, hk, he.deref, hc.deref⟩
  | case5 i target position hz ih =>
      obtain ⟨c, hc, rfl⟩ := Option.map_eq_some_iff.1 h
      obtain ⟨v, k, hk, he, hc⟩ := ih hc
      exact ⟨v, k - 1, hk, he.index hz, hc.index hz⟩
  | case6 => cases h
  | case7 => cases h

/-- A usage is an access path in the expression, the whole of which it captures. -/
theorem exists_node_of_usages {u : Usage} (h : u ∈ e.usages key) :
    ∃ n ∈ e.nodes, n.id = u.origin ∧ n.capture? key = some u.capture := by
  induction e using parts_induction with
  | step e ih =>
      rw [usages_eq, usageOr] at h
      split at h
      · next c hc =>
        obtain rfl := List.mem_singleton.1 h
        exact ⟨e, mem_nodes_self e, rfl, hc⟩
      · obtain ⟨child, hchild, h⟩ := List.mem_flatMap.1 h
        obtain ⟨n, hn, hid, hc⟩ := ih child hchild h
        exact ⟨n, mem_nodes_iff.2 (Or.inr ⟨child, hchild, hn⟩), hid, hc⟩

theorem exists_capture?_of_along {v : Variable} {k : ℤ} (h : Along v e k) : ∃ c, e.capture? v.key = some c := by
  induction h with
  | var => exact ⟨_, if_pos rfl⟩
  | ref _ ih =>
      obtain ⟨c, hc⟩ := ih
      exact ⟨_, by rw [capture?, hc, Option.map_some]⟩
  | deref _ ih =>
      obtain ⟨c, hc⟩ := ih
      exact ⟨_, by rw [capture?, hc, Option.map_some]⟩
  | index hz _ ih =>
      obtain ⟨c, hc⟩ := ih
      exact ⟨_, by rw [capture?, if_pos hz, hc, Option.map_some]⟩

end Expr

/-- Assigned to is the variable itself; all other usages are in parts of the expression. -/
theorem Expr.mem_usagesAssigned {e : Expr} {key : Option ChunkId × String} {u : Usage}
    (h : u ∈ e.usagesAssigned key) :
    (∃ i v, e = .var i v ∧ v.key = key ∧ u = ⟨i, .assigned (.base e)⟩) ∨ ∃ c ∈ e.children, u ∈ c.usages key := by
  unfold usagesAssigned at h
  split at h
  · next i v =>
    split at h
    · next hk => exact Or.inl ⟨i, v, rfl, hk, List.mem_singleton.1 h⟩
    · cases h
  · rw [usagesOfAll_eq] at h
    exact Or.inr (List.mem_flatMap.1 h)

/-- A usage is the capture of a node, or the variable itself where it is assigned to. -/
theorem Operand.usages_cases {o : Operand} {key : Option ChunkId × String} {u : Usage} (h : u ∈ o.usages key) :
    (∃ n ∈ o.expr.nodes, n.id = u.origin ∧ n.capture? key = some u.capture) ∨
      ∃ i v, v.key = key ∧ o.expr = .var i v ∧ u = ⟨i, .assigned (.base (.var i v))⟩ := by
  unfold Operand.usages at h
  split at h
  · rcases Expr.mem_usagesAssigned h with ⟨i, v, he, hk, rfl⟩ | ⟨c, hc, h⟩
    · exact Or.inr ⟨i, v, hk, he, by rw [he]⟩
    · obtain ⟨n, hn, hrest⟩ := c.exists_node_of_usages h
      exact Or.inl ⟨n, Expr.mem_nodes_iff.2 (Or.inr ⟨c, hc, hn⟩), hrest⟩
  · exact Or.inl (o.expr.exists_node_of_usages h)

/-- A usage is an access path in the expression that it belongs to. -/
theorem Operand.exists_node_of_usages {o : Operand} {key : Option ChunkId × String} {u : Usage}
    (h : u ∈ o.usages key) : ∃ n ∈ o.expr.nodes, n.id = u.origin ∧
      ∃ v k p, v.key = key ∧ n.Along v k ∧ u.capture.Along v k p := by
  rcases usages_cases h with ⟨n, hn, hid, hc⟩ | ⟨i, v, hk, he, rfl⟩
  · obtain ⟨v, k, hk, he, hc⟩ := Expr.along_of_capture? hc
    exact ⟨n, hn, hid, v, k, k, hk, he, hc⟩
  · rw [he]
    exact ⟨_, Expr.mem_nodes_self _, rfl, v, 0, 0 + 1, hk, .var, .assigned .base⟩

end Diversity
