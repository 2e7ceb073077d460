import Diversity.Proofs.Addresses
import Diversity.Proofs.Consistency
import Diversity.Proofs.Execution
/-! What callers read for a function. Where they dereference a variable to pass it, the function and all below it
dereference it wherever they use it. They need not evaluate it in each run, though. -/
namespace Diversity

universe u

namespace Capture

variable {v : Variable} {c d a : Capture} {r p : ℤ}

/-- The level of what is passed, if an address is taken outermost only. -/
def rise (c : Capture) : ℤ := (if c.pointee?.isSome then 1 else 0) - c.hops

theorem rise_of_none (h : c.pointee? = none) : c.rise = -c.hops := by
  rw [rise, h]
  exact zero_sub _

theorem rise_of_some (h : c.pointee? = some a) : c.rise = 1 - a.hops := by
  have hops_eq : c.hops = a.hops := by cases c <;> cases h <;> rfl
  rw [rise, h, hops_eq]
  rfl

theorem Along.of_plain (h : Along v c r p) (hc : c.plain = true) : r = -c.hops ∧ p = -c.hops := by
  induction h with
  | base => exact ⟨rfl, rfl⟩
  | ref | assigned => cases hc
  | deref _ ih | index _ _ ih =>
      obtain ⟨hr, hp⟩ := ih hc
      rw [hops]
      push_cast
      exact ⟨by omega, by omega⟩

theorem Along.of_outermost (h : Along v c r p) (hc : c.outermost = true) : p = c.rise ∧ r ≤ p := by
  have hplain (h : Along v c r p) (hc : c.plain = true) (hnone : c.pointee? = none) : p = c.rise ∧ r ≤ p := by
    obtain ⟨hr, hp⟩ := h.of_plain hc
    rw [rise_of_none hnone]
    exact ⟨hp, by omega⟩
  cases h with
  | base => exact hplain .base hc rfl
  | ref h | assigned h =>
      obtain ⟨hr, hp⟩ := h.of_plain hc
      rw [rise_of_some rfl]
      exact ⟨by omega, by omega⟩
  | deref h => exact hplain h.deref hc rfl
  | index hz h => exact hplain (h.index hz) hc rfl

/-- A join of paths without addresses that is not the left one goes through less. -/
theorem hops_join_lt (hc : Over v c) (hcp : c.plain = true) (hdp : d.plain = true)
    (h : (c.join d).sameShape c = false) : (c.join d).hops < c.hops := by
  fun_induction Capture.join c d with
  | case1 | case2 | case3 | case4 | case5 | case6 => cases hcp
  | case7 | case8 => cases hdp
  | case9 e =>
      obtain ⟨_, _, hc⟩ := hc
      cases hc
      simp [sameShape, Expr.sameShape] at h
  | case10 c e _ _ hbase =>
      cases c with
      | base e => exact absurd rfl (hbase e)
      | ref _ | assigned _ => cases hcp
      | deref _ | index _ _ => exact Nat.succ_pos _
  | case11 a b ih => exact Nat.succ_lt_succ (ih (over_deref.1 hc) hcp hdp h)
  | case12 a i b j hij ih =>
      obtain ⟨_, _, hc⟩ := hc
      cases hc with
      | index hz hc =>
          have hi : i.sameShape i = true := by
            cases i with
            | value _ _ => simp [Expr.sameShape]
            | _ => cases hz
          rw [sameShape, hi, Bool.true_and] at h
          exact Nat.succ_lt_succ (ih ⟨_, _, hc⟩ hcp hdp h)
  | case13 a i b j _ ih | case14 a b _ ih | case15 a _ b ih => exact Nat.lt_succ_of_le (hops_join_le a b).1

/-- If addresses are taken outermost only, a join passes no lower a level than either side. -/
theorem rise_le_join (hc : Over v c) (hd : Over v d) (hco : c.outermost = true) (hdo : d.outermost = true) :
    c.rise ≤ (c.join d).rise ∧ d.rise ≤ (c.join d).rise := by
  have habsorb {c d a : Capture} (hpc : c.pointee? = some a) (hpd : d.pointee? = none) (hc : Over v c)
      (hco : c.outermost = true) (hdo : d.outermost = true) :
      c.rise ≤ (c.join d).rise ∧ d.rise ≤ (c.join d).rise := by
    rw [outermost, hpc, Option.getD_some] at hco
    rw [outermost, hpd, Option.getD_none] at hdo
    obtain ⟨hle, hle'⟩ := hops_join_le a d
    rw [join_of_pointee? hpc hpd, absorb, rise_of_some hpc, rise_of_none hpd]
    split
    · next hsame =>
      rw [rise_of_some hpc]
      have := hops_of_sameShape hsame
      exact ⟨by omega, by omega⟩
    · next hsame =>
      have hlt := hops_join_lt ((over_of_pointee? hpc).1 hc) hco hdo (Bool.eq_false_iff.2 hsame)
      rw [rise_of_none (tidy_of_plain (plain_join hco hdo)).2]
      exact ⟨by omega, by omega⟩
  obtain ⟨hle, hle'⟩ := hops_join_le c d
  cases hpc : c.pointee? with
  | none =>
      cases hpd : d.pointee? with
      | none =>
          rw [outermost, hpc, Option.getD_none] at hco
          rw [outermost, hpd, Option.getD_none] at hdo
          rw [rise_of_none hpc, rise_of_none hpd, rise_of_none (tidy_of_plain (plain_join hco hdo)).2]
          exact ⟨by omega, by omega⟩
      | some b =>
          rw [join_comm_of_pointee? hpc hpd]
          exact (habsorb hpd hpc hd hdo hco).symm
  | some a =>
      cases hpd : d.pointee? with
      | none => exact habsorb hpc hpd hc hco hdo
      | some b =>
          obtain ⟨hle, hle'⟩ := hops_join_le a b
          rw [rise_of_some hpc, rise_of_some hpd, rise_of_some (pointee?_join hpc hpd)]
          exact ⟨by omega, by omega⟩

theorem rise_le_foldl_join {us : List Usage} (hc : Over v c) (hco : c.outermost = true)
    (hus : ∀ u ∈ us, Over v u.capture ∧ u.capture.outermost = true) :
    c.rise ≤ (us.foldl (fun c u => c.join u.capture) c).rise ∧
      ∀ u ∈ us, u.capture.rise ≤ (us.foldl (fun c u => c.join u.capture) c).rise := by
  induction us generalizing c with
  | nil => exact ⟨le_refl _, List.forall_mem_nil _⟩
  | cons u us ih =>
      obtain ⟨⟨hu, huo⟩, hus⟩ := List.forall_mem_cons.1 hus
      obtain ⟨hjc, hju⟩ := rise_le_join hc hu hco huo
      obtain ⟨hle, hall⟩ := ih (hc.join hu) (outermost_join hco huo) hus
      exact ⟨hjc.trans hle, List.forall_mem_cons.2 ⟨hju.trans hle, hall⟩⟩

theorem rise_le_of_joinUsages {name block : String} {us : List Usage} (h : joinUsages name block us = .ok c)
    (hus : ∀ u ∈ us, Over v u.capture ∧ u.capture.outermost = true) {u : Usage} (hu : u ∈ us) :
    u.capture.rise ≤ c.rise := by
  obtain ⟨first, rest, rfl, rfl⟩ := joinUsages_eq_ok h
  obtain ⟨⟨hfirst, hout⟩, hrest⟩ := List.forall_mem_cons.1 hus
  obtain ⟨hle, hall⟩ := rise_le_foldl_join hfirst hout hrest
  rcases List.mem_cons.1 hu with rfl | hu
  · exact hle
  · exact hall u hu

end Capture

/-! ## What every run evaluates -/

namespace Expr

/-- Operators of which every operand is evaluated, if there are several. -/
def eagerOperators : List String :=
  ["*", "/", "%", "+", "-", "<<", ">>", "<", ">", "<=", ">=", "==", "!=", "&", "^", "|", ","]

/-- The operands that an operation evaluates for sure. The others of a conjunction or disjunction depend on the first
one, and what is assigned to is not evaluated. -/
def demandedOperands (symbol : String) : List Expr → List Expr
  | [] => []
  | [operand] => if symbol ∈ ["!", "~", "-", "+"] then [operand] else []
  | first :: rest =>
    if symbol ∈ ["&&", "||"] then [first]
    else if symbol ∈ eagerOperators then first :: rest
    else []

/-- The parts that are evaluated whenever the node is. Neither an address nor a size needs the value of its part. -/
def demandedParts : Expr → List Expr
  | .var _ _ | .value _ _ | .ref _ _ | .sizeofExpr _ _ | .sizeofType _ _ => []
  | .deref _ target | .cast _ target _ => [target]
  | .index _ target position => [target, position]
  | .call _ target args => target :: args
  | .op _ symbol operands => demandedOperands symbol operands

/-- Whenever the expression is evaluated, so is this node of it. -/
inductive Demands : Expr → Expr → Prop
  | self {e} : Demands e e
  | part {e c x} : c ∈ e.demandedParts → Demands c x → Demands e x

variable {e : Expr} {v : Variable} {i : NodeId}

theorem demandedOperands_subset (symbol : String) (operands : List Expr) :
    demandedOperands symbol operands ⊆ operands := by
  unfold demandedOperands
  split
  · exact List.Subset.refl _
  · split
    · exact List.Subset.refl _
    · exact List.nil_subset _
  · split
    · exact List.cons_subset_cons _ (List.nil_subset _)
    · split
      · exact List.Subset.refl _
      · exact List.nil_subset _

theorem demandedParts_subset (e : Expr) : e.demandedParts ⊆ e.children := by
  cases e with
  | var | value | sizeofType | deref | cast | index | call => exact List.Subset.refl _
  | ref | sizeofExpr => exact List.nil_subset _
  | op i symbol operands => exact demandedOperands_subset symbol operands

/-- If a variable is evaluated, so is the access path that it stands in. -/
theorem Demands.exists_usage (h : e.Demands (.var i v)) :
    ∃ x c, e.Demands x ∧ x.capture? v.key = some c ∧ ⟨x.id, c⟩ ∈ e.usages v.key := by
  generalize hx : Expr.var i v = x at h
  induction h with
  | self =>
      subst hx
      have hc : (Expr.var i v).capture? v.key = some (.base (.var i v)) := if_pos rfl
      refine ⟨_, _, .self, hc, ?_⟩
      rw [usages_eq, usageOr, hc]
      exact List.mem_singleton.2 rfl
  | @part e c x hpart _ ih =>
      rw [usages_eq, usageOr]
      cases hc : e.capture? v.key with
      | some m => exact ⟨e, m, .self, hc, List.mem_singleton.2 rfl⟩
      | none =>
          obtain ⟨x, m, hx, hm, hu⟩ := ih hx
          exact ⟨x, m, .part hpart hx, hm, List.mem_flatMap.2 ⟨c, demandedParts_subset e hpart, hu⟩⟩

end Expr

namespace Operand

/-- Whenever the operand is evaluated, so is this node of it. A target itself is not. -/
def Demands (o : Operand) (x : Expr) : Prop :=
  if o.isTarget then ∃ c ∈ o.expr.demandedParts, c.Demands x else o.expr.Demands x

/-- Whenever the operand is evaluated, the variable is dereferenced that often, or more often. -/
def Dereferences (o : Operand) (v : Variable) (n : ℕ) : Prop :=
  ∃ x, o.Demands x ∧ ∃ j : ℕ, x.normal = (Expr.deref .unnumbered)^[n + j] (.var .unnumbered v)

theorem Demands.exists_usage {o : Operand} {i : NodeId} {v : Variable} (h : o.Demands (.var i v)) :
    ∃ x c, o.Demands x ∧ x.capture? v.key = some c ∧ ⟨x.id, c⟩ ∈ o.usages v.key := by
  obtain ⟨e, isTarget⟩ := o
  cases isTarget with
  | false => exact Expr.Demands.exists_usage h
  | true =>
      obtain ⟨part, hpart, h⟩ := h
      obtain ⟨x, c, hx, hc, hu⟩ := h.exists_usage
      refine ⟨x, c, ⟨part, hpart, hx⟩, hc, ?_⟩
      have hmem : ⟨x.id, c⟩ ∈ Expr.usagesOfAll v.key e.children := by
        rw [Expr.usagesOfAll_eq]
        exact List.mem_flatMap.2 ⟨part, Expr.demandedParts_subset e hpart, hu⟩
      cases e with
      | var => cases hpart
      | _ => exact hmem

end Operand

namespace Stmt

/-- The operands that a run of the statement evaluates before it branches. -/
def ahead : Stmt → List Operand
  | .assign _ target value => [⟨target, true⟩, ⟨value, false⟩]
  | .choice _ (.mk (some condition) _ :: _) => [⟨condition, false⟩]
  | .loop _ condition _ => [⟨condition, false⟩]
  | .expr _ e => [⟨e, false⟩]
  | _ => []

/-- Whenever the statements run, the operand is evaluated: it stands outside the branches of choices, their
later conditions and the bodies of loops, here or in a block that is called at such a place. -/
inductive Evaluates (bs : BlockSet) : List Stmt → Operand → Prop
  | head {x rest o} : o ∈ x.ahead → Evaluates bs (x :: rest) o
  | group {i body rest o} : Evaluates bs body o → Evaluates bs (.group i body :: rest) o
  | call {i callee b rest o} : bs.resolve callee = .ok b → Evaluates bs b.statements o →
      Evaluates bs (.call i callee :: rest) o
  | later {x rest o} : Evaluates bs rest o → Evaluates bs (x :: rest) o

variable {bs : BlockSet} {body : List Stmt} {o : Operand}

theorem ahead_subset (x : Stmt) : x.ahead ⊆ x.operands := by
  unfold ahead
  split <;> simp [operands, operandsOfBranches, operandsOfBranch]

/-- What every run evaluates stands in a block that calls lead to. -/
theorem Evaluates.exists_walk (h : Evaluates bs body o) {b : Block}
    (ho : operandsOfAll body ⊆ operandsOfAll b.statements) (hc : calls body ⊆ b.calls) :
    ∃ path c, Walk bs b path c ∧ o ∈ operandsOfAll c.statements := by
  induction h generalizing b with
  | @head x rest o hmem => exact ⟨[], b, .nil, ho (List.mem_append_left _ (ahead_subset x hmem))⟩
  | group _ ih =>
      refine ih (fun o hmem => ho ?_) fun c hmem => hc ?_
      · exact List.mem_append_left _ hmem
      · rw [calls_group]
        exact List.mem_append_left _ hmem
  | @call i callee b' rest o hres _ ih =>
      obtain ⟨path, c, hwalk, ho⟩ := ih (List.Subset.refl _) (List.Subset.refl _)
      have hcall : (i, callee) ∈ calls (.call i callee :: rest) := by
        rw [calls_call]
        exact List.mem_cons_self
      exact ⟨_, c, .cons (hc hcall) hres hwalk, ho⟩
  | later _ ih =>
      refine ih (fun o hmem => ho ?_) fun c hmem => hc ?_
      · exact List.mem_append_right _ hmem
      · rw [calls, nodesOfAll, List.filterMap_append]
        exact List.mem_append_right _ hmem

def isCallOrGroup : Stmt → Bool
  | .call _ _ | .group _ _ => true
  | _ => false

theorem evaluates_iff_of_flat (hflat : ∀ x ∈ body, x.isCallOrGroup = false) :
    Evaluates bs body o ↔ o ∈ body.flatMap ahead := by
  induction body with
  | nil =>
      refine ⟨fun h => ?_, fun h => ?_⟩
      · cases h
      · cases h
  | cons x body ih =>
      obtain ⟨hx, hbody⟩ := List.forall_mem_cons.1 hflat
      rw [List.flatMap_cons, List.mem_append, ← ih hbody]
      refine ⟨fun h => ?_, fun h => h.elim .head .later⟩
      cases h with
      | head h => exact .inl h
      | later h => exact .inr h
      | group | call => cases hx

end Stmt

/-- The property notes that such an operand has been evaluated, and stays. -/
structure Meaning.Notes {S : Type u} (M : Meaning S) (Q : S → Prop) (E : Operand → Prop) : Prop where
  assign {target value s t} : M.assign target value s t → Q s ∨ E ⟨target, true⟩ ∨ E ⟨value, false⟩ → Q t
  expr {e s t} : M.expr e s t → Q s ∨ E ⟨e, false⟩ → Q t
  test {e b s t} : M.test e b s t → Q s ∨ E ⟨e, false⟩ → Q t

namespace Stmt

variable {S : Type u} {M : Meaning S} {Q : S → Prop} {E : Operand → Prop} {bs : BlockSet} {body : List Stmt} {s t : S}

mutual

theorem Runs.notes_kept {body : List Stmt} {s t : S} (hM : M.Notes Q E) (h : Runs M bs body s t) (hs : Q s) : Q t := by
  match h with
  | .nil => exact hs
  | .assign h₁ h => exact h.notes_kept hM (hM.assign h₁ (.inl hs))
  | .call _ h₁ h => exact h.notes_kept hM (h₁.notes_kept hM hs)
  | .choice h₁ h => exact h.notes_kept hM (h₁.notes_kept hM hs)
  | .again h₁ h₂ h => exact h.notes_kept hM (h₂.notes_kept hM (hM.test h₁ (.inl hs)))
  | .leave h₁ h => exact h.notes_kept hM (hM.test h₁ (.inl hs))
  | .expr h₁ h => exact h.notes_kept hM (hM.expr h₁ (.inl hs))
  | .group h₁ h => exact h.notes_kept hM (h₁.notes_kept hM hs)

theorem RunsBranches.notes_kept {branches : List Branch} {s t : S} (hM : M.Notes Q E)
    (h : RunsBranches M bs branches s t) (hs : Q s) : Q t := by
  match h with
  | .done => exact hs
  | .otherwise h => exact h.notes_kept hM hs
  | .taken h₁ h => exact h.notes_kept hM (hM.test h₁ (.inl hs))
  | .skipped h₁ h => exact h.notes_kept hM (hM.test h₁ (.inl hs))

end

/-- Every run notes what it evaluates for sure. -/
theorem Runs.notes (hM : M.Notes Q E) {o : Operand} (ho : Evaluates bs body o) (hE : E o)
    (h : Runs M bs body s t) : Q t := by
  induction ho generalizing s t with
  | @head x rest o hmem =>
      cases h with
      | call | group => cases hmem
      | assign h₁ h =>
          refine h.notes_kept hM (hM.assign h₁ (.inr ?_))
          simp only [ahead, List.mem_cons, List.not_mem_nil, or_false] at hmem
          rcases hmem with rfl | rfl
          · exact .inl hE
          · exact .inr hE
      | choice h₁ h =>
          refine h.notes_kept hM ?_
          cases h₁ with
          | done | otherwise => cases hmem
          | taken ht h₁ =>
              cases List.mem_singleton.1 hmem
              exact h₁.notes_kept hM (hM.test ht (.inr hE))
          | skipped ht h₁ =>
              cases List.mem_singleton.1 hmem
              exact h₁.notes_kept hM (hM.test ht (.inr hE))
      | again ht h₁ h =>
          cases List.mem_singleton.1 hmem
          exact h.notes_kept hM (h₁.notes_kept hM (hM.test ht (.inr hE)))
      | leave ht h =>
          cases List.mem_singleton.1 hmem
          exact h.notes_kept hM (hM.test ht (.inr hE))
      | expr h₁ h =>
          cases List.mem_singleton.1 hmem
          exact h.notes_kept hM (hM.expr h₁ (.inr hE))
  | group _ ih =>
      cases h with
      | group h₁ h => exact h.notes_kept hM (ih hE h₁)
  | call hres _ ih =>
      cases h with
      | call hf h₁ h =>
          obtain rfl := Option.some.inj (hf.symm.trans (BlockSet.find?_of_resolve hres))
          exact h.notes_kept hM (ih hE h₁)
  | later _ ih =>
      obtain ⟨_, -, h⟩ := h.head rfl
      exact ih hE h

end Stmt

/-! ## What callers dereference -/

namespace Expr

theorem along_layered (v : Variable) (k : ℤ) : (layered v k).Along v k := by
  cases k with
  | ofNat n =>
      rw [layered]
      induction n with
      | zero => exact .var
      | succ n ih =>
          rw [Function.iterate_succ_apply']
          exact ih.ref
  | negSucc n =>
      rw [layered]
      induction n with
      | zero => exact .deref .var
      | succ n ih =>
          rw [Function.iterate_succ_apply']
          exact ih.deref

theorem layered_inj {v w : Variable} {k l : ℤ} (h : layered v k = layered w l) : v = w ∧ k = l := by
  have hv := along_layered v k
  have hw := along_layered w l
  rw [h] at hv
  obtain rfl := List.singleton_injective (hv.vars.symm.trans hw.vars)
  exact ⟨rfl, hv.level_unique hw⟩

theorem Along.exists_normal_eq {e : Expr} {v : Variable} {k : ℤ} {n : ℕ} (h : e.Along v k) (hk : k ≤ -n) :
    ∃ j : ℕ, e.normal = (Expr.deref .unnumbered)^[n + j] (.var .unnumbered v) := by
  obtain ⟨j, hj⟩ := Int.eq_ofNat_of_zero_le (sub_nonneg.2 hk)
  refine ⟨j, ?_⟩
  rw [h.normal_eq, ← layered_neg]
  congr 1
  push_cast
  omega

end Expr

namespace Graph.Prepared

variable {g : Graph} {bs : BlockSet} {p : Placement} {t : Trace} {ps : Parameters} {b c : Block} {v : Variable}
  {q : Parameter} {path : CallPath}

/-- A variable for which a function has a parameter occurs in the function or below it. -/
theorem exists_occurrence (h : g.Prepared bs p t ps) (hb : b ∈ bs.toList) (hq : q.Lifts bs p t b v) :
    ∃ path c, Walk bs b path c ∧ v ∈ c.vars := by
  obtain ⟨us, type, hus, hjoin, -, -⟩ := Block.lift_eq_ok hq.lift
  obtain ⟨u, rest, rfl, -⟩ := Capture.joinUsages_eq_ok hjoin
  obtain ⟨path, c, hwalk, -, hu⟩ := (Block.mem_usagesBelow hus).1 List.mem_cons_self
  have hc := BlockSet.mem_of_find? (hwalk.find? (BlockSet.find?_name h.placed.names hb))
  obtain ⟨o, x, _, _, ⟨ho, hx⟩, -, -, hxv, -⟩ := h.along_of_usage hq.needed hc hu
  exact ⟨path, c, hwalk, Stmt.mem_vars_iff.2 ⟨o, ho, Expr.vars_subset hx (hxv.vars ▸ List.mem_singleton.2 rfl)⟩⟩

/-- If addresses are taken outermost only, a usage in a function or below it reads at no higher a level than what
callers pass. -/
theorem reading_le_maximal (h : g.Prepared bs p t ps) (hb : b ∈ bs.toList) (hq : q.Lifts bs p t b v)
    (hout : ∀ path c, Walk bs b path c → ∀ u ∈ c.usages v.key, u.capture.outermost = true)
    (hwalk : Walk bs b path c) {u : Usage} (hu : u ∈ c.usages v.key) {reading passing r m : ℤ}
    (hur : u.capture.Along v reading passing) (hm : q.lifted.maximal.Along v r m) : reading ≤ m := by
  have hmax := outermost_maximal hq hout
  obtain ⟨us, type, hus, hjoin, -, -⟩ := Block.lift_eq_ok hq.lift
  obtain ⟨path', hwalk', hfresh⟩ := hwalk.exists_fresh (BlockSet.find?_name h.placed.names hb)
  have hmem : u ∈ us := (Block.mem_usagesBelow hus).2 ⟨path', c, hwalk', hfresh, hu⟩
  have hle : u.capture.rise ≤ q.lifted.maximal.rise := by
    refine Capture.rise_le_of_joinUsages (v := v) hjoin (fun u hu => ?_) hmem
    obtain ⟨path, c, hwalk, -, hu'⟩ := (Block.mem_usagesBelow hus).1 hu
    exact ⟨h.over_of_usagesBelow hb hq.needed hus hu, hout path c hwalk u hu'⟩
  obtain ⟨hpassing, hreading⟩ := hur.of_outermost (hout path c hwalk u hu)
  obtain ⟨rfl, -⟩ := hm.of_outermost hmax
  omega

/-- So every usage dereferences the variable as often as callers do. -/
theorem exists_normal_of_usage (h : g.Prepared bs p t ps) (hb : b ∈ bs.toList) (hq : q.Lifts bs p t b v)
    (hout : ∀ path c, Walk bs b path c → ∀ u ∈ c.usages v.key, u.capture.outermost = true)
    (hwalk : Walk bs b path c) {u : Usage} (hu : u ∈ c.usages v.key) {r : ℤ} {n : ℕ}
    (hm : q.lifted.maximal.Along v r (-n)) : ∃ o x, c.Holds o x ∧ x.id = u.origin ∧
      ∃ j : ℕ, x.normal = (Expr.deref .unnumbered)^[n + j] (.var .unnumbered v) := by
  have hc := BlockSet.mem_of_find? (hwalk.find? (BlockSet.find?_name h.placed.names hb))
  obtain ⟨o, x, k, _, hx, -, hid, hxv, huv⟩ := h.along_of_usage hq.needed hc hu
  exact ⟨o, x, hx, hid, hxv.exists_normal_eq (h.reading_le_maximal hb hq hout hwalk hu huv hm)⟩

theorem dereferences_of_demands (h : g.Prepared bs p t ps) (hb : b ∈ bs.toList) (hq : q.Lifts bs p t b v)
    (hout : ∀ path c, Walk bs b path c → ∀ u ∈ c.usages v.key, u.capture.outermost = true)
    (hwalk : Walk bs b path c) {o : Operand} (ho : o ∈ Stmt.operandsOfAll c.statements) {i : NodeId}
    (hv : o.Demands (.var i v)) {r : ℤ} {n : ℕ} (hm : q.lifted.maximal.Along v r (-n)) : o.Dereferences v n := by
  obtain ⟨x, m, hx, hcapture, hu⟩ := hv.exists_usage
  have huc : ⟨x.id, m⟩ ∈ c.usages v.key := by
    rw [Block.usages, Stmt.usagesOfAll_eq]
    exact List.mem_flatMap.2 ⟨o, ho, hu⟩
  have hc := BlockSet.mem_of_find? (hwalk.find? (BlockSet.find?_name h.placed.names hb))
  obtain ⟨_, _, k, _, -, -, -, -, hmv⟩ := h.along_of_usage hq.needed hc huc
  obtain ⟨w, k', -, hxw, hmw⟩ := Expr.along_of_capture? hcapture
  obtain rfl := List.singleton_injective (hmw.toExpr.vars.symm.trans hmv.toExpr.vars)
  exact ⟨x, hx, hxw.exists_normal_eq (h.reading_le_maximal hb hq hout hwalk huc hmw hm)⟩

end Graph.Prepared

/-- Where callers dereference a variable to pass it to a function, the variable occurs in the function or below it,
and each time behind as many dereferences or positions. If addresses of it are taken outermost only, each access to it
dereferences it that often. So if it is evaluated where every run of the function comes by, every run of the function
dereferences it as well. -/
theorem LowersTo.dereferenced_wherever_used {d : Description} {p : Placement} {g : Graph} {bs : BlockSet}
    {P : Program} (h : LowersTo d p g bs P) {root : Block} (hroot : bs.get g.entry = .ok root) {t : Trace}
    (ht : Trace.ofBlock bs root true = .ok t) {ps : Parameters} (hps : t.parameters bs p = .ok ps)
    {f : String} {q : Parameter} (hq : q ∈ ps.of f) {b : Block} (hb : bs.find? f = some b) {v : Variable} {n : ℕ}
    (hmax : q.lifted.maximal.toArgument.toExpr.normal = (Expr.deref .unnumbered)^[n + 1] (.var .unnumbered v)) :
    (∃ path c, Walk bs b path c ∧ v ∈ c.vars) ∧
    (∀ path c, Walk bs b path c → ∀ u ∈ c.usages q.key, n + 1 ≤ u.capture.hops) ∧
    ((∀ path c, Walk bs b path c → ∀ u ∈ c.usages q.key, u.capture.outermost = true) →
      (∀ path c, Walk bs b path c → ∀ u ∈ c.usages q.key, ∃ o x, c.Holds o x ∧ x.id = u.origin ∧
        ∃ j : ℕ, x.normal = (Expr.deref .unnumbered)^[n + 1 + j] (.var .unnumbered v)) ∧
      ∀ o i, Stmt.Evaluates bs b.statements o → o.Demands (.var i v) → o.Dereferences v (n + 1) ∧
        ∀ {S : Type u} (M : Meaning S) (Q : S → Prop), M.Notes Q (·.Dereferences v (n + 1)) →
          ∀ s t, Stmt.Runs M bs b.statements s t → Q t) := by
  obtain ⟨hprep, -, -⟩ := h.prepared hroot ht hps
  obtain ⟨hf, b', w, hb', hl⟩ := Trace.lifts_of_mem hps hq
  obtain rfl := Option.some.inj (hb'.symm.trans hb)
  have hmem := BlockSet.mem_of_find? hb
  obtain ⟨r, m, hm⟩ := hprep.over_maximal hmem hl
  obtain ⟨rfl, rfl⟩ : w = v ∧ m = -((n + 1 : ℕ) : ℤ) := by
    apply Expr.layered_inj
    rw [Expr.layered_neg, ← hmax, hm.toArgument.toExpr.normal_eq]
  rw [hl.key]
  refine ⟨?_, fun path c hwalk u hu => ?_, fun hout => ⟨fun path c hwalk u hu => ?_, fun o i ho hv => ?_⟩⟩
  · exact hprep.exists_occurrence hmem hl
  · have hle := hprep.hops_maximal_le hmem hl hwalk hu
    have hneg := hm.neg_hops_le
    omega
  · exact hprep.exists_normal_of_usage hmem hl hout hwalk hu hm
  · obtain ⟨path, c, hwalk, hoc⟩ := ho.exists_walk (List.Subset.refl _) (List.Subset.refl _)
    have hread := hprep.dereferences_of_demands hmem hl hout hwalk hoc hv hm
    exact ⟨hread, fun M Q hQ s t hrun => hrun.notes hQ ho hread⟩

namespace Description

/-- A pointer that is dereferenced wherever it occurs: once for sure, once in a branch. -/
def reading : Description where
  entry := "main"
  externs := [⟨"say", "fn (int) void"⟩]
  chunks := [⟨none, true, false, false, [⟨"p", "*int", none⟩]⟩]
  blocks := [
    ⟨"main", true, false, false, [.call "show", .call "show"]⟩,
    ⟨"show", true, false, false, [
      .expr (.call (.var "say") [.deref (.var "p")]),
      .choice [⟨.value "1", [.expr (.deref (.var "p"))]⟩] none]⟩]

/-- A pointer that is dereferenced in a branch only. -/
def guarding : Description where
  entry := "main"
  externs := [⟨"say", "fn (int) void"⟩]
  chunks := [⟨none, true, false, false, [⟨"p", "*int", none⟩, ⟨"flag", "int", none⟩]⟩]
  blocks := [
    ⟨"main", true, false, false, [.call "show", .call "show"]⟩,
    ⟨"show", true, false, false, [
      .choice [⟨.var "flag", [.expr (.call (.var "say") [.deref (.var "p")])]⟩] none]⟩]

end Description

/-- What a capture follows, if it follows a pointer. -/
def Capture.followed? : Capture → Option Capture
  | .deref inner => some inner
  | _ => none

theorem Capture.normal_of_followed? {c inner : Capture} {v : Variable} (hc : c.followed? = some inner)
    (hv : inner.bare? = some v) : c.toArgument.toExpr.normal = .deref .unnumbered (.var .unnumbered v) := by
  obtain ⟨r, hinner⟩ := (addressing_of_bare? hv).along
  cases c with
  | deref inner' =>
      cases hc
      exact hinner.deref.toArgument.toExpr.normal_eq
  | _ => cases hc

theorem dereferenced_wherever_used_reading : ∃ g bs P root t ps q b v,
    LowersTo Description.reading Description.separateShow g bs P ∧ bs.get g.entry = .ok root ∧
    Trace.ofBlock bs root true = .ok t ∧ t.parameters bs Description.separateShow = .ok ps ∧ q ∈ ps.of "show" ∧
    bs.find? "show" = some b ∧
    q.lifted.maximal.toArgument.toExpr.normal = .deref .unnumbered (.var .unnumbered v) ∧
    (∀ path c, Walk bs b path c → ∀ u ∈ c.usages q.key, u.capture.outermost = true) ∧
    (∀ u ∈ b.usages q.key, ∃ o x, b.Holds o x ∧ x.id = u.origin ∧
      ∃ j : ℕ, x.normal = (Expr.deref .unnumbered)^[1 + j] (.var .unnumbered v)) ∧
    ∃ o i, Stmt.Evaluates bs b.statements o ∧ o.Demands (.var i v) ∧ o.Dereferences v 1 := by
  have h : (do
      let l ← Description.reading.lowering? Description.separateShow
      let q ← (l.parameters.of "show").head?
      let b ← l.blocks.find? "show"
      let inner ← q.lifted.maximal.followed?
      let v ← inner.bare?
      let o ← (b.statements.flatMap Stmt.ahead).head?
      let arg ← o.expr.demandedParts.getLast?
      let x ← arg.demandedParts.head?
      Option.guard (fun _ => (∀ x ∈ b.statements, x.isCallOrGroup = false) ∧ o.isTarget = false ∧ x.var? = some v ∧
        ∀ c ∈ l.blocks.toList, ∀ u ∈ c.usages q.key, u.capture.outermost = true) () : Option Unit).isSome = true := by
    decide +kernel
  simp only [Option.isSome_iff_exists, Option.bind_eq_bind, Option.bind_eq_some_iff, Option.guard_eq_some_iff,
    decide_eq_true_eq] at h
  obtain ⟨_, l, hl, q, hq, b, hb, inner, hinner, v, hv, o, ho, arg, harg, x, hx, -, hflat, htarget, hxv, hout⟩ := h
  obtain ⟨hlower, hroot, ht, hps⟩ := Description.lowersTo_of_lowering? hl
  have hq := List.mem_of_head? hq
  have hnormal := Capture.normal_of_followed? hinner hv
  have hout (path : CallPath) (c : Block) (hwalk : Walk l.blocks b path c) :
      ∀ u ∈ c.usages q.key, u.capture.outermost = true :=
    hout c (BlockSet.mem_of_find? (hwalk.find? ((BlockSet.name_of_find? hb).symm ▸ hb)))
  have ho : Stmt.Evaluates l.blocks b.statements o :=
    (Stmt.evaluates_iff_of_flat hflat).2 (List.mem_of_head? ho)
  obtain ⟨i, hi⟩ : ∃ i, o.Demands (.var i v) := by
    cases x with
    | var i w =>
        cases hxv
        refine ⟨i, ?_⟩
        rw [Operand.Demands, htarget]
        exact .part (List.mem_of_getLast? harg) (.part (List.mem_of_head? hx) .self)
    | _ => cases hxv
  obtain ⟨-, -, hreads⟩ := hlower.dereferenced_wherever_used.{0} (n := 0) hroot ht hps hq hb hnormal
  obtain ⟨husages, hevery⟩ := hreads hout
  exact ⟨_, _, _, _, _, _, q, b, v, hlower, hroot, ht, hps, hq, hb, hnormal, hout, husages [] b .nil, o, i, ho, hi,
    (hevery o i ho hi).1⟩

/-- Callers dereference a pointer for a function that uses it in a branch only. -/
theorem dereferenced_for_branch : ∃ g bs P root t ps q b v,
    LowersTo Description.guarding Description.separateShow g bs P ∧ bs.get g.entry = .ok root ∧
    Trace.ofBlock bs root true = .ok t ∧ t.parameters bs Description.separateShow = .ok ps ∧ q ∈ ps.of "show" ∧
    bs.find? "show" = some b ∧ v.type = some (.pointer (.named "int")) ∧
    q.lifted.maximal.toArgument.toExpr.normal = .deref .unnumbered (.var .unnumbered v) ∧
    ∀ o, Stmt.Evaluates bs b.statements o → v ∉ o.expr.vars := by
  have h : (do
      let l ← Description.guarding.lowering? Description.separateShow
      let q ← (l.parameters.of "show").find? (·.key.2 == "p")
      let b ← l.blocks.find? "show"
      let inner ← q.lifted.maximal.followed?
      let v ← inner.bare?
      Option.guard (fun _ => (∀ x ∈ b.statements, x.isCallOrGroup = false) ∧
        v.type = some (.pointer (.named "int")) ∧
        ∀ o ∈ b.statements.flatMap Stmt.ahead, v ∉ o.expr.vars) () : Option Unit).isSome = true := by
    decide +kernel
  simp only [Option.isSome_iff_exists, Option.bind_eq_bind, Option.bind_eq_some_iff, Option.guard_eq_some_iff,
    decide_eq_true_eq] at h
  obtain ⟨_, l, hl, q, hq, b, hb, inner, hinner, v, hv, -, hflat, htype, hvars⟩ := h
  obtain ⟨hlower, hroot, ht, hps⟩ := Description.lowersTo_of_lowering? hl
  exact ⟨_, _, _, _, _, _, q, b, v, hlower, hroot, ht, hps, List.mem_of_find?_eq_some hq, hb, htype,
    Capture.normal_of_followed? hinner hv, fun o ho => hvars o ((Stmt.evaluates_iff_of_flat hflat).1 ho)⟩

end Diversity
