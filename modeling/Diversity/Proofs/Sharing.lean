import Diversity.Proofs.Arguments
/-! Shared variables: where the address of a variable is taken, in a function or below it, the function
gets the address and not a copy. -/
namespace Diversity

namespace Capture

/-- What the capture is the address of. -/
def pointee? : Capture → Option Capture
  | .ref inner | .assigned inner => some inner
  | _ => none

variable {v : Variable} {c d a b : Capture} {n : ℕ}

theorem pointee?_join (hc : c.pointee? = some a) (hd : d.pointee? = some b) :
    (c.join d).pointee? = some (a.join b) := by
  cases c <;> cases hc <;> cases d <;> cases hd <;> rw [Capture.join] <;> rfl

theorem join_of_pointee? (hc : c.pointee? = some a) (hd : d.pointee? = none) :
    c.join d = absorb c a (a.join d) := by
  cases c <;> cases hc <;> cases d <;> cases hd <;> rw [Capture.join] <;> exact fun _ => Capture.noConfusion

theorem join_comm_of_pointee? (hc : c.pointee? = none) (hd : d.pointee? = some b) : c.join d = d.join c := by
  rw [join_of_pointee? hd hc]
  cases d <;> cases hd <;> cases c <;> cases hc <;> rw [Capture.join] <;> exact fun _ => Capture.noConfusion

theorem over_of_pointee? (h : c.pointee? = some a) : Over v c ↔ Over v a := by
  cases c <;> cases h
  · exact over_ref
  · exact over_assigned

/-- The capture is the variable under that many addresses, and nothing else. -/
inductive Addressing (v : Variable) : Capture → ℕ → Prop
  | base {i} : Addressing v (.base (.var i v)) 0
  | address {c inner n} : c.pointee? = some inner → Addressing v inner n → Addressing v c (n + 1)

/-- The variable, where it is captured as it is. -/
def bare? : Capture → Option Variable
  | .base e => e.var?
  | _ => none

theorem addressing_of_bare? (h : c.bare? = some v) : Addressing v c 0 := by
  cases c with
  | base e =>
      cases e with
      | var i w =>
          cases h
          exact .base
      | _ => cases h
  | _ => cases h

theorem Addressing.along (h : Addressing v c n) : ∃ r, Along v c r n := by
  induction h with
  | base => exact ⟨0, .base⟩
  | @address c _ _ hc _ ih =>
      obtain ⟨r, ih⟩ := ih
      cases c <;> cases hc
      · exact ⟨r + 1, ih.ref⟩
      · exact ⟨r, ih.assigned⟩

theorem Addressing.normal_eq (h : Addressing v c n) :
    c.toArgument.toExpr.normal = (Expr.ref .unnumbered)^[n] (.var .unnumbered v) := by
  obtain ⟨r, h⟩ := h.along
  exact h.toArgument.toExpr.normal_eq

theorem Addressing.sameShape_self (h : Addressing v c n) : c.sameShape c = true := by
  induction h with
  | base => simp [Capture.sameShape, Expr.sameShape]
  | @address c _ _ hc _ ih => cases c <;> cases hc <;> rwa [Capture.sameShape]

theorem Addressing.of_sameShape (hc : Addressing v c n) (hd : Over v d) (h : c.sameShape d = true) :
    Addressing v d n := by
  induction hc generalizing d with
  | base =>
      obtain ⟨_, _, hd⟩ := hd
      cases hd with
      | base => exact .base
      | _ => cases h
  | @address c inner _ hc _ ih =>
      have hpointee : ∃ inner', d.pointee? = some inner' ∧ inner.sameShape inner' = true := by
        cases c <;> cases hc <;> cases d <;> first | cases h | exact ⟨_, rfl, h⟩
      obtain ⟨inner', hd', h⟩ := hpointee
      exact .address hd' (ih ((over_of_pointee? hd').1 hd) h)

/-- What is no address adds nothing to a variable under addresses. -/
theorem Addressing.join_eq_self (hc : Addressing v c n) (hd : d.pointee? = none) : c.join d = c := by
  induction hc with
  | base => cases d <;> cases hd <;> rw [Capture.join] <;> exact fun _ => Capture.noConfusion
  | address hc h ih => rw [join_of_pointee? hc hd, ih, absorb, if_pos h.sameShape_self]

/-- Joined with the variable itself, an access path becomes the variable under addresses. -/
theorem exists_addressing_join_base {i : NodeId} (hc : Over v c) :
    ∃ m, Addressing v (c.join (.base (.var i v))) m := by
  have haddress {c inner : Capture} (hc : c.pointee? = some inner) (hin : Over v inner)
      (ih : ∃ m, Addressing v (inner.join (.base (.var i v))) m) :
      ∃ m, Addressing v (c.join (.base (.var i v))) m := by
    obtain ⟨m, ih⟩ := ih
    rw [join_of_pointee? hc rfl, absorb]
    -- what is left is the address if nothing below it was lost, else what the join below it left
    split
    · next hsame => exact ⟨m + 1, .address hc (ih.of_sameShape hin hsame)⟩
    · exact ⟨m, ih⟩
  induction c with
  | base e =>
      obtain ⟨_, _, hc⟩ := hc
      cases hc
      rw [Addressing.base.join_eq_self rfl]
      exact ⟨0, .base⟩
  | ref c ih => exact haddress rfl (over_ref.1 hc) (ih (over_ref.1 hc))
  | assigned c ih => exact haddress rfl (over_assigned.1 hc) (ih (over_assigned.1 hc))
  | deref c _ | index c _ _ => rw [Capture.join] <;> first | exact ⟨0, .base⟩ | exact fun _ => Capture.noConfusion

/-- A join takes no address away from the variable, on its left or on its right. -/
theorem Addressing.join_left (hc : Addressing v c n) (hd : Over v d) :
    ∃ m, n ≤ m ∧ Addressing v (c.join d) m := by
  induction hc generalizing d with
  | base =>
      cases hpd : d.pointee? with
      | none =>
          rw [Addressing.base.join_eq_self hpd]
          exact ⟨0, Nat.le_refl 0, .base⟩
      | some inner =>
          rw [join_comm_of_pointee? rfl hpd]
          obtain ⟨m, h⟩ := exists_addressing_join_base hd
          exact ⟨m, Nat.zero_le m, h⟩
  | address hpc h ih =>
      cases hpd : d.pointee? with
      | none =>
          rw [(Addressing.address hpc h).join_eq_self hpd]
          exact ⟨_, Nat.le_refl _, .address hpc h⟩
      | some inner =>
          obtain ⟨m, hm, ih⟩ := ih ((over_of_pointee? hpd).1 hd)
          exact ⟨m + 1, Nat.succ_le_succ hm, .address (pointee?_join hpc hpd) ih⟩

theorem Addressing.join_right (hd : Addressing v d n) (hc : Over v c) :
    ∃ m, n ≤ m ∧ Addressing v (c.join d) m := by
  induction hd generalizing c with
  | base =>
      obtain ⟨m, h⟩ := exists_addressing_join_base hc
      exact ⟨m, Nat.zero_le m, h⟩
  | address hpd h ih =>
      cases hpc : c.pointee? with
      | none =>
          rw [join_comm_of_pointee? hpc hpd, (Addressing.address hpd h).join_eq_self hpc]
          exact ⟨_, Nat.le_refl _, .address hpd h⟩
      | some inner =>
          obtain ⟨m, hm, ih⟩ := ih ((over_of_pointee? hpc).1 hc)
          exact ⟨m + 1, Nat.succ_le_succ hm, .address (pointee?_join hpc hpd) ih⟩

theorem Addressing.foldl_join {us : List Usage} (hc : Addressing v c n) (hus : ∀ u ∈ us, Over v u.capture) :
    ∃ m, n ≤ m ∧ Addressing v (us.foldl (fun c u => c.join u.capture) c) m := by
  induction us generalizing c n with
  | nil => exact ⟨n, Nat.le_refl n, hc⟩
  | cons u us ih =>
      rw [List.forall_mem_cons] at hus
      obtain ⟨m, hm, hc⟩ := hc.join_left hus.1
      obtain ⟨m', hm', hc⟩ := ih hc hus.2
      exact ⟨m', hm.trans hm', hc⟩

/-- If one usage is the variable under addresses, so is the most general capture, and no fewer. -/
theorem Addressing.of_joinUsages {name block : String} {us : List Usage} (h : joinUsages name block us = .ok c)
    (hus : ∀ u ∈ us, Over v u.capture) {u : Usage} (hu : u ∈ us) (hn : Addressing v u.capture n) :
    ∃ m, n ≤ m ∧ Addressing v c m := by
  obtain ⟨first, rest, rfl, rfl⟩ := joinUsages_eq_ok h
  rw [List.forall_mem_cons] at hus
  rcases List.mem_cons.1 hu with rfl | hu
  · exact hn.foldl_join hus.2
  · obtain ⟨front, back, rfl⟩ := List.append_of_mem hu
    rw [List.forall_mem_append, List.forall_mem_cons] at hus
    obtain ⟨hfirst, hfront, -, hback⟩ := hus
    have hover : Over v (front.foldl (fun c u => c.join u.capture) first.capture) :=
      List.foldlRecOn front _ hfirst fun _ hc u hu => hc.join (hfront u hu)
    obtain ⟨m, hm, hjoin⟩ := hn.join_right hover
    obtain ⟨m', hm', hfold⟩ := hjoin.foldl_join hback
    rw [List.foldl_append, List.foldl_cons]
    exact ⟨m', hm.trans hm', hfold⟩

/-! ## Addresses taken outermost -/

/-- No address is taken in the capture. -/
def plain : Capture → Bool
  | .base _ => true
  | .ref _ | .assigned _ => false
  | .deref inner | .index inner _ => plain inner

/-- An address is taken outermost in the capture, if at all. -/
def outermost (c : Capture) : Bool := (c.pointee?.getD c).plain

theorem plain_join (hc : c.plain = true) (hd : d.plain = true) : (c.join d).plain = true := by
  fun_induction Capture.join c d with
  | case1 | case2 | case3 | case4 | case5 | case6 => cases hc
  | case7 | case8 => cases hd
  | case9 => exact hc
  | case10 => exact hd
  | case11 a b ih | case12 a i b j _ ih | case13 a i b j _ ih | case14 a b _ ih | case15 a _ b ih => exact ih hc hd

theorem outermost_of_plain (h : c.plain = true) : c.outermost = true := by
  cases c with
  | ref _ | assigned _ => cases h
  | _ => exact h

theorem outermost_join (hc : c.outermost = true) (hd : d.outermost = true) : (c.join d).outermost = true := by
  have habsorb {c d a : Capture} (hpc : c.pointee? = some a) (hpd : d.pointee? = none)
      (hc : c.outermost = true) (hd : d.outermost = true) : (c.join d).outermost = true := by
    rw [join_of_pointee? hpc hpd, absorb]
    rw [outermost, hpd, Option.getD_none] at hd
    split
    · exact hc
    · rw [outermost, hpc, Option.getD_some] at hc
      exact outermost_of_plain (plain_join hc hd)
  cases hpc : c.pointee? with
  | none =>
      cases hpd : d.pointee? with
      | none =>
          rw [outermost, hpc, Option.getD_none] at hc
          rw [outermost, hpd, Option.getD_none] at hd
          exact outermost_of_plain (plain_join hc hd)
      | some b =>
          rw [join_comm_of_pointee? hpc hpd]
          exact habsorb hpd hpc hd hc
  | some a =>
      cases hpd : d.pointee? with
      | none => exact habsorb hpc hpd hc hd
      | some b =>
          rw [outermost, hpc, Option.getD_some] at hc
          rw [outermost, hpd, Option.getD_some] at hd
          rw [outermost, pointee?_join hpc hpd, Option.getD_some]
          exact plain_join hc hd

theorem Along.le_zero {reading passing : ℤ} (h : Along v c reading passing) (hc : c.plain = true) :
    reading ≤ 0 ∧ passing ≤ 0 := by
  induction h with
  | base => exact ⟨le_refl 0, le_refl 0⟩
  | ref | assigned => cases hc
  | deref _ ih | index _ _ ih =>
      obtain ⟨hr, hp⟩ := ih hc
      exact ⟨by omega, by omega⟩

/-- A path that takes an address outermost, if at all, has at most one more than it follows. -/
theorem Along.le_one {reading passing : ℤ} (h : Along v c reading passing) (hc : c.outermost = true) :
    reading ≤ 1 ∧ passing ≤ 1 := by
  cases h with
  | base => exact ⟨by omega, by omega⟩
  | ref h | assigned h =>
      obtain ⟨hr, hp⟩ := h.le_zero hc
      exact ⟨by omega, by omega⟩
  | deref h =>
      obtain ⟨hr, hp⟩ := h.deref.le_zero hc
      exact ⟨by omega, by omega⟩
  | index hz h =>
      obtain ⟨hr, hp⟩ := (h.index hz).le_zero hc
      exact ⟨by omega, by omega⟩

end Capture

/-! ## What callers pass -/

theorem Expr.layered_neg (v : Variable) (j : ℕ) :
    layered v (-j) = (deref .unnumbered)^[j] (.var .unnumbered v) := by
  cases j with
  | zero => rfl
  | succ j => rfl

namespace Graph.Prepared

variable {g : Graph} {bs : BlockSet} {p : Placement} {t : Trace} {ps : Parameters} {b c : Block} {v : Variable}
  {q : Parameter} {u : Usage}

/-- Where a variable occurs under addresses in a block or below it, callers are to pass it under no fewer. -/
theorem addressing_maximal (h : g.Prepared bs p t ps) (hb : b ∈ bs.toList) (hq : q.Lifts bs p t b v)
    {path : CallPath} (hwalk : Walk bs b path c) (hu : u ∈ c.usages v.key) {n : ℕ}
    (hn : u.capture.Addressing v n) : ∃ m, n ≤ m ∧ q.lifted.maximal.Addressing v m := by
  obtain ⟨us, type, hus, hm, -, -⟩ := Block.lift_eq_ok hq.lift
  -- usages are collected along paths that enter no block twice, which reach all that calls lead to
  obtain ⟨path', hwalk, hfresh⟩ := hwalk.exists_fresh (BlockSet.find?_name h.placed.names hb)
  have hmem : u ∈ us := (Block.mem_usagesBelow hus).2 ⟨path', c, hwalk, hfresh, hu⟩
  exact hn.of_joinUsages hm (fun _ => h.over_of_usagesBelow hb hq.needed hus) hmem

theorem outermost_maximal (hq : q.Lifts bs p t b v)
    (hout : ∀ path c, Walk bs b path c → ∀ u ∈ c.usages v.key, u.capture.outermost = true) :
    q.lifted.maximal.outermost = true := by
  obtain ⟨us, type, hus, hm, -, -⟩ := Block.lift_eq_ok hq.lift
  refine Capture.joinUsages_induction (P := fun c => c.outermost = true) hm (fun u hu => ?_) fun _ _ =>
    Capture.outermost_join
  obtain ⟨path, c, hwalk, -, hu⟩ := (Block.mem_usagesBelow hus).1 hu
  exact hout path c hwalk u hu

end Graph.Prepared

/-- Where the address of a variable is taken in a function or below it, or the variable is assigned to,
callers pass the variable under addresses, never the variable itself. If addresses are taken outermost
only, they pass the address of the variable, and the function follows its parameter wherever it does not
pass it on. -/
theorem LowersTo.shared_by_address {d : Description} {p : Placement} {g : Graph} {bs : BlockSet}
    {P : Program} (h : LowersTo d p g bs P) {root : Block} (hroot : bs.get g.entry = .ok root) {t : Trace}
    (ht : Trace.ofBlock bs root true = .ok t) {ps : Parameters} (hps : t.parameters bs p = .ok ps)
    {f : String} {q : Parameter} (hq : q ∈ ps.of f) {b c : Block} (hb : bs.find? f = some b)
    {path : CallPath} (hwalk : Walk bs b path c) {u : Usage} (hu : u ∈ c.usages q.key) {v : Variable}
    (haddress : u.capture.Addressing v 1) :
    ∃ n, q.lifted.maximal.toArgument.toExpr.normal = (Expr.ref .unnumbered)^[n + 1] (.var .unnumbered v) ∧
      (∀ e, P.Arrives ps q.key f e → e.normal = (Expr.ref .unnumbered)^[n + 1] (.var .unnumbered v)) ∧
      ((∀ path c, Walk bs b path c → ∀ u ∈ c.usages q.key, u.capture.outermost = true) →
        n = 0 ∧ ∃ F ∈ P.functions, F.name = f ∧ ∀ u ∈ b.usages q.key, ∃ (x : Expr) (j : ℕ),
          .expr x ∈ Stmt.nodesOfAll b.statements ∧ x.id = u.origin ∧ x.normal = Expr.layered v (1 - j) ∧
          .expr (x.substitute ps.substitution) ∈ Stmt.nodesOfAll F.body ∧
          (x.substitute ps.substitution).normal =
            (Expr.deref .unnumbered)^[j] (.var .unnumbered q.lifted.param.var)) := by
  obtain ⟨hprep, -, hP⟩ := h.prepared hroot ht hps
  obtain ⟨hf, b', w, hb', hl⟩ := Trace.lifts_of_mem hps hq
  obtain rfl : b' = b := Option.some.inj (hb'.symm.trans hb)
  have hmem := BlockSet.mem_of_find? hb
  obtain rfl := BlockSet.name_of_find? hb
  have hc := BlockSet.mem_of_find? (hwalk.find? hb)
  obtain rfl : v = w := by
    obtain ⟨_, hv⟩ := haddress.along
    obtain ⟨_, _, _, _, -, -, -, -, hw⟩ := hprep.along_of_usage hl.needed hc (hl.key ▸ hu)
    exact List.singleton_injective (hv.toExpr.vars.symm.trans hw.toExpr.vars)
  obtain ⟨m, hm, hmax⟩ := hprep.addressing_maximal hmem hl hwalk (hl.key ▸ hu) haddress
  obtain ⟨n, rfl⟩ := Nat.exists_eq_add_of_le' hm
  obtain ⟨reading, halong⟩ := hmax.along
  refine ⟨n, hmax.normal_eq, fun e he => ?_, fun hout => ?_⟩
  · exact (hprep.along_of_arrives hP he hq rfl hl halong).normal_eq
  · have hone := (halong.le_one (Graph.Prepared.outermost_maximal hl (hl.key ▸ hout))).2
    obtain rfl : n = 0 := by omega
    obtain ⟨F, hF, b', hb', hFb⟩ := forall₂_mem_left hP hf
    obtain rfl := Option.some.inj (hb'.symm.trans hb)
    refine ⟨rfl, F, hF, hFb.name, fun u hu => ?_⟩
    obtain ⟨x, k, hx, hid, hxk, ⟨_, huk⟩, hxF, hsub⟩ := hprep.along_of_substitute hmem hFb hq hl hu halong
    have hk := (huk.le_one (hout [] _ .nil u hu)).1
    obtain ⟨j, hj⟩ := Int.eq_ofNat_of_zero_le (sub_nonneg.2 hk)
    refine ⟨x, j, hx, hid, ?_, hxF, ?_⟩
    · rw [hxk.normal_eq, ← hj, sub_sub_cancel]
    · rw [hsub.normal_eq, ← Expr.layered_neg, ← hj]
      congr 1
      ring

theorem shared_by_address_sharing : ∃ g bs P root t ps q b path c u v,
    LowersTo Description.sharing Description.separateSharing g bs P ∧ bs.get g.entry = .ok root ∧
    Trace.ofBlock bs root true = .ok t ∧ t.parameters bs Description.separateSharing = .ok ps ∧
    q ∈ ps.of "relay" ∧ bs.find? "relay" = some b ∧ Walk bs b path c ∧ u ∈ c.usages q.key ∧
    u.capture.Addressing v 1 ∧
    q.lifted.maximal.toArgument.toExpr.normal = .ref .unnumbered (.var .unnumbered v) := by
  have h : (do
      let l ← Description.sharing.lowering? Description.separateSharing
      let q ← (l.parameters.of "relay").head?
      let b ← l.blocks.find? "relay"
      let call ← b.calls.head?
      let c ← (l.blocks.resolve call.2).toOption
      let u ← (c.usages q.key).getLast?
      let _ ← Option.guard (fun _ => l.blocks.toList.all fun c => (c.usages q.key).all (·.capture.outermost)) ()
      let inner ← u.capture.pointee?
      inner.bare? : Option Variable).isSome = true := by decide +kernel
  simp only [Option.isSome_iff_exists, Option.bind_eq_bind, Option.bind_eq_some_iff, toOption_eq_some,
    Option.guard_eq_some_iff, List.all_eq_true] at h
  obtain ⟨v, l, hl, q, hq, b, hb, call, hcall, c, hc, u, hu, _, ⟨-, hout⟩, inner, hinner, hv⟩ := h
  obtain ⟨hlower, hroot, ht, hps⟩ := Description.lowersTo_of_lowering? hl
  have hq := List.mem_of_head? hq
  have hu := List.mem_of_getLast? hu
  have hwalk : Walk l.blocks b [⟨call.1, c.name⟩] c := .cons (List.mem_of_head? hcall) hc .nil
  have haddress : u.capture.Addressing v 1 := .address hinner (Capture.addressing_of_bare? hv)
  obtain ⟨n, hnormal, -, hexact⟩ := hlower.shared_by_address hroot ht hps hq hb hwalk hu haddress
  obtain ⟨rfl, -⟩ := hexact fun _ c hwalk =>
    hout c (BlockSet.mem_of_find? (hwalk.find? ((BlockSet.name_of_find? hb).symm ▸ hb)))
  exact ⟨_, _, _, _, _, _, q, b, _, c, u, v, hlower, hroot, ht, hps, hq, hb, hwalk, hu, haddress, hnormal⟩

namespace Description

/-- An address and an address of an address are taken of one variable. -/
def doubling : Description where
  entry := "main"
  externs := []
  chunks := [⟨none, true, false, false, [⟨"x", "int", none⟩]⟩]
  blocks := [
    ⟨"main", true, false, false, [.call "show", .call "show"]⟩,
    ⟨"show", true, false, false, [.expr (.ref (.ref (.var "x"))), .expr (.ref (.var "x"))]⟩]

/-- Both blocks are functions, and the variables are local. -/
def separateShow : Placement := ⟨["main", "show"], [], [⟨1⟩]⟩

end Description

/-- A function gets a copy of a variable whose address is taken elsewhere, if neither the function nor
anything below it takes the address. If it takes an address of the address, it gets more than the address. -/
theorem copied_elsewhere_sharing : (∃ g bs P root t ps q path c x v,
    LowersTo Description.sharing Description.separateSharing g bs P ∧ bs.get g.entry = .ok root ∧
    Trace.ofBlock bs root true = .ok t ∧ t.parameters bs Description.separateSharing = .ok ps ∧
    v.type = some (.named "int") ∧ v.chunk.any Description.separateSharing.isLocal = true ∧
    Walk bs root path c ∧ .expr x ∈ Stmt.nodesOfAll c.statements ∧
    x.normal = .ref .unnumbered (.var .unnumbered v) ∧ q ∈ ps.of "show" ∧ q.key = v.key ∧
    q.lifted.maximal.toArgument.toExpr.normal ≠ .ref .unnumbered (.var .unnumbered v)) ∧
    ∃ g bs P root t ps q b u v,
      LowersTo Description.doubling Description.separateShow g bs P ∧ bs.get g.entry = .ok root ∧
      Trace.ofBlock bs root true = .ok t ∧ t.parameters bs Description.separateShow = .ok ps ∧
      q ∈ ps.of "show" ∧ bs.find? "show" = some b ∧ u ∈ b.usages q.key ∧ u.capture.Addressing v 1 ∧
      q.lifted.maximal.toArgument.toExpr.normal = .ref .unnumbered (.ref .unnumbered (.var .unnumbered v)) := by
  constructor
  · have h : (do
        let l ← Description.sharing.lowering? Description.separateSharing
        let w ← l.trace.visits.find? (·.block.name == "fill")
        let o ← (Stmt.operandsOfAll w.block.statements).getLast?
        let q ← (l.parameters.of "show").head?
        let a ← o.expr.capture? q.key
        let inner ← a.pointee?
        let v ← inner.bare?
        Option.guard (fun _ => v.type = some (.named "int") ∧ v.chunk.any Description.separateSharing.isLocal ∧
          q.key = v.key ∧ q.lifted.maximal.bare? = some v) () : Option Unit).isSome = true := by decide +kernel
    simp only [Option.isSome_iff_exists, Option.bind_eq_bind, Option.bind_eq_some_iff,
      Option.guard_eq_some_iff, decide_eq_true_eq] at h
    obtain ⟨_, l, hl, w, hw, o, ho, q, hq, a, ha, inner, hinner, v, hv, -, htype, hlocal, hkey, hbare⟩ := h
    obtain ⟨hlower, hroot, ht, hps⟩ := Description.lowersTo_of_lowering? hl
    obtain ⟨hwalk, -⟩ := (Trace.mem_visits ht).1 (List.mem_of_find?_eq_some hw)
    have hx := Stmt.expr_mem_nodesOfAll.2 ⟨o, List.mem_of_getLast? ho, Expr.mem_nodes_self _⟩
    have hnormal : o.expr.normal = .ref .unnumbered (.var .unnumbered v) := by
      obtain ⟨w, k, -, he, ha⟩ := Expr.along_of_capture? ha
      rw [he.normal_eq, ← ha.toArgument.toExpr.normal_eq]
      exact (Capture.Addressing.address hinner (Capture.addressing_of_bare? hv)).normal_eq
    refine ⟨_, _, _, _, _, _, q, _, _, _, v, hlower, hroot, ht, hps, htype, hlocal, hwalk, hx, hnormal,
      List.mem_of_head? hq, hkey, ?_⟩
    rw [(Capture.addressing_of_bare? hbare).normal_eq]
    exact Expr.noConfusion
  · have h : (do
        let l ← Description.doubling.lowering? Description.separateShow
        let q ← (l.parameters.of "show").head?
        let b ← l.blocks.find? "show"
        let u ← (b.usages q.key).getLast?
        let inner ← u.capture.pointee?
        let v ← inner.bare?
        let outer ← q.lifted.maximal.pointee?
        let passed ← outer.pointee?
        Option.guard (fun _ => passed.bare? = some v) () : Option Unit).isSome = true := by decide +kernel
    simp only [Option.isSome_iff_exists, Option.bind_eq_bind, Option.bind_eq_some_iff,
      Option.guard_eq_some_iff, decide_eq_true_eq] at h
    obtain ⟨_, l, hl, q, hq, b, hb, u, hu, inner, hinner, v, hv, outer, houter, passed, hpassed, -, hbare⟩ := h
    obtain ⟨hlower, hroot, ht, hps⟩ := Description.lowersTo_of_lowering? hl
    have hmaximal : q.lifted.maximal.Addressing v 2 :=
      .address houter (.address hpassed (Capture.addressing_of_bare? hbare))
    exact ⟨_, _, _, _, _, _, q, b, u, v, hlower, hroot, ht, hps, List.mem_of_head? hq, hb, List.mem_of_getLast? hu,
      .address hinner (Capture.addressing_of_bare? hv), hmaximal.normal_eq⟩

end Diversity
