import Diversity.Proofs.Sharing
/-! What simplified captures look like: outside its positions a capture is a stack of addresses, or a stack of
dereferences. So an address of an address is left only where it is indexed, or where the capture takes two
addresses more than it follows. -/
namespace Diversity

/-! ## Expressions and their addresses -/

namespace Expr

/-- A variable, what is pointed at or an element. -/
def isPlace : Expr → Bool
  | .var _ _ | .deref _ _ | .index _ _ _ => true
  | _ => false

/-- The address of an address. -/
def isDouble : Expr → Bool
  | .ref _ target => target.isRef
  | _ => false

/-- The part may stand in the node: an address is that of a place or of another address, and the outermost of
several addresses is indexed at position zero. -/
def Admits (n part : Expr) : Prop :=
  (n.isRef = true → part.isPlace = true ∨ part.isRef = true) ∧
    (part.isDouble = true → n.isRef = true ∨ ∃ i position, n = .index i part position ∧ position.isZero = true)

def AdmitsParts (e : Expr) : Prop := ∀ n ∈ e.nodes, ∀ part ∈ n.children, n.Admits part

/-- Every address is that of a place, but for addresses of addresses that are indexed at position zero. -/
def WellAddressed (e : Expr) : Prop := e.isDouble = false ∧ e.AdmitsParts

variable {e : Expr}

theorem admitsParts_iff : e.AdmitsParts ↔ ∀ part ∈ e.children, e.Admits part ∧ part.AdmitsParts := by
  unfold AdmitsParts
  rw [nodes_eq, List.forall_mem_cons]
  simp only [List.mem_flatMap]
  constructor
  · rintro ⟨he, hparts⟩ part hpart
    exact ⟨he part hpart, fun n hn => hparts n ⟨part, hpart, hn⟩⟩
  · intro h
    exact ⟨fun part hpart => (h part hpart).1, fun n ⟨part, hpart, hn⟩ => (h part hpart).2 n hn⟩

theorem isDouble_of_isPlace (h : e.isPlace = true) : e.isDouble = false := by
  cases e <;> first | rfl | cases h

theorem isRef_of_isPlace (h : e.isPlace = true) : e.isRef = false := by
  cases e <;> first | rfl | cases h

theorem admits_of_isDouble_eq_false {n : Expr} (hn : n.isRef = false) (he : e.isDouble = false) : n.Admits e :=
  ⟨fun h => absurd (hn.symm.trans h) Bool.false_ne_true, fun h => absurd (he.symm.trans h) Bool.false_ne_true⟩

/-- That many addresses of the expression, or dereferences if the number is negative. -/
def stacked (e : Expr) : ℤ → Expr
  | .ofNat n => (ref .unnumbered)^[n] e
  | .negSucc n => (deref .unnumbered)^[n + 1] e

theorem isRef_iterate_ref (n : ℕ) (e : Expr) : ((ref .unnumbered)^[n + 1] e).isRef = true := by
  rw [Function.iterate_succ_apply']
  rfl

theorem isPlace_iterate_deref (n : ℕ) (h : e.isPlace = true) : ((deref .unnumbered)^[n] e).isPlace = true := by
  cases n with
  | zero => exact h
  | succ n =>
      rw [Function.iterate_succ_apply']
      rfl

theorem admitsParts_stacked (hp : e.isPlace = true) (he : e.AdmitsParts) (k : ℤ) : (e.stacked k).AdmitsParts := by
  match k with
  | .ofNat n =>
      induction n with
      | zero => exact he
      | succ n ih =>
          rw [stacked, Function.iterate_succ_apply', admitsParts_iff]
          refine List.forall_mem_singleton.2 ⟨⟨fun _ => ?_, fun _ => Or.inl rfl⟩, ih⟩
          cases n with
          | zero => exact Or.inl hp
          | succ n => exact Or.inr (isRef_iterate_ref n e)
  | .negSucc n =>
      have hderef (m : ℕ) : ((deref .unnumbered)^[m] e).AdmitsParts := by
        induction m with
        | zero => exact he
        | succ m ih =>
            rw [Function.iterate_succ_apply', admitsParts_iff]
            have hdouble := isDouble_of_isPlace (isPlace_iterate_deref m hp)
            exact List.forall_mem_singleton.2 ⟨admits_of_isDouble_eq_false rfl hdouble, ih⟩
      exact hderef (n + 1)

theorem isPlace_stacked (hp : e.isPlace = true) {k : ℤ} (hk : k ≤ 0) : (e.stacked k).isPlace = true := by
  match k with
  | .ofNat 0 => exact hp
  | .ofNat (n + 1) => exact absurd hk (by simp)
  | .negSucc n => exact isPlace_iterate_deref (n + 1) hp

theorem wellAddressed_stacked (hp : e.isPlace = true) (he : e.AdmitsParts) {k : ℤ} (hk : k ≤ 1) :
    (e.stacked k).WellAddressed := by
  refine ⟨?_, admitsParts_stacked hp he k⟩
  rcases Int.le_iff_lt_or_eq.1 hk with hk | rfl
  · exact isDouble_of_isPlace (isPlace_stacked hp (by omega))
  · exact isRef_of_isPlace hp

end Expr

theorem Expr.sameLiteral_of_isZero {e e' : Expr} (h : e.isZero = true) (h' : e'.isZero = true) :
    e.sameLiteral e' = true := by
  cases e with
  | value _ a =>
      cases e' with
      | value _ b =>
          simp only [isZero, beq_iff_eq] at h h'
          simp [sameLiteral, h, h']
      | _ => cases h'
  | _ => cases h

namespace Capture

variable {v w : Variable} {c d : Capture} {r p r' p' : ℤ}

/-! ## Stacks -/

/-- No part of the capture is assigned to. -/
def unassigned : Capture → Bool
  | .base _ => true
  | .assigned _ => false
  | .ref inner | .deref inner | .index inner _ => unassigned inner

/-- The capture goes through a position. -/
def indexed : Capture → Bool
  | .base _ => false
  | .ref inner | .assigned inner | .deref inner => indexed inner
  | .index _ _ => true

/-- How many more addresses than dereferences the capture has outside its positions. -/
def lead : Capture → ℤ
  | .base _ | .index _ _ => 0
  | .ref inner | .assigned inner => lead inner + 1
  | .deref inner => lead inner - 1

def stacked (c : Capture) : ℤ → Capture
  | .ofNat n => ref^[n] c
  | .negSucc n => deref^[n + 1] c

/-- The capture is neither an address nor dereferenced. -/
def isCore : Capture → Bool
  | .base _ | .index _ _ => true
  | _ => false

theorem addressOf_stacked (hc : c.isCore = true) (k : ℤ) : (c.stacked k).addressOf = c.stacked (k + 1) := by
  match k with
  | .ofNat 0 => cases c <;> first | rfl | cases hc
  | .ofNat (n + 1) =>
      have h : (Int.ofNat (n + 1) + 1 : ℤ) = Int.ofNat (n + 2) := rfl
      rw [h, stacked, stacked, Function.iterate_succ_apply', Function.iterate_succ_apply' _ (n + 1),
        Function.iterate_succ_apply' _ n]
      rfl
  | .negSucc 0 => rfl
  | .negSucc (n + 1) =>
      have h : Int.negSucc (n + 1) + 1 = Int.negSucc n := by omega
      rw [h, stacked, stacked, Function.iterate_succ_apply']
      rfl

theorem target_stacked (hc : c.isCore = true) (k : ℤ) : (c.stacked k).target = c.stacked (k - 1) := by
  match k with
  | .ofNat 0 => cases c <;> first | rfl | cases hc
  | .ofNat (n + 1) =>
      have h : (Int.ofNat (n + 1) - 1 : ℤ) = Int.ofNat n := by simp
      rw [h, stacked, stacked, Function.iterate_succ_apply']
      rfl
  | .negSucc n =>
      have h : Int.negSucc n - 1 = Int.negSucc (n + 1) := by omega
      rw [h, stacked, stacked, Function.iterate_succ_apply', Function.iterate_succ_apply' _ (n + 1),
        Function.iterate_succ_apply' _ n]
      rfl

theorem toExpr_stacked (c : Capture) (k : ℤ) : (c.stacked k).toExpr = c.toExpr.stacked k := by
  have href (n : ℕ) : (ref^[n] c).toExpr = (Expr.ref .unnumbered)^[n] c.toExpr := by
    induction n with
    | zero => rfl
    | succ n ih => rw [Function.iterate_succ_apply', Function.iterate_succ_apply', toExpr, ih]
  have hderef (n : ℕ) : (deref^[n] c).toExpr = (Expr.deref .unnumbered)^[n] c.toExpr := by
    induction n with
    | zero => rfl
    | succ n ih => rw [Function.iterate_succ_apply', Function.iterate_succ_apply', toExpr, ih]
  cases k with
  | ofNat n => exact href n
  | negSucc n => exact hderef (n + 1)

/-- Simplified, an access path is the stack that its lead says, over the variable or over a position. -/
theorem Along.exists_stacked (h : Along v c r p) (hc : c.unassigned = true) : ∃ x : Capture,
    c.simplify = x.stacked c.lead ∧ x.isCore = true ∧ x.toExpr.isPlace = true ∧ x.toExpr.AdmitsParts := by
  induction h with
  | base => exact ⟨_, rfl, rfl, rfl, Expr.admitsParts_iff.2 (List.forall_mem_nil _)⟩
  | ref _ ih =>
      obtain ⟨x, hx, hcore, hrest⟩ := ih hc
      exact ⟨x, by rw [Capture.simplify, hx, addressOf_stacked hcore, lead], hcore, hrest⟩
  | assigned => cases hc
  | deref _ ih =>
      obtain ⟨x, hx, hcore, hrest⟩ := ih hc
      exact ⟨x, by rw [Capture.simplify, hx, target_stacked hcore, lead], hcore, hrest⟩
  | @index c position _ _ hz _ ih =>
      obtain ⟨x, hx, -, hplace, hparts⟩ := ih hc
      refine ⟨.index c.simplify position, rfl, rfl, rfl, ?_⟩
      rw [Capture.toExpr, hx, toExpr_stacked, Expr.admitsParts_iff, Expr.children, List.forall_mem_cons]
      refine ⟨⟨⟨fun h => Bool.noConfusion h, fun _ => Or.inr ⟨_, _, rfl, hz⟩⟩,
        Expr.admitsParts_stacked hplace hparts _⟩, List.forall_mem_singleton.2 ?_⟩
      cases position with
      | value _ _ => exact ⟨Expr.admits_of_isDouble_eq_false rfl rfl, Expr.admitsParts_iff.2 (List.forall_mem_nil _)⟩
      | _ => cases hz

theorem Along.wellAddressed (h : Along v c r p) (hc : c.unassigned = true) (hlead : c.lead ≤ 1) :
    c.simplify.toExpr.WellAddressed := by
  obtain ⟨x, hx, -, hplace, hparts⟩ := h.exists_stacked hc
  rw [hx, toExpr_stacked]
  exact Expr.wellAddressed_stacked hplace hparts hlead

theorem Along.isPlace (h : Along v c r p) (hc : c.unassigned = true) (hlead : c.lead ≤ 0) :
    c.simplify.toExpr.isPlace = true := by
  obtain ⟨x, hx, -, hplace, -⟩ := h.exists_stacked hc
  rw [hx, toExpr_stacked]
  exact Expr.isPlace_stacked hplace hlead

/-! ## Leads -/

theorem lead_simplify (c : Capture) : c.simplify.lead = c.lead := by
  have haddress (c : Capture) : c.addressOf.lead = c.lead + 1 := by
    cases c <;> simp [addressOf, lead]
  have htarget (c : Capture) : c.target.lead = c.lead - 1 := by
    cases c <;> simp [target, lead]
  induction c with
  | base _ | index _ _ _ => rfl
  | ref c ih => rw [simplify, haddress, ih, lead]
  | assigned c ih => rw [simplify, lead, ih, lead]
  | deref c ih => rw [simplify, htarget, ih, lead]

theorem indexed_simplify (c : Capture) : c.simplify.indexed = c.indexed := by
  have haddress (c : Capture) : c.addressOf.indexed = c.indexed := by cases c <;> rfl
  have htarget (c : Capture) : c.target.indexed = c.indexed := by cases c <;> rfl
  induction c with
  | base _ | index _ _ _ => rfl
  | ref c ih => exact (haddress _).trans ih
  | assigned c ih => exact ih
  | deref c ih => exact (htarget _).trans ih

theorem lead_toArgument (c : Capture) : c.toArgument.lead = c.lead := by
  induction c with
  | base _ | index _ _ _ => rfl
  | ref c ih | assigned c ih | deref c ih => rw [toArgument, lead, ih, lead]

theorem unassigned_toArgument (c : Capture) : c.toArgument.unassigned = true := by
  induction c with
  | base _ => rfl
  | ref c ih | assigned c ih | deref c ih | index c _ ih => exact ih

theorem unassigned_replace (hc : c.unassigned = true) (hd : d.unassigned = true) :
    (c.replace d).unassigned = true := by
  induction c with
  | base _ => exact hd
  | assigned _ _ => cases hc
  | ref c ih | deref c ih | index c _ ih => exact ih hc

theorem unassigned_invertOnto (c : Capture) (hd : d.unassigned = true) : (c.invertOnto d).unassigned = true := by
  induction c generalizing d with
  | base _ => exact hd
  | ref c ih | assigned c ih | deref c ih | index c _ ih => exact ih hd

theorem indexed_invertOnto (c : Capture) (hd : d.indexed = false) : (c.invertOnto d).indexed = false := by
  induction c generalizing d with
  | base _ => exact hd
  | ref c ih | assigned c ih | deref c ih | index c _ ih => exact ih hd

/-- Behind a position it does not count what the variable is replaced by. -/
theorem lead_replace (c d : Capture) : (c.replace d).lead = if c.indexed then c.lead else c.lead + d.lead := by
  induction c with
  | base _ => simp [replace, indexed, lead]
  | index _ _ _ => rfl
  | ref c ih | assigned c ih | deref c ih =>
      rw [replace, lead, ih, indexed, lead]
      split <;> ring

/-- The lead of an access path without positions is its level. -/
theorem Along.lead_eq (h : Along v c r p) (hc : c.indexed = false) : c.lead = p := by
  induction h with
  | base => rfl
  | ref _ ih | assigned _ ih | deref _ ih => rw [lead, ih hc]
  | index => cases hc

/-! ## Dereferences and positions -/

/-- How many dereferences and positions the capture goes through. -/
def hops : Capture → ℕ
  | .base _ => 0
  | .ref inner | .assigned inner => hops inner
  | .deref inner | .index inner _ => hops inner + 1

theorem hops_of_sameShape (h : c.sameShape d = true) : c.hops = d.hops := by
  fun_induction sameShape c d with
  | case1 => rfl
  | case2 _ _ ih | case3 _ _ ih => exact ih h
  | case4 _ _ ih => exact congrArg Nat.succ (ih h)
  | case5 _ _ _ _ ih =>
      rw [Bool.and_eq_true] at h
      exact congrArg Nat.succ (ih h.2)
  | case6 => cases h

/-- A join goes through no more than either side. -/
theorem hops_join_le (c d : Capture) : (c.join d).hops ≤ c.hops ∧ (c.join d).hops ≤ d.hops := by
  have habsorb {c a j d : Capture} (hca : c.hops = a.hops) (hj : j.hops ≤ a.hops ∧ j.hops ≤ d.hops) :
      (absorb c a j).hops ≤ c.hops ∧ (absorb c a j).hops ≤ d.hops := by
    unfold absorb
    split
    · next hsame => exact ⟨Nat.le_refl _, hca.trans (hops_of_sameShape hsame).symm ▸ hj.2⟩
    · exact ⟨hca ▸ hj.1, hj.2⟩
  fun_induction Capture.join c d with
  | case1 a b ih | case2 a b ih | case3 a b ih | case4 a b ih => exact ih
  | case5 a d _ _ ih | case6 a d _ _ ih => exact habsorb rfl ih
  | case7 c b _ _ ih => exact (habsorb (c := .ref b) (a := b) rfl ih).symm
  | case8 c b _ _ ih => exact (habsorb (c := .assigned b) (a := b) rfl ih).symm
  | case9 => exact ⟨Nat.le_refl _, Nat.zero_le _⟩
  | case10 => exact ⟨Nat.zero_le _, Nat.le_refl _⟩
  | case11 a b ih | case12 a i b j _ ih => exact ⟨Nat.succ_le_succ ih.1, Nat.succ_le_succ ih.2⟩
  | case13 a i b j _ ih | case14 a b _ ih | case15 a _ b ih =>
      exact ⟨ih.1.trans (Nat.le_succ _), ih.2.trans (Nat.le_succ _)⟩

/-- All that the capture goes through are positions, or all are dereferences. -/
def hopsBy (positions : Bool) : Capture → Bool
  | .base _ => true
  | .ref inner | .assigned inner => hopsBy positions inner
  | .deref inner => !positions && hopsBy positions inner
  | .index inner position => positions && position.isZero && hopsBy positions inner

section

variable {positions : Bool} {i j : Expr}

theorem sameLiteral_of_hopsBy (hc : (index c i).hopsBy positions = true) (hd : (index d j).hopsBy positions = true) :
    i.sameLiteral j = true := by
  rw [hopsBy, Bool.and_eq_true, Bool.and_eq_true] at hc hd
  exact Expr.sameLiteral_of_isZero hc.1.2 hd.1.2

theorem not_hopsBy_both (hc : (deref c).hopsBy positions = true) (hd : (index d j).hopsBy positions = true) :
    False := by
  cases positions <;> simp [hopsBy] at hc hd

/-- A join of captures that go through positions only, or through dereferences only, goes through as much as
one of them. -/
theorem le_hops_join (hc : c.hopsBy positions = true) (hd : d.hopsBy positions = true) :
    (c.join d).hopsBy positions = true ∧ (c.hops ≤ (c.join d).hops ∨ d.hops ≤ (c.join d).hops) := by
  have habsorb {c a j d : Capture} (hca : c.hops = a.hops) (hc : c.hopsBy positions = true)
      (hj : j.hopsBy positions = true ∧ (a.hops ≤ j.hops ∨ d.hops ≤ j.hops)) :
      (absorb c a j).hopsBy positions = true ∧ (c.hops ≤ (absorb c a j).hops ∨ d.hops ≤ (absorb c a j).hops) := by
    unfold absorb
    split
    · exact ⟨hc, Or.inl (Nat.le_refl _)⟩
    · exact ⟨hj.1, hca ▸ hj.2⟩
  fun_induction Capture.join c d with
  | case1 a b ih | case2 a b ih | case3 a b ih | case4 a b ih => exact ih hc hd
  | case5 a d _ _ ih => exact habsorb (c := .ref a) (a := a) rfl hc (ih hc hd)
  | case6 a d _ _ ih => exact habsorb (c := .assigned a) (a := a) rfl hc (ih hc hd)
  | case7 c b _ _ ih => exact (habsorb (c := .ref b) (a := b) rfl hd (ih hd hc)).imp_right Or.symm
  | case8 c b _ _ ih => exact (habsorb (c := .assigned b) (a := b) rfl hd (ih hd hc)).imp_right Or.symm
  | case9 => exact ⟨hc, Or.inl (Nat.le_refl _)⟩
  | case10 => exact ⟨hd, Or.inr (Nat.le_refl _)⟩
  | case11 a b ih | case12 a i b j _ ih =>
      rw [hopsBy, Bool.and_eq_true] at hc hd ⊢
      obtain ⟨hby, hle⟩ := ih hc.2 hd.2
      exact ⟨⟨hc.1, hby⟩, hle.imp Nat.succ_le_succ Nat.succ_le_succ⟩
  | case13 a i b j hne ih => exact absurd (sameLiteral_of_hopsBy hc hd) hne
  | case14 a b _ ih => exact (not_hopsBy_both hc hd).elim
  | case15 a _ b ih => exact (not_hopsBy_both hd hc).elim

theorem pointee?_join_eq_none (hc : c.hopsBy positions = true) (hd : d.hopsBy positions = true)
    (hpc : c.pointee? = none) (hpd : d.pointee? = none) : (c.join d).pointee? = none := by
  fun_induction Capture.join c d with
  | case1 | case2 | case3 | case4 | case5 | case6 => cases hpc
  | case7 | case8 => cases hpd
  | case9 | case10 | case11 | case12 => rfl
  | case13 a i b j hne ih => exact absurd (sameLiteral_of_hopsBy hc hd) hne
  | case14 a b _ ih => exact (not_hopsBy_both hc hd).elim
  | case15 a _ b ih => exact (not_hopsBy_both hd hc).elim

end

theorem Along.neg_hops_le (h : Along v c r p) : -c.hops ≤ p := by
  induction h with
  | base => exact le_refl 0
  | ref _ ih | assigned _ ih =>
      rw [hops]
      omega
  | deref _ ih | index _ _ ih =>
      rw [hops]
      push_cast
      omega

/-! ## Tidy captures -/

/-- No address is that of an address or dereferenced at once. -/
def tidy : Capture → Bool
  | .base _ => true
  | .ref inner | .assigned inner | .deref inner => inner.pointee?.isNone && tidy inner
  | .index inner _ => tidy inner

theorem tidy_of_plain (h : c.plain = true) : c.tidy = true ∧ c.pointee? = none := by
  induction c with
  | base _ => exact ⟨rfl, rfl⟩
  | ref _ _ | assigned _ _ => cases h
  | deref c ih =>
      obtain ⟨htidy, hpointee⟩ := ih h
      exact ⟨by simp [tidy, htidy, hpointee], rfl⟩
  | index c _ ih => exact ⟨(ih h).1, rfl⟩

theorem tidy_of_outermost (h : c.outermost = true) : c.tidy = true := by
  cases hpointee : c.pointee? with
  | none =>
      rw [outermost, hpointee, Option.getD_none] at h
      exact (tidy_of_plain h).1
  | some inner =>
      rw [outermost, hpointee, Option.getD_some] at h
      obtain ⟨htidy, hinner⟩ := tidy_of_plain h
      cases c <;> cases hpointee <;> simp [tidy, htidy, hinner]

/-- Joins of captures that go through positions only, or through dereferences only, stay tidy. -/
theorem tidy_join {positions : Bool} (hbc : c.hopsBy positions = true) (hbd : d.hopsBy positions = true)
    (hc : c.tidy = true) (hd : d.tidy = true) : (c.join d).tidy = true := by
  have habsorb {c a j : Capture} (hc : c.tidy = true) (hj : j.tidy = true) : (absorb c a j).tidy = true := by
    unfold absorb
    split
    · exact hc
    · exact hj
  fun_induction Capture.join c d with
  | case1 a b ih | case2 a b ih | case3 a b ih | case4 a b ih =>
      simp only [tidy, Bool.and_eq_true, Option.isNone_iff_eq_none] at hc hd ⊢
      exact ⟨pointee?_join_eq_none hbc hbd hc.1 hd.1, ih hbc hbd hc.2 hd.2⟩
  | case5 a d _ _ ih | case6 a d _ _ ih =>
      refine habsorb hc (ih hbc hbd ?_ hd)
      rw [tidy, Bool.and_eq_true] at hc
      exact hc.2
  | case7 c b _ _ ih | case8 c b _ _ ih =>
      refine habsorb hd (ih hbd hbc ?_ hc)
      rw [tidy, Bool.and_eq_true] at hd
      exact hd.2
  | case9 => exact hc
  | case10 => exact hd
  | case11 a b ih =>
      simp only [tidy, hopsBy, Bool.and_eq_true, Option.isNone_iff_eq_none] at hc hd hbc hbd ⊢
      exact ⟨pointee?_join_eq_none hbc.2 hbd.2 hc.1 hd.1, ih hbc.2 hbd.2 hc.2 hd.2⟩
  | case12 a i b j _ ih =>
      simp only [hopsBy, Bool.and_eq_true] at hbc hbd
      exact ih hbc.2 hbd.2 hc hd
  | case13 a i b j hne ih => exact absurd (sameLiteral_of_hopsBy hbc hbd) hne
  | case14 a b _ ih => exact (not_hopsBy_both hbc hbd).elim
  | case15 a _ b ih => exact (not_hopsBy_both hbd hbc).elim

theorem lead_le_of_tidy (hc : c.tidy = true) : c.lead ≤ 1 ∧ (c.pointee? = none → c.lead ≤ 0) := by
  induction c with
  | base _ | index _ _ _ => simp [lead]
  | ref c ih | assigned c ih =>
      rw [tidy, Bool.and_eq_true, Option.isNone_iff_eq_none] at hc
      have := (ih hc.2).2 hc.1
      rw [lead]
      exact ⟨by omega, nofun⟩
  | deref c ih =>
      rw [tidy, Bool.and_eq_true, Option.isNone_iff_eq_none] at hc
      have := (ih hc.2).2 hc.1
      rw [lead]
      exact ⟨by omega, fun _ => by omega⟩

/-- Without positions, every dereference counts. -/
theorem lead_le_neg_hops (hc : c.tidy = true) (hi : c.indexed = false) :
    c.lead ≤ 1 - c.hops ∧ (c.pointee? = none → c.lead ≤ -c.hops) := by
  induction c with
  | base _ => simp [lead, hops]
  | index _ _ _ => cases hi
  | ref c ih | assigned c ih =>
      rw [tidy, Bool.and_eq_true, Option.isNone_iff_eq_none] at hc
      have := (ih hc.2 hi).2 hc.1
      rw [lead, hops]
      exact ⟨by omega, nofun⟩
  | deref c ih =>
      rw [tidy, Bool.and_eq_true, Option.isNone_iff_eq_none] at hc
      have := (ih hc.2 hi).2 hc.1
      rw [lead, hops]
      push_cast
      exact ⟨by omega, fun _ => by omega⟩

/-- What a usage becomes. If it goes through as much as the most general capture, no address of an address is
left outside positions, and no address at all unless the usage is one. -/
theorem lead_replace_invert_le {m : Capture} (hc : c.tidy = true) (hm : Along v m r p) (hle : m.hops ≤ c.hops)
    (i : NodeId) : (c.replace (m.invert (.var i w))).lead ≤ 1 ∧
      (c.pointee? = none → (c.replace (m.invert (.var i w))).lead ≤ 0) := by
  rw [lead_replace]
  split
  · exact lead_le_of_tidy hc
  · next hindexed =>
    have hinvert : (m.invert (.var i w)).lead = -p := (hm.invert i).lead_eq (indexed_invertOnto m rfl)
    obtain ⟨hone, hzero⟩ := lead_le_neg_hops hc (by simpa using hindexed)
    have hhops := hm.neg_hops_le
    rw [hinvert]
    refine ⟨by omega, fun hpointee => ?_⟩
    have := hzero hpointee
    omega

/-- A tidy access path through an expression that has the value of another one. -/
theorem Along.wellAddressed_replace {m : Capture} (h : Along v c r p) (hun : c.unassigned = true)
    (hc : c.tidy = true) (hm : Along v m r' p') (hle : m.hops ≤ c.hops) (i : NodeId) :
    (c.replace (m.invert (.var i w))).simplify.toExpr.WellAddressed ∧
      (c.pointee? = none → (c.replace (m.invert (.var i w))).simplify.toExpr.isPlace = true) := by
  obtain ⟨hone, hzero⟩ := lead_replace_invert_le (w := w) hc hm hle i
  have hun := unassigned_replace hun (unassigned_invertOnto m (d := .base (.var i w)) rfl)
  have halong := h.replace (hm.invert (w := w) i)
  exact ⟨halong.wellAddressed hun hone, fun hpointee => halong.isPlace hun (hzero hpointee)⟩

theorem Along.wellAddressed_argument (h : Along v c r p) (hc : c.lead ≤ 1) : c.argument.WellAddressed :=
  h.toArgument.wellAddressed (unassigned_toArgument c) ((lead_toArgument c).trans_le hc)

/-- What is passed on. If it goes through as much as what the caller got, no address of an address is left
outside positions. -/
theorem Along.wellAddressed_through {m : Capture} (h : Along v c r p) (hc : c.tidy = true)
    (hm : Along v m r' p') (hle : m.hops ≤ c.hops) (i : NodeId) :
    (c.through m (.var i w)).argument.WellAddressed := by
  have hinvert := hm.simplify.invert (w := w) i
  refine (h.simplify.replace hinvert).wellAddressed_argument ?_
  rw [lead_replace, lead_simplify, indexed_simplify]
  split
  · exact (lead_le_of_tidy hc).1
  · next hindexed =>
    rw [hinvert.lead_eq (indexed_invertOnto m.simplify rfl)]
    have hlead := (lead_le_neg_hops hc (by simpa using hindexed)).1
    have hhops := hm.neg_hops_le
    omega

/-! ## The most general capture -/

theorem hops_foldl_join_le (us : List Usage) (c : Capture) :
    (us.foldl (fun c u => c.join u.capture) c).hops ≤ c.hops ∧
      ∀ u ∈ us, (us.foldl (fun c u => c.join u.capture) c).hops ≤ u.capture.hops := by
  induction us generalizing c with
  | nil => exact ⟨Nat.le_refl _, nofun⟩
  | cons u us ih =>
      obtain ⟨hc, hus⟩ := ih (c.join u.capture)
      obtain ⟨hjc, hju⟩ := hops_join_le c u.capture
      exact ⟨hc.trans hjc, List.forall_mem_cons.2 ⟨hc.trans hju, hus⟩⟩

theorem hops_le_of_joinUsages {name block : String} {us : List Usage} (h : joinUsages name block us = .ok c)
    {u : Usage} (hu : u ∈ us) : c.hops ≤ u.capture.hops := by
  obtain ⟨first, rest, rfl, rfl⟩ := joinUsages_eq_ok h
  obtain ⟨hfirst, hrest⟩ := hops_foldl_join_le rest first.capture
  rcases List.mem_cons.1 hu with rfl | hu
  · exact hfirst
  · exact hrest u hu

/-- The most general capture of tidy usages, all through positions or all through dereferences, is tidy and goes
through as much as one of them. -/
theorem tidy_of_joinUsages {name block : String} {us : List Usage} (h : joinUsages name block us = .ok c)
    {positions : Bool} (hus : ∀ u ∈ us, u.capture.hopsBy positions = true ∧ u.capture.tidy = true) :
    c.tidy = true ∧ ∃ u ∈ us, u.capture.hops ≤ c.hops := by
  refine (joinUsages_induction
    (P := fun c => c.hopsBy positions = true ∧ c.tidy = true ∧ ∃ u ∈ us, u.capture.hops ≤ c.hops) h
    (fun u hu => ⟨(hus u hu).1, (hus u hu).2, u, hu, Nat.le_refl _⟩) ?_).2
  rintro c d ⟨hbc, hc, u, hu, huc⟩ ⟨hbd, hd, u', hu', hud⟩
  have htidy := tidy_join hbc hbd hc hd
  obtain ⟨hby, hle | hle⟩ := le_hops_join hbc hbd
  · exact ⟨hby, htidy, u, hu, huc.trans hle⟩
  · exact ⟨hby, htidy, u', hu', hud.trans hle⟩

end Capture

end Diversity
