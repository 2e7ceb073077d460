import Mathlib.Data.List.Lex
import Mathlib.Data.Prod.Lex
import Mathlib.Order.Bounds.Basic
import Diversity.Proofs.Joining
/-! Chains of addresses and dereferences over one variable: by the number of dereferences, and then by the addresses
taken between them, they are totally ordered up to shape, and joining gives the greater one. -/
namespace Diversity

/-- Among lists of one length, the last elements decide if all before them are equal. -/
theorem append_singleton_lt_iff {as bs : List ℕ} (h : as.length = bs.length) (a b : ℕ) :
    as ++ [a] < bs ++ [b] ↔ as < bs ∨ as = bs ∧ a < b := by
  induction as generalizing bs with
  | nil =>
      obtain rfl := List.length_eq_zero_iff.1 h.symm
      simp [List.cons_lt_cons_iff]
  | cons x as ih =>
      cases bs with
      | nil => cases h
      | cons y bs =>
          have ih := ih (Nat.succ.inj h)
          simp only [List.cons_append, List.cons_lt_cons_iff, ih, List.cons.injEq]
          tauto

namespace Capture

/-- The capture goes to the variable through addresses and dereferences only. -/
inductive PointerChain (key : Option ChunkId × String) : Capture → Prop
  | base {i v} : v.key = key → PointerChain key (.base (.var i v))
  | ref {c} : PointerChain key c → PointerChain key (.ref c)
  | deref {c} : PointerChain key c → PointerChain key (.deref c)

/-- How many addresses are taken below each dereference, from the variable outwards, and how many above the last. -/
def runs : Capture → List ℕ × ℕ
  | .base _ => ([], 0)
  | .ref inner | .assigned inner => ((runs inner).1, (runs inner).2 + 1)
  | .deref inner | .index inner _ => ((runs inner).1 ++ [(runs inner).2], 0)

/-- The fewer dereferences the higher, and then the more addresses the higher, where those near the variable count
before those further out. -/
def rank (c : Capture) : ℕᵒᵈ ×ₗ List ℕ ×ₗ ℕ := toLex (OrderDual.toDual c.runs.1.length, toLex c.runs)

variable {key : Option ChunkId × String} {c d e : Capture}

/-! ## Ranks -/

theorem rank_eq_iff : c.rank = d.rank ↔ c.runs = d.runs := by
  constructor
  · intro h
    simpa [rank] using congrArg Prod.snd (toLex.injective h)
  · intro h
    simp [rank, h]

theorem rank_lt_iff : c.rank < d.rank ↔ d.runs.1.length < c.runs.1.length ∨
    c.runs.1.length = d.runs.1.length ∧ (c.runs.1 < d.runs.1 ∨ c.runs.1 = d.runs.1 ∧ c.runs.2 < d.runs.2) := by
  simp [rank, Prod.Lex.toLex_lt_toLex]

theorem rank_ref_lt_ref : (ref c).rank < (ref d).rank ↔ c.rank < d.rank := by
  simp [rank_lt_iff, runs]

theorem rank_deref_lt_deref : (deref c).rank < (deref d).rank ↔ c.rank < d.rank := by
  simp only [rank_lt_iff, runs, List.length_append, List.length_singleton, Nat.add_lt_add_iff_right,
    Nat.add_right_cancel_iff, Nat.lt_irrefl, and_false, or_false]
  exact or_congr_right (and_congr_right fun hlen => append_singleton_lt_iff hlen _ _)

theorem rank_lt_ref (c : Capture) : c.rank < (ref c).rank := by
  simp [rank_lt_iff, runs]

theorem rank_deref_lt_base (c : Capture) (e : Expr) : (deref c).rank < (base e).rank := by
  simp [rank_lt_iff, runs]

/-- Between a capture and its address there are addresses only. -/
theorem rank_ref_lt (h : c.rank < d.rank) (hd : d.pointee? = none) : (ref c).rank < d.rank := by
  have htop : d.runs.2 = 0 := by cases d <;> cases hd <;> rfl
  rw [rank_lt_iff] at h ⊢
  simpa [runs, htop] using h

/-! ## Joins -/

theorem pointerChain_ref : PointerChain key (.ref c) ↔ PointerChain key c :=
  ⟨fun h => by cases h; assumption, .ref⟩

theorem pointerChain_deref : PointerChain key (.deref c) ↔ PointerChain key c :=
  ⟨fun h => by cases h; assumption, .deref⟩

theorem PointerChain.key_eq (h : PointerChain key c) : c.key = some key := by
  induction h with
  | base hv => exact congrArg some hv
  | ref _ ih | deref _ ih => exact ih

/-- Chains of one rank have the same shape. -/
theorem PointerChain.sameShape_iff (hc : PointerChain key c) (hd : PointerChain key d) :
    c.sameShape d = true ↔ c.rank = d.rank := by
  rw [rank_eq_iff]
  induction hc generalizing d with
  | base hv =>
      cases hd with
      | base hw => simp [sameShape, Expr.sameShape, runs, hv, hw]
      | _ => simp [sameShape, runs]
  | ref _ ih =>
      cases hd with
      | ref hd => simp [sameShape, runs, ih hd, Prod.ext_iff]
      | _ => simp [sameShape, runs]
  | deref _ ih =>
      cases hd with
      | deref hd => simp [sameShape, runs, ih hd, Prod.ext_iff]
      | _ => simp [sameShape, runs]

theorem PointerChain.join (hc : PointerChain key c) (hd : PointerChain key d) : PointerChain key (c.join d) := by
  have habsorb {c inner joined : Capture} (hc : PointerChain key c) (hj : PointerChain key joined) :
      PointerChain key (absorb c inner joined) := by
    unfold absorb
    split
    · exact hc
    · exact hj
  fun_induction Capture.join c d with
  | case1 a b ih => exact (ih (pointerChain_ref.1 hc) (pointerChain_ref.1 hd)).ref
  | case5 a d _ _ ih => exact habsorb hc (ih (pointerChain_ref.1 hc) hd)
  | case7 c b _ _ ih => exact habsorb hd (ih (pointerChain_ref.1 hd) hc)
  | case9 => exact hc
  | case10 => exact hd
  | case11 a b ih => exact (ih (pointerChain_deref.1 hc) (pointerChain_deref.1 hd)).deref
  | case3 | case4 | case6 | case12 | case13 | case15 => cases hc
  | case2 | case8 | case14 => cases hd

/-- What keeps and reflects the order of ranks keeps the greater one. -/
theorem rank_eq_max {f : Capture → Capture} {a b j : Capture} (hf : ∀ {a b}, (f a).rank < (f b).rank ↔ a.rank < b.rank)
    (h : j.rank = max a.rank b.rank) : (f j).rank = max (f a).rank (f b).rank := by
  have heq {a b : Capture} (h : a.rank = b.rank) : (f a).rank = (f b).rank := by
    apply le_antisymm <;> rw [← not_lt, hf, h] <;> exact lt_irrefl _
  rcases le_total a.rank b.rank with hab | hba
  · rw [max_eq_right hab] at h
    rw [heq h, max_eq_right (not_lt.1 fun hlt => not_lt.2 hab (hf.1 hlt))]
  · rw [max_eq_left hba] at h
    rw [heq h, max_eq_left (not_lt.1 fun hlt => not_lt.2 hba (hf.1 hlt))]

/-- An address absorbs just what does not rank above what it is the address of. -/
theorem PointerChain.rank_absorb (hc : PointerChain key c) (hd : d.pointee? = none) (hj : PointerChain key e)
    (h : e.rank = max c.rank d.rank) : (absorb (.ref c) c e).rank = max (Capture.ref c).rank d.rank := by
  unfold absorb
  split
  · next hsame =>
    rw [hj.sameShape_iff hc, h, max_eq_left_iff] at hsame
    exact (max_eq_left (hsame.trans (rank_lt_ref c).le)).symm
  · next hsame =>
    rw [hj.sameShape_iff hc, h, max_eq_left_iff, not_le] at hsame
    rw [h, max_eq_right hsame.le, max_eq_right (rank_ref_lt hsame hd).le]

theorem PointerChain.rank_join (hc : PointerChain key c) (hd : PointerChain key d) :
    (c.join d).rank = max c.rank d.rank := by
  fun_induction Capture.join c d with
  | case1 a b ih => exact rank_eq_max rank_ref_lt_ref (ih (pointerChain_ref.1 hc) (pointerChain_ref.1 hd))
  | case5 a d hr ha ih =>
      rw [pointerChain_ref] at hc
      exact hc.rank_absorb (pointee?_eq_none hr ha) (hc.join hd) (ih hc hd)
  | case7 c b hr ha ih =>
      rw [pointerChain_ref] at hd
      rw [max_comm]
      exact hd.rank_absorb (pointee?_eq_none hr ha) (hd.join hc) (ih hd hc)
  | case9 e d hr ha =>
      cases hd with
      | base _ => exact (max_self _).symm
      | ref _ => exact (hr _ rfl).elim
      | deref _ => exact (max_eq_left (rank_deref_lt_base _ _).le).symm
  | case10 c e hr ha hbase =>
      cases hc with
      | base _ => exact (hbase _ rfl).elim
      | ref _ => exact (hr _ rfl).elim
      | deref _ => exact (max_eq_right (rank_deref_lt_base _ _).le).symm
  | case11 a b ih => exact rank_eq_max rank_deref_lt_deref (ih (pointerChain_deref.1 hc) (pointerChain_deref.1 hd))
  | case3 | case4 | case6 | case12 | case13 | case15 => cases hc
  | case2 | case8 | case14 => cases hd

theorem PointerChain.maximal_eq_ok (hc : PointerChain key c) (hd : PointerChain key d) :
    c.maximal d = .ok (c.join d) :=
  if_pos (hc.key_eq.trans hd.key_eq.symm)

/-! ## Joins of many -/

def ranks (us : List Usage) : Set (ℕᵒᵈ ×ₗ List ℕ ×ₗ ℕ) := {r | ∃ u ∈ us, u.capture.rank = r}

theorem ranks_cons (u : Usage) (us : List Usage) : ranks (u :: us) = insert u.capture.rank (ranks us) := by
  ext r
  simp [ranks, eq_comm]

/-- Joined one after the other, chains give one of the greatest rank. -/
theorem PointerChain.exists_foldlM {us : List Usage} (hc : PointerChain key c)
    (hus : ∀ u ∈ us, PointerChain key u.capture) :
    ∃ m, us.foldlM (fun c u => c.maximal u.capture) c = .ok m ∧ PointerChain key m ∧
      IsGreatest (insert c.rank (ranks us)) m.rank := by
  induction us generalizing c with
  | nil => exact ⟨c, rfl, hc, by simp [ranks]⟩
  | cons u us ih =>
      obtain ⟨hu, hus⟩ := List.forall_mem_cons.1 hus
      obtain ⟨m, hm, hchain, hmem, hbound⟩ := ih (hc.join hu) hus
      rw [hc.rank_join hu] at hmem hbound
      have hmax : max c.rank u.capture.rank ≤ m.rank := hbound (Set.mem_insert _ _)
      refine ⟨m, ?_, hchain, ?_, ?_⟩
      · rw [List.foldlM_cons, hc.maximal_eq_ok hu]
        exact hm
      · rw [ranks_cons]
        rcases hmem with hmem | hmem
        · rcases max_choice c.rank u.capture.rank with h | h <;> simp [hmem, h]
        · exact Set.mem_insert_of_mem _ (Set.mem_insert_of_mem _ hmem)
      · rw [ranks_cons, upperBounds_insert, upperBounds_insert]
        refine ⟨(le_max_left _ _).trans hmax, (le_max_right _ _).trans hmax, ?_⟩
        exact fun r hr => hbound (Set.mem_insert_of_mem _ hr)

theorem exists_joinUsages {us : List Usage} (hne : us ≠ []) (hus : ∀ u ∈ us, PointerChain key u.capture)
    (name block : String) :
    ∃ m, joinUsages name block us = .ok m ∧ PointerChain key m ∧ IsGreatest (ranks us) m.rank := by
  cases us with
  | nil => exact absurd rfl hne
  | cons u us =>
      obtain ⟨hu, hus⟩ := List.forall_mem_cons.1 hus
      rw [ranks_cons]
      exact hu.exists_foldlM hus

/-- Both computations give captures, and these have the same shape. -/
def GiveSameShape (x y : Except SynthesisError Capture) : Prop :=
  ∃ c d, x = .ok c ∧ y = .ok d ∧ c.sameShape d = true

section

variable {us vs : List Usage}

theorem PointerChain.giveSameShape (hc : PointerChain key c) (hd : PointerChain key d) (h : c.rank = d.rank)
    {x y : Except SynthesisError Capture} (hx : x = .ok c) (hy : y = .ok d) : GiveSameShape x y :=
  ⟨c, d, hx, hy, (hc.sameShape_iff hd).2 h⟩

theorem PointerChain.sameShape_join (hc : PointerChain key c) (hd : PointerChain key d) :
    (c.join d).sameShape c = true ∨ (c.join d).sameShape d = true := by
  rw [(hc.join hd).sameShape_iff hc, (hc.join hd).sameShape_iff hd, hc.rank_join hd]
  exact max_choice _ _

theorem PointerChain.maximal_assoc (hc : PointerChain key c) (hd : PointerChain key d) (he : PointerChain key e) :
    GiveSameShape (do (← c.maximal d).maximal e) (do c.maximal (← d.maximal e)) := by
  rw [hc.maximal_eq_ok hd, hd.maximal_eq_ok he]
  apply ((hc.join hd).join he).giveSameShape (hc.join (hd.join he)) ?_ ((hc.join hd).maximal_eq_ok he)
    (hc.maximal_eq_ok (hd.join he))
  rw [(hc.join hd).rank_join he, hc.rank_join hd, hc.rank_join (hd.join he), hd.rank_join he, max_assoc]

theorem ranks_subset (hus : ∀ u ∈ us, PointerChain key u.capture) (hvs : ∀ v ∈ vs, PointerChain key v.capture)
    (h : ∀ u ∈ us, ∃ v ∈ vs, u.capture.sameShape v.capture = true) : ranks us ⊆ ranks vs := by
  rintro r ⟨u, hu, rfl⟩
  obtain ⟨v, hv, hsame⟩ := h u hu
  exact ⟨v, hv, (((hus u hu).sameShape_iff (hvs v hv)).1 hsame).symm⟩

theorem joinUsages_absorbs (hne : us ≠ []) (hus : ∀ u ∈ us, PointerChain key u.capture) {u : Usage} (hu : u ∈ us)
    (name block : String) :
    GiveSameShape (do (← joinUsages name block us).maximal u.capture) (joinUsages name block us) := by
  obtain ⟨m, hm, hchain, -, hbound⟩ := exists_joinUsages hne hus name block
  have hle : u.capture.rank ≤ m.rank := hbound ⟨u, hu, rfl⟩
  rw [hm]
  apply (hchain.join (hus u hu)).giveSameShape hchain ?_ (hchain.maximal_eq_ok (hus u hu)) rfl
  rw [hchain.rank_join (hus u hu), max_eq_left hle]

/-- The ranks order chains totally up to shape, and the join of two chains is the greater one. So the join of many is
the greatest of them, in whatever order and however often they come. -/
theorem maximal_of_chains (hc : PointerChain key c) (hd : PointerChain key d) (he : PointerChain key e)
    (hne : us ≠ []) (hus : ∀ u ∈ us, PointerChain key u.capture) (hvs : ∀ v ∈ vs, PointerChain key v.capture)
    (husvs : ∀ u ∈ us, ∃ v ∈ vs, u.capture.sameShape v.capture = true)
    (hvsus : ∀ v ∈ vs, ∃ u ∈ us, v.capture.sameShape u.capture = true) (name block : String) :
    (c.sameShape d = true ↔ c.rank = d.rank) ∧
      (∃ m, c.maximal d = .ok m ∧ m.rank = max c.rank d.rank ∧ (m.sameShape c = true ∨ m.sameShape d = true)) ∧
      GiveSameShape (c.maximal d) (d.maximal c) ∧
      GiveSameShape (do (← c.maximal d).maximal e) (do c.maximal (← d.maximal e)) ∧
      GiveSameShape (c.maximal c) (.ok c) ∧
      GiveSameShape (joinUsages name block us) (joinUsages name block vs) ∧
      ∀ u ∈ us, GiveSameShape (do (← joinUsages name block us).maximal u.capture) (joinUsages name block us) := by
  refine ⟨hc.sameShape_iff hd, ⟨_, hc.maximal_eq_ok hd, hc.rank_join hd, hc.sameShape_join hd⟩, ?_,
    hc.maximal_assoc hd he, ?_, ?_, fun u hu => joinUsages_absorbs hne hus hu name block⟩
  · apply (hc.join hd).giveSameShape (hd.join hc) ?_ (hc.maximal_eq_ok hd) (hd.maximal_eq_ok hc)
    rw [hc.rank_join hd, hd.rank_join hc, max_comm]
  · apply (hc.join hc).giveSameShape hc ?_ (hc.maximal_eq_ok hc) rfl
    rw [hc.rank_join hc, max_self]
  · obtain ⟨m, hm, hchain, hgreatest⟩ := exists_joinUsages hne hus name block
    obtain ⟨u, hu⟩ := List.exists_mem_of_ne_nil us hne
    obtain ⟨v, hv, -⟩ := husvs u hu
    obtain ⟨m', hm', hchain', hgreatest'⟩ := exists_joinUsages (List.ne_nil_of_mem hv) hvs name block
    have hranks : ranks us = ranks vs := (ranks_subset hus hvs husvs).antisymm (ranks_subset hvs hus hvsus)
    rw [hranks] at hgreatest
    exact hchain.giveSameShape hchain' (hgreatest.unique hgreatest') hm hm'

end

/-- Joined with `&x`, one `**x` gives what two of them give. -/
theorem maximal_of_chains_repeated :
    GiveSameShape (joinUsages "x" "main" [⟨⟨2⟩, .ref (bareX 1)⟩, ⟨⟨5⟩, .deref (.deref (bareX 3))⟩])
      (joinUsages "x" "main"
        [⟨⟨5⟩, .deref (.deref (bareX 3))⟩, ⟨⟨8⟩, .deref (.deref (bareX 6))⟩, ⟨⟨2⟩, .ref (bareX 1)⟩]) := by
  have hx (i : ℕ) : PointerChain (none, "x") (bareX i) := .base rfl
  refine (maximal_of_chains (hx 1).ref.deref (hx 3).deref.ref (hx 6) ?_ ?_ ?_ ?_ ?_ "x" "main").2.2.2.2.2.1
  · simp
  · simp [(hx _).ref, (hx _).deref.deref]
  · simp [(hx _).ref, (hx _).deref.deref]
  · simp [sameShape, bareX, Expr.sameShape]
  · simp [sameShape, bareX, Expr.sameShape]

end Capture

end Diversity
