import Mathlib.Algebra.GroupWithZero.Nat
import Mathlib.Data.List.Forall2
/-! What a computation that may fail, or that carries a state, gives when it succeeds. -/
namespace Diversity

variable {ε σ α β : Type}

theorem forall₂_mem_left {R : α → β → Prop} {as : List α} {bs : List β} (h : List.Forall₂ R as bs) {a : α}
    (ha : a ∈ as) : ∃ b ∈ bs, R a b := by
  induction h with
  | nil => cases ha
  | cons hab _ ih =>
      rcases List.mem_cons.1 ha with rfl | ha
      · exact ⟨_, List.mem_cons_self, hab⟩
      · exact (ih ha).imp fun b hb => ⟨List.mem_cons_of_mem _ hb.1, hb.2⟩

theorem forall₂_mem_right {R : α → β → Prop} {as : List α} {bs : List β} (h : List.Forall₂ R as bs) {b : β}
    (hb : b ∈ bs) : ∃ a ∈ as, R a b :=
  forall₂_mem_left (List.Forall₂.flip (R := fun b a => R a b) h) hb

theorem bind_eq_ok {x : Except ε α} {f : α → Except ε β} {b : β} :
    (x >>= f) = .ok b ↔ ∃ a, x = .ok a ∧ f a = .ok b := by
  cases x with
  | error e => exact ⟨nofun, nofun⟩
  | ok a => exact ⟨fun h => ⟨a, rfl, h⟩, fun ⟨_, rfl, h⟩ => h⟩

theorem toOption_eq_some {x : Except ε α} {a : α} : x.toOption = some a ↔ x = .ok a := by
  cases x <;> simp [Except.toOption]

theorem run_bind_eq_ok {x : StateT σ (Except ε) α} {f : α → StateT σ (Except ε) β} {s s' : σ} {b : β} :
    (x >>= f) s = .ok (b, s') ↔ ∃ a s₁, x s = .ok (a, s₁) ∧ f a s₁ = .ok (b, s') := by
  refine (bind_eq_ok (x := x s) (f := fun p => f p.1 p.2)).trans ?_
  exact ⟨fun ⟨⟨a, s₁⟩, h, k⟩ => ⟨a, s₁, h, k⟩, fun ⟨a, s₁, h, k⟩ => ⟨(a, s₁), h, k⟩⟩

theorem run_liftM_eq_ok {x : Except ε α} {s s' : σ} {a : α}
    (h : (liftM x : StateT σ (Except ε) α) s = .ok (a, s')) : x = .ok a ∧ s' = s := by
  cases x with
  | error e => cases h
  | ok b =>
    cases h
    exact ⟨rfl, rfl⟩

theorem mapM_eq_ok {f : α → Except ε β} {as : List α} {bs : List β} :
    as.mapM f = .ok bs ↔ List.Forall₂ (fun a b => f a = .ok b) as bs := by
  induction as generalizing bs with
  | nil =>
    rw [List.mapM_nil, List.forall₂_nil_left_iff]
    exact ⟨fun h => by cases h; rfl, fun h => by rw [h]; rfl⟩
  | cons a as ih =>
    rw [List.mapM_cons, bind_eq_ok, List.forall₂_cons_left_iff]
    constructor
    · rintro ⟨b, hb, h⟩
      obtain ⟨bs', hbs, h⟩ := bind_eq_ok.1 h
      cases h
      exact ⟨b, bs', hb, ih.1 hbs, rfl⟩
    · rintro ⟨b, bs', hb, hbs, rfl⟩
      exact ⟨b, hb, bind_eq_ok.2 ⟨bs', ih.2 hbs, rfl⟩⟩

theorem mapError_eq_ok {δ : Type} {x : Except ε α} {f : ε → δ} {a : α} : x.mapError f = .ok a ↔ x = .ok a := by
  cases x <;> simp [Except.mapError]

theorem forM_eq_ok {f : α → Except ε Unit} {as : List α} (h : as.forM f = .ok ()) :
    ∀ a ∈ as, f a = .ok () := by
  induction as with
  | nil => exact nofun
  | cons a as ih =>
    obtain ⟨_, ha, h⟩ := bind_eq_ok.1 h
    exact List.forall_mem_cons.2 ⟨ha, ih h⟩

theorem forM_eq_ok_iff {f : α → Except ε Unit} {as : List α} : as.forM f = .ok () ↔ ∀ a ∈ as, f a = .ok () := by
  constructor
  · exact forM_eq_ok
  · intro h
    induction as with
    | nil => rfl
    | cons a as ih =>
      obtain ⟨ha, has⟩ := List.forall_mem_cons.1 h
      exact bind_eq_ok.2 ⟨(), ha, ih has⟩

theorem foldlM_induction {f : β → α → Except ε β} {P : β → Prop} {as : List α} {b b' : β}
    (h : as.foldlM f b = .ok b') (hb : P b) (step : ∀ b a b', P b → f b a = .ok b' → P b') : P b' := by
  induction as generalizing b with
  | nil =>
    cases h
    exact hb
  | cons a as ih =>
    rw [List.foldlM_cons] at h
    obtain ⟨b₁, h₁, h⟩ := bind_eq_ok.1 h
    exact ih h (step b a b₁ hb h₁)

theorem map_eq_map_of_forall₂ {γ : Type} {R : α → β → Prop} {f : α → γ} {g : β → γ} {as : List α}
    {bs : List β} (h : List.Forall₂ R as bs) (hR : ∀ a b, R a b → f a = g b) : as.map f = bs.map g := by
  induction h with
  | nil => rfl
  | cons hab _ ih => rw [List.map_cons, List.map_cons, hR _ _ hab, ih]

/-- The elements of two lists are related in order, while a state goes along. -/
inductive Chained (R : σ → α → β → σ → Prop) : σ → List α → List β → σ → Prop
  | nil {s} : Chained R s [] [] s
  | cons {s s₁ s' a b as bs} : R s a b s₁ → Chained R s₁ as bs s' → Chained R s (a :: as) (b :: bs) s'

theorem Chained.mono {R Q : σ → α → β → σ → Prop} (hRQ : ∀ s a b s', R s a b s' → Q s a b s') {s s' : σ}
    {as : List α} {bs : List β} (h : Chained R s as bs s') : Chained Q s as bs s' := by
  induction h with
  | nil => exact .nil
  | cons h _ ih => exact .cons (hRQ _ _ _ _ h) ih

theorem Chained.refl {R : σ → α → α → σ → Prop} {s : σ} (hR : ∀ a, R s a a s) (as : List α) :
    Chained R s as as s := by
  induction as with
  | nil => exact .nil
  | cons a as ih => exact .cons (hR a) ih

/-- What a step keeps, a chain of steps keeps. -/
theorem Chained.invariant {R : σ → α → β → σ → Prop} {P : σ → Prop} {s s' : σ} {as : List α} {bs : List β}
    (h : Chained R s as bs s') (step : ∀ s a b s', a ∈ as → R s a b s' → P s → P s') (hs : P s) : P s' := by
  induction h with
  | nil => exact hs
  | cons h _ ih =>
    refine ih (fun s a b s' ha => step s a b s' (List.mem_cons_of_mem _ ha)) ?_
    exact step _ _ _ _ List.mem_cons_self h hs

/-- What each step adds to a number, a chain of steps adds up. -/
theorem Chained.sum_eq {R : σ → α → β → σ → Prop} {m : σ → Nat} {w : β → Nat} {s s' : σ} {as : List α}
    {bs : List β} (h : Chained R s as bs s') (step : ∀ s a b s', a ∈ as → R s a b s' → m s' = m s + w b) :
    m s' = m s + (bs.map w).sum := by
  induction h with
  | nil => rfl
  | cons h _ ih =>
    rw [ih fun s a b s' ha => step s a b s' (List.mem_cons_of_mem _ ha), step _ _ _ _ List.mem_cons_self h,
      List.map_cons, List.sum_cons, Nat.add_assoc]

/-- A condition that goes from the end of a chain to its start may be used at every step. -/
theorem Chained.forall₂_back {R : σ → α → β → σ → Prop} {P : σ → Prop} {Q : α → β → Prop} {s s' : σ}
    {as : List α} {bs : List β} (h : Chained R s as bs s')
    (back : ∀ s a b s', a ∈ as → R s a b s' → P s' → P s ∧ Q a b) (hs : P s') :
    P s ∧ List.Forall₂ Q as bs := by
  induction h with
  | nil => exact ⟨hs, .nil⟩
  | cons h _ ih =>
    obtain ⟨hs, hrest⟩ := ih (fun s a b s' ha => back s a b s' (List.mem_cons_of_mem _ ha)) hs
    obtain ⟨hs, hab⟩ := back _ _ _ _ List.mem_cons_self h hs
    exact ⟨hs, .cons hab hrest⟩

theorem Chained.forall₂ {R : σ → α → β → σ → Prop} {s s' : σ} {as : List α} {bs : List β}
    (h : Chained R s as bs s') : List.Forall₂ (fun a b => ∃ s s', R s a b s') as bs := by
  induction h with
  | nil => exact .nil
  | cons h _ ih => exact .cons ⟨_, _, h⟩ ih

theorem Chained.append {R : σ → α → β → σ → Prop} {s s₁ s' : σ} {as as' : List α} {bs bs' : List β}
    (h : Chained R s as bs s₁) (h' : Chained R s₁ as' bs' s') :
    Chained R s (as ++ as') (bs ++ bs') s' := by
  induction h with
  | nil => exact h'
  | cons h _ ih => exact .cons h (ih h')

theorem chained_of_mapM {f : α → StateT σ (Except ε) β} {as : List α} {bs : List β} {s s' : σ}
    (h : as.mapM f s = .ok (bs, s')) : Chained (fun s a b s' => f a s = .ok (b, s')) s as bs s' := by
  induction as generalizing bs s with
  | nil =>
    rw [List.mapM_nil] at h
    cases h
    exact .nil
  | cons a as ih =>
    rw [List.mapM_cons] at h
    obtain ⟨b, s₁, hb, h⟩ := run_bind_eq_ok.1 h
    obtain ⟨bs', s₂, hbs, h⟩ := run_bind_eq_ok.1 h
    cases h
    exact .cons hb (ih hbs)

theorem filterAuxM_eq_map {m : Type → Type} [Monad m] [LawfulMonad m] (f : α → m Bool) (as acc : List α) :
    as.filterAuxM f acc = (· ++ acc) <$> as.filterAuxM f [] := by
  induction as generalizing acc with
  | nil => simp [List.filterAuxM]
  | cons a as ih =>
    rw [List.filterAuxM, List.filterAuxM, map_bind]
    refine bind_congr fun keep => ?_
    cases keep with
    | false => exact ih acc
    | true =>
      rw [cond_true, cond_true, ih (a :: acc), ih [a], Functor.map_map]
      simp

theorem filterM_nil {m : Type → Type} [Monad m] [LawfulMonad m] (f : α → m Bool) : [].filterM f = pure [] := by
  simp [List.filterM, List.filterAuxM]

theorem filterM_cons {m : Type → Type} [Monad m] [LawfulMonad m] (f : α → m Bool) (a : α) (as : List α) :
    (a :: as).filterM f = do
      let keep ← f a
      let bs ← as.filterM f
      return if keep then a :: bs else bs := by
  rw [List.filterM, List.filterAuxM, bind_assoc]
  refine bind_congr fun keep => ?_
  cases keep with
  | false => simp [List.filterM]
  | true =>
    rw [cond_true, filterAuxM_eq_map f as [a]]
    simp [List.filterM]

theorem filterM_cons_eq_ok {f : α → StateT σ (Except ε) Bool} {a : α} {as bs : List α} {s s' : σ} :
    (a :: as).filterM f s = .ok (bs, s') ↔ ∃ keep s₁ rest, f a s = .ok (keep, s₁) ∧
      as.filterM f s₁ = .ok (rest, s') ∧ bs = if keep then a :: rest else rest := by
  rw [filterM_cons, run_bind_eq_ok]
  constructor
  · rintro ⟨keep, s₁, hkeep, h⟩
    obtain ⟨rest, s₂, hrest, h⟩ := run_bind_eq_ok.1 h
    cases h
    exact ⟨keep, s₁, rest, hkeep, hrest, rfl⟩
  · rintro ⟨keep, s₁, rest, hkeep, hrest, rfl⟩
    exact ⟨keep, s₁, hkeep, run_bind_eq_ok.2 ⟨rest, s', hrest, rfl⟩⟩

/-- Computations of which it can be said that from a state they give a value and a next state. -/
class Outcome (m : Type → Type) [Monad m] (σ : outParam Type) where
  Gives {α : Type} (x : m α) (s : σ) (a : α) (s' : σ) : Prop
  of_pure {α : Type} {a b : α} {s s' : σ} : Gives (pure a : m α) s b s' → b = a ∧ s' = s
  of_bind {α β : Type} {x : m α} {f : α → m β} {b : β} {s s' : σ} :
    Gives (x >>= f) s b s' → ∃ a s₁, Gives x s a s₁ ∧ Gives (f a) s₁ b s'

instance : Outcome (Except ε) Unit where
  Gives x _ a _ := x = .ok a
  of_pure h := ⟨by cases h; rfl, rfl⟩
  of_bind h := (bind_eq_ok.1 h).imp fun _ h => ⟨(), h⟩

instance : Outcome (StateT σ (Except ε)) σ where
  Gives x s a s' := x s = .ok (a, s')
  of_pure h := by cases h; exact ⟨rfl, rfl⟩
  of_bind h := run_bind_eq_ok.1 h

theorem gives_iff_ok {x : Except ε α} {a : α} {s s' : Unit} : Outcome.Gives x s a s' ↔ x = .ok a := Iff.rfl

theorem gives_iff_run {x : StateT σ (Except ε) α} {a : α} {s s' : σ} :
    Outcome.Gives x s a s' ↔ x s = .ok (a, s') := Iff.rfl

end Diversity
