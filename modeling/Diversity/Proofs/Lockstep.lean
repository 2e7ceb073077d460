import Diversity.Proofs.Outcome
/-! Two computations that go in step: the second one fails as the first one does, or ends where it ends, with its
result seen through a function. -/
namespace Diversity

/-- A notion of going in step that is kept by sequencing. -/
structure Lockstep (m : Type → Type) [Monad m] where
  /-- `Holds φ x y`: what `x` gives is, through `φ`, what `y` gives. -/
  Holds {α β : Type} (φ : α → β) (x : m α) (y : m β) : Prop
  pure {α β : Type} (φ : α → β) (a : α) : Holds φ (pure a) (pure (φ a))
  bind {α β γ δ : Type} {φ : α → β} {ψ : γ → δ} {x : m α} {y : m β} {f : α → m γ} {g : β → m δ} :
    Holds φ x y → (∀ a, Holds ψ (f a) (g (φ a))) → Holds ψ (x >>= f) (y >>= g)

namespace Lockstep

variable {ε σ α β γ δ : Type} {φ : α → β} {ψ : γ → δ}

/-- The same error, or the result through the function. -/
def except : Lockstep (Except ε) where
  Holds φ x y := y = x.map φ
  pure _ _ := rfl
  bind {_ _ _ _ _ _ x _ _ _} hx hf := by
    subst hx
    cases x with
    | error e => rfl
    | ok a => exact hf a

theorem except_id {x y : Except ε α} : except.Holds id x y ↔ y = x := by
  cases x <;> rfl

/-- From related states to related states. -/
def state (S : σ → σ → Prop) : Lockstep (StateM σ) where
  Holds φ x y := ∀ s s', S s s' → (y s').1 = φ (x s).1 ∧ S (x s).2 (y s').2
  pure _ _ _ _ hs := ⟨rfl, hs⟩
  bind {_ _ _ _ _ _ x y _ g} hx hf s s' hs := by
    obtain ⟨ha, hs⟩ := hx s s' hs
    have h := hf (x s).1 _ _ hs
    rw [← ha] at h
    exact h

/-- The same error, or related results. -/
inductive Agrees (R : α → β → Prop) : Except ε α → Except ε β → Prop
  | error {e} : Agrees R (.error e) (.error e)
  | ok {a b} : R a b → Agrees R (.ok a) (.ok b)

theorem Agrees.bind {R : α → β → Prop} {T : γ → δ → Prop} {x : Except ε α} {y : Except ε β} {f : α → Except ε γ}
    {g : β → Except ε δ} (h : Agrees R x y) (hf : ∀ a b, R a b → Agrees T (f a) (g b)) :
    Agrees T (x >>= f) (y >>= g) := by
  cases h with
  | error => exact .error
  | ok hr => exact hf _ _ hr

theorem Agrees.of_holds {x : Except ε α} {y : Except ε β} (h : except.Holds φ x y) :
    Agrees (fun a b => b = φ a) x y := by
  obtain rfl := h
  cases x with
  | error e => exact .error
  | ok a => exact .ok rfl

theorem Agrees.eq {x y : Except ε α} (h : Agrees (fun a b => b = a) x y) : y = x := by
  cases h with
  | error => rfl
  | ok h => rw [h]

/-- What does not touch the states may come first. -/
theorem Agrees.liftM_bind {R : α → β → Prop} {T : γ × σ → δ × σ → Prop} {x : Except ε α} {y : Except ε β}
    {f : α → StateT σ (Except ε) γ} {g : β → StateT σ (Except ε) δ} {s s' : σ} (h : Agrees R x y)
    (hf : ∀ a b, R a b → Agrees T (f a s) (g b s')) :
    Agrees T ((do f (← x) : StateT σ (Except ε) γ) s) ((do g (← y) : StateT σ (Except ε) δ) s') := by
  cases h with
  | error => exact .error
  | ok hr => exact hf _ _ hr

/-- From related states to related states, or to the same error. -/
def stateT (S : σ → σ → Prop) : Lockstep (StateT σ (Except ε)) where
  Holds φ x y := ∀ s s', S s s' → Agrees (fun r r' => r'.1 = φ r.1 ∧ S r.2 r'.2) (x s) (y s')
  pure _ _ _ _ hs := .ok ⟨rfl, hs⟩
  bind {_ _ _ _ φ ψ x y f g} hx hf s s' hs := by
    refine Agrees.bind (hx s s' hs) ?_
    rintro ⟨a, t⟩ ⟨_, t'⟩ ⟨rfl, ht⟩
    exact hf a t t' ht

section

variable {m : Type → Type} [Monad m] (L : Lockstep m)

theorem ite {c : Prop} [Decidable c] {x x' : m α} {y y' : m β} (h : c → L.Holds φ x y) (h' : ¬c → L.Holds φ x' y') :
    L.Holds φ (if c then x else x') (if c then y else y') := by
  by_cases hc : c
  · rw [if_pos hc, if_pos hc]
    exact h hc
  · rw [if_neg hc, if_neg hc]
    exact h' hc

theorem mapM [LawfulMonad m] {f : α → m γ} {g : β → m δ} {as : List α}
    (h : ∀ a ∈ as, L.Holds ψ (f a) (g (φ a))) : L.Holds (List.map ψ) (as.mapM f) ((as.map φ).mapM g) := by
  induction as with
  | nil =>
      rw [List.map_nil, List.mapM_nil, List.mapM_nil]
      exact L.pure (List.map ψ) []
  | cons a as ih =>
      rw [List.map_cons, List.mapM_cons, List.mapM_cons]
      refine L.bind (h a List.mem_cons_self) fun c => ?_
      refine L.bind (ih fun a ha => h a (List.mem_cons_of_mem _ ha)) fun cs => ?_
      exact L.pure (List.map ψ) (c :: cs)

theorem mapM_same [LawfulMonad m] {f : α → m γ} {g : α → m δ} {as : List α} (h : ∀ a ∈ as, L.Holds ψ (f a) (g a)) :
    L.Holds (List.map ψ) (as.mapM f) (as.mapM g) := by
  have hall := L.mapM (φ := id) h
  rwa [List.map_id] at hall

theorem forM {f : α → m Unit} {g : β → m Unit} {as : List α} (h : ∀ a ∈ as, L.Holds id (f a) (g (φ a))) :
    L.Holds id (as.forM f) ((as.map φ).forM g) := by
  induction as with
  | nil => exact L.pure id ()
  | cons a as ih =>
      refine L.bind (h a List.mem_cons_self) fun _ => ?_
      exact ih fun a ha => h a (List.mem_cons_of_mem _ ha)

theorem foldlM {f : γ → α → m γ} {g : δ → β → m δ} {as : List α} (c : γ)
    (h : ∀ c, ∀ a ∈ as, L.Holds ψ (f c a) (g (ψ c) (φ a))) :
    L.Holds ψ (as.foldlM f c) ((as.map φ).foldlM g (ψ c)) := by
  induction as generalizing c with
  | nil => exact L.pure ψ c
  | cons a as ih =>
      rw [List.map_cons, List.foldlM_cons, List.foldlM_cons]
      refine L.bind (h c a List.mem_cons_self) fun c => ?_
      exact ih c fun c a ha => h c a (List.mem_cons_of_mem _ ha)

theorem foldlM_same {f : γ → α → m γ} {g : δ → α → m δ} {as : List α} (c : γ)
    (h : ∀ c, ∀ a ∈ as, L.Holds ψ (f c a) (g (ψ c) a)) : L.Holds ψ (as.foldlM f c) (as.foldlM g (ψ c)) := by
  have hall := L.foldlM (φ := id) c h
  rwa [List.map_id] at hall

theorem filterM {f : α → m Bool} {g : β → m Bool} {as : List α} (h : ∀ a ∈ as, L.Holds id (f a) (g (φ a))) :
    L.Holds (List.map φ) (as.filterM f) ((as.map φ).filterM g) := by
  have haux (acc : List α) : L.Holds (List.map φ) (as.filterAuxM f acc) ((as.map φ).filterAuxM g (acc.map φ)) := by
    induction as generalizing acc with
    | nil => exact L.pure (List.map φ) acc
    | cons a as ih =>
        refine L.bind (h a List.mem_cons_self) fun b => ?_
        have ih := ih (fun a ha => h a (List.mem_cons_of_mem _ ha)) (cond b (a :: acc) acc)
        cases b <;> exact ih
  refine L.bind (haux []) fun as => ?_
  rw [← List.map_reverse]
  exact L.pure (List.map φ) as.reverse

end

section

variable {S : σ → σ → Prop}

theorem throw (e : ε) :
    (stateT S).Holds φ (throw e : StateT σ (Except ε) α) (throw e : StateT σ (Except ε) β) := fun _ _ _ => .error

/-- What does not touch the state leaves it in step. -/
theorem liftM {x : Except ε α} {y : Except ε β} (h : except.Holds φ x y) :
    (stateT S).Holds φ (liftM x : StateT σ (Except ε) α) (liftM y : StateT σ (Except ε) β) := by
  intro s s' hs
  obtain rfl := h
  cases x with
  | error e => exact .error
  | ok a => exact .ok ⟨rfl, hs⟩

theorem modifyGet {x : σ → α × σ} {y : σ → β × σ} (h : (state S).Holds φ x y) :
    (stateT S).Holds φ (modifyGet x : StateT σ (Except ε) α) (modifyGet y : StateT σ (Except ε) β) := by
  intro s s' hs
  exact .ok (h s s' hs)

/-- A draw from one state is in step with itself. -/
theorem modifyGet_self (x : σ → α × σ) :
    (stateT Eq).Holds id (MonadStateOf.modifyGet x : StateT σ (Except ε) α) (MonadStateOf.modifyGet x) := by
  refine modifyGet ?_
  rintro s _ rfl
  exact ⟨rfl, rfl⟩

/-- Steps may look at the states, which are related. -/
theorem get_then {f : σ → StateT σ (Except ε) α} {g : σ → StateT σ (Except ε) β}
    (h : ∀ s s', S s s' → Agrees (fun r r' => r'.1 = φ r.1 ∧ S r.2 r'.2) (f s s) (g s' s')) :
    (stateT S).Holds φ (get >>= f) (get >>= g) := h

theorem get_bind {f : σ → Except ε α} {g : σ → Except ε β} {k : α → StateT σ (Except ε) γ}
    {l : β → StateT σ (Except ε) δ}
    (h : ∀ s s', S s s' → except.Holds φ (f s) (g s')) (hk : ∀ a, (stateT S).Holds ψ (k a) (l (φ a))) :
    (stateT S).Holds ψ (do k (← f (← get)) : StateT σ (Except ε) γ) (do l (← g (← get)) : StateT σ (Except ε) δ) :=
  get_then fun s s' hs => (stateT S).bind (liftM (h s s' hs)) hk s s' hs

theorem set {t t' : σ} (h : S t t') :
    (stateT S).Holds id (set t : StateT σ (Except ε) Unit) (set t' : StateT σ (Except ε) Unit) :=
  fun _ _ _ => .ok ⟨rfl, h⟩

theorem modify {f g : σ → σ} (h : ∀ s s', S s s' → S (f s) (g s')) :
    (stateT S).Holds id (modify f : StateT σ (Except ε) Unit) (modify g : StateT σ (Except ε) Unit) :=
  fun s s' hs => .ok ⟨rfl, h s s' hs⟩

end

end Lockstep

end Diversity
