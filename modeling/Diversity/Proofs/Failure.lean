import Diversity.Proofs.MappedCalls
/-! The errors that computations end in: an error of a whole is an error of one of its parts. -/
namespace Diversity

variable {ε σ α β : Type}

theorem bind_eq_error {x : Except ε α} {f : α → Except ε β} {e : ε} :
    (x >>= f) = .error e ↔ x = .error e ∨ ∃ a, x = .ok a ∧ f a = .error e := by
  cases x with
  | error e' => simp [bind, Except.bind]
  | ok a => simp [bind, Except.bind]

theorem run_bind_eq_error {x : StateT σ (Except ε) α} {f : α → StateT σ (Except ε) β} {s : σ} {e : ε} :
    (x >>= f) s = .error e ↔ x s = .error e ∨ ∃ a s', x s = .ok (a, s') ∧ f a s' = .error e := by
  refine (bind_eq_error (x := x s) (f := fun p => f p.1 p.2)).trans ?_
  simp only [Prod.exists]

theorem run_liftM_eq_error {x : Except ε α} {s : σ} {e : ε}
    (h : (liftM x : StateT σ (Except ε) α) s = .error e) : x = .error e := by
  cases x with
  | error e' =>
      cases h
      rfl
  | ok a => cases h

/-- Computations of which it can be said that from a state they end in an error. -/
class Failing (m : Type → Type) [Monad m] (ε σ : outParam Type) where
  Fails {α : Type} (x : m α) (s : σ) (e : ε) : Prop
  not_pure {α : Type} {a : α} {s : σ} {e : ε} : ¬ Fails (pure a : m α) s e
  of_bind {α β : Type} {x : m α} {f : α → m β} {s : σ} {e : ε} :
    Fails (x >>= f) s e → Fails x s e ∨ ∃ a s', Fails (f a) s' e

instance : Failing (Except ε) ε Unit where
  Fails x _ e := x = .error e
  not_pure := nofun
  of_bind h := (bind_eq_error.1 h).imp_right fun ⟨a, _, h⟩ => ⟨a, (), h⟩

instance : Failing (StateT σ (Except ε)) ε σ where
  Fails x s e := x s = .error e
  not_pure := nofun
  of_bind h := (run_bind_eq_error.1 h).imp_right fun ⟨a, s', _, h⟩ => ⟨a, s', h⟩

theorem fails_iff_error {x : Except ε α} {s : Unit} {e : ε} : Failing.Fails x s e ↔ x = .error e := Iff.rfl

theorem fails_iff_run {x : StateT σ (Except ε) α} {s : σ} {e : ε} : Failing.Fails x s e ↔ x s = .error e :=
  Iff.rfl

section

variable {m : Type → Type} [Monad m] [Failing m ε σ] {s : σ} {e : ε}

theorem exists_fails_of_mapM [LawfulMonad m] {f : α → m β} {as : List α} (h : Failing.Fails (as.mapM f) s e) :
    ∃ a ∈ as, ∃ s', Failing.Fails (f a) s' e := by
  induction as generalizing s with
  | nil =>
      rw [List.mapM_nil] at h
      exact absurd h Failing.not_pure
  | cons a as ih =>
      rw [List.mapM_cons] at h
      rcases Failing.of_bind h with h | ⟨b, s', h⟩
      · exact ⟨a, List.mem_cons_self, s, h⟩
      · rcases Failing.of_bind h with h | ⟨bs, s'', h⟩
        · obtain ⟨a', ha', h⟩ := ih h
          exact ⟨a', List.mem_cons_of_mem a ha', h⟩
        · exact absurd h Failing.not_pure

theorem exists_fails_of_filterM [LawfulMonad m] {f : α → m Bool} {as : List α}
    (h : Failing.Fails (as.filterM f) s e) : ∃ a ∈ as, ∃ s', Failing.Fails (f a) s' e := by
  induction as generalizing s with
  | nil =>
      rw [filterM_nil] at h
      exact absurd h Failing.not_pure
  | cons a as ih =>
      rw [filterM_cons] at h
      rcases Failing.of_bind h with h | ⟨keep, s', h⟩
      · exact ⟨a, List.mem_cons_self, s, h⟩
      · rcases Failing.of_bind h with h | ⟨bs, s'', h⟩
        · obtain ⟨a', ha', h⟩ := ih h
          exact ⟨a', List.mem_cons_of_mem a ha', h⟩
        · exact absurd h Failing.not_pure

theorem mapM_eq_error {f : α → Except ε β} {as : List α} (h : as.mapM f = .error e) :
    ∃ a ∈ as, f a = .error e := by
  obtain ⟨a, ha, _, h⟩ := exists_fails_of_mapM (s := ()) (fails_iff_error.2 h)
  exact ⟨a, ha, h⟩

theorem exists_mapM {f : α → Except ε β} {as : List α} (h : ∀ a ∈ as, ∃ b, f a = .ok b) : ∃ bs, as.mapM f = .ok bs := by
  cases hm : as.mapM f with
  | ok bs => exact ⟨bs, rfl⟩
  | error e =>
      obtain ⟨a, ha, herror⟩ := mapM_eq_error hm
      obtain ⟨b, hb⟩ := h a ha
      cases herror.symm.trans hb

theorem mapM_range_eq_ok {f : Nat → Except ε α} {n : Nat} {as : List α} :
    (List.range n).mapM f = .ok as ↔ as.length = n ∧ ∀ k a, as[k]? = some a → f k = .ok a := by
  simp only [mapM_eq_ok, List.forall₂_iff_get, List.length_range, List.get_eq_getElem, List.getElem_range]
  constructor
  · rintro ⟨rfl, h⟩
    refine ⟨rfl, fun k a ha => ?_⟩
    obtain ⟨hk, rfl⟩ := List.getElem?_eq_some_iff.1 ha
    exact h k hk hk
  · rintro ⟨rfl, h⟩
    exact ⟨rfl, fun k _ hk => h k _ (List.getElem?_eq_getElem hk)⟩

theorem mapM_range_eq_error {f : Nat → Except ε α} {n : Nat} :
    (List.range n).mapM f = .error e ↔ ∃ k < n, f k = .error e ∧ ∀ j < k, ∃ a, f j = .ok a := by
  induction n generalizing e with
  | zero =>
      constructor
      · intro h
        cases h
      · rintro ⟨k, hk, -⟩
        cases hk
  | succ n ih =>
      have hlast {as : List α} : (do return as ++ (← [n].mapM f) : Except ε (List α)) = .error e ↔ f n = .error e := by
        rw [List.mapM_cons, List.mapM_nil]
        cases f n <;> simp [bind, Except.bind, pure, Except.pure]
      have hall : (∃ as, (List.range n).mapM f = .ok as) ↔ ∀ j < n, ∃ a, f j = .ok a := by
        constructor
        · rintro ⟨as, h⟩ j hj
          obtain ⟨rfl, hf⟩ := mapM_range_eq_ok.1 h
          exact ⟨_, hf j _ (List.getElem?_eq_getElem hj)⟩
        · intro h
          cases hm : (List.range n).mapM f with
          | ok as => exact ⟨as, rfl⟩
          | error e =>
              obtain ⟨k, hk, he, -⟩ := ih.1 hm
              obtain ⟨a, ha⟩ := h k hk
              rw [he] at ha
              cases ha
      -- one before the last one fails, or none does and the last one fails
      simp only [List.range_succ, List.mapM_append, bind_eq_error, ih, hlast, exists_and_right, hall]
      constructor
      · rintro (⟨k, hk, h⟩ | ⟨h, hn⟩)
        · exact ⟨k, Nat.lt_succ_of_lt hk, h⟩
        · exact ⟨n, Nat.lt_succ_self n, hn, h⟩
      · rintro ⟨k, hk, h⟩
        rcases Nat.lt_succ_iff_lt_or_eq.1 hk with hk | rfl
        · exact .inl ⟨k, hk, h⟩
        · exact .inr ⟨h.2, h.1⟩

namespace Stmt

variable {f : NodeId → BlockRef → m (Option (List Stmt))}

mutual

/-- If the calls cannot all be replaced, one of them cannot be, for the same cause. -/
theorem exists_call_of_fails : (body : List Stmt) → {s : σ} → Failing.Fails (mapCallsOfAll f body) s e →
    ∃ c ∈ calls body, ∃ s', Failing.Fails (f c.1 c.2) s' e
  | [], _, h => absurd h Failing.not_pure
  | x :: rest, _, h => by
      rcases Failing.of_bind h with h | ⟨front, s₁, h⟩
      · exact exists_call_of_fails_stmt x h
      · rcases Failing.of_bind h with h | ⟨_, _, h⟩
        · obtain ⟨c, hc, h⟩ := exists_call_of_fails rest h
          refine ⟨c, ?_, h⟩
          rw [← List.singleton_append, calls_append]
          exact List.mem_append_right _ hc
        · exact absurd h Failing.not_pure

theorem exists_call_of_fails_stmt (x : Stmt) {rest : List Stmt} {s : σ} (h : Failing.Fails (mapCalls f x) s e) :
    ∃ c ∈ calls (x :: rest), ∃ s', Failing.Fails (f c.1 c.2) s' e := by
  match x with
  | .assign _ _ _ | .expr _ _ => exact absurd h Failing.not_pure
  | .call i callee =>
      rcases Failing.of_bind h with h | ⟨_, _, h⟩
      · exact ⟨(i, callee), by simp, _, h⟩
      · exact absurd h Failing.not_pure
  | .choice _ branches =>
      rcases Failing.of_bind h with h | ⟨_, _, h⟩
      · obtain ⟨c, hc, h⟩ := exists_call_of_fails_branches branches h
        exact ⟨c, by simp [hc], h⟩
      · exact absurd h Failing.not_pure
  | .loop _ _ body | .group _ body =>
      rcases Failing.of_bind h with h | ⟨_, _, h⟩
      · obtain ⟨c, hc, h⟩ := exists_call_of_fails body h
        exact ⟨c, by simp [hc], h⟩
      · exact absurd h Failing.not_pure

theorem exists_call_of_fails_branches : (branches : List Branch) → {s : σ} →
    Failing.Fails (mapCallsOfBranches f branches) s e →
    ∃ c ∈ callsOfBranches branches, ∃ s', Failing.Fails (f c.1 c.2) s' e
  | [], _, h => absurd h Failing.not_pure
  | .mk _ body :: rest, _, h => by
      rcases Failing.of_bind h with h | ⟨_, _, h⟩
      · rcases Failing.of_bind h with h | ⟨_, _, h⟩
        · obtain ⟨c, hc, h⟩ := exists_call_of_fails body h
          exact ⟨c, by simp [hc], h⟩
        · exact absurd h Failing.not_pure
      · rcases Failing.of_bind h with h | ⟨_, _, h⟩
        · obtain ⟨c, hc, h⟩ := exists_call_of_fails_branches rest h
          exact ⟨c, by simp [hc], h⟩
        · exact absurd h Failing.not_pure

end

end Stmt

end

end Diversity
