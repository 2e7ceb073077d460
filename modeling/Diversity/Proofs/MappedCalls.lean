import Diversity.Proofs.NodeIds
import Diversity.Proofs.Outcome
/-! What statements become when each of their calls is replaced by statements. -/
namespace Diversity

namespace Stmt

mutual

/-- `MapsAll R s body body' s'`: with every call replaced as `R` says and all else left alone, `body`
becomes `body'`, while a state goes from `s` to `s'`. -/
inductive MapsAll {σ : Type} (R : σ → NodeId → BlockRef → List Stmt → σ → Prop) :
    σ → List Stmt → List Stmt → σ → Prop
  | nil {s} : MapsAll R s [] [] s
  | assign {s s' i target value rest rest'} : MapsAll R s rest rest' s' →
      MapsAll R s (.assign i target value :: rest) (.assign i target value :: rest') s'
  | call {s s₁ s' i callee front rest rest'} : R s i callee front s₁ → MapsAll R s₁ rest rest' s' →
      MapsAll R s (.call i callee :: rest) (front ++ rest') s'
  | choice {s s₁ s' i branches branches' rest rest'} : MapsBranches R s branches branches' s₁ →
      MapsAll R s₁ rest rest' s' →
      MapsAll R s (.choice i branches :: rest) (.choice i branches' :: rest') s'
  | loop {s s₁ s' i condition body body' rest rest'} : MapsAll R s body body' s₁ →
      MapsAll R s₁ rest rest' s' →
      MapsAll R s (.loop i condition body :: rest) (.loop i condition body' :: rest') s'
  | expr {s s' i e rest rest'} : MapsAll R s rest rest' s' →
      MapsAll R s (.expr i e :: rest) (.expr i e :: rest') s'
  | group {s s₁ s' i body body' rest rest'} : MapsAll R s body body' s₁ →
      MapsAll R s₁ rest rest' s' → MapsAll R s (.group i body :: rest) (.group i body' :: rest') s'

inductive MapsBranches {σ : Type} (R : σ → NodeId → BlockRef → List Stmt → σ → Prop) :
    σ → List Branch → List Branch → σ → Prop
  | nil {s} : MapsBranches R s [] [] s
  | cons {s s₁ s' condition body body' rest rest'} : MapsAll R s body body' s₁ →
      MapsBranches R s₁ rest rest' s' →
      MapsBranches R s (.mk condition body :: rest) (.mk condition body' :: rest') s'

end

section

variable {m : Type → Type} [Monad m] {σ : Type} [Outcome m σ]
  {f : NodeId → BlockRef → m (Option (List Stmt))} {s s' : σ}

/-- The replacement of one call. No replacement means that the call stays. -/
def ReplacedBy (f : NodeId → BlockRef → m (Option (List Stmt))) (s : σ) (i : NodeId)
    (callee : BlockRef) (front : List Stmt) (s' : σ) : Prop :=
  ∃ o, Outcome.Gives (f i callee) s o s' ∧ front = o.getD [.call i callee]

mutual

theorem mapsAll_of_gives : {body body' : List Stmt} → {s s' : σ} →
    Outcome.Gives (mapCallsOfAll f body) s body' s' → MapsAll (ReplacedBy f) s body body' s'
  | [], _, _, _, h => by
      obtain ⟨rfl, rfl⟩ := Outcome.of_pure h
      exact .nil
  | x :: rest, _, _, _, h => by
      obtain ⟨front, s₁, hx, h⟩ := Outcome.of_bind h
      obtain ⟨rest', s₂, hrest, h⟩ := Outcome.of_bind h
      obtain ⟨rfl, rfl⟩ := Outcome.of_pure h
      exact mapsAll_of_gives_stmt hx (mapsAll_of_gives hrest)

theorem mapsAll_of_gives_stmt : {x : Stmt} → {front rest rest' : List Stmt} → {s s₁ s' : σ} →
    Outcome.Gives (mapCalls f x) s front s₁ → MapsAll (ReplacedBy f) s₁ rest rest' s' →
    MapsAll (ReplacedBy f) s (x :: rest) (front ++ rest') s'
  | .assign _ _ _, _, _, _, _, _, _, h, hrest => by
      obtain ⟨rfl, rfl⟩ := Outcome.of_pure h
      exact .assign hrest
  | .call _ _, _, _, _, _, _, _, h, hrest => by
      obtain ⟨o, s₂, ho, h⟩ := Outcome.of_bind h
      obtain ⟨rfl, rfl⟩ := Outcome.of_pure h
      exact .call ⟨o, ho, rfl⟩ hrest
  | .choice _ branches, _, _, _, _, _, _, h, hrest => by
      obtain ⟨branches', s₂, hb, h⟩ := Outcome.of_bind h
      obtain ⟨rfl, rfl⟩ := Outcome.of_pure h
      exact .choice (mapsBranches_of_gives hb) hrest
  | .loop _ _ body, _, _, _, _, _, _, h, hrest => by
      obtain ⟨body', s₂, hb, h⟩ := Outcome.of_bind h
      obtain ⟨rfl, rfl⟩ := Outcome.of_pure h
      exact .loop (mapsAll_of_gives hb) hrest
  | .expr _ _, _, _, _, _, _, _, h, hrest => by
      obtain ⟨rfl, rfl⟩ := Outcome.of_pure h
      exact .expr hrest
  | .group _ body, _, _, _, _, _, _, h, hrest => by
      obtain ⟨body', s₂, hb, h⟩ := Outcome.of_bind h
      obtain ⟨rfl, rfl⟩ := Outcome.of_pure h
      exact .group (mapsAll_of_gives hb) hrest

theorem mapsBranches_of_gives : {branches branches' : List Branch} → {s s' : σ} →
    Outcome.Gives (mapCallsOfBranches f branches) s branches' s' →
    MapsBranches (ReplacedBy f) s branches branches' s'
  | [], _, _, _, h => by
      obtain ⟨rfl, rfl⟩ := Outcome.of_pure h
      exact .nil
  | .mk _ body :: rest, _, _, _, h => by
      obtain ⟨b, s₁, hb, h⟩ := Outcome.of_bind h
      obtain ⟨rest', s₂, hrest, h⟩ := Outcome.of_bind h
      obtain ⟨rfl, rfl⟩ := Outcome.of_pure h
      obtain ⟨body', s₃, hbody, hb⟩ := Outcome.of_bind hb
      obtain ⟨rfl, rfl⟩ := Outcome.of_pure hb
      exact .cons (mapsAll_of_gives hbody) (mapsBranches_of_gives hrest)

end

end

section

variable {ε : Type} {f : NodeId → BlockRef → Except ε (Option (List Stmt))}

theorem mapCallsOfAll_cons {x : Stmt} {rest : List Stmt} (hx : ∃ front, mapCalls f x = .ok front)
    (hrest : ∃ rest', mapCallsOfAll f rest = .ok rest') : ∃ body, mapCallsOfAll f (x :: rest) = .ok body := by
  obtain ⟨front, hx⟩ := hx
  obtain ⟨rest', hrest⟩ := hrest
  exact ⟨_, bind_eq_ok.2 ⟨front, hx, bind_eq_ok.2 ⟨rest', hrest, rfl⟩⟩⟩

mutual

/-- If every call has a replacement, all of them can be replaced. -/
theorem exists_mapCallsOfAll (body : List Stmt) (h : ∀ c ∈ calls body, ∃ o, f c.1 c.2 = .ok o) :
    ∃ body', mapCallsOfAll f body = .ok body' := by
  match body with
  | [] => exact ⟨[], rfl⟩
  | .assign _ _ _ :: rest => exact mapCallsOfAll_cons ⟨_, rfl⟩ (exists_mapCallsOfAll rest (by simpa using h))
  | .call i callee :: rest =>
      rw [calls_call, List.forall_mem_cons] at h
      obtain ⟨⟨o, ho⟩, h⟩ := h
      exact mapCallsOfAll_cons ⟨_, bind_eq_ok.2 ⟨o, ho, rfl⟩⟩ (exists_mapCallsOfAll rest h)
  | .choice _ branches :: rest =>
      rw [calls_choice, List.forall_mem_append] at h
      obtain ⟨branches', hb⟩ := exists_mapCallsOfBranches branches h.1
      exact mapCallsOfAll_cons ⟨_, bind_eq_ok.2 ⟨branches', hb, rfl⟩⟩ (exists_mapCallsOfAll rest h.2)
  | .loop _ _ body :: rest =>
      rw [calls_loop, List.forall_mem_append] at h
      obtain ⟨body', hb⟩ := exists_mapCallsOfAll body h.1
      exact mapCallsOfAll_cons ⟨_, bind_eq_ok.2 ⟨body', hb, rfl⟩⟩ (exists_mapCallsOfAll rest h.2)
  | .expr _ _ :: rest => exact mapCallsOfAll_cons ⟨_, rfl⟩ (exists_mapCallsOfAll rest (by simpa using h))
  | .group _ body :: rest =>
      rw [calls_group, List.forall_mem_append] at h
      obtain ⟨body', hb⟩ := exists_mapCallsOfAll body h.1
      exact mapCallsOfAll_cons ⟨_, bind_eq_ok.2 ⟨body', hb, rfl⟩⟩ (exists_mapCallsOfAll rest h.2)

theorem exists_mapCallsOfBranches (branches : List Branch)
    (h : ∀ c ∈ callsOfBranches branches, ∃ o, f c.1 c.2 = .ok o) :
    ∃ branches', mapCallsOfBranches f branches = .ok branches' := by
  match branches with
  | [] => exact ⟨[], rfl⟩
  | .mk _ body :: rest =>
      rw [callsOfBranches_cons, List.forall_mem_append] at h
      obtain ⟨body', hb⟩ := exists_mapCallsOfAll body h.1
      obtain ⟨rest', hrest⟩ := exists_mapCallsOfBranches rest h.2
      exact ⟨_, bind_eq_ok.2 ⟨_, bind_eq_ok.2 ⟨body', hb, rfl⟩, bind_eq_ok.2 ⟨rest', hrest, rfl⟩⟩⟩

end

end

mutual

/-- What each replacement does to a state can be told of another state that goes along. -/
theorem MapsAll.simulated {σ τ : Type} {R : σ → NodeId → BlockRef → List Stmt → σ → Prop}
    {Q : τ → NodeId → BlockRef → List Stmt → τ → Prop} {S : σ → τ → Prop}
    (step : ∀ s t i callee front s', S s t → R s i callee front s' → ∃ t', Q t i callee front t' ∧ S s' t')
    {s s' t body body'} (h : MapsAll R s body body' s') (hs : S s t) :
    ∃ t', MapsAll Q t body body' t' ∧ S s' t' := by
  match h with
  | .nil => exact ⟨t, .nil, hs⟩
  | .assign h =>
      obtain ⟨t', h, hs⟩ := h.simulated step hs
      exact ⟨t', .assign h, hs⟩
  | .call hf h =>
      obtain ⟨t₁, hf, hs⟩ := step _ _ _ _ _ _ hs hf
      obtain ⟨t', h, hs⟩ := h.simulated step hs
      exact ⟨t', .call hf h, hs⟩
  | .choice hb h =>
      obtain ⟨t₁, hb, hs⟩ := hb.simulated step hs
      obtain ⟨t', h, hs⟩ := h.simulated step hs
      exact ⟨t', .choice hb h, hs⟩
  | .loop hb h =>
      obtain ⟨t₁, hb, hs⟩ := hb.simulated step hs
      obtain ⟨t', h, hs⟩ := h.simulated step hs
      exact ⟨t', .loop hb h, hs⟩
  | .expr h =>
      obtain ⟨t', h, hs⟩ := h.simulated step hs
      exact ⟨t', .expr h, hs⟩
  | .group hb h =>
      obtain ⟨t₁, hb, hs⟩ := hb.simulated step hs
      obtain ⟨t', h, hs⟩ := h.simulated step hs
      exact ⟨t', .group hb h, hs⟩

theorem MapsBranches.simulated {σ τ : Type} {R : σ → NodeId → BlockRef → List Stmt → σ → Prop}
    {Q : τ → NodeId → BlockRef → List Stmt → τ → Prop} {S : σ → τ → Prop}
    (step : ∀ s t i callee front s', S s t → R s i callee front s' → ∃ t', Q t i callee front t' ∧ S s' t')
    {s s' t branches branches'} (h : MapsBranches R s branches branches' s') (hs : S s t) :
    ∃ t', MapsBranches Q t branches branches' t' ∧ S s' t' := by
  match h with
  | .nil => exact ⟨t, .nil, hs⟩
  | .cons hb h =>
      obtain ⟨t₁, hb, hs⟩ := hb.simulated step hs
      obtain ⟨t', h, hs⟩ := h.simulated step hs
      exact ⟨t', .cons hb h, hs⟩

end

theorem MapsAll.mono {σ : Type} {R Q : σ → NodeId → BlockRef → List Stmt → σ → Prop}
    (hRQ : ∀ s i callee front s', R s i callee front s' → Q s i callee front s') {s s' body body'}
    (h : MapsAll R s body body' s') : MapsAll Q s body body' s' := by
  obtain ⟨_, h, rfl⟩ := h.simulated (S := Eq) (by
    rintro s _ i callee front s' rfl hf
    exact ⟨s', hRQ _ _ _ _ _ hf, rfl⟩) rfl
  exact h

mutual

theorem MapsAll.refl {σ : Type} {R : σ → NodeId → BlockRef → List Stmt → σ → Prop} {s : σ}
    (hR : ∀ i callee, R s i callee [.call i callee] s) (body : List Stmt) : MapsAll R s body body s := by
  match body with
  | [] => exact .nil
  | .assign _ _ _ :: rest => exact .assign (.refl hR rest)
  | .call i callee :: rest => exact .call (hR i callee) (.refl hR rest)
  | .choice _ branches :: rest => exact .choice (.refl hR branches) (.refl hR rest)
  | .loop _ _ body :: rest => exact .loop (.refl hR body) (.refl hR rest)
  | .expr _ _ :: rest => exact .expr (.refl hR rest)
  | .group _ body :: rest => exact .group (.refl hR body) (.refl hR rest)

theorem MapsBranches.refl {σ : Type} {R : σ → NodeId → BlockRef → List Stmt → σ → Prop} {s : σ}
    (hR : ∀ i callee, R s i callee [.call i callee] s) (branches : List Branch) :
    MapsBranches R s branches branches s := by
  match branches with
  | [] => exact .nil
  | .mk _ body :: rest => exact .cons (.refl hR body) (.refl hR rest)

end

/-- The statements with other statements in the place of some calls, depending on the block called. -/
def replaceCalls (f : BlockRef → Option (List Stmt)) (body : List Stmt) : List Stmt :=
  Id.run (mapCallsOfAll (fun _ callee => pure (f callee)) body)

def replaceCallsOfBranches (f : BlockRef → Option (List Stmt)) (branches : List Branch) : List Branch :=
  Id.run (mapCallsOfBranches (fun _ callee => pure (f callee)) branches)

section

variable {f : BlockRef → Option (List Stmt)}

theorem replaceCalls_call {i : NodeId} {callee : BlockRef} :
    replaceCalls f [.call i callee] = (f callee).getD [.call i callee] :=
  List.append_nil _

theorem replaceCalls_append (body rest : List Stmt) :
    replaceCalls f (body ++ rest) = replaceCalls f body ++ replaceCalls f rest := by
  induction body with
  | nil => rfl
  | cons x body ih =>
      have hx (ss : List Stmt) : replaceCalls f (x :: ss) =
          Id.run (mapCalls (fun _ callee => pure (f callee)) x) ++ replaceCalls f ss := rfl
      rw [List.cons_append, hx, hx, ih, List.append_assoc]

variable {σ : Type} {R : σ → NodeId → BlockRef → List Stmt → σ → Prop} {P : σ → Prop}

mutual

/-- Calls come back if what stands in their place is turned back into them. The condition on states is one that
goes from the end to the start. -/
theorem MapsAll.replaceCalls_eq {s s' : σ} {body body' : List Stmt} (h : MapsAll R s body body' s')
    (back : ∀ s i callee front s', (i, callee) ∈ calls body → R s i callee front s' → P s' →
      P s ∧ replaceCalls f front = [.call i callee]) (hs : P s') : P s ∧ replaceCalls f body' = body := by
  match h with
  | .nil => exact ⟨hs, rfl⟩
  | .assign h =>
      simp only [calls_assign] at back
      obtain ⟨hs, hrest⟩ := h.replaceCalls_eq back hs
      exact ⟨hs, congrArg (_ :: ·) hrest⟩
  | .call hf h =>
      simp only [calls_call, List.mem_cons] at back
      obtain ⟨hs, hrest⟩ := h.replaceCalls_eq (fun s i c front s' hc => back s i c front s' (Or.inr hc)) hs
      obtain ⟨hs, hfront⟩ := back _ _ _ _ _ (Or.inl rfl) hf hs
      refine ⟨hs, ?_⟩
      rw [replaceCalls_append, hfront, hrest]
      rfl
  | .choice hb h =>
      simp only [calls_choice, List.mem_append] at back
      obtain ⟨hs, hrest⟩ := h.replaceCalls_eq (fun s i c front s' hc => back s i c front s' (Or.inr hc)) hs
      obtain ⟨hs, hb⟩ := hb.replaceCalls_eq (fun s i c front s' hc => back s i c front s' (Or.inl hc)) hs
      exact ⟨hs, congrArg₂ (Stmt.choice _ · :: ·) hb hrest⟩
  | .loop hb h =>
      simp only [calls_loop, List.mem_append] at back
      obtain ⟨hs, hrest⟩ := h.replaceCalls_eq (fun s i c front s' hc => back s i c front s' (Or.inr hc)) hs
      obtain ⟨hs, hb⟩ := hb.replaceCalls_eq (fun s i c front s' hc => back s i c front s' (Or.inl hc)) hs
      exact ⟨hs, congrArg₂ (Stmt.loop _ _ · :: ·) hb hrest⟩
  | .expr h =>
      simp only [calls_expr] at back
      obtain ⟨hs, hrest⟩ := h.replaceCalls_eq back hs
      exact ⟨hs, congrArg (_ :: ·) hrest⟩
  | .group hb h =>
      simp only [calls_group, List.mem_append] at back
      obtain ⟨hs, hrest⟩ := h.replaceCalls_eq (fun s i c front s' hc => back s i c front s' (Or.inr hc)) hs
      obtain ⟨hs, hb⟩ := hb.replaceCalls_eq (fun s i c front s' hc => back s i c front s' (Or.inl hc)) hs
      exact ⟨hs, congrArg₂ (Stmt.group _ · :: ·) hb hrest⟩

theorem MapsBranches.replaceCalls_eq {s s' : σ} {branches branches' : List Branch}
    (h : MapsBranches R s branches branches' s')
    (back : ∀ s i callee front s', (i, callee) ∈ callsOfBranches branches → R s i callee front s' → P s' →
      P s ∧ replaceCalls f front = [.call i callee]) (hs : P s') :
    P s ∧ replaceCallsOfBranches f branches' = branches := by
  match h with
  | .nil => exact ⟨hs, rfl⟩
  | .cons hb h =>
      simp only [callsOfBranches_cons, List.mem_append] at back
      obtain ⟨hs, hrest⟩ := h.replaceCalls_eq (fun s i c front s' hc => back s i c front s' (Or.inr hc)) hs
      obtain ⟨hs, hb⟩ := hb.replaceCalls_eq (fun s i c front s' hc => back s i c front s' (Or.inl hc)) hs
      exact ⟨hs, congrArg₂ (Branch.mk _ · :: ·) hb hrest⟩

end

end

/-- The calls, expressions and identities of statements before and after each call has been replaced,
as `R` says, by one of the lists `fronts`. All but the calls stays. -/
def Parted {σ : Type} (R : σ → NodeId → BlockRef → List Stmt → σ → Prop) (s : σ)
    (cs cs' : List (NodeId × BlockRef)) (os os' : Multiset Operand) (is is' : Multiset NodeId) (s' : σ) :
    Prop :=
  ∃ fronts : List (List Stmt), Chained (fun s c front s' => R s c.1 c.2 front s') s cs fronts s' ∧
    cs' = calls fronts.flatten ∧ os' = os + operandsOfAll fronts.flatten ∧
    is' + (cs.map fun c => {c.1}).sum = is + (fronts.map ids).sum

section

variable {σ : Type} {R : σ → NodeId → BlockRef → List Stmt → σ → Prop} {s s₁ s' : σ}

theorem Parted.kept (os : Multiset Operand) (is : Multiset NodeId) : Parted R s [] [] os os is is s :=
  ⟨[], .nil, rfl, by simp [operandsOfAll], by simp⟩

theorem Parted.call {i callee front} (h : R s i callee front s') :
    Parted R s [(i, callee)] (calls front) 0 (operandsOfAll front) {i} (ids front) s' :=
  ⟨[front], .cons h .nil, by simp, by simp, by simp [add_comm]⟩

theorem Parted.append {cs₁ cs₁' cs₂ cs₂' os₁ os₁' os₂ os₂' is₁ is₁' is₂ is₂'}
    (h₁ : Parted R s cs₁ cs₁' os₁ os₁' is₁ is₁' s₁) (h₂ : Parted R s₁ cs₂ cs₂' os₂ os₂' is₂ is₂' s') :
    Parted R s (cs₁ ++ cs₂) (cs₁' ++ cs₂') (os₁ + os₂) (os₁' + os₂') (is₁ + is₂) (is₁' + is₂') s' := by
  obtain ⟨fronts₁, hf₁, rfl, rfl, hi₁⟩ := h₁
  obtain ⟨fronts₂, hf₂, rfl, rfl, hi₂⟩ := h₂
  refine ⟨fronts₁ ++ fronts₂, hf₁.append hf₂, ?_, ?_, ?_⟩
  · rw [List.flatten_append, calls_append]
  · rw [List.flatten_append, operandsOfAll_append, ← Multiset.coe_add]
    abel
  · rw [List.map_append, List.map_append, List.sum_append, List.sum_append, add_add_add_comm, hi₁, hi₂,
      add_add_add_comm]

/-- Below a statement that holds nothing but other statements. -/
theorem Parted.below {i : NodeId} {cs cs' os os' is is'} (h : Parted R s cs cs' os os' is is' s') :
    Parted R s cs cs' os os' ({i} + is) ({i} + is') s' := by
  simpa only [zero_add, List.nil_append] using (Parted.kept 0 {i}).append h

mutual

theorem MapsAll.parted {s s' : σ} {body body'} (h : MapsAll R s body body' s') :
    Parted R s (calls body) (calls body') (operandsOfAll body) (operandsOfAll body') (ids body)
      (ids body') s' := by
  match h with
  | .nil => exact .kept _ _
  | .assign h =>
      simp only [calls_assign, ids_assign, operandsOfAll, ← Multiset.coe_add]
      exact (Parted.kept _ _).append h.parted
  | .call hf h =>
      rw [calls_append, operandsOfAll_append, ids_append, ← Multiset.coe_add, calls_call]
      have := (Parted.call hf).append h.parted
      rw [zero_add] at this
      exact this
  | .choice hb h =>
      simp only [calls_choice, ids_choice, operandsOfAll, operands, ← Multiset.coe_add]
      exact hb.parted.below.append h.parted
  | .loop hb h =>
      simp only [calls_loop, ids_loop, operandsOfAll, operands, ← Multiset.coe_add, ← Multiset.cons_coe,
        ← add_assoc, ← Multiset.singleton_add]
      exact ((Parted.kept _ _).append hb.parted).append h.parted
  | .expr h =>
      simp only [calls_expr, ids_expr, operandsOfAll, ← Multiset.coe_add]
      exact (Parted.kept _ _).append h.parted
  | .group hb h =>
      simp only [calls_group, ids_group, operandsOfAll, operands, ← Multiset.coe_add]
      exact hb.parted.below.append h.parted

theorem MapsBranches.parted {s s' : σ} {branches branches'} (h : MapsBranches R s branches branches' s') :
    Parted R s (callsOfBranches branches) (callsOfBranches branches') (operandsOfBranches branches)
      (operandsOfBranches branches') (idsOfBranches branches) (idsOfBranches branches') s' := by
  match h with
  | .nil => exact .kept _ _
  | .cons hb h =>
      simp only [callsOfBranches_cons, idsOfBranches_cons, operandsOfBranches, operandsOfBranch,
        ← Multiset.coe_add]
      exact ((Parted.kept _ _).append hb.parted).append h.parted

end

variable {body body' : List Stmt}

/-- An expression stays, or it comes with what a call is replaced by. -/
theorem MapsAll.operand_cases (h : MapsAll R s body body' s') {o : Operand} (ho : o ∈ operandsOfAll body') :
    o ∈ operandsOfAll body ∨ ∃ s i callee front s', (i, callee) ∈ calls body ∧ R s i callee front s' ∧
      o ∈ operandsOfAll front := by
  obtain ⟨fronts, hf, -, hos, -⟩ := h.parted
  have ho' : o ∈ (operandsOfAll body' : Multiset Operand) := ho
  rw [hos, Multiset.mem_add, Multiset.mem_coe, Multiset.mem_coe, operandsOfAll_flatten,
    List.mem_flatMap] at ho'
  refine ho'.imp_right fun ⟨front, hfront, ho⟩ => ?_
  obtain ⟨⟨i, callee⟩, hc, s, s', hR⟩ := forall₂_mem_right hf.forall₂ hfront
  exact ⟨s, i, callee, front, s', hc, hR, ho⟩

theorem MapsAll.operands_subset (h : MapsAll R s body body' s') : operandsOfAll body ⊆ operandsOfAll body' := by
  obtain ⟨fronts, -, -, hos, -⟩ := h.parted
  intro o ho
  have : o ∈ (operandsOfAll body' : Multiset Operand) := hos ▸ Multiset.mem_add.2 (Or.inl ho)
  exact this

/-- Each call has given way to something, whose expressions are all there. -/
theorem MapsAll.operands_of_call (h : MapsAll R s body body' s') {i callee} (hc : (i, callee) ∈ calls body) :
    ∃ s front s', R s i callee front s' ∧ operandsOfAll front ⊆ operandsOfAll body' := by
  obtain ⟨fronts, hf, -, hos, -⟩ := h.parted
  obtain ⟨front, hfront, s, s', hR⟩ := forall₂_mem_left hf.forall₂ hc
  refine ⟨s, front, s', hR, fun o ho => ?_⟩
  have hfl : o ∈ operandsOfAll fronts.flatten := by
    rw [operandsOfAll_flatten]
    exact List.mem_flatMap.2 ⟨front, hfront, ho⟩
  have : o ∈ (operandsOfAll body' : Multiset Operand) := hos ▸ Multiset.mem_add.2 (Or.inr hfl)
  exact this

/-- All calls that are left come with what a call is replaced by. -/
theorem MapsAll.call_cases (h : MapsAll R s body body' s') {c} (hc : c ∈ calls body') :
    ∃ s i callee front s', (i, callee) ∈ calls body ∧ R s i callee front s' ∧ c ∈ calls front := by
  obtain ⟨fronts, hf, hcs, -, -⟩ := h.parted
  rw [hcs, calls_flatten, List.mem_flatMap] at hc
  obtain ⟨front, hfront, hc⟩ := hc
  obtain ⟨⟨i, callee⟩, hc', s, s', hR⟩ := forall₂_mem_right hf.forall₂ hfront
  exact ⟨s, i, callee, front, s', hc', hR, hc⟩

end

end Stmt

end Diversity
