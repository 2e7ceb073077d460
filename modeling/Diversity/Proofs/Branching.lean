import Diversity.Proofs.Compiled
/-! The branches of choices: there is at least one, the first has a condition, and only the last may have
none. Descriptions can write no other choices, and splicing and copying leave the conditions where they are. -/
namespace Diversity

/-- Which branches of a choice have a condition. -/
def Node.shape? : Node → Option (List Bool)
  | .stmt (.choice _ branches) => some (branches.map (·.condition.isSome))
  | _ => none

@[simp] theorem Branch.condition_mk (condition : Option Expr) (body : List Stmt) :
    (Branch.mk condition body).condition = condition := rfl

theorem Expr.filterMap_shape? (e : Expr) : e.asNodes.filterMap Node.shape? = [] := by
  simp [Expr.asNodes, Node.shape?]

namespace Stmt

/-- For every choice, at any depth, which of its branches have a condition. -/
def shapes (body : List Stmt) : List (List Bool) := (nodesOfAll body).filterMap Node.shape?

def shapesOfBranches (branches : List Branch) : List (List Bool) := (nodesOfBranches branches).filterMap Node.shape?

/-- There is a branch, the first one has a condition, and only the last one may have none. -/
def Guarded (shape : List Bool) : Prop := shape.head? = some true ∧ ∀ c ∈ shape.dropLast, c = true

/-- Every choice is guarded. -/
def Branched (body : List Stmt) : Prop := ∀ shape ∈ shapes body, Guarded shape

section

variable {i : NodeId} {e e' : Expr} {callee : BlockRef} {branches : List Branch} {body rest : List Stmt}

@[simp] theorem shapes_nil : shapes [] = [] := rfl

@[simp] theorem shapes_assign : shapes (.assign i e e' :: rest) = shapes rest := by
  simp [shapes, nodesOfAll, nodes, List.filterMap_cons, Node.shape?, Expr.filterMap_shape?]

@[simp] theorem shapes_call : shapes (.call i callee :: rest) = shapes rest := by
  simp [shapes, nodesOfAll, nodes, List.filterMap_cons, Node.shape?]

@[simp] theorem shapes_choice : shapes (.choice i branches :: rest) =
    branches.map (·.condition.isSome) :: (shapesOfBranches branches ++ shapes rest) := by
  simp [shapes, shapesOfBranches, nodesOfAll, nodes, Node.shape?]

@[simp] theorem shapes_loop : shapes (.loop i e body :: rest) = shapes body ++ shapes rest := by
  simp [shapes, nodesOfAll, nodes, List.filterMap_cons, Node.shape?, Expr.filterMap_shape?]

@[simp] theorem shapes_expr : shapes (.expr i e :: rest) = shapes rest := by
  simp [shapes, nodesOfAll, nodes, List.filterMap_cons, Node.shape?, Expr.filterMap_shape?]

@[simp] theorem shapes_group : shapes (.group i body :: rest) = shapes body ++ shapes rest := by
  simp [shapes, nodesOfAll, nodes, List.filterMap_cons, Node.shape?]

@[simp] theorem shapesOfBranches_nil : shapesOfBranches [] = [] := rfl

@[simp] theorem shapesOfBranches_cons {condition : Option Expr} :
    shapesOfBranches (.mk condition body :: branches) = shapes body ++ shapesOfBranches branches := by
  cases condition <;> simp [shapes, shapesOfBranches, nodesOfBranches, nodesOfBranch, Expr.filterMap_shape?]

theorem shapes_append (front back : List Stmt) : shapes (front ++ back) = shapes front ++ shapes back := by
  simp [shapes, nodesOfAll_append]

theorem shapesOfBranches_append (front back : List Branch) :
    shapesOfBranches (front ++ back) = shapesOfBranches front ++ shapesOfBranches back := by
  induction front with
  | nil => rfl
  | cons b front ih =>
      obtain ⟨condition, body⟩ := b
      simp [ih]

end

/-! ## Copies -/

theorem conditions_anonymous (branches : List Branch) :
    (anonymousBranches branches).map (·.condition.isSome) = branches.map (·.condition.isSome) := by
  induction branches with
  | nil => rfl
  | cons b branches ih =>
      obtain ⟨condition, body⟩ := b
      simp [anonymousBranches, anonymousBranch, ih]

mutual

theorem shapes_anonymous (body : List Stmt) : shapes (anonymousAll body) = shapes body := by
  match body with
  | [] => rfl
  | .assign _ _ _ :: rest => simp [anonymousAll, anonymous, shapes_anonymous rest]
  | .call _ _ :: rest => simp [anonymousAll, anonymous, shapes_anonymous rest]
  | .choice _ branches :: rest =>
      simp [anonymousAll, anonymous, conditions_anonymous, shapesOfBranches_anonymous branches,
        shapes_anonymous rest]
  | .loop _ _ body :: rest => simp [anonymousAll, anonymous, shapes_anonymous body, shapes_anonymous rest]
  | .expr _ _ :: rest => simp [anonymousAll, anonymous, shapes_anonymous rest]
  | .group _ body :: rest => simp [anonymousAll, anonymous, shapes_anonymous body, shapes_anonymous rest]

theorem shapesOfBranches_anonymous (branches : List Branch) :
    shapesOfBranches (anonymousBranches branches) = shapesOfBranches branches := by
  match branches with
  | [] => rfl
  | .mk _ body :: rest =>
      simp [anonymousBranches, anonymousBranch, shapes_anonymous body, shapesOfBranches_anonymous rest]

end

theorem Branched.copy {body copy : List Stmt} (h : Branched body) (hsame : anonymousAll copy = anonymousAll body) :
    Branched copy := by
  intro shape hs
  rw [← shapes_anonymous, hsame, shapes_anonymous] at hs
  exact h shape hs

/-! ## Replaced calls -/

section

variable {σ : Type} {R : σ → NodeId → BlockRef → List Stmt → σ → Prop}

theorem MapsBranches.conditions {s s' : σ} {branches branches' : List Branch}
    (h : MapsBranches R s branches branches' s') :
    branches'.map (·.condition.isSome) = branches.map (·.condition.isSome) := by
  induction branches generalizing s branches' with
  | nil =>
      cases h
      rfl
  | cons branch branches ih =>
      cases h with
      | cons _ h => simp [ih h]

mutual

/-- A choice was there before, or it comes with what a call is replaced by. -/
theorem MapsAll.shape_cases {s s' : σ} {body body' : List Stmt} (h : MapsAll R s body body' s')
    {shape : List Bool} (hs : shape ∈ shapes body') :
    shape ∈ shapes body ∨ ∃ s i callee front s', R s i callee front s' ∧ shape ∈ shapes front := by
  match h with
  | .nil => exact Or.inl hs
  | .assign h =>
      rw [shapes_assign] at hs ⊢
      exact h.shape_cases hs
  | .call hf h =>
      rw [shapes_append, List.mem_append] at hs
      rw [shapes_call]
      rcases hs with hs | hs
      · exact Or.inr ⟨_, _, _, _, _, hf, hs⟩
      · exact h.shape_cases hs
  | .choice hb h =>
      rw [shapes_choice, hb.conditions, List.mem_cons, List.mem_append] at hs
      rw [shapes_choice, List.mem_cons, List.mem_append]
      rcases hs with hs | hs | hs
      · exact Or.inl (Or.inl hs)
      · exact (hb.shape_cases hs).imp_left fun hs => Or.inr (Or.inl hs)
      · exact (h.shape_cases hs).imp_left fun hs => Or.inr (Or.inr hs)
  | .loop hb h =>
      rw [shapes_loop, List.mem_append] at hs ⊢
      rcases hs with hs | hs
      · exact (hb.shape_cases hs).imp_left Or.inl
      · exact (h.shape_cases hs).imp_left Or.inr
  | .expr h =>
      rw [shapes_expr] at hs ⊢
      exact h.shape_cases hs
  | .group hb h =>
      rw [shapes_group, List.mem_append] at hs ⊢
      rcases hs with hs | hs
      · exact (hb.shape_cases hs).imp_left Or.inl
      · exact (h.shape_cases hs).imp_left Or.inr

theorem MapsBranches.shape_cases {s s' : σ} {branches branches' : List Branch}
    (h : MapsBranches R s branches branches' s') {shape : List Bool} (hs : shape ∈ shapesOfBranches branches') :
    shape ∈ shapesOfBranches branches ∨ ∃ s i callee front s', R s i callee front s' ∧ shape ∈ shapes front := by
  match h with
  | .nil => exact Or.inl hs
  | .cons hb h =>
      rw [shapesOfBranches_cons, List.mem_append] at hs ⊢
      rcases hs with hs | hs
      · exact (hb.shape_cases hs).imp_left Or.inl
      · exact (h.shape_cases hs).imp_left Or.inr

end

theorem MapsAll.branched {s s' : σ} {body body' : List Stmt} (h : MapsAll R s body body' s') (hb : Branched body)
    (hR : ∀ s i callee front s', R s i callee front s' → Branched front) : Branched body' := by
  intro shape hs
  rcases h.shape_cases hs with hs | ⟨s, i, callee, front, s', hf, hs⟩
  · exact hb shape hs
  · exact hR s i callee front s' hf shape hs

theorem branched_call (i : NodeId) (callee : BlockRef) : Branched [.call i callee] := List.forall_mem_nil _

end

end Stmt

/-! ## Splicing -/

theorem Placement.branched_expand {p : Placement} {bs : BlockSet} (hbs : ∀ b ∈ bs.toList, Stmt.Branched b.statements)
    {entered : List String} {body body' : List Stmt} {s s' : Supply}
    (h : p.expand bs entered body s = .ok (body', s')) (hb : Stmt.Branched body) : Stmt.Branched body' := by
  refine expand_induction (Q := fun _ body body' _ => Stmt.Branched body → Stmt.Branched body') ?_ h hb
  intro s body body' s' h hb
  refine h.branched hb fun s i callee front s' hf => ?_
  cases hf with
  | kept _ => exact Stmt.branched_call _ _
  | spliced _ hr hcopy hq =>
      have hb := hbs _ (BlockSet.mem_of_find? (BlockSet.find?_of_resolve hr))
      exact hq (hb.copy (Stmt.anonymousAll_of_refreshAll hcopy))

theorem BlockSet.branched_of_repaired {p : Placement} {bs bs' : BlockSet} {blocks : List Block} {s s' : Supply}
    (hin : p.inline bs s = .ok (blocks, s')) (hrep : repaired blocks = .ok bs')
    (hbs : ∀ b ∈ bs.toList, Stmt.Branched b.statements) : ∀ b ∈ bs'.toList, Stmt.Branched b.statements := by
  intro b' hb'
  obtain ⟨a, ha, body, rfl, hm⟩ := forall₂_mem_right (repaired_eq_ok hrep).2 hb'
  obtain ⟨b, hb, s₁, s₂, body', hx, rfl⟩ := forall₂_mem_right (Placement.inline_chained hin).forall₂ ha
  refine hm.branched (Placement.branched_expand hbs hx (hbs b (List.mem_filter.1 hb).1)) ?_
  rintro _ i callee front _ ⟨d, -, -, rfl⟩
  exact Stmt.branched_call _ _

/-! ## Descriptions -/

namespace Description

variable {part : Part} {scope : Scope} {callees : List BlockRef}

theorem Statement.conditions_of_resolveArms {arms : List Arm} {branches : List Branch}
    (h : resolveArms part scope callees arms = .ok branches) :
    branches.map (·.condition.isSome) = List.replicate arms.length true := by
  induction arms generalizing branches with
  | nil =>
      cases h
      rfl
  | cons arm arms ih =>
      obtain ⟨b, hb, h⟩ := bind_eq_ok.1 h
      obtain ⟨rest, hrest, h⟩ := bind_eq_ok.1 h
      cases h
      obtain ⟨condition, body⟩ := arm
      obtain ⟨e, he, hb⟩ := bind_eq_ok.1 hb
      obtain ⟨body', hbody, hb⟩ := bind_eq_ok.1 hb
      cases hb
      simp [ih hrest, List.replicate_succ]

theorem Statement.conditions_of_resolveOtherwise {otherwise : Option (List Statement)} {branches : List Branch}
    (h : resolveOtherwise part scope callees otherwise = .ok branches) :
    branches.map (·.condition.isSome) = [] ∨ branches.map (·.condition.isSome) = [false] := by
  cases otherwise with
  | none =>
      cases h
      exact Or.inl rfl
  | some body =>
      obtain ⟨body', hbody, h⟩ := bind_eq_ok.1 h
      cases h
      exact Or.inr rfl

/-- Arms, and perhaps a last branch without a condition, are guarded. -/
theorem guarded_of_arms {arms : List Arm} (harms : arms.isEmpty = false) {last : List Bool}
    (hlast : last = [] ∨ last = [false]) : Stmt.Guarded (List.replicate arms.length true ++ last) := by
  cases arms with
  | nil => cases harms
  | cons arm arms =>
      refine ⟨rfl, ?_⟩
      rcases hlast with rfl | rfl
      · intro c hc
        rw [List.append_nil] at hc
        exact List.eq_of_mem_replicate (List.dropLast_subset _ hc)
      · rw [List.dropLast_concat]
        exact fun c hc => List.eq_of_mem_replicate hc

mutual

theorem Statement.branched_of_resolve {x : Statement} {x' : Stmt} (h : x.resolve part scope callees = .ok x') :
    Stmt.Branched [x'] := by
  match x with
  | .assign target value =>
      obtain ⟨e, -, h⟩ := bind_eq_ok.1 h
      obtain ⟨e', -, h⟩ := bind_eq_ok.1 h
      cases h
      simp [Stmt.Branched]
  | .call name =>
      obtain ⟨callee, -, h⟩ := bind_eq_ok.1 h
      cases h
      exact Stmt.branched_call _ _
  | .choice arms otherwise =>
      unfold Statement.resolve at h
      split at h
      · cases h
      · next harms =>
        obtain ⟨branches, hb, h⟩ := bind_eq_ok.1 h
        obtain ⟨last, hl, h⟩ := bind_eq_ok.1 h
        cases h
        rw [Stmt.Branched, Stmt.shapes_choice, Stmt.shapesOfBranches_append, Stmt.shapes_nil, List.append_nil,
          List.map_append, conditions_of_resolveArms hb]
        refine List.forall_mem_cons.2 ⟨guarded_of_arms (by simpa using harms) (conditions_of_resolveOtherwise hl), ?_⟩
        exact List.forall_mem_append.2 ⟨branched_of_resolveArms hb, branched_of_resolveOtherwise hl⟩
  | .loop condition body =>
      obtain ⟨e, -, h⟩ := bind_eq_ok.1 h
      obtain ⟨body', hb, h⟩ := bind_eq_ok.1 h
      cases h
      simpa [Stmt.Branched] using branched_of_resolveAll hb
  | .expr term =>
      obtain ⟨e, -, h⟩ := bind_eq_ok.1 h
      cases h
      simp [Stmt.Branched]
  | .group body =>
      obtain ⟨body', hb, h⟩ := bind_eq_ok.1 h
      cases h
      simpa [Stmt.Branched] using branched_of_resolveAll hb

theorem Statement.branched_of_resolveAll {body : List Statement} {body' : List Stmt}
    (h : Statement.resolveAll part scope callees body = .ok body') : Stmt.Branched body' := by
  match body with
  | [] =>
      cases h
      exact List.forall_mem_nil _
  | x :: rest =>
      obtain ⟨x', hx, h⟩ := bind_eq_ok.1 h
      obtain ⟨rest', hrest, h⟩ := bind_eq_ok.1 h
      cases h
      rw [Stmt.Branched, ← List.singleton_append, Stmt.shapes_append]
      exact List.forall_mem_append.2 ⟨branched_of_resolve hx, branched_of_resolveAll hrest⟩

theorem Statement.branched_of_resolveArms {arms : List Arm} {branches : List Branch}
    (h : Statement.resolveArms part scope callees arms = .ok branches) :
    ∀ shape ∈ Stmt.shapesOfBranches branches, Stmt.Guarded shape := by
  match arms with
  | [] =>
      cases h
      exact List.forall_mem_nil _
  | .mk condition body :: rest =>
      obtain ⟨b, hb, h⟩ := bind_eq_ok.1 h
      obtain ⟨rest', hrest, h⟩ := bind_eq_ok.1 h
      cases h
      obtain ⟨e, -, hb⟩ := bind_eq_ok.1 hb
      obtain ⟨body', hbody, hb⟩ := bind_eq_ok.1 hb
      cases hb
      rw [Stmt.shapesOfBranches_cons]
      exact List.forall_mem_append.2 ⟨branched_of_resolveAll hbody, branched_of_resolveArms hrest⟩

theorem Statement.branched_of_resolveOtherwise {otherwise : Option (List Statement)} {branches : List Branch}
    (h : Statement.resolveOtherwise part scope callees otherwise = .ok branches) :
    ∀ shape ∈ Stmt.shapesOfBranches branches, Stmt.Guarded shape := by
  match otherwise with
  | none =>
      cases h
      exact List.forall_mem_nil _
  | some body =>
      obtain ⟨body', hbody, h⟩ := bind_eq_ok.1 h
      cases h
      rw [Stmt.shapesOfBranches_cons, Stmt.shapesOfBranches_nil, List.append_nil]
      exact branched_of_resolveAll hbody

end

theorem branched_of_resolveBlocks {s s' : Supply} {pairs : List (BlockRef × Block)} {blocks : List Diversity.Block}
    (h : resolveBlocks scope callees s pairs = .ok (blocks, s')) : ∀ b ∈ blocks, Stmt.Branched b.statements := by
  induction pairs generalizing s blocks with
  | nil =>
      cases h
      exact List.forall_mem_nil _
  | cons pair pairs ih =>
      obtain ⟨⟨block, s₁⟩, hb, h⟩ := bind_eq_ok.1 h
      obtain ⟨⟨rest, s₂⟩, hrest, h⟩ := bind_eq_ok.1 h
      cases h
      obtain ⟨statements, hs, hb⟩ := bind_eq_ok.1 hb
      cases hb
      refine List.forall_mem_cons.2 ⟨?_, ih hrest⟩
      exact (Statement.branched_of_resolveAll hs).copy (Stmt.anonymousAll_refreshAll _ _)

theorem branched {d : Description} {s s' : Supply} {g : Graph} (h : d.toGraph s = .ok (g, s')) :
    ∀ b ∈ g.blocks.toList, Stmt.Branched b.statements := by
  obtain ⟨_, _, _, -, -, -, -, hblocks, -⟩ := toGraph_eq_ok h
  exact branched_of_resolveBlocks hblocks

end Description

end Diversity
