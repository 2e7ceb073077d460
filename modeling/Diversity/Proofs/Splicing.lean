import Diversity.Graph
import Diversity.Proofs.BlockSet
import Diversity.Proofs.Execution
import Diversity.Proofs.Expansion
/-! Splicing blocks into their callers and repairing the calls left over keeps what a program does. -/
namespace Diversity

universe u

namespace Stmt

mutual

/-- A statement and its copy in a spliced body: the same up to identities, with the bodies inside
spliced as well. -/
inductive Copied (p : Placement) (bs : BlockSet) : Stmt → Stmt → Prop
  | assign {i i' target target' value value'} : target.anonymous = target'.anonymous →
      value.anonymous = value'.anonymous → Copied p bs (.assign i target value) (.assign i' target' value')
  | call {i i' callee callee'} : p.isFunc callee.name = true → callee'.name = callee.name →
      Copied p bs (.call i callee) (.call i' callee')
  | choice {i i' branches branches'} : SplicedBranches p bs branches branches' →
      Copied p bs (.choice i branches) (.choice i' branches')
  | loop {i i' condition condition' body body'} : condition.anonymous = condition'.anonymous →
      SplicedAll p bs body body' → Copied p bs (.loop i condition body) (.loop i' condition' body')
  | expr {i i' e e'} : e.anonymous = e'.anonymous → Copied p bs (.expr i e) (.expr i' e')
  | group {i i' body body'} : SplicedAll p bs body body' → Copied p bs (.group i body) (.group i' body')

/-- A body and what splicing makes of it. -/
inductive SplicedAll (p : Placement) (bs : BlockSet) : List Stmt → List Stmt → Prop
  | nil : SplicedAll p bs [] []
  | copied {x x' rest rest'} : Copied p bs x x' → SplicedAll p bs rest rest' →
      SplicedAll p bs (x :: rest) (x' :: rest')
  | unfolded {i callee b front rest rest'} : bs.find? callee.name = some b →
      SplicedAll p bs b.statements front → SplicedAll p bs rest rest' →
      SplicedAll p bs (.call i callee :: rest) (front ++ rest')

inductive SplicedBranches (p : Placement) (bs : BlockSet) : List Branch → List Branch → Prop
  | nil : SplicedBranches p bs [] []
  | cons {condition condition' body body' rest rest'} :
      condition.map Expr.anonymous = condition'.map Expr.anonymous → SplicedAll p bs body body' →
      SplicedBranches p bs rest rest' →
      SplicedBranches p bs (.mk condition body :: rest) (.mk condition' body' :: rest')

end

variable {p : Placement} {bs bs' : BlockSet}

mutual

/-- Splicing does not see the identities in the body that it starts from. -/
theorem SplicedAll.of_anonymous_left {body copy result} (h : SplicedAll p bs copy result)
    (e : anonymousAll copy = anonymousAll body) : SplicedAll p bs body result := by
  match h, body, e with
  | .nil, [], _ => exact .nil
  | .copied hx h, _ :: _, e =>
      simp only [anonymousAll, List.cons.injEq] at e
      exact .copied (hx.of_anonymous_left e.1) (h.of_anonymous_left e.2)
  | .unfolded hb hf h, x :: _, e =>
      simp only [anonymousAll, List.cons.injEq] at e
      cases x with
      | call i callee =>
        simp only [anonymous, call.injEq, BlockRef.mk.injEq] at e
        exact .unfolded (e.1.2.1 ▸ hb) hf (h.of_anonymous_left e.2)
      | _ => simp [anonymous] at e

theorem Copied.of_anonymous_left {x y z} (h : Copied p bs y z) (e : y.anonymous = x.anonymous) :
    Copied p bs x z := by
  match h with
  | .assign ht hv =>
      cases x <;> simp only [anonymous, reduceCtorEq, assign.injEq] at e
      exact .assign (e.2.1 ▸ ht) (e.2.2 ▸ hv)
  | .call hf hn =>
      cases x <;> simp only [anonymous, reduceCtorEq, call.injEq, BlockRef.mk.injEq] at e
      exact .call (e.2.1 ▸ hf) (e.2.1 ▸ hn)
  | .choice hb =>
      cases x <;> simp only [anonymous, reduceCtorEq, choice.injEq] at e
      exact .choice (hb.of_anonymous_left e.2)
  | .loop hc hb =>
      cases x <;> simp only [anonymous, reduceCtorEq, loop.injEq] at e
      exact .loop (e.2.1 ▸ hc) (hb.of_anonymous_left e.2.2)
  | .expr he =>
      cases x <;> simp only [anonymous, reduceCtorEq, expr.injEq] at e
      exact .expr (e.2 ▸ he)
  | .group hb =>
      cases x <;> simp only [anonymous, reduceCtorEq, group.injEq] at e
      exact .group (hb.of_anonymous_left e.2)

theorem SplicedBranches.of_anonymous_left {branches copy result} (h : SplicedBranches p bs copy result)
    (e : anonymousBranches copy = anonymousBranches branches) :
    SplicedBranches p bs branches result := by
  match h, branches, e with
  | .nil, [], _ => exact .nil
  | .cons hc hb h, .mk _ _ :: _, e =>
      simp only [anonymousBranches, anonymousBranch, List.cons.injEq, Branch.mk.injEq] at e
      exact .cons (e.1.1 ▸ hc) (hb.of_anonymous_left e.1.2) (h.of_anonymous_left e.2)

end

theorem SplicedAll.append {body body' rest rest'} (h : SplicedAll p bs body body')
    (hr : SplicedAll p bs rest rest') : SplicedAll p bs (body ++ rest) (body' ++ rest') := by
  match h with
  | .nil => exact hr
  | .copied hx h => exact .copied hx (h.append hr)
  | .unfolded hb hf h =>
      rw [List.append_assoc]
      exact .unfolded hb hf (h.append hr)

mutual

theorem SplicedAll.of_anonymous_right {body result copy} (h : SplicedAll p bs body result)
    (e : anonymousAll result = anonymousAll copy) : SplicedAll p bs body copy := by
  match h, copy, e with
  | .nil, [], _ => exact .nil
  | .copied hx h, _ :: _, e =>
      simp only [anonymousAll, List.cons.injEq] at e
      exact .copied (hx.of_anonymous_right e.1) (h.of_anonymous_right e.2)
  | .unfolded hb hf h, copy, e =>
      simp only [anonymousAll_eq_map, List.map_append] at e
      obtain ⟨front, rest, rfl, hfront, hrest⟩ := List.map_eq_append_iff.1 e.symm
      simp only [← anonymousAll_eq_map] at hfront hrest
      exact .unfolded hb (hf.of_anonymous_right hfront.symm) (h.of_anonymous_right hrest.symm)

theorem Copied.of_anonymous_right {x y z} (h : Copied p bs x y) (e : y.anonymous = z.anonymous) :
    Copied p bs x z := by
  match h with
  | .assign ht hv =>
      cases z <;> simp only [anonymous, reduceCtorEq, assign.injEq] at e
      exact .assign (ht.trans e.2.1) (hv.trans e.2.2)
  | .call hf hn =>
      cases z <;> simp only [anonymous, reduceCtorEq, call.injEq, BlockRef.mk.injEq] at e
      exact .call hf (e.2.1 ▸ hn)
  | .choice hb =>
      cases z <;> simp only [anonymous, reduceCtorEq, choice.injEq] at e
      exact .choice (hb.of_anonymous_right e.2)
  | .loop hc hb =>
      cases z <;> simp only [anonymous, reduceCtorEq, loop.injEq] at e
      exact .loop (hc.trans e.2.1) (hb.of_anonymous_right e.2.2)
  | .expr he =>
      cases z <;> simp only [anonymous, reduceCtorEq, expr.injEq] at e
      exact .expr (he.trans e.2)
  | .group hb =>
      cases z <;> simp only [anonymous, reduceCtorEq, group.injEq] at e
      exact .group (hb.of_anonymous_right e.2)

theorem SplicedBranches.of_anonymous_right {branches result copy}
    (h : SplicedBranches p bs branches result)
    (e : anonymousBranches result = anonymousBranches copy) : SplicedBranches p bs branches copy := by
  match h, copy, e with
  | .nil, [], _ => exact .nil
  | .cons hc hb h, .mk _ _ :: _, e =>
      simp only [anonymousBranches, anonymousBranch, List.cons.injEq, Branch.mk.injEq] at e
      exact .cons (hc.trans e.1.1) (hb.of_anonymous_right e.1.2) (h.of_anonymous_right e.2)

end

mutual

theorem splicedAll_of_maps {s s' body body'}
    (h : MapsAll (Placement.Expansion p bs fun _ body body' _ => SplicedAll p bs body body') s body body' s') :
    SplicedAll p bs body body' := by
  match h with
  | .nil => exact .nil
  | .assign h => exact .copied (.assign rfl rfl) (splicedAll_of_maps h)
  | .call (.kept hf) h => exact .copied (.call hf rfl) (splicedAll_of_maps h)
  | .call (.spliced _ hr hc hq) h =>
      have he := anonymousAll_refreshAll _ _ |>.symm.trans (congrArg (anonymousAll ·.1) hc)
      exact .unfolded (BlockSet.find?_of_resolve hr) (hq.of_anonymous_left he.symm) (splicedAll_of_maps h)
  | .choice hb h => exact .copied (.choice (splicedBranches_of_maps hb)) (splicedAll_of_maps h)
  | .loop hb h => exact .copied (.loop rfl (splicedAll_of_maps hb)) (splicedAll_of_maps h)
  | .expr h => exact .copied (.expr rfl) (splicedAll_of_maps h)
  | .group hb h => exact .copied (.group (splicedAll_of_maps hb)) (splicedAll_of_maps h)

theorem splicedBranches_of_maps {s s' branches branches'}
    (h : MapsBranches (Placement.Expansion p bs fun _ body body' _ => SplicedAll p bs body body') s
      branches branches' s') : SplicedBranches p bs branches branches' := by
  match h with
  | .nil => exact .nil
  | .cons hb h => exact .cons rfl (splicedAll_of_maps hb) (splicedBranches_of_maps h)

end

mutual

/-- Pointing calls at other blocks of the same names changes identities only. -/
theorem anonymousAll_of_redirected {blocks : List Block} {s s' body body'}
    (h : MapsAll (BlockSet.Redirected blocks) s body body' s') :
    anonymousAll body = anonymousAll body' := by
  match h with
  | .nil => rfl
  | .assign h => simp only [anonymousAll, anonymous, anonymousAll_of_redirected h]
  | .call ⟨b, _, hb, e⟩ h =>
      subst e
      simp only [List.singleton_append, anonymousAll, anonymous, Block.ref, hb,
        anonymousAll_of_redirected h]
  | .choice hb h =>
      simp only [anonymousAll, anonymous, anonymousBranches_of_redirected hb, anonymousAll_of_redirected h]
  | .loop hb h =>
      simp only [anonymousAll, anonymous, anonymousAll_of_redirected hb, anonymousAll_of_redirected h]
  | .expr h => simp only [anonymousAll, anonymous, anonymousAll_of_redirected h]
  | .group hb h =>
      simp only [anonymousAll, anonymous, anonymousAll_of_redirected hb, anonymousAll_of_redirected h]

theorem anonymousBranches_of_redirected {blocks : List Block} {s s' branches branches'}
    (h : MapsBranches (BlockSet.Redirected blocks) s branches branches' s') :
    anonymousBranches branches = anonymousBranches branches' := by
  match h with
  | .nil => rfl
  | .cons hb h =>
      simp only [anonymousBranches, anonymousBranch, anonymousAll_of_redirected hb,
        anonymousBranches_of_redirected h]

end

variable {S : Type u} {M : Meaning S}

/-- Every function of the placement is in both block sets or in neither, and its body in the second one
is spliced from the first. -/
def Corresponds (p : Placement) (bs bs' : BlockSet) : Prop :=
  ∀ name, p.isFunc name = true → (bs.find? name = none ∧ bs'.find? name = none) ∨
    ∃ b b', bs.find? name = some b ∧ bs'.find? name = some b' ∧ SplicedAll p bs b.statements b'.statements

mutual

/-- A run of a body is a run of the spliced body. -/
theorem Runs.spliced (hp : Corresponds p bs bs') {body body' s t} (h : Runs M bs body s t)
    (hs : SplicedAll p bs body body') : Runs M bs' body' s t := by
  match h, hs with
  | .nil, .nil => exact .nil
  | .assign h₁ h, .copied (.assign ht hv) hs =>
      exact .assign (M.assign_congr ht hv ▸ h₁) (h.spliced hp hs)
  | .call hf h₁ h, .copied (.call hfunc hn) hs =>
      rcases hp _ hfunc with ⟨hb, -⟩ | ⟨b, b', hb, hb', hbody⟩
      · rw [hf] at hb; cases hb
      · rw [hf] at hb; cases hb
        exact .call (hn ▸ hb') (h₁.spliced hp hbody) (h.spliced hp hs)
  | .call hf h₁ h, .unfolded hb hfront hs =>
      rw [hf] at hb; cases hb
      exact (h₁.spliced hp hfront).append (h.spliced hp hs)
  | .choice h₁ h, .copied (.choice hb) hs => exact .choice (h₁.spliced hp hb) (h.spliced hp hs)
  | .again ht h₁ h, .copied (.loop hc hb) hs =>
      exact .again (M.test_congr hc ▸ ht) (h₁.spliced hp hb) (h.spliced hp (.copied (.loop hc hb) hs))
  | .leave ht h, .copied (.loop hc hb) hs => exact .leave (M.test_congr hc ▸ ht) (h.spliced hp hs)
  | .expr h₁ h, .copied (.expr he) hs => exact .expr (M.expr_congr he ▸ h₁) (h.spliced hp hs)
  | .group h₁ h, .copied (.group hb) hs => exact .group (h₁.spliced hp hb) (h.spliced hp hs)

theorem RunsBranches.spliced (hp : Corresponds p bs bs') {branches branches' s t}
    (h : RunsBranches M bs branches s t) (hs : SplicedBranches p bs branches branches') :
    RunsBranches M bs' branches' s t := by
  match h, hs with
  | .done, .nil => exact .done
  | .otherwise h, .cons hc hb _ =>
      obtain rfl := Option.map_eq_none_iff.1 hc.symm
      exact .otherwise (h.spliced hp hb)
  | .taken ht h, .cons hc hb _ =>
      obtain ⟨_, rfl, he⟩ := Option.map_eq_some_iff.1 hc.symm
      exact .taken (M.test_congr he ▸ ht) (h.spliced hp hb)
  | .skipped ht h, .cons hc _ hs =>
      obtain ⟨_, rfl, he⟩ := Option.map_eq_some_iff.1 hc.symm
      exact .skipped (M.test_congr he ▸ ht) (h.spliced hp hs)

end

/-- Where nothing is left of a body, the body does nothing. -/
theorem SplicedAll.runs_of_nil {body result} (h : SplicedAll p bs body result) (e : result = [])
    (s : S) : Runs M bs body s s := by
  match h with
  | .nil => exact .nil
  | .copied _ _ => cases e
  | .unfolded hb hf h =>
      have he := List.append_eq_nil_iff.1 e
      exact .call hb (hf.runs_of_nil he.1 s) (h.runs_of_nil he.2 s)

/-- The first statement of a spliced body is the copy of one that stands first once the calls in front
of it are unfolded. -/
theorem SplicedAll.head {body result x' rest'} (h : SplicedAll p bs body result)
    (e : result = x' :: rest') : ∃ x rest, Copied p bs x x' ∧ SplicedAll p bs rest rest' ∧
      ∀ s t, Runs M bs (x :: rest) s t → Runs M bs body s t := by
  match h with
  | .nil => cases e
  | .copied hx h =>
      obtain ⟨rfl, rfl⟩ := List.cons.inj e
      exact ⟨_, _, hx, h, fun _ _ hr => hr⟩
  | .unfolded hb hf h =>
      rcases List.append_eq_cons_iff.1 e with ⟨hn, e⟩ | ⟨front, hn, e⟩
      · obtain ⟨x, rest, hx, hrest, hrun⟩ := h.head e
        exact ⟨x, rest, hx, hrest, fun s t hr => .call hb (hf.runs_of_nil hn s) (hrun s t hr)⟩
      · obtain ⟨x, rest, hx, hrest, hrun⟩ := hf.head hn
        refine ⟨x, rest ++ _, hx, e ▸ hrest.append h, fun s t hr => ?_⟩
        rw [← List.cons_append] at hr
        obtain ⟨u, hr₁, hr₂⟩ := hr.split
        exact .call hb (hrun s u hr₁) hr₂

mutual

/-- A run of the spliced body is a run of the body that it came from. -/
theorem Runs.of_spliced (hp : Corresponds p bs bs') {body body' s t} (h : Runs M bs' body' s t)
    (hs : SplicedAll p bs body body') : Runs M bs body s t := by
  match h with
  | .nil => exact hs.runs_of_nil rfl _
  | .assign h₁ h =>
      obtain ⟨_, _, hx, hrest, hrun⟩ := hs.head (M := M) rfl
      let .assign ht hv := hx
      exact hrun _ _ (.assign (M.assign_congr ht hv ▸ h₁) (h.of_spliced hp hrest))
  | .call hf h₁ h =>
      obtain ⟨_, _, hx, hrest, hrun⟩ := hs.head (M := M) rfl
      let .call hfunc hn := hx
      rcases hp _ hfunc with ⟨-, hb'⟩ | ⟨b, b', hb, hb', hbody⟩
      · rw [← hn, hf] at hb'; cases hb'
      · rw [← hn, hf] at hb'; cases hb'
        exact hrun _ _ (.call hb (h₁.of_spliced hp hbody) (h.of_spliced hp hrest))
  | .choice h₁ h =>
      obtain ⟨_, _, hx, hrest, hrun⟩ := hs.head (M := M) rfl
      let .choice hb := hx
      exact hrun _ _ (.choice (h₁.of_spliced hp hb) (h.of_spliced hp hrest))
  | .again ht h₁ h =>
      obtain ⟨_, _, hx, hrest, hrun⟩ := hs.head (M := M) rfl
      let .loop hc hb := hx
      exact hrun _ _ (.again (M.test_congr hc ▸ ht) (h₁.of_spliced hp hb)
        (h.of_spliced hp (.copied (.loop hc hb) hrest)))
  | .leave ht h =>
      obtain ⟨_, _, hx, hrest, hrun⟩ := hs.head (M := M) rfl
      let .loop hc hb := hx
      exact hrun _ _ (.leave (M.test_congr hc ▸ ht) (h.of_spliced hp hrest))
  | .expr h₁ h =>
      obtain ⟨_, _, hx, hrest, hrun⟩ := hs.head (M := M) rfl
      let .expr he := hx
      exact hrun _ _ (.expr (M.expr_congr he ▸ h₁) (h.of_spliced hp hrest))
  | .group h₁ h =>
      obtain ⟨_, _, hx, hrest, hrun⟩ := hs.head (M := M) rfl
      let .group hb := hx
      exact hrun _ _ (.group (h₁.of_spliced hp hb) (h.of_spliced hp hrest))

theorem RunsBranches.of_spliced (hp : Corresponds p bs bs') {branches branches' s t}
    (h : RunsBranches M bs' branches' s t) (hs : SplicedBranches p bs branches branches') :
    RunsBranches M bs branches s t := by
  match h, hs with
  | .done, .nil => exact .done
  | .otherwise h, .cons hc hb _ =>
      obtain rfl := Option.map_eq_none_iff.1 hc
      exact .otherwise (h.of_spliced hp hb)
  | .taken ht h, .cons hc hb _ =>
      obtain ⟨_, rfl, he⟩ := Option.map_eq_some_iff.1 hc
      exact .taken (M.test_congr he ▸ ht) (h.of_spliced hp hb)
  | .skipped ht h, .cons hc _ hs =>
      obtain ⟨_, rfl, he⟩ := Option.map_eq_some_iff.1 hc
      exact .skipped (M.test_congr he ▸ ht) (h.of_spliced hp hs)

end

/-- Splicing the functions of a placement and repairing what is left keeps every function, with a
spliced body. -/
theorem corresponds_of_repaired {supply supply' : Supply} {blocks : List Block}
    (hin : p.inline bs supply = .ok (blocks, supply')) (hrep : BlockSet.repaired blocks = .ok bs') :
    Corresponds p bs bs' := by
  intro name hname
  have hinlined := (Placement.inline_chained hin).forall₂
  obtain ⟨hnodup, hrepaired⟩ := BlockSet.repaired_eq_ok hrep
  cases hb : bs.find? name with
  | none =>
      refine Or.inl ⟨rfl, BlockSet.find?_eq_none.2 fun hmem => BlockSet.find?_eq_none.1 hb ?_⟩
      obtain ⟨b', hb', rfl⟩ := List.mem_map.1 hmem
      obtain ⟨c, hc, _, rfl, -⟩ := forall₂_mem_right hrepaired hb'
      obtain ⟨b, hfunc, _, _, _, -, rfl⟩ := forall₂_mem_right hinlined hc
      obtain ⟨hbs, -⟩ := List.mem_filter.1 hfunc
      exact List.mem_map.2 ⟨b, hbs, rfl⟩
  | some b =>
      obtain rfl := BlockSet.name_of_find? hb
      have hmem : b ∈ bs.toList.filter (p.isFunc ·.name) := List.mem_filter.2 ⟨BlockSet.mem_of_find? hb, hname⟩
      obtain ⟨c, hc, s, s', body, hx, rfl⟩ := forall₂_mem_left hinlined hmem
      obtain ⟨b', hb', body', rfl, hr⟩ := forall₂_mem_left hrepaired hc
      have hs : SplicedAll p bs b.statements body := Placement.expand_induction splicedAll_of_maps hx
      have hfound := BlockSet.find?_name hnodup hb'
      exact Or.inr ⟨b, _, rfl, hfound, hs.of_anonymous_right (anonymousAll_of_redirected hr)⟩

end Stmt

end Diversity
