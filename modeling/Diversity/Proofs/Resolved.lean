import Diversity.Description.Resolution
import Diversity.Proofs.Outcome
import Diversity.Proofs.Parts
/-! Resolved descriptions: variables are in scope or the library's, and calls are of declared blocks. -/
namespace Diversity.Description

variable {part : Part} {scope : Scope} {callees : List BlockRef}

/-- What a name in a description can stand for. -/
def Scope.Allows (scope : Scope) (v : Diversity.Variable) : Prop := v ∈ scope.vars ∨ v.chunk = none

theorem Scope.allows_of_resolve {name : String} {v : Diversity.Variable}
    (h : scope.resolve part name = .ok v) : scope.Allows v := by
  unfold resolve at h
  split at h
  · next hf =>
    cases h
    exact Or.inl (List.mem_of_find?_eq_some hf)
  · split at h
    · cases h
      exact Or.inr rfl
    · cases h

/-! ## Terms and their parts -/

mutual

/-- A term and all its parts. -/
def Term.subterms : Term → List Term
  | t@(.var _) | t@(.value _) | t@(.sizeofType _) => [t]
  | t@(.ref target) | t@(.deref target) | t@(.cast target _) | t@(.sizeofExpr target) => t :: subterms target
  | t@(.index target position) => t :: (subterms target ++ subterms position)
  | t@(.call target args) => t :: (subterms target ++ subtermsOfAll args)
  | t@(.op _ operands) => t :: subtermsOfAll operands

def Term.subtermsOfAll : List Term → List Term
  | [] => []
  | t :: ts => subterms t ++ subtermsOfAll ts

end

theorem Term.mem_subterms_self (t : Term) : t ∈ t.subterms := by
  cases t <;> simp [subterms]

mutual

/-- The nodes of a resolved term are its parts, resolved. -/
theorem Term.exists_subterm {t : Term} {e : Expr} (h : t.resolve part scope = .ok e) {n : Expr} (hn : n ∈ e.nodes) :
    ∃ t' ∈ t.subterms, t'.resolve part scope = .ok n := by
  rcases Expr.mem_nodes_iff.1 hn with rfl | ⟨c, hc, hnc⟩
  · exact ⟨t, t.mem_subterms_self, h⟩
  match t with
  | .var name =>
      obtain ⟨v, -, h⟩ := bind_eq_ok.1 h
      cases h
      cases hc
  | .ref target | .deref target | .sizeofExpr target =>
      obtain ⟨e, he, h⟩ := bind_eq_ok.1 h
      cases h
      obtain ⟨t', ht', hr⟩ := Term.exists_subterm he (List.mem_singleton.1 hc ▸ hnc)
      exact ⟨t', List.mem_cons_of_mem _ ht', hr⟩
  | .index target position =>
      obtain ⟨e, he, h⟩ := bind_eq_ok.1 h
      obtain ⟨i, hi, h⟩ := bind_eq_ok.1 h
      cases h
      rcases List.mem_cons.1 hc with rfl | hc
      · obtain ⟨t', ht', hr⟩ := Term.exists_subterm he hnc
        exact ⟨t', List.mem_cons_of_mem _ (List.mem_append_left _ ht'), hr⟩
      · obtain ⟨t', ht', hr⟩ := Term.exists_subterm hi (List.mem_singleton.1 hc ▸ hnc)
        exact ⟨t', List.mem_cons_of_mem _ (List.mem_append_right _ ht'), hr⟩
  | .call target args =>
      obtain ⟨e, he, h⟩ := bind_eq_ok.1 h
      obtain ⟨es, hes, h⟩ := bind_eq_ok.1 h
      cases h
      rcases List.mem_cons.1 hc with rfl | hc
      · obtain ⟨t', ht', hr⟩ := Term.exists_subterm he hnc
        exact ⟨t', List.mem_cons_of_mem _ (List.mem_append_left _ ht'), hr⟩
      · obtain ⟨t', ht', hr⟩ := Term.exists_subterm_of_all hes hc hnc
        exact ⟨t', List.mem_cons_of_mem _ (List.mem_append_right _ ht'), hr⟩
  | .op symbol operands =>
      unfold Term.resolve at h
      split at h
      · cases h
      · obtain ⟨es, hes, h⟩ := bind_eq_ok.1 h
        cases h
        obtain ⟨t', ht', hr⟩ := Term.exists_subterm_of_all hes hc hnc
        exact ⟨t', List.mem_cons_of_mem _ ht', hr⟩
  | .value literal =>
      cases h
      cases hc
  | .cast target type =>
      obtain ⟨e, he, h⟩ := bind_eq_ok.1 h
      obtain ⟨type, -, h⟩ := bind_eq_ok.1 h
      cases h
      obtain ⟨t', ht', hr⟩ := Term.exists_subterm he (List.mem_singleton.1 hc ▸ hnc)
      exact ⟨t', List.mem_cons_of_mem _ ht', hr⟩
  | .sizeofType type =>
      obtain ⟨type, -, h⟩ := bind_eq_ok.1 h
      cases h
      cases hc

theorem Term.exists_subterm_of_all {ts : List Term} {es : List Expr} (h : Term.resolveAll part scope ts = .ok es)
    {e n : Expr} (he : e ∈ es) (hn : n ∈ e.nodes) :
    ∃ t' ∈ Term.subtermsOfAll ts, t'.resolve part scope = .ok n := by
  match ts with
  | [] =>
      cases h
      cases he
  | t :: ts =>
      obtain ⟨e', he', h⟩ := bind_eq_ok.1 h
      obtain ⟨es', hes, h⟩ := bind_eq_ok.1 h
      cases h
      rcases List.mem_cons.1 he with rfl | he
      · obtain ⟨t', ht', hr⟩ := Term.exists_subterm he' hn
        exact ⟨t', List.mem_append_left _ ht', hr⟩
      · obtain ⟨t', ht', hr⟩ := Term.exists_subterm_of_all hes he hn
        exact ⟨t', List.mem_append_right _ ht', hr⟩

end

/-- The term and the expression are of one kind, and the parts of the expression are those of the term,
resolved. -/
def Term.Reads (part : Part) (scope : Scope) : Term → Expr → Prop
  | .var name, .var _ v => scope.resolve part name = .ok v
  | .ref t, .ref _ e | .deref t, .deref _ e => t.resolve part scope = .ok e
  | .index t t', .index _ e e' => t.resolve part scope = .ok e ∧ t'.resolve part scope = .ok e'
  | .value literal, .value _ literal' => literal = literal'
  | .call _ _, .call _ _ _ | .op _ _, .op _ _ _ | .cast _ _, .cast _ _ _ | .sizeofExpr _, .sizeofExpr _ _
  | .sizeofType _, .sizeofType _ _ => True
  | _, _ => False

theorem Term.reads_of_resolve {t : Term} {e : Expr} (h : t.resolve part scope = .ok e) : t.Reads part scope e := by
  cases t with
  | value literal =>
      cases h
      rfl
  | op symbol operands =>
      unfold Term.resolve at h
      split at h
      · cases h
      · obtain ⟨es, -, h⟩ := bind_eq_ok.1 h
        cases h
        trivial
  | var _ | ref _ | deref _ | sizeofExpr _ | sizeofType _ =>
      obtain ⟨x, hx, h⟩ := bind_eq_ok.1 h
      cases h
      first | exact hx | trivial
  | index _ _ | call _ _ | cast _ _ =>
      obtain ⟨x, hx, h⟩ := bind_eq_ok.1 h
      obtain ⟨y, hy, h⟩ := bind_eq_ok.1 h
      cases h
      first | exact ⟨hx, hy⟩ | trivial

theorem Term.allows_of_resolve {t : Term} {e : Expr} (h : t.resolve part scope = .ok e) :
    ∀ v ∈ e.vars, scope.Allows v := by
  intro v hv
  obtain ⟨n, hn, hv⟩ := List.mem_filterMap.1 hv
  obtain ⟨t', -, h⟩ := Term.exists_subterm h hn
  have hreads := Term.reads_of_resolve h
  cases n with
  | var i w =>
      cases hv
      cases t' with
      | var name => exact Scope.allows_of_resolve hreads
      | _ => cases hreads
  | _ => cases hv

/-! ## Statements -/

mutual

/-- The terms that a statement holds. -/
def Statement.terms : Statement → List Term
  | .assign target value => [target, value]
  | .call _ => []
  | .choice arms otherwise => termsOfArms arms ++ termsOfOtherwise otherwise
  | .loop condition body => condition :: termsOfAll body
  | .expr term => [term]
  | .group body => termsOfAll body

def Statement.termsOfAll : List Statement → List Term
  | [] => []
  | x :: rest => terms x ++ termsOfAll rest

def Statement.termsOfArms : List Arm → List Term
  | [] => []
  | .mk condition body :: rest => condition :: (termsOfAll body ++ termsOfArms rest)

def Statement.termsOfOtherwise : Option (List Statement) → List Term
  | none => []
  | some body => termsOfAll body

end

/-- The operands are terms, resolved, and all calls are of the given callees. -/
def Valid (part : Part) (scope : Scope) (callees : List BlockRef) (terms : List Term) (operands : List Operand)
    (calls : List (NodeId × BlockRef)) : Prop :=
  (∀ o ∈ operands, ∃ t ∈ terms, t.resolve part scope = .ok o.expr) ∧ ∀ c ∈ calls, c.2 ∈ callees

theorem Valid.append {ts ts' : List Term} {os os' : List Operand} {cs cs' : List (NodeId × BlockRef)}
    (h : Valid part scope callees ts os cs) (h' : Valid part scope callees ts' os' cs') :
    Valid part scope callees (ts ++ ts') (os ++ os') (cs ++ cs') := by
  refine ⟨List.forall_mem_append.2 ⟨fun o ho => ?_, fun o ho => ?_⟩, List.forall_mem_append.2 ⟨h.2, h'.2⟩⟩
  · obtain ⟨t, ht, hr⟩ := h.1 o ho
    exact ⟨t, List.mem_append_left _ ht, hr⟩
  · obtain ⟨t, ht, hr⟩ := h'.1 o ho
    exact ⟨t, List.mem_append_right _ ht, hr⟩

theorem Valid.nil : Valid part scope callees [] [] [] := ⟨nofun, nofun⟩

theorem Valid.operand {t : Term} {e : Expr} {isTarget : Bool} (h : t.resolve part scope = .ok e) :
    Valid part scope callees [t] [⟨e, isTarget⟩] [] :=
  ⟨List.forall_mem_singleton.2 ⟨t, List.mem_singleton.2 rfl, h⟩, nofun⟩

theorem mem_of_resolveCall {name : String} {callee : BlockRef} (h : resolveCall part callees name = .ok callee) :
    callee ∈ callees := by
  unfold resolveCall at h
  split at h
  · next hf =>
    cases h
    exact List.mem_of_find?_eq_some hf
  · cases h

mutual

theorem Statement.valid_of_resolve {x : Statement} {x' : Stmt} {rest : List Stmt}
    (h : x.resolve part scope callees = .ok x')
    {ts : List Term} (hrest : Valid part scope callees ts (Stmt.operandsOfAll rest) (Stmt.calls rest)) :
    Valid part scope callees (x.terms ++ ts) (Stmt.operandsOfAll (x' :: rest)) (Stmt.calls (x' :: rest)) := by
  match x with
  | .assign target value =>
      obtain ⟨e, he, h⟩ := bind_eq_ok.1 h
      obtain ⟨e', he', h⟩ := bind_eq_ok.1 h
      cases h
      rw [Stmt.calls_assign]
      exact ((Valid.operand he).append (Valid.operand he')).append hrest
  | .call name =>
      obtain ⟨callee, hc, h⟩ := bind_eq_ok.1 h
      cases h
      rw [Stmt.calls_call]
      exact ⟨hrest.1, List.forall_mem_cons.2 ⟨mem_of_resolveCall hc, hrest.2⟩⟩
  | .choice arms otherwise =>
      unfold Statement.resolve at h
      split at h
      · cases h
      · obtain ⟨branches, hb, h⟩ := bind_eq_ok.1 h
        obtain ⟨last, hl, h⟩ := bind_eq_ok.1 h
        cases h
        rw [Stmt.calls_choice, Stmt.callsOfBranches_append, Stmt.operandsOfAll, Stmt.operands,
          Stmt.operandsOfBranches_append]
        exact ((valid_of_resolveArms hb).append (valid_of_resolveOtherwise hl)).append hrest
  | .loop condition body =>
      obtain ⟨e, he, h⟩ := bind_eq_ok.1 h
      obtain ⟨body', hb, h⟩ := bind_eq_ok.1 h
      cases h
      rw [Stmt.calls_loop]
      exact ((Valid.operand he).append (valid_of_resolveAll hb)).append hrest
  | .expr term =>
      obtain ⟨e, he, h⟩ := bind_eq_ok.1 h
      cases h
      rw [Stmt.calls_expr]
      exact (Valid.operand he).append hrest
  | .group body =>
      obtain ⟨body', hb, h⟩ := bind_eq_ok.1 h
      cases h
      rw [Stmt.calls_group]
      exact (valid_of_resolveAll hb).append hrest

theorem Statement.valid_of_resolveAll {body : List Statement} {body' : List Stmt}
    (h : Statement.resolveAll part scope callees body = .ok body') :
    Valid part scope callees (Statement.termsOfAll body) (Stmt.operandsOfAll body') (Stmt.calls body') := by
  match body with
  | [] =>
      cases h
      exact .nil
  | x :: rest =>
      obtain ⟨x', hx, h⟩ := bind_eq_ok.1 h
      obtain ⟨rest', hrest, h⟩ := bind_eq_ok.1 h
      cases h
      exact valid_of_resolve hx (valid_of_resolveAll hrest)

theorem Statement.valid_of_resolveArms {arms : List Arm} {branches : List Branch}
    (h : Statement.resolveArms part scope callees arms = .ok branches) :
    Valid part scope callees (Statement.termsOfArms arms) (Stmt.operandsOfBranches branches)
      (Stmt.callsOfBranches branches) := by
  match arms with
  | [] =>
      cases h
      exact .nil
  | .mk condition body :: rest =>
      obtain ⟨b, hb, h⟩ := bind_eq_ok.1 h
      obtain ⟨rest', hrest, h⟩ := bind_eq_ok.1 h
      cases h
      obtain ⟨e, he, hb⟩ := bind_eq_ok.1 hb
      obtain ⟨body', hbody, hb⟩ := bind_eq_ok.1 hb
      cases hb
      rw [Stmt.callsOfBranches_cons]
      exact ((Valid.operand he).append (valid_of_resolveAll hbody)).append (valid_of_resolveArms hrest)

theorem Statement.valid_of_resolveOtherwise {otherwise : Option (List Statement)} {branches : List Branch}
    (h : Statement.resolveOtherwise part scope callees otherwise = .ok branches) :
    Valid part scope callees (Statement.termsOfOtherwise otherwise) (Stmt.operandsOfBranches branches)
      (Stmt.callsOfBranches branches) := by
  match otherwise with
  | none =>
      cases h
      exact .nil
  | some body =>
      obtain ⟨body', hbody, h⟩ := bind_eq_ok.1 h
      cases h
      have hoperands : Stmt.operandsOfBranches [.mk none body'] = Stmt.operandsOfAll body' := by
        simp [Stmt.operandsOfBranches, Stmt.operandsOfBranch]
      have hcalls : Stmt.callsOfBranches [.mk none body'] = Stmt.calls body' := by
        simp [Stmt.calls, Stmt.callsOfBranches, Stmt.nodesOfBranches, Stmt.nodesOfBranch]
      rw [hoperands, hcalls]
      exact valid_of_resolveAll hbody

end

end Diversity.Description
