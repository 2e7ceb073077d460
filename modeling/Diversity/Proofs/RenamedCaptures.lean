import Diversity.Proofs.Access
import Diversity.Proofs.RenamedBlocks
/-! Captures under other identities: variables are captured, joined, lifted and replaced as before. -/
namespace Diversity

variable {ρ : Renaming}

def Capture.rename (ρ : Renaming) : Capture → Capture
  | .base e => .base (e.rename ρ)
  | .ref inner => .ref (inner.rename ρ)
  | .assigned inner => .assigned (inner.rename ρ)
  | .deref inner => .deref (inner.rename ρ)
  | .index inner position => .index (inner.rename ρ) (position.rename ρ)

def Usage.rename (ρ : Renaming) (u : Usage) : Usage := ⟨ρ.node u.origin, u.capture.rename ρ⟩

def Substitution.rename (ρ : Renaming) (s : Substitution) : Substitution :=
  s.map fun r => (ρ.node r.1, r.2.rename ρ)

def Lifted.rename (ρ : Renaming) (l : Lifted) : Lifted :=
  ⟨l.maximal.rename ρ, l.param.rename ρ, Substitution.rename ρ l.substitution⟩

namespace Capture

@[simp] theorem root_rename (c : Capture) : (c.rename ρ).root = c.root.rename ρ := by
  induction c with
  | base _ => rfl
  | ref _ ih | assigned _ ih | deref _ ih | index _ _ ih => exact ih

@[simp] theorem key_rename (c : Capture) : (c.rename ρ).key = c.key.map ρ.key := by
  simp [key, Function.comp_def]

@[simp] theorem text_rename (c : Capture) : (c.rename ρ).text = c.text := by
  induction c with
  | base e => exact e.text_rename
  | ref _ ih | assigned _ ih | deref _ ih | index _ _ ih => simp [rename, text, ih]

@[simp] theorem sameShape_rename [ρ.Faithful] (c d : Capture) :
    (c.rename ρ).sameShape (d.rename ρ) = c.sameShape d := by
  induction c generalizing d with
  | base _ | ref _ ih | assigned _ ih | deref _ ih | index _ _ ih => cases d <;> simp [rename, sameShape, *]

@[simp] theorem toExpr_rename (c : Capture) : (c.rename ρ).toExpr = c.toExpr.rename ρ := by
  induction c with
  | base _ => rfl
  | ref _ ih | assigned _ ih | deref _ ih | index _ _ ih => simp [rename, toExpr, Expr.rename, ih]

@[simp] theorem toArgument_rename (c : Capture) : (c.rename ρ).toArgument = c.toArgument.rename ρ := by
  induction c with
  | base _ => rfl
  | ref _ ih | assigned _ ih | deref _ ih | index _ _ ih => simp [rename, toArgument, ih]

@[simp] theorem replace_rename (c r : Capture) : (c.rename ρ).replace (r.rename ρ) = (c.replace r).rename ρ := by
  induction c with
  | base _ => rfl
  | ref _ ih | assigned _ ih | deref _ ih | index _ _ ih => simp [rename, replace, ih]

theorem addressOf_rename (c : Capture) : (c.rename ρ).addressOf = c.addressOf.rename ρ := by
  cases c <;> rfl

theorem target_rename (c : Capture) : (c.rename ρ).target = c.target.rename ρ := by
  cases c <;> rfl

@[simp] theorem simplify_rename (c : Capture) : (c.rename ρ).simplify = c.simplify.rename ρ := by
  induction c with
  | base _ => rfl
  | ref _ ih => rw [rename, simplify, ih, addressOf_rename, simplify]
  | deref _ ih => rw [rename, simplify, ih, target_rename, simplify]
  | assigned _ ih | index _ _ ih => simp [rename, simplify, ih]

theorem invertOnto_rename (c done : Capture) :
    (c.rename ρ).invertOnto (done.rename ρ) = (c.invertOnto done).rename ρ := by
  induction c generalizing done with
  | base _ => rfl
  | ref _ ih | assigned _ ih => exact ih (.deref done)
  | deref _ ih | index _ _ ih => exact ih (.ref done)

@[simp] theorem invert_rename (c : Capture) (hole : Expr) :
    (c.rename ρ).invert (hole.rename ρ) = (c.invert hole).rename ρ :=
  c.invertOnto_rename (.base hole)

theorem through_rename (c context : Capture) (hole : Expr) :
    (c.rename ρ).through (context.rename ρ) (hole.rename ρ) = (c.through context hole).rename ρ := by
  simp [through]

@[simp] theorem paramType_rename (c : Capture) : (c.rename ρ).paramType = c.paramType := by
  induction c with
  | base e =>
      simp only [rename, paramType, Expr.var?_rename, Expr.text_rename]
      cases e.var? <;> rfl
  | ref _ ih | assigned _ ih | deref _ ih | index _ _ ih => simp [rename, paramType, ih]

theorem sameLiteral_rename (a b : Expr) : (a.rename ρ).sameLiteral (b.rename ρ) = a.sameLiteral b := by
  cases a <;> cases b <;> rfl

theorem rename_absorb [ρ.Faithful] (c inner joined : Capture) :
    (absorb c inner joined).rename ρ = absorb (c.rename ρ) (inner.rename ρ) (joined.rename ρ) := by
  simp only [absorb, sameShape_rename]
  exact apply_ite (rename ρ) _ _ _

theorem join_rename [ρ.Faithful] (c d : Capture) : (c.rename ρ).join (d.rename ρ) = (c.join d).rename ρ := by
  fun_induction join c d with
  | case1 a b ih | case2 a b ih | case3 a b ih | case4 a b ih | case11 a b ih | case14 a b _ ih | case15 a _ b ih =>
      simp [rename, join, ih]
  | case12 a i b j hij ih | case13 a i b j hij ih => simp [rename, join, sameLiteral_rename, hij, ih]
  | case5 a d hr ha ih | case6 a d hr ha ih | case7 d a hr ha ih | case8 d a hr ha ih =>
      -- The other capture is no address and is not assigned, which its constructor shows.
      cases d <;> simp_all [rename, join, rename_absorb]
  | case9 e d hr ha => cases d <;> simp_all [rename, join]
  | case10 d e hr ha he => cases d <;> simp_all [rename, join]

theorem maximal_rename [ρ.Faithful] (c d : Capture) :
    (c.rename ρ).maximal (d.rename ρ) = (c.maximal d).map (rename ρ) := by
  simp only [maximal, key_rename, (Option.map_injective ρ.key_injective).eq_iff, join_rename, text_rename, root_rename,
    Expr.text_rename]
  split <;> rfl

theorem joinUsages_rename [ρ.Faithful] (name block : String) (us : List Usage) :
    joinUsages name block (us.map (Usage.rename ρ)) = (joinUsages name block us).map (rename ρ) := by
  cases us with
  | nil => rfl
  | cons u us => exact Lockstep.except.foldlM u.capture fun c u _ => c.maximal_rename u.capture

end Capture

/-! ## Usages -/

namespace Expr

variable [ρ.Faithful] (k : Option ChunkId × String)

theorem capture?_rename (e : Expr) : (e.rename ρ).capture? (ρ.key k) = (e.capture? k).map (Capture.rename ρ) := by
  induction e using parts_induction with
  | step e ih =>
      cases e with
      | var i v =>
          simp only [rename, capture?, Variable.key_rename, ρ.key_injective.eq_iff]
          split <;> rfl
      | ref _ target | deref _ target =>
          rw [rename, capture?, capture?, ih target List.mem_cons_self, Option.map_map, Option.map_map]
          rfl
      | index _ target position =>
          rw [rename, capture?, capture?, ih target List.mem_cons_self, isZero_rename]
          split
          · rw [Option.map_map, Option.map_map]
            rfl
          · rfl
      | call _ _ _ | op _ _ _ | value _ _ | cast _ _ _ | sizeofExpr _ _ | sizeofType _ _ => rfl

theorem usageOr_rename (e : Expr) (inside : List Usage) :
    (e.rename ρ).usageOr (ρ.key k) (inside.map (Usage.rename ρ)) = (e.usageOr k inside).map (Usage.rename ρ) := by
  simp only [usageOr, capture?_rename, id_rename]
  cases e.capture? k <;> rfl

theorem usages_rename (e : Expr) : (e.rename ρ).usages (ρ.key k) = (e.usages k).map (Usage.rename ρ) := by
  induction e using parts_induction with
  | step e ih =>
      rw [usages_eq, usages_eq, ← usageOr_rename, children_rename, List.flatMap_map, List.map_flatMap]
      rw [List.flatMap_congr ih]

theorem usagesAssigned_rename (e : Expr) :
    (e.rename ρ).usagesAssigned (ρ.key k) = (e.usagesAssigned k).map (Usage.rename ρ) := by
  have hparts (e : Expr) :
      usagesOfAll (ρ.key k) (e.rename ρ).children = (usagesOfAll k e.children).map (Usage.rename ρ) := by
    simp only [usagesOfAll_eq, children_rename, List.flatMap_map, List.map_flatMap, usages_rename]
  cases e with
  | var i v =>
      simp only [rename, usagesAssigned, Variable.key_rename, ρ.key_injective.eq_iff]
      split <;> rfl
  | ref | deref | index | call | op | value | cast | sizeofExpr | sizeofType => exact hparts _

end Expr

theorem Block.usages_rename [ρ.Faithful] (k : Option ChunkId × String) (b : Block) :
    (b.rename ρ).usages (ρ.key k) = (b.usages k).map (Usage.rename ρ) := by
  have hoperand (o : Operand) : (o.map (Expr.rename ρ)).usages (ρ.key k) = (o.usages k).map (Usage.rename ρ) := by
    simp only [Operand.usages, Operand.map, Expr.usagesAssigned_rename, Expr.usages_rename]
    split <;> rfl
  have hbody : (b.rename ρ).statements = Stmt.renameAll ρ b.statements := rfl
  simp only [usages, hbody, Stmt.usagesOfAll_eq, Stmt.operandsOfAll_rename, List.flatMap_map, List.map_flatMap,
    hoperand]

theorem Block.usagesBelow_rename [ρ.Faithful] (bs : BlockSet) (k : Option ChunkId × String) (entered : List String)
    (b : Block) :
    (b.rename ρ).usagesBelow (bs.rename ρ) (ρ.key k) entered =
      (b.usagesBelow bs k entered).map (List.map (Usage.rename ρ)) := by
  induction entered, b using usagesBelow.induct bs with
  | case1 entered b ih =>
      rw [usagesBelow, usagesBelow, calls_rename]
      refine Lockstep.except.bind (φ := List.map (List.map (Usage.rename ρ))) (Lockstep.except.mapM ?_) fun below => ?_
      · rintro ⟨call, callee⟩ _
        by_cases hn : callee.name ∈ entered
        · simp only [BlockRef.name_rename, hn, ↓reduceDIte]
          rfl
        · simp only [BlockRef.name_rename, hn, ↓reduceDIte]
          have hr' := bs.resolve_rename (ρ := ρ) callee
          generalize hr : bs.resolve callee = r at hr' ⊢
          generalize (bs.rename ρ).resolve (callee.rename ρ) = r' at hr' ⊢
          subst hr'
          cases r with
          | error e => rfl
          | ok c => exact ih callee hn c hr
      · rw [usages_rename, ← List.map_flatten, ← List.map_append]
        exact Lockstep.except.pure (List.map (Usage.rename ρ)) (b.usages k ++ below.flatten)

/-! ## Substitutions -/

theorem lookup_map {α β κ μ : Type} [DecidableEq κ] [DecidableEq μ] {f : κ → μ} (hf : Function.Injective f) (g : α → β)
    (entries : List (κ × α)) (k : κ) :
    (entries.map fun r => (f r.1, g r.2)).lookup (f k) = (entries.lookup k).map g := by
  induction entries with
  | nil => rfl
  | cons r entries ih =>
      obtain ⟨l, a⟩ := r
      have hkey : (f k == f l) = (k == l) := by
        simp [hf.eq_iff]
      simp only [List.map_cons, List.lookup_cons, hkey, ih]
      cases k == l <;> rfl

theorem Substitution.lookup_rename [ρ.Faithful] (s : Substitution) (i : NodeId) :
    (Substitution.rename ρ s).lookup (ρ.node i) = (s.lookup i).map (Expr.rename ρ) :=
  lookup_map Renaming.Faithful.node (Expr.rename ρ) s i

namespace Expr

theorem replaceNodes_rename {f g : Expr → Option Expr} (h : ∀ e, g (e.rename ρ) = (f e).map (rename ρ)) (e : Expr) :
    (e.rename ρ).replaceNodes g = (e.replaceNodes f).rename ρ := by
  induction e using parts_induction with
  | step e ih =>
      rw [replaceNodes_eq, replaceNodes_eq f, h]
      cases f e with
      | none => exact e.mapChildren_rename ih
      | some r => rfl

theorem substituteWithin_rename [ρ.Faithful] (s : Substitution) (depth : Nat) (e : Expr) :
    (e.rename ρ).substituteWithin (Substitution.rename ρ s) depth = (e.substituteWithin s depth).rename ρ := by
  induction depth generalizing e with
  | zero => rfl
  | succ depth ih =>
      refine replaceNodes_rename (fun n => ?_) e
      rw [id_rename, Substitution.lookup_rename, Option.map_map, Option.map_map]
      refine congrArg (fun f => Option.map f _) (funext fun r => ?_)
      exact r.mapChildren_rename fun c _ => ih c

theorem substitute_rename [ρ.Faithful] (s : Substitution) (e : Expr) :
    (e.rename ρ).substitute (Substitution.rename ρ s) = (e.substitute s).rename ρ := by
  rw [substitute, substituteWithin_rename, substitute, Substitution.rename, List.length_map]

end Expr

theorem Usage.replacement_rename (inverse : Capture) (u : Usage) :
    (u.rename ρ).replacement (inverse.rename ρ) =
      (ρ.node (u.replacement inverse).1, (u.replacement inverse).2.rename ρ) := by
  simp [replacement, rename]

theorem Block.lift_rename [ρ.Faithful] (bs : BlockSet) (b : Block) (v : Variable) :
    (b.rename ρ).lift (bs.rename ρ) (v.rename ρ) = (b.lift bs v).map (Lifted.rename ρ) := by
  refine Lockstep.except.bind (b.usagesBelow_rename bs v.key [b.name]) fun us => ?_
  refine Lockstep.except.bind (Capture.joinUsages_rename v.name b.name us) fun maximal => ?_
  refine Lockstep.except.bind (Lockstep.except_id.2 maximal.paramType_rename) fun type => ?_
  have hhole : (Expr.var .unnumbered (Variable.free v.name (some type))).rename ρ =
      .var .unnumbered (.free v.name (some type)) := by
    simp [Expr.rename, Variable.rename, Variable.free]
  have hinverse := maximal.invert_rename (ρ := ρ) (.var .unnumbered (.free v.name (some type)))
  rw [hhole] at hinverse
  have hreplaced : ((b.rename ρ).usages (v.rename ρ).key).map
        (·.replacement ((maximal.rename ρ).invert (.var .unnumbered (.free v.name (some type))))) =
      Substitution.rename ρ ((b.usages v.key).map
        (·.replacement (maximal.invert (.var .unnumbered (.free v.name (some type)))))) := by
    rw [hinverse, Variable.key_rename, usages_rename, List.map_map, Substitution.rename, List.map_map]
    exact List.map_congr_left fun u _ => u.replacement_rename _
  exact congrArg (fun s => Except.ok (Lifted.mk (maximal.rename ρ) (.free v.name (some type)) s)) hreplaced

end Diversity
