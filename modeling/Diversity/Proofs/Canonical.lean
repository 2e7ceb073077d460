import Diversity.Proofs.Shapes
/-! Simplified captures are canonical: two captures have the same simplified shape just if they are equal up to
addresses that are dereferenced and dereferences of which the address is taken. -/
namespace Diversity

namespace Capture

/-- Equal in shape if `&*c` and `*&c` count as `c`, here and in every part. -/
inductive SameAccess : Capture → Capture → Prop
  | base {e e'} : e.sameShape e' = true → SameAccess (.base e) (.base e')
  | ref {c d} : SameAccess c d → SameAccess (.ref c) (.ref d)
  | assigned {c d} : SameAccess c d → SameAccess (.assigned c) (.assigned d)
  | deref {c d} : SameAccess c d → SameAccess (.deref c) (.deref d)
  | index {c d i j} : SameAccess c d → i.sameShape j = true → SameAccess (.index c i) (.index d j)
  | ref_deref (c) : SameAccess (.ref (.deref c)) c
  | deref_ref (c) : SameAccess (.deref (.ref c)) c
  | symm {c d} : SameAccess c d → SameAccess d c
  | trans {c d e} : SameAccess c d → SameAccess d e → SameAccess c e

/-- The capture and all captures inside it. -/
def parts : Capture → List Capture
  | .base e => [.base e]
  | .ref inner => .ref inner :: parts inner
  | .assigned inner => .assigned inner :: parts inner
  | .deref inner => .deref inner :: parts inner
  | .index inner position => .index inner position :: parts inner

/-- Nowhere is an address dereferenced or the address of a dereference taken. -/
def Reduced (c : Capture) : Prop := ∀ part ∈ c.parts, ∀ d, part ≠ .ref (.deref d) ∧ part ≠ .deref (.ref d)

variable {c d : Capture}

/-! ## Reduced captures -/

theorem reduced_base (e : Expr) : (base e).Reduced := by
  simp [Reduced, parts]

theorem reduced_assigned : (assigned c).Reduced ↔ c.Reduced := by
  simp [Reduced, parts]

theorem reduced_index {position : Expr} : (index c position).Reduced ↔ c.Reduced := by
  simp [Reduced, parts]

theorem reduced_ref : (ref c).Reduced ↔ (∀ d, c ≠ .deref d) ∧ c.Reduced := by
  simp [Reduced, parts]

theorem reduced_deref : (deref c).Reduced ↔ (∀ d, c ≠ .ref d) ∧ c.Reduced := by
  simp [Reduced, parts]

theorem Reduced.addressOf (h : c.Reduced) : c.addressOf.Reduced := by
  cases c with
  | deref c => exact (reduced_deref.1 h).2
  | _ => exact reduced_ref.2 ⟨by simp, h⟩

theorem Reduced.target (h : c.Reduced) : c.target.Reduced := by
  cases c with
  | ref c => exact (reduced_ref.1 h).2
  | _ => exact reduced_deref.2 ⟨by simp, h⟩

theorem reduced_simplify (c : Capture) : c.simplify.Reduced := by
  induction c with
  | base e => exact reduced_base e
  | ref c ih => exact ih.addressOf
  | assigned c ih => exact reduced_assigned.2 ih
  | deref c ih => exact ih.target
  | index c position ih => exact reduced_index.2 ih

/-- In a reduced capture there is nothing to cancel. -/
theorem Reduced.simplify_eq (h : c.Reduced) : c.simplify = c := by
  induction c with
  | base e => rfl
  | ref c ih =>
      obtain ⟨hc, h⟩ := reduced_ref.1 h
      rw [simplify, ih h]
      cases c with
      | deref c => exact absurd rfl (hc c)
      | _ => rfl
  | assigned c ih => rw [simplify, ih (reduced_assigned.1 h)]
  | deref c ih =>
      obtain ⟨hc, h⟩ := reduced_deref.1 h
      rw [simplify, ih h]
      cases c with
      | ref c => exact absurd rfl (hc c)
      | _ => rfl
  | index c position ih => rw [simplify, ih (reduced_index.1 h)]

theorem Reduced.addressOf_target (h : c.Reduced) : c.target.addressOf = c := by
  cases c with
  | ref c =>
      cases c with
      | deref c => exact absurd rfl ((reduced_ref.1 h).1 c)
      | _ => rfl
  | _ => rfl

theorem Reduced.target_addressOf (h : c.Reduced) : c.addressOf.target = c := by
  cases c with
  | deref c =>
      cases c with
      | ref c => exact absurd rfl ((reduced_deref.1 h).1 c)
      | _ => rfl
  | _ => rfl

/-! ## The same access -/

theorem sameAccess_of_shape_eq (h : c.shape = d.shape) : SameAccess c d := by
  induction c generalizing d with
  | base e =>
      cases d <;> simp only [shape, reduceCtorEq, base.injEq] at h
      exact .base ((Expr.sameShape_iff _ _).2 h)
  | ref c ih =>
      cases d <;> simp only [shape, reduceCtorEq, ref.injEq] at h
      exact .ref (ih h)
  | assigned c ih =>
      cases d <;> simp only [shape, reduceCtorEq, assigned.injEq] at h
      exact .assigned (ih h)
  | deref c ih =>
      cases d <;> simp only [shape, reduceCtorEq, deref.injEq] at h
      exact .deref (ih h)
  | index c i ih =>
      cases d <;> simp only [shape, reduceCtorEq, index.injEq] at h
      exact .index (ih h.1) ((Expr.sameShape_iff _ _).2 h.2)

theorem SameAccess.refl (c : Capture) : SameAccess c c := sameAccess_of_shape_eq rfl

theorem sameAccess_addressOf (c : Capture) : SameAccess (.ref c) c.addressOf := by
  cases c with
  | deref c => exact .ref_deref c
  | _ => exact .refl _

theorem sameAccess_target (c : Capture) : SameAccess (.deref c) c.target := by
  cases c with
  | ref c => exact .deref_ref c
  | _ => exact .refl _

theorem sameAccess_simplify (c : Capture) : SameAccess c c.simplify := by
  induction c with
  | base e => exact .refl _
  | ref c ih => exact ih.ref.trans (sameAccess_addressOf _)
  | assigned c ih => exact ih.assigned
  | deref c ih => exact ih.deref.trans (sameAccess_target _)
  | index c position ih => exact ih.index ((Expr.sameShape_iff _ _).2 rfl)

theorem shape_addressOf (c : Capture) : c.addressOf.shape = c.shape.addressOf := by
  cases c <;> rfl

theorem shape_target (c : Capture) : c.target.shape = c.shape.target := by
  cases c <;> rfl

/-- What counts as equal has the same simplified shape. For `&*c` and `*&c` this is so because a simplified
capture is reduced. -/
theorem SameAccess.shape_simplify (h : SameAccess c d) : c.simplify.shape = d.simplify.shape := by
  induction h with
  | base h => simp [simplify, shape, (Expr.sameShape_iff _ _).1 h]
  | ref _ ih => rw [simplify, simplify, shape_addressOf, ih, shape_addressOf]
  | assigned _ ih => simp [simplify, shape, ih]
  | deref _ ih => rw [simplify, simplify, shape_target, ih, shape_target]
  | index _ hij ih => simp [simplify, shape, ih, (Expr.sameShape_iff _ _).1 hij]
  | ref_deref c => rw [simplify, simplify, (reduced_simplify c).addressOf_target]
  | deref_ref c => rw [simplify, simplify, (reduced_simplify c).target_addressOf]
  | symm _ ih => exact ih.symm
  | trans _ _ ih ih' => exact ih.trans ih'

/-- Simplifying gives a canonical form. -/
theorem simplify_canonical (c d : Capture) :
    (c.simplify.sameShape d.simplify = true ↔ SameAccess c d) ∧ c.simplify.simplify = c.simplify ∧
      c.simplify.Reduced := by
  refine ⟨?_, (reduced_simplify c).simplify_eq, reduced_simplify c⟩
  rw [sameShape_iff]
  constructor
  · intro h
    have hsimple : SameAccess c.simplify d.simplify := sameAccess_of_shape_eq h
    exact (sameAccess_simplify c).trans (hsimple.trans (sameAccess_simplify d).symm)
  · exact SameAccess.shape_simplify

end Capture

end Diversity
