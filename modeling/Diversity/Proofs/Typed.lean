import Diversity.Proofs.Outcome
import Diversity.Proofs.Access
import Diversity.Proofs.Copies
import Diversity.Typing
/-! Types up to arrays that are read as pointers: those of expressions, and what they are along an access path. -/
namespace Diversity

namespace CType

/-- The type with every array on its outer chain of pointers and arrays read as a pointer. -/
def decayed : CType → CType
  | .pointer target => .pointer target.decayed
  | .array element _ => .pointer element.decayed
  | t => t

theorem decayed_eq_pointer {t U : CType} : t.decayed = .pointer U ↔ ∃ u, t.pointee = some u ∧ u.decayed = U := by
  cases t <;> simp [decayed, pointee]

mutual

theorem accepts_self (t : CType) : t.accepts t = true := by
  match t with
  | .named name => simp [accepts, Family.accepts]
  | .pointer target => simp [accepts, accepts_self target]
  | .array element _ => simp [accepts, accepts_self element]
  | .function result params _ => simp [accepts, accepts_self result, acceptsAll_self params]

theorem acceptsAll_self (ts : List CType) : acceptsAll ts ts = true := by
  match ts with
  | [] => rfl
  | t :: ts => simp [acceptsAll, accepts_self t, acceptsAll_self ts]

end

/-- Where a type is wanted, one will do that differs in what is an array and what a pointer. -/
theorem accepts_of_decayed {s t : CType} (h : s.decayed = t.decayed) : s.accepts t = true := by
  match s, t with
  | .pointer s, .pointer t | .pointer s, .array t _ | .array s _, .pointer t | .array s _, .array t _ =>
      simp [accepts, accepts_of_decayed (pointer.inj h)]
  | .named _, .named _ | .function _ _ _, .function _ _ _ =>
      cases h
      exact accepts_self _
  | .named _, .pointer _ | .named _, .array _ _ | .named _, .function _ _ _ | .function _ _ _, .named _
  | .function _ _ _, .pointer _ | .function _ _ _, .array _ _ | .pointer _, .named _ | .pointer _, .function _ _ _
  | .array _ _, .named _ | .array _ _, .function _ _ _ => cases h

end CType

namespace Expr

/-- The type of a node from those of its parts; `none` if they do not go together. -/
def typeFrom : Expr → List CType → Option CType
  | .var _ v, _ => some (v.type.getD .void)
  | .ref _ _, [t] => some (.pointer t)
  | .deref _ _, [t] => t.pointee
  | .index _ _ _, [t, position] =>
    if [Family.integral, .boolean, .any].contains position.family then t.pointee else none
  | .call _ _ _, callee :: types => callee.callable?.bind fun f =>
    if (types.length = f.2.1.length ∨ (f.2.2 = true ∧ f.2.1.length ≤ types.length)) ∧
        ∀ x ∈ f.2.1.zip types, x.1.accepts x.2 = true then some f.1 else none
  | .op _ symbol _, types => some (operationType symbol types)
  | .value _ literal, _ => some (literalType literal)
  | .cast _ _ type, _ => some type
  | .sizeofExpr _ _, _ | .sizeofType _ _, _ => some (.named "size_t")
  | _, _ => none

variable {e target : Expr} {args operands : List Expr} {t : CType} {types : List CType}

theorem typesOf_eq_ok : typesOf operands = .ok types ↔ List.Forall₂ (fun e t => e.typeOf = .ok t) operands types := by
  induction operands generalizing types with
  | nil => simp [typesOf, eq_comm]
  | cons e es ih =>
      simp only [typesOf, bind_eq_ok, pure, Except.pure, Except.ok.injEq, List.forall₂_cons_left_iff, ih]
      exact ⟨fun ⟨t, ht, ts, hts, h⟩ => ⟨t, ts, ht, hts, h.symm⟩, fun ⟨t, ts, ht, hts, h⟩ => ⟨t, ht, ts, hts, h.symm⟩⟩

/-- All arguments have a type, and each one that has a parameter fits it. -/
theorem typeArguments_eq_ok {n : Nat} {params : List CType} : typeArguments target n params args = .ok () ↔
    ∃ types, List.Forall₂ (fun e t => e.typeOf = .ok t) args types ∧
      ∀ x ∈ params.zip types, x.1.accepts x.2 = true := by
  induction args generalizing n params with
  | nil => simp [typeArguments]
  | cons a args ih =>
      rw [typeArguments, bind_eq_ok]
      cases params with
      | nil => simp [ih, List.forall₂_cons_left_iff]
      | cons expected params =>
          have hstep (actual : CType) : (if expected.accepts actual = true then
              typeArguments target (n + 1) params args else throw (.argument n target expected actual)) = .ok () ↔
              expected.accepts actual = true ∧ typeArguments target (n + 1) params args = .ok () := by
            split
            · next h => simp [h]
            · next h => simp [h, throw, throwThe, MonadExceptOf.throw]
          simp only [hstep, ih, List.forall₂_cons_left_iff]
          constructor
          · rintro ⟨t, ht, hacc, ts, hts, hall⟩
            exact ⟨t :: ts, ⟨t, ts, ht, hts, rfl⟩, by simpa [hacc] using hall⟩
          · rintro ⟨_, ⟨t, ts, ht, hts, rfl⟩, hall⟩
            rw [List.zip_cons_cons, List.forall_mem_cons] at hall
            exact ⟨t, ht, hall.1, ts, hts, hall.2⟩

theorem typeOf_eq_ok_iff : e.typeOf = .ok t ↔
    ∃ types, List.Forall₂ (fun c t => c.typeOf = .ok t) e.children types ∧ e.typeFrom types = some t := by
  cases e with
  | var _ _ | value _ _ | sizeofType _ _ => simp [typeOf, typeFrom, children]
  | ref _ target | cast _ target _ | sizeofExpr _ target =>
      simp [typeOf, typeFrom, children, bind_eq_ok, pure, Except.pure, List.forall₂_cons_left_iff]
  | deref _ target =>
      simp only [typeOf, children, bind_eq_ok, List.forall₂_cons_left_iff, List.forall₂_nil_left_iff]
      constructor
      · rintro ⟨u, hu, h⟩
        refine ⟨[u], ⟨u, [], hu, rfl, rfl⟩, ?_⟩
        rw [typeFrom]
        cases hp : u.pointee <;> rw [hp] at h <;> cases h
        rfl
      · rintro ⟨_, ⟨u, _, hu, rfl, rfl⟩, h⟩
        rw [typeFrom] at h
        exact ⟨u, hu, by rw [h]; rfl⟩
  | index _ target position =>
      simp only [typeOf, children, bind_eq_ok, List.forall₂_cons_left_iff, List.forall₂_nil_left_iff]
      constructor
      · rintro ⟨p, hp, h⟩
        split at h
        · next hfam =>
          obtain ⟨u, hu, h⟩ := bind_eq_ok.1 h
          refine ⟨[u, p], ⟨u, [p], hu, ⟨p, [], hp, rfl, rfl⟩, rfl⟩, ?_⟩
          rw [typeFrom, if_pos hfam]
          cases hpt : u.pointee <;> rw [hpt] at h <;> cases h
          rfl
        · cases h
      · rintro ⟨_, ⟨u, _, hu, ⟨p, _, hp, rfl, rfl⟩, rfl⟩, h⟩
        rw [typeFrom] at h
        split at h
        · next hfam => exact ⟨p, hp, by rw [if_pos hfam]; exact bind_eq_ok.2 ⟨u, hu, by rw [h]; rfl⟩⟩
        · cases h
  | call _ target args =>
      simp only [typeOf, children, bind_eq_ok, List.forall₂_cons_left_iff]
      constructor
      · rintro ⟨callee, hcallee, h⟩
        split at h
        · cases h
        · next result params variadic hf =>
          split at h
          · next hn =>
            obtain ⟨_, hargs, h⟩ := bind_eq_ok.1 h
            obtain ⟨types, htypes, hall⟩ := typeArguments_eq_ok.1 hargs
            refine ⟨callee :: types, ⟨callee, types, hcallee, htypes, rfl⟩, ?_⟩
            rw [htypes.length_eq] at hn
            cases h
            rw [typeFrom, hf, Option.bind_some, if_pos ⟨hn, hall⟩]
          · cases h
      · rintro ⟨_, ⟨callee, types, hcallee, htypes, rfl⟩, h⟩
        rw [typeFrom] at h
        obtain ⟨⟨result, params, variadic⟩, hf, h⟩ := Option.bind_eq_some_iff.1 h
        split at h
        · next hok =>
          cases h
          refine ⟨callee, hcallee, ?_⟩
          rw [← htypes.length_eq] at hok
          simp only [hf, if_pos hok.1]
          exact bind_eq_ok.2 ⟨(), typeArguments_eq_ok.2 ⟨types, htypes, hok.2⟩, rfl⟩
        · cases h
  | op _ symbol operands =>
      simp only [typeOf, children, bind_eq_ok, typeFrom, typesOf_eq_ok, pure, Except.pure, Except.ok.injEq,
        Option.some.injEq]

theorem typeOf_of_child (h : e.typeOf = .ok t) {c : Expr} (hc : c ∈ e.children) : ∃ u, c.typeOf = .ok u := by
  obtain ⟨types, htypes, -⟩ := typeOf_eq_ok_iff.1 h
  obtain ⟨u, -, hu⟩ := forall₂_mem_left htypes hc
  exact ⟨u, hu⟩

theorem typeOf_of_node (h : e.typeOf = .ok t) {n : Expr} (hn : n ∈ e.nodes) : ∃ u, n.typeOf = .ok u := by
  induction e using parts_induction generalizing t with
  | step e ih =>
      rcases mem_nodes_iff.1 hn with rfl | ⟨c, hc, hn⟩
      · exact ⟨t, h⟩
      · obtain ⟨u, hu⟩ := typeOf_of_child h hc
        exact ih c hc hu hn

theorem typeFrom_anonymous (e : Expr) (types : List CType) : e.anonymous.typeFrom types = e.typeFrom types := by
  cases e <;> rcases types with _ | ⟨t, _ | ⟨u, _ | _⟩⟩ <;> rfl

/-- The type does not depend on identities. -/
theorem typeOf_anonymous : e.anonymous.typeOf = .ok t ↔ e.typeOf = .ok t := by
  induction e using parts_induction generalizing t with
  | step e ih =>
      rw [typeOf_eq_ok_iff, typeOf_eq_ok_iff, children_anonymous]
      simp only [typeFrom_anonymous, List.forall₂_map_left_iff]
      simp only [List.forall₂_iff_zip]
      refine exists_congr fun types => and_congr_left fun _ => and_congr_right fun _ => ?_
      exact forall₂_congr fun c t => forall_congr' fun hc => ih c (List.of_mem_zip hc).1

/-! ## Types up to arrays that are read as pointers -/

/-- The expression has the type, up to arrays that are read as pointers. -/
def HasType (e : Expr) (T : CType) : Prop := ∃ t, e.typeOf = .ok t ∧ t.decayed = T

variable {position : Expr} {i : NodeId} {T U : CType}

theorem HasType.unique (h : e.HasType T) (h' : e.HasType U) : T = U := by
  obtain ⟨t, ht, rfl⟩ := h
  obtain ⟨u, hu, rfl⟩ := h'
  rw [Except.ok.inj (ht.symm.trans hu)]

theorem hasType_var (i : NodeId) (v : Variable) : (var i v).HasType (v.type.getD .void).decayed :=
  ⟨_, by rw [typeOf], rfl⟩

theorem hasType_ref : (ref i e).HasType U ↔ ∃ T, e.HasType T ∧ U = .pointer T := by
  unfold HasType
  rw [typeOf]
  constructor
  · rintro ⟨u, hu, rfl⟩
    obtain ⟨t, ht, hu⟩ := bind_eq_ok.1 hu
    cases hu
    exact ⟨_, ⟨t, ht, rfl⟩, rfl⟩
  · rintro ⟨_, ⟨t, ht, rfl⟩, rfl⟩
    exact ⟨.pointer t, bind_eq_ok.2 ⟨t, ht, rfl⟩, rfl⟩

theorem hasType_deref : (deref i e).HasType T ↔ e.HasType (.pointer T) := by
  unfold HasType
  simp only [typeOf_eq_ok_iff (e := deref i e), CType.decayed_eq_pointer, children, List.forall₂_cons_left_iff,
    List.forall₂_nil_left_iff]
  constructor
  · rintro ⟨t, ⟨_, ⟨u, _, hu, rfl, rfl⟩, ht⟩, rfl⟩
    exact ⟨u, hu, t, ht, rfl⟩
  · rintro ⟨u, hu, t, ht, rfl⟩
    exact ⟨t, ⟨_, ⟨u, _, hu, rfl, rfl⟩, ht⟩, rfl⟩

theorem typeOf_of_isZero (h : position.isZero = true) : position.typeOf = .ok (.named "int") := by
  cases position with
  | value _ literal =>
      obtain rfl : literal = "0" := by simpa [isZero] using h
      rw [typeOf]
      exact congrArg Except.ok (by decide +kernel)
  | _ => cases h

/-- Position zero reads as a dereference. -/
theorem hasType_index (hz : position.isZero = true) : (index i e position).HasType T ↔ e.HasType (.pointer T) := by
  have hint : [Family.integral, .boolean, .any].contains (CType.named "int").family = true := by decide +kernel
  have hfrom (u : CType) : (index i e position).typeFrom [u, .named "int"] = u.pointee := by
    rw [typeFrom, if_pos hint]
  unfold HasType
  simp only [typeOf_eq_ok_iff (e := index i e position), CType.decayed_eq_pointer, children,
    List.forall₂_cons_left_iff, List.forall₂_nil_left_iff, typeOf_of_isZero hz]
  constructor
  · rintro ⟨t, ⟨_, ⟨u, _, hu, ⟨_, _, ⟨⟩, rfl, rfl⟩, rfl⟩, ht⟩, rfl⟩
    exact ⟨u, hu, t, (hfrom u).symm.trans ht, rfl⟩
  · rintro ⟨u, hu, t, ht, rfl⟩
    exact ⟨t, ⟨_, ⟨u, _, hu, ⟨_, _, rfl, rfl, rfl⟩, rfl⟩, (hfrom u).trans ht⟩, rfl⟩

end Expr

namespace Capture

/-- The capture has the type: as what is read through it, or as what is `passed` for it. The two differ where
the variable is assigned to, which is read as it stands and passed by its address. -/
inductive HasType (passed : Bool) : Capture → CType → Prop
  | base {e T} : e.HasType T → HasType passed (.base e) T
  | ref {c T} : HasType passed c T → HasType passed (.ref c) (.pointer T)
  | assigned {c T} : HasType passed c T → HasType passed (.assigned c) (if passed then .pointer T else T)
  | deref {c T} : HasType passed c (.pointer T) → HasType passed (.deref c) T
  | index {c position T} : position.isZero = true → HasType passed c (.pointer T) →
      HasType passed (.index c position) T

variable {passed : Bool} {c d : Capture} {T U B : CType} {v : Variable} {reading passing : ℤ}

theorem HasType.toExpr (h : HasType false c T) : c.toExpr.HasType T := by
  induction h with
  | base he => exact he
  | ref _ ih => exact Expr.hasType_ref.2 ⟨_, ih, rfl⟩
  | assigned _ ih => exact ih
  | deref _ ih => exact Expr.hasType_deref.2 ih
  | index hz _ ih => exact (Expr.hasType_index hz).2 ih

/-- What is passed is an expression to be read. -/
theorem HasType.toArgument (h : HasType true c T) : HasType passed c.toArgument T := by
  induction h with
  | base he => exact .base he
  | ref _ ih => exact ih.ref
  | assigned _ ih => exact ih.ref
  | deref _ ih => exact ih.deref
  | index hz _ ih => exact ih.index hz

theorem HasType.replace (h : HasType passed c T) (hc : c.root.HasType B) (hd : HasType passed d B) :
    HasType passed (c.replace d) T := by
  induction h with
  | base he => exact he.unique hc ▸ hd
  | ref _ ih => exact (ih hc).ref
  | assigned _ ih => exact (ih hc).assigned
  | deref _ ih => exact (ih hc).deref
  | index hz _ ih => exact (ih hc).index hz

theorem HasType.addressOf (h : HasType passed c T) : HasType passed c.addressOf (.pointer T) := by
  cases c with
  | deref inner =>
      cases h with
      | deref h => exact h
  | base _ | ref _ | assigned _ | index _ _ => exact h.ref

theorem HasType.target (h : HasType passed c (.pointer T)) : HasType passed c.target T := by
  cases c with
  | ref inner =>
      cases h with
      | ref h => exact h
  | base _ | assigned _ | deref _ | index _ _ => exact h.deref

theorem HasType.simplify (h : HasType passed c T) : HasType passed c.simplify T := by
  induction h with
  | base he => exact .base he
  | ref _ ih => exact ih.addressOf
  | assigned _ ih => exact ih.assigned
  | deref _ ih => exact ih.target
  | index hz _ ih => exact ih.index hz

/-- Undone from what is passed, the layers of a capture lead back to the type of the variable. -/
theorem HasType.invertOnto (h : HasType true c T) (hc : c.root.HasType B) (hd : HasType passed d T) :
    HasType passed (c.invertOnto d) B := by
  induction h generalizing d with
  | base he => exact he.unique hc ▸ hd
  | ref _ ih => exact ih hc hd.deref
  | assigned _ ih => exact ih hc hd.deref
  | deref _ ih => exact ih hc hd.ref
  | index _ _ ih => exact ih hc hd.ref

theorem Along.root (h : Along v c reading passing) : ∃ i, c.root = .var i v := by
  induction h with
  | base => exact ⟨_, rfl⟩
  | ref _ ih | assigned _ ih | deref _ ih | index _ _ ih => exact ih

theorem Along.hasType_root (h : Along v c reading passing) : c.root.HasType (v.type.getD .void).decayed := by
  obtain ⟨i, hi⟩ := h.root
  rw [hi]
  exact Expr.hasType_var i v

/-- A parameter for the capture has the type of what is passed. -/
theorem Along.hasType_of_paramType (h : Along v c reading passing) {t : CType} (ht : c.paramType = .ok t) :
    HasType true c t.decayed := by
  induction h generalizing t with
  | @base i =>
      have hvar := Expr.hasType_var i v
      cases hv : v.type <;> simp [paramType, Expr.var?, hv] at ht
      rw [hv, ht] at hvar
      exact .base hvar
  | ref _ ih =>
      obtain ⟨u, hu, ht⟩ := bind_eq_ok.1 ht
      cases ht
      exact (ih hu).ref
  | assigned _ ih =>
      obtain ⟨u, hu, ht⟩ := bind_eq_ok.1 ht
      cases ht
      exact (ih hu).assigned
  | deref _ ih =>
      obtain ⟨u, hu, ht⟩ := bind_eq_ok.1 ht
      cases hp : u.pointee <;> rw [hp] at ht <;> cases ht
      exact (CType.decayed_eq_pointer.2 ⟨_, hp, rfl⟩ ▸ ih hu).deref
  | index hz _ ih =>
      obtain ⟨u, hu, ht⟩ := bind_eq_ok.1 ht
      cases hp : u.pointee <;> rw [hp] at ht <;> cases ht
      exact (CType.decayed_eq_pointer.2 ⟨_, hp, rfl⟩ ▸ ih hu).index hz

theorem hasType_of_capture? {e : Expr} {key : Option ChunkId × String} (h : e.capture? key = some c)
    (he : e.HasType T) : HasType passed c T := by
  fun_induction Expr.capture? key e generalizing c T with
  | case1 i v hk =>
      cases h
      exact .base he
  | case2 => cases h
  | case3 i target ih =>
      obtain ⟨c, hc, rfl⟩ := Option.map_eq_some_iff.1 h
      obtain ⟨U, hU, rfl⟩ := Expr.hasType_ref.1 he
      exact (ih hc hU).ref
  | case4 i target ih =>
      obtain ⟨c, hc, rfl⟩ := Option.map_eq_some_iff.1 h
      exact (ih hc (Expr.hasType_deref.1 he)).deref
  | case5 i target position hz ih =>
      obtain ⟨c, hc, rfl⟩ := Option.map_eq_some_iff.1 h
      exact (ih hc ((Expr.hasType_index hz).1 he)).index hz
  | case6 => cases h
  | case7 => cases h

end Capture

end Diversity
