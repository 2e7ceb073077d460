import Diversity.Proofs.Arguments
import Diversity.Proofs.Typed
/-! Lowering keeps types, up to arrays that are read as pointers: of what becomes an access path over a
parameter, and of what is passed for it. -/
namespace Diversity

/-! ## What has been checked has a type -/

theorem Expr.typeOf_of_checkCondition {e : Expr} (h : e.checkCondition = .ok ()) : ∃ t, e.typeOf = .ok t := by
  obtain ⟨t, ht, -⟩ := bind_eq_ok.1 h
  exact ⟨t, ht⟩

namespace Stmt

mutual

theorem typeOf_of_check {x : Stmt} (h : x.check = .ok ()) : ∀ o ∈ x.operands, ∃ t, o.expr.typeOf = .ok t := by
  match x with
  | .assign _ target value =>
      obtain ⟨t, ht, h⟩ := bind_eq_ok.1 h
      obtain ⟨u, hu, -⟩ := bind_eq_ok.1 h
      simp [operands, ht, hu]
  | .call _ _ => exact List.forall_mem_nil _
  | .choice _ branches => exact typeOf_of_checkBranches h
  | .loop _ condition body =>
      obtain ⟨_, hc, h⟩ := bind_eq_ok.1 h
      exact List.forall_mem_cons.2 ⟨Expr.typeOf_of_checkCondition hc, typeOf_of_checkAll h⟩
  | .expr _ e =>
      obtain ⟨t, ht, -⟩ := bind_eq_ok.1 h
      simp [operands, ht]
  | .group _ body => exact typeOf_of_checkAll h

theorem typeOf_of_checkAll {body : List Stmt} (h : checkAll body = .ok ()) :
    ∀ o ∈ operandsOfAll body, ∃ t, o.expr.typeOf = .ok t := by
  match body with
  | [] => exact List.forall_mem_nil _
  | x :: rest =>
      obtain ⟨_, hx, h⟩ := bind_eq_ok.1 h
      exact List.forall_mem_append.2 ⟨typeOf_of_check hx, typeOf_of_checkAll h⟩

theorem typeOf_of_checkBranches {branches : List Branch} (h : checkBranches branches = .ok ()) :
    ∀ o ∈ operandsOfBranches branches, ∃ t, o.expr.typeOf = .ok t := by
  match branches with
  | [] => exact List.forall_mem_nil _
  | .mk none body :: rest =>
      obtain ⟨_, hb, h⟩ := bind_eq_ok.1 h
      exact List.forall_mem_append.2 ⟨typeOf_of_checkAll hb, typeOf_of_checkBranches h⟩
  | .mk (some condition) body :: rest =>
      obtain ⟨_, hb, h⟩ := bind_eq_ok.1 h
      obtain ⟨_, hc, hb⟩ := bind_eq_ok.1 hb
      refine List.forall_mem_append.2 ⟨?_, typeOf_of_checkBranches h⟩
      exact List.forall_mem_cons.2 ⟨Expr.typeOf_of_checkCondition hc, typeOf_of_checkAll hb⟩

end

end Stmt

theorem Description.typeOf_of_toGraph {d : Description} {s s' : Supply} {g : Graph} (h : d.toGraph s = .ok (g, s')) :
    ∀ b ∈ g.blocks.toList, ∀ o ∈ Stmt.operandsOfAll b.statements, ∃ t, o.expr.typeOf = .ok t := by
  obtain ⟨_, _, _, -, -, -, -, -, -, hcheck⟩ := toGraph_eq_ok h
  obtain ⟨_, -, hcheck⟩ := bind_eq_ok.1 hcheck
  intro b hb
  exact Stmt.typeOf_of_checkAll (mapError_eq_ok.1 (forM_eq_ok hcheck b hb))

/-- Every expression of a function has a type. -/
theorem LowersTo.exists_hasType {d : Description} {p : Placement} {g : Graph} {bs : BlockSet} {P : Program}
    (h : LowersTo d p g bs P) {b : Block} (hb : b ∈ bs.toList) {o : Operand} {n : Expr} (hn : b.Holds o n) :
    ∃ T, n.HasType T := by
  obtain ⟨s, s', supply, supply', blocks, -, hg, -, hin, hrep⟩ := h.spliced
  obtain ⟨b', hb', o', ho', hsame⟩ := BlockSet.exists_operand_of_repaired hin hrep hb hn.1
  obtain ⟨t, ht⟩ := Description.typeOf_of_toGraph hg b' hb' o' ho'
  have hexpr : o'.expr.anonymous = o.expr.anonymous := congrArg Operand.expr hsame
  rw [← Expr.typeOf_anonymous, hexpr, Expr.typeOf_anonymous] at ht
  obtain ⟨u, hu⟩ := Expr.typeOf_of_node ht hn.2
  exact ⟨_, u, hu, rfl⟩

/-! ## Parameters and arguments -/

/-- What is read through a usage has the type of the expression that the usage is. -/
theorem Operand.hasType_of_usages {o : Operand} {key : Option ChunkId × String} {u : Usage} (h : u ∈ o.usages key) :
    ∃ n ∈ o.expr.nodes, n.id = u.origin ∧ ∀ T, n.HasType T → u.capture.HasType false T := by
  rcases usages_cases h with ⟨n, hn, hid, hc⟩ | ⟨i, v, -, he, rfl⟩
  · exact ⟨n, hn, hid, fun T => Capture.hasType_of_capture? hc⟩
  · rw [he]
    exact ⟨_, Expr.mem_nodes_self _, rfl, fun T hT => .assigned (.base hT)⟩

namespace Parameter.Lifts

variable {bs : BlockSet} {p : Placement} {t : Trace} {b : Block} {v : Variable} {q : Parameter}

/-- A parameter is declared with the type of what is passed for it. -/
theorem type_eq (h : q.Lifts bs p t b v) :
    q.lifted.maximal.paramType = .ok q.type ∧ q.lifted.param.var.type = some q.type := by
  obtain ⟨us, type, -, -, hparam, -, htype⟩ := Block.lift_eq_ok h.lift
  have hvar : q.lifted.param.var.type = some type := by rw [hparam]; rfl
  have hq : q.type = type := by rw [Parameter.type, hvar, Option.getD_some]
  exact hq ▸ ⟨htype, hvar⟩

theorem hasType_maximal (h : q.Lifts bs p t b v) (hover : q.lifted.maximal.Over v) :
    q.lifted.maximal.HasType true q.type.decayed := by
  obtain ⟨_, _, halong⟩ := hover
  exact halong.hasType_of_paramType h.type_eq.1

end Parameter.Lifts

namespace Graph.Prepared

variable {g : Graph} {bs : BlockSet} {p : Placement} {t : Trace} {ps : Parameters} {b : Block} {q : Parameter}
  {T : CType}

/-- The variable that a parameter stands for, through the parameter. -/
theorem hasType_invert (passed : Bool) {c : Capture} {v : Variable} (hc : c.HasType true q.type.decayed)
    (hover : c.Over v) :
    (c.invert (.var .unnumbered q.lifted.param.var)).HasType passed (v.type.getD .void).decayed := by
  obtain ⟨_, _, hover⟩ := hover
  exact hc.invertOnto hover.hasType_root (.base (Expr.hasType_var _ _))

/-- What an expression is replaced with has the type of the expression. -/
theorem hasType_of_lookup (h : g.Prepared bs p t ps) (hb : b ∈ bs.toList) {o : Operand} {n r : Expr}
    (hn : b.Holds o n) (hr : ps.substitution.lookup n.id = some r) (hT : n.HasType T) : r.HasType T := by
  obtain ⟨b', hb', q, hq, v, hl, u, hu, he⟩ := h.exists_usage_of_lookup hr
  obtain ⟨hid, rfl⟩ := Prod.mk.inj he
  obtain ⟨o', _, _, _, ⟨ho', -⟩, huo, -, -, huv⟩ := h.along_of_usage hl.needed hb' hu
  obtain ⟨n', hn', hid', hcap⟩ := Operand.hasType_of_usages huo
  obtain ⟨-, -, rfl⟩ := BlockSet.eq_of_holds h.placed.ids hb' hb ⟨ho', hn'⟩ hn (hid'.trans hid)
  have hover := h.over_maximal hb' hl
  have hinv := hasType_invert false (hl.hasType_maximal hover) hover
  exact ((hcap T hT).replace huv.hasType_root hinv).simplify.toExpr

/-- What is passed for a parameter has the type of the parameter. -/
theorem hasType_argument (h : g.Prepared bs p t ps) (hb : b ∈ bs.toList) {f : String} (hq : q ∈ ps.of f) {a : Expr}
    (ha : q.argument t b.name (ps.of b.name) = .ok a) : a.HasType q.type.decayed := by
  obtain ⟨-, b', v, hb', hl⟩ := Trace.lifts_of_mem h.parameters hq
  have hover := h.over_maximal (BlockSet.mem_of_find? hb') hl
  have hm := hl.hasType_maximal hover
  cases hown : (ps.of b.name).find? (·.key = q.key) with
  | none =>
      rw [Parameter.argument_of_none ha hown]
      exact hm.toArgument.simplify.toExpr
  | some q' =>
      have hkey : q'.key = q.key := by simpa using List.find?_some hown
      obtain ⟨-, v', hl'⟩ := h.lifts_of_mem hb (List.mem_of_find?_eq_some hown)
      obtain rfl := h.eq_of_needed hl.needed hl'.needed (by rw [← hl.key, ← hl'.key, hkey])
      have hm' := hl'.hasType_maximal (h.over_maximal hb hl')
      obtain ⟨_, _, halong⟩ := hover
      obtain ⟨_, _, halong'⟩ := h.over_maximal hb hl'
      have hinv := hasType_invert true hm'.simplify ⟨_, _, halong'.simplify⟩
      rw [Parameter.argument_of_some ha hown]
      exact (hm.simplify.replace halong.simplify.hasType_root hinv).toArgument.simplify.toExpr

end Graph.Prepared

theorem exists_types {qs : List Parameter} {args : List Expr}
    (h : List.Forall₂ (fun q a => Expr.HasType a q.type.decayed) qs args) :
    ∃ types, List.Forall₂ (fun a t => a.typeOf = .ok t) args types ∧
      ∀ x ∈ (qs.map (·.type)).zip types, x.1.accepts x.2 = true := by
  induction h with
  | nil => exact ⟨[], .nil, List.forall_mem_nil _⟩
  | cons ha _ ih =>
      obtain ⟨t, ht, hd⟩ := ha
      obtain ⟨types, htypes, hall⟩ := ih
      exact ⟨t :: types, .cons ht htypes, List.forall_mem_cons.2 ⟨CType.accepts_of_decayed hd.symm, hall⟩⟩

/-- A call passes the type check whose arguments have the types of the parameters. -/
theorem Expr.typeOf_generated {ps : Parameters} {f : String} {args : List Expr}
    (h : List.Forall₂ (fun q a => Expr.HasType a q.type.decayed) (ps.of f) args) :
    (Expr.generated ps f args).typeOf = .ok .void := by
  obtain ⟨types, htypes, hall⟩ := exists_types h
  refine typeOf_eq_ok_iff.2 ⟨.function .void ((ps.of f).map (·.type)) false :: types, .cons ?_ htypes, ?_⟩
  · rw [typeOf]
    rfl
  · have hlength : types.length = ((ps.of f).map (·.type)).length := by
      rw [List.length_map, h.length_eq, htypes.length_eq]
    rw [generated, typeFrom, CType.callable?, Option.bind_some, if_pos ⟨Or.inl hlength, hall⟩]

/-- What an expression of a function is replaced with has its type, up to arrays that are read as pointers. Every
generated call passes one argument for each parameter, of the type that the parameter is declared with, and so passes
the type check. -/
theorem LowersTo.types_preserved {d : Description} {p : Placement} {g : Graph} {bs : BlockSet} {P : Program}
    (h : LowersTo d p g bs P) {root : Block} (hroot : bs.get g.entry = .ok root) {t : Trace}
    (ht : Trace.ofBlock bs root true = .ok t) {ps : Parameters} (hps : t.parameters bs p = .ok ps) :
    ∀ F ∈ P.functions,
      (∃ b, bs.find? F.name = some b ∧ ∀ x, .expr x ∈ Stmt.nodesOfAll b.statements →
        ∀ r, ps.substitution.lookup x.id = some r → x.substitute ps.substitution = r ∧
          .expr r ∈ Stmt.nodesOfAll F.body ∧ ∃ T, x.HasType T ∧ r.HasType T) ∧
      ∀ f args, ⟨.generated ps f args, false⟩ ∈ Stmt.operandsOfAll F.body →
        (∃ G ∈ P.functions, G.name = f ∧
          List.Forall₂ (fun q a => ∃ T, q.var.type = some T ∧ a.HasType T.decayed) G.params args) ∧
        (Expr.generated ps f args).typeOf = .ok .void := by
  obtain ⟨hprep, -, hP⟩ := h.prepared hroot ht hps
  intro F hF
  obtain ⟨f, hf, b, hb, hFb⟩ := forall₂_mem_right hP hF
  have hmem := BlockSet.mem_of_find? hb
  obtain rfl := BlockSet.name_of_find? hb
  constructor
  · refine ⟨b, hFb.name ▸ hb, fun x hx r hr => ?_⟩
    obtain ⟨o, ho⟩ := Stmt.expr_mem_nodesOfAll.1 hx
    obtain ⟨T, hT⟩ := h.exists_hasType hmem ho
    obtain ⟨hsub, hbody⟩ := hprep.substitute_of_lookup hmem hFb ho hr
    exact ⟨hsub, hsub ▸ hbody, T, hT, hprep.hasType_of_lookup hmem ho hr hT⟩
  · intro f args hcall
    obtain ⟨c, hc, rfl, hargs⟩ := hprep.exists_call_of_generated hmem hFb hcall
    have hpassed := (List.forall₂_and_left _ _).2 ⟨fun q (hq : q ∈ ps.of c.2.name) => hq, hargs⟩
    have htyped : List.Forall₂ (fun q a => Expr.HasType a q.type.decayed) (ps.of c.2.name) args :=
      hpassed.imp fun q a ha => hprep.hasType_argument hmem ha.1 ha.2
    refine ⟨?_, Expr.typeOf_generated htyped⟩
    obtain ⟨w, hw, rfl⟩ := hprep.exists_visit hmem hf
    obtain ⟨G, hG, b', hb', hGb⟩ := forall₂_mem_left hP (Trace.mem_blocks_of_call ht hw hc)
    have hname := BlockSet.name_of_find? hb'
    refine ⟨G, hG, hGb.name.trans hname, ?_⟩
    rw [hGb.params, hname, List.forall₂_map_left_iff]
    refine hpassed.imp fun q a ha => ?_
    obtain ⟨-, _, _, -, hl⟩ := Trace.lifts_of_mem hps ha.1
    exact ⟨q.type, hl.type_eq.2, hprep.hasType_argument hmem ha.1 ha.2⟩

namespace Description

/-- One function passes on a part of what it gets: a row of a table, what is pointed at, an address. -/
def passing : Description where
  entry := "main"
  externs := [⟨"say", "fn (int) void"⟩]
  chunks := [⟨none, true, false, false, [⟨"grid", "[2][3]int", none⟩, ⟨"head", "**int", none⟩, ⟨"total", "int", none⟩]⟩]
  blocks := [
    ⟨"main", false, false, false, [.call "scan", .call "sum"]⟩,
    ⟨"scan", true, false, false, [.call "sum", .expr (.deref (.var "head")),
      .expr (.call (.var "say") [.index (.index (.var "grid") (.value "0")) (.value "1")])]⟩,
    ⟨"sum", true, false, false, [.expr (.deref (.deref (.var "head"))),
      .assign (.var "total") (.index (.index (.var "grid") (.value "0")) (.value "0"))]⟩]

/-- All blocks are functions, and all variables are local. -/
def separatePassing : Placement := ⟨["main", "scan", "sum"], [], [⟨1⟩]⟩

end Description

theorem types_preserved_passing : ∃ g bs P root t ps F b x r args,
    LowersTo Description.passing Description.separatePassing g bs P ∧ bs.get g.entry = .ok root ∧
    Trace.ofBlock bs root true = .ok t ∧ t.parameters bs Description.separatePassing = .ok ps ∧ F ∈ P.functions ∧
    bs.find? F.name = some b ∧ .expr x ∈ Stmt.nodesOfAll b.statements ∧ ps.substitution.lookup x.id = some r ∧
    .expr r ∈ Stmt.nodesOfAll F.body ∧ (∃ T, x.HasType T ∧ r.HasType T) ∧
    ⟨.generated ps "sum" args, false⟩ ∈ Stmt.operandsOfAll F.body ∧ args.length = 3 ∧
    (Expr.generated ps "sum" args).typeOf = .ok .void := by
  have h : ((Description.passing.lowering? Description.separatePassing).bind fun l =>
      (l.program.functions.find? (·.name = "scan")).bind fun F => (l.blocks.find? F.name).bind fun b =>
        (b.calls.find? (·.2.name = "sum")).bind fun c =>
          ((Stmt.operandsOfAll b.statements).flatMap (·.expr.nodes)).find? fun x =>
            (l.parameters.substitution.lookup x.id).isSome && (l.parameters.of "sum").length == 3).isSome = true := by
    decide +kernel
  simp only [Option.isSome_iff_exists, Option.bind_eq_some_iff] at h
  obtain ⟨x, l, hl, F, hF, b, hb, c, hc, hx⟩ := h
  obtain ⟨h, hroot, ht, hps⟩ := Description.lowersTo_of_lowering? hl
  obtain ⟨hlookup, hthree⟩ : ((l.parameters.substitution.lookup x.id).isSome = true) ∧
      (l.parameters.of "sum").length = 3 := by simpa using List.find?_some hx
  have hF := List.mem_of_find?_eq_some hF
  obtain ⟨o, ho⟩ := List.mem_flatMap.1 (List.mem_of_find?_eq_some hx)
  have hx := Stmt.expr_mem_nodesOfAll.2 ⟨o, ho⟩
  -- the call of the block is a generated call of the function
  obtain ⟨-, -, hP⟩ := h.prepared hroot ht hps
  obtain ⟨_, -, b', hb', hFb⟩ := forall₂_mem_right hP hF
  obtain rfl := BlockSet.name_of_find? hb'
  obtain rfl : b' = b := Option.some.inj (hb'.symm.trans (hFb.name ▸ hb))
  obtain ⟨args, hargs, hcall⟩ := hFb.exists_generated (List.mem_of_find?_eq_some hc)
  have hname : c.2.name = "sum" := by simpa using List.find?_some hc
  rw [hname] at hargs hcall
  obtain ⟨r, hr⟩ := Option.isSome_iff_exists.1 hlookup
  obtain ⟨⟨_, hb'', hrewritten⟩, hcalls⟩ := h.types_preserved hroot ht hps F hF
  obtain rfl := Option.some.inj (hb.symm.trans hb'')
  obtain ⟨-, hmem, htyped⟩ := hrewritten x hx r hr
  exact ⟨_, _, _, _, _, _, F, b', x, r, args, h, hroot, ht, hps, hF, hb, hx, hr, hmem, htyped, hcall,
    hargs.length_eq.symm.trans hthree, (hcalls "sum" args hcall).2⟩

end Diversity
