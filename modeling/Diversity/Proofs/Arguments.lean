import Diversity.Proofs.Lowered
/-! What arrives for a parameter along a chain of calls: the access to the variable that the parameter
stands for. -/
namespace Diversity

/-- Along a chain of generated calls from the function that declares the variable, `e` is what arrives in
`f` for it, once each function's parameter gives way to what its caller passes. -/
inductive Program.Arrives (P : Program) (ps : Parameters) (key : Option ChunkId × String) :
    String → Expr → Prop
  | declared {G f args q a} : G ∈ P.functions → key ∈ (G.statics ++ G.locals).map (·.var.key) →
      ⟨.generated ps f args, false⟩ ∈ Stmt.operandsOfAll G.body → (q, a) ∈ (ps.of f).zip args →
      q.key = key → Arrives P ps key f a
  | forwarded {G f args own q a e} : G ∈ P.functions → Arrives P ps key G.name e → own ∈ ps.of G.name →
      own.key = key → ⟨.generated ps f args, false⟩ ∈ Stmt.operandsOfAll G.body →
      (q, a) ∈ (ps.of f).zip args → q.key = key →
      Arrives P ps key f (a.plug own.lifted.param.var e)

namespace Parameter

variable {t : Trace} {caller : String} {own : List Parameter} {q q' : Parameter} {v : Variable} {a : Expr}
  {reading passing reading' passing' : ℤ}

/-- The variable itself is passed as what callers are to pass. -/
theorem argument_of_none (h : q.argument t caller own = .ok a) (hown : own.find? (·.key = q.key) = none) :
    a = q.lifted.maximal.argument := by
  unfold argument at h
  rw [hown] at h
  dsimp only at h
  split at h
  · cases h
    rfl
  · cases h

/-- What is passed on is what callers are to pass, through the caller's own parameter. -/
theorem argument_of_some (h : q.argument t caller own = .ok a) (hown : own.find? (·.key = q.key) = some q') :
    a = (q.lifted.maximal.through q'.lifted.maximal (.var .unnumbered q'.lifted.param.var)).argument := by
  unfold argument at h
  rw [hown] at h
  cases h
  rfl

theorem along_argument_of_none (h : q.argument t caller own = .ok a) (hown : own.find? (·.key = q.key) = none)
    (hm : q.lifted.maximal.Along v reading passing) : a.Along v passing := by
  rw [argument_of_none h hown]
  exact hm.toArgument.simplify.toExpr

theorem along_argument_of_some (h : q.argument t caller own = .ok a)
    (hown : own.find? (·.key = q.key) = some q') (hm : q.lifted.maximal.Along v reading passing)
    (hm' : q'.lifted.maximal.Along v reading' passing') :
    a.Along q'.lifted.param.var (passing - passing') := by
  rw [argument_of_some h hown, sub_eq_add_neg]
  exact (hm.simplify.replace (hm'.simplify.invert _)).toArgument.simplify.toExpr

end Parameter

theorem Expr.id_mapChildren (e : Expr) (f : Expr → Expr) : (e.mapChildren f).id = e.id := by
  cases e <;> rfl

namespace Graph.Prepared

variable {g : Graph} {bs : BlockSet} {p : Placement} {t : Trace} {ps : Parameters} {b : Block} {F : Function}

/-- A substituted operand of a block is numbered, or an access path, and so no new call. -/
theorem substitute_ne_call (h : g.Prepared bs p t ps) (hb : b ∈ bs.toList) {o : Operand}
    (ho : o ∈ Stmt.operandsOfAll b.statements) (target : Expr) (args : List Expr) :
    o.expr.substitute ps.substitution ≠ .call .unnumbered target args := by
  intro he
  have hn : b.Holds o o.expr := ⟨ho, Expr.mem_nodes_self _⟩
  rw [Expr.substitute_eq h.closed_substitution, Expr.replaceNodes_eq] at he
  cases hr : ps.substitution.lookup o.expr.id with
  | some r =>
      obtain ⟨q, -, v, k, hl, -, -, hal⟩ := h.along_of_lookup hb hn hr
      obtain ⟨reading, passing, hm⟩ := h.over_maximal hb hl
      have hal := hal reading passing hm
      rw [hr, Option.getD_some] at he
      rw [he] at hal
      cases hal
  | none =>
      rw [hr, Option.getD_none] at he
      have hid : o.expr.id = .unnumbered := by rw [← o.expr.id_mapChildren, he]; rfl
      refine absurd (BlockSet.mem_ids.2 ⟨b, hb, BlockSet.id_mem_of_holds hn⟩) ?_
      rw [hid]
      exact h.placed.numbered

theorem substitute_ne_generated (h : g.Prepared bs p t ps) (hb : b ∈ bs.toList) {o : Operand}
    (ho : o ∈ Stmt.operandsOfAll b.statements) (ps' : Parameters) (f : String) (args : List Expr) :
    o.expr.substitute ps.substitution ≠ .generated ps' f args := h.substitute_ne_call hb ho _ _

/-- A generated call stands for a call of the block. -/
theorem exists_call_of_generated (h : g.Prepared bs p t ps) (hb : b ∈ bs.toList) (hF : F.Lowers g p t ps b)
    {f : String} {args : List Expr} (hcall : ⟨.generated ps f args, false⟩ ∈ Stmt.operandsOfAll F.body) :
    ∃ c ∈ b.calls, c.2.name = f ∧ ps.Passes t b.name f args := by
  rcases hF.operand_cases hcall with ⟨o, ho, he⟩ | ⟨c, hc, args', hargs, he⟩
  · exact absurd (congrArg Operand.expr he).symm (h.substitute_ne_generated hb ho ps f args)
  · have he : Expr.generated ps f args = Expr.generated ps c.2.name args' := congrArg Operand.expr he
    injection he with _ hvar hargs'
    injection hvar with _ hfree
    have hname : f = c.2.name := congrArg Variable.name hfree
    refine ⟨c, hc, hname.symm, ?_⟩
    rw [hname, hargs']
    exact hargs

theorem passes_of_generated (h : g.Prepared bs p t ps) (hb : b ∈ bs.toList) (hF : F.Lowers g p t ps b)
    {f : String} {args : List Expr} (hcall : ⟨.generated ps f args, false⟩ ∈ Stmt.operandsOfAll F.body) :
    ps.Passes t b.name f args := by
  obtain ⟨-, -, -, hargs⟩ := h.exists_call_of_generated hb hF hcall
  exact hargs

variable {v : Variable} {q q' : Parameter} {f : String} {P : Program}

theorem eq_of_parameter_key (h : g.Prepared bs p t ps) (hq : q ∈ ps.of f) (hq' : q' ∈ ps.of f)
    (hkey : q.key = q'.key) : q = q' :=
  List.inj_on_of_nodup_map (Trace.nodup_keys h.parameters f) hq hq' hkey

theorem find?_eq_none_of_declared (h : g.Prepared bs p t ps) (hb : b ∈ bs.toList) (hF : F.Lowers g p t ps b)
    {key : Option ChunkId × String} (hkey : key ∈ (F.statics ++ F.locals).map (·.var.key)) :
    (ps.of b.name).find? (·.key = key) = none := by
  rw [List.find?_eq_none]
  intro q hq hqkey
  obtain ⟨d, hd, rfl⟩ := List.mem_map.1 hkey
  obtain ⟨c, hc, -, hsite, hd⟩ := hF.mem_declared.1 hd
  obtain ⟨s, s', hg⟩ := h.placed.graph
  obtain ⟨-, v, hlifts⟩ := h.lifts_of_mem hb hq
  have hvkey : v.key = d.var.key := hlifts.key.symm.trans (of_decide_eq_true hqkey)
  have hchunk : v.chunk = some c.id := (congrArg Prod.fst hvkey).trans (hg.owned c hc d hd)
  exact h.site_ne hlifts hchunk hsite

theorem find?_eq_some_of_mem (h : g.Prepared bs p t ps) (hq : q ∈ ps.of f) :
    (ps.of f).find? (·.key = q.key) = some q := by
  cases hfind : (ps.of f).find? (·.key = q.key) with
  | none => exact absurd (decide_eq_true rfl) (List.find?_eq_none.1 hfind q hq)
  | some q' =>
      have hkey : q'.key = q.key := by simpa using List.find?_some hfind
      rw [h.eq_of_parameter_key (List.mem_of_find?_eq_some hfind) hq hkey]

/-- What arrives for a parameter is an access path of the level that callers are to pass. -/
theorem along_of_arrives (h : g.Prepared bs p t ps)
    (hP : List.Forall₂ (fun f F => ∃ b, bs.find? f = some b ∧ F.Lowers g p t ps b) t.blocks P.functions)
    {key : Option ChunkId × String} {e : Expr} (he : P.Arrives ps key f e) (hq : q ∈ ps.of f)
    (hkey : q.key = key) (hl : q.Lifts bs p t b v) {reading passing : ℤ}
    (hm : q.lifted.maximal.Along v reading passing) : e.Along v passing := by
  -- along the chain the levels add up: a caller passes the level asked for, less what it got itself
  induction he generalizing b q v reading passing with
  | @declared G f args q' a hG hdecl hcall hzip hkey' =>
      obtain ⟨f', -, b', hb', hG'⟩ := forall₂_mem_right hP hG
      have hb' := BlockSet.mem_of_find? hb'
      have ha := (List.forall₂_iff_zip.1 (h.passes_of_generated hb' hG' hcall)).2 hzip
      obtain rfl := h.eq_of_parameter_key hq (List.of_mem_zip hzip).1 (hkey.trans hkey'.symm)
      exact Parameter.along_argument_of_none ha (hkey ▸ h.find?_eq_none_of_declared hb' hG' hdecl) hm
  | @forwarded G f args own q' a e hG _ hown hownkey hcall hzip hkey' ih =>
      obtain ⟨f', -, b', hb', hG'⟩ := forall₂_mem_right hP hG
      have hb' := BlockSet.mem_of_find? hb'
      have ha := (List.forall₂_iff_zip.1 (h.passes_of_generated hb' hG' hcall)).2 hzip
      obtain rfl := h.eq_of_parameter_key hq (List.of_mem_zip hzip).1 (hkey.trans hkey'.symm)
      rw [hG'.name] at hown
      obtain ⟨-, v', hl'⟩ := h.lifts_of_mem hb' hown
      have hvkey : v'.key = v.key := by rw [← hl'.key, ← hl.key, hownkey, hkey]
      obtain rfl := h.eq_of_needed hl.needed hl'.needed hvkey
      obtain ⟨reading', passing', hm'⟩ := h.over_maximal hb' hl'
      have hfind := h.find?_eq_some_of_mem hown
      rw [hownkey, ← hkey] at hfind
      have harg := Parameter.along_argument_of_some ha hfind hm hm'
      have hplug := harg.plug (ih (hG'.name ▸ hown) hownkey hl' hm')
      rwa [sub_add_cancel] at hplug

theorem exists_argument {caller : String} {args : List Expr} (hargs : ps.Passes t caller f args)
    (hq : q ∈ ps.of f) : ∃ a, (q, a) ∈ (ps.of f).zip args := by
  obtain ⟨i, hi, rfl⟩ := List.mem_iff_getElem.1 hq
  have hi' : i < args.length := hargs.length_eq ▸ hi
  refine ⟨args[i], List.mem_iff_getElem.2 ⟨i, by simp [hi, hi'], ?_⟩⟩
  rw [List.getElem_zip]

theorem exists_function (h : g.Prepared bs p t ps)
    (hP : List.Forall₂ (fun f F => ∃ b, bs.find? f = some b ∧ F.Lowers g p t ps b) t.blocks P.functions)
    {w : Visit} (hw : w ∈ t.visits) : ∃ G ∈ P.functions, G.Lowers g p t ps w.block := by
  obtain ⟨G, hG, b, hb, hGb⟩ := forall₂_mem_left hP (Trace.mem_blocks.2 ⟨w, hw, rfl⟩)
  obtain rfl := Option.some.inj (hb.symm.trans (h.find?_visit hw))
  exact ⟨G, hG, hGb⟩

/-- A local variable that occurs somewhere is declared where its chunk has its site. -/
theorem mem_declared_of_site (h : g.Prepared bs p t ps) (hF : F.Lowers g p t ps b) {c : Block}
    (hc : c ∈ bs.toList) (hv : v ∈ c.vars) {i : ChunkId} (hi : v.chunk = some i) (hlocal : p.isLocal i = true)
    (hsite : t.site i = b.name) : v ∈ (F.statics ++ F.locals).map (·.var) := by
  obtain ⟨s, s', hg⟩ := h.placed.graph
  obtain ⟨chunk, hchunk, hv⟩ := List.mem_flatMap.1 (h.placed.declared hc hv (hi ▸ Option.some_ne_none i))
  obtain ⟨d, hd, rfl⟩ := List.mem_map.1 (List.mem_filter.1 hv).1
  obtain rfl : chunk.id = i := Option.some.inj ((hg.owned chunk hchunk d hd).symm.trans hi)
  exact List.mem_map_of_mem (hF.mem_declared.2 ⟨chunk, hchunk, hlocal, hsite, hd⟩)

theorem exists_arrives (h : g.Prepared bs p t ps)
    (hP : List.Forall₂ (fun f F => ∃ b, bs.find? f = some b ∧ F.Lowers g p t ps b) t.blocks P.functions)
    (hq : q ∈ ps.of f) : ∃ e, P.Arrives ps q.key f e := by
  obtain ⟨-, b, v, hb, hl⟩ := Trace.lifts_of_mem h.parameters hq
  obtain rfl := BlockSet.name_of_find? hb
  obtain ⟨root, -, ht⟩ := h.traced
  obtain ⟨hsome, c, hc, hv⟩ := h.exists_mention hl.needed
  obtain ⟨i, hi⟩ := Option.ne_none_iff_exists'.1 hsome
  have hlocal : p.isLocal i = true := by simpa [hi] using hl.placed
  rw [hl.key]
  refine Trace.needs_induction (Q := fun f => ∀ q ∈ ps.of f, q.key = v.key → ∃ e, P.Arrives ps v.key f e)
    ht hl.needed hi ?_ ?_ q hq hl.key
  · intro w hw hsite call hcall q hq hkey
    obtain ⟨G, hG, hGw⟩ := h.exists_function hP hw
    obtain ⟨args, hargs, hmem⟩ := hGw.exists_generated hcall
    obtain ⟨a, ha⟩ := exists_argument hargs hq
    refine ⟨a, .declared hG ?_ hmem ha hkey⟩
    obtain ⟨d, hd, rfl⟩ := List.mem_map.1 (h.mem_declared_of_site hGw hc hv hi hlocal hsite)
    exact List.mem_map_of_mem hd
  · rintro w hw ⟨v', hv', hv'key⟩ hQ call hcall q hq hkey
    have hlocal' : v'.chunk.any p.isLocal = true := by
      rw [show v'.chunk = some i from (congrArg Prod.fst hv'key).trans hi]
      exact hlocal
    obtain ⟨G, hG, hGw⟩ := h.exists_function hP hw
    obtain ⟨own, hown, hownkey⟩ :=
      Trace.exists_parameter h.parameters (Trace.mem_blocks.2 ⟨w, hw, rfl⟩) hv' hlocal'
    obtain ⟨e, he⟩ := hQ own hown (hownkey.trans hv'key)
    obtain ⟨args, hargs, hmem⟩ := hGw.exists_generated hcall
    obtain ⟨a, ha⟩ := exists_argument hargs hq
    rw [← hGw.name] at he hown
    exact ⟨_, .forwarded hG he hown (hownkey.trans hv'key) hmem ha hkey⟩

/-- What replaces an expression of a block stands where the expression stood. -/
theorem substitute_of_lookup (h : g.Prepared bs p t ps) (hb : b ∈ bs.toList) (hF : F.Lowers g p t ps b)
    {o : Operand} {n r : Expr} (hn : b.Holds o n) (hr : ps.substitution.lookup n.id = some r) :
    n.substitute ps.substitution = r ∧ .expr (n.substitute ps.substitution) ∈ Stmt.nodesOfAll F.body := by
  rw [Expr.substitute_eq h.closed_substitution]
  constructor
  · rw [Expr.replaceNodes_eq, hr, Option.getD_some]
  · obtain ⟨-, -, v, _, -, ⟨u, hu, hid⟩, -⟩ := h.along_of_lookup hb hn hr
    refine Stmt.expr_mem_nodesOfAll.2 ⟨_, hF.mem_operands hn.1, ?_⟩
    rw [Operand.map, Expr.substitute_eq h.closed_substitution]
    refine Operand.mem_nodes_replaceNodes (BlockSet.nodup_operand_ids h.placed.ids hb hn.1) ?_ hu hn.2 hid.symm
    intro m hm r hr
    obtain ⟨-, -, v', _, -, hu', -⟩ := h.along_of_lookup hb ⟨hn.1, hm⟩ hr
    exact ⟨v'.key, hu'⟩

/-- A usage becomes an access path over the parameter, in the place where it stood. -/
theorem along_of_substitute (h : g.Prepared bs p t ps) (hb : b ∈ bs.toList) (hF : F.Lowers g p t ps b)
    (hq : q ∈ ps.of b.name) (hl : q.Lifts bs p t b v) {u : Usage} (hu : u ∈ b.usages q.key)
    {reading passing : ℤ} (hm : q.lifted.maximal.Along v reading passing) :
    ∃ x k, .expr x ∈ Stmt.nodesOfAll b.statements ∧ x.id = u.origin ∧ x.Along v k ∧
      (∃ passing, u.capture.Along v k passing) ∧
      .expr (x.substitute ps.substitution) ∈ Stmt.nodesOfAll F.body ∧
      (x.substitute ps.substitution).Along q.lifted.param.var (k - passing) := by
  obtain ⟨o, n, k, _, hn, -, hid, hnv, huv⟩ := h.along_of_usage hl.needed hb (hl.key ▸ hu)
  obtain ⟨r, hr⟩ := h.exists_lookup hb hq hu
  rw [← hid] at hr
  obtain ⟨hsub, hmem⟩ := h.substitute_of_lookup hb hF hn hr
  refine ⟨n, k, Stmt.expr_mem_nodesOfAll.2 ⟨o, hn⟩, hid, hnv, ⟨_, huv⟩, hmem, ?_⟩
  obtain ⟨q', hq', v', k', hl', -, hnv', hal⟩ := h.along_of_lookup hb hn hr
  obtain rfl := List.singleton_injective (hnv.vars.symm.trans hnv'.vars)
  obtain rfl := h.eq_of_parameter_key hq hq' (hl.key.trans hl'.key.symm)
  obtain rfl := hnv.level_unique hnv'
  rw [hsub]
  exact hal reading passing hm

end Graph.Prepared

theorem LowersTo.exists_arrives {d : Description} {p : Placement} {g : Graph} {bs : BlockSet}
    {P : Program} (h : LowersTo d p g bs P) {root : Block} (hroot : bs.get g.entry = .ok root) {t : Trace}
    (ht : Trace.ofBlock bs root true = .ok t) {ps : Parameters} (hps : t.parameters bs p = .ok ps)
    {f : String} {q : Parameter} (hq : q ∈ ps.of f) : ∃ e, P.Arrives ps q.key f e := by
  obtain ⟨hprep, -, hP⟩ := h.prepared hroot ht hps
  exact hprep.exists_arrives hP hq

/-- What arrives for a parameter along any chain of calls denotes what callers are to pass. Every usage in the function
is an access path over the parameter, and with what arrives in the place of the parameter it denotes what it denoted
in the block. -/
theorem LowersTo.lifted_denotes {d : Description} {p : Placement} {g : Graph} {bs : BlockSet}
    {P : Program} (h : LowersTo d p g bs P) {root : Block} (hroot : bs.get g.entry = .ok root) {t : Trace}
    (ht : Trace.ofBlock bs root true = .ok t) {ps : Parameters} (hps : t.parameters bs p = .ok ps)
    {f : String} {q : Parameter} (hq : q ∈ ps.of f) {e : Expr} (he : P.Arrives ps q.key f e) :
    e.normal = q.lifted.maximal.toArgument.toExpr.normal ∧
      ∃ F ∈ P.functions, ∃ b, F.name = f ∧ q.lifted.param ∈ F.params ∧ bs.find? f = some b ∧
        ∀ u ∈ b.usages q.key, ∃ x k, .expr x ∈ Stmt.nodesOfAll b.statements ∧ x.id = u.origin ∧
          .expr (x.substitute ps.substitution) ∈ Stmt.nodesOfAll F.body ∧
          (x.substitute ps.substitution).Along q.lifted.param.var k ∧
          ((x.substitute ps.substitution).plug q.lifted.param.var e).normal = x.normal := by
  obtain ⟨hprep, -, hP⟩ := h.prepared hroot ht hps
  obtain ⟨hf, b, v, hb, hl⟩ := Trace.lifts_of_mem hps hq
  obtain ⟨F, hF, b', hb', hFb⟩ := forall₂_mem_left hP hf
  obtain rfl : b' = b := Option.some.inj (hb'.symm.trans hb)
  have hmem := BlockSet.mem_of_find? hb
  obtain rfl := BlockSet.name_of_find? hb
  obtain ⟨reading, passing, hm⟩ := hprep.over_maximal hmem hl
  have he := hprep.along_of_arrives hP he hq rfl hl hm
  refine ⟨by rw [he.normal_eq, hm.toArgument.toExpr.normal_eq], F, hF, b', hFb.name, ?_, hb, ?_⟩
  · rw [hFb.params]
    exact List.mem_map_of_mem hq
  · intro u hu
    obtain ⟨x, k, hx, hid, hxk, -, hxF, hsub⟩ := hprep.along_of_substitute hmem hFb hq hl hu hm
    refine ⟨x, k - passing, hx, hid, hxF, hsub, ?_⟩
    rw [(hsub.plug he).normal_eq, hxk.normal_eq, sub_add_cancel]

theorem lifted_denotes_sharing : ∃ g bs P root t ps q e F b u x k,
    LowersTo Description.sharing Description.separateSharing g bs P ∧ bs.get g.entry = .ok root ∧
    Trace.ofBlock bs root true = .ok t ∧ t.parameters bs Description.separateSharing = .ok ps ∧
    q ∈ ps.of "fill" ∧ P.Arrives ps q.key "fill" e ∧ e.normal = q.lifted.maximal.toArgument.toExpr.normal ∧
    F ∈ P.functions ∧ F.name = "fill" ∧ bs.find? "fill" = some b ∧ u ∈ b.usages q.key ∧
    .expr x ∈ Stmt.nodesOfAll b.statements ∧ x.id = u.origin ∧
    .expr (x.substitute ps.substitution) ∈ Stmt.nodesOfAll F.body ∧
    (x.substitute ps.substitution).Along q.lifted.param.var k ∧
    ((x.substitute ps.substitution).plug q.lifted.param.var e).normal = x.normal := by
  have h : ((Description.sharing.lowering? Description.separateSharing).bind fun l =>
      (l.parameters.of "fill").head?.bind fun q => (l.blocks.find? "fill").bind fun b =>
        (b.usages q.key).head?).isSome = true := by
    decide +kernel
  simp only [Option.isSome_iff_exists, Option.bind_eq_some_iff] at h
  obtain ⟨u, l, hl, q, hq, b, hb, hu⟩ := h
  obtain ⟨h, hroot, ht, hps⟩ := Description.lowersTo_of_lowering? hl
  have hq := List.mem_of_head? hq
  have hu := List.mem_of_head? hu
  obtain ⟨e, he⟩ := h.exists_arrives hroot ht hps hq
  obtain ⟨hpassed, F, hF, b', hname, -, hb', husages⟩ := h.lifted_denotes hroot ht hps hq he
  obtain rfl := Option.some.inj (hb.symm.trans hb')
  obtain ⟨x, k, hdenotes⟩ := husages u hu
  exact ⟨_, _, _, _, _, _, q, e, F, b, u, x, k, h, hroot, ht, hps, hq, he, hpassed, hF, hname, hb, hu, hdenotes⟩

end Diversity
