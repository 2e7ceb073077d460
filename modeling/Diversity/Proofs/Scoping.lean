import Diversity.Proofs.Arguments
import Diversity.Random.ChaCha
/-! Every variable of a program is declared once, and every occurrence is in scope. -/
namespace Diversity

/-- Elements sorted by a name that each has, under distinct names. -/
theorem perm_flatMap_filter {α : Type} (f : α → String) {names : List String} (hn : names.Nodup) (as : List α) :
    (names.flatMap fun n => as.filter (f · == n)).Perm (as.filter fun a => decide (f a ∈ names)) := by
  induction names with
  | nil => simp
  | cons n names ih =>
      obtain ⟨hmem, hn⟩ := List.nodup_cons.1 hn
      rw [List.flatMap_cons]
      refine ((ih hn).append_left _).trans ?_
      have hsplit := List.filter_append_perm (f · == n) (as.filter fun a => decide (f a ∈ n :: names))
      rw [List.filter_filter, List.filter_filter] at hsplit
      convert hsplit using 2
      · refine List.filter_congr fun a _ => ?_
        by_cases ha : f a = n <;> simp [ha]
      · refine List.filter_congr fun a _ => ?_
        by_cases ha : f a = n
        · simp [ha, hmem]
        · simp [ha]

theorem perm_flatMap_of_forall₂ {α β γ : Type} {R : α → β → Prop} {f : β → List γ} {k : α → List γ}
    {as : List α} {bs : List β} (h : List.Forall₂ R as bs) (hR : ∀ a b, R a b → (f b).Perm (k a)) :
    (bs.flatMap f).Perm (as.flatMap k) := by
  induction h with
  | nil => exact .refl _
  | cons hab _ ih => exact (hR _ _ hab).append ih

/-- Everything that a program declares. -/
def Program.declarations (P : Program) : List Declaration :=
  P.globals.map (·.declaration) ++ P.functions.flatMap fun F => F.statics ++ F.locals

/-- What an occurrence of a variable in a function may be: one of a chunk is declared, globally or in the
function, and any other is a parameter of the function or occurs in the graph. -/
inductive Function.Sees (g : Graph) (P : Program) (F : Function) (v : Variable) : Prop
  | global : v.chunk ≠ none → v ∈ P.globals.map (·.declaration.var) → Sees g P F v
  | declared : v.chunk ≠ none → v ∈ (F.statics ++ F.locals).map (·.var) → Sees g P F v
  | parameter : v.chunk = none → v ∈ F.params.map (·.var) → Sees g P F v
  | free : v.chunk = none → (∃ b ∈ g.blocks.toList, v ∈ b.vars) → Sees g P F v

/-- Everything in the chunks of a graph is declared once, everything that occurs is in scope, and no
function declares what it has a parameter for. Calls of functions are new. -/
structure Program.WellScoped (g : Graph) (P : Program) : Prop where
  declared : P.declarations.Perm (g.chunks.flatMap (·.vars))
  once : (P.declarations.map (·.var.key)).Nodup
  occurrences : ∀ F ∈ P.functions, ∀ o ∈ Stmt.operandsOfAll F.body, (∀ v ∈ o.expr.vars, F.Sees g P v) ∨
    ∃ target args, o.expr = .call .unnumbered (.var .unnumbered target) args ∧ target.chunk = none ∧
      target.name ∈ P.functions.map (·.name) ∧ ∀ a ∈ args, ∀ v ∈ a.vars, F.Sees g P v
  apart : ∀ F ∈ P.functions, ∀ d ∈ F.statics ++ F.locals, ∀ d' ∈ F.params, d.name ≠ d'.name

theorem Parameter.declares_of_none {t : Trace} {caller : String} {own : List Parameter} {q : Parameter} {a : Expr}
    (h : q.argument t caller own = .ok a) (hown : own.find? (·.key = q.key) = none) :
    t.declares caller q.key = true := by
  unfold argument at h
  rw [hown] at h
  dsimp only at h
  split at h
  · assumption
  · cases h

namespace Graph.Prepared

variable {g : Graph} {bs : BlockSet} {p : Placement} {t : Trace} {ps : Parameters} {b : Block} {F : Function}
  {P : Program} {v : Variable}

theorem sees_parameter (hF : F.Lowers g p t ps b) {q : Parameter} (hl : q.Lifts bs p t b v)
    (hq : q ∈ ps.of b.name) : F.Sees g P q.lifted.param.var := by
  obtain ⟨us, type, -, -, hparam, -⟩ := Block.lift_eq_ok hl.lift
  refine .parameter (by rw [hparam]; rfl) ?_
  rw [hF.params, List.map_map]
  exact List.mem_map_of_mem hq

/-- A variable that a block mentions and has no parameter for is in scope. -/
theorem sees_of_mem (h : g.Prepared bs p t ps) (hglobals : P.globals = g.globals p) (hb : b ∈ bs.toList)
    (hblock : b.name ∈ t.blocks) (hF : F.Lowers g p t ps b) (hv : v ∈ b.vars)
    (hown : ¬ ∃ q ∈ ps.of b.name, q.key = v.key) : F.Sees g P v := by
  cases hc : v.chunk with
  | none => exact .free hc (h.placed.mentioned b hb v hv)
  | some c =>
      have hsome : v.chunk ≠ none := hc ▸ Option.some_ne_none c
      cases hlocal : p.isLocal c with
      | true =>
          obtain ⟨root, -, ht⟩ := h.traced
          obtain ⟨w, hw, rfl⟩ := h.exists_visit hb hblock
          rcases Trace.site_or_needs ht hw hv hc with hsite | ⟨v', hv', hkey⟩
          · exact .declared hsome (h.mem_declared_of_site hF hb hv hc hlocal hsite)
          · have hlocal' : v'.chunk.any p.isLocal = true := by
              rw [show v'.chunk = some c from (congrArg Prod.fst hkey).trans hc]
              exact hlocal
            obtain ⟨q, hq, hqkey⟩ := Trace.exists_parameter h.parameters hblock hv' hlocal'
            exact absurd ⟨q, hq, hqkey.trans hkey⟩ hown
      | false =>
          obtain ⟨s, s', hg⟩ := h.placed.graph
          obtain ⟨chunk, hchunk, hv⟩ := List.mem_flatMap.1 (h.placed.declared hb hv hsome)
          obtain ⟨d, hd, rfl⟩ := List.mem_map.1 (List.mem_filter.1 hv).1
          obtain rfl : chunk.id = c := Option.some.inj ((hg.owned chunk hchunk d hd).symm.trans hc)
          refine .global hsome (List.mem_map.2 ⟨⟨d, chunk.constraint.isStatic⟩, ?_, rfl⟩)
          rw [hglobals]
          exact List.mem_flatMap.2 ⟨chunk, List.mem_filter.2 ⟨hchunk, by simp [hlocal]⟩, List.mem_map_of_mem hd⟩

/-- Once usages have given way to parameters, an operand has variables that the block has no parameter for, and
parameters of the block. -/
theorem var_cases_of_operand (h : g.Prepared bs p t ps) (hb : b ∈ bs.toList) {o : Operand}
    (ho : o ∈ Stmt.operandsOfAll b.statements) (hv : v ∈ (o.expr.substitute ps.substitution).vars) :
    (v ∈ b.vars ∧ ¬ ∃ q ∈ ps.of b.name, q.key = v.key) ∨ ∃ q ∈ ps.of b.name, v = q.lifted.param.var := by
  rw [Expr.substitute_eq h.closed_substitution] at hv
  have hreplaced (key) (hkey : ∃ q ∈ ps.of b.name, q.key = key) :
      ∀ u ∈ o.usages key, ∃ r, ps.substitution.lookup u.origin = some r := by
    obtain ⟨q, hq, rfl⟩ := hkey
    refine fun u hu => h.exists_lookup hb hq ?_
    rw [Block.usages, Stmt.usagesOfAll_eq]
    exact List.mem_flatMap.2 ⟨o, ho, hu⟩
  rcases Operand.vars_replaceNodes hreplaced hv with ⟨hv, hown⟩ | ⟨n, hn, r, hr, hv⟩
  · exact .inl ⟨Stmt.mem_vars_iff.2 ⟨o, ho, hv⟩, hown⟩
  · obtain ⟨q, hq, w, k, hl, -, -, hal⟩ := h.along_of_lookup hb ⟨ho, hn⟩ hr
    obtain ⟨reading, passing, hm⟩ := h.over_maximal hb hl
    rw [(hal reading passing hm).vars, List.mem_singleton] at hv
    exact .inr ⟨q, hq, hv⟩

/-- What is passed for a parameter accesses the variable that it stands for, or else the caller's own parameter. -/
theorem var_cases_of_argument (h : g.Prepared bs p t ps) (hb : b ∈ bs.toList) {f : String} {q : Parameter}
    (hq : q ∈ ps.of f) {a : Expr} (ha : q.argument t b.name (ps.of b.name) = .ok a) (hv : v ∈ a.vars) :
    ((∃ c, q.Lifts bs p t c v) ∧ t.declares b.name q.key = true) ∨ ∃ q' ∈ ps.of b.name, v = q'.lifted.param.var := by
  obtain ⟨-, b', w, hb', hl⟩ := Trace.lifts_of_mem h.parameters hq
  obtain ⟨reading, passing, hm⟩ := h.over_maximal (BlockSet.mem_of_find? hb') hl
  cases hown : (ps.of b.name).find? (·.key = q.key) with
  | none =>
      rw [(Parameter.along_argument_of_none ha hown hm).vars, List.mem_singleton] at hv
      exact .inl ⟨⟨b', hv ▸ hl⟩, Parameter.declares_of_none ha hown⟩
  | some q' =>
      have hq' := List.mem_of_find?_eq_some hown
      have hkey : q'.key = q.key := by simpa using List.find?_some hown
      obtain ⟨-, w', hl'⟩ := h.lifts_of_mem hb hq'
      obtain rfl := h.eq_of_needed hl.needed hl'.needed (by rw [← hl.key, ← hl'.key, hkey])
      obtain ⟨reading', passing', hm'⟩ := h.over_maximal hb hl'
      rw [(Parameter.along_argument_of_some ha hown hm hm').vars, List.mem_singleton] at hv
      exact .inr ⟨q', hq', hv⟩

theorem sees_of_operand (h : g.Prepared bs p t ps) (hglobals : P.globals = g.globals p) (hb : b ∈ bs.toList)
    (hblock : b.name ∈ t.blocks) (hF : F.Lowers g p t ps b) {o : Operand}
    (ho : o ∈ Stmt.operandsOfAll b.statements) :
    ∀ v ∈ (o.expr.substitute ps.substitution).vars, F.Sees g P v := by
  intro v hv
  rcases h.var_cases_of_operand hb ho hv with ⟨hv, hown⟩ | ⟨q, hq, rfl⟩
  · exact h.sees_of_mem hglobals hb hblock hF hv hown
  · obtain ⟨-, w, hl⟩ := h.lifts_of_mem hb hq
    exact sees_parameter hF hl hq

theorem sees_of_argument (h : g.Prepared bs p t ps) (hb : b ∈ bs.toList) (hF : F.Lowers g p t ps b) {f : String}
    {q : Parameter} (hq : q ∈ ps.of f) {a : Expr} (ha : q.argument t b.name (ps.of b.name) = .ok a) :
    ∀ v ∈ a.vars, F.Sees g P v := by
  intro v hv
  rcases h.var_cases_of_argument hb hq ha hv with ⟨⟨b', hl⟩, hdeclares⟩ | ⟨q', hq', rfl⟩
  · obtain ⟨hsome, c, hc, hv⟩ := h.exists_mention hl.needed
    obtain ⟨i, hi⟩ := Option.ne_none_iff_exists'.1 hsome
    rw [hl.key, Trace.declares, Variable.key, hi, Option.any_some, beq_iff_eq] at hdeclares
    have hlocal : p.isLocal i = true := by simpa [hi] using hl.placed
    exact .declared hsome (h.mem_declared_of_site hF hc hv hi hlocal hdeclares)
  · obtain ⟨-, w, hl⟩ := h.lifts_of_mem hb hq'
    exact sees_parameter hF hl hq'

/-- Every variable of a chunk is declared, globally or at the chunk's site. -/
theorem perm_declarations (h : g.Prepared bs p t ps) (hglobals : P.globals = g.globals p)
    (hP : List.Forall₂ (fun f F => ∃ b, bs.find? f = some b ∧ F.Lowers g p t ps b) t.blocks P.functions) :
    P.declarations.Perm (g.chunks.flatMap (·.vars)) := by
  have hsites : (t.blocks.flatMap (g.chunksAt p t)).Perm (g.chunks.filter (p.isLocal ·.id)) := by
    obtain ⟨root, -, ht⟩ := h.traced
    have hperm := perm_flatMap_filter (fun c : Chunk => t.site c.id) (nodup_distinct _ : t.blocks.Nodup)
      (g.chunks.filter (p.isLocal ·.id))
    rw [List.filter_eq_self.2 fun c _ => decide_eq_true (Trace.site_mem_blocks ht c.id)] at hperm
    simp only [List.filter_filter, Bool.and_comm] at hperm
    exact hperm
  have hfunctions : (P.functions.flatMap fun F => F.statics ++ F.locals).Perm
      ((g.chunks.filter (p.isLocal ·.id)).flatMap (·.vars)) := by
    refine List.Perm.trans ?_ (hsites.flatMap_right _)
    rw [List.flatMap_assoc]
    refine perm_flatMap_of_forall₂ hP fun f F ⟨b, hb, hF⟩ => ?_
    rw [hF.statics, hF.locals, ← List.flatMap_append, BlockSet.name_of_find? hb]
    exact (List.filter_append_perm _ _).flatMap_right _
  have hdeclared : P.globals.map (·.declaration) = (g.chunks.filter (!p.isLocal ·.id)).flatMap (·.vars) := by
    rw [hglobals, Graph.globals, List.map_flatMap]
    simp [Function.comp_def]
  rw [Program.declarations, hdeclared]
  refine (hfunctions.append_left _).trans (List.perm_append_comm.trans ?_)
  rw [← List.flatMap_append]
  exact (List.filter_append_perm _ _).flatMap_right _

end Graph.Prepared

theorem Graph.Compiled.nodup_keys {g : Graph} {s s' : Supply} (h : g.Compiled s s') :
    ((g.chunks.flatMap (·.vars)).map (·.var.key)).Nodup := by
  rw [List.map_flatMap, List.nodup_flatMap]
  constructor
  · intro c hc
    have hnames := h.varNames c hc
    refine List.Nodup.of_map Prod.snd ?_
    rw [List.map_map]
    exact hnames
  · refine (List.pairwise_map.1 h.chunkIds).imp_of_mem fun hc hc' hne => ?_
    have howner {c : Chunk} (hc : c ∈ g.chunks) {key : Option ChunkId × String}
        (hkey : key ∈ c.vars.map (·.var.key)) : key.1 = some c.id := by
      obtain ⟨d, hd, rfl⟩ := List.mem_map.1 hkey
      exact h.owned c hc d hd
    exact fun key hkey hkey' => hne (Option.some.inj ((howner hc hkey).symm.trans (howner hc' hkey')))

namespace Graph

variable {g : Graph} {bs : BlockSet} {p : Placement} {t : Trace} {ps : Parameters} {b : Block} {F : Function}
  {P : Program}

/-- No function declares a variable under the name of one of its parameters. -/
theorem Prepared.name_ne (h : g.Prepared bs p t ps) (hb : b ∈ bs.toList) (hF : F.Lowers g p t ps b)
    {d d' : Declaration} (hd : d ∈ F.statics ++ F.locals) (hd' : d' ∈ F.params) : d.name ≠ d'.name := by
  intro hname
  rw [hF.params] at hd'
  obtain ⟨q, hq, rfl⟩ := List.mem_map.1 hd'
  obtain ⟨-, v, hl⟩ := h.lifts_of_mem hb hq
  obtain ⟨us, type, -, -, hparam, -⟩ := Block.lift_eq_ok hl.lift
  rw [hparam] at hname
  obtain ⟨c, hc, -, hsite, hd⟩ := hF.mem_declared.1 hd
  obtain ⟨hsome, b', hb', hv⟩ := h.exists_mention hl.needed
  obtain ⟨s, s', hg⟩ := h.placed.graph
  have hvisible := h.placed.declared hb' hv hsome
  -- a variable of that name can be named as well, so it is the one that the parameter stands for
  have hnamed : v.isHidden = false := by
    obtain ⟨c', -, hv⟩ := List.mem_flatMap.1 hvisible
    simpa using (List.mem_filter.1 hv).2
  have hdvisible : d.var ∈ g.chunks.flatMap Description.visible := by
    refine List.mem_flatMap.2 ⟨c, hc, List.mem_filter.2 ⟨List.mem_map_of_mem hd, ?_⟩⟩
    have hhidden : d.var.isHidden = v.isHidden := congrArg (fun n : String => n.toList.head? == some '_') hname
    rw [hhidden, hnamed]
    rfl
  have hdv : d.var = v := List.inj_on_of_nodup_map hg.visibleNames hdvisible hvisible hname
  exact h.site_ne hl (hdv ▸ hg.owned c hc d hd) hsite

theorem Placed.wellScoped (hp : g.Placed bs) (h : g.lower bs p = .ok P) : P.WellScoped g := by
  obtain ⟨t, ps, hprep, hglobals, hP⟩ := lower_eq_ok h hp
  obtain ⟨s, s', hg⟩ := hp.graph
  have hperm := hprep.perm_declarations hglobals hP
  have hblock {F : Function} (hF : F ∈ P.functions) :
      ∃ b ∈ bs.toList, b.name ∈ t.blocks ∧ F.Lowers g p t ps b := by
    obtain ⟨f, hf, b, hb, hFb⟩ := forall₂_mem_right hP hF
    exact ⟨b, BlockSet.mem_of_find? hb, BlockSet.name_of_find? hb ▸ hf, hFb⟩
  refine ⟨hperm, (hperm.map _).nodup_iff.2 hg.nodup_keys, fun F hF o ho => ?_, fun F hF d hd d' hd' => ?_⟩
  · obtain ⟨b, hb, hbt, hFb⟩ := hblock hF
    rcases hFb.operand_cases ho with ⟨o', ho', rfl⟩ | ⟨c, hc, args, hargs, rfl⟩
    · exact Or.inl (hprep.sees_of_operand hglobals hb hbt hFb ho')
    · refine Or.inr ⟨_, args, rfl, rfl, ?_, fun a ha => ?_⟩
      · obtain ⟨root, -, ht⟩ := hprep.traced
        obtain ⟨w, hw, rfl⟩ := hprep.exists_visit hb hbt
        obtain ⟨F', hF', b', hb', hFb'⟩ := forall₂_mem_left hP (Trace.mem_blocks_of_call ht hw hc)
        exact List.mem_map.2 ⟨F', hF', hFb'.name.trans (BlockSet.name_of_find? hb')⟩
      · obtain ⟨q, hq, ha⟩ := forall₂_mem_right hargs ha
        exact hprep.sees_of_argument hb hFb hq ha
  · obtain ⟨b, hb, -, hFb⟩ := hblock hF
    exact hprep.name_ne hb hFb hd hd'

end Graph

/-- Whatever the random source, a description's program is well scoped. -/
theorem interpret_wellScoped {σ : Type} [RandomSource σ] {d : Description} {s s' supply : Supply} {g : Graph}
    {source source' : σ} {P : Program} (hs : Supply.first.next ≤ s.next) (hd : d.toGraph s = .ok (g, s'))
    (hsupply : s'.next ≤ supply.next) (h : g.interpret supply source = .ok (P, source')) : P.WellScoped g := by
  obtain ⟨p, bs, hlowers⟩ := exists_lowersTo_of_interpret hs hd hsupply h
  exact hlowers.placed.wellScoped hlowers.lowered

theorem interpret_wellScoped_sharing : ∃ g s P source, Description.sharing.toGraph .first = .ok (g, s) ∧
    g.interpret s (ChaCha.ofSeed 0) = .ok (P, source) ∧ P.WellScoped g := by
  have h : (do
      let r ← (Description.sharing.toGraph .first).toOption
      (r.1.interpret r.2 (ChaCha.ofSeed 0)).toOption : Option (Program × ChaCha)).isSome = true := by
    decide +kernel
  simp only [Option.isSome_iff_exists, Option.bind_eq_bind, Option.bind_eq_some_iff, toOption_eq_some] at h
  obtain ⟨⟨P, source⟩, ⟨g, s⟩, hg, hP⟩ := h
  exact ⟨g, s, P, source, hg, hP, interpret_wellScoped (Nat.le_refl _) hg (Nat.le_refl _) hP⟩

end Diversity
