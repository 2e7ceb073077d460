import Diversity.Proofs.Naming
/-! How programs spell what occurs in them. Names that a description declares come first when it is read, but the text
of a program takes the library's spelling for any name that the library knows, unless the variable belongs to a
chunk. The two differ for parameters, externs and called functions that have names of the library. -/
namespace Diversity

/-- Spelled by its name, with no need for a header. -/
def Variable.Plain (v : Variable) : Prop := v.render = v.name ∧ ∀ i, (Expr.var i v).symbols = []

theorem Variable.plain_iff {v : Variable} : v.Plain ↔ v.isBuiltin = false := by
  have hsymbols (i : NodeId) : (Expr.var i v).symbols = if v.isBuiltin then [v.name] else [] := List.append_nil _
  constructor
  · intro h
    have hnil := h.2 .unnumbered
    rw [hsymbols] at hnil
    cases hv : v.isBuiltin with
    | false => rfl
    | true => simp [hv] at hnil
  · intro h
    exact ⟨by simp [render, h], fun i => by simp [hsymbols, h]⟩

instance (v : Variable) : Decidable v.Plain := decidable_of_iff _ Variable.plain_iff.symm

theorem Program.mem_headers {P : Program} {header : String} :
    header ∈ P.headers ↔ header ∈ P.symbols.filterMap Builtin.header? := by
  rw [headers, List.mem_mergeSort, List.mem_eraseDups]

namespace Expr

/-- The function and what is passed to it, in a call that stands for that of a block. -/
def entered? : Expr → Option (Variable × List Expr)
  | .call i (.var _ callee) args => if i = .unnumbered then some (callee, args) else none
  | _ => none

/-- The variables that occur, but for functions that are called in place of blocks. -/
def occurring (e : Expr) : List Variable := e.entered?.elim e.vars fun call => call.2.flatMap vars

theorem entered?_eq_none {e : Expr} (h : ∀ target args, e ≠ .call .unnumbered target args) : e.entered? = none := by
  unfold entered?
  split
  · split
    · next hi =>
        subst hi
        exact absurd rfl (h _ _)
    · rfl
  · rfl

theorem mem_vars_cases {e : Expr} {v : Variable} (hv : v ∈ e.vars) :
    v ∈ e.entered?.map Prod.fst ∨ v ∈ e.occurring := by
  cases hcall : e.entered? with
  | none =>
      rw [occurring, hcall]
      exact .inr hv
  | some call =>
      rw [occurring, hcall]
      unfold entered? at hcall
      split at hcall
      · split at hcall
        · cases hcall
          rw [vars_eq] at hv
          simpa [var?, children, vars_eq (.var _ _), eq_comm] using hv
        · cases hcall
      · cases hcall

end Expr

/-- The functions that the body calls in place of blocks. -/
def Function.callees (F : Function) : List Variable :=
  (Stmt.operandsOfAll F.body).filterMap (·.expr.entered?.map Prod.fst)

/-- All else that occurs in the body. -/
def Function.occurrences (F : Function) : List Variable := (Stmt.operandsOfAll F.body).flatMap (·.expr.occurring)

theorem Function.var_cases {F : Function} {v : Variable} (hv : v ∈ Stmt.vars F.body) :
    v ∈ F.callees ∨ v ∈ F.occurrences := by
  obtain ⟨o, ho, hv⟩ := Stmt.mem_vars_iff.1 hv
  rcases Expr.mem_vars_cases hv with hv | hv
  · exact .inl (List.mem_filterMap.2 ⟨o, ho, hv⟩)
  · exact .inr (List.mem_flatMap.2 ⟨o, ho, hv⟩)

def Declaration.occurrences (d : Declaration) : List Variable := d.initial.elim [] Expr.vars

/-- What an occurrence in a function is, by the scope in which the description was read: a variable of a chunk, as
such or as the parameter for it, an extern or else something of the library. -/
inductive Function.Stands (g : Graph) (P : Program) (F : Function) (v : Variable) : Prop
  | declared : v ∈ P.declarations.map (·.var) → v.chunk ≠ none → g.scope.find? v.name = some v → Stands g P F v
  | parameter (w : Variable) : v ∈ F.params.map (·.var) → v.chunk = none → w.chunk ≠ none →
      g.scope.find? v.name = some w → Stands g P F v
  | external : v ∈ g.externs.map (·.var) → v.chunk = none → g.scope.find? v.name = some v → Stands g P F v
  | library : v.isBuiltin = true → g.scope.find? v.name = none → Stands g P F v

/-- The text of a program goes by what the description's names stand for: only what is of the library goes through
the library's table, and the variables of chunks and the blocks that are called have the names that they were
declared with. -/
structure Program.SpelledAsRead (g : Graph) (P : Program) : Prop where
  library : ∀ F ∈ P.functions, ∀ v ∈ F.occurrences, ¬ v.Plain → g.scope.find? v.name = none
  declared : ∀ F ∈ P.functions, ∀ v ∈ F.occurrences, ∀ w ∈ g.scope.find? v.name, w.chunk ≠ none →
    v.Plain ∧ v.render = w.name
  initials : ∀ d ∈ P.declarations, ∀ v ∈ d.occurrences, ¬ v.Plain → g.externScope.find? v.name = none
  calls : ∀ F ∈ P.functions, ∀ v ∈ F.callees, v.Plain ∧ v.render ∈ P.functions.map (·.name)

/-- No parameter, extern or called function in the program has a name of the library. -/
structure Program.Unborrowed (g : Graph) (P : Program) : Prop where
  parameters : ∀ F ∈ P.functions, ∀ v ∈ F.occurrences, v ∈ F.params.map (·.var) → Builtin.isKnown v.name = false
  externs : ∀ F ∈ P.functions, ∀ v ∈ F.occurrences, v ∈ g.externs.map (·.var) → Builtin.isKnown v.name = false
  initials : ∀ d ∈ P.declarations, ∀ v ∈ d.occurrences, v ∈ g.externs.map (·.var) → Builtin.isKnown v.name = false
  calls : ∀ F ∈ P.functions, ∀ v ∈ F.callees, Builtin.isKnown v.name = false

namespace Variable

variable {v : Variable}

theorem plain_of_chunk (h : v.chunk ≠ none) : v.Plain := by
  obtain ⟨c, hc⟩ := Option.ne_none_iff_exists'.1 h
  exact plain_iff.2 (by simp [isBuiltin, hc])

theorem plain_iff_of_free (h : v.chunk = none) : v.Plain ↔ Builtin.isKnown v.name = false := by
  rw [plain_iff, isBuiltin, h, Option.isNone_none, Bool.true_and]

end Variable

namespace Graph.Prepared

variable {g : Graph} {bs : BlockSet} {p : Placement} {t : Trace} {ps : Parameters} {b : Block} {F : Function}
  {P : Program} {v : Variable}

theorem free_param (h : g.Prepared bs p t ps) (hb : b ∈ bs.toList) {q : Parameter} (hq : q ∈ ps.of b.name) :
    q.lifted.param.var.chunk = none := by
  obtain ⟨w, -, -, -, type, hparam⟩ := h.exists_visible hb hq
  rw [hparam]
  rfl

/-- The variables of chunks that are left in operands can be named. -/
theorem visible_of_operand (h : g.Prepared bs p t ps) (hb : b ∈ bs.toList) {o : Operand}
    (ho : o ∈ Stmt.operandsOfAll b.statements) (hv : v ∈ (o.expr.substitute ps.substitution).vars)
    (hsome : v.chunk ≠ none) : v ∈ g.chunks.flatMap Description.visible := by
  rcases h.var_cases_of_operand hb ho hv with ⟨hv, -⟩ | ⟨q, hq, rfl⟩
  · exact h.placed.declared hb hv hsome
  · exact absurd (h.free_param hb hq) hsome

theorem visible_of_argument (h : g.Prepared bs p t ps) (hb : b ∈ bs.toList) {f : String} {q : Parameter}
    (hq : q ∈ ps.of f) {a : Expr} (ha : q.argument t b.name (ps.of b.name) = .ok a) (hv : v ∈ a.vars)
    (hsome : v.chunk ≠ none) : v ∈ g.chunks.flatMap Description.visible := by
  rcases h.var_cases_of_argument hb hq ha hv with ⟨⟨c, hl⟩, -⟩ | ⟨q', hq', rfl⟩
  · obtain ⟨-, c, hc, hv⟩ := h.exists_mention hl.needed
    exact h.placed.declared hc hv hsome
  · exact absurd (h.free_param hb hq') hsome

theorem stands_of_sees (h : g.Prepared bs p t ps) (hn : g.Named) (hb : b ∈ bs.toList) (hF : F.Lowers g p t ps b)
    (hmem : F ∈ P.functions) (hsees : F.Sees g P v)
    (hvisible : v.chunk ≠ none → v ∈ g.chunks.flatMap Description.visible) : F.Stands g P v := by
  have hfind (hsome : v.chunk ≠ none) : g.scope.find? v.name = some v :=
    Description.Scope.find?_of_mem hn.names (List.mem_append_right _ (hvisible hsome))
  cases hsees with
  | global hsome hv =>
      obtain ⟨x, hx, rfl⟩ := List.mem_map.1 hv
      exact .declared (List.mem_map_of_mem (List.mem_append_left _ (List.mem_map_of_mem hx))) hsome (hfind hsome)
  | declared hsome hv =>
      obtain ⟨d, hd, rfl⟩ := List.mem_map.1 hv
      refine .declared (List.mem_map_of_mem (List.mem_append_right _ ?_)) hsome (hfind hsome)
      exact List.mem_flatMap.2 ⟨F, hmem, hd⟩
  | parameter hfree hv =>
      obtain ⟨d, hd, rfl⟩ := List.mem_map.1 hv
      obtain ⟨-, w, -, -, hsome, hw⟩ := h.find?_param hn hb hF hd
      exact .parameter w hv hfree hsome hw
  | free hfree hv =>
      obtain ⟨b', hb', hv⟩ := hv
      obtain ⟨s, s', hg⟩ := h.placed.graph
      rcases hn.free_cases hg.owned hb' hv hfree with ⟨hv, hw⟩ | ⟨hw, hv⟩
      · exact .external hv hfree hw
      · exact .library hv hw

end Graph.Prepared

namespace LowersTo

variable {d : Description} {p : Placement} {g : Graph} {bs : BlockSet} {P : Program} {F : Function} {v : Variable}

theorem stands (h : LowersTo d p g bs P) (hF : F ∈ P.functions) (hv : v ∈ F.occurrences) : F.Stands g P v := by
  obtain ⟨t, ps, b, hprep, hglobals, hb, hblock, hFb, -⟩ := h.exists_block hF
  obtain ⟨o, ho, hv⟩ := List.mem_flatMap.1 hv
  rcases hFb.operand_cases ho with ⟨o', ho', rfl⟩ | ⟨c, hc, args, hargs, rfl⟩
  · rw [Operand.map, Expr.occurring, Expr.entered?_eq_none (hprep.substitute_ne_call hb ho')] at hv
    exact hprep.stands_of_sees h.named hb hFb hF (hprep.sees_of_operand hglobals hb hblock hFb ho' v hv)
      (hprep.visible_of_operand hb ho' hv)
  · obtain ⟨a, ha, hv⟩ := List.mem_flatMap.1 hv
    obtain ⟨q, hq, ha⟩ := forall₂_mem_right hargs ha
    exact hprep.stands_of_sees h.named hb hFb hF (hprep.sees_of_argument hb hFb hq ha v hv)
      (hprep.visible_of_argument hb hq ha hv)

theorem callee_cases (h : LowersTo d p g bs P) (hF : F ∈ P.functions) (hv : v ∈ F.callees) :
    v.chunk = none ∧ v.name ∈ P.functions.map (·.name) := by
  obtain ⟨t, ps, b, hprep, -, hb, -, hFb, hcalls⟩ := h.exists_block hF
  obtain ⟨o, ho, hv⟩ := List.mem_filterMap.1 hv
  rcases hFb.operand_cases ho with ⟨o', ho', rfl⟩ | ⟨c, hc, args, hargs, rfl⟩
  · rw [Operand.map, Expr.entered?_eq_none (hprep.substitute_ne_call hb ho')] at hv
    cases hv
  · cases hv
    exact ⟨rfl, hcalls c hc⟩

theorem initial_cases (h : LowersTo d p g bs P) {x : Declaration} (hx : x ∈ P.declarations) (hv : v ∈ x.occurrences) :
    v ∈ g.externs.map (·.var) ∨ g.externScope.find? v.name = none := by
  obtain ⟨c, hc, hx⟩ := List.mem_flatMap.1 ((h.placed.wellScoped h.lowered).declared.mem_iff.1 hx)
  cases he : x.initial with
  | none =>
      rw [Declaration.occurrences, he] at hv
      cases hv
  | some e =>
      rw [Declaration.occurrences, he] at hv
      exact (h.named.initials c hc x hx e he v hv).cases.imp List.mem_of_find?_eq_some And.left

theorem plain_or_library (h : LowersTo d p g bs P) (hP : P.Unborrowed g) (hF : F ∈ P.functions)
    (hv : v ∈ F.occurrences) : v.Plain ∨ g.scope.find? v.name = none := by
  cases h.stands hF hv with
  | declared _ hsome _ => exact .inl (Variable.plain_of_chunk hsome)
  | parameter w hparam hfree _ _ => exact .inl ((Variable.plain_iff_of_free hfree).2 (hP.parameters F hF v hv hparam))
  | external hexternal hfree _ => exact .inl ((Variable.plain_iff_of_free hfree).2 (hP.externs F hF v hv hexternal))
  | library _ hnone => exact .inr hnone

theorem extern_free (h : LowersTo d p g bs P) (hv : v ∈ g.externs.map (·.var)) : v.chunk = none := by
  obtain ⟨e, he, rfl⟩ := List.mem_map.1 hv
  exact h.named.externs e he

theorem spelledAsRead_of_unborrowed (h : LowersTo d p g bs P) (hP : P.Unborrowed g) : P.SpelledAsRead g := by
  refine ⟨fun F hF v hv hplain => ?_, fun F hF v hv w hw hsome => ?_, fun x hx v hv hplain => ?_, fun F hF v hv => ?_⟩
  · exact (h.plain_or_library hP hF hv).resolve_left hplain
  · have hplain := (h.plain_or_library hP hF hv).resolve_right fun hnone => by simp [hnone] at hw
    have hname : w.name = v.name := by simpa using List.find?_some hw
    exact ⟨hplain, hplain.1.trans hname.symm⟩
  · rcases h.initial_cases hx hv with hexternal | hnone
    · exact absurd ((Variable.plain_iff_of_free (h.extern_free hexternal)).2 (hP.initials x hx v hv hexternal)) hplain
    · exact hnone
  · obtain ⟨hfree, hname⟩ := h.callee_cases hF hv
    have hplain := (Variable.plain_iff_of_free hfree).2 (hP.calls F hF v hv)
    exact ⟨hplain, hplain.1.symm ▸ hname⟩

theorem unborrowed_of_spelledAsRead (h : LowersTo d p g bs P) (hP : P.SpelledAsRead g) : P.Unborrowed g := by
  refine ⟨fun F hF v hv hparam => ?_, fun F hF v hv hexternal => ?_, fun x hx v hv hexternal => ?_, fun F hF v hv => ?_⟩
  · obtain ⟨t, ps, b, hprep, -, hb, -, hFb, -⟩ := h.exists_block hF
    obtain ⟨x, hx, rfl⟩ := List.mem_map.1 hparam
    -- its name was read as that of the variable that it is for
    obtain ⟨hfree, w, -, -, hsome, hw⟩ := hprep.find?_param h.named hb hFb hx
    exact (Variable.plain_iff_of_free hfree).1 (hP.declared F hF _ hv w hw hsome).1
  · have hfind := Description.Scope.find?_of_mem h.named.names (List.mem_append_left _ hexternal)
    refine (Variable.plain_iff_of_free (h.extern_free hexternal)).1 (Decidable.not_not.1 fun hplain => ?_)
    rw [hP.library F hF v hv hplain] at hfind
    cases hfind
  · refine (Variable.plain_iff_of_free (h.extern_free hexternal)).1 (Decidable.not_not.1 fun hplain => ?_)
    exact absurd (beq_self_eq_true v.name) (List.find?_eq_none.1 (hP.initials x hx v hv hplain) v hexternal)
  · exact (Variable.plain_iff_of_free (h.callee_cases hF hv).1).1 (hP.calls F hF v hv).1

theorem unborrowed_of_names (h : LowersTo d p g bs P) (hn : ∀ n ∈ g.names, Builtin.isKnown n = false) :
    P.Unborrowed g := by
  have hexternal {v : Variable} (hv : v ∈ g.externs.map (·.var)) : Builtin.isKnown v.name = false := by
    obtain ⟨e, he, rfl⟩ := List.mem_map.1 hv
    exact hn _ (List.mem_append_right _ (List.mem_map_of_mem he))
  refine ⟨fun F hF v hv hparam => ?_, fun F hF v hv => hexternal, fun x hx v hv => hexternal, fun F hF v hv => ?_⟩
  · obtain ⟨t, ps, b, hprep, -, hb, -, hFb, -⟩ := h.exists_block hF
    obtain ⟨x, hx, rfl⟩ := List.mem_map.1 hparam
    obtain ⟨-, w, hw, hname, -⟩ := hprep.find?_param h.named hb hFb hx
    have hknown := hn w.name (List.mem_append_left _ (List.mem_append_right _ (Graph.name_mem_of_visible hw)))
    rw [hname] at hknown
    exact hknown
  · exact hn _ (List.mem_append_left _ (List.mem_append_left _ (h.functions_subset (h.callee_cases hF hv).2)))

end LowersTo

/-- Whatever the random source, each variable in a body is a called function or stands for what its name was read as.
The text of the program goes by that if and only if no parameter, extern or called function has a name of the
library, and so it does if the description declares no such name. -/
theorem interpret_spelledAsRead_iff {σ : Type} [RandomSource σ] {d : Description} {s s' supply : Supply} {g : Graph}
    {source source' : σ} {P : Program} (hs : Supply.first.next ≤ s.next) (hd : d.toGraph s = .ok (g, s'))
    (hsupply : s'.next ≤ supply.next) (h : g.interpret supply source = .ok (P, source')) :
    (∀ F ∈ P.functions, ∀ v ∈ Stmt.vars F.body, v ∈ F.callees ∨ F.Stands g P v) ∧
      (P.SpelledAsRead g ↔ P.Unborrowed g) ∧
      ((∀ n ∈ g.names, Builtin.isKnown n = false) → P.SpelledAsRead g) := by
  obtain ⟨p, bs, hlowers⟩ := exists_lowersTo_of_interpret hs hd hsupply h
  refine ⟨fun F hF v hv => (Function.var_cases hv).imp_right (hlowers.stands hF), ?_, fun hn => ?_⟩
  · exact ⟨hlowers.unborrowed_of_spelledAsRead, hlowers.spelledAsRead_of_unborrowed⟩
  · exact hlowers.spelledAsRead_of_unborrowed (hlowers.unborrowed_of_names hn)

theorem interpret_spelledAsRead_sharing : ∃ g s P source, Description.sharing.toGraph .first = .ok (g, s) ∧
    g.interpret s (ChaCha.ofSeed 0) = .ok (P, source) ∧ (∀ n ∈ g.names, Builtin.isKnown n = false) ∧
    P.SpelledAsRead g := by
  have h : (do
      let r ← (Description.sharing.toGraph .first).toOption
      let r' ← (r.1.interpret r.2 (ChaCha.ofSeed 0)).toOption
      pure (decide (∀ n ∈ r.1.names, Builtin.isKnown n = false)) : Option Bool) = some true := by
    decide +kernel
  simp only [Option.bind_eq_bind, Option.bind_eq_some_iff, toOption_eq_some, Option.pure_def, Option.some.injEq,
    decide_eq_true_eq] at h
  obtain ⟨⟨g, s⟩, hg, ⟨P, source⟩, hP, hn⟩ := h
  exact ⟨g, s, P, source, hg, hP, hn, (interpret_spelledAsRead_iff (Nat.le_refl _) hg (Nat.le_refl _) hP).2.2 hn⟩

/-- A variable and a block with names of the library. -/
def Description.borrowing : Description where
  entry := "main"
  externs := []
  chunks := [⟨none, true, false, false, [⟨"null", "int", none⟩]⟩]
  blocks := [⟨"main", true, false, false, [.call "write", .call "write"]⟩,
    ⟨"write", true, false, false, [.expr (.var "null")]⟩]

/-- The parameter for the variable is spelled as something else, and headers are included for both. -/
theorem names_borrowed : ∃ g s P source, Description.borrowing.toGraph .first = .ok (g, s) ∧
    g.interpret s (ChaCha.ofSeed 0) = .ok (P, source) ∧ ["stddef.h", "unistd.h"] ⊆ P.headers ∧
    (∃ F ∈ P.functions, ∃ v ∈ F.occurrences, ∃ w ∈ g.scope.find? v.name, w.chunk ≠ none ∧ v.render ≠ w.name) ∧
    ∃ F ∈ P.functions, ∃ v ∈ F.callees, ¬ v.Plain := by
  have h : (do
      let r ← (Description.borrowing.toGraph .first).toOption
      let r' ← (r.1.interpret r.2 (ChaCha.ofSeed 0)).toOption
      pure (decide ((∀ header ∈ ["stddef.h", "unistd.h"], header ∈ r'.1.symbols.filterMap Builtin.header?) ∧
        (∃ F ∈ r'.1.functions, ∃ v ∈ F.occurrences, ∃ w ∈ r.1.scope.find? v.name,
          w.chunk ≠ none ∧ v.render ≠ w.name) ∧
        ∃ F ∈ r'.1.functions, ∃ v ∈ F.callees, ¬ v.Plain)) : Option Bool) = some true := by
    decide +kernel
  simp only [Option.bind_eq_bind, Option.bind_eq_some_iff, toOption_eq_some, Option.pure_def, Option.some.injEq,
    decide_eq_true_eq] at h
  obtain ⟨⟨g, s⟩, hg, ⟨P, source⟩, hP, hheaders, h⟩ := h
  exact ⟨g, s, P, source, hg, hP, fun header hmem => Program.mem_headers.2 (hheaders header hmem), h⟩

end Diversity
