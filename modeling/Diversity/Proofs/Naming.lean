import Diversity.Program.Render
import Diversity.Proofs.Addresses
import Diversity.Proofs.Consistency
import Diversity.Proofs.Scoping
/-! What the names in a description stand for, and that they keep standing for it in its program. -/
namespace Diversity

/-- The externs alone. Initial values see nothing else. -/
def Graph.externScope (g : Graph) : Description.Scope := ⟨g.externs.map (·.var)⟩

/-- What the blocks can name. -/
def Graph.scope (g : Graph) : Description.Scope :=
  ⟨g.externs.map (·.var) ++ g.chunks.flatMap Description.visible⟩

namespace Description

variable {scope : Scope} {v : Diversity.Variable} {part : Part}

/-- The variable is what its name stands for. -/
def Scope.Finds (scope : Scope) (v : Diversity.Variable) : Prop :=
  scope.find? v.name = some v ∨
    scope.find? v.name = none ∧ ∃ type, Builtin.type? v.name = some type ∧ v = .free v.name (some type)

theorem Scope.resolve_eq_ok_iff : scope.resolve part v.name = .ok v ↔ scope.Finds v := by
  unfold resolve Finds
  cases hf : scope.find? v.name with
  | some w => simp
  | none =>
      cases ht : Builtin.type? v.name with
      | none => simp
      | some type =>
          simp only [Except.ok.injEq, reduceCtorEq, Option.some.injEq, true_and, false_or, exists_eq_left']
          exact eq_comm

theorem Scope.Finds.cases (h : scope.Finds v) :
    scope.find? v.name = some v ∨ (scope.find? v.name = none ∧ v.isBuiltin = true) := by
  rcases h with h | ⟨hnone, type, htype, hfree⟩
  · exact .inl h
  · refine .inr ⟨hnone, ?_⟩
    obtain ⟨builtin, hbuiltin, -⟩ := Option.bind_eq_some_iff.1 htype
    rw [Variable.isBuiltin, hfree, Builtin.isKnown, Variable.free, hbuiltin]
    rfl

theorem Scope.find?_of_mem (hn : (scope.vars.map (·.name)).Nodup) (hv : v ∈ scope.vars) :
    scope.find? v.name = some v := by
  have hsome : (scope.find? v.name).isSome = true := List.find?_isSome.2 ⟨v, hv, beq_self_eq_true _⟩
  obtain ⟨w, hw⟩ := Option.isSome_iff_exists.1 hsome
  have hname : w.name = v.name := by simpa using List.find?_some hw
  rw [hw, List.inj_on_of_nodup_map hn (List.mem_of_find?_eq_some hw) hv hname]

theorem Term.finds_of_resolve {t : Term} {e : Expr} (h : t.resolve part scope = .ok e) :
    ∀ v ∈ e.vars, scope.Finds v := by
  intro v hv
  obtain ⟨n, hn, hv⟩ := List.mem_filterMap.1 hv
  obtain ⟨t', -, h⟩ := Term.exists_subterm h hn
  have hreads := Term.reads_of_resolve h
  cases n with
  | var i w =>
      cases hv
      cases t' with
      | var name =>
          obtain rfl := Scope.name_of_resolve hreads
          exact Scope.resolve_eq_ok_iff.1 hreads
      | _ => cases hreads
  | _ => cases hv

theorem Term.Denotes.finds {t : Term} {e : Expr} (h : t.Denotes scope e) : ∀ v ∈ e.vars, scope.Finds v := by
  obtain ⟨part, e', hr, hsame⟩ := h
  rw [← Expr.vars_anonymous, ← hsame, Expr.vars_anonymous]
  exact Term.finds_of_resolve hr

/-! ## Externs and initial values -/

theorem vars_of_resolveExterns {externs : List Extern} {declared : List Declaration}
    (h : resolveExterns externs = .ok (scope, declared)) : scope.vars = declared.map (·.var) := by
  refine foldlM_induction (P := fun acc : Scope × List Declaration => acc.1.vars = acc.2.map (·.var)) h rfl ?_
  rintro ⟨scope, declared⟩ e acc hvars h
  obtain ⟨type, -, h⟩ := bind_eq_ok.1 h
  obtain ⟨scope', hs, h⟩ := bind_eq_ok.1 h
  cases h
  dsimp only at hvars ⊢
  rw [(Scope.declare_eq_ok hs).2, hvars, List.map_append, List.map_singleton]

/-- The initial values of the chunk's variables satisfy `Q`. -/
def Initially (Q : Expr → Prop) (c : Diversity.Chunk) : Prop := ∀ d ∈ c.vars, ∀ e ∈ d.initial, Q e

variable {Q : Expr → Prop}

theorem initially_make {id : ChunkId} {name : Option String} {constraint : Diversity.Chunk.Constraint}
    {vars : List Declaration} (h : ∀ d ∈ vars, ∀ e ∈ d.initial, Q e) :
    Initially Q (.make id name constraint vars) := by
  intro d hd
  obtain ⟨d', hd', rfl⟩ := List.mem_map.1 hd
  exact h d' hd'

theorem initially_of_join {c : Diversity.Chunk} {joined joined' : List Diversity.Chunk}
    (h : join part c joined = .ok joined') (hc : Initially Q c) (hj : ∀ d ∈ joined, Initially Q d) :
    ∀ d ∈ joined', Initially Q d := by
  induction joined generalizing joined' with
  | nil =>
      cases h
      exact List.forall_mem_singleton.2 hc
  | cons d ds ih =>
      obtain ⟨hd, hds⟩ := List.forall_mem_cons.1 hj
      unfold join at h
      split at h
      · obtain ⟨m, hm, h⟩ := bind_eq_ok.1 h
        cases h
        obtain ⟨constraint, -, hm⟩ := bind_eq_ok.1 (mapError_eq_ok.1 hm)
        cases hm
        exact List.forall_mem_cons.2 ⟨initially_make (List.forall_mem_append.2 ⟨hd, hc⟩), hds⟩
      · obtain ⟨ds', hds', h⟩ := bind_eq_ok.1 h
        cases h
        exact List.forall_mem_cons.2 ⟨hd, ih hds' hds⟩

theorem initially_of_joinAll {cs : List Chunk} {joined joined' : List Diversity.Chunk} {s s' : Supply}
    (h : joinAll scope joined s cs = .ok (joined', s'))
    (hj : ∀ c ∈ joined, Initially (fun e => ∀ v ∈ e.vars, scope.Finds v) c) :
    ∀ c ∈ joined', Initially (fun e => ∀ v ∈ e.vars, scope.Finds v) c := by
  induction cs generalizing joined s with
  | nil =>
      cases h
      exact hj
  | cons c cs ih =>
      obtain ⟨chunk, hchunk, h⟩ := bind_eq_ok.1 h
      obtain ⟨constraint, -, hchunk⟩ := bind_eq_ok.1 hchunk
      obtain ⟨vars, hvars, hchunk⟩ := bind_eq_ok.1 hchunk
      cases hchunk
      obtain ⟨joined₁, h₁, h⟩ := bind_eq_ok.1 h
      refine ih h (initially_of_join h₁ (initially_make fun d hd e he => ?_) hj)
      obtain ⟨v, -, hv⟩ := forall₂_mem_right (mapM_eq_ok.1 hvars) hd
      obtain ⟨type, -, hv⟩ := bind_eq_ok.1 hv
      obtain ⟨initial, hinitial, hv⟩ := bind_eq_ok.1 hv
      cases hv
      cases hterm : v.initial with
      | none =>
          rw [hterm] at hinitial
          cases hinitial
          cases he
      | some term =>
          rw [hterm] at hinitial
          obtain ⟨e', he', hinitial⟩ := bind_eq_ok.1 hinitial
          cases hinitial
          cases he
          exact Term.finds_of_resolve he'

end Description

/-- Names in the graph stand for what its scopes say. -/
structure Graph.Named (g : Graph) : Prop where
  externs : ∀ d ∈ g.externs, d.var.chunk = none
  names : (g.scope.vars.map (·.name)).Nodup
  blocks : ∀ b ∈ g.blocks.toList, ∀ v ∈ b.vars, g.scope.Finds v
  initials : ∀ c ∈ g.chunks, ∀ d ∈ c.vars, ∀ e ∈ d.initial, ∀ v ∈ e.vars, g.externScope.Finds v

namespace Description

variable {d : Description} {s s' : Supply} {g : Graph}

/-- The scopes of the graph are those in which the description was resolved. -/
theorem scopes_of_toGraph (h : d.toGraph s = .ok (g, s')) :
    resolveExterns d.externs = .ok (g.externScope, g.externs) ∧ blockScope g.externScope g.chunks = .ok g.scope := by
  obtain ⟨scope, scope', s₁, hexterns, -, hscope, -⟩ := toGraph_eq_ok h
  obtain rfl : scope = g.externScope := congrArg Scope.mk (vars_of_resolveExterns hexterns)
  obtain rfl : scope' = g.scope := congrArg Scope.mk (blockScope_eq_ok hscope).1
  exact ⟨hexterns, hscope⟩

theorem named (h : d.toGraph s = .ok (g, s')) : g.Named := by
  obtain ⟨hexterns, hscope⟩ := scopes_of_toGraph h
  obtain ⟨scope, scope', s₁, hexterns', hchunks, hscope', -, hblocks, -⟩ := toGraph_eq_ok h
  cases hexterns.symm.trans hexterns'
  cases hscope.symm.trans hscope'
  obtain ⟨hfree, hnodup⟩ := resolveExterns_eq_ok hexterns
  obtain ⟨-, hall, -⟩ := resolveBlocks_eq_ok hblocks
  refine ⟨fun e he => hfree e.var (List.mem_map_of_mem he), (blockScope_eq_ok hscope).2 hnodup, fun b hb v hv => ?_, ?_⟩
  · obtain ⟨o, ho, hv⟩ := Stmt.mem_vars_iff.1 hv
    obtain ⟨t, -, ht⟩ := (hall b hb).1 o ho
    exact ht.finds v hv
  · obtain ⟨⟨joined, s₂⟩, hj, hchunks⟩ := bind_eq_ok.1 hchunks
    obtain ⟨_, -, hchunks⟩ := bind_eq_ok.1 hchunks
    cases hchunks
    exact initially_of_joinAll hj (List.forall_mem_nil _)

end Description

/-! ## Names in programs -/

theorem Graph.lower_externs {g : Graph} {bs : BlockSet} {p : Placement} {P : Program} (h : g.lower bs p = .ok P) :
    ∃ root t, bs.find? g.entry = some root ∧ Trace.ofBlock bs root true = .ok t ∧
      P.externs = distinctBy (·.name) (g.externs ++ t.externs.map (⟨·, none⟩)) := by
  unfold lower at h
  obtain ⟨root, hroot, h⟩ := bind_eq_ok.1 h
  obtain ⟨t, ht, h⟩ := bind_eq_ok.1 h
  obtain ⟨ps, -, h⟩ := bind_eq_ok.1 h
  obtain ⟨functions, -, h⟩ := bind_eq_ok.1 h
  cases h
  exact ⟨root, t, BlockSet.get_eq_ok.1 hroot, ht, rfl⟩

theorem Graph.name_mem_of_visible {g : Graph} {v : Variable} (hv : v ∈ g.chunks.flatMap Description.visible) :
    v.name ∈ g.chunks.flatMap (·.vars.map (·.name)) := by
  obtain ⟨c, hc, hv⟩ := List.mem_flatMap.1 hv
  obtain ⟨d, hd, rfl⟩ := List.mem_map.1 (List.mem_filter.1 hv).1
  exact List.mem_flatMap.2 ⟨c, hc, List.mem_map_of_mem hd⟩

namespace Graph.Named

variable {g : Graph} {v : Variable}

/-- What a block names outside all chunks is an extern, or else of the library. -/
theorem free_cases (h : g.Named) (howned : ∀ c ∈ g.chunks, c.Owned) {b : Block} (hb : b ∈ g.blocks.toList)
    (hv : v ∈ b.vars) (hfree : v.chunk = none) :
    (v ∈ g.externs.map (·.var) ∧ g.scope.find? v.name = some v) ∨
      (g.scope.find? v.name = none ∧ v.isBuiltin = true) := by
  refine (h.blocks b hb v hv).cases.imp_left fun hfind => ⟨?_, hfind⟩
  refine (List.mem_append.1 (List.mem_of_find?_eq_some hfind)).resolve_right fun hvisible => ?_
  obtain ⟨c, hc, hv⟩ := List.mem_flatMap.1 hvisible
  obtain ⟨d, hd, rfl⟩ := List.mem_map.1 (List.mem_filter.1 hv).1
  rw [howned c hc d hd] at hfree
  cases hfree

end Graph.Named

namespace Graph.Prepared

variable {g : Graph} {bs : BlockSet} {p : Placement} {t : Trace} {ps : Parameters} {b : Block} {F : Function}

/-- A parameter has the name of the variable that it is for, which blocks can name. -/
theorem exists_visible (h : g.Prepared bs p t ps) (hb : b ∈ bs.toList) {q : Parameter} (hq : q ∈ ps.of b.name) :
    ∃ v ∈ g.chunks.flatMap Description.visible, v.chunk ≠ none ∧ q.key = v.key ∧
      ∃ type, q.lifted.param = ⟨.free v.name (some type), none⟩ := by
  obtain ⟨-, v, hl⟩ := h.lifts_of_mem hb hq
  obtain ⟨us, type, -, -, hparam, -⟩ := Block.lift_eq_ok hl.lift
  obtain ⟨hsome, b', hb', hv⟩ := h.exists_mention hl.needed
  exact ⟨v, h.placed.declared hb' hv hsome, hsome, hl.key, type, hparam⟩

theorem find?_param (h : g.Prepared bs p t ps) (hn : g.Named) (hb : b ∈ bs.toList) (hF : F.Lowers g p t ps b)
    {d : Declaration} (hd : d ∈ F.params) :
    d.var.chunk = none ∧ ∃ v ∈ g.chunks.flatMap Description.visible, v.name = d.name ∧ v.chunk ≠ none ∧
      g.scope.find? d.name = some v := by
  rw [hF.params] at hd
  obtain ⟨q, hq, rfl⟩ := List.mem_map.1 hd
  obtain ⟨v, hv, hsome, -, type, hparam⟩ := h.exists_visible hb hq
  rw [hparam]
  exact ⟨rfl, v, hv, rfl, hsome, Description.Scope.find?_of_mem hn.names (List.mem_append_right _ hv)⟩

theorem nodup_params (h : g.Prepared bs p t ps) (hb : b ∈ bs.toList) (hF : F.Lowers g p t ps b) :
    (F.params.map (·.name)).Nodup := by
  have hkeys := Trace.nodup_keys h.parameters b.name
  rw [hF.params, List.map_map]
  refine List.Nodup.map_on (fun q hq q' hq' hname => ?_) hkeys.of_map
  obtain ⟨v, hv, -, hkey, type, hparam⟩ := h.exists_visible hb hq
  obtain ⟨v', hv', -, hkey', type', hparam'⟩ := h.exists_visible hb hq'
  obtain ⟨s, s', hg⟩ := h.placed.graph
  rw [Function.comp_apply, Function.comp_apply, hparam, hparam'] at hname
  obtain rfl : v = v' := List.inj_on_of_nodup_map hg.visibleNames hv hv' hname
  exact List.inj_on_of_nodup_map hkeys hq hq' (hkey.trans hkey'.symm)

end Graph.Prepared

namespace LowersTo

variable {d : Description} {p : Placement} {g : Graph} {bs : BlockSet} {P : Program}

theorem named (h : LowersTo d p g bs P) : g.Named := by
  obtain ⟨s, s', supply, supply', blocks, -, hg, -⟩ := h.spliced
  exact Description.named hg

/-- Each function comes from a block, and the blocks that it calls have become functions. -/
theorem exists_block (h : LowersTo d p g bs P) {F : Function} (hF : F ∈ P.functions) :
    ∃ t ps b, g.Prepared bs p t ps ∧ P.globals = g.globals p ∧ b ∈ bs.toList ∧ b.name ∈ t.blocks ∧
      F.Lowers g p t ps b ∧ ∀ c ∈ b.calls, c.2.name ∈ P.functions.map (·.name) := by
  obtain ⟨t, ps, hprep, hglobals, hP⟩ := Graph.lower_eq_ok h.lowered h.placed
  obtain ⟨f, hf, b, hb, hFb⟩ := forall₂_mem_right hP hF
  obtain rfl := BlockSet.name_of_find? hb
  have hb := BlockSet.mem_of_find? hb
  refine ⟨t, ps, b, hprep, hglobals, hb, hf, hFb, fun c hc => ?_⟩
  obtain ⟨root, -, ht⟩ := hprep.traced
  obtain ⟨w, hw, rfl⟩ := hprep.exists_visit hb hf
  obtain ⟨F', hF', b', hb', hFb'⟩ := forall₂_mem_left hP (Trace.mem_blocks_of_call ht hw hc)
  exact List.mem_map.2 ⟨F', hF', hFb'.name.trans (BlockSet.name_of_find? hb')⟩

theorem functions_subset (h : LowersTo d p g bs P) : P.functions.map (·.name) ⊆ g.blocks.names := by
  intro n hn
  obtain ⟨F, hF, rfl⟩ := List.mem_map.1 hn
  obtain ⟨t, ps, b, -, -, hb, -, hFb, -⟩ := h.exists_block hF
  obtain ⟨s, s', supply, supply', blocks, -, -, -, hin, hrep⟩ := h.spliced
  have hname : b.name ∈ bs.names := List.mem_map_of_mem hb
  rw [BlockSet.names_of_repaired hrep, BlockSet.names_of_inline hin, ← hFb.name] at hname
  exact List.filter_sublist.subset hname

/-- An extern that is not of the library is declared in the description. -/
theorem name_mem_externs (h : LowersTo d p g bs P) {e : Declaration} (he : e ∈ P.externs)
    (hb : e.var.isBuiltin = false) : e.name ∈ g.externs.map (·.name) := by
  obtain ⟨root, t, hroot, ht, hexterns⟩ := Graph.lower_externs h.lowered
  rw [hexterns] at he
  rcases List.mem_append.1 (mem_of_mem_distinctBy he) with he | he
  · exact List.mem_map_of_mem he
  · obtain ⟨v, hv, rfl⟩ := List.mem_map.1 he
    obtain ⟨w, hw, hv⟩ := List.mem_flatMap.1 (mem_of_mem_distinctBy hv)
    obtain ⟨hv, hfree⟩ := List.mem_filter.1 hv
    have hfind := ((Trace.mem_visits ht).1 hw).1.find? ((BlockSet.name_of_find? hroot).symm ▸ hroot)
    obtain ⟨b, hb', hvb⟩ := h.placed.mentioned _ (BlockSet.mem_of_find? hfind) v hv
    obtain ⟨s, s', hg⟩ := h.placed.graph
    rcases h.named.free_cases hg.owned hb' hvb (Option.isNone_iff_eq_none.1 hfree) with ⟨hv, -⟩ | ⟨-, hv⟩
    · obtain ⟨e', he', rfl⟩ := List.mem_map.1 hv
      exact List.mem_map.2 ⟨e', he', rfl⟩
    · rw [hv] at hb
      cases hb

theorem nodup_externs (h : LowersTo d p g bs P) : (P.externs.map (·.name)).Nodup := by
  obtain ⟨root, t, -, -, hexterns⟩ := Graph.lower_externs h.lowered
  rw [hexterns]
  exact nodup_map_distinctBy _ _

end LowersTo

end Diversity
