import Diversity.Proofs.Failure
import Diversity.Proofs.Parameters
import Diversity.Proofs.Refinement
import Diversity.Random.ChaCha
/-! Which errors an interpretation can end in. In a graph whose calls are of its own blocks nothing that is
looked up is missing: what can go wrong is that a block is spliced into itself, that a caller cannot supply
a parameter, or that a parameter has no type. -/
namespace Diversity

/-! ## Calls that resolve -/

namespace BlockSet

variable {bs : BlockSet} {b : Block}

theorem Tied.resolve (h : bs.Tied) (hb : b ∈ bs.toList) {c : NodeId × BlockRef} (hc : c ∈ b.calls) :
    ∃ d ∈ bs.toList, bs.resolve c.2 = .ok d := by
  obtain ⟨d, hd, hcd, hf⟩ := h.find? hb hc
  exact ⟨d, hd, resolve_eq_ok.2 ⟨hf, by simp [hcd, Block.ref]⟩⟩

theorem Tied.refs_subset (h : bs.Tied) (hb : b ∈ bs.toList) : Stmt.refs b.statements ⊆ bs.refs := by
  intro r hr
  obtain ⟨c, hc, rfl⟩ := List.mem_map.1 hr
  obtain ⟨d, hd, hcd, -⟩ := h.find? hb hc
  exact hcd ▸ List.mem_map_of_mem hd

theorem tied_of_repaired {blocks : List Block} (h : repaired blocks = .ok bs) : bs.Tied := by
  refine ⟨(repaired_eq_ok h).1, fun b hb c hc => ?_⟩
  obtain ⟨d, hd, hcd, -⟩ := resolve_of_repaired h hb hc
  simpa [refs, hcd] using ⟨d, hd, rfl⟩

theorem refs_mark (bs : BlockSet) : refs (.of (bs.toList.map DecoyPool.mark)) = bs.refs := by
  simp only [refs, toList_of, List.map_map]
  rfl

theorem Tied.mark (h : bs.Tied) : Tied (.of (bs.toList.map DecoyPool.mark)) := by
  refine ⟨?_, fun b hb c hc => ?_⟩
  · rw [← map_name_refs, refs_mark, map_name_refs]
    exact h.names
  · obtain ⟨d, hd, rfl⟩ := List.mem_map.1 hb
    rw [refs_mark]
    exact h.calls d hd c hc

theorem names_of_repaired {blocks : List Block} (h : repaired blocks = .ok bs) :
    bs.names = blocks.map (·.name) := by
  refine (map_eq_map_of_forall₂ (repaired_eq_ok h).2 ?_).symm
  rintro b b' ⟨body, rfl, -⟩
  rfl

end BlockSet

namespace Visit

variable {bs : BlockSet}

theorem below_ne_error (h : bs.Tied) {entered : List String} {v : Visit} (hv : v.block ∈ bs.toList)
    (e : SynthesisError) : v.below bs entered ≠ .error e := by
  induction entered, v using below.induct bs with
  | case1 entered v ih =>
    intro he
    rw [below, bind_eq_error] at he
    rcases he with he | ⟨_, _, he⟩
    · obtain ⟨⟨call, callee⟩, hc, he⟩ := mapM_eq_error he
      obtain ⟨d, hd, hr⟩ := h.resolve hv hc
      simp only at he
      split at he
      · cases he
      · next hn =>
        generalize hres : bs.resolve callee = r at he
        rw [hr] at hres
        subst hres
        rcases bind_eq_error.1 he with he | ⟨_, _, he⟩
        · exact ih call callee hn d hr hd he
        · cases he
    · cases he

end Visit

namespace Block

variable {bs : BlockSet}

theorem usagesBelow_ne_error (h : bs.Tied) {key : Option ChunkId × String} {entered : List String}
    {b : Block} (hb : b ∈ bs.toList) (e : SynthesisError) : b.usagesBelow bs key entered ≠ .error e := by
  induction entered, b using usagesBelow.induct bs with
  | case1 entered b ih =>
    intro he
    rw [usagesBelow, bind_eq_error] at he
    rcases he with he | ⟨_, _, he⟩
    · obtain ⟨⟨call, callee⟩, hc, he⟩ := mapM_eq_error he
      obtain ⟨d, hd, hr⟩ := h.resolve hb hc
      simp only at he
      split at he
      · cases he
      · next hn =>
        generalize hres : bs.resolve callee = r at he
        rw [hr] at hres
        subst hres
        exact ih callee hn d hr hd he
    · cases he

theorem pushCallees_ne_error (h : bs.Tied) {b : Block} (hb : b ∈ bs.toList) {goal : String}
    {calls : List (NodeId × BlockRef)} (hc : calls ⊆ b.calls) {seen : List String} {pending : List Block}
    (hp : pending ⊆ bs.toList) :
    (∀ e, pushCallees bs goal (calls.map (·.2)) seen pending ≠ .error e) ∧ ∀ seen' pending',
      pushCallees bs goal (calls.map (·.2)) seen pending = .ok (some (seen', pending')) → pending' ⊆ bs.toList := by
  induction calls generalizing seen pending with
  | nil =>
      refine ⟨nofun, fun seen' pending' he => ?_⟩
      cases he
      exact hp
  | cons c calls ih =>
      obtain ⟨hc, hcalls⟩ := List.cons_subset.1 hc
      obtain ⟨d, hd, hr⟩ := h.resolve hb hc
      simp only [List.map_cons, pushCallees, hr]
      split
      · exact ⟨nofun, nofun⟩
      · split
        · exact ih hcalls hp
        · exact ih hcalls (List.cons_subset.2 ⟨hd, hp⟩)

theorem callsBelow_ne_error (h : bs.Tied) {goal : String} {seen : List String} {pending : List Block}
    (hp : pending ⊆ bs.toList) (e : SynthesisError) : callsBelow bs goal seen pending ≠ .error e := by
  fun_induction callsBelow bs goal seen pending with
  | case1 => nofun
  | case2 seen b pending e' he =>
      obtain ⟨hb, hp⟩ := List.cons_subset.1 hp
      exact absurd he ((pushCallees_ne_error h hb (List.Subset.refl _) hp).1 e')
  | case3 => nofun
  | case4 seen b pending seen' pending' he ih =>
      obtain ⟨hb, hp⟩ := List.cons_subset.1 hp
      exact ih ((pushCallees_ne_error h hb (List.Subset.refl _) hp).2 _ _ he)

end Block

/-! ## Placing and splicing -/

/-- What is kept for certain is in the result. -/
theorem mem_of_filterM {ε σ α : Type} {f : α → StateT σ (Except ε) Bool} {as bs : List α} {s s' : σ}
    (h : as.filterM f s = .ok (bs, s')) {a : α} (ha : a ∈ as)
    (hf : ∀ s b s', f a s = .ok (b, s') → b = true) : a ∈ bs := by
  induction as generalizing bs s with
  | nil => cases ha
  | cons a' as ih =>
      obtain ⟨keep, s₁, rest, hkeep, hrest, rfl⟩ := filterM_cons_eq_ok.1 h
      rcases List.mem_cons.1 ha with rfl | ha
      · simp [hf _ _ _ hkeep]
      · cases keep <;> simp [ih hrest ha]

namespace Placement

variable {σ : Type} [RandomSource σ] {g : Graph} {p : Placement}

theorem drawFunc_ne_error (h : g.blocks.Tied) {b : Block} (hb : b ∈ g.blocks.toList) (source : σ)
    (e : SynthesisError) : drawFunc g b source ≠ .error e := by
  intro he
  unfold drawFunc at he
  split at he
  · cases he
  · split at he
    · cases he
    · rcases run_bind_eq_error.1 he with he | ⟨itself, _, -, he⟩
      · refine Block.callsBelow_ne_error h ?_ e (run_liftM_eq_error he)
        simpa using hb
      · cases itself <;> cases he

theorem draw_ne_error (h : g.blocks.Tied) (hentry : g.entry ∈ g.blocks.names) (source : σ) (e : SynthesisError) :
    draw g source ≠ .error e := by
  intro he
  unfold draw at he
  rcases run_bind_eq_error.1 he with he | ⟨_, _, -, he⟩
  · have he := run_liftM_eq_error he
    unfold Graph.root at he
    split at he
    · cases he
    · next hf => exact BlockSet.find?_eq_none.1 hf hentry
  · rcases run_bind_eq_error.1 he with he | ⟨_, _, -, he⟩
    · obtain ⟨b, hb, source', he⟩ := exists_fails_of_filterM (fails_iff_run.2 he)
      exact drawFunc_ne_error h hb source' e he
    · rcases run_bind_eq_error.1 he with he | ⟨_, _, -, he⟩
      · obtain ⟨c, -, _, he⟩ := exists_fails_of_filterM (fails_iff_run.2 he)
        cases he
      · cases he

/-- The entry is a function, and every block is a function or spliced in. -/
structure Covers (p : Placement) (g : Graph) : Prop where
  entry : p.isFunc g.entry = true
  blocks : ∀ n ∈ g.blocks.names, p.isFunc n = true ∨ p.isInline n = true

theorem draw_eq_ok {source source' : σ} : draw g source = .ok (p, source') ↔ ∃ root funcs locals source₁,
    g.root = .ok root ∧ g.blocks.toList.filterM (drawFunc g) source = .ok (funcs, source₁) ∧
    (g.chunks.filterM fun c => (modifyGet (drawLocal c) : StateT σ (Except SynthesisError) Bool)) source₁ =
      .ok (locals, source') ∧
    p = ⟨funcs.map (·.name), g.blocks.names.filter (!(funcs.map (·.name)).contains ·), locals.map (·.id)⟩ := by
  unfold draw
  constructor
  · intro h
    obtain ⟨root, _, hlift, h⟩ := run_bind_eq_ok.1 h
    obtain ⟨funcs, source₁, hfuncs, h⟩ := run_bind_eq_ok.1 h
    obtain ⟨locals, _, hlocals, h⟩ := run_bind_eq_ok.1 h
    cases h
    obtain ⟨hroot, rfl⟩ := run_liftM_eq_ok hlift
    exact ⟨root, funcs, locals, source₁, hroot, hfuncs, hlocals, rfl⟩
  · rintro ⟨root, funcs, locals, source₁, hroot, hfuncs, hlocals, rfl⟩
    refine run_bind_eq_ok.2 ⟨root, source, by rw [hroot]; rfl, ?_⟩
    exact run_bind_eq_ok.2 ⟨funcs, source₁, hfuncs, run_bind_eq_ok.2 ⟨locals, source', hlocals, rfl⟩⟩

theorem covers_of_draw (hentry : g.entry ∈ g.blocks.names) {source source' : σ}
    (h : draw g source = .ok (p, source')) : p.Covers g := by
  obtain ⟨_, funcs, _, _, -, hfuncs, -, rfl⟩ := draw_eq_ok.1 h
  constructor
  · obtain ⟨b, hb, hname⟩ := List.mem_map.1 hentry
    have hmem : b ∈ funcs := mem_of_filterM hfuncs hb fun s r s' hr => by
      rw [drawFunc, if_pos (Or.inl hname)] at hr
      cases hr
      rfl
    simpa [isFunc] using ⟨b, hmem, hname⟩
  · intro n hn
    by_cases hf : n ∈ funcs.map (·.name)
    · exact Or.inl (by simpa [isFunc] using hf)
    · exact Or.inr (by simpa [isInline, hn] using hf)

/-- Splicing fails at a block that is being spliced in already. The calls that lead to it are of blocks that are
not functions. -/
theorem expand_eq_error {bs : BlockSet} (h : bs.Tied)
    (hp : ∀ n ∈ bs.names, p.isFunc n = true ∨ p.isInline n = true) {entered : List String} {body : List Stmt}
    (hbody : Stmt.refs body ⊆ bs.refs) {s : Supply} {e : SynthesisError}
    (he : p.expand bs entered body s = .error e) : ∃ callee ∈ Stmt.refs body, ∃ b, bs.resolve callee = .ok b ∧
      ∃ q d, Walk bs b q d ∧ (∀ n ∈ b.name :: q.entered, p.isFunc n = false) ∧
      ¬ (b.name ∉ entered ∧ q.Fresh (b.name :: entered)) ∧ e = .recursiveInline d.name := by
  induction entered, body using expand.induct bs generalizing s with
  | case1 entered body ih =>
    rw [expand] at he
    obtain ⟨⟨i, callee⟩, hc, s', he⟩ := Stmt.exists_call_of_fails body (fails_iff_run.2 he)
    obtain ⟨b, hb, hbc⟩ := List.mem_map.1 (hbody (List.mem_map_of_mem hc))
    have hname : b.name = callee.name := congrArg BlockRef.name hbc
    have hf : bs.find? callee.name = some b := hname ▸ BlockSet.find?_name h.names hb
    have hr : bs.resolve callee = .ok b := BlockSet.resolve_eq_ok.2 ⟨hf, congrArg BlockRef.id hbc⟩
    refine ⟨callee, List.mem_map_of_mem hc, b, hr, ?_⟩
    rw [fails_iff_run] at he
    simp only at he
    split at he
    · cases he
    · next hfunc =>
      rw [Bool.not_eq_true, ← hname] at hfunc
      split at he
      · next hinline =>
        rcases hp _ (BlockSet.mem_names_of_find? hf) with hn | hn
        · rw [hname, hn] at hfunc
          cases hfunc
        · simp [hn] at hinline
      · split at he
        · next hn =>
          cases he
          exact ⟨[], b, .nil, List.forall_mem_singleton.2 hfunc, fun hnot => hnot.1 (hname ▸ hn), hname ▸ rfl⟩
        · next hn =>
          generalize hres : bs.resolve callee = r at he
          rw [hr] at hres
          subst hres
          rcases run_bind_eq_error.1 he with he | ⟨copy, s₁, hcopy, he⟩
          · cases he
          · rcases run_bind_eq_error.1 he with he | ⟨_, _, -, he⟩
            · have hrefs := Stmt.refs_of_refreshAll (Except.ok.inj hcopy)
              obtain ⟨callee', href, b', hr', q, d, hwalk, hfuncs, hfresh, he⟩ :=
                ih callee hn b hr copy (hrefs ▸ h.refs_subset hb) he
              rw [hrefs] at href
              obtain ⟨⟨call, _⟩, hcall, rfl⟩ := List.mem_map.1 href
              refine ⟨⟨call, b'.name⟩ :: q, d, .cons hcall hr' hwalk, List.forall_mem_cons.2 ⟨hfunc, hfuncs⟩, ?_, he⟩
              exact fun hnot => hfresh (CallPath.fresh_cons.1 hnot.2)
            · cases he

theorem inline_eq_error {bs : BlockSet} (h : bs.Tied)
    (hp : ∀ n ∈ bs.names, p.isFunc n = true ∨ p.isInline n = true) {s : Supply} {e : SynthesisError}
    (he : p.inline bs s = .error e) : ∃ b ∈ bs.toList, p.isFunc b.name = true ∧ ∃ q d, Walk bs b q d ∧
      (∀ n ∈ q.entered, p.isFunc n = false) ∧ ¬ q.entered.Nodup ∧ e = .recursiveInline d.name := by
  obtain ⟨b, hb, s', he⟩ := exists_fails_of_mapM (fails_iff_run.2 he)
  obtain ⟨hb, hfunc⟩ := List.mem_filter.1 hb
  refine ⟨b, hb, hfunc, ?_⟩
  rcases run_bind_eq_error.1 (fails_iff_run.1 he) with he | ⟨_, _, -, he⟩
  · obtain ⟨callee, href, c, hr, q, d, hwalk, hfuncs, hfresh, he⟩ := expand_eq_error h hp (h.refs_subset hb) he
    obtain ⟨⟨call, _⟩, hcall, rfl⟩ := List.mem_map.1 href
    refine ⟨⟨call, c.name⟩ :: q, d, .cons hcall hr hwalk, hfuncs, fun hn => hfresh ?_, he⟩
    have hnew : CallPath.Fresh [] (⟨call, c.name⟩ :: q) := ⟨hn, fun _ _ => List.not_mem_nil⟩
    exact CallPath.fresh_cons.1 hnew
  · cases he

end Placement

/-! ## Lifting -/

namespace Capture

variable {c d : Capture} {k : Option (Option ChunkId × String)}

theorem Along.key {v : Variable} {r p : ℤ} (h : Along v c r p) : c.key = some v.key := by
  induction h with
  | base => rfl
  | ref _ ih | assigned _ ih | deref _ ih | index _ _ ih => exact ih

theorem key_absorb {inner joined : Capture} (hc : c.key = k) (hj : joined.key = k) :
    (absorb c inner joined).key = k := by
  unfold absorb
  split
  · exact hc
  · exact hj

theorem key_join (hc : c.key = k) (hd : d.key = k) : (c.join d).key = k := by
  fun_induction join c d with
  | case1 a b ih | case2 a b ih | case3 a b ih | case4 a b ih | case11 a b ih | case13 a i b j _ ih
  | case14 a b _ ih | case15 a _ b ih | case12 a i b j _ ih => exact ih hc hd
  | case5 a d _ _ ih | case6 a d _ _ ih => exact key_absorb hc (ih hc hd)
  | case7 c b _ _ ih | case8 c b _ _ ih => exact key_absorb hd (ih hd hc)
  | case9 => exact hc
  | case10 => exact hd

theorem joinUsages_ne_error {name block : String} {us : List Usage} (hne : us ≠ [])
    (hus : ∀ u ∈ us, u.capture.key = k) (e : SynthesisError) : joinUsages name block us ≠ .error e := by
  have hfold (us : List Usage) (c : Capture) (hc : c.key = k) (hus : ∀ u ∈ us, u.capture.key = k) :
      us.foldlM (fun c u => c.maximal u.capture) c ≠ .error e := by
    induction us generalizing c with
    | nil => nofun
    | cons u us ih =>
        obtain ⟨hu, hus⟩ := List.forall_mem_cons.1 hus
        have hm : c.maximal u.capture = .ok (c.join u.capture) := if_pos (hc.trans hu.symm)
        rw [List.foldlM_cons, hm]
        exact ih _ (key_join hc hu) hus
  cases us with
  | nil => exact absurd rfl hne
  | cons u us =>
      obtain ⟨hu, hus⟩ := List.forall_mem_cons.1 hus
      exact hfold us u.capture hu hus

theorem paramType_eq_error {e : SynthesisError} (h : c.paramType = .error e) :
    ∃ name fault, e = .parameterType name fault := by
  induction c with
  | base x =>
      unfold paramType at h
      split at h
      · cases h
        exact ⟨_, _, rfl⟩
      · split at h
        · cases h
          exact ⟨_, _, rfl⟩
        · cases h
  | ref inner ih | assigned inner ih =>
      rcases bind_eq_error.1 h with h | ⟨_, _, h⟩
      · exact ih h
      · cases h
  | deref inner ih | index inner position ih =>
      rcases bind_eq_error.1 h with h | ⟨type, _, h⟩
      · exact ih h
      · cases hp : type.pointee <;> rw [hp] at h <;> cases h
        exact ⟨_, _, rfl⟩

end Capture

namespace Expr

/-- A variable that occurs is used. -/
theorem exists_usage_of_vars {e : Expr} {v : Variable} (hv : v ∈ e.vars) : ∃ u, u ∈ e.usages v.key := by
  induction e using parts_induction with
  | step e ih =>
      rw [usages_eq, usageOr]
      split
      · exact ⟨_, List.mem_singleton_self _⟩
      · next hnone =>
        rw [vars_eq, List.mem_append, List.mem_flatMap] at hv
        rcases hv with hv | ⟨c, hc, hv⟩
        · cases e with
          | var i w =>
              obtain rfl : v = w := by simpa [var?] using hv
              simp [capture?] at hnone
          | _ => cases hv
        · obtain ⟨u, hu⟩ := ih c hc hv
          exact ⟨u, List.mem_flatMap.2 ⟨c, hc, hu⟩⟩

end Expr

theorem Operand.exists_usage_of_vars {o : Operand} {v : Variable} (hv : v ∈ o.expr.vars) :
    ∃ u, u ∈ o.usages v.key := by
  obtain ⟨e, isTarget⟩ := o
  cases isTarget with
  | false => exact Expr.exists_usage_of_vars hv
  | true =>
      simp only [Operand.usages, ↓reduceIte]
      cases e with
      | var i w =>
          obtain rfl : v = w := by simpa [Expr.vars, Expr.nodes, Expr.var?] using hv
          simp [Expr.usagesAssigned]
      | _ =>
          rw [Expr.vars_eq, List.mem_append, List.mem_flatMap] at hv
          obtain ⟨c, hc, hv⟩ := hv.resolve_left (by simp [Expr.var?])
          obtain ⟨u, hu⟩ := Expr.exists_usage_of_vars hv
          rw [Expr.usagesAssigned, Expr.usagesOfAll_eq]
          · exact ⟨u, List.mem_flatMap.2 ⟨c, hc, hu⟩⟩
          · intro i w he
            cases he

theorem Block.exists_usage_of_vars {b : Block} {v : Variable} (hv : v ∈ b.vars) : ∃ u, u ∈ b.usages v.key := by
  obtain ⟨o, ho, hv⟩ := Stmt.mem_vars_iff.1 hv
  obtain ⟨u, hu⟩ := o.exists_usage_of_vars hv
  rw [Block.usages, Stmt.usagesOfAll_eq]
  exact ⟨u, List.mem_flatMap.2 ⟨o, ho, hu⟩⟩

theorem Block.key_of_usages {b : Block} {key : Option ChunkId × String} {u : Usage} (hu : u ∈ b.usages key) :
    u.capture.key = some key := by
  rw [Block.usages, Stmt.usagesOfAll_eq] at hu
  obtain ⟨o, -, hu⟩ := List.mem_flatMap.1 hu
  obtain ⟨n, -, -, v, k, p, rfl, -, huv⟩ := Operand.exists_node_of_usages hu
  exact huv.key

theorem Block.lift_eq_error {bs : BlockSet} (h : bs.Tied) {b c : Block} (hb : b ∈ bs.toList) {v : Variable}
    {q : CallPath} (hwalk : Walk bs b q c) (hfresh : q.Fresh [b.name]) (hv : v ∈ c.vars) {e : SynthesisError}
    (he : b.lift bs v = .error e) : ∃ name fault, e = .parameterType name fault := by
  unfold lift at he
  rcases bind_eq_error.1 he with he | ⟨us, hus, he⟩
  · exact absurd he (usagesBelow_ne_error h hb e)
  · rcases bind_eq_error.1 he with he | ⟨maximal, -, he⟩
    · refine absurd he (Capture.joinUsages_ne_error (k := some v.key) ?_ ?_ e)
      · obtain ⟨u, hu⟩ := exists_usage_of_vars hv
        exact List.ne_nil_of_mem ((mem_usagesBelow hus).2 ⟨q, c, hwalk, hfresh, hu⟩)
      · intro u hu
        obtain ⟨_, _, _, _, hu⟩ := (mem_usagesBelow hus).1 hu
        exact key_of_usages hu
    · rcases bind_eq_error.1 he with he | ⟨_, _, he⟩
      · exact Capture.paramType_eq_error he
      · cases he

/-! ## Lowering -/

namespace Trace

variable {bs : BlockSet} {root : Block} {t : Trace} {p : Placement} {e : SynthesisError}

theorem parameters_eq_error (h : bs.Tied) (hroot : bs.find? root.name = some root)
    (ht : ofBlock bs root true = .ok t) (he : t.parameters bs p = .error e) :
    ∃ name fault, e = .parameterType name fault := by
  obtain ⟨f, hf, he⟩ := mapM_eq_error he
  rcases bind_eq_error.1 he with he | ⟨_, _, he⟩
  · unfold parametersOf at he
    rcases bind_eq_error.1 he with he | ⟨b, hb, he⟩
    · obtain ⟨w, hw, rfl⟩ := mem_blocks.1 hf
      have hfind := ((mem_visits ht).1 hw).1.find? hroot
      rw [BlockSet.get, hfind] at he
      cases he
    · obtain ⟨v, hv, he⟩ := mapM_eq_error he
      obtain ⟨b', q, c, hb', hwalk, hfresh, hvc⟩ := exists_mention_below ht hroot (List.mem_filter.1 hv).1
      obtain rfl := Option.some.inj (hb'.symm.trans (BlockSet.get_eq_ok.1 hb))
      rcases bind_eq_error.1 he with he | ⟨_, _, he⟩
      · rw [← BlockSet.name_of_find? hb'] at hfresh
        exact Block.lift_eq_error h (BlockSet.mem_of_find? hb') hwalk hfresh hvc he
      · cases he
  · cases he

end Trace

theorem callFunction_eq_error {t : Trace} {ps : Parameters} {caller : String} {callee : BlockRef}
    {e : SynthesisError} (he : callFunction t ps caller callee = .error e) :
    ∃ q ∈ ps.of callee.name, (ps.of caller).find? (·.key = q.key) = none ∧
      t.declares caller q.key = false ∧ e = .unresolvedArgument caller q.key.2 := by
  unfold callFunction at he
  rcases bind_eq_error.1 he with he | ⟨_, _, he⟩
  · obtain ⟨q, hq, he⟩ := mapM_eq_error he
    unfold Parameter.argument at he
    split at he
    · cases he
    · next hfind =>
      split at he
      · cases he
      · next hdeclares =>
        cases he
        exact ⟨q, hq, hfind, by simpa using hdeclares, rfl⟩
  · cases he

namespace Graph

variable {g : Graph} {p : Placement} {e : SynthesisError}

theorem lowerBlock_eq_error {t : Trace} {ps : Parameters} {b : Block} (he : g.lowerBlock p t ps b = .error e) :
    ∃ c ∈ b.calls, callFunction t ps b.name c.2 = .error e := by
  unfold lowerBlock at he
  rcases bind_eq_error.1 he with he | ⟨_, _, he⟩
  · obtain ⟨c, hc, _, he⟩ := Stmt.exists_call_of_fails (s := ()) _ (fails_iff_error.2 he)
    rw [Stmt.calls_mapExprs] at hc
    rcases bind_eq_error.1 (fails_iff_error.1 he) with he | ⟨_, _, he⟩
    · exact ⟨c, hc, he⟩
    · cases he
  · cases he

/-- A program fails to be lowered for want of a parameter's type, or because a caller has neither a
parameter for a variable that its callee takes nor the variable's declaration. -/
theorem lower_eq_error {bs : BlockSet} (h : bs.Tied) (hentry : g.entry ∈ bs.names) (he : g.lower bs p = .error e) :
    (∃ name fault, e = .parameterType name fault) ∨ ∃ root t ps, bs.find? g.entry = some root ∧
      Trace.ofBlock bs root true = .ok t ∧ t.parameters bs p = .ok ps ∧ ∃ w ∈ t.visits, ∃ c ∈ w.block.calls,
        callFunction t ps w.block.name c.2 = .error e := by
  unfold lower at he
  rcases bind_eq_error.1 he with he | ⟨root, hroot, he⟩
  · unfold BlockSet.get at he
    split at he
    · cases he
    · next hf => exact absurd hentry (BlockSet.find?_eq_none.1 hf)
  · rw [BlockSet.get_eq_ok] at hroot
    have hroot' : bs.find? root.name = some root := (BlockSet.name_of_find? hroot).symm ▸ hroot
    rcases bind_eq_error.1 he with he | ⟨t, ht, he⟩
    · rcases bind_eq_error.1 he with he | ⟨_, _, he⟩
      · exact absurd he (Visit.below_ne_error h (BlockSet.mem_of_find? hroot) e)
      · cases he
    · rcases bind_eq_error.1 he with he | ⟨ps, hps, he⟩
      · exact Or.inl (Trace.parameters_eq_error h hroot' ht he)
      · rcases bind_eq_error.1 he with he | ⟨_, _, he⟩
        · obtain ⟨f, hf, he⟩ := mapM_eq_error he
          obtain ⟨w, hw, rfl⟩ := Trace.mem_blocks.1 hf
          have hfind := ((Trace.mem_visits ht).1 hw).1.find? hroot'
          rcases bind_eq_error.1 he with he | ⟨b, hb, he⟩
          · rw [BlockSet.get, hfind] at he
            cases he
          · obtain rfl := Option.some.inj (hfind.symm.trans (BlockSet.get_eq_ok.1 hb))
            obtain ⟨c, hc, he⟩ := lowerBlock_eq_error he
            exact Or.inr ⟨root, t, ps, hroot, ht, hps, w, hw, c, hc, he⟩
        · cases he

/-- An interpretation fails at splicing, with a block that is spliced into itself, or at lowering. -/
theorem interpret_error_cases (htied : g.blocks.Tied) (hentry : g.entry ∈ g.blocks.names) {σ : Type}
    [RandomSource σ] {supply : Supply} {source : σ} (he : g.interpret supply source = .error e) :
    (∃ block, e = .recursiveInline block) ∨ ∃ p source' blocks supply' bs, Placement.draw g source = .ok (p, source') ∧
      p.inline g.blocks supply = .ok (blocks, supply') ∧ BlockSet.repaired blocks = .ok bs ∧ g.entry ∈ bs.names ∧
      g.lower bs p = .error e := by
  rcases run_bind_eq_error.1 he with he | ⟨_, _, _, he⟩
  swap
  · cases he
  unfold interpretFrom at he
  rcases run_bind_eq_error.1 he with he | ⟨p, _, hp, he⟩
  · exact absurd he (Placement.draw_ne_error htied hentry source e)
  have hcovers := Placement.covers_of_draw hentry hp
  rcases run_bind_eq_error.1 he with he | ⟨⟨blocks, supply'⟩, _, hin, he⟩
  · obtain ⟨_, -, -, _, d, -, -, -, he⟩ := Placement.inline_eq_error htied hcovers.blocks (run_liftM_eq_error he)
    exact Or.inl ⟨d.name, he⟩
  obtain ⟨hin, -⟩ := run_liftM_eq_ok hin
  rcases run_bind_eq_error.1 he with he | ⟨bs, _, hrep, he⟩
  · obtain ⟨bs, hbs⟩ := htied.linked.exists_repaired hin
    have := run_liftM_eq_error he
    rw [hbs] at this
    cases this
  obtain ⟨hrep, -⟩ := run_liftM_eq_ok hrep
  rcases run_bind_eq_error.1 he with he | ⟨_, _, _, he⟩
  swap
  · cases he
  refine Or.inr ⟨p, _, blocks, supply', bs, hp, hin, hrep, ?_, run_liftM_eq_error he⟩
  rw [BlockSet.names_of_repaired hrep, BlockSet.names_of_inline hin, List.mem_filter]
  exact ⟨hentry, hcovers.entry⟩

/-- The graphs that descriptions stand for, with or without decoys, which are taken from descriptions too. -/
inductive Assembled : Graph → Prop
  | compiled {d : Description} {s s' g} : d.toGraph s = .ok (g, s') → Assembled g
  | decoyed {σ : Type} [RandomSource σ] {g assets chance names supply} {source : σ} {i : Injection σ} :
      Assembled g → (∀ asset ∈ assets, ∃ (d : Description) (s s' : Supply), d.toGraph s = .ok (asset, s')) →
      g.withDecoys (.ofGraphs assets) chance names supply source = .ok i → Assembled i.graph

theorem Compiled.tied {s s' : Supply} (h : g.Compiled s s') : g.blocks.Tied := by
  refine ⟨h.names, fun b hb c hc => ?_⟩
  obtain ⟨d, hd, hcd⟩ := h.linked b hb c hc
  simpa [BlockSet.refs, hcd] using ⟨d, hd, rfl⟩

theorem Assembled.tied (h : g.Assembled) : g.blocks.Tied ∧ g.entry ∈ g.blocks.names := by
  induction h with
  | compiled h => exact ⟨(Description.compiled h).tied, (Description.compiled h).entry⟩
  | decoyed _ hassets h ih =>
      refine linkedBy_withDecoys h (fun asset hasset => ?_) ih.1 ih.2
      obtain ⟨a, ha, rfl⟩ := List.mem_map.1 hasset
      obtain ⟨d, s, s', hd⟩ := hassets a ha
      exact (Description.compiled hd).tied.mark.agrees

/-- An interpretation fails in three ways only, whatever the random source. -/
theorem Assembled.interpret_eq_error (hg : g.Assembled) {σ : Type} [RandomSource σ] {supply : Supply} {source : σ}
    (he : g.interpret supply source = .error e) : (∃ block, e = .recursiveInline block) ∨
      (∃ block v, e = .unresolvedArgument block v) ∨ ∃ v fault, e = .parameterType v fault := by
  obtain ⟨htied, hentry⟩ := hg.tied
  rcases interpret_error_cases htied hentry he with he | ⟨p, _, blocks, s', bs, -, -, hrep, hentry', he⟩
  · exact Or.inl he
  · rcases lower_eq_error (BlockSet.tied_of_repaired hrep) hentry' he with he | ⟨_, t, ps, -, -, -, w, -, c, -, he⟩
    · exact Or.inr (Or.inr he)
    · obtain ⟨q, -, -, -, rfl⟩ := callFunction_eq_error he
      exact Or.inr (Or.inl ⟨_, _, rfl⟩)

end Graph

/-- Two functions that call each other and are entered twice. The path on which the second one could get the
variable from the first one is cut short, since it comes back to the first one. -/
def Description.recurring : Description where
  entry := "main"
  externs := []
  chunks := [⟨none, true, false, false, [⟨"x", "int", none⟩]⟩]
  blocks := [
    ⟨"main", true, false, false, [.call "walk", .call "walk"]⟩,
    ⟨"walk", true, false, false, [.assign (.var "x") (.value "1"), .call "helper"]⟩,
    ⟨"helper", true, false, false, [.call "walk"]⟩]

/-- A decoy that does nothing. -/
def Description.idling : Description where
  entry := "idle"
  externs := []
  chunks := []
  blocks := [⟨"idle", false, false, false, [.expr (.value "0")]⟩]

theorem interpret_eq_error_recurring : ∃ g s asset s' i e, Description.recurring.toGraph .first = .ok (g, s) ∧
    Description.idling.toGraph s = .ok (asset, s') ∧
    g.withDecoys (.ofGraphs [asset]) .always (.reserveAll .empty g.names) s' (ChaCha.ofSeed 0) = .ok i ∧
    i.graph.interpret i.supply i.source = .error e ∧ ((∃ block, e = .recursiveInline block) ∨
      (∃ block v, e = .unresolvedArgument block v) ∨ ∃ v fault, e = .parameterType v fault) := by
  have h : (do
      let r ← (Description.recurring.toGraph .first).toOption
      let a ← (Description.idling.toGraph r.2).toOption
      let i ← (r.1.withDecoys (.ofGraphs [a.1]) .always (.reserveAll .empty r.1.names) a.2 (ChaCha.ofSeed 0)).toOption
      guard (!(i.graph.interpret i.supply i.source).isOk) : Option Unit).isSome = true := by
    decide +kernel
  simp only [Option.isSome_iff_exists, Option.bind_eq_bind, Option.bind_eq_some_iff, toOption_eq_some] at h
  obtain ⟨_, ⟨g, s⟩, hg, ⟨asset, s'⟩, hasset, i, hi, h⟩ := h
  have hassembled : i.graph.Assembled := by
    refine .decoyed (.compiled hg) (fun a ha => ?_) hi
    exact List.mem_singleton.1 ha ▸ ⟨_, _, _, hasset⟩
  cases he : i.graph.interpret i.supply i.source with
  | error e => exact ⟨g, s, asset, s', i, e, hg, hasset, hi, he, hassembled.interpret_eq_error he⟩
  | ok P => simp [he, Except.isOk, Except.toBool] at h

end Diversity
