import Diversity.Proofs.Activations
import Diversity.Proofs.Naming
import Diversity.Proofs.SimplePaths
/-! Which parameters functions have where no calls come back to their caller: those for the local variables that
are mentioned in the function's block or below it, and that live above it. -/
namespace Diversity

namespace BlockSet

/-- Calls lead from the root to no block from which they lead back to it. -/
def AcyclicBelow (bs : BlockSet) (root : Block) : Prop :=
  ∀ q b r, Walk bs root q b → Walk bs b r b → r = []

/-- All call paths from the root to mentions of the chunk start with the same calls, and one of these enters the
block. -/
def OnCommonStart (bs : BlockSet) (root : Block) (c : ChunkId) (block : String) : Prop :=
  ∃ q : CallPath, block ∈ q.entered ∧ ∀ r d, Walk bs root r d → d.Mentions c → q <+: r

variable {bs : BlockSet} {root : Block}

theorem AcyclicBelow.nodup (h : bs.AcyclicBelow root) (hroot : bs.find? root.name = some root) {q : CallPath}
    {d : Block} (hwalk : Walk bs root q d) : (root.name :: q.entered).Nodup := by
  by_contra hn
  obtain ⟨front, c, cycle, back, -, hne, hfront, hcycle, -⟩ := hwalk.exists_cycle hroot hn
  exact hne (h front c cycle hfront hcycle)

theorem acyclicBelow_of_reachesItself (htied : bs.Tied) (hroot : root ∈ bs.toList)
    (h : ∀ b ∈ bs.toList, b.reachesItself bs = .ok false) : bs.AcyclicBelow root := by
  intro q b r hq hr
  by_contra hne
  have hb := mem_of_find? (hq.find? (find?_name htied.names hroot))
  have htrue := Block.reachesItself_of_walk htied hb hne hr
  rw [h b hb] at htrue
  cases htrue

end BlockSet

/-- The variable is mentioned in the block, or in one that calls lead to from there. -/
def Block.MentionsBelow (bs : BlockSet) (b : Block) (v : Variable) : Prop := ∃ q d, Walk bs b q d ∧ v ∈ d.vars

theorem Walk.name_cases {bs : BlockSet} {b d : Block} {q : CallPath} (h : Walk bs b q d) :
    d.name = b.name ∨ d.name ∈ q.entered := by
  have hlast := h.last
  cases hq : q.getLast? with
  | none =>
      rw [hq] at hlast
      exact .inl hlast.symm
  | some site =>
      rw [hq] at hlast
      exact .inr (List.mem_map.2 ⟨site, List.mem_of_getLast? hq, hlast⟩)

namespace Trace

variable {bs : BlockSet} {root : Block} {t : Trace} {c : ChunkId}

/-- Without cycles all call paths are recorded, so that what the recorded ones have in common all have. -/
theorem mem_stem_iff (h : ofBlock bs root true = .ok t) (hroot : bs.find? root.name = some root)
    (hacyclic : bs.AcyclicBelow root) (hc : c ∈ t.chunks) {n : String} :
    n ∈ CallPath.entered (t.stem c) ↔ bs.OnCommonStart root c n := by
  have hne : t.paths c ≠ [] := fun hnil => (paths_eq_nil_iff h hroot).1 hnil hc
  have hstem (r : CallPath) : r <+: t.stem c ↔ ∀ q ∈ t.paths c, r <+: q := CallPath.prefix_commonOfAll_iff hne
  constructor
  · intro hn
    refine ⟨t.stem c, hn, fun r d hwalk hd => (hstem _).1 List.prefix_rfl r ((mem_paths h).2 ?_)⟩
    exact ⟨d, hwalk, hacyclic.nodup hroot hwalk, hd⟩
  · rintro ⟨q, hn, hq⟩
    have hstart : q <+: t.stem c := (hstem q).2 fun r hr => by
      obtain ⟨d, hwalk, -, hd⟩ := (mem_paths h).1 hr
      exact hq r d hwalk hd
    exact (hstart.sublist.map _).subset hn

theorem exists_needs_of_walk (h : ofBlock bs root true = .ok t) (hroot : bs.find? root.name = some root)
    (hacyclic : bs.AcyclicBelow root) {b d : Block} {front q : CallPath} (hfront : Walk bs root front b)
    (hwalk : Walk bs b q d) {v : Variable} (hv : v ∈ d.vars) (hc : v.chunk = some c) (hne : b.name ≠ root.name)
    (hn : b.name ∉ CallPath.entered (t.stem c)) : ∃ v' ∈ t.needs b.name, v'.key = v.key := by
  have hwalk := hfront.append hwalk
  have hw : ⟨d, front ++ q⟩ ∈ t.visits :=
    (mem_visits h).2 ⟨hwalk, CallPath.fresh_singleton.2 (hacyclic.nodup hroot hwalk)⟩
  obtain ⟨rest, hrest⟩ := stem_start hw (mentions_of_mem hv hc)
  refine exists_needs_of_visit hw hv hc ?_
  rw [← hrest, List.drop_left]
  have hmem : b.name ∈ CallPath.entered (t.stem c ++ rest) := by
    rw [hrest, CallPath.entered, List.map_append]
    exact List.mem_append_left _ (hfront.name_cases.resolve_left hne)
  rw [CallPath.entered, List.map_append, List.mem_append] at hmem
  exact hmem.resolve_left hn

end Trace

/-- A block needs the variables that are mentioned at or below it, unless it is the entry or lies on the part that
all call paths to the variable's chunk have in common. -/
theorem Graph.Prepared.mem_needs_iff {g : Graph} {bs : BlockSet} {p : Placement} {t : Trace} {ps : Parameters}
    (h : g.Prepared bs p t ps) {root : Block} (hroot : bs.find? g.entry = some root) (hacyclic : bs.AcyclicBelow root)
    {b : Block} (hb : b ∈ bs.toList) (hblock : b.name ∈ t.blocks) {v : Variable} {c : ChunkId} (hc : v.chunk = some c) :
    v ∈ t.needs b.name ↔ b.MentionsBelow bs v ∧ b.name ≠ g.entry ∧ ¬ bs.OnCommonStart root c b.name := by
  obtain ⟨root', hroot', ht⟩ := h.traced
  obtain rfl := Option.some.inj (hroot.symm.trans hroot')
  have hname := BlockSet.name_of_find? hroot
  have hfind : bs.find? root.name = some root := hname.symm ▸ hroot
  obtain ⟨w, hw, rfl⟩ := h.exists_visit hb hblock
  have hfront := ((Trace.mem_visits ht).1 hw).1
  have hchunk {q : CallPath} {d : Block} (hwalk : Walk bs w.block q d) (hv : v ∈ d.vars) : c ∈ t.chunks :=
    (Trace.mem_chunks_iff_walk ht hfind).2 ⟨_, d, hfront.append hwalk, v, hv, hc⟩
  constructor
  · intro hv
    obtain ⟨b, q, d, hb', hwalk, -, hvd⟩ := Trace.exists_mention_below ht hfind hv
    obtain rfl := Option.some.inj ((h.find?_visit hw).symm.trans hb')
    have hnot := Trace.not_mem_of_needs ht hv hc
    rw [List.mem_cons, not_or, hname, Trace.mem_stem_iff ht hfind hacyclic (hchunk hwalk hvd)] at hnot
    exact ⟨⟨q, d, hwalk, hvd⟩, hnot⟩
  · rintro ⟨⟨q, d, hwalk, hvd⟩, hne, hnot⟩
    rw [← Trace.mem_stem_iff ht hfind hacyclic (hchunk hwalk hvd)] at hnot
    obtain ⟨v', hv', hkey⟩ :=
      Trace.exists_needs_of_walk ht hfind hacyclic hfront hwalk hvd hc (hname.symm ▸ hne) hnot
    -- what is needed under the variable's key is the variable itself
    obtain ⟨-, b', hb', hvb'⟩ := h.exists_mention hv'
    have hd := BlockSet.mem_of_find? (hwalk.find? (h.find?_visit hw))
    have heq : v' = v := h.placed.eq_of_key hd hb' hvd hvb' (hc ▸ Option.some_ne_none c) hkey
    exact heq ▸ hv'

/-- If no calls below the entry come back to their caller, each function has one parameter for every local variable
that is mentioned at or below it, unless it is the entry or lies on the part that all call paths to the variable's
chunk have in common. It has no other parameters. -/
theorem LowersTo.params_of_acyclic {d : Description} {p : Placement} {g : Graph} {bs : BlockSet} {P : Program}
    (h : LowersTo d p g bs P) {root : Block} (hroot : bs.get g.entry = .ok root) (hacyclic : bs.AcyclicBelow root)
    {F : Function} (hF : F ∈ P.functions) : ∃ b vs, bs.find? F.name = some b ∧
      List.Forall₂ (fun v param => ∃ l, b.lift bs v = .ok l ∧ l.param = param) vs F.params ∧
      F.params.map (·.name) = vs.map (·.name) ∧ (vs.map (·.name)).Nodup ∧
      ∀ v, v ∈ vs ↔ ∃ c, v.chunk = some c ∧ p.isLocal c = true ∧ b.MentionsBelow bs v ∧ F.name ≠ g.entry ∧
        ¬ bs.OnCommonStart root c F.name := by
  obtain ⟨t, ps, b, hprep, -, hb, hblock, hFb, -⟩ := h.exists_block hF
  have hfind := BlockSet.find?_name hprep.placed.names hb
  obtain ⟨b', hb', hall⟩ : ∃ b', bs.find? b.name = some b' ∧
      List.Forall₂ (fun v q => q.key = v.key ∧ b'.lift bs v = .ok q.lifted)
        ((t.needs b.name).filter (·.chunk.any p.isLocal)) (ps.of b.name) := by
    rcases Trace.of_cases hprep.parameters b.name with ⟨-, hof⟩ | ⟨hnot, -⟩
    · exact Trace.parametersOf_eq_ok hof
    · exact absurd hblock hnot
  obtain rfl := Option.some.inj (hfind.symm.trans hb')
  have hlifts : List.Forall₂ (fun v param => ∃ l, b.lift bs v = .ok l ∧ l.param = param)
      ((t.needs b.name).filter (·.chunk.any p.isLocal)) F.params := by
    rw [hFb.params, List.forall₂_map_right_iff]
    exact hall.imp fun v q ⟨_, hl⟩ => ⟨q.lifted, hl, rfl⟩
  have hnames : F.params.map (·.name) = ((t.needs b.name).filter (·.chunk.any p.isLocal)).map (·.name) := by
    refine (map_eq_map_of_forall₂ hlifts ?_).symm
    rintro v param ⟨l, hl, rfl⟩
    obtain ⟨_, _, -, -, hparam, -⟩ := Block.lift_eq_ok hl
    rw [hparam]
    rfl
  refine ⟨b, _, hFb.name ▸ hfind, hlifts, hnames, hnames ▸ hprep.nodup_params hb hFb, fun v => ?_⟩
  rw [List.mem_filter, Option.any_eq_true, hFb.name]
  constructor
  · rintro ⟨hv, c, hc, hlocal⟩
    exact ⟨c, hc, hlocal, (hprep.mem_needs_iff (BlockSet.get_eq_ok.1 hroot) hacyclic hb hblock hc).1 hv⟩
  · rintro ⟨c, hc, hlocal, hneeded⟩
    exact ⟨(hprep.mem_needs_iff (BlockSet.get_eq_ok.1 hroot) hacyclic hb hblock hc).2 hneeded, c, hc, hlocal⟩

/-- All calls of `leaf` go through `relay`, which so has no parameter for the variable that it hands to `leaf`. -/
theorem params_of_acyclic_relaying : ∃ p g bs P root F b, ∃ vs : List Variable,
    LowersTo Description.relaying p g bs P ∧ bs.get g.entry = .ok root ∧ bs.AcyclicBelow root ∧
    P.functions.map (·.params.map (·.name)) = [[], [], ["x"]] ∧ F ∈ P.functions ∧ bs.find? F.name = some b ∧
    vs.map (·.name) = ["x"] ∧ ∀ v, v ∈ vs ↔ ∃ c, v.chunk = some c ∧ p.isLocal c = true ∧ b.MentionsBelow bs v ∧
      F.name ≠ g.entry ∧ ¬ bs.OnCommonStart root c F.name := by
  let p : Placement := ⟨["main", "relay", "leaf"], [], [⟨1⟩]⟩
  have h : (do
      let l ← Description.relaying.lowering? p
      let F ← l.program.functions.getLast?
      Option.guard (fun _ => F.params.map (·.name) = ["x"] ∧
        l.program.functions.map (·.params.map (·.name)) = [[], [], ["x"]] ∧
        (l.blocks.toList.all fun b => (b.reachesItself l.blocks).toOption = some false) = true) ()
      : Option Unit).isSome = true := by
    decide +kernel
  simp only [Option.isSome_iff_exists, Option.bind_eq_bind, Option.bind_eq_some_iff, Option.guard_eq_some_iff,
    decide_eq_true_eq, List.all_eq_true, toOption_eq_some] at h
  obtain ⟨_, l, hl, F, hF, -, hx, hparams, hitself⟩ := h
  obtain ⟨hlower, hroot, -, -⟩ := Description.lowersTo_of_lowering? hl
  have htied : l.blocks.Tied := by
    obtain ⟨_, _, _, _, _, -, -, -, -, hrep⟩ := hlower.spliced
    exact BlockSet.tied_of_repaired hrep
  have hacyclic : l.blocks.AcyclicBelow l.root :=
    BlockSet.acyclicBelow_of_reachesItself htied (BlockSet.mem_of_find? (BlockSet.get_eq_ok.1 hroot)) hitself
  have hF := List.mem_of_getLast? hF
  obtain ⟨b, vs, hb, -, hnames, -, hvs⟩ := hlower.params_of_acyclic hroot hacyclic hF
  exact ⟨p, _, _, _, _, F, b, vs, hlower, hroot, hacyclic, hparams, hF, hb, hnames ▸ hx, hvs⟩

end Diversity
