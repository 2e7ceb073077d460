import Diversity.Proofs.Parameters
/-! The functions that a lowering gives: what their bodies hold. -/
namespace Diversity

/-- The call of a function that stands for the call of a block. -/
def Expr.generated (ps : Parameters) (callee : String) (args : List Expr) : Expr :=
  .call .unnumbered
    (.var .unnumbered (.free callee (some (.function .void ((ps.of callee).map (·.type)) false)))) args

/-- What a caller passes for all parameters of a function. -/
def Parameters.Passes (ps : Parameters) (t : Trace) (caller callee : String) (args : List Expr) : Prop :=
  List.Forall₂ (fun q a => q.argument t caller (ps.of caller) = .ok a) (ps.of callee) args

theorem callFunction_eq_ok {t : Trace} {ps : Parameters} {caller : String} {callee : BlockRef} {x : Stmt}
    (h : callFunction t ps caller callee = .ok x) :
    ∃ args, ps.Passes t caller callee.name args ∧ x = .expr .unnumbered (.generated ps callee.name args) := by
  unfold callFunction at h
  obtain ⟨args, hargs, h⟩ := bind_eq_ok.1 h
  cases h
  exact ⟨args, mapM_eq_ok.1 hargs, rfl⟩

/-- The function is what the block becomes. -/
structure Function.Lowers (g : Graph) (p : Placement) (t : Trace) (ps : Parameters) (b : Block)
    (F : Function) : Prop where
  name : F.name = b.name
  params : F.params = (ps.of b.name).map (·.lifted.param)
  statics : F.statics = ((g.chunksAt p t b.name).filter (·.constraint.isStatic)).flatMap (·.vars)
  locals : F.locals = ((g.chunksAt p t b.name).filter (!·.constraint.isStatic)).flatMap (·.vars)
  body : Stmt.MapsAll (fun (_ : Unit) _ callee front _ => ∃ args, ps.Passes t b.name callee.name args ∧
      front = [.expr .unnumbered (.generated ps callee.name args)]) ()
    (Stmt.mapExprsOfAll (·.substitute ps.substitution) b.statements) F.body ()

namespace Graph

variable {g : Graph} {bs : BlockSet} {p : Placement} {t : Trace} {ps : Parameters} {P : Program}

theorem lowerBlock_eq_ok {b : Block} {F : Function} (h : g.lowerBlock p t ps b = .ok F) :
    F.Lowers g p t ps b := by
  unfold lowerBlock at h
  obtain ⟨body, hbody, h⟩ := bind_eq_ok.1 h
  cases h
  refine ⟨rfl, rfl, rfl, rfl, (Stmt.mapsAll_of_gives (gives_iff_ok.2 hbody)).mono ?_⟩
  rintro _ i callee front _ ⟨o, ho, rfl⟩
  obtain ⟨x, hx, ho⟩ := bind_eq_ok.1 (gives_iff_ok.1 ho)
  cases ho
  obtain ⟨args, hargs, rfl⟩ := callFunction_eq_ok hx
  exact ⟨args, hargs, rfl⟩

theorem lower_eq_ok (h : g.lower bs p = .ok P) (hp : g.Placed bs) : ∃ t ps, g.Prepared bs p t ps ∧
    P.globals = g.globals p ∧
    List.Forall₂ (fun f F => ∃ b, bs.find? f = some b ∧ F.Lowers g p t ps b) t.blocks P.functions := by
  unfold lower at h
  obtain ⟨root, hroot, h⟩ := bind_eq_ok.1 h
  obtain ⟨t, ht, h⟩ := bind_eq_ok.1 h
  obtain ⟨ps, hps, h⟩ := bind_eq_ok.1 h
  obtain ⟨functions, hfs, h⟩ := bind_eq_ok.1 h
  cases h
  refine ⟨t, ps, ⟨hp, ⟨root, BlockSet.get_eq_ok.1 hroot, ht⟩, hps⟩, rfl, (mapM_eq_ok.1 hfs).imp ?_⟩
  intro f F hF
  obtain ⟨b, hb, hF⟩ := bind_eq_ok.1 hF
  exact ⟨b, BlockSet.get_eq_ok.1 hb, lowerBlock_eq_ok hF⟩

end Graph

/-- The description, under the placement, becomes the program. Identities are drawn from a supply that
starts above that of unnumbered nodes and goes on above all that the graph uses. -/
structure LowersTo (d : Description) (p : Placement) (g : Graph) (bs : BlockSet) (P : Program) :
    Prop where
  spliced : ∃ s s' supply supply' blocks, Supply.first.next ≤ s.next ∧ d.toGraph s = .ok (g, s') ∧
    s'.next ≤ supply.next ∧ p.inline g.blocks supply = .ok (blocks, supply') ∧
    BlockSet.repaired blocks = .ok bs
  lowered : g.lower bs p = .ok P

theorem exists_lowersTo_of_interpret {σ : Type} [RandomSource σ] {d : Description} {s s' supply : Supply} {g : Graph}
    {source source' : σ} {P : Program} (hs : Supply.first.next ≤ s.next) (hd : d.toGraph s = .ok (g, s'))
    (hsupply : s'.next ≤ supply.next) (h : g.interpret supply source = .ok (P, source')) :
    ∃ p bs, LowersTo d p g bs P := by
  obtain ⟨_, _, h, hP⟩ := run_bind_eq_ok.1 h
  unfold Graph.interpretFrom at h
  obtain ⟨p, _, -, h⟩ := run_bind_eq_ok.1 h
  obtain ⟨⟨blocks, supply'⟩, _, hin, h⟩ := run_bind_eq_ok.1 h
  obtain ⟨bs, _, hrep, h⟩ := run_bind_eq_ok.1 h
  obtain ⟨hin, -⟩ := run_liftM_eq_ok hin
  obtain ⟨hrep, -⟩ := run_liftM_eq_ok hrep
  obtain ⟨P', _, hrun, h⟩ := run_bind_eq_ok.1 h
  cases h
  cases hP
  obtain ⟨hlower, -⟩ := run_liftM_eq_ok hrun
  exact ⟨p, bs, ⟨s, s', supply, supply', blocks, hs, hd, hsupply, hin, hrep⟩, hlower⟩

theorem LowersTo.placed {d : Description} {p : Placement} {g : Graph} {bs : BlockSet} {P : Program}
    (h : LowersTo d p g bs P) : g.Placed bs := by
  obtain ⟨s, s', supply, supply', blocks, hs, hg, hsupply, hin, hrep⟩ := h.spliced
  exact (Description.compiled hg).placed hs hsupply hin hrep

theorem LowersTo.prepared {d : Description} {p : Placement} {g : Graph} {bs : BlockSet} {P : Program}
    (h : LowersTo d p g bs P) {root : Block} (hroot : bs.get g.entry = .ok root) {t : Trace}
    (ht : Trace.ofBlock bs root true = .ok t) {ps : Parameters} (hps : t.parameters bs p = .ok ps) :
    g.Prepared bs p t ps ∧ P.globals = g.globals p ∧
      List.Forall₂ (fun f F => ∃ b, bs.find? f = some b ∧ F.Lowers g p t ps b) t.blocks P.functions := by
  obtain ⟨t', ps', hprep, hrest⟩ := Graph.lower_eq_ok h.lowered h.placed
  obtain ⟨root', hroot', ht'⟩ := hprep.traced
  obtain rfl : root' = root := Option.some.inj (hroot'.symm.trans (BlockSet.get_eq_ok.1 hroot))
  obtain rfl : t' = t := Except.ok.inj (ht'.symm.trans ht)
  obtain rfl : ps' = ps := Except.ok.inj (hprep.parameters.symm.trans hps)
  exact ⟨hprep, hrest⟩

/-- A program with all that is computed on the way to it. -/
structure Lowering where
  graph : Graph
  blocks : BlockSet
  root : Block
  trace : Trace
  parameters : Parameters
  program : Program

namespace Description

def lowering? (d : Description) (p : Placement) : Option Lowering := do
  let (g, s) ← (d.toGraph .first).toOption
  let (blocks, _) ← (p.inline g.blocks s).toOption
  let bs ← (BlockSet.repaired blocks).toOption
  let root ← (bs.get g.entry).toOption
  let t ← (Trace.ofBlock bs root true).toOption
  let ps ← (t.parameters bs p).toOption
  let P ← (g.lower bs p).toOption
  return ⟨g, bs, root, t, ps, P⟩

theorem lowersTo_of_lowering? {d : Description} {p : Placement} {l : Lowering} (h : d.lowering? p = some l) :
    LowersTo d p l.graph l.blocks l.program ∧ l.blocks.get l.graph.entry = .ok l.root ∧
      Trace.ofBlock l.blocks l.root true = .ok l.trace ∧ l.trace.parameters l.blocks p = .ok l.parameters := by
  simp only [lowering?, Option.bind_eq_bind, Option.bind_eq_some_iff, toOption_eq_some] at h
  obtain ⟨⟨g, s⟩, hg, ⟨blocks, s'⟩, hin, bs, hbs, root, hroot, t, ht, ps, hps, P, hP, h⟩ := h
  cases h
  exact ⟨⟨⟨.first, s, s, s', blocks, Nat.le_refl _, hg, Nat.le_refl _, hin, hbs⟩, hP⟩, hroot, ht, hps⟩

/-- All blocks are functions, and the variable that they share is local. -/
def separateSharing : Placement := ⟨["main", "relay", "fill", "show"], [], [⟨1⟩]⟩

end Description

namespace Function.Lowers

variable {g : Graph} {p : Placement} {t : Trace} {ps : Parameters} {b : Block} {F : Function}

/-- The operands of a function are those of its block, substituted in, and generated calls. -/
theorem operand_cases (h : F.Lowers g p t ps b) {o : Operand} (ho : o ∈ Stmt.operandsOfAll F.body) :
    (∃ o' ∈ Stmt.operandsOfAll b.statements, o = o'.map (·.substitute ps.substitution)) ∨
      ∃ c ∈ b.calls, ∃ args, ps.Passes t b.name c.2.name args ∧ o = ⟨.generated ps c.2.name args, false⟩ := by
  rcases h.body.operand_cases ho with ho | ⟨_, i, callee, front, _, hc, ⟨args, hargs, rfl⟩, ho⟩
  · rw [Stmt.operandsOfAll_mapExprs] at ho
    obtain ⟨o', ho', rfl⟩ := List.mem_map.1 ho
    exact Or.inl ⟨o', ho', rfl⟩
  · rw [Stmt.calls_mapExprs] at hc
    exact Or.inr ⟨(i, callee), hc, args, hargs, List.mem_singleton.1 ho⟩

theorem mem_operands (h : F.Lowers g p t ps b) {o : Operand} (ho : o ∈ Stmt.operandsOfAll b.statements) :
    o.map (·.substitute ps.substitution) ∈ Stmt.operandsOfAll F.body := by
  refine h.body.operands_subset ?_
  rw [Stmt.operandsOfAll_mapExprs]
  exact List.mem_map_of_mem ho

theorem exists_generated (h : F.Lowers g p t ps b) {c : NodeId × BlockRef} (hc : c ∈ b.calls) :
    ∃ args, ps.Passes t b.name c.2.name args ∧ ⟨.generated ps c.2.name args, false⟩ ∈ Stmt.operandsOfAll F.body := by
  have hc' : c ∈ Stmt.calls (Stmt.mapExprsOfAll (·.substitute ps.substitution) b.statements) := by
    rwa [Stmt.calls_mapExprs]
  obtain ⟨_, front, _, ⟨args, hargs, rfl⟩, hsub⟩ := h.body.operands_of_call hc'
  exact ⟨args, hargs, hsub (List.mem_singleton.2 rfl)⟩

theorem mem_declared (h : F.Lowers g p t ps b) {d : Declaration} : d ∈ F.statics ++ F.locals ↔
    ∃ c ∈ g.chunks, p.isLocal c.id = true ∧ t.site c.id = b.name ∧ d ∈ c.vars := by
  have hchunks {c : Chunk} : c ∈ g.chunksAt p t b.name ↔
      c ∈ g.chunks ∧ p.isLocal c.id = true ∧ t.site c.id = b.name := by
    simp [Graph.chunksAt]
  simp only [h.statics, h.locals, List.mem_append, List.mem_flatMap, List.mem_filter, hchunks]
  constructor
  · rintro (⟨c, ⟨⟨hc, hl, hs⟩, -⟩, hd⟩ | ⟨c, ⟨⟨hc, hl, hs⟩, -⟩, hd⟩) <;> exact ⟨c, hc, hl, hs, hd⟩
  · rintro ⟨c, hc, hl, hs, hd⟩
    cases hstatic : c.constraint.isStatic with
    | true => exact Or.inl ⟨c, ⟨⟨hc, hl, hs⟩, hstatic⟩, hd⟩
    | false => exact Or.inr ⟨c, ⟨⟨hc, hl, hs⟩, by simp [hstatic]⟩, hd⟩

end Function.Lowers

end Diversity
