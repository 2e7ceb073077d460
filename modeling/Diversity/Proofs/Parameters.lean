import Diversity.Proofs.CallPaths
import Diversity.Proofs.Occurrences
/-! The parameters of functions: what they stand for, and what the usages of variables become. -/
namespace Diversity

namespace Capture

/-- The positions in a capture. -/
def positions : Capture → List Expr
  | .base _ => []
  | .ref inner | .assigned inner | .deref inner => positions inner
  | .index inner position => position :: positions inner

variable {c d : Capture}

/-- A node of what a capture stands for is new, or lies in a position or in the innermost expression. -/
theorem mem_nodes_toExpr {n : Expr} (h : n ∈ c.toExpr.nodes) :
    n.id = .unnumbered ∨ (∃ position ∈ c.positions, n ∈ position.nodes) ∨ n ∈ c.root.nodes := by
  induction c with
  | base e => exact Or.inr (Or.inr h)
  | ref inner ih | deref inner ih =>
      rw [toExpr, Expr.mem_nodes_iff, Expr.children] at h
      rcases h with rfl | ⟨c, hc, h⟩
      · exact Or.inl rfl
      · exact ih (List.mem_singleton.1 hc ▸ h)
  | assigned inner ih => exact ih h
  | index inner position ih =>
      rw [toExpr, Expr.mem_nodes_iff, Expr.children] at h
      rcases h with rfl | ⟨c, hc, h⟩
      · exact Or.inl rfl
      · rcases List.mem_cons.1 hc with rfl | hc
        · rcases ih h with h | ⟨position', hp, h⟩ | h
          · exact Or.inl h
          · exact Or.inr (Or.inl ⟨position', List.mem_cons_of_mem _ hp, h⟩)
          · exact Or.inr (Or.inr h)
        · exact Or.inr (Or.inl ⟨position, List.mem_cons_self, List.mem_singleton.1 hc ▸ h⟩)

theorem positions_replace (c d : Capture) : (c.replace d).positions = c.positions ++ d.positions := by
  induction c with
  | base _ => rfl
  | ref _ ih | assigned _ ih | deref _ ih => exact ih
  | index _ position ih => exact congrArg (position :: ·) ih

theorem root_replace (c d : Capture) : (c.replace d).root = d.root := by
  induction c with
  | base _ => rfl
  | ref _ ih | assigned _ ih | deref _ ih | index _ _ ih => exact ih

theorem positions_simplify (c : Capture) : c.simplify.positions = c.positions := by
  have haddress (c : Capture) : c.addressOf.positions = c.positions := by cases c <;> rfl
  have htarget (c : Capture) : c.target.positions = c.positions := by cases c <;> rfl
  induction c with
  | base _ => rfl
  | ref _ ih => exact (haddress _).trans ih
  | assigned _ ih => exact ih
  | deref _ ih => exact (htarget _).trans ih
  | index _ position ih => exact congrArg (position :: ·) ih

theorem root_simplify (c : Capture) : c.simplify.root = c.root := by
  have haddress (c : Capture) : c.addressOf.root = c.root := by cases c <;> rfl
  have htarget (c : Capture) : c.target.root = c.root := by cases c <;> rfl
  induction c with
  | base _ => rfl
  | ref _ ih => exact (haddress _).trans ih
  | assigned _ ih | index _ _ ih => exact ih
  | deref _ ih => exact (htarget _).trans ih

theorem positions_invertOnto (c d : Capture) : (c.invertOnto d).positions = d.positions := by
  induction c generalizing d with
  | base _ => rfl
  | ref _ ih | assigned _ ih | deref _ ih | index _ _ ih => exact ih _

theorem root_invertOnto (c d : Capture) : (c.invertOnto d).root = d.root := by
  induction c generalizing d with
  | base _ => rfl
  | ref _ ih | assigned _ ih | deref _ ih | index _ _ ih => exact ih _

theorem positions_of_capture? {e : Expr} {key : Option ChunkId × String} (h : e.capture? key = some c) :
    ∀ position ∈ c.positions, position ∈ e.nodes ∧ position.isZero = true := by
  fun_induction Expr.capture? key e generalizing c with
  | case1 => cases h; exact fun _ h => by cases h
  | case2 => cases h
  | case3 i target ih | case4 i target ih =>
      obtain ⟨c, hc, rfl⟩ := Option.map_eq_some_iff.1 h
      intro position hp
      obtain ⟨hn, hz⟩ := ih hc position hp
      exact ⟨Expr.mem_nodes_iff.2 (Or.inr ⟨target, List.mem_cons_self, hn⟩), hz⟩
  | case5 i target position hz ih =>
      obtain ⟨c, hc, rfl⟩ := Option.map_eq_some_iff.1 h
      intro position' hp
      rcases List.mem_cons.1 hp with rfl | hp
      · refine ⟨Expr.mem_nodes_iff.2 (Or.inr ⟨position', ?_, Expr.mem_nodes_self _⟩), hz⟩
        exact List.mem_cons_of_mem _ List.mem_cons_self
      · obtain ⟨hn, hz⟩ := ih hc position' hp
        exact ⟨Expr.mem_nodes_iff.2 (Or.inr ⟨target, List.mem_cons_self, hn⟩), hz⟩
  | case6 => cases h
  | case7 => cases h

end Capture

/-- The positions in a usage are literals of the operand. -/
theorem Operand.positions_of_usages {o : Operand} {key : Option ChunkId × String} {u : Usage}
    (h : u ∈ o.usages key) : ∀ position ∈ u.capture.positions, position ∈ o.expr.nodes ∧ position.isZero = true := by
  intro position hp
  rcases usages_cases h with ⟨n, hn, -, hc⟩ | ⟨i, v, -, -, rfl⟩
  · obtain ⟨hpos, hz⟩ := Capture.positions_of_capture? hc position hp
    exact ⟨Expr.nodes_subset hn hpos, hz⟩
  · cases hp

/-- The nodes of a replacement are new, or lie in positions of the usage. -/
theorem Usage.mem_nodes_replacement {u : Usage} {c : Capture} {w : Variable} {n : Expr}
    (h : n ∈ (u.replacement (c.invert (.var .unnumbered w))).2.nodes) :
    n.id = .unnumbered ∨ ∃ position ∈ u.capture.positions, n ∈ position.nodes := by
  rcases Capture.mem_nodes_toExpr h with h | ⟨position, hp, h⟩ | h
  · exact Or.inl h
  · rw [Capture.positions_simplify, Capture.positions_replace, Capture.invert, Capture.positions_invertOnto,
      Capture.positions, List.append_nil] at hp
    exact Or.inr ⟨position, hp, h⟩
  · rw [Capture.root_simplify, Capture.root_replace, Capture.invert, Capture.root_invertOnto] at h
    obtain rfl := List.mem_singleton.1 h
    exact Or.inl rfl

/-! ## The most general capture -/

namespace Capture

theorem maximal_eq_ok {c d e : Capture} (h : c.maximal d = .ok e) : e = c.join d := by
  unfold maximal at h
  split at h
  · cases h
    rfl
  · cases h

theorem foldlM_maximal {us : List Usage} {c d : Capture}
    (h : us.foldlM (fun c u => c.maximal u.capture) c = .ok d) :
    d = us.foldl (fun c u => c.join u.capture) c := by
  induction us generalizing c with
  | nil =>
      cases h
      rfl
  | cons u us ih =>
      rw [List.foldlM_cons] at h
      obtain ⟨c', hc', h⟩ := bind_eq_ok.1 h
      rw [List.foldl_cons, ← maximal_eq_ok hc']
      exact ih h

/-- The most general capture is the join of all usages, of which there is one at least. -/
theorem joinUsages_eq_ok {name block : String} {us : List Usage} {c : Capture}
    (h : joinUsages name block us = .ok c) :
    ∃ u rest, us = u :: rest ∧ c = rest.foldl (fun c u => c.join u.capture) u.capture := by
  cases us with
  | nil => cases h
  | cons u rest => exact ⟨u, rest, rfl, foldlM_maximal h⟩

/-- What holds of all usages and is kept by joins, holds of the most general capture. -/
theorem joinUsages_induction {P : Capture → Prop} {name block : String} {us : List Usage} {c : Capture}
    (h : joinUsages name block us = .ok c) (hus : ∀ u ∈ us, P u.capture)
    (join : ∀ c d, P c → P d → P (c.join d)) : P c := by
  obtain ⟨u, rest, rfl, rfl⟩ := joinUsages_eq_ok h
  rw [List.forall_mem_cons] at hus
  refine List.foldlRecOn rest _ hus.1 fun c hc u hu => ?_
  exact join c u.capture hc (hus.2 u hu)

end Capture

theorem Block.lift_eq_ok {bs : BlockSet} {b : Block} {v : Variable} {l : Lifted} (h : b.lift bs v = .ok l) :
    ∃ us type, b.usagesBelow bs v.key [b.name] = .ok us ∧
      Capture.joinUsages v.name b.name us = .ok l.maximal ∧ l.param = .free v.name (some type) ∧
      l.substitution =
        (b.usages v.key).map (·.replacement (l.maximal.invert (.var .unnumbered l.param.var))) ∧
      l.maximal.paramType = .ok type := by
  unfold lift at h
  obtain ⟨us, hus, h⟩ := bind_eq_ok.1 h
  obtain ⟨maximal, hm, h⟩ := bind_eq_ok.1 h
  obtain ⟨type, ht, h⟩ := bind_eq_ok.1 h
  cases h
  exact ⟨us, type, hus, hm, rfl, rfl, ht⟩

/-! ## The parameters of a trace -/

/-- The parameter is the block's for a local variable that lives above it. -/
structure Parameter.Lifts (bs : BlockSet) (p : Placement) (t : Trace) (b : Block) (v : Variable)
    (q : Parameter) : Prop where
  needed : v ∈ t.needs b.name
  placed : v.chunk.any p.isLocal = true
  key : q.key = v.key
  lift : b.lift bs v = .ok q.lifted

namespace Trace

variable {bs : BlockSet} {p : Placement} {t : Trace} {ps : Parameters} {f : String}

theorem parametersOf_eq_ok {l : List Parameter} (h : t.parametersOf bs p f = .ok l) :
    ∃ b, bs.find? f = some b ∧
      List.Forall₂ (fun v q => q.key = v.key ∧ b.lift bs v = .ok q.lifted)
        ((t.needs f).filter (·.chunk.any p.isLocal)) l := by
  unfold parametersOf at h
  obtain ⟨b, hb, h⟩ := bind_eq_ok.1 h
  refine ⟨b, BlockSet.get_eq_ok.1 hb, (mapM_eq_ok.1 h).imp ?_⟩
  intro v q hq
  obtain ⟨l, hl, hq⟩ := bind_eq_ok.1 hq
  cases hq
  exact ⟨rfl, hl⟩

theorem parameters_eq_ok (h : t.parameters bs p = .ok ps) :
    List.Forall₂ (fun f entry => entry.1 = f ∧ t.parametersOf bs p f = .ok entry.2) t.blocks ps := by
  refine (mapM_eq_ok.1 h).imp ?_
  intro f entry he
  obtain ⟨l, hl, he⟩ := bind_eq_ok.1 he
  cases he
  exact ⟨rfl, hl⟩

/-- A function of the trace has the parameters that it was given; nothing else has any. -/
theorem of_cases (h : t.parameters bs p = .ok ps) (f : String) :
    (f ∈ t.blocks ∧ t.parametersOf bs p f = .ok (ps.of f)) ∨ (f ∉ t.blocks ∧ ps.of f = []) := by
  have hall := parameters_eq_ok h
  clear h
  generalize t.blocks = blocks at hall
  unfold Parameters.of
  induction hall with
  | nil => exact Or.inr ⟨List.not_mem_nil, rfl⟩
  | @cons f' entry blocks ps he _ ih =>
      obtain ⟨f'', l⟩ := entry
      obtain ⟨rfl, hl⟩ := he
      by_cases hf : f = f''
      · subst hf
        rw [List.lookup_cons_self]
        exact Or.inl ⟨List.mem_cons_self, hl⟩
      · rw [List.lookup_cons, beq_eq_false_iff_ne.2 hf]
        exact ih.imp (fun ⟨hm, hof⟩ => ⟨List.mem_cons_of_mem _ hm, hof⟩) fun ⟨hm, hof⟩ =>
          ⟨fun hmem => (List.mem_cons.1 hmem).elim hf hm, hof⟩

theorem lifts_of_mem (h : t.parameters bs p = .ok ps) {q : Parameter} (hq : q ∈ ps.of f) :
    f ∈ t.blocks ∧ ∃ b v, bs.find? f = some b ∧ q.Lifts bs p t b v := by
  rcases of_cases h f with ⟨hf, hof⟩ | ⟨-, hof⟩
  · obtain ⟨b, hb, hall⟩ := parametersOf_eq_ok hof
    obtain ⟨v, hv, hkey, hlift⟩ := forall₂_mem_right hall hq
    obtain ⟨hv, hlocal⟩ := List.mem_filter.1 hv
    exact ⟨hf, b, v, hb, ⟨BlockSet.name_of_find? hb ▸ hv, hlocal, hkey, hlift⟩⟩
  · rw [hof] at hq
    cases hq

/-- Every local variable that a function needs from above has a parameter. -/
theorem exists_parameter (h : t.parameters bs p = .ok ps) {v : Variable} (hf : f ∈ t.blocks) (hv : v ∈ t.needs f)
    (hlocal : v.chunk.any p.isLocal = true) : ∃ q ∈ ps.of f, q.key = v.key := by
  rcases of_cases h f with ⟨-, hof⟩ | ⟨hf', -⟩
  · obtain ⟨b, -, hall⟩ := parametersOf_eq_ok hof
    obtain ⟨q, hq, hkey, -⟩ := forall₂_mem_left hall (List.mem_filter.2 ⟨hv, hlocal⟩)
    exact ⟨q, hq, hkey⟩
  · exact absurd hf hf'

theorem nodup_keys (h : t.parameters bs p = .ok ps) (f : String) : ((ps.of f).map (·.key)).Nodup := by
  rcases of_cases h f with ⟨-, hof⟩ | ⟨-, hof⟩
  · obtain ⟨b, -, hall⟩ := parametersOf_eq_ok hof
    rw [← map_eq_map_of_forall₂ (f := Variable.key) hall fun v q hq => hq.1.symm]
    exact (nodup_map_distinctBy Variable.key _).sublist (List.filter_sublist.map _)
  · rw [hof]
    exact List.nodup_nil

theorem mem_substitution (h : t.parameters bs p = .ok ps) {entry : NodeId × Expr} :
    entry ∈ ps.substitution ↔ ∃ f, ∃ q ∈ ps.of f, entry ∈ q.lifted.substitution := by
  have hall := parameters_eq_ok h
  rw [Parameters.substitution, List.mem_flatMap]
  constructor
  · rintro ⟨⟨f, l⟩, hl, hentry⟩
    obtain ⟨q, hq, hentry⟩ := List.mem_flatMap.1 hentry
    obtain ⟨f', hf', rfl, hof⟩ := forall₂_mem_right hall hl
    rcases of_cases h f with ⟨-, hof'⟩ | ⟨hf, -⟩
    · have hl' : l = ps.of f := Except.ok.inj (hof.symm.trans hof')
      exact ⟨f, q, hl' ▸ hq, hentry⟩
    · exact absurd hf' hf
  · rintro ⟨f, q, hq, hentry⟩
    obtain ⟨hf, -⟩ := lifts_of_mem h hq
    obtain ⟨⟨f', l⟩, hl, rfl, hof⟩ := forall₂_mem_left hall hf
    rcases of_cases h f' with ⟨-, hof'⟩ | ⟨hf', -⟩
    · have hl' : l = ps.of f' := Except.ok.inj (hof.symm.trans hof')
      exact ⟨_, hl, List.mem_flatMap.2 ⟨q, hl' ▸ hq, hentry⟩⟩
    · exact absurd hf hf'

end Trace

/-! ## What is replaced, and by what -/

/-- A placed graph that has been traced and whose functions have got their parameters. -/
structure Graph.Prepared (g : Graph) (bs : BlockSet) (p : Placement) (t : Trace) (ps : Parameters) : Prop where
  placed : g.Placed bs
  traced : ∃ root, bs.find? g.entry = some root ∧ Trace.ofBlock bs root true = .ok t
  parameters : t.parameters bs p = .ok ps

namespace Graph.Prepared

variable {g : Graph} {bs : BlockSet} {p : Placement} {t : Trace} {ps : Parameters} {b c : Block} {v : Variable}
  {q : Parameter} {u : Usage} {o : Operand} {n r : Expr}

theorem find?_visit (h : g.Prepared bs p t ps) {w : Visit} (hw : w ∈ t.visits) :
    bs.find? w.block.name = some w.block := by
  obtain ⟨root, hroot, ht⟩ := h.traced
  exact ((Trace.mem_visits ht).1 hw).1.find? ((BlockSet.name_of_find? hroot).symm ▸ hroot)

theorem exists_visit (h : g.Prepared bs p t ps) (hb : b ∈ bs.toList) (ht : b.name ∈ t.blocks) :
    ∃ w ∈ t.visits, w.block = b := by
  obtain ⟨w, hw, hname⟩ := Trace.mem_blocks.1 ht
  have hf := h.find?_visit hw
  rw [hname, BlockSet.find?_name h.placed.names hb, Option.some.injEq] at hf
  exact ⟨w, hw, hf.symm⟩

/-- A needed variable belongs to a chunk and occurs in a block. -/
theorem exists_mention (h : g.Prepared bs p t ps) {f : String} (hv : v ∈ t.needs f) :
    v.chunk ≠ none ∧ ∃ b ∈ bs.toList, v ∈ b.vars := by
  obtain ⟨w, hw, c, hv, hc, -⟩ := Trace.exists_visit_of_needs hv
  exact ⟨hc ▸ Option.some_ne_none c, w.block, BlockSet.mem_of_find? (h.find?_visit hw), hv⟩

theorem eq_of_needed (h : g.Prepared bs p t ps) {f f' : String} {v' : Variable} (hv : v ∈ t.needs f)
    (hv' : v' ∈ t.needs f') (hkey : v'.key = v.key) : v' = v := by
  obtain ⟨hchunk, b, hb, hvb⟩ := h.exists_mention hv
  obtain ⟨-, c, hc, hvc⟩ := h.exists_mention hv'
  exact h.placed.eq_of_key hb hc hvb hvc hchunk hkey

theorem site_ne (h : g.Prepared bs p t ps) (hq : q.Lifts bs p t b v) {c : ChunkId} (hc : v.chunk = some c) :
    t.site c ≠ b.name := by
  obtain ⟨root, -, ht⟩ := h.traced
  exact Trace.site_ne_of_needs ht hq.needed hc

/-- A usage of a needed variable is an access path over that variable. -/
theorem along_of_usage (h : g.Prepared bs p t ps) {f : String} (hv : v ∈ t.needs f) (hc : c ∈ bs.toList)
    (hu : u ∈ c.usages v.key) : ∃ o n k passing, c.Holds o n ∧ u ∈ o.usages v.key ∧ n.id = u.origin ∧
      n.Along v k ∧ u.capture.Along v k passing := by
  rw [Block.usages, Stmt.usagesOfAll_eq] at hu
  obtain ⟨o, ho, hu⟩ := List.mem_flatMap.1 hu
  obtain ⟨n, hn, hid, w, k, passing, hkey, hnw, huw⟩ := Operand.exists_node_of_usages hu
  obtain ⟨hchunk, b, hb, hvb⟩ := h.exists_mention hv
  have hw : w ∈ c.vars :=
    Stmt.mem_vars_iff.2 ⟨o, ho, Expr.vars_subset hn (hnw.vars ▸ List.mem_singleton.2 rfl)⟩
  obtain rfl := h.placed.eq_of_key hb hc hvb hw hchunk hkey
  exact ⟨o, n, k, passing, ⟨ho, hn⟩, hu, hid, hnw, huw⟩

theorem over_of_usagesBelow (h : g.Prepared bs p t ps) (hb : b ∈ bs.toList) {f : String} (hv : v ∈ t.needs f)
    {us : List Usage} (hus : b.usagesBelow bs v.key [b.name] = .ok us) (hu : u ∈ us) : u.capture.Over v := by
  obtain ⟨path, c, hwalk, -, hu⟩ := (Block.mem_usagesBelow hus).1 hu
  have hc := BlockSet.mem_of_find? (hwalk.find? (BlockSet.find?_name h.placed.names hb))
  obtain ⟨_, _, k, passing, -, -, -, -, huv⟩ := h.along_of_usage hv hc hu
  exact ⟨k, passing, huv⟩

/-- What callers pass is an access path over the variable that the parameter stands for. -/
theorem over_maximal (h : g.Prepared bs p t ps) (hb : b ∈ bs.toList) (hq : q.Lifts bs p t b v) :
    q.lifted.maximal.Over v := by
  obtain ⟨us, type, hus, hm, -, -⟩ := Block.lift_eq_ok hq.lift
  exact Capture.joinUsages_induction hm (fun _ => h.over_of_usagesBelow hb hq.needed hus) fun _ _ =>
    Capture.Over.join

theorem lifts_of_mem (h : g.Prepared bs p t ps) (hb : b ∈ bs.toList) (hq : q ∈ ps.of b.name) :
    b.name ∈ t.blocks ∧ ∃ v, q.Lifts bs p t b v := by
  obtain ⟨ht, b', v, hb', hlifts⟩ := Trace.lifts_of_mem h.parameters hq
  rw [BlockSet.find?_name h.placed.names hb, Option.some.injEq] at hb'
  subst hb'
  exact ⟨ht, v, hlifts⟩

theorem exists_lookup (h : g.Prepared bs p t ps) (hb : b ∈ bs.toList) (hq : q ∈ ps.of b.name)
    (hu : u ∈ b.usages q.key) : ∃ r, ps.substitution.lookup u.origin = some r := by
  obtain ⟨-, v, hlifts⟩ := h.lifts_of_mem hb hq
  obtain ⟨us, type, -, -, -, hsub, -⟩ := Block.lift_eq_ok hlifts.lift
  rw [← Option.isSome_iff_exists, List.lookup_isSome_iff]
  refine ⟨_, (Trace.mem_substitution h.parameters).2 ⟨_, q, hq, hsub ▸ List.mem_map_of_mem ?_⟩, beq_self_eq_true _⟩
  exact hlifts.key ▸ hu

theorem exists_usage_of_lookup (h : g.Prepared bs p t ps) {i : NodeId}
    (hr : ps.substitution.lookup i = some r) : ∃ b ∈ bs.toList, ∃ q ∈ ps.of b.name, ∃ v,
      q.Lifts bs p t b v ∧ ∃ u ∈ b.usages v.key,
        u.replacement (q.lifted.maximal.invert (.var .unnumbered q.lifted.param.var)) = (i, r) := by
  obtain ⟨f, q, hq, hentry⟩ := (Trace.mem_substitution h.parameters).1 (Substitution.mem_of_lookup hr)
  obtain ⟨-, b, v, hb, hlifts⟩ := Trace.lifts_of_mem h.parameters hq
  obtain ⟨us, type, -, -, -, hsub, -⟩ := Block.lift_eq_ok hlifts.lift
  rw [hsub] at hentry
  obtain ⟨u, hu, he⟩ := List.mem_map.1 hentry
  exact ⟨b, BlockSet.mem_of_find? hb, q, BlockSet.name_of_find? hb ▸ hq, v, hlifts, u, hu, he⟩

/-- Whatever is replaced in a block is a usage of a variable for which the block has a parameter. It
becomes an access path over that parameter. -/
theorem along_of_lookup (h : g.Prepared bs p t ps) (hb : b ∈ bs.toList) (hn : b.Holds o n)
    (hr : ps.substitution.lookup n.id = some r) : ∃ q ∈ ps.of b.name, ∃ v k, q.Lifts bs p t b v ∧
      (∃ u ∈ o.usages v.key, u.origin = n.id) ∧ n.Along v k ∧
      ∀ reading passing, q.lifted.maximal.Along v reading passing →
        r.Along q.lifted.param.var (k - passing) := by
  obtain ⟨b', hb', q, hq, v, hlifts, u, hu, he⟩ := h.exists_usage_of_lookup hr
  obtain ⟨hid, rfl⟩ := Prod.mk.inj he
  obtain ⟨o', n', k, _, hn', huo, hid', hnv, huv⟩ := h.along_of_usage hlifts.needed hb' hu
  obtain ⟨rfl, rfl, rfl⟩ := BlockSet.eq_of_holds h.placed.ids hb' hb hn' hn (hid'.trans hid)
  refine ⟨q, hq, v, k, hlifts, ⟨u, huo, hid⟩, hnv, fun reading passing hm => ?_⟩
  rw [sub_eq_add_neg]
  exact (huv.replace (hm.invert _)).simplify.toExpr

/-- A literal at position zero is no usage, so no replacement is looked into again. -/
theorem closed_substitution (h : g.Prepared bs p t ps) : Expr.Substitution.Closed ps.substitution := by
  intro i r hr n hn
  obtain ⟨b, hb, q, hq, v, hlifts, u, hu, he⟩ := h.exists_usage_of_lookup hr
  obtain ⟨hid, rfl⟩ := Prod.mk.inj he
  cases hr' : ps.substitution.lookup n.id with
  | none => rfl
  | some r' =>
      obtain ⟨b', hb', q', hq', v', hlifts', u', hu', he'⟩ := h.exists_usage_of_lookup hr'
      obtain ⟨o', n', k, passing, hn', -, hid', hnv', -⟩ := h.along_of_usage hlifts'.needed hb' hu'
      have hnid : n'.id = n.id := hid'.trans (Prod.mk.inj he').1
      rcases Usage.mem_nodes_replacement hn with hnew | ⟨position, hp, hnp⟩
      · refine absurd (BlockSet.mem_ids.2 ⟨b', hb', BlockSet.id_mem_of_holds hn'⟩) ?_
        rw [hnid, hnew]
        exact h.placed.numbered
      · obtain ⟨o, n₀, _, _, ⟨ho, -⟩, huo, -, -, -⟩ := h.along_of_usage hlifts.needed hb hu
        obtain ⟨hpos, hz⟩ := Operand.positions_of_usages huo position hp
        obtain rfl := Expr.eq_of_mem_nodes_of_isZero hz hnp
        obtain ⟨-, -, rfl⟩ := BlockSet.eq_of_holds h.placed.ids hb' hb hn' ⟨ho, hpos⟩ hnid
        cases hnv' <;> cases hz

end Graph.Prepared

end Diversity
