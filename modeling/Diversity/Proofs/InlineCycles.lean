import Diversity.Proofs.Placements
/-! When blocks can be spliced into their callers: if no calls lead from a function around in a circle of blocks that
are all spliced in. Such a circle is of blocks that the description asks to splice in. -/
namespace Diversity

namespace Placement

/-- Calls lead from the first block to the last one, and all blocks that they enter are spliced in. -/
def Splices (p : Placement) (bs : BlockSet) (b : Block) (q : CallPath) (c : Block) : Prop :=
  Walk bs b q c ∧ ∀ n ∈ q.entered, p.isInline n = true

/-- From a function, calls that enter none but blocks that are spliced in enter one of them twice. -/
def Loops (p : Placement) (bs : BlockSet) : Prop :=
  ∃ b ∈ bs.toList, p.isFunc b.name = true ∧ ∃ q c, p.Splices bs b q c ∧ ¬ q.entered.Nodup

/-- The first block is spliced into the second one. -/
def SplicedInto (p : Placement) (bs : BlockSet) (c b : Block) : Prop :=
  p.isInline c.name = true ∧ ∃ callee ∈ Stmt.refs b.statements, bs.resolve callee = .ok c

variable {p : Placement} {bs : BlockSet} {b c : Block} {q : CallPath}

theorem Splices.transGen (h : p.Splices bs b q c) (hq : q ≠ []) : Relation.TransGen (p.SplicedInto bs) c b := by
  obtain ⟨hwalk, hall⟩ := h
  induction hwalk with
  | nil => exact absurd rfl hq
  | @cons b c d call callee q hcall hr hwalk ih =>
      obtain ⟨hc, hall⟩ := List.forall_mem_cons.1 hall
      have hstep : p.SplicedInto bs c b := ⟨hc, callee, List.mem_map_of_mem hcall, hr⟩
      cases q with
      | nil =>
          cases hwalk
          exact .single hstep
      | cons site q => exact .tail (ih (List.cons_ne_nil _ _) hall) hstep

/-- What has been spliced can be spliced no further: blocks are spliced into each other to a finite depth. -/
theorem acc_of_expand (hp : ∀ n, p.isFunc n = true → p.isInline n = false) {entered : List String}
    {body body' : List Stmt} {s s' : Supply} (h : p.expand bs entered body s = .ok (body', s')) {callee : BlockRef}
    (hcallee : callee ∈ Stmt.refs body) (hr : bs.resolve callee = .ok c) (hc : p.isInline c.name = true) :
    Acc (p.SplicedInto bs) c := by
  refine expand_induction (Q := fun _ body _ _ => ∀ callee ∈ Stmt.refs body, ∀ c, bs.resolve callee = .ok c →
    p.isInline c.name = true → Acc (p.SplicedInto bs) c) ?_ h callee hcallee c hr hc
  intro s body body' s' h callee hcallee c hr hc
  obtain ⟨⟨i, _⟩, hcall, rfl⟩ := List.mem_map.1 hcallee
  obtain ⟨s₁, front, s₂, hR, -⟩ := h.operands_of_call hcall
  cases hR with
  | kept hfunc =>
      rw [BlockSet.name_of_find? (BlockSet.find?_of_resolve hr), hp _ hfunc] at hc
      cases hc
  | spliced _ hr' hcopy hq =>
      obtain rfl := Except.ok.inj (hr.symm.trans hr')
      refine Acc.intro c fun c' ⟨hc', callee', hcallee', hres⟩ => hq callee' ?_ c' hres hc'
      rw [Stmt.refs_of_refreshAll hcopy]
      exact hcallee'

theorem acc_of_inline (hp : ∀ n, p.isFunc n = true → p.isInline n = false) {blocks : List Block} {s s' : Supply}
    (h : p.inline bs s = .ok (blocks, s')) (hb : b ∈ bs.toList) (hfunc : p.isFunc b.name = true) :
    Acc (p.SplicedInto bs) b := by
  obtain ⟨_, -, _, _, body, hbody, -⟩ :=
    forall₂_mem_left (inline_chained h).forall₂ (List.mem_filter.2 ⟨hb, hfunc⟩)
  exact Acc.intro b fun c ⟨hc, callee, hcallee, hr⟩ => acc_of_expand hp hbody hcallee hr hc

/-- What is spliced in to a finite depth is not spliced into itself. -/
theorem Splices.not_acc (h : p.Splices bs b q b) (hq : q ≠ []) : ¬ Acc (p.SplicedInto bs) b := by
  intro hacc
  have hirrefl {d : Block} (hd : Acc (Relation.TransGen (p.SplicedInto bs)) d) :
      ¬ Relation.TransGen (p.SplicedInto bs) d d := by
    induction hd with
    | intro d _ ih => exact fun hself => ih d hself hself
  exact hirrefl hacc.transGen (h.transGen hq)

/-- Calls that enter a block twice have gone in a circle. -/
theorem Splices.exists_cycle (h : p.Splices bs b q c) (hb : bs.find? b.name = some b) (hn : ¬ q.entered.Nodup) :
    ∃ front d cycle, cycle ≠ [] ∧ p.Splices bs b front d ∧ p.Splices bs d cycle d := by
  obtain ⟨hwalk, hall⟩ := h
  obtain ⟨front, d, cycle, back, rfl, hne, hfront, hcycle, -⟩ :=
    hwalk.exists_cycle hb fun hnodup => hn (List.nodup_cons.1 hnodup).2
  simp only [CallPath.entered, List.map_append, List.mem_append] at hall
  exact ⟨front, d, cycle, hne, ⟨hfront, fun n hn => hall n (.inl hn)⟩, ⟨hcycle, fun n hn => hall n (.inr (.inl hn))⟩⟩

theorem Loops.exists_cycle (h : p.Loops bs) (hnames : bs.names.Nodup) :
    ∃ c ∈ bs.toList, ∃ cycle, cycle ≠ [] ∧ p.Splices bs c cycle c := by
  obtain ⟨b, hb, -, q, c, hq, hn⟩ := h
  have hfind := BlockSet.find?_name hnames hb
  obtain ⟨front, d, cycle, hne, hfront, hcycle⟩ := hq.exists_cycle hfind hn
  exact ⟨d, BlockSet.mem_of_find? (hfront.1.find? hfind), cycle, hne, hcycle⟩

theorem Loops.inline_ne_ok (h : p.Loops bs) (htied : bs.Tied) (hp : ∀ n, p.isFunc n = true → p.isInline n = false)
    (s : Supply) (blocks : List Block) (s' : Supply) : p.inline bs s ≠ .ok (blocks, s') := by
  intro hin
  obtain ⟨b, hb, hfunc, q, c, hq, hn⟩ := h
  obtain ⟨front, d, cycle, hne, hfront, hcycle⟩ := hq.exists_cycle (BlockSet.find?_name htied.names hb) hn
  have hacc := acc_of_inline hp hin hb hfunc
  refine hcycle.not_acc hne ?_
  by_cases hf : front = []
  · subst hf
    cases hfront.1
    exact hacc
  · exact hacc.inv_of_transGen (hfront.transGen hf)

variable {g : Graph}

theorem Admissible.isInline_eq (h : p.Admissible g) {n : String} (hn : n ∈ g.blocks.names) :
    p.isInline n = !p.isFunc n := by
  rw [Bool.eq_iff_iff]
  simpa [isInline, isFunc] using h.apart n hn

theorem Admissible.isInline_of_isFunc (h : p.Admissible g) {n : String} (hn : p.isFunc n = true) :
    p.isInline n = false := by
  rw [h.isInline_eq (h.funcs.subset (List.contains_iff_mem.1 hn)), hn]
  rfl

theorem Admissible.inline_eq_error (h : p.Admissible g) (htied : g.blocks.Tied) {s : Supply} {e : SynthesisError}
    (he : p.inline g.blocks s = .error e) : p.Loops g.blocks ∧ ∃ n, e = .recursiveInline n := by
  have hcovers : ∀ n ∈ g.blocks.names, p.isFunc n = true ∨ p.isInline n = true := fun n hn => by
    rw [h.isInline_eq hn]
    cases p.isFunc n <;> simp
  obtain ⟨b, hb, hfunc, q, d, hwalk, hall, hn, rfl⟩ := Placement.inline_eq_error htied hcovers he
  refine ⟨⟨b, hb, hfunc, q, d, ⟨hwalk, fun n hn => ?_⟩, hn⟩, d.name, rfl⟩
  obtain ⟨_, _, _, c, -, -, hc, -, -⟩ := hwalk.exists_entered (BlockSet.find?_name htied.names hb) hn
  rw [h.isInline_eq (BlockSet.mem_names_of_find? hc), hall n hn]
  rfl

theorem Admissible.inline_cases (h : p.Admissible g) (htied : g.blocks.Tied) (s : Supply) :
    (∃ r, p.inline g.blocks s = .ok r) ∨
      p.Loops g.blocks ∧ ∃ n, p.inline g.blocks s = .error (.recursiveInline n) := by
  cases hin : p.inline g.blocks s with
  | ok r => exact .inl ⟨r, rfl⟩
  | error e =>
      obtain ⟨hloops, n, rfl⟩ := h.inline_eq_error htied hin
      exact .inr ⟨hloops, n, rfl⟩

theorem Admissible.inline_eq_error_iff (h : p.Admissible g) (htied : g.blocks.Tied) (s : Supply) :
    (∃ n, p.inline g.blocks s = .error (.recursiveInline n)) ↔ p.Loops g.blocks := by
  constructor
  · rintro ⟨n, he⟩
    exact (h.inline_eq_error htied he).1
  · intro hloops
    rcases h.inline_cases htied s with ⟨⟨blocks, s'⟩, hok⟩ | ⟨-, he⟩
    · exact absurd hok (hloops.inline_ne_ok htied (fun n => h.isInline_of_isFunc) s blocks s')
    · exact he

/-- A circle of blocks that are spliced in is of blocks that are to be spliced in. -/
theorem Admissible.marked_of_cycle (h : p.Admissible g) (htied : g.blocks.Tied) (hc : c ∈ g.blocks.toList)
    (hcycle : p.Splices g.blocks c q c) {n : String} (hn : n ∈ q.entered) :
    ∃ b ∈ g.blocks.toList, b.name = n ∧ b.constraint.inline = true ∧ b.constraint.func = false := by
  obtain ⟨hwalk, hall⟩ := hcycle
  obtain ⟨front, site, back, b, -, -, hb, hfront, hback⟩ :=
    hwalk.exists_entered (BlockSet.find?_name htied.names hc) hn
  have hmem := BlockSet.mem_of_find? hb
  have hname := BlockSet.name_of_find? hb
  have hrecurs : b.Recurs g.blocks := ⟨back ++ (front ++ [site]), by simp, hback.append hfront⟩
  have hnot : ¬ b.MustBeFunc g := fun hmust => by
    have hfunc : p.isFunc n = true := List.contains_iff_mem.2 (hname ▸ h.func b hmem hmust)
    have hinline := hall n hn
    rw [h.isInline_of_isFunc hfunc] at hinline
    cases hinline
  obtain ⟨-, hfunc, hinline⟩ : ¬ b.name = g.entry ∧ ¬ b.constraint.func = true ∧
      ¬ (b.constraint.inline = false ∧ b.Recurs g.blocks) := by simpa [Block.MustBeFunc] using hnot
  refine ⟨b, hmem, hname, ?_, by simpa using hfunc⟩
  by_contra hfalse
  exact hinline ⟨by simpa using hfalse, hrecurs⟩

theorem Admissible.declared_of_cycle (h : p.Admissible g) {d : Description} {s s' : Supply}
    (hd : d.toGraph s = .ok (g, s')) (hc : c ∈ g.blocks.toList) (hcycle : p.Splices g.blocks c q c) {n : String}
    (hn : n ∈ q.entered) : ∃ b ∈ d.blocks, b.name = n ∧ b.inline = true ∧ b.func = false := by
  obtain ⟨b, hb, hname, hinline, hfunc⟩ := h.marked_of_cycle (Description.compiled hd).tied hc hcycle hn
  obtain ⟨b', hb', hname', hconstraint⟩ := Description.exists_block hd hb
  rw [← hconstraint] at hinline hfunc
  exact ⟨b', hb', hname'.trans hname, hinline, hfunc⟩

/-- With a placement that was drawn, splicing gives the functions unless calls from one of them go in a circle of
blocks that are spliced in. The description asks to splice in all blocks of such a circle, so that there is none if it
asks for no block to be spliced in. What is left are calls of functions. -/
theorem inline_fails_iff_loops {σ : Type} [RandomSource σ] {d : Description} {s s' : Supply} {source source' : σ}
    (hd : d.toGraph s = .ok (g, s')) (hp : draw g source = .ok (p, source')) :
    (∀ supply, (∃ r, p.inline g.blocks supply = .ok r) ∨ ∃ n, p.inline g.blocks supply = .error (.recursiveInline n)) ∧
    (∀ supply, (∃ n, p.inline g.blocks supply = .error (.recursiveInline n)) ↔ p.Loops g.blocks) ∧
    (∀ c ∈ g.blocks.toList, ∀ cycle, p.Splices g.blocks c cycle c → ∀ n ∈ cycle.entered,
      ∃ b ∈ d.blocks, b.name = n ∧ b.inline = true ∧ b.func = false) ∧
    ((∀ b ∈ d.blocks, b.inline = false) → ∀ supply, ∃ r, p.inline g.blocks supply = .ok r) ∧
    ∀ supply blocks supply', p.inline g.blocks supply = .ok (blocks, supply') →
      ∀ b ∈ blocks, ∀ c ∈ b.calls, p.isInline c.2.name = false := by
  have hg := Description.compiled hd
  have hadm := admissible_of_draw hg.tied hg.chunkIds hp
  refine ⟨fun supply => (hadm.inline_cases hg.tied supply).imp_right And.right, hadm.inline_eq_error_iff hg.tied,
    fun c hc cycle hcycle n hn => hadm.declared_of_cycle hd hc hcycle hn, fun hnone supply => ?_, ?_⟩
  · rcases hadm.inline_cases hg.tied supply with hok | ⟨hloops, -⟩
    · exact hok
    · -- the first block that a circle enters would be one that is to be spliced in
      obtain ⟨c, hc, cycle, hne, hcycle⟩ := hloops.exists_cycle hg.names
      obtain ⟨site, rest, rfl⟩ := List.exists_cons_of_ne_nil hne
      obtain ⟨b, hb, -, hinline, -⟩ := hadm.declared_of_cycle hd hc hcycle (n := site.block) List.mem_cons_self
      rw [hnone b hb] at hinline
      cases hinline
  · intro supply blocks supply' hok b hb c hc
    obtain ⟨a, -, _, _, body, hbody, rfl⟩ := forall₂_mem_right (inline_chained hok).forall₂ hb
    exact hadm.isInline_of_isFunc (calls_expand hbody (List.mem_map_of_mem hc)).1

end Placement

/-- Two blocks that are to be spliced into each other. -/
def Description.circling : Description where
  entry := "main"
  externs := []
  chunks := []
  blocks := [
    ⟨"main", false, false, false, [.call "enter"]⟩,
    ⟨"enter", false, true, false, [.call "there"]⟩,
    ⟨"there", false, true, false, [.call "back"]⟩,
    ⟨"back", false, true, false, [.call "there"]⟩]

theorem inline_fails_iff_loops_circling : ∃ g s p source n, Description.circling.toGraph .first = .ok (g, s) ∧
    Placement.draw g (Words.ofList []) = .ok (p, source) ∧ p.inline g.blocks s = .error (.recursiveInline n) ∧
    p.Loops g.blocks := by
  have h : (do
      let r ← (Description.circling.toGraph .first).toOption
      let p ← (Placement.draw r.1 (Words.ofList [])).toOption
      guard (!(p.1.inline r.1.blocks r.2).isOk) : Option Unit).isSome = true := by
    decide +kernel
  simp only [Option.isSome_iff_exists, Option.bind_eq_bind, Option.bind_eq_some_iff, toOption_eq_some] at h
  obtain ⟨_, ⟨g, s⟩, hg, ⟨p, source⟩, hp, h⟩ := h
  obtain ⟨hcases, hiff, -⟩ := Placement.inline_fails_iff_loops hg hp
  rcases hcases s with ⟨r, hok⟩ | ⟨n, he⟩
  · simp [hok, Except.isOk, Except.toBool] at h
  · exact ⟨g, s, p, source, n, hg, hp, he, (hiff s).1 ⟨n, he⟩⟩

end Diversity
