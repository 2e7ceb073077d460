import Diversity.Proofs.Supplied
/-! Which placements can be drawn: all that heed what the description asks of blocks and chunks and that make
functions of the blocks that calls lead back to. Every other choice is the toss of a coin. -/
namespace Diversity

/-! ## Blocks that calls lead back to -/

namespace Block

variable {bs : BlockSet} {goal : String}

/-- One or more calls lead from the block back to it. -/
def Recurs (bs : BlockSet) (b : Block) : Prop := ∃ q, q ≠ [] ∧ Walk bs b q b

theorem exists_call_of_pushCallees {calls : List BlockRef} {seen : List String} {pending : List Block}
    (h : pushCallees bs goal calls seen pending = .ok none) : ∃ r ∈ calls, r.name = goal := by
  induction calls generalizing seen pending with
  | nil => cases h
  | cons r calls ih =>
      have hlater (h : ∃ r ∈ calls, r.name = goal) : ∃ r' ∈ r :: calls, r'.name = goal :=
        h.imp fun r' hr' => ⟨List.mem_cons_of_mem r hr'.1, hr'.2⟩
      unfold pushCallees at h
      split at h
      · next hgoal => exact ⟨r, List.mem_cons_self, hgoal⟩
      · split at h
        · exact hlater (ih h)
        · obtain ⟨b, -, h⟩ := bind_eq_ok.1 h
          exact hlater (ih h)

/-- A search finds its goal among the calls of a block that calls lead to. -/
theorem exists_walk_of_callsBelow {root : Block} {seen : List String} {pending : List Block}
    (h : callsBelow bs goal seen pending = .ok true) (hp : ∀ d ∈ pending, ∃ q, Walk bs root q d) :
    ∃ q d, Walk bs root q d ∧ ∃ c ∈ d.calls, c.2.name = goal := by
  fun_induction callsBelow bs goal seen pending with
  | case1 => cases h
  | case2 => cases h
  | case3 seen b pending hpush =>
      obtain ⟨q, hq⟩ := hp b List.mem_cons_self
      obtain ⟨r, hr, hgoal⟩ := exists_call_of_pushCallees hpush
      obtain ⟨c, hc, rfl⟩ := List.mem_map.1 hr
      exact ⟨q, b, hq, c, hc, hgoal⟩
  | case4 seen b pending seen' pending' hpush ih =>
      obtain ⟨-, -, -, -, hpending⟩ := pushCallees_eq_ok hpush
      refine ih h fun d hd => ?_
      rcases hpending d hd with hd | ⟨r, hr, hres⟩
      · exact hp d (List.mem_cons_of_mem b hd)
      · obtain ⟨q, hq⟩ := hp b List.mem_cons_self
        obtain ⟨⟨call, _⟩, hc, rfl⟩ := List.mem_map.1 hr
        exact ⟨_, hq.append (.cons hc hres .nil)⟩

theorem reachesItself_iff_recurs (htied : bs.Tied) {b : Block} (hb : b ∈ bs.toList) :
    b.reachesItself bs = .ok true ↔ b.Recurs bs := by
  constructor
  · intro h
    obtain ⟨q, d, hq, ⟨call, callee⟩, hc, hname⟩ :=
      exists_walk_of_callsBelow h (List.forall_mem_singleton.2 ⟨[], .nil⟩)
    have hd := BlockSet.mem_of_find? (hq.find? (BlockSet.find?_name htied.names hb))
    obtain ⟨b', -, hres⟩ := htied.resolve hd hc
    obtain rfl : b = b' :=
      Option.some.inj ((BlockSet.find?_name htied.names hb).symm.trans (hname ▸ BlockSet.find?_of_resolve hres))
    exact ⟨_, by simp, hq.append (.cons hc hres .nil)⟩
  · rintro ⟨q, hne, hq⟩
    exact reachesItself_of_walk htied hb hne hq

end Block

/-! ## Choices -/

section

variable {ε σ α : Type}

theorem sublist_of_filterM {f : α → StateT σ (Except ε) Bool} {as bs : List α} {s s' : σ}
    (h : as.filterM f s = .ok (bs, s')) : List.Sublist bs as := by
  induction as generalizing bs s with
  | nil =>
      rw [filterM_nil] at h
      cases h
      exact List.Sublist.slnil
  | cons a as ih =>
      obtain ⟨keep, s₁, rest, -, hrest, rfl⟩ := filterM_cons_eq_ok.1 h
      cases keep with
      | false => exact (ih hrest).cons a
      | true => exact (ih hrest).cons_cons a

theorem exists_true_of_mem_filterM {f : α → StateT σ (Except ε) Bool} {as bs : List α} {s s' : σ}
    (h : as.filterM f s = .ok (bs, s')) {a : α} (ha : a ∈ bs) : ∃ s₁ s₂, f a s₁ = .ok (true, s₂) := by
  induction as generalizing bs s with
  | nil =>
      rw [filterM_nil] at h
      cases h
      cases ha
  | cons a' as ih =>
      obtain ⟨keep, s₁, rest, hkeep, hrest, rfl⟩ := filterM_cons_eq_ok.1 h
      cases keep with
      | false => exact ih hrest ha
      | true =>
          rcases List.mem_cons.1 ha with rfl | ha
          · exact ⟨s, s₁, hkeep⟩
          · exact ih hrest ha

/-- The members of a part of a list tell which part it is. -/
theorem filter_contains_of_sublist [BEq α] [LawfulBEq α] {as bs : List α} (h : List.Sublist bs as) (hn : as.Nodup) :
    as.filter bs.contains = bs := by
  induction h with
  | slnil => rfl
  | @cons bs as a h ih =>
      obtain ⟨ha, hn⟩ := List.nodup_cons.1 hn
      have hnot : a ∉ bs := fun hmem => ha (h.subset hmem)
      rw [List.filter_cons_of_neg (by simpa using hnot), ih hn]
  | @cons_cons bs as a h ih =>
      obtain ⟨ha, hn⟩ := List.nodup_cons.1 hn
      rw [List.filter_cons_of_pos (by simp)]
      refine congrArg (a :: ·) (Eq.trans (List.filter_congr fun x hx => ?_) (ih hn))
      have hne : x ≠ a := fun e => ha (e ▸ hx)
      simp [hne]

/-- The answer is given whatever the source, and nothing is drawn. -/
def Settled (x : StateT σ (Except ε) Bool) (answer : Bool) : Prop := ∀ source, x source = .ok (answer, source)

theorem mem_of_settled {f : α → StateT σ (Except ε) Bool} {as bs : List α} {s s' : σ}
    (h : as.filterM f s = .ok (bs, s')) {a : α} (ha : a ∈ as) (hf : Settled (f a) true) : a ∈ bs := by
  refine mem_of_filterM h ha fun s₁ keep s₂ hkeep => ?_
  rw [hf s₁] at hkeep
  cases hkeep
  rfl

theorem not_mem_of_settled {β : Type} {key : α → β} {f : α → StateT σ (Except ε) Bool} {as bs : List α} {s s' : σ}
    (h : as.filterM f s = .ok (bs, s')) (hn : (as.map key).Nodup) {a : α} (ha : a ∈ as) (hf : Settled (f a) false) :
    key a ∉ bs.map key := by
  intro hmem
  obtain ⟨a', ha', hkey⟩ := List.mem_map.1 hmem
  obtain rfl := List.inj_on_of_nodup_map hn ((sublist_of_filterM h).subset ha') ha hkey
  obtain ⟨s₁, s₂, htrue⟩ := exists_true_of_mem_filterM h ha'
  rw [hf s₁] at htrue
  cases htrue

/-- The answer is the toss of a coin. -/
def Tossed [RandomSource σ] (x : StateT σ (Except ε) Bool) : Prop := ∀ source, x source = .ok (coin source)

theorem coin_ofList (w : UInt64) (ws : List UInt64) :
    coin (Words.ofList (w :: ws)) = (decide (w.toNat < 2 ^ 63), Words.ofList ws) := by
  refine Prod.ext (decide_eq_decide.2 ?_) rfl
  exact UInt64.lt_iff_toNat_lt

/-- Tosses that come out as wanted, in the order of the questions that are left to them. -/
theorem filterM_ofList {f : α → StateT Words (Except ε) Bool} {free keep : α → Bool} {as : List α}
    (hsettled : ∀ a ∈ as, free a = false → Settled (f a) (keep a)) (htossed : ∀ a ∈ as, free a = true → Tossed (f a))
    {words : List UInt64} (rest : List UInt64)
    (h : words.map (fun w => decide (w.toNat < 2 ^ 63)) = (as.filter free).map keep) :
    as.filterM f (.ofList (words ++ rest)) = .ok (as.filter keep, .ofList rest) := by
  induction as generalizing words with
  | nil =>
      obtain rfl := List.map_eq_nil_iff.1 h
      rw [filterM_nil]
      rfl
  | cons a as ih =>
      obtain ⟨hs, hsettled⟩ := List.forall_mem_cons.1 hsettled
      obtain ⟨ht, htossed⟩ := List.forall_mem_cons.1 htossed
      refine filterM_cons_eq_ok.2 ?_
      cases hfree : free a with
      | false =>
          rw [List.filter_cons_of_neg (by simp [hfree])] at h
          exact ⟨keep a, _, _, hs hfree _, ih hsettled htossed h, List.filter_cons⟩
      | true =>
          rw [List.filter_cons_of_pos hfree, List.map_cons] at h
          obtain ⟨w, words, rfl, hw, h⟩ := List.map_eq_cons_iff.1 h
          have hcoin := ht hfree (.ofList (w :: (words ++ rest)))
          rw [coin_ofList, hw] at hcoin
          exact ⟨keep a, _, _, hcoin, ih hsettled htossed h, List.filter_cons⟩

end

/-! ## Placements -/

/-- The block is made a function for certain. -/
def Block.MustBeFunc (g : Graph) (b : Block) : Prop :=
  b.name = g.entry ∨ b.constraint.func = true ∨ b.constraint.inline = false ∧ b.Recurs g.blocks

/-- The block is spliced in for certain. -/
def Block.MustBeInline (g : Graph) (b : Block) : Prop :=
  b.name ≠ g.entry ∧ b.constraint.func = false ∧ b.constraint.inline = true

/-- The block may be a function and it may be spliced in. -/
def Block.IsFree (g : Graph) (b : Block) : Prop := ¬ b.MustBeFunc g ∧ ¬ b.MustBeInline g

namespace Placement

/-- The placement heeds what is asked of blocks and chunks. It lists all in the order of the graph, so that it is
given by what it lists. -/
structure Admissible (g : Graph) (p : Placement) : Prop where
  funcs : List.Sublist p.funcs g.blocks.names
  inlines : List.Sublist p.inlines g.blocks.names
  locals : List.Sublist p.locals (g.chunks.map (·.id))
  apart : ∀ n ∈ g.blocks.names, n ∈ p.inlines ↔ n ∉ p.funcs
  func : ∀ b ∈ g.blocks.toList, b.MustBeFunc g → b.name ∈ p.funcs
  inline : ∀ b ∈ g.blocks.toList, b.MustBeInline g → b.name ∈ p.inlines
  isLocal : ∀ c ∈ g.chunks, c.constraint.isLocal = true → c.id ∈ p.locals
  isGlobal : ∀ c ∈ g.chunks, c.constraint.isGlobal = true → c.id ∉ p.locals

open scoped Classical in
/-- What the placement makes of free blocks and chunks: whether each block is a function, and then whether each
chunk is local. -/
noncomputable def choices (g : Graph) (p : Placement) : List Bool :=
  (g.blocks.toList.filter (·.IsFree g)).map (p.isFunc ·.name) ++
    (g.chunks.filter (·.constraint.reach.isNone)).map (p.isLocal ·.id)

variable {σ : Type} [RandomSource σ] {g : Graph} {p : Placement}

theorem settled_of_mustBeFunc (htied : g.blocks.Tied) {b : Block} (hb : b ∈ g.blocks.toList) (h : b.MustBeFunc g) :
    Settled (drawFunc g b : StateT σ _ Bool) true := by
  intro source
  by_cases hfunc : b.name = g.entry ∨ b.constraint.func = true
  · rw [drawFunc, if_pos hfunc]
    rfl
  · obtain ⟨hentry, hnot⟩ := not_or.1 hfunc
    obtain ⟨hinline, hrecurs⟩ := (h.resolve_left hentry).resolve_left hnot
    rw [drawFunc, if_neg hfunc, if_neg (by simp [hinline]), (Block.reachesItself_iff_recurs htied hb).2 hrecurs]
    rfl

theorem settled_of_mustBeInline {b : Block} (h : b.MustBeInline g) :
    Settled (drawFunc g b : StateT σ _ Bool) false := by
  intro source
  obtain ⟨hentry, hfunc, hinline⟩ := h
  rw [drawFunc, if_neg (by simp [hentry, hfunc]), if_pos hinline]
  rfl

theorem tossed_of_isFree (htied : g.blocks.Tied) {b : Block} (hb : b ∈ g.blocks.toList) (h : b.IsFree g) :
    Tossed (drawFunc g b : StateT σ _ Bool) := by
  intro source
  obtain ⟨hentry, hfunc, hrecurs⟩ : b.name ≠ g.entry ∧ ¬ b.constraint.func = true ∧
      ¬ (b.constraint.inline = false ∧ b.Recurs g.blocks) := by simpa [Block.MustBeFunc] using h.1
  have hinline : b.constraint.inline = false := by
    by_contra hinline
    exact h.2 ⟨hentry, by simpa using hfunc, by simpa using hinline⟩
  have hitself : b.reachesItself g.blocks = .ok false := by
    cases hreach : b.reachesItself g.blocks with
    | error e => exact absurd hreach (Block.callsBelow_ne_error htied (by simpa using hb) e)
    | ok itself =>
        cases itself with
        | false => rfl
        | true => exact absurd ⟨hinline, (Block.reachesItself_iff_recurs htied hb).1 hreach⟩ hrecurs
  rw [drawFunc, if_neg (by simp [hentry, hfunc]), if_neg (by simp [hinline]), hitself]
  rfl

theorem drawLocal_spec (c : Chunk) :
    (c.constraint.isLocal = true → Settled (modifyGet (drawLocal c) : StateT σ (Except SynthesisError) Bool) true) ∧
    (c.constraint.isGlobal = true → Settled (modifyGet (drawLocal c) : StateT σ (Except SynthesisError) Bool) false) ∧
    (c.constraint.reach = none → Tossed (modifyGet (drawLocal c) : StateT σ (Except SynthesisError) Bool)) := by
  have hdraw (x : StateM σ Bool) (hx : drawLocal c = x) (source : σ) :
      (modifyGet (drawLocal c) : StateT σ (Except SynthesisError) Bool) source = .ok (x source) := by
    rw [hx]
    rfl
  simp only [Chunk.Constraint.isLocal, Chunk.Constraint.isGlobal, beq_iff_eq]
  refine ⟨fun h => hdraw (pure true) ?_, fun h => hdraw (pure false) ?_, fun h => hdraw coin ?_⟩ <;> rw [drawLocal, h]

theorem admissible_of_draw (htied : g.blocks.Tied) (hids : (g.chunks.map (·.id)).Nodup) {source source' : σ}
    (h : draw g source = .ok (p, source')) : p.Admissible g := by
  obtain ⟨_, funcs, locals, _, -, hfuncs, hlocals, rfl⟩ := draw_eq_ok.1 h
  have hsub := (sublist_of_filterM hfuncs).map (·.name)
  have hsub' := (sublist_of_filterM hlocals).map (·.id)
  refine ⟨hsub, List.filter_sublist, hsub', ?_, ?_, ?_, ?_, ?_⟩
  · intro n hn
    simp [hn]
  · intro b hb hmust
    exact List.mem_map_of_mem (mem_of_settled hfuncs hb (settled_of_mustBeFunc htied hb hmust))
  · intro b hb hmust
    have hnot := not_mem_of_settled hfuncs htied.names hb (settled_of_mustBeInline hmust)
    exact List.mem_filter.2 ⟨List.mem_map_of_mem hb, by simpa using hnot⟩
  · intro c hc hlocal
    exact List.mem_map_of_mem (mem_of_settled hlocals hc ((drawLocal_spec c).1 hlocal))
  · intro c hc hglobal
    exact not_mem_of_settled hlocals hids hc ((drawLocal_spec c).2.1 hglobal)

namespace Admissible

theorem eq_filter (hp : p.Admissible g) (hnames : g.blocks.names.Nodup) (hids : (g.chunks.map (·.id)).Nodup) :
    (g.blocks.toList.filter (p.isFunc ·.name)).map (·.name) = p.funcs ∧
    g.blocks.names.filter (!p.funcs.contains ·) = p.inlines ∧
    (g.chunks.filter (p.isLocal ·.id)).map (·.id) = p.locals := by
  refine ⟨?_, ?_, ?_⟩
  · refine Eq.trans ?_ (filter_contains_of_sublist hp.funcs hnames)
    exact List.filter_map.symm
  · refine Eq.trans (List.filter_congr fun n hn => ?_) (filter_contains_of_sublist hp.inlines hnames)
    rw [Bool.eq_iff_iff]
    simpa using (hp.apart n hn).symm
  · refine Eq.trans ?_ (filter_contains_of_sublist hp.locals hids)
    exact List.filter_map.symm

theorem settled_of_not_isFree (hp : p.Admissible g) (htied : g.blocks.Tied) {b : Block} (hb : b ∈ g.blocks.toList)
    (h : ¬ b.IsFree g) : Settled (drawFunc g b : StateT σ _ Bool) (p.isFunc b.name) := by
  by_cases hmust : b.MustBeFunc g
  · rw [isFunc, List.contains_iff_mem.2 (hp.func b hb hmust)]
    exact settled_of_mustBeFunc htied hb hmust
  · have hmust : b.MustBeInline g := by
      by_contra hnot
      exact h ⟨hmust, hnot⟩
    have hfunc := (hp.apart b.name (List.mem_map_of_mem hb)).1 (hp.inline b hb hmust)
    have hfalse : p.isFunc b.name = false := by simpa [isFunc] using hfunc
    rw [hfalse]
    exact settled_of_mustBeInline hmust

theorem settled_of_reach (hp : p.Admissible g) {c : Chunk} (hc : c ∈ g.chunks) (h : c.constraint.reach ≠ none) :
    Settled (modifyGet (drawLocal c) : StateT σ (Except SynthesisError) Bool) (p.isLocal c.id) := by
  obtain ⟨reach, hreach⟩ := Option.ne_none_iff_exists'.1 h
  cases reach with
  | «local» =>
      have hlocal : c.constraint.isLocal = true := by simp [Chunk.Constraint.isLocal, hreach]
      rw [Placement.isLocal, List.contains_iff_mem.2 (hp.isLocal c hc hlocal)]
      exact (drawLocal_spec c).1 hlocal
  | global =>
      have hglobal : c.constraint.isGlobal = true := by simp [Chunk.Constraint.isGlobal, hreach]
      have hfalse : p.isLocal c.id = false := by simpa [Placement.isLocal] using hp.isGlobal c hc hglobal
      rw [hfalse]
      exact (drawLocal_spec c).2.1 hglobal

/-- An admissible placement is drawn if the words come out as it makes its choices. -/
theorem draw_ofList (hp : p.Admissible g) (htied : g.blocks.Tied) (hentry : g.entry ∈ g.blocks.names)
    (hids : (g.chunks.map (·.id)).Nodup) {words : List UInt64} (rest : List UInt64)
    (hwords : words.map (fun w => decide (w.toNat < 2 ^ 63)) = p.choices g) :
    draw g (Words.ofList (words ++ rest)) = .ok (p, Words.ofList rest) := by
  obtain ⟨ws, ws', rfl, hws, hws'⟩ := List.map_eq_append_iff.1 hwords
  obtain ⟨root, hroot⟩ : ∃ root, g.root = .ok root := by
    cases hf : g.blocks.find? g.entry with
    | none => exact absurd hentry (BlockSet.find?_eq_none.1 hf)
    | some root => exact ⟨root, by rw [Graph.root, hf]⟩
  obtain ⟨hfuncs, hinlines, hlocals⟩ := hp.eq_filter htied.names hids
  refine draw_eq_ok.2 ⟨root, g.blocks.toList.filter (p.isFunc ·.name), g.chunks.filter (p.isLocal ·.id),
    Words.ofList (ws' ++ rest), hroot, ?_, ?_, by rw [hfuncs, hinlines, hlocals]⟩
  · rw [List.append_assoc]
    refine filterM_ofList (fun b hb hfree => ?_) (fun b hb hfree => ?_) _ hws
    · exact hp.settled_of_not_isFree htied hb (by simpa using hfree)
    · exact tossed_of_isFree htied hb (by simpa using hfree)
  · refine filterM_ofList (fun c hc hfree => ?_) (fun c hc hfree => ?_) _ hws'
    · exact hp.settled_of_reach hc (by simpa [Option.isSome_iff_ne_none] using hfree)
    · exact (drawLocal_spec c).2.2 (by simpa using hfree)

end Admissible

/-- What can be drawn are the admissible placements. Nothing fails to be drawn, and one word is drawn for each free
block and then for each free chunk: the block is a function, or the chunk local, if the word is below half of the
range of words. -/
theorem draw_iff_admissible {d : Description} {s s' : Supply} (hd : d.toGraph s = .ok (g, s')) :
    (∀ (τ : Type) [RandomSource τ] (source : τ), ∃ p source', draw g source = .ok (p, source')) ∧
    (∀ p, (∃ (τ : Type) (_ : RandomSource τ) (source source' : τ), draw g source = .ok (p, source')) ↔
      p.Admissible g) ∧
    ∀ p, p.Admissible g → ∀ words rest : List UInt64,
      words.map (fun w => decide (w.toNat < 2 ^ 63)) = p.choices g →
      draw g (Words.ofList (words ++ rest)) = .ok (p, Words.ofList rest) := by
  have hg := Description.compiled hd
  have hwords (p : Placement) (hp : p.Admissible g) (words rest : List UInt64)
      (h : words.map (fun w => decide (w.toNat < 2 ^ 63)) = p.choices g) :
      draw g (Words.ofList (words ++ rest)) = .ok (p, Words.ofList rest) :=
    hp.draw_ofList hg.tied hg.entry hg.chunkIds rest h
  refine ⟨fun τ _ source => ?_, fun p => ⟨?_, fun hp => ?_⟩, hwords⟩
  · cases h : draw g source with
    | error e => exact absurd h (draw_ne_error hg.tied hg.entry source e)
    | ok r => exact ⟨r.1, r.2, rfl⟩
  · rintro ⟨τ, _, source, source', h⟩
    exact admissible_of_draw hg.tied hg.chunkIds h
  · let word (x : Bool) : UInt64 := if x then 0 else 0x8000000000000000
    refine ⟨Words, inferInstance, _, _, hwords p hp ((p.choices g).map word) [] ?_⟩
    rw [List.map_map]
    refine (List.map_congr_left fun x _ => ?_).trans (List.map_id _)
    cases x <;> simp [word]

end Placement

/-- Two blocks and a chunk are free: the entry and the block that calls itself are functions. -/
def Description.leaving : Description where
  entry := "main"
  externs := []
  chunks := [
    ⟨none, true, false, false, [⟨"x", "int", none⟩]⟩,
    ⟨none, false, false, false, [⟨"y", "int", none⟩]⟩]
  blocks := [
    ⟨"main", false, true, false, [.call "walk", .call "first", .call "second"]⟩,
    ⟨"walk", false, false, false, [.assign (.var "x") (.value "1"), .call "walk"]⟩,
    ⟨"first", false, false, false, [.assign (.var "y") (.value "2")]⟩,
    ⟨"second", false, false, false, [.assign (.var "y") (.value "3")]⟩]

/-- The first of the free blocks is spliced in, the second one is a function, and the free chunk is global. -/
theorem draw_iff_admissible_leaving : ∃ (g : Graph) (s : Supply) (p : Placement),
    Description.leaving.toGraph .first = .ok (g, s) ∧
    (∀ p, (∃ (τ : Type) (_ : RandomSource τ) (source source' : τ), Placement.draw g source = .ok (p, source')) ↔
      p.Admissible g) ∧
    p.Admissible g ∧ p.funcs = ["main", "walk", "second"] ∧ p.inlines = ["first"] ∧ p.locals = [⟨1⟩] := by
  have h : (do
      let r ← (Description.leaving.toGraph .first).toOption
      let p ← (Placement.draw r.1 (Words.ofList [0x8000000000000000, 0, 0xFFFFFFFFFFFFFFFF])).toOption
      Option.guard (fun _ => p.1.funcs = ["main", "walk", "second"] ∧ p.1.inlines = ["first"] ∧
        p.1.locals = [⟨1⟩]) () : Option Unit).isSome = true := by
    decide +kernel
  simp only [Option.isSome_iff_exists, Option.bind_eq_bind, Option.bind_eq_some_iff, Option.guard_eq_some_iff,
    decide_eq_true_eq, toOption_eq_some] at h
  obtain ⟨_, ⟨g, s⟩, hg, ⟨p, source⟩, hp, -, hlists⟩ := h
  obtain ⟨-, hiff, -⟩ := Placement.draw_iff_admissible hg
  exact ⟨g, s, p, hg, hiff, (hiff p).1 ⟨Words, inferInstance, _, _, hp⟩, hlists⟩

end Diversity
