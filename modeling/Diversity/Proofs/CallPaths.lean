import Diversity.Proofs.BlockSet
import Mathlib.Data.List.Induction
/-! Call paths: a trace holds the paths along which no block is entered twice, each with the block at
its end. -/
namespace Diversity

/-- From the first block the calls of the path lead to the last one. -/
inductive Walk (bs : BlockSet) : Block → CallPath → Block → Prop
  | nil {b} : Walk bs b [] b
  | cons {b c d call callee q} : (call, callee) ∈ b.calls → bs.resolve callee = .ok c → Walk bs c q d →
      Walk bs b (⟨call, c.name⟩ :: q) d

namespace CallPath

/-- The names of the blocks that a path enters. -/
def entered (q : CallPath) : List String := q.map (·.block)

/-- The path enters no block twice and none that has been entered before. -/
def Fresh (before : List String) (q : CallPath) : Prop := q.entered.Nodup ∧ ∀ n ∈ q.entered, n ∉ before

theorem fresh_nil (before : List String) : Fresh before [] :=
  ⟨List.nodup_nil, fun _ h => absurd h List.not_mem_nil⟩

theorem fresh_cons {before : List String} {site : CallSite} {q : CallPath} :
    Fresh before (site :: q) ↔ site.block ∉ before ∧ Fresh (site.block :: before) q := by
  simp only [Fresh, entered, List.map_cons, List.nodup_cons, List.mem_cons, not_or, forall_eq_or_imp]
  constructor
  · rintro ⟨⟨hs, hn⟩, hb, hq⟩
    exact ⟨hb, hn, fun n hmem => ⟨fun e => hs (e ▸ hmem), hq n hmem⟩⟩
  · rintro ⟨hb, hn, hq⟩
    exact ⟨⟨fun hs => (hq _ hs).1 rfl, hn⟩, hb, fun n hmem => (hq n hmem).2⟩

theorem fresh_singleton {n : String} {q : CallPath} : q.Fresh [n] ↔ (n :: q.entered).Nodup := by
  rw [Fresh, List.nodup_cons, and_comm]
  refine and_congr_left fun _ => ⟨fun h hn => h n hn (List.mem_singleton.2 rfl), fun h m hm e => h ?_⟩
  exact List.mem_singleton.1 e ▸ hm

theorem Fresh.sublist {before : List String} {q r : CallPath} (h : Fresh before r) (hq : List.Sublist q r) :
    Fresh before q :=
  ⟨h.1.sublist (hq.map _), fun n hn => h.2 n ((hq.map (·.block)).subset hn)⟩

/-- What comes after a block on a path does not come back to it. -/
theorem Fresh.after {before : List String} {front back : CallPath} {site : CallSite}
    (h : Fresh before (front ++ site :: back)) : Fresh [site.block] back := by
  obtain ⟨-, hn, hb⟩ := fresh_cons.1 (h.sublist (List.sublist_append_right front _))
  exact ⟨hn, fun n hmem => by simpa using fun e : n = site.block => hb n hmem (e ▸ List.mem_cons_self)⟩

end CallPath

namespace Walk

variable {bs : BlockSet} {b c d : Block} {q r : CallPath}

theorem append (h : Walk bs b q c) (h' : Walk bs c r d) : Walk bs b (q ++ r) d := by
  induction h with
  | nil => exact h'
  | cons hc hr _ ih => exact .cons hc hr (ih h')

theorem split (h : Walk bs b (q ++ r) d) : ∃ c, Walk bs b q c ∧ Walk bs c r d := by
  induction q generalizing b with
  | nil => exact ⟨b, .nil, h⟩
  | cons site q ih =>
      cases h with
      | cons hc hr h =>
        obtain ⟨c, hq, hr'⟩ := ih h
        exact ⟨c, .cons hc hr hq, hr'⟩

theorem head {site : CallSite} (h : Walk bs b (site :: q) d) : ∃ callee c, (site.call, callee) ∈ b.calls ∧
    bs.resolve callee = .ok c ∧ c.name = site.block ∧ Walk bs c q d := by
  cases h with
  | cons hc hr h => exact ⟨_, _, hc, hr, rfl, h⟩

theorem last (h : Walk bs b q d) : q.getLast?.elim b.name (·.block) = d.name := by
  induction h with
  | nil => rfl
  | cons _ _ h ih =>
      cases h with
      | nil => rfl
      | cons _ _ _ =>
        rw [List.getLast?_cons_cons]
        simpa [List.getLast?_cons] using ih

theorem find? (h : Walk bs b q d) (hb : bs.find? b.name = some b) : bs.find? d.name = some d := by
  induction h with
  | nil => exact hb
  | cons _ hr _ ih =>
      have hf := BlockSet.find?_of_resolve hr
      exact ih (BlockSet.name_of_find? hf ▸ hf)

/-- A walk comes by each of the blocks that its path enters. -/
theorem exists_entered (h : Walk bs b q d) (hb : bs.find? b.name = some b) {n : String}
    (hn : n ∈ CallPath.entered q) : ∃ front site back c, q = front ++ site :: back ∧ site.block = n ∧
      bs.find? n = some c ∧ Walk bs b (front ++ [site]) c ∧ Walk bs c back d := by
  obtain ⟨site, hsite, rfl⟩ := List.mem_map.1 hn
  obtain ⟨front, back, rfl⟩ := List.append_of_mem hsite
  rw [List.append_cons] at h
  obtain ⟨c, hfront, hback⟩ := h.split
  have hlast := hfront.last
  rw [List.getLast?_concat, Option.elim_some] at hlast
  exact ⟨front, site, back, c, rfl, rfl, hlast ▸ hfront.find? hb, hfront, hback⟩

/-- What calls lead to they also lead to without entering a block twice. -/
theorem exists_fresh (h : Walk bs b q d) (hb : bs.find? b.name = some b) :
    ∃ r : CallPath, Walk bs b r d ∧ r.Fresh [b.name] := by
  induction h with
  | nil => exact ⟨[], .nil, CallPath.fresh_nil _⟩
  | @cons b c d call callee q hc hr _ ih =>
      have hf := BlockSet.find?_of_resolve hr
      obtain ⟨r, hwalk, hfresh⟩ := ih (BlockSet.name_of_find? hf ▸ hf)
      have hwalk : Walk bs b (⟨call, c.name⟩ :: r) d := .cons hc hr hwalk
      have hfresh : CallPath.Fresh [] (⟨call, c.name⟩ :: r) := CallPath.fresh_cons.2 ⟨List.not_mem_nil, hfresh⟩
      generalize (⟨call, c.name⟩ :: r : CallPath) = path at hwalk hfresh
      by_cases hback : b.name ∈ CallPath.entered path
      · -- the calls come back to the block, and what they do after that is enough
        obtain ⟨front, site, back, e, rfl, hname, he, -, hwalk⟩ := hwalk.exists_entered hb hback
        obtain rfl := Option.some.inj (hb.symm.trans he)
        exact ⟨back, hwalk, hname ▸ hfresh.after⟩
      · exact ⟨path, hwalk, hfresh.1, fun n hn hmem => hback (List.mem_singleton.1 hmem ▸ hn)⟩

/-- Calls that come to a block for the second time have gone in a circle. -/
theorem exists_cycle (h : Walk bs b q d) (hb : bs.find? b.name = some b)
    (hn : ¬ (b.name :: CallPath.entered q).Nodup) : ∃ front c cycle back, q = front ++ (cycle ++ back) ∧
      cycle ≠ [] ∧ Walk bs b front c ∧ Walk bs c cycle c ∧ Walk bs c back d := by
  induction h with
  | nil => exact absurd (List.nodup_singleton _) hn
  | @cons b c d call callee q hc hr hwalk ih =>
      by_cases hback : b.name ∈ CallPath.entered (⟨call, c.name⟩ :: q)
      · have hwalk : Walk bs b (⟨call, c.name⟩ :: q) d := .cons hc hr hwalk
        obtain ⟨front, site, back, e, hpath, -, he, hfront, hback⟩ := hwalk.exists_entered hb hback
        obtain rfl := Option.some.inj (hb.symm.trans he)
        exact ⟨[], b, front ++ [site], back, by simp [hpath], by simp, .nil, hfront, hback⟩
      · have hf := BlockSet.find?_of_resolve hr
        obtain ⟨front, e, cycle, back, rfl, hne, hfront, hcycle, hback⟩ :=
          ih (BlockSet.name_of_find? hf ▸ hf) fun hnodup => hn (List.nodup_cons.2 ⟨hback, hnodup⟩)
        exact ⟨⟨call, c.name⟩ :: front, e, cycle, back, rfl, hne, .cons hc hr hfront, hcycle, hback⟩

end Walk

/-! ## What lies below a block -/

namespace Visit

variable {bs : BlockSet} {entered : List String} {v w : Visit} {visits : List Visit}

/-- What one call adds to the visits below the block at the end of a path. -/
inductive Entering (bs : BlockSet) (entered : List String) (path : CallPath) :
    NodeId × BlockRef → List Visit → Prop
  | known {call callee} : callee.name ∈ entered → Entering bs entered path (call, callee) []
  | new {call callee b rest} : callee.name ∉ entered → bs.resolve callee = .ok b →
      below bs (b.name :: entered) ⟨b, path ++ [⟨call, b.name⟩]⟩ = .ok rest →
      Entering bs entered path (call, callee) (⟨b, path ++ [⟨call, b.name⟩]⟩ :: rest)

theorem entering_of_below (h : v.below bs entered = .ok visits) : ∃ lists,
    List.Forall₂ (Entering bs entered v.path) v.block.calls lists ∧ visits = lists.flatten := by
  rw [below] at h
  obtain ⟨lists, hm, h⟩ := bind_eq_ok.1 h
  cases h
  refine ⟨lists, (mapM_eq_ok.1 hm).imp ?_, rfl⟩
  rintro ⟨call, callee⟩ list hf
  simp only at hf
  split at hf
  · next hn =>
    cases hf
    exact .known hn
  · next hn =>
    generalize hr : bs.resolve callee = r at hf
    cases r with
    | error e => cases hf
    | ok b =>
      obtain ⟨rest, hrest, hf⟩ := bind_eq_ok.1 hf
      cases hf
      exact .new hn hr hrest

/-- The visits below a block are the ends of the paths that enter no block twice. -/
theorem mem_below (h : v.below bs entered = .ok visits) : w ∈ visits ↔ ∃ q : CallPath, q ≠ [] ∧
    w.path = v.path ++ q ∧ Walk bs v.block q w.block ∧ q.Fresh entered := by
  induction entered, v using below.induct bs generalizing w visits with
  | case1 entered v ih =>
    obtain ⟨lists, hl, rfl⟩ := entering_of_below h
    rw [List.mem_flatten]
    constructor
    · rintro ⟨list, hlist, hw⟩
      obtain ⟨⟨call, callee⟩, hc, he⟩ := forall₂_mem_right hl hlist
      cases he with
      | known _ => cases hw
      | @new _ _ b rest hn hr hrest =>
        have hb : b.name ∉ entered := BlockSet.name_of_find? (BlockSet.find?_of_resolve hr) ▸ hn
        rcases List.mem_cons.1 hw with rfl | hw
        · refine ⟨[⟨call, b.name⟩], by simp, rfl, .cons hc hr .nil, ?_⟩
          exact CallPath.fresh_cons.2 ⟨hb, CallPath.fresh_nil _⟩
        · obtain ⟨q, -, hpath, hwalk, hfresh⟩ := (ih call callee hn b hr hrest).1 hw
          refine ⟨⟨call, b.name⟩ :: q, by simp, by simpa using hpath, .cons hc hr hwalk, ?_⟩
          exact CallPath.fresh_cons.2 ⟨hb, hfresh⟩
    · rintro ⟨q, hq, hpath, hwalk, hfresh⟩
      obtain ⟨last, path⟩ := w
      simp only at hpath hwalk
      subst hpath
      cases hwalk with
      | nil => exact absurd rfl hq
      | @cons _ b _ call callee q hc hr hwalk =>
        obtain ⟨list, hlist, he⟩ := forall₂_mem_left hl hc
        obtain ⟨hb, hfresh⟩ := CallPath.fresh_cons.1 hfresh
        have hn : callee.name ∉ entered := BlockSet.name_of_find? (BlockSet.find?_of_resolve hr) ▸ hb
        refine ⟨list, hlist, ?_⟩
        cases he with
        | known hk => exact absurd hk hn
        | new _ hr' hrest =>
          rw [hr] at hr'
          cases hr'
          cases hwalk with
          | nil => exact List.mem_cons_self
          | cons hc' hr'' hwalk =>
            refine List.mem_cons_of_mem _ ((ih call callee hn b hr hrest).2 ?_)
            exact ⟨_, by simp, by simp, .cons hc' hr'' hwalk, hfresh⟩

/-- Whatever is called at or below a block has been entered or is visited below it. -/
theorem mem_of_call (h : v.below bs entered = .ok visits) (hw : w ∈ v :: visits) {c : NodeId × BlockRef}
    (hc : c ∈ w.block.calls) : c.2.name ∈ entered ∨ ∃ x ∈ visits, x.block.name = c.2.name := by
  induction entered, v using below.induct bs generalizing visits with
  | case1 entered v ih =>
    obtain ⟨lists, hl, rfl⟩ := entering_of_below h
    rcases List.mem_cons.1 hw with rfl | hw
    · obtain ⟨list, hlist, he⟩ := forall₂_mem_left hl hc
      cases he with
      | known hn => exact Or.inl hn
      | new _ hr _ =>
        refine Or.inr ⟨_, List.mem_flatten.2 ⟨_, hlist, List.mem_cons_self⟩, ?_⟩
        exact BlockSet.name_of_find? (BlockSet.find?_of_resolve hr)
    · obtain ⟨list, hlist, hw⟩ := List.mem_flatten.1 hw
      obtain ⟨⟨call, callee⟩, -, he⟩ := forall₂_mem_right hl hlist
      cases he with
      | known _ => cases hw
      | @new _ _ b rest hn hr hrest =>
        have hsub {x : Visit} (hx : x ∈ _ :: rest) : x ∈ lists.flatten := List.mem_flatten.2 ⟨_, hlist, hx⟩
        rcases ih call callee hn b hr hrest hw with hn | ⟨x, hx, hn⟩
        · rcases List.mem_cons.1 hn with hn | hn
          · exact Or.inr ⟨_, hsub List.mem_cons_self, hn.symm⟩
          · exact Or.inl hn
        · exact Or.inr ⟨x, hsub (List.mem_cons_of_mem _ hx), hn⟩

end Visit

namespace Block

variable {bs : BlockSet} {key : Option ChunkId × String} {entered : List String} {b : Block}
  {us : List Usage} {u : Usage}

/-- What one call adds to the usages below a block. -/
inductive Using (bs : BlockSet) (key : Option ChunkId × String) (entered : List String) :
    NodeId × BlockRef → List Usage → Prop
  | known {call callee} : callee.name ∈ entered → Using bs key entered (call, callee) []
  | new {call callee b us} : callee.name ∉ entered → bs.resolve callee = .ok b →
      b.usagesBelow bs key (b.name :: entered) = .ok us → Using bs key entered (call, callee) us

theorem using_of_usagesBelow (h : b.usagesBelow bs key entered = .ok us) : ∃ lists,
    List.Forall₂ (Using bs key entered) b.calls lists ∧ us = b.usages key ++ lists.flatten := by
  rw [usagesBelow] at h
  obtain ⟨lists, hm, h⟩ := bind_eq_ok.1 h
  cases h
  refine ⟨lists, (mapM_eq_ok.1 hm).imp ?_, rfl⟩
  rintro ⟨call, callee⟩ list hf
  simp only at hf
  split at hf
  · next hn =>
    cases hf
    exact .known hn
  · next hn =>
    generalize hr : bs.resolve callee = r at hf
    cases r with
    | error e => cases hf
    | ok c => exact .new hn hr hf

/-- The usages below a block are those in the blocks at the ends of paths that enter no block twice. -/
theorem mem_usagesBelow (h : b.usagesBelow bs key entered = .ok us) : u ∈ us ↔ ∃ (q : CallPath) (c : Block),
    Walk bs b q c ∧ q.Fresh entered ∧ u ∈ c.usages key := by
  induction entered, b using usagesBelow.induct bs generalizing us with
  | case1 entered b ih =>
    obtain ⟨lists, hl, rfl⟩ := using_of_usagesBelow h
    rw [List.mem_append, List.mem_flatten]
    constructor
    · rintro (hu | ⟨list, hlist, hu⟩)
      · exact ⟨[], b, .nil, CallPath.fresh_nil _, hu⟩
      · obtain ⟨⟨call, callee⟩, hc, he⟩ := forall₂_mem_right hl hlist
        cases he with
        | known _ => cases hu
        | @new _ _ b' _ hn hr hus =>
          have hb : b'.name ∉ entered := BlockSet.name_of_find? (BlockSet.find?_of_resolve hr) ▸ hn
          obtain ⟨q, c, hwalk, hfresh, hu⟩ := (ih callee hn b' hr hus).1 hu
          exact ⟨_, c, .cons hc hr hwalk, CallPath.fresh_cons.2 ⟨hb, hfresh⟩, hu⟩
    · rintro ⟨q, c, hwalk, hfresh, hu⟩
      cases hwalk with
      | nil => exact Or.inl hu
      | @cons _ b' _ call callee q hc hr hwalk =>
        obtain ⟨list, hlist, he⟩ := forall₂_mem_left hl hc
        obtain ⟨hb, hfresh⟩ := CallPath.fresh_cons.1 hfresh
        have hn : callee.name ∉ entered := BlockSet.name_of_find? (BlockSet.find?_of_resolve hr) ▸ hb
        refine Or.inr ⟨list, hlist, ?_⟩
        cases he with
        | known hk => exact absurd hk hn
        | new _ hr' hus =>
          rw [hr] at hr'
          cases hr'
          exact (ih callee hn b' hr hus).2 ⟨q, c, hwalk, hfresh, hu⟩

end Block

/-! ## Where the paths to a chunk part -/

namespace CallPath

theorem prefix_common_iff {p q r : CallPath} : r <+: common p q ↔ r <+: p ∧ r <+: q := by
  fun_induction common p q generalizing r with
  | case1 a as bs ih =>
      cases r with
      | nil => simp
      | cons x r => rw [List.cons_prefix_cons, List.cons_prefix_cons, List.cons_prefix_cons, ih, and_and_left]
  | case2 a as b bs hne =>
      constructor
      · rintro h
        simp [List.prefix_nil.1 h]
      · rintro ⟨hp, hq⟩
        cases r with
        | nil => exact List.nil_prefix
        | cons x r =>
            rw [List.cons_prefix_cons] at hp hq
            exact absurd (hp.1.symm.trans hq.1) hne
  | case3 p q hnil =>
      constructor
      · rintro h
        simp [List.prefix_nil.1 h]
      · rintro ⟨hp, hq⟩
        cases p with
        | nil => exact hp
        | cons a as =>
            cases q with
            | nil => exact hq
            | cons b bs => exact absurd rfl (hnil a as b bs rfl)

theorem prefix_foldl_common_iff {ps : List CallPath} {p r : CallPath} :
    r <+: ps.foldl common p ↔ r <+: p ∧ ∀ q ∈ ps, r <+: q := by
  induction ps generalizing p with
  | nil => simp
  | cons q ps ih => rw [List.foldl_cons, ih, prefix_common_iff, List.forall_mem_cons, and_assoc]

/-- What all of the paths start with starts with whatever all of them start with. -/
theorem prefix_commonOfAll_iff {ps : List CallPath} (hne : ps ≠ []) {r : CallPath} :
    r <+: commonOfAll ps ↔ ∀ q ∈ ps, r <+: q := by
  cases ps with
  | nil => exact absurd rfl hne
  | cons p ps => rw [commonOfAll, prefix_foldl_common_iff, List.forall_mem_cons]

theorem commonOfAll_start {ps : List CallPath} {q : CallPath} (h : q ∈ ps) : commonOfAll ps <+: q :=
  (prefix_commonOfAll_iff (List.ne_nil_of_mem h)).1 List.prefix_rfl q h

end CallPath

namespace Trace

variable {bs : BlockSet} {root : Block} {t : Trace} {w : Visit} {c : ChunkId}

theorem ofBlock_eq_ok (h : ofBlock bs root true = .ok t) :
    t.root = root.name ∧ ∃ below, Visit.below bs [root.name] ⟨root, []⟩ = .ok below ∧
      t.visits = ⟨root, []⟩ :: below := by
  unfold ofBlock at h
  obtain ⟨below, hbelow, h⟩ := bind_eq_ok.1 h
  cases h
  exact ⟨rfl, below, hbelow, rfl⟩

/-- A trace holds the paths from its root along which no block is entered twice. -/
theorem mem_visits (h : ofBlock bs root true = .ok t) :
    w ∈ t.visits ↔ Walk bs root w.path w.block ∧ w.path.Fresh [root.name] := by
  obtain ⟨-, below, hbelow, hv⟩ := ofBlock_eq_ok h
  obtain ⟨last, path⟩ := w
  rw [hv, List.mem_cons, Visit.mem_below hbelow]
  simp only [List.nil_append]
  constructor
  · rintro (hw | ⟨q, -, rfl, hwalk, hfresh⟩)
    · cases hw
      exact ⟨.nil, CallPath.fresh_nil _⟩
    · exact ⟨hwalk, hfresh⟩
  · rintro ⟨hwalk, hfresh⟩
    by_cases hp : path = []
    · subst hp
      cases hwalk
      exact Or.inl rfl
    · exact Or.inr ⟨path, hp, rfl, hwalk, hfresh⟩

theorem mem_blocks {n : String} : n ∈ t.blocks ↔ ∃ w ∈ t.visits, w.block.name = n := by
  rw [blocks, mem_distinct, List.mem_map]

theorem stem_start (hw : w ∈ t.visits) (hm : w.mentions c = true) : t.stem c <+: w.path :=
  CallPath.commonOfAll_start (List.mem_map_of_mem (List.mem_filter.2 ⟨hw, hm⟩))

theorem exists_visit_of_start (h : ofBlock bs root true = .ok t) (hw : w ∈ t.visits) {q : CallPath}
    (hq : q <+: w.path) : ∃ w' ∈ t.visits, w'.path = q := by
  obtain ⟨hwalk, hfresh⟩ := (mem_visits h).1 hw
  obtain ⟨r, hr⟩ := hq
  obtain ⟨b, hb, -⟩ := (hr ▸ hwalk).split
  exact ⟨⟨b, q⟩, (mem_visits h).2 ⟨hb, hfresh.sublist (List.IsPrefix.sublist ⟨r, hr⟩)⟩, rfl⟩

theorem root_mem_blocks (h : ofBlock bs root true = .ok t) : root.name ∈ t.blocks :=
  mem_blocks.2 ⟨⟨root, []⟩, (mem_visits h).2 ⟨.nil, CallPath.fresh_nil _⟩, rfl⟩

theorem mem_blocks_of_call (h : ofBlock bs root true = .ok t) (hw : w ∈ t.visits)
    {c : NodeId × BlockRef} (hc : c ∈ w.block.calls) : c.2.name ∈ t.blocks := by
  obtain ⟨-, below, hbelow, hv⟩ := ofBlock_eq_ok h
  rw [hv] at hw
  rcases Visit.mem_of_call hbelow hw hc with hn | ⟨x, hx, hn⟩
  · exact List.mem_singleton.1 hn ▸ root_mem_blocks h
  · exact mem_blocks.2 ⟨x, hv ▸ List.mem_cons_of_mem _ hx, hn⟩

theorem site_eq (t : Trace) (c : ChunkId) : t.site c = (t.stem c).getLast?.elim t.root (·.block) := by
  unfold site home? stem
  cases t.paths c with
  | nil => rfl
  | cons p ps => rfl

/-- A path that ends where the paths to a chunk part ends in the block that declares the chunk. -/
theorem site_of_path (h : ofBlock bs root true = .ok t) (hw : w ∈ t.visits) (hp : w.path = t.stem c) :
    t.site c = w.block.name := by
  rw [site_eq, ← hp, (ofBlock_eq_ok h).1]
  exact ((mem_visits h).1 hw).1.last

theorem site_mem_blocks (h : ofBlock bs root true = .ok t) (c : ChunkId) : t.site c ∈ t.blocks := by
  have hstem : ∃ w ∈ t.visits, t.stem c <+: w.path := by
    by_cases hc : ∃ w ∈ t.visits, w.mentions c = true
    · obtain ⟨w, hw, hm⟩ := hc
      exact ⟨w, hw, stem_start hw hm⟩
    · have hnil : t.paths c = [] := by
        rw [paths, List.map_eq_nil_iff, List.filter_eq_nil_iff]
        exact fun w hw hm => hc ⟨w, hw, hm⟩
      refine ⟨⟨root, []⟩, (mem_visits h).2 ⟨.nil, CallPath.fresh_nil _⟩, ?_⟩
      rw [stem, hnil]
      exact List.nil_prefix
  obtain ⟨w, hw, hq⟩ := hstem
  obtain ⟨w', hw', hpath⟩ := exists_visit_of_start h hw hq
  exact mem_blocks.2 ⟨w', hw', (site_of_path h hw' hpath).symm⟩

theorem mem_uses {u : Use} (hu : u ∈ t.uses) : ∃ w ∈ t.visits, u.path = w.path ∧ u.var ∈ w.block.vars ∧
    u.var.chunk.isSome = true := by
  obtain ⟨w, hw, hu⟩ := List.mem_flatMap.1 hu
  obtain ⟨v, hv, rfl⟩ := List.mem_map.1 hu
  obtain ⟨hv, hc⟩ := List.mem_filter.1 (mem_of_mem_distinctBy hv)
  exact ⟨w, hw, rfl, hv, hc⟩

theorem mentions_of_mem {v : Variable} (hv : v ∈ w.block.vars) (hc : v.chunk = some c) :
    w.mentions c = true :=
  List.any_eq_true.2 ⟨v, hv, by simp [hc]⟩

theorem mem_chunks {v : Variable} (hw : w ∈ t.visits) (hv : v ∈ w.block.vars) (hc : v.chunk = some c) :
    c ∈ t.chunks := by
  have hmem : v ∈ w.block.vars.filter (·.chunk.isSome) := List.mem_filter.2 ⟨hv, by simp [hc]⟩
  obtain ⟨v', hv', hkey⟩ := exists_mem_distinctBy Variable.key hmem
  have hc' : v'.chunk = some c := (congrArg Prod.fst hkey).trans hc
  rw [chunks, mem_distinct, List.mem_filterMap]
  exact ⟨⟨v', w.path⟩, List.mem_flatMap.2 ⟨w, hw, List.mem_map_of_mem hv'⟩, hc'⟩

theorem needsFrom_iff {f : String} {u : Use} : t.needsFrom f u = true ↔ ∃ c, u.var.chunk = some c ∧
    f ∈ CallPath.entered (u.path.drop (t.stem c).length) := by
  simp only [needsFrom, Option.any_eq_true, List.any_eq_true, CallPath.entered, List.mem_map, beq_iff_eq]

/-- A variable that a block needs is mentioned at the end of a path that enters the block after the
paths to the variable's chunk have parted. -/
theorem exists_visit_of_needs {f : String} {v : Variable} (hv : v ∈ t.needs f) : ∃ w ∈ t.visits, ∃ c,
    v ∈ w.block.vars ∧ v.chunk = some c ∧ f ∈ CallPath.entered (w.path.drop (t.stem c).length) := by
  obtain ⟨u, hu, rfl⟩ := List.mem_map.1 (mem_of_mem_distinctBy hv)
  obtain ⟨hu, hn⟩ := List.mem_filter.1 hu
  obtain ⟨w, hw, hpath, hv, -⟩ := mem_uses hu
  obtain ⟨c, hc, hn⟩ := needsFrom_iff.1 hn
  exact ⟨w, hw, c, hv, hc, hpath ▸ hn⟩

/-- A variable that a block needs is mentioned in the block or below it. -/
theorem exists_mention_below (h : ofBlock bs root true = .ok t) (hroot : bs.find? root.name = some root)
    {f : String} {v : Variable} (hv : v ∈ t.needs f) : ∃ b q c, bs.find? f = some b ∧ Walk bs b q c ∧
      q.Fresh [f] ∧ v ∈ c.vars := by
  obtain ⟨w, hw, c, hvw, -, hf⟩ := exists_visit_of_needs hv
  obtain ⟨hwalk, hfresh⟩ := (mem_visits h).1 hw
  have hf : f ∈ CallPath.entered w.path := ((List.drop_sublist _ _).map _).subset hf
  obtain ⟨front, site, back, b, hpath, rfl, hb, -, hback⟩ := hwalk.exists_entered hroot hf
  rw [hpath] at hfresh
  exact ⟨b, back, w.block, hb, hback, hfresh.after, hvw⟩

theorem exists_needs_of_visit {f : String} {v : Variable} (hw : w ∈ t.visits) (hv : v ∈ w.block.vars)
    (hc : v.chunk = some c) (hf : f ∈ CallPath.entered (w.path.drop (t.stem c).length)) :
    ∃ v' ∈ t.needs f, v'.key = v.key := by
  have hmem : v ∈ w.block.vars.filter (·.chunk.isSome) := List.mem_filter.2 ⟨hv, by simp [hc]⟩
  obtain ⟨v₁, hv₁, hk₁⟩ := exists_mem_distinctBy Variable.key hmem
  have hc₁ : v₁.chunk = some c := (congrArg Prod.fst hk₁).trans hc
  have huse : (⟨v₁, w.path⟩ : Use) ∈ t.uses.filter (t.needsFrom f) := by
    refine List.mem_filter.2 ⟨List.mem_flatMap.2 ⟨w, hw, List.mem_map_of_mem hv₁⟩, ?_⟩
    exact needsFrom_iff.2 ⟨c, hc₁, hf⟩
  obtain ⟨v₂, hv₂, hk₂⟩ := exists_mem_distinctBy Variable.key (List.mem_map_of_mem (f := Use.var) huse)
  exact ⟨v₂, hv₂, hk₂.trans hk₁⟩

theorem exists_caller (h : ofBlock bs root true = .ok t) (hw : w ∈ t.visits) {q : CallPath} {site : CallSite}
    (hq : q ++ [site] <+: w.path) :
    ∃ w' ∈ t.visits, w'.path = q ∧ ∃ c ∈ w'.block.calls, c.2.name = site.block := by
  obtain ⟨hwalk, hfresh⟩ := (mem_visits h).1 hw
  obtain ⟨r, hr⟩ := hq
  rw [← hr, List.append_assoc] at hwalk
  obtain ⟨b, hb, hwalk⟩ := hwalk.split
  have hsub : List.Sublist q w.path := hr ▸ List.append_assoc q [site] r ▸ List.sublist_append_left q _
  refine ⟨⟨b, q⟩, (mem_visits h).2 ⟨hb, hfresh.sublist hsub⟩, rfl, ?_⟩
  cases hwalk with
  | cons hc hres _ => exact ⟨_, hc, (BlockSet.name_of_find? (BlockSet.find?_of_resolve hres)).symm⟩

/-- The blocks that need a variable are called in a chain from the block that declares it: what holds of
all that the latter calls, and of all that is called from a block that needs the variable if it holds of
that block, holds of all blocks that need the variable. -/
theorem needs_induction {Q : String → Prop} (h : ofBlock bs root true = .ok t) {f : String} {v : Variable}
    (hv : v ∈ t.needs f) (hc : v.chunk = some c)
    (first : ∀ w ∈ t.visits, t.site c = w.block.name → ∀ call ∈ w.block.calls, Q call.2.name)
    (next : ∀ w ∈ t.visits, (∃ v' ∈ t.needs w.block.name, v'.key = v.key) → Q w.block.name →
      ∀ call ∈ w.block.calls, Q call.2.name) : Q f := by
  obtain ⟨w, hw, c', hvw, hc', hf⟩ := exists_visit_of_needs hv
  obtain rfl : c' = c := Option.some.inj (hc'.symm.trans hc)
  obtain ⟨rest, hrest⟩ := stem_start hw (mentions_of_mem hvw hc)
  have hdrop : w.path.drop (t.stem c').length = rest := by rw [← hrest, List.drop_left]
  rw [hdrop] at hf
  obtain ⟨site, hsite, rfl⟩ := List.mem_map.1 hf
  obtain ⟨front, back, hsplit⟩ := List.append_of_mem hsite
  clear hv hf hsite
  -- the induction is on the part of the path that lies between the declaration and the block
  induction front using List.reverseRecOn generalizing site back with
  | nil =>
      have hq : t.stem c' ++ [site] <+: w.path := ⟨back, by simp [← hrest, hsplit]⟩
      obtain ⟨w', hw', hpath, call, hcall, hname⟩ := exists_caller h hw hq
      exact hname ▸ first w' hw' (site_of_path h hw' hpath) call hcall
  | append_singleton front site' ih =>
      have hq : (t.stem c' ++ (front ++ [site'])) ++ [site] <+: w.path := ⟨back, by simp [← hrest, hsplit]⟩
      obtain ⟨w', hw', hpath, call, hcall, hname⟩ := exists_caller h hw hq
      have hlast := ((mem_visits h).1 hw').1.last
      rw [hpath, ← List.append_assoc, List.getLast?_concat] at hlast
      have hneeds : ∃ v' ∈ t.needs w'.block.name, v'.key = v.key := by
        refine exists_needs_of_visit hw hvw hc ?_
        rw [hdrop, hsplit]
        exact List.mem_map.2 ⟨site', by simp, hlast⟩
      have hQ : Q site'.block := ih site' (site :: back) (by simp [hsplit])
      exact hname ▸ next w' hw' hneeds (hlast ▸ hQ) call hcall

/-- On a path to a variable, a block from where the paths to the variable's chunk part declares the chunk or
needs the variable. -/
theorem site_or_needs_above (h : ofBlock bs root true = .ok t) (hw : w ∈ t.visits) {x : Visit}
    (hx : x ∈ t.visits) (hstem : t.stem c <+: w.path) (hpath : w.path <+: x.path) {v : Variable}
    (hv : v ∈ x.block.vars) (hc : v.chunk = some c) :
    t.site c = w.block.name ∨ ∃ v' ∈ t.needs w.block.name, v'.key = v.key := by
  obtain ⟨rest, hrest⟩ := hstem
  cases hr : rest.getLast? with
  | none =>
      obtain rfl := List.getLast?_eq_none_iff.1 hr
      exact Or.inl (site_of_path h hw (by simpa using hrest.symm))
  | some site =>
      have hlast := ((mem_visits h).1 hw).1.last
      rw [← hrest, List.getLast?_append, hr] at hlast
      refine Or.inr (exists_needs_of_visit hx hv hc ?_)
      obtain ⟨back, hback⟩ := hpath
      rw [← hback, ← hrest, List.append_assoc, List.drop_left]
      exact List.mem_map.2 ⟨site, List.mem_append_left _ (List.mem_of_getLast? hr), hlast⟩

/-- A block that mentions a variable declares the variable's chunk or needs the variable. -/
theorem site_or_needs (h : ofBlock bs root true = .ok t) (hw : w ∈ t.visits) {v : Variable}
    (hv : v ∈ w.block.vars) (hc : v.chunk = some c) :
    t.site c = w.block.name ∨ ∃ v' ∈ t.needs w.block.name, v'.key = v.key :=
  site_or_needs_above h hw hw (stem_start hw (mentions_of_mem hv hc)) List.prefix_rfl hv hc

/-- What a block needs from above has not been entered through it: the block is neither the root nor on the part
that all paths to the variable's chunk have in common. -/
theorem not_mem_of_needs (h : ofBlock bs root true = .ok t) {f : String} {v : Variable} (hv : v ∈ t.needs f)
    (hc : v.chunk = some c) : f ∉ root.name :: CallPath.entered (t.stem c) := by
  obtain ⟨w, hw, c', hvw, hc', hf⟩ := exists_visit_of_needs hv
  obtain rfl : c' = c := Option.some.inj (hc'.symm.trans hc)
  obtain ⟨rest, hrest⟩ := stem_start hw (mentions_of_mem hvw hc)
  rw [← hrest, List.drop_left] at hf
  obtain ⟨-, hnodup, hroot⟩ := (mem_visits h).1 hw
  rw [← hrest] at hnodup hroot
  simp only [CallPath.entered, List.map_append] at hnodup hroot
  intro hmem
  rcases List.mem_cons.1 hmem with rfl | hmem
  · exact hroot _ (List.mem_append_right _ hf) (List.mem_singleton.2 rfl)
  · exact (List.nodup_append.1 hnodup).2.2 f hmem f hf rfl

/-- No block needs a variable from above that it declares. -/
theorem site_ne_of_needs (h : ofBlock bs root true = .ok t) {f : String} {v : Variable}
    (hv : v ∈ t.needs f) (hc : v.chunk = some c) : t.site c ≠ f := by
  intro hsite
  refine not_mem_of_needs h hv hc ?_
  rw [← hsite, site_eq, (ofBlock_eq_ok h).1]
  cases hl : (t.stem c).getLast? with
  | none => exact List.mem_cons_self
  | some site => exact List.mem_cons_of_mem _ (List.mem_map_of_mem (List.mem_of_getLast? hl))

end Trace

end Diversity
