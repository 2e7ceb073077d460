import Diversity.Proofs.Consistency
/-! Traces of block sets in which every call resolves: all blocks that calls lead to are listed once, and the
paths to a chunk are the call paths to its mentions that enter no block twice, each listed once. -/
namespace Diversity

/-- The block mentions a variable of the chunk. -/
def Block.Mentions (b : Block) (c : ChunkId) : Prop := ∃ v ∈ b.vars, v.chunk = some c

theorem Visit.mentions_iff {w : Visit} {c : ChunkId} : w.mentions c = true ↔ w.block.Mentions c := by
  simp [Visit.mentions, Block.Mentions]

/-- Lists whose elements carry the key of their list have nothing in common if the keys are distinct. -/
theorem nodup_flatten_of_keys {α κ : Type} (key : α → κ) {keys : List κ} {lists : List (List α)}
    (hk : keys.Nodup) (h : List.Forall₂ (fun k l => l.Nodup ∧ ∀ a ∈ l, key a = k) keys lists) :
    lists.flatten.Nodup := by
  induction h with
  | nil => exact List.nodup_nil
  | @cons k l keys lists hl hrest ih =>
      obtain ⟨hnot, hk⟩ := List.nodup_cons.1 hk
      rw [List.flatten_cons, List.nodup_append']
      refine ⟨hl.1, ih hk, fun a ha ha' => hnot ?_⟩
      obtain ⟨l', hl', ha'⟩ := List.mem_flatten.1 ha'
      obtain ⟨k', hk', -, hkey⟩ := forall₂_mem_right hrest hl'
      rw [← hl.2 a ha, hkey a ha']
      exact hk'

namespace Visit

variable {bs : BlockSet} {entered : List String} {v : Visit} {visits : List Visit}

/-- The calls of a block lead on along different paths. -/
theorem nodup_paths (hids : ∀ b ∈ bs.toList, (b.calls.map (·.1)).Nodup) (hv : v.block ∈ bs.toList)
    (h : v.below bs entered = .ok visits) : (visits.map (·.path)).Nodup := by
  induction entered, v using below.induct bs generalizing visits with
  | case1 entered v ih =>
    obtain ⟨lists, hl, rfl⟩ := entering_of_below h
    rw [List.map_flatten]
    -- the first call behind the block's own path tells which of the block's calls a path goes through
    refine nodup_flatten_of_keys (fun q => (q.drop v.path.length).head?.map (·.call))
      ((hids _ hv).map (Option.some_injective _)) ?_
    rw [List.map_map, List.forall₂_map_left_iff, List.forall₂_map_right_iff]
    refine hl.imp fun call list he => ?_
    cases he with
    | known _ => exact ⟨List.nodup_nil, List.forall_mem_nil _⟩
    | @new call callee b rest hn hr hrest =>
      have hb := BlockSet.mem_of_find? (BlockSet.find?_of_resolve hr)
      have hpath : ∀ w ∈ rest, ∃ q, q ≠ [] ∧ w.path = (v.path ++ [⟨call, b.name⟩]) ++ q := by
        intro w hw
        obtain ⟨q, hq, hpath, -, -⟩ := (mem_below hrest).1 hw
        exact ⟨q, hq, hpath⟩
      rw [List.map_cons, List.nodup_cons, List.forall_mem_cons]
      refine ⟨⟨fun hmem => ?_, ih call callee hn b hr hb hrest⟩, by simp, fun q hq => ?_⟩
      · obtain ⟨w, hw, he⟩ := List.mem_map.1 hmem
        obtain ⟨q, hq, hpath⟩ := hpath w hw
        exact hq (List.self_eq_append_right.1 (he.symm.trans hpath))
      · obtain ⟨w, hw, rfl⟩ := List.mem_map.1 hq
        obtain ⟨q, -, hpath⟩ := hpath w hw
        simp [hpath]

end Visit

namespace Trace

variable {bs : BlockSet} {root : Block} {t : Trace} {c : ChunkId}

theorem nodup_visited (hids : ∀ b ∈ bs.toList, (b.calls.map (·.1)).Nodup) (hroot : root ∈ bs.toList)
    (h : ofBlock bs root true = .ok t) : (t.visits.map (·.path)).Nodup := by
  obtain ⟨-, below, hbelow, hv⟩ := ofBlock_eq_ok h
  rw [hv, List.map_cons, List.nodup_cons]
  refine ⟨fun hmem => ?_, Visit.nodup_paths hids hroot hbelow⟩
  obtain ⟨w, hw, he⟩ := List.mem_map.1 hmem
  obtain ⟨q, hq, hpath, -, -⟩ := (Visit.mem_below hbelow).1 hw
  exact hq (hpath.symm.trans he)

theorem mem_paths (h : ofBlock bs root true = .ok t) {q : CallPath} : q ∈ t.paths c ↔
    ∃ d, Walk bs root q d ∧ (root.name :: q.entered).Nodup ∧ d.Mentions c := by
  rw [paths, List.mem_map]
  constructor
  · rintro ⟨w, hw, rfl⟩
    obtain ⟨hw, hm⟩ := List.mem_filter.1 hw
    obtain ⟨hwalk, hfresh⟩ := (mem_visits h).1 hw
    exact ⟨w.block, hwalk, CallPath.fresh_singleton.1 hfresh, Visit.mentions_iff.1 hm⟩
  · rintro ⟨d, hwalk, hfresh, hm⟩
    refine ⟨⟨d, q⟩, List.mem_filter.2 ⟨(mem_visits h).2 ⟨hwalk, ?_⟩, Visit.mentions_iff.2 hm⟩, rfl⟩
    exact CallPath.fresh_singleton.2 hfresh

theorem mem_blocks_iff_walk (h : ofBlock bs root true = .ok t) (hroot : bs.find? root.name = some root) {n : String} :
    n ∈ t.blocks ↔ ∃ q d, Walk bs root q d ∧ d.name = n := by
  rw [mem_blocks]
  constructor
  · rintro ⟨w, hw, rfl⟩
    exact ⟨w.path, w.block, ((mem_visits h).1 hw).1, rfl⟩
  · rintro ⟨q, d, hwalk, rfl⟩
    obtain ⟨r, hwalk, hfresh⟩ := hwalk.exists_fresh hroot
    exact ⟨⟨d, r⟩, (mem_visits h).2 ⟨hwalk, hfresh⟩, rfl⟩

theorem mem_chunks_iff_walk (h : ofBlock bs root true = .ok t) (hroot : bs.find? root.name = some root) :
    c ∈ t.chunks ↔ ∃ q d, Walk bs root q d ∧ d.Mentions c := by
  constructor
  · intro hc
    rw [chunks, mem_distinct, List.mem_filterMap] at hc
    obtain ⟨u, hu, hc⟩ := hc
    obtain ⟨w, hw, -, hv, -⟩ := mem_uses hu
    exact ⟨w.path, w.block, ((mem_visits h).1 hw).1, u.var, hv, hc⟩
  · rintro ⟨q, d, hwalk, v, hv, hc⟩
    obtain ⟨r, hwalk, hfresh⟩ := hwalk.exists_fresh hroot
    exact mem_chunks (w := ⟨d, r⟩) ((mem_visits h).2 ⟨hwalk, hfresh⟩) hv hc

/-- A chunk has a path exactly if it is mentioned, since what calls lead to they lead to without a detour. -/
theorem paths_eq_nil_iff (h : ofBlock bs root true = .ok t) (hroot : bs.find? root.name = some root) :
    t.paths c = [] ↔ c ∉ t.chunks := by
  rw [mem_chunks_iff_walk h hroot, List.eq_nil_iff_forall_not_mem, ← not_exists, not_iff_not]
  constructor
  · rintro ⟨q, hq⟩
    obtain ⟨d, hwalk, -, hm⟩ := (mem_paths h).1 hq
    exact ⟨q, d, hwalk, hm⟩
  · rintro ⟨q, d, hwalk, hm⟩
    obtain ⟨r, hwalk, hfresh⟩ := hwalk.exists_fresh hroot
    exact ⟨r, (mem_paths h).2 ⟨d, hwalk, CallPath.fresh_singleton.1 hfresh, hm⟩⟩

/-- The trace lists the blocks that calls lead to from the root, the root first, and for each chunk that they
mention the call paths to its mentions that enter no block twice, with the longest path that all of them start
with. Nothing is listed twice, and nothing for other chunks. -/
structure ListsSimplePaths (t : Trace) (bs : BlockSet) (root : Block) : Prop where
  rootFirst : t.blocks.head? = some root.name
  nodupBlocks : t.blocks.Nodup
  blocks : ∀ n, n ∈ t.blocks ↔ ∃ q d, Walk bs root q d ∧ d.name = n
  chunks : ∀ c, c ∈ t.chunks ↔ ∃ q d, Walk bs root q d ∧ d.Mentions c
  nodupPaths : ∀ c, (t.paths c).Nodup
  paths : ∀ c q, q ∈ t.paths c ↔ ∃ d, Walk bs root q d ∧ (root.name :: q.entered).Nodup ∧ d.Mentions c
  absent : ∀ c, t.paths c = [] ↔ c ∉ t.chunks
  stem : ∀ c ∈ t.chunks, ∀ r, r <+: t.stem c ↔ ∀ q ∈ t.paths c, r <+: q

/-- Where calls resolve and those of one block have different identities, there is a trace from every block, and
it holds the simple call paths. -/
theorem exists_listsSimplePaths (htied : bs.Tied) (hids : ∀ b ∈ bs.toList, (b.calls.map (·.1)).Nodup)
    (hroot : root ∈ bs.toList) : ∃ t, ofBlock bs root true = .ok t ∧ t.ListsSimplePaths bs root := by
  have hfind := BlockSet.find?_name htied.names hroot
  cases hbelow : Visit.below bs [root.name] ⟨root, []⟩ with
  | error e => exact absurd hbelow (Visit.below_ne_error htied hroot e)
  | ok below =>
      have ht : ofBlock bs root true = .ok ⟨root.name, ⟨root, []⟩ :: below⟩ := bind_eq_ok.2 ⟨below, hbelow, rfl⟩
      refine ⟨_, ht, rfl, nodup_distinct _, fun n => mem_blocks_iff_walk ht hfind,
        fun c => mem_chunks_iff_walk ht hfind, fun c => ?_, fun c q => mem_paths ht,
        fun c => paths_eq_nil_iff ht hfind, fun c hc r => ?_⟩
      · exact (nodup_visited hids hroot ht).sublist (List.filter_sublist.map _)
      · exact CallPath.prefix_commonOfAll_iff fun hnil => (paths_eq_nil_iff ht hfind).1 hnil hc

/-- Two blocks call each other, and the first one is called twice: both calls are paths to its variable. -/
theorem listsSimplePaths_recurring : ∃ g s root t, Description.recurring.toGraph .first = .ok (g, s) ∧
    g.blocks.find? g.entry = some root ∧ ofBlock g.blocks root true = .ok t ∧ t.ListsSimplePaths g.blocks root ∧
    t.blocks = ["main", "walk", "helper"] ∧ t.chunks.map (fun c => (t.paths c).length) = [2] := by
  have h : (do
      let r ← (Description.recurring.toGraph .first).toOption
      let root ← r.1.blocks.find? r.1.entry
      let t ← (ofBlock r.1.blocks root true).toOption
      Option.guard (fun _ => (∀ b ∈ r.1.blocks.toList, (b.calls.map (·.1)).Nodup) ∧
        t.blocks = ["main", "walk", "helper"] ∧ t.chunks.map (fun c => (t.paths c).length) = [2]) ()
      : Option Unit).isSome = true := by
    decide +kernel
  simp only [Option.isSome_iff_exists, Option.bind_eq_bind, Option.bind_eq_some_iff, toOption_eq_some,
    Option.guard_eq_some_iff, decide_eq_true_eq] at h
  obtain ⟨_, ⟨g, s⟩, hg, root, hroot, t, ht, -, hids, hrest⟩ := h
  have htied := (Description.compiled hg).tied
  obtain ⟨t', ht', hlists⟩ := exists_listsSimplePaths htied hids (BlockSet.mem_of_find? hroot)
  obtain rfl : t' = t := Except.ok.inj (ht'.symm.trans ht)
  exact ⟨g, s, root, t', hg, hroot, ht', hlists, hrest⟩

end Trace

end Diversity
