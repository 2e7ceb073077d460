import Diversity.Proofs.Consistency
import Diversity.Proofs.Scoping
/-! What callers can supply. A caller has a parameter for a variable that its callee takes, or declares it,
if the call lies on a path to the variable on which no block is entered twice. So does every call whose callee
does not lead back to the caller. -/
namespace Diversity

/-! ## Calls on recorded paths -/

theorem CallPath.fresh_append {before : List String} {q r : CallPath} : Fresh before (q ++ r) ↔
    Fresh before q ∧ Fresh before r ∧ ∀ n ∈ q.entered, n ∉ r.entered := by
  simp only [Fresh, entered, List.map_append, List.nodup_append, List.mem_append]
  constructor
  · rintro ⟨⟨hq, hr, hqr⟩, hb⟩
    exact ⟨⟨hq, fun n hn => hb n (Or.inl hn)⟩, ⟨hr, fun n hn => hb n (Or.inr hn)⟩, fun n hn hn' => hqr n hn n hn' rfl⟩
  · rintro ⟨⟨hq, hbq⟩, ⟨hr, hbr⟩, hqr⟩
    exact ⟨⟨hq, hr, fun n hn m hm e => hqr n hn (e ▸ hm)⟩, fun n hn => hn.elim (hbq n) (hbr n)⟩

namespace Trace

variable {bs : BlockSet} {root : Block} {t : Trace} {w x : Visit} {c : ChunkId}

/-- Behind a call whose callee does not lead back to the caller every path goes on as it would have begun
at the callee. -/
theorem mem_visits_of_call (h : ofBlock bs root true = .ok t) (hroot : bs.find? root.name = some root)
    (hw : w ∈ t.visits) {call : NodeId} {callee : BlockRef} (hc : (call, callee) ∈ w.block.calls) {b d : Block}
    (hr : bs.resolve callee = .ok b) {r : CallPath} (hwalk : Walk bs b r d) (hfresh : r.Fresh [b.name])
    (hback : ∀ q, ¬ Walk bs b q w.block) : ⟨d, w.path ++ ⟨call, b.name⟩ :: r⟩ ∈ t.visits := by
  obtain ⟨hww, hwf⟩ := (mem_visits h).1 hw
  have hb : bs.find? b.name = some b :=
    (BlockSet.name_of_find? (BlockSet.find?_of_resolve hr)).symm ▸ BlockSet.find?_of_resolve hr
  have hsite : CallPath.entered (⟨call, b.name⟩ :: r) = b.name :: CallPath.entered r := rfl
  -- whatever is entered from the callee on has not been entered before: it would lead back
  have hreach {n : String} (hn : n ∈ CallPath.entered (⟨call, b.name⟩ :: r)) :
      ∃ q e, bs.find? n = some e ∧ Walk bs b q e := by
    rw [hsite] at hn
    rcases List.mem_cons.1 hn with rfl | hn
    · exact ⟨[], b, hb, .nil⟩
    · obtain ⟨front, site, back, e, -, -, he, hfront, -⟩ := hwalk.exists_entered hb hn
      exact ⟨_, e, he, hfront⟩
  refine (mem_visits h).2 ⟨hww.append (.cons hc hr hwalk), CallPath.fresh_append.2 ⟨hwf, ⟨?_, ?_⟩, ?_⟩⟩
  · have hfresh : CallPath.Fresh [] (⟨call, b.name⟩ :: r) := CallPath.fresh_cons.2 ⟨List.not_mem_nil, hfresh⟩
    exact hfresh.1
  · intro n hn hmem
    obtain ⟨q, e, he, hq⟩ := hreach hn
    obtain rfl := List.mem_singleton.1 hmem
    obtain rfl := Option.some.inj (hroot.symm.trans he)
    exact hback _ (hq.append hww)
  · intro n hn hmem
    obtain ⟨q, e, he, hq⟩ := hreach hmem
    obtain ⟨_, _, back, e', -, -, he', -, hback'⟩ := hww.exists_entered hroot hn
    obtain rfl := Option.some.inj (he'.symm.trans he)
    exact hback _ (hq.append hback')

/-- On a path to a variable, the caller of a block that needs the variable declares it or needs it too. -/
theorem site_or_needs_of_call (h : ofBlock bs root true = .ok t) (hw : w ∈ t.visits) (hx : x ∈ t.visits)
    {site : CallSite} (hpath : w.path ++ [site] <+: x.path) {v v' : Variable} (hv : v ∈ x.block.vars)
    (hc : v.chunk = some c) (hneeds : v' ∈ t.needs site.block) (hkey : v'.key = v.key) :
    t.site c = w.block.name ∨ ∃ u ∈ t.needs w.block.name, u.key = v.key := by
  -- the callee is not on the part that all paths to the variable have in common
  have hnot : site.block ∉ CallPath.entered (t.stem c) := fun hn =>
    not_mem_of_needs h hneeds ((congrArg Prod.fst hkey).trans hc) (List.mem_cons_of_mem _ hn)
  have hstem := stem_start hx (mentions_of_mem hv hc)
  have hle : t.stem c <+: w.path := by
    rcases List.prefix_or_prefix_of_prefix hstem hpath with hs | hs
    · rcases List.prefix_concat_iff.1 hs with hs | hs
      · exact absurd (by simp [hs, CallPath.entered]) hnot
      · exact hs
    · obtain ⟨rest, hrest⟩ := hs
      exact absurd (by simp [← hrest, CallPath.entered]) hnot
  exact site_or_needs_above h hw hx hle ((List.prefix_append _ _).trans hpath) hv hc

end Trace

/-! ## Calls before and after splicing -/

namespace BlockSet

variable {p : Placement} {bs bs' : BlockSet} {blocks : List Block} {s s' : Supply}

/-- A call that splicing leaves is a call of the body, or one below a block that the body calls. -/
theorem exists_walk_of_expand {entered : List String} {body body' : List Stmt}
    (h : p.expand bs entered body s = .ok (body', s')) {r : BlockRef} (hr : r ∈ Stmt.refs body') :
    r ∈ Stmt.refs body ∨ ∃ callee ∈ Stmt.refs body, ∃ b q c, bs.resolve callee = .ok b ∧ Walk bs b q c ∧
      r ∈ Stmt.refs c.statements := by
  refine Placement.expand_induction (Q := fun _ body body' _ => ∀ r ∈ Stmt.refs body', r ∈ Stmt.refs body ∨
    ∃ callee ∈ Stmt.refs body, ∃ b q c, bs.resolve callee = .ok b ∧ Walk bs b q c ∧
      r ∈ Stmt.refs c.statements) ?_ h r hr
  intro s body body' s' h r hr
  obtain ⟨c, hc, rfl⟩ := List.mem_map.1 hr
  obtain ⟨s₁, i, callee, front, s₂, hcall, hR, hc⟩ := h.call_cases hc
  have hcallee : callee ∈ Stmt.refs body := List.mem_map_of_mem hcall
  cases hR with
  | kept _ =>
      rw [Stmt.calls_call, Stmt.calls_nil, List.mem_singleton] at hc
      exact Or.inl (hc ▸ hcallee)
  | spliced _ hres hcopy hq =>
      have href := hq _ (List.mem_map_of_mem hc)
      rw [Stmt.refs_of_refreshAll hcopy] at href
      rcases href with href | ⟨callee', hcallee', b', q, c', hres', hwalk, href⟩
      · exact Or.inr ⟨callee, hcallee, _, [], _, hres, .nil, href⟩
      · obtain ⟨⟨call, _⟩, hcall', rfl⟩ := List.mem_map.1 hcallee'
        exact Or.inr ⟨callee, hcallee, _, _, c', hres, .cons hcall' hres' hwalk, href⟩

/-- A call of a function stands for a chain of calls of the blocks that were spliced. -/
theorem exists_walk_of_call (htied : bs.Tied) (hin : p.inline bs s = .ok (blocks, s'))
    (hrep : repaired blocks = .ok bs') {b' : Block} (hb' : b' ∈ bs'.toList) {c : NodeId × BlockRef}
    (hc : c ∈ b'.calls) : ∃ b q d, bs.find? b'.name = some b ∧ q ≠ [] ∧ Walk bs b q d ∧ d.name = c.2.name := by
  obtain ⟨a, ha, body, rfl, hm⟩ := forall₂_mem_right (repaired_eq_ok hrep).2 hb'
  obtain ⟨b, hb, s₁, s₂, body', hx, rfl⟩ := forall₂_mem_right (Placement.inline_chained hin).forall₂ ha
  obtain ⟨-, i, callee, front, -, hcall, ⟨d, -, hname, rfl⟩, hc⟩ := hm.call_cases hc
  rw [Stmt.calls_call, Stmt.calls_nil, List.mem_singleton] at hc
  subst hc
  obtain ⟨hb, -⟩ := List.mem_filter.1 hb
  -- the last call of the chain is of the function itself
  have hlast {b₁ : Block} (hb₁ : b₁ ∈ bs.toList) (hr : callee ∈ Stmt.refs b₁.statements) :
      ∃ q d₁, q ≠ [] ∧ Walk bs b₁ q d₁ ∧ d₁.name = d.name := by
    obtain ⟨⟨call, _⟩, hmem, rfl⟩ := List.mem_map.1 hr
    obtain ⟨d₁, -, hres⟩ := htied.resolve hb₁ hmem
    exact ⟨_, d₁, by simp, .cons hmem hres .nil, (name_of_find? (find?_of_resolve hres)).trans hname.symm⟩
  refine ⟨b, ?_⟩
  rcases exists_walk_of_expand hx (List.mem_map_of_mem hcall) with hr | ⟨r, hr, b₁, q, c, hres, hwalk, hr'⟩
  · obtain ⟨q, d₁, hq, hwalk, hd⟩ := hlast hb hr
    exact ⟨q, d₁, find?_name htied.names hb, hq, hwalk, hd⟩
  · obtain ⟨⟨call, _⟩, hmem, rfl⟩ := List.mem_map.1 hr
    have hwalk : Walk bs b _ c := .cons hmem hres hwalk
    obtain ⟨q', d₁, -, hwalk', hd⟩ := hlast (mem_of_find? (hwalk.find? (find?_name htied.names hb))) hr'
    exact ⟨_, d₁, find?_name htied.names hb, by simp, hwalk.append hwalk', hd⟩

theorem exists_walk_of_walk (htied : bs.Tied) (hin : p.inline bs s = .ok (blocks, s'))
    (hrep : repaired blocks = .ok bs') {b' d' : Block} {r : CallPath} (hwalk : Walk bs' b' r d')
    (hb' : bs'.find? b'.name = some b') {b : Block} (hb : bs.find? b'.name = some b) :
    ∃ q d, Walk bs b q d ∧ bs.find? d'.name = some d ∧ (r ≠ [] → q ≠ []) := by
  induction hwalk generalizing b with
  | nil => exact ⟨[], b, .nil, hb, fun h => h⟩
  | @cons b' c' d' call callee r hc hr _ ih =>
      have hc' := find?_of_resolve hr
      have hname := name_of_find? hc'
      obtain ⟨b₁, q, c, hb₁, hq, hwalk, hcname⟩ := exists_walk_of_call htied hin hrep (mem_of_find? hb') hc
      obtain rfl := Option.some.inj (hb₁.symm.trans hb)
      have hc₁ := hwalk.find? ((name_of_find? hb).symm ▸ hb)
      obtain ⟨q', d, hwalk', hd, -⟩ := ih (hname ▸ hc') (b := c) (by rw [hname, ← hcname, hc₁])
      exact ⟨q ++ q', d, hwalk.append hwalk', hd, fun _ => by simp [hq]⟩

end BlockSet

/-! ## Blocks that reach themselves -/

namespace Block

variable {bs : BlockSet} {goal : String}

/-- Going through calls without finding the goal leaves all callees seen, and the new ones pending. -/
theorem pushCallees_eq_ok {calls : List BlockRef} {seen seen' : List String} {pending pending' : List Block}
    (h : pushCallees bs goal calls seen pending = .ok (some (seen', pending'))) :
    seen ⊆ seen' ∧ pending ⊆ pending' ∧ (∀ r ∈ calls, r.name ≠ goal ∧ r.name ∈ seen') ∧
      (∀ n ∈ seen', n ∈ seen ∨ ∃ d ∈ pending', bs.find? n = some d) ∧
      ∀ d ∈ pending', d ∈ pending ∨ ∃ r ∈ calls, bs.resolve r = .ok d := by
  induction calls generalizing seen pending with
  | nil =>
      cases h
      exact ⟨List.Subset.refl _, List.Subset.refl _, nofun, fun n hn => Or.inl hn, fun d hd => Or.inl hd⟩
  | cons r calls ih =>
      have hlater {d : Block} (hd : ∃ r ∈ calls, bs.resolve r = .ok d) : ∃ r' ∈ r :: calls, bs.resolve r' = .ok d :=
        hd.imp fun r' hr' => ⟨List.mem_cons_of_mem r hr'.1, hr'.2⟩
      unfold pushCallees at h
      split at h
      · cases h
      · next hgoal =>
        split at h
        · next hseen =>
          obtain ⟨hs, hp, hc, hn, hd⟩ := ih h
          refine ⟨hs, hp, List.forall_mem_cons.2 ⟨⟨hgoal, hs hseen⟩, hc⟩, hn, fun d hd' => ?_⟩
          exact (hd d hd').imp_right hlater
        · obtain ⟨b, hb, h⟩ := bind_eq_ok.1 h
          obtain ⟨hs, hp, hc, hn, hd⟩ := ih h
          obtain ⟨hr, hs⟩ := List.cons_subset.1 hs
          obtain ⟨hb', hp⟩ := List.cons_subset.1 hp
          refine ⟨hs, hp, List.forall_mem_cons.2 ⟨⟨hgoal, hr⟩, hc⟩, fun n hn' => ?_, fun d hd' => ?_⟩
          · rcases hn n hn' with hn' | hn'
            · rcases List.mem_cons.1 hn' with rfl | hn'
              · exact Or.inr ⟨b, hb', BlockSet.find?_of_resolve hb⟩
              · exact Or.inl hn'
            · exact Or.inr hn'
          · rcases hd d hd' with hd' | hd'
            · rcases List.mem_cons.1 hd' with rfl | hd'
              · exact Or.inr ⟨r, List.mem_cons_self, hb⟩
              · exact Or.inl hd'
            · exact Or.inr (hlater hd')

/-- The calls of the block are of known blocks, none of which is the goal. -/
def CallsWithin (goal : String) (known : List String) (b : Block) : Prop :=
  ∀ c ∈ b.calls, c.2.name ≠ goal ∧ c.2.name ∈ known

/-- A search that does not find the goal ends with a set of blocks that call none but each other. -/
theorem exists_closed_of_callsBelow {seen : List String} {pending : List Block}
    (h : callsBelow bs goal seen pending = .ok false)
    (hseen : ∀ n ∈ seen, ∀ d, bs.find? n = some d → d ∈ pending ∨ d.CallsWithin goal seen) :
    ∃ known, seen ⊆ known ∧ (∀ b ∈ pending, b.CallsWithin goal known) ∧
      ∀ n ∈ known, ∀ d, bs.find? n = some d → d.CallsWithin goal known := by
  fun_induction callsBelow bs goal seen pending with
  | case1 seen =>
      refine ⟨seen, List.Subset.refl _, List.forall_mem_nil _, fun n hn d hd => ?_⟩
      exact (hseen n hn d hd).resolve_left List.not_mem_nil
  | case2 => cases h
  | case3 => cases h
  | case4 seen b pending seen' pending' hpush ih =>
      obtain ⟨hs, hp, hc, hn, -⟩ := pushCallees_eq_ok hpush
      have hb : b.CallsWithin goal seen' := fun c hcb => hc c.2 (List.mem_map_of_mem hcb)
      obtain ⟨known, hknown, hpending, hclosed⟩ := ih h fun n hn' d hd => by
        rcases hn n hn' with hold | ⟨d', hd', hf⟩
        · rcases hseen n hold d hd with hmem | hwithin
          · rcases List.mem_cons.1 hmem with rfl | hmem
            · exact Or.inr hb
            · exact Or.inl (hp hmem)
          · exact Or.inr fun c hc => ⟨(hwithin c hc).1, hs (hwithin c hc).2⟩
        · obtain rfl := Option.some.inj (hf.symm.trans hd)
          exact Or.inl hd'
      refine ⟨known, List.Subset.trans hs hknown, List.forall_mem_cons.2 ⟨?_, ?_⟩, hclosed⟩
      · exact fun c hc => ⟨(hb c hc).1, hknown (hb c hc).2⟩
      · exact fun d hd => hpending d (hp hd)

/-- A block that a chain of calls leads back to is found to reach itself. -/
theorem reachesItself_of_walk (htied : bs.Tied) {b : Block} (hb : b ∈ bs.toList) {r : CallPath} (hr : r ≠ [])
    (hwalk : Walk bs b r b) : b.reachesItself bs = .ok true := by
  unfold reachesItself
  match hres : callsBelow bs b.name [] [b] with
  | .error e => exact absurd hres (callsBelow_ne_error htied (by simpa using hb) e)
  | .ok true => rfl
  | .ok false =>
      obtain ⟨known, -, hstart, hclosed⟩ := exists_closed_of_callsBelow hres nofun
      have hwithin (c d : Block) (r : CallPath) (hwalk : Walk bs c r d) (hr : r ≠ [])
          (hc : c.CallsWithin b.name known) : d.name ≠ b.name := by
        induction hwalk with
        | nil => exact absurd rfl hr
        | @cons _ c' d call callee r hcall hres hwalk ih =>
            obtain ⟨hne, hmem⟩ := hc _ hcall
            have hf := BlockSet.find?_of_resolve hres
            cases hwalk with
            | nil => exact BlockSet.name_of_find? hf ▸ hne
            | cons _ _ _ => exact ih (by simp) (hclosed _ hmem _ hf)
      exact absurd rfl (hwithin b b r hwalk hr (hstart b (by simp)))

end Block

/-- A function whose calls come back to it stands for a block that reaches itself: what was spliced calls the same. -/
theorem BlockSet.reachesItself_of_repaired {bs bs' : BlockSet} {p : Placement} {blocks : List Block} {s s' : Supply}
    (htied : bs.Tied) (hin : p.inline bs s = .ok (blocks, s')) (hrep : repaired blocks = .ok bs') {b' : Block}
    (hb' : bs'.find? b'.name = some b') {r : CallPath} (hr : r ≠ []) (hwalk : Walk bs' b' r b') :
    ∃ b, bs.find? b'.name = some b ∧ b.reachesItself bs = .ok true := by
  cases r with
  | nil => exact absurd rfl hr
  | cons site r =>
      obtain ⟨callee, _, hc, -, -, -⟩ := hwalk.head
      obtain ⟨b, _, _, hb, -, -, -⟩ := exists_walk_of_call htied hin hrep (mem_of_find? hb') hc
      obtain ⟨q, d, hwalk', hd, hq⟩ := exists_walk_of_walk htied hin hrep hwalk hb' hb
      obtain rfl := Option.some.inj (hb.symm.trans hd)
      exact ⟨b, hb, Block.reachesItself_of_walk htied (mem_of_find? hb) (hq hr) hwalk'⟩

/-! ## What callers have -/

/-- The function has a parameter for the variable, or declares it. -/
def Parameters.Supplies (ps : Parameters) (t : Trace) (function : String) (key : Option ChunkId × String) : Prop :=
  (∃ q ∈ ps.of function, q.key = key) ∨ t.declares function key = true

namespace Graph.Prepared

variable {g : Graph} {bs : BlockSet} {p : Placement} {t : Trace} {ps : Parameters} {w x : Visit}
  {c : NodeId × BlockRef} {q : Parameter}

theorem supplies_of_path (h : g.Prepared bs p t ps) (hw : w ∈ t.visits) (hx : x ∈ t.visits) {site : CallSite}
    (hpath : w.path ++ [site] <+: x.path) (hq : q ∈ ps.of site.block) {v : Variable} (hv : v ∈ x.block.vars)
    (hkey : v.key = q.key) : ps.Supplies t w.block.name q.key := by
  obtain ⟨root, -, ht⟩ := h.traced
  obtain ⟨-, b, v', hb, hlifts⟩ := Trace.lifts_of_mem h.parameters hq
  have hneeds := hlifts.needed
  rw [BlockSet.name_of_find? hb] at hneeds
  have hlocal : v.chunk.any p.isLocal = true := by
    have hchunk : v.chunk = v'.chunk := congrArg Prod.fst (hkey.trans hlifts.key)
    rw [hchunk]
    exact hlifts.placed
  obtain ⟨ck, hck, -⟩ := Option.any_eq_true _ _ |>.1 hlocal
  rcases Trace.site_or_needs_of_call ht hw hx hpath hv hck hneeds (hlifts.key.symm.trans hkey.symm) with
    hsite | ⟨u, hu, hukey⟩
  · refine Or.inr ?_
    rw [← hkey, Trace.declares, Variable.key, hck]
    simpa using hsite
  · have hulocal : u.chunk.any p.isLocal = true := by
      have hchunk : u.chunk = v.chunk := congrArg Prod.fst hukey
      rw [hchunk]
      exact hlocal
    obtain ⟨q', hq', hkey'⟩ := Trace.exists_parameter h.parameters (Trace.mem_blocks.2 ⟨w, hw, rfl⟩) hu hulocal
    exact Or.inl ⟨q', hq', hkey'.trans (hukey.trans hkey)⟩

/-- A call that the caller cannot supply lies on no recorded path to the variable. -/
theorem not_mem_path (h : g.Prepared bs p t ps) (hw : w ∈ t.visits) (hc : c ∈ w.block.calls)
    (hq : q ∈ ps.of c.2.name) (hn : ¬ ps.Supplies t w.block.name q.key) (hx : x ∈ t.visits) {v : Variable}
    (hv : v ∈ x.block.vars) (hkey : v.key = q.key) : (⟨c.1, c.2.name⟩ : CallSite) ∉ x.path := by
  intro hmem
  obtain ⟨root, hroot, ht⟩ := h.traced
  obtain ⟨front, back, hpath⟩ := List.append_of_mem hmem
  obtain ⟨hwalk, hfresh⟩ := (Trace.mem_visits ht).1 hx
  rw [hpath] at hwalk hfresh
  obtain ⟨b, hfront, hback⟩ := hwalk.split
  have hy : ⟨b, front⟩ ∈ t.visits :=
    (Trace.mem_visits ht).2 ⟨hfront, hfresh.sublist (List.sublist_append_left _ _)⟩
  -- the identity of a call tells which block it is in
  obtain ⟨callee, _, hcall, -, -, -⟩ := hback.head
  have hid : c.1 ∈ Stmt.ids w.block.statements := BlockSet.id_mem_of_call hc
  obtain rfl : b = w.block := BlockSet.eq_of_mem_block_ids h.placed.ids
    (BlockSet.mem_of_find? (h.find?_visit hy)) (BlockSet.mem_of_find? (h.find?_visit hw))
    (BlockSet.id_mem_of_call hcall) hid
  have hstart : front ++ [⟨c.1, c.2.name⟩] <+: x.path := ⟨back, by simp [hpath]⟩
  exact hn (h.supplies_of_path (w := ⟨w.block, front⟩) hy hx hstart hq hv hkey)

/-- The callee of a call that the caller cannot supply leads back to the caller. -/
theorem exists_walk_back (h : g.Prepared bs p t ps) (hw : w ∈ t.visits) (hc : c ∈ w.block.calls)
    (hq : q ∈ ps.of c.2.name) (hn : ¬ ps.Supplies t w.block.name q.key) :
    ∃ r, r ≠ [] ∧ Walk bs w.block r w.block := by
  obtain ⟨root, hroot, ht⟩ := h.traced
  have hroot' : bs.find? root.name = some root := (BlockSet.name_of_find? hroot).symm ▸ hroot
  obtain ⟨b, -, -, hres⟩ := h.placed.linked w.block (BlockSet.mem_of_find? (h.find?_visit hw)) c hc
  by_contra hcon
  have hcall : (c.1, c.2) ∈ w.block.calls := hc
  have hback : ∀ r, ¬ Walk bs b r w.block := fun r hr =>
    hcon ⟨⟨c.1, b.name⟩ :: r, by simp, .cons hcall hres hr⟩
  have hb := BlockSet.find?_of_resolve hres
  obtain ⟨-, b', v, hb', hlifts⟩ := Trace.lifts_of_mem h.parameters hq
  obtain rfl := Option.some.inj (hb'.symm.trans hb)
  obtain ⟨b₁, r, d, hb₁, hwalk, hfresh, hv⟩ := Trace.exists_mention_below ht hroot' hlifts.needed
  rw [BlockSet.name_of_find? hb, hb, Option.some.injEq] at hb₁
  subst hb₁
  have hx := Trace.mem_visits_of_call ht hroot' hw hcall hres hwalk hfresh hback
  refine h.not_mem_path hw hc hq hn hx hv hlifts.key.symm ?_
  simp [BlockSet.name_of_find? hb]

end Graph.Prepared

/-- What is passed in a call the caller has. -/
theorem Function.Lowers.supplies {g : Graph} {p : Placement} {t : Trace} {ps : Parameters} {b : Block} {F : Function}
    (hF : F.Lowers g p t ps b) {c : NodeId × BlockRef} (hc : c ∈ b.calls) {q : Parameter}
    (hq : q ∈ ps.of c.2.name) : ps.Supplies t b.name q.key := by
  have hc' : (c.1, c.2) ∈ Stmt.calls (Stmt.mapExprsOfAll (·.substitute ps.substitution) b.statements) := by
    rw [Stmt.calls_mapExprs]
    exact hc
  obtain ⟨-, front, -, ⟨args, hargs, rfl⟩, -⟩ := hF.body.operands_of_call hc'
  obtain ⟨a, -, ha⟩ := forall₂_mem_left hargs hq
  cases hfind : (ps.of b.name).find? (·.key = q.key) with
  | none => exact Or.inr (Parameter.declares_of_none ha hfind)
  | some q' => exact Or.inl ⟨q', List.mem_of_find?_eq_some hfind, by simpa using List.find?_some hfind⟩

/-- A call for which `caller` has nothing to pass for the variable `v`. It lies on no recorded path to the
variable. -/
structure Trace.CutShort (t : Trace) (ps : Parameters) (caller : String) (c : NodeId × BlockRef) (v : String) :
    Prop where
  made : ∃ w ∈ t.visits, w.block.name = caller ∧ c ∈ w.block.calls
  failed : callFunction t ps caller c.2 = .error (.unresolvedArgument caller v)
  unrecorded : ∃ q ∈ ps.of c.2.name, q.key.2 = v ∧ ¬ ps.Supplies t caller q.key ∧
    ∀ x ∈ t.visits, ∀ u ∈ x.block.vars, u.key = q.key → ⟨c.1, c.2.name⟩ ∉ x.path

/-- In a program every caller has a parameter for each variable that its callee takes, or declares it. If for
want of one there is no program, the block of the caller reaches itself, and in the run that failed the call
that could not be made lies on no recorded path to the variable. -/
theorem interpret_supplies {σ : Type} [RandomSource σ] {d : Description} {s s' supply : Supply} {g : Graph}
    {source : σ} (hs : Supply.first.next ≤ s.next) (hd : d.toGraph s = .ok (g, s'))
    (hsupply : s'.next ≤ supply.next) :
    (∀ P source', g.interpret supply source = .ok (P, source') → ∃ p bs t ps, LowersTo d p g bs P ∧
      g.Prepared bs p t ps ∧ ∀ w ∈ t.visits, ∀ c ∈ w.block.calls, ∀ q ∈ ps.of c.2.name,
        ps.Supplies t w.block.name q.key) ∧
    ∀ caller v, g.interpret supply source = .error (.unresolvedArgument caller v) →
      (∃ b, g.blocks.find? caller = some b ∧ b.reachesItself g.blocks = .ok true) ∧
      ∃ p source' blocks supply' bs t ps, Placement.draw g source = .ok (p, source') ∧
        p.inline g.blocks supply = .ok (blocks, supply') ∧ BlockSet.repaired blocks = .ok bs ∧
        g.lower bs p = .error (.unresolvedArgument caller v) ∧ g.Prepared bs p t ps ∧
        ∃ c, t.CutShort ps caller c v := by
  have hcompiled := Description.compiled hd
  constructor
  · intro P source' h
    obtain ⟨p, bs, hlowers⟩ := exists_lowersTo_of_interpret hs hd hsupply h
    obtain ⟨t, ps, hprep, -, hfunctions⟩ := Graph.lower_eq_ok hlowers.lowered hlowers.placed
    refine ⟨p, bs, t, ps, hlowers, hprep, fun w hw c hc q hq => ?_⟩
    obtain ⟨F, -, b, hb, hF⟩ := forall₂_mem_left hfunctions (Trace.mem_blocks.2 ⟨w, hw, rfl⟩)
    obtain rfl := Option.some.inj (hb.symm.trans (hprep.find?_visit hw))
    exact hF.supplies hc hq
  · intro caller v he
    rcases Graph.interpret_error_cases hcompiled.tied hcompiled.entry he with ⟨_, he⟩ | hcases
    · cases he
    obtain ⟨p, source', blocks, supply', bs, hp, hin, hrep, hentry, hlower⟩ := hcases
    rcases Graph.lower_eq_error (BlockSet.tied_of_repaired hrep) hentry hlower with ⟨_, _, he⟩ | hcases
    · cases he
    obtain ⟨root, t, ps, hroot, ht, hps, w, hw, c, hc, hfailed⟩ := hcases
    obtain ⟨q, hq, hfind, hdeclares, he⟩ := callFunction_eq_error hfailed
    cases he
    have hprep : g.Prepared bs p t ps := ⟨hcompiled.placed hs hsupply hin hrep, ⟨root, hroot, ht⟩, hps⟩
    have hnot : ¬ ps.Supplies t w.block.name q.key := by
      rintro (⟨q', hq', hkey⟩ | hd)
      · exact absurd (decide_eq_true hkey) (by simpa using List.find?_eq_none.1 hfind q' hq')
      · rw [hdeclares] at hd
        cases hd
    refine ⟨?_, p, source', blocks, supply', bs, t, ps, hp, hin, hrep, hlower, hprep, c, ⟨w, hw, rfl, hc⟩, hfailed,
      q, hq, rfl, hnot, fun x hx u hu hkey => ?_⟩
    · obtain ⟨r, hr, hwalk⟩ := hprep.exists_walk_back hw hc hq hnot
      exact BlockSet.reachesItself_of_repaired hcompiled.tied hin hrep (hprep.find?_visit hw) hr hwalk
    · exact hprep.not_mem_path hw hc hq hnot hx hu hkey

/-- The second of two functions that call each other has nothing to pass to the first one. -/
theorem Description.recurring_unsupplied : ∃ g s, recurring.toGraph .first = .ok (g, s) ∧
    g.interpret s (ChaCha.ofSeed 0) = .error (.unresolvedArgument "helper" "x") := by
  have h : (match recurring.toGraph .first with
    | .ok (g, s) => match g.interpret s (ChaCha.ofSeed 0) with
      | .error (.unresolvedArgument block v) => block == "helper" && v == "x"
      | _ => false
    | .error _ => false) = true := by decide +kernel
  split at h
  · next g s hg =>
    split at h
    · next block v he =>
      simp only [Bool.and_eq_true, beq_iff_eq] at h
      obtain ⟨rfl, rfl⟩ := h
      exact ⟨g, s, hg, he⟩
    · cases h
  · cases h

theorem interpret_supplies_recurring : ∃ g s, Description.recurring.toGraph .first = .ok (g, s) ∧
    g.interpret s (ChaCha.ofSeed 0) = .error (.unresolvedArgument "helper" "x") ∧
    (∃ b, g.blocks.find? "helper" = some b ∧ b.reachesItself g.blocks = .ok true) ∧
    ∃ p source' blocks supply' bs t ps, Placement.draw g (ChaCha.ofSeed 0) = .ok (p, source') ∧
      p.inline g.blocks s = .ok (blocks, supply') ∧ BlockSet.repaired blocks = .ok bs ∧
      g.lower bs p = .error (.unresolvedArgument "helper" "x") ∧ g.Prepared bs p t ps ∧
      ∃ c, t.CutShort ps "helper" c "x" := by
  obtain ⟨g, s, hg, he⟩ := Description.recurring_unsupplied
  exact ⟨g, s, hg, he, (interpret_supplies (Nat.le_refl _) hg (Nat.le_refl _)).2 "helper" "x" he⟩

theorem not_always_supplied : ¬ ∀ (d : Description) (g : Graph) (s : Supply) (seed : UInt64),
    d.toGraph .first = .ok (g, s) → ∀ block v,
      g.interpret s (ChaCha.ofSeed seed) ≠ .error (.unresolvedArgument block v) := by
  intro h
  obtain ⟨g, s, hg, he⟩ := Description.recurring_unsupplied
  exact h _ g s 0 hg "helper" "x" he

end Diversity
