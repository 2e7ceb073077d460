import Mathlib.Data.List.Induction
import Diversity.Proofs.Compiled
import Diversity.Proofs.Failure
import Diversity.Proofs.TypeText
/-! Chunks from their declarations: those of one name make one chunk, each without a name makes its own. -/
namespace Diversity

namespace Chunk

theorem Constraint.ofFlags_eq_ok {isLocal isGlobal isStatic : Bool} {c : Constraint}
    (h : Constraint.ofFlags isLocal isGlobal isStatic = .ok c) :
    c.isLocal = isLocal ∧ c.isGlobal = isGlobal ∧ c.isStatic = isStatic := by
  cases isLocal <;> cases isGlobal <;> cases h <;> exact ⟨rfl, rfl, rfl⟩

theorem Constraint.exists_ofFlags {isLocal isGlobal : Bool} (h : (isLocal && isGlobal) = false) (isStatic : Bool) :
    ∃ c, Constraint.ofFlags isLocal isGlobal isStatic = .ok c := by
  cases isLocal <;> cases isGlobal <;> first | exact ⟨_, rfl⟩ | cases h

theorem Constraint.not_isLocal_and_isGlobal (c : Constraint) : (c.isLocal && c.isGlobal) = false := by
  obtain ⟨reach, isStatic⟩ := c
  cases reach with
  | none => rfl
  | some reach => cases reach <;> rfl

/-- If no name comes twice, just the variables that are not hidden are found. -/
theorem lookup_eq_some_iff {c : Chunk} (h : (c.vars.map (·.name)).Nodup) {name : String} {d : Declaration} :
    c.lookup name = some d ↔ d ∈ c.vars ∧ d.name = name ∧ name.toList.head? ≠ some '_' := by
  have hvisible (d : Declaration) :
      d.visibleName? = some name ↔ d.name = name ∧ name.toList.head? ≠ some '_' := by
    rw [Declaration.visibleName?, Option.ite_none_left_eq_some, Option.some.injEq, and_comm, Bool.not_eq_true]
    refine and_congr_right fun hname => ?_
    rw [← hname, Variable.isHidden, beq_eq_false_iff_ne, Declaration.name]
  rw [← hvisible]
  refine ⟨of_lookup, fun ⟨hmem, hname⟩ => ?_⟩
  cases hfound : c.lookup name with
  | none => exact absurd (hname ▸ List.mem_map_of_mem hmem) (lookup_eq_none.1 hfound)
  | some d' =>
      obtain ⟨hmem', hname'⟩ := of_lookup hfound
      have hsame : d'.name = d.name := ((hvisible d').1 hname').1.trans ((hvisible d).1 hname).1.symm
      rw [List.inj_on_of_nodup_map h hmem' hmem hsame]

end Chunk

namespace Description

/-- The name that the first declaration of a group has. -/
def Chunk.groupName (g : List Chunk) : Option String := g.head?.bind (·.name)

/-- The declarations in groups. One without a name is alone; one with a name takes along all later ones that have it,
and so leaves of their groups only those with other names. -/
def Chunk.groups : List Chunk → List (List Chunk)
  | [] => []
  | c :: cs =>
    if c.name = none then [c] :: groups cs
    else (c :: cs.filter (·.name = c.name)) :: (groups cs).filter (Chunk.groupName · ≠ c.name)

/-- The groups part the declarations by name. None gets lost, and both the groups and the declarations in each are in
the order of the document. -/
structure Chunk.Grouped (cs : List Chunk) (gs : List (List Chunk)) : Prop where
  perm : gs.flatten.Perm cs
  sublist : ∀ g ∈ gs, List.Sublist g cs
  heads : List.Sublist (gs.filterMap (·.head?)) cs
  names : ∀ g ∈ gs, ∀ c ∈ g, c.name = Chunk.groupName g
  alone : ∀ g ∈ gs, Chunk.groupName g = none → g.length = 1
  distinct : (gs.filterMap Chunk.groupName).Nodup

/-- The group asks for a local and for a global chunk. -/
def Chunk.conflicting (g : List Chunk) : Bool := g.any (·.isLocal) && g.any (·.isGlobal)

/-- The declaration of a variable, resolved, in the chunk that has the identity. -/
structure Variable.Declares (scope : Scope) (part : Part) (id : ChunkId) (v : Variable) (d : Declaration) : Prop where
  name : d.name = v.name
  type : ∃ type, CType.parse v.type = .ok type ∧ d.var.type = some type
  initial : v.initial.mapM (·.resolve part scope) = .ok d.initial
  owner : d.var.chunk = some id

/-- The chunk is what the declarations of a group say together. -/
structure Chunk.Makes (scope : Scope) (g : List Chunk) (c : Diversity.Chunk) : Prop where
  nonempty : g ≠ []
  name : ∀ d ∈ g, d.name = c.name
  isLocal : c.constraint.isLocal = g.any (·.isLocal)
  isGlobal : c.constraint.isGlobal = g.any (·.isGlobal)
  isStatic : c.constraint.isStatic = g.any (·.isStatic)
  vars : List.Forall₂ (Variable.Declares scope (c.name.elim .anonymousChunk .chunk) c.id) (g.flatMap (·.vars)) c.vars

/-! ## One more declaration -/

/-- The groups with one more declaration, which comes last. -/
def Chunk.addTo (c : Chunk) : List (List Chunk) → List (List Chunk)
  | [] => [[c]]
  | g :: gs => if c.name ≠ none ∧ Chunk.groupName g = c.name then (g ++ [c]) :: gs else g :: addTo c gs

variable {scope : Scope} {c : Chunk} {g : List Chunk} {gs : List (List Chunk)}

@[simp] theorem Chunk.groupName_cons (c : Chunk) (g : List Chunk) : Chunk.groupName (c :: g) = c.name := rfl

theorem Chunk.groupName_append (h : Chunk.groupName g ≠ none) (g' : List Chunk) :
    Chunk.groupName (g ++ g') = Chunk.groupName g := by
  cases g with
  | nil => exact absurd rfl h
  | cons d g => rfl

theorem Chunk.filter_addTo_of_eq {name : Option String} (h : c.name = name) :
    (c.addTo gs).filter (Chunk.groupName · ≠ name) = gs.filter (Chunk.groupName · ≠ name) := by
  induction gs with
  | nil => simp [addTo, h]
  | cons g gs ih =>
      unfold addTo
      split
      · next hg => simp [groupName_append (hg.2 ▸ hg.1), hg.2, h]
      · simp only [List.filter_cons, ih]

theorem Chunk.filter_addTo_of_ne {name : Option String} (h : c.name ≠ name) :
    (c.addTo gs).filter (Chunk.groupName · ≠ name) = c.addTo (gs.filter (Chunk.groupName · ≠ name)) := by
  induction gs with
  | nil => simp [addTo, h]
  | cons g gs ih =>
      by_cases hg : c.name ≠ none ∧ Chunk.groupName g = c.name
      · simp [addTo, hg, groupName_append (hg.2 ▸ hg.1), h]
      · rw [addTo, if_neg hg]
        simp only [List.filter_cons, ih]
        split
        · rw [addTo, if_neg hg]
        · rfl

theorem Chunk.groups_append_singleton (cs : List Chunk) (c : Chunk) :
    Chunk.groups (cs ++ [c]) = c.addTo (Chunk.groups cs) := by
  induction cs with
  | nil => simp [groups, addTo]
  | cons d cs ih =>
      rw [List.cons_append, groups, groups, ih]
      by_cases hd : d.name = none
      · have hc : ¬(c.name ≠ none ∧ Chunk.groupName [d] = c.name) := fun h => h.1 (h.2.symm.trans hd)
        rw [if_pos hd, if_pos hd, addTo, if_neg hc]
      · rw [if_neg hd, if_neg hd, List.filter_append]
        by_cases hc : c.name = d.name
        · rw [filter_addTo_of_eq hc]
          simp [addTo, hc, hd]
        · rw [filter_addTo_of_ne hc]
          simp [addTo, hc, Ne.symm hc]

theorem Chunk.flatten_addTo_perm (c : Chunk) (gs : List (List Chunk)) :
    (c.addTo gs).flatten.Perm (gs.flatten ++ [c]) := by
  induction gs with
  | nil => simp [addTo]
  | cons g gs ih =>
      unfold addTo
      split
      · simpa using (List.perm_append_singleton c gs.flatten).symm.append_left g
      · simpa using ih.append_left g

theorem Chunk.flatten_groups_perm (cs : List Chunk) : (Chunk.groups cs).flatten.Perm cs := by
  induction cs using List.reverseRecOn with
  | nil => rfl
  | append_singleton cs c ih =>
      rw [groups_append_singleton]
      exact (flatten_addTo_perm c _).trans (ih.append_right [c])

theorem Chunk.grouped_groups (cs : List Chunk) : Chunk.Grouped cs (Chunk.groups cs) := by
  induction cs with
  | nil => constructor <;> simp [groups]
  | cons c cs ih =>
      have hperm := flatten_groups_perm (c :: cs)
      unfold groups at hperm ⊢
      split at hperm
      · next hc =>
        rw [if_pos hc]
        refine ⟨hperm, ?_, ih.heads.cons_cons c, ?_, ?_, ?_⟩
        · exact List.forall_mem_cons.2 ⟨by simp, fun g hg => (ih.sublist g hg).cons c⟩
        · exact List.forall_mem_cons.2 ⟨by simp, ih.names⟩
        · exact List.forall_mem_cons.2 ⟨fun _ => rfl, ih.alone⟩
        · simpa [hc] using ih.distinct
      · next hc =>
        have hmem {g} (hg : g ∈ (groups cs).filter (groupName · ≠ c.name)) : g ∈ groups cs := (List.mem_filter.1 hg).1
        obtain ⟨name, hname⟩ := Option.ne_none_iff_exists'.1 hc
        rw [if_neg hc]
        refine ⟨hperm, ?_, ?_, ?_, ?_, ?_⟩
        · exact List.forall_mem_cons.2 ⟨List.filter_sublist.cons_cons c, fun g hg => (ih.sublist g (hmem hg)).cons c⟩
        · exact ((List.filter_sublist.filterMap _).trans ih.heads).cons_cons c
        · exact List.forall_mem_cons.2 ⟨by simp, fun g hg => ih.names g (hmem hg)⟩
        · exact List.forall_mem_cons.2 ⟨fun h => absurd h hc, fun g hg => ih.alone g (hmem hg)⟩
        · rw [List.filterMap_cons_some (by exact hname), List.nodup_cons]
          refine ⟨?_, ih.distinct.sublist (List.filter_sublist.filterMap _)⟩
          simp only [List.mem_filterMap, List.mem_filter, hname, decide_eq_true_eq]
          rintro ⟨g, ⟨-, hne⟩, hg⟩
          exact hne hg

/-! ## What the groups make -/

theorem Variable.declares_of_resolve {part : Part} {v : Variable} {d : Declaration} (h : v.resolve part scope = .ok d)
    (id : ChunkId) : v.Declares scope part id { d with var.chunk := some id } := by
  obtain ⟨type, htype, h⟩ := bind_eq_ok.1 h
  obtain ⟨initial, hinitial, h⟩ := bind_eq_ok.1 h
  cases h
  refine ⟨rfl, ⟨type, ?_, rfl⟩, hinitial, rfl⟩
  unfold resolveType at htype
  split at htype
  · next hparse =>
    cases htype
    exact hparse
  · cases htype

theorem Variable.Declares.rehome {part : Part} {id : ChunkId} {v : Variable} {d : Declaration}
    (h : v.Declares scope part id d) (id' : ChunkId) : v.Declares scope part id' { d with var.chunk := some id' } :=
  ⟨h.name, h.type, h.initial, rfl⟩

namespace Chunk

theorem makes_of_resolve {id : ChunkId} {chunk : Diversity.Chunk} (h : c.resolve scope id = .ok chunk) :
    Makes scope [c] chunk := by
  obtain ⟨constraint, hflags, h⟩ := bind_eq_ok.1 h
  obtain ⟨vars, hvars, h⟩ := bind_eq_ok.1 h
  cases h
  obtain ⟨hlocal, hglobal, hstatic⟩ := Chunk.Constraint.ofFlags_eq_ok (mapError_eq_ok.1 hflags)
  refine ⟨by simp, by simp [Diversity.Chunk.make, Diversity.Chunk.of], ?_, ?_, ?_, ?_⟩
  · simpa [Diversity.Chunk.make, Diversity.Chunk.of] using hlocal
  · simpa [Diversity.Chunk.make, Diversity.Chunk.of] using hglobal
  · simpa [Diversity.Chunk.make, Diversity.Chunk.of] using hstatic
  · rw [List.flatMap_singleton]
    apply List.forall₂_map_right_iff.2
    exact (mapM_eq_ok.1 hvars).imp fun v d hd => Variable.declares_of_resolve hd id

theorem exists_resolve {vars : List Declaration} (hvars : c.vars.mapM (·.resolve c.part scope) = .ok vars)
    (hflags : (c.isLocal && c.isGlobal) = false) (id : ChunkId) : ∃ chunk, c.resolve scope id = .ok chunk := by
  obtain ⟨constraint, hconstraint⟩ := Chunk.Constraint.exists_ofFlags hflags c.isStatic
  refine ⟨.make id c.name constraint vars, ?_⟩
  exact bind_eq_ok.2 ⟨constraint, mapError_eq_ok.2 hconstraint, bind_eq_ok.2 ⟨vars, hvars, rfl⟩⟩

variable {d e m : Diversity.Chunk} {g' : List Chunk}

theorem Makes.not_conflicting (h : Makes scope g d) : conflicting g = false := by
  rw [conflicting, ← h.isLocal, ← h.isGlobal]
  exact d.constraint.not_isLocal_and_isGlobal

theorem Makes.groupName (h : Makes scope g d) : groupName g = d.name := by
  obtain ⟨c, g, rfl⟩ := List.exists_cons_of_ne_nil h.nonempty
  exact h.name c List.mem_cons_self

theorem Makes.merge (hd : Makes scope g d) (he : Makes scope g' e) (hname : e.name = d.name) (h : d.merge e = .ok m) :
    Makes scope (g ++ g') m := by
  obtain ⟨constraint, hflags, h⟩ := bind_eq_ok.1 h
  cases h
  obtain ⟨hlocal, hglobal, hstatic⟩ := Chunk.Constraint.ofFlags_eq_ok hflags
  have hor : (d.name <|> e.name) = d.name := by rw [hname]; cases d.name <;> rfl
  rw [hor]
  refine ⟨by simp [hd.nonempty], ?_, ?_, ?_, ?_, ?_⟩
  · exact List.forall_mem_append.2 ⟨hd.name, fun c hc => (he.name c hc).trans hname⟩
  · rw [List.any_append, ← hd.isLocal, ← he.isLocal]
    exact hlocal
  · rw [List.any_append, ← hd.isGlobal, ← he.isGlobal]
    exact hglobal
  · rw [List.any_append, ← hd.isStatic, ← he.isStatic]
    exact hstatic
  · have hvars := he.vars
    rw [hname] at hvars
    rw [List.flatMap_append]
    apply List.forall₂_map_right_iff.2
    exact List.rel_append (hd.vars.imp fun _ _ h => h.rehome d.id) (hvars.imp fun _ _ h => h.rehome d.id)

theorem Makes.exists_merge (hd : Makes scope g d) (he : Makes scope g' e) (h : conflicting (g ++ g') = false) :
    ∃ m, d.merge e = .ok m := by
  rw [conflicting, List.any_append, List.any_append, ← hd.isLocal, ← hd.isGlobal, ← he.isLocal, ← he.isGlobal] at h
  obtain ⟨constraint, hconstraint⟩ :=
    Chunk.Constraint.exists_ofFlags h (d.constraint.isStatic || e.constraint.isStatic)
  exact ⟨_, bind_eq_ok.2 ⟨constraint, hconstraint, rfl⟩⟩

/-! ## Joining declaration by declaration -/

theorem conflicting_of_subset (h : g ⊆ g') (hg' : conflicting g' = false) : conflicting g = false := by
  rw [conflicting, Bool.and_eq_false_iff, List.any_eq_false, List.any_eq_false] at hg' ⊢
  exact hg'.imp (fun hall c hc => hall c (h hc)) fun hall c hc => hall c (h hc)

/-- No group asks for a local and for a global chunk. -/
def Compatible (gs : List (List Chunk)) : Prop := ∀ g ∈ gs, conflicting g = false

theorem Compatible.of_addTo (h : Compatible (c.addTo gs)) : Compatible gs ∧ (c.isLocal && c.isGlobal) = false := by
  induction gs with
  | nil =>
      refine ⟨List.forall_mem_nil _, ?_⟩
      simpa [conflicting] using h [c] List.mem_cons_self
  | cons g gs ih =>
      unfold addTo at h
      split at h
      · obtain ⟨hg, hgs⟩ := List.forall_mem_cons.1 h
        refine ⟨List.forall_mem_cons.2 ⟨conflicting_of_subset (List.subset_append_left g [c]) hg, hgs⟩, ?_⟩
        simpa [conflicting] using conflicting_of_subset (List.subset_append_right g [c]) hg
      · obtain ⟨hg, hgs⟩ := List.forall_mem_cons.1 h
        exact ⟨List.forall_mem_cons.2 ⟨hg, (ih hgs).1⟩, (ih hgs).2⟩

theorem Compatible.of_append {cs ds : List Chunk} (h : Compatible (groups (cs ++ ds))) : Compatible (groups cs) := by
  induction ds generalizing cs with
  | nil => rwa [List.append_nil] at h
  | cons d ds ih =>
      rw [List.append_cons] at h
      have hd := ih h
      rw [groups_append_singleton] at hd
      exact hd.of_addTo.1

end Chunk

section

variable {part : Part} {joined joined' : List Diversity.Chunk} {chunk : Diversity.Chunk}

/-- Chunks are joined where the groups of their declarations are. -/
theorem joins_iff {d : Diversity.Chunk} (hc : Chunk.Makes scope [c] chunk) (hd : Chunk.Makes scope g d) :
    (chunk.name.isSome && d.name == chunk.name) = true ↔ c.name ≠ none ∧ Chunk.groupName g = c.name := by
  have hname : c.name = chunk.name := hc.name c List.mem_cons_self
  rw [hname, hd.groupName, Bool.and_eq_true, beq_iff_eq, Option.isSome_iff_ne_none]

theorem makes_of_join (hc : Chunk.Makes scope [c] chunk) (hj : List.Forall₂ (Chunk.Makes scope) gs joined)
    (h : join part chunk joined = .ok joined') : List.Forall₂ (Chunk.Makes scope) (c.addTo gs) joined' := by
  induction hj generalizing joined' with
  | nil =>
      cases h
      exact .cons hc .nil
  | cons hd hds ih =>
      unfold join at h
      split at h
      · next hname =>
        rw [joins_iff hc hd] at hname
        obtain ⟨m, hm, h⟩ := bind_eq_ok.1 h
        cases h
        have hnames := hc.groupName.symm.trans (hname.2.symm.trans hd.groupName)
        rw [Chunk.addTo, if_pos hname]
        exact .cons (hd.merge hc hnames (mapError_eq_ok.1 hm)) hds
      · next hname =>
        rw [joins_iff hc hd] at hname
        obtain ⟨ds', hds', h⟩ := bind_eq_ok.1 h
        cases h
        rw [Chunk.addTo, if_neg hname]
        exact .cons hd (ih hds')

theorem exists_join (part : Part) (hc : Chunk.Makes scope [c] chunk) (hj : List.Forall₂ (Chunk.Makes scope) gs joined)
    (h : Chunk.Compatible (c.addTo gs)) : ∃ joined', join part chunk joined = .ok joined' := by
  induction hj with
  | nil => exact ⟨_, rfl⟩
  | cons hd hds ih =>
      unfold join
      unfold Chunk.addTo at h
      split at h
      · next hname =>
        obtain ⟨m, hm⟩ := hd.exists_merge hc (h _ List.mem_cons_self)
        rw [if_pos ((joins_iff hc hd).2 hname)]
        exact ⟨_, bind_eq_ok.2 ⟨m, mapError_eq_ok.2 hm, rfl⟩⟩
      · next hname =>
        obtain ⟨ds', hds'⟩ := ih (List.forall_mem_cons.1 h).2
        rw [if_neg fun h => hname ((joins_iff hc hd).1 h)]
        exact ⟨_, bind_eq_ok.2 ⟨ds', hds', rfl⟩⟩

/-- What has been joined so far is what the groups of the declarations so far make. -/
theorem makes_of_joinAll {cs : List Chunk} (ds : List Chunk) {chunks : List Diversity.Chunk} {s s' : Supply}
    (hj : List.Forall₂ (Chunk.Makes scope) (Chunk.groups ds) joined)
    (h : joinAll scope joined s cs = .ok (chunks, s')) :
    List.Forall₂ (Chunk.Makes scope) (Chunk.groups (ds ++ cs)) chunks := by
  induction cs generalizing ds joined s with
  | nil =>
      cases h
      rwa [List.append_nil]
  | cons c cs ih =>
      obtain ⟨chunk, hchunk, h⟩ := bind_eq_ok.1 h
      obtain ⟨joined', hj', h⟩ := bind_eq_ok.1 h
      rw [List.append_cons]
      apply ih (ds ++ [c]) ?_ h
      rw [Chunk.groups_append_singleton]
      exact makes_of_join (Chunk.makes_of_resolve hchunk) hj hj'

theorem exists_joinAll {cs : List Chunk} (ds : List Chunk) (s : Supply)
    (hcs : ∀ c ∈ cs, ∃ vars, c.vars.mapM (·.resolve c.part scope) = .ok vars)
    (hj : List.Forall₂ (Chunk.Makes scope) (Chunk.groups ds) joined)
    (h : Chunk.Compatible (Chunk.groups (ds ++ cs))) : ∃ r, joinAll scope joined s cs = .ok r := by
  induction cs generalizing ds joined s with
  | nil => exact ⟨_, rfl⟩
  | cons c cs ih =>
      obtain ⟨⟨vars, hvars⟩, hcs⟩ := List.forall_mem_cons.1 hcs
      rw [List.append_cons] at h
      have hnext : Chunk.Compatible (c.addTo (Chunk.groups ds)) := by
        rw [← Chunk.groups_append_singleton]
        exact h.of_append
      obtain ⟨chunk, hchunk⟩ := Chunk.exists_resolve hvars hnext.of_addTo.2 ⟨s.next⟩
      have hc := Chunk.makes_of_resolve hchunk
      obtain ⟨joined', hj'⟩ := exists_join c.part hc hj hnext
      have hmade : List.Forall₂ (Chunk.Makes scope) (Chunk.groups (ds ++ [c])) joined' := by
        rw [Chunk.groups_append_singleton]
        exact makes_of_join hc hj hj'
      obtain ⟨r, hr⟩ := ih (ds ++ [c]) ⟨s.next + 1⟩ hcs hmade h
      exact ⟨r, bind_eq_ok.2 ⟨chunk, hchunk, bind_eq_ok.2 ⟨joined', hj', hr⟩⟩⟩

end

/-! ## All chunks -/

theorem firstRepeated_eq_none_iff {seen names : List String} :
    firstRepeated seen names = none ↔ names.Nodup ∧ ∀ n ∈ names, n ∉ seen := by
  constructor
  · exact nodup_of_firstRepeated
  · rintro ⟨hnodup, hseen⟩
    induction names generalizing seen with
    | nil => rfl
    | cons name names ih =>
        obtain ⟨hname, hnames⟩ := List.nodup_cons.1 hnodup
        obtain ⟨hfirst, hrest⟩ := List.forall_mem_cons.1 hseen
        rw [firstRepeated, if_neg (by simpa using hfirst)]
        apply ih hnames
        intro n hn
        have hne : n ≠ name := fun h => hname (h ▸ hn)
        simp [hrest n hn, hne]

theorem checkDistinct_eq_ok_iff {c : Diversity.Chunk} : checkDistinct c = .ok () ↔ (c.vars.map (·.name)).Nodup := by
  have hnone : firstRepeated [] (c.vars.map (·.name)) = none ↔ (c.vars.map (·.name)).Nodup := by
    simp [firstRepeated_eq_none_iff]
  rw [← hnone, checkDistinct]
  cases firstRepeated [] (c.vars.map (·.name)) <;> simp

theorem resolveChunks_eq_ok_iff {cs : List Chunk} {chunks : List Diversity.Chunk} {s s' : Supply} :
    resolveChunks scope s cs = .ok (chunks, s') ↔
      joinAll scope [] s cs = .ok (chunks, s') ∧ ∀ c ∈ chunks, (c.vars.map (·.name)).Nodup := by
  simp only [← checkDistinct_eq_ok_iff, ← forM_eq_ok_iff]
  constructor
  · intro h
    obtain ⟨⟨joined, s₁⟩, hj, h⟩ := bind_eq_ok.1 h
    obtain ⟨_, hd, h⟩ := bind_eq_ok.1 h
    cases h
    exact ⟨hj, hd⟩
  · rintro ⟨hj, hd⟩
    exact bind_eq_ok.2 ⟨(chunks, s'), hj, bind_eq_ok.2 ⟨(), hd, rfl⟩⟩

theorem Chunk.Makes.names_eq {c : Diversity.Chunk} (h : Chunk.Makes scope g c) :
    c.vars.map (·.name) = (g.flatMap (·.vars)).map (·.name) :=
  (map_eq_map_of_forall₂ h.vars fun _ _ hd => hd.name.symm).symm

theorem Variable.exists_resolve {part : Part} {v : Variable} (htype : ∃ type, CType.parse v.type = .ok type)
    (hinitial : ∀ t ∈ v.initial, ∃ e, t.resolve part scope = .ok e) : ∃ d, v.resolve part scope = .ok d := by
  obtain ⟨type, htype⟩ := htype
  have htype : resolveType part v.type = .ok type := by rw [resolveType, htype]
  obtain ⟨initial, hinitial⟩ : ∃ initial, v.initial.mapM (·.resolve part scope) = .ok initial := by
    cases hv : v.initial with
    | none => exact ⟨none, rfl⟩
    | some t =>
        obtain ⟨e, he⟩ := hinitial t hv
        exact ⟨some e, by rw [Option.mapM_some, he]; rfl⟩
  exact ⟨_, bind_eq_ok.2 ⟨type, htype, bind_eq_ok.2 ⟨initial, hinitial, rfl⟩⟩⟩

/-- If all types and initial values are good, the declarations make chunks unless a group of them asks for a local and
for a global chunk or names a variable twice. Each group makes one chunk, with an identity of its own, in which the
variables are found that are not hidden. -/
theorem resolveChunks_groups {cs : List Chunk}
    (htypes : ∀ c ∈ cs, ∀ v ∈ c.vars, ∃ type, CType.parse v.type = .ok type)
    (hinitials : ∀ c ∈ cs, ∀ v ∈ c.vars, ∀ t ∈ v.initial, ∃ e, t.resolve c.part scope = .ok e) (s : Supply) :
    Chunk.Grouped cs (Chunk.groups cs) ∧
    ((∃ r, resolveChunks scope s cs = .ok r) ↔
      ∀ g ∈ Chunk.groups cs, Chunk.conflicting g = false ∧ ((g.flatMap (·.vars)).map (·.name)).Nodup) ∧
    ∀ chunks s', resolveChunks scope s cs = .ok (chunks, s') →
      List.Forall₂ (Chunk.Makes scope) (Chunk.groups cs) chunks ∧ (chunks.map (·.id)).Nodup ∧
      ∀ c ∈ chunks, ∀ name d, c.lookup name = some d ↔
        d ∈ c.vars ∧ d.name = name ∧ name.toList.head? ≠ some '_' := by
  have hmakes {chunks s'} (h : joinAll scope [] s cs = .ok (chunks, s')) :
      List.Forall₂ (Chunk.Makes scope) (Chunk.groups cs) chunks :=
    makes_of_joinAll [] .nil h
  refine ⟨Chunk.grouped_groups cs, ⟨?_, ?_⟩, ?_⟩
  · rintro ⟨⟨chunks, s'⟩, h⟩ g hg
    obtain ⟨hj, hnodup⟩ := resolveChunks_eq_ok_iff.1 h
    obtain ⟨c, hc, hmade⟩ := forall₂_mem_left (hmakes hj) hg
    exact ⟨hmade.not_conflicting, hmade.names_eq ▸ hnodup c hc⟩
  · intro h
    have hcs : ∀ c ∈ cs, ∃ vars, c.vars.mapM (·.resolve c.part scope) = .ok vars := fun c hc =>
      exists_mapM fun v hv => Variable.exists_resolve (htypes c hc v hv) (hinitials c hc v hv)
    obtain ⟨⟨chunks, s'⟩, hj⟩ := exists_joinAll [] s hcs .nil fun g hg => (h g hg).1
    refine ⟨(chunks, s'), resolveChunks_eq_ok_iff.2 ⟨hj, fun c hc => ?_⟩⟩
    obtain ⟨g, hg, hmade⟩ := forall₂_mem_right (hmakes hj) hc
    exact hmade.names_eq ▸ (h g hg).2
  · intro chunks s' h
    obtain ⟨hj, hnodup⟩ := resolveChunks_eq_ok_iff.1 h
    exact ⟨hmakes hj, (resolveChunks_eq_ok h).1.nodup, fun c hc name d => Chunk.lookup_eq_some_iff (hnodup c hc)⟩

/-- Declarations of one name with another one between them. -/
def interleaved : List Chunk :=
  [⟨some "state", true, false, false, [⟨"x", "int", some (.value "1")⟩]⟩,
    ⟨none, false, true, false, [⟨"x", "*char", none⟩]⟩,
    ⟨some "state", false, false, true, [⟨"_y", "int", none⟩]⟩]

theorem resolveChunks_groups_interleaved :
    (Chunk.groups interleaved).map (·.map (·.name)) = [[some "state", some "state"], [none]] ∧
      ∃ chunks s', resolveChunks .empty .first interleaved = .ok (chunks, s') ∧
        List.Forall₂ (Chunk.Makes .empty) (Chunk.groups interleaved) chunks := by
  have hint : CType.parse "int" = .ok (.named "int") := CType.parse_text (t := .named "int") (by decide)
  have hchar : CType.parse "*char" = .ok (.pointer (.named "char")) :=
    CType.parse_text (t := .pointer (.named "char")) (by decide)
  have htypes : ∀ c ∈ interleaved, ∀ v ∈ c.vars, ∃ type, CType.parse v.type = .ok type := by
    simp [interleaved, hint, hchar]
  have hinitials : ∀ c ∈ interleaved, ∀ v ∈ c.vars, ∀ t ∈ v.initial, ∃ e, t.resolve c.part .empty = .ok e := by
    simp [interleaved, Term.resolve]
  obtain ⟨-, hiff, hmakes⟩ := resolveChunks_groups htypes hinitials .first
  obtain ⟨⟨chunks, s'⟩, h⟩ := hiff.2 (by decide)
  exact ⟨by decide, chunks, s', h, (hmakes chunks s' h).1⟩

end Description

end Diversity
