import Diversity.Proofs.Simplified
import Diversity.Random.ChaCha
/-! Addresses in programs. Where a description takes addresses of places only and does not dereference them at
once, so does its program, but for addresses of addresses that are indexed at position zero. -/
namespace Diversity

namespace Expr

variable {e : Expr}

theorem wellAddressed_of_children
    (h : ∀ part ∈ e.children, part.WellAddressed ∧ (e.isRef = true → part.isPlace = true)) : e.WellAddressed := by
  constructor
  · cases e with
    | ref i target => exact isRef_of_isPlace ((h target List.mem_cons_self).2 rfl)
    | _ => rfl
  · refine admitsParts_iff.2 fun part hpart => ?_
    obtain ⟨⟨hdouble, hparts⟩, hplace⟩ := h part hpart
    refine ⟨⟨fun he => Or.inl (hplace he), fun hd => ?_⟩, hparts⟩
    rw [hdouble] at hd
    cases hd

theorem isPlace_mapChildren (e : Expr) (f : Expr → Expr) : (e.mapChildren f).isPlace = e.isPlace := by
  cases e <;> rfl

theorem isRef_mapChildren (e : Expr) (f : Expr → Expr) : (e.mapChildren f).isRef = e.isRef := by
  cases e <;> rfl

/-- Replacing nodes keeps addresses in order if places are replaced by places. What replaces them need be good
only if it mentions nothing but such variables as the whole does. -/
theorem wellAddressed_replaceNodes {f : Expr → Option Expr} {Q : Variable → Prop}
    (hplace : ∀ i target, .ref i target ∈ e.nodes → target.isPlace = true)
    (hf : ∀ n ∈ e.nodes, ∀ r, f n = some r → (∀ w ∈ r.vars, Q w) →
      r.WellAddressed ∧ (n.isPlace = true → r.isPlace = true))
    (hQ : ∀ w ∈ (e.replaceNodes f).vars, Q w) :
    (e.replaceNodes f).WellAddressed ∧ (e.isPlace = true → (e.replaceNodes f).isPlace = true) := by
  induction e using parts_induction with
  | step e ih =>
      rw [replaceNodes_eq] at hQ ⊢
      cases hr : f e with
      | some r =>
          rw [hr] at hQ
          exact hf e (mem_nodes_self e) r hr hQ
      | none =>
          rw [hr, Option.getD_none, forall_vars_iff, children_mapChildren, List.forall_mem_map] at hQ
          rw [Option.getD_none, isPlace_mapChildren]
          refine ⟨wellAddressed_of_children ?_, fun he => he⟩
          rw [children_mapChildren, isRef_mapChildren, List.forall_mem_map]
          intro part hpart
          have hsub : part.nodes ⊆ e.nodes := fun n hn => mem_nodes_iff.2 (Or.inr ⟨part, hpart, hn⟩)
          obtain ⟨hwell, hkept⟩ := ih part hpart (fun i t ht => hplace i t (hsub ht)) (fun n hn => hf n (hsub hn))
            (hQ.2 part hpart)
          refine ⟨hwell, fun he => ?_⟩
          cases e with
          | ref i target =>
              obtain rfl := List.mem_singleton.1 hpart
              exact hkept (hplace i part (mem_nodes_self _))
          | _ => cases he

end Expr

/-! ## What descriptions access -/

namespace Description

namespace Term

def isPlace : Term → Bool
  | .var _ | .deref _ | .index _ _ => true
  | _ => false

def isZero : Term → Bool
  | .value literal => literal == "0"
  | _ => false

/-- The name that an access path is over. -/
def accessed? : Term → Option String
  | .var name => some name
  | .ref target | .deref target => accessed? target
  | .index target position => if position.isZero then accessed? target else none
  | _ => none

/-- If the term is an address, it is that of a place. -/
def addressesPlace : Term → Bool
  | .ref target => target.isPlace
  | _ => true

/-- The name in whose access path the term follows an address that was just taken, by a dereference or at
position zero. -/
def followed? : Term → Option (String × Bool)
  | .deref (.ref target) => target.accessed?.map (·, false)
  | .index (.ref target) position => if position.isZero then target.accessed?.map (·, true) else none
  | _ => none

/-- The name that the term accesses through a dereference, or through position zero. -/
def hop? : Term → Option (String × Bool)
  | .deref target => target.accessed?.map (·, false)
  | .index target position => if position.isZero then target.accessed?.map (·, true) else none
  | _ => none

end Term

/-- All terms in the blocks of a description, with their parts. -/
def subterms (d : Description) : List Term := (termsOf d.blocks).flatMap Term.subterms

/-- No access path over the name dereferences an address that it takes. -/
def Direct (d : Description) (name : String) : Prop := (name, false) ∉ d.subterms.filterMap Term.followed?

/-- Access paths over the name take an address outermost, if at all. -/
def Outermost (d : Description) (name : String) : Prop := ∀ a ∈ d.subterms.filterMap Term.followed?, a.1 ≠ name

theorem Outermost.direct {d : Description} {name : String} (h : d.Outermost name) : d.Direct name :=
  fun hmem => h _ hmem rfl

/-- The name is accessed through dereferences only, or through positions only. -/
def Unmixed (d : Description) (name : String) : Prop :=
  ∀ a ∈ d.subterms.filterMap Term.hop?, ∀ b ∈ d.subterms.filterMap Term.hop?, a.1 = name → b.1 = name → a.2 = b.2

variable {scope : Scope} {t : Term} {e : Expr} {i : NodeId} {v : Diversity.Variable} {k : ℤ}

theorem Scope.name_of_resolve {part : Part} {name : String} (h : scope.resolve part name = .ok v) :
    v.name = name := by
  unfold resolve at h
  split at h
  · next hf =>
    cases h
    simpa using List.find?_some hf
  · split at h
    · cases h
      rfl
    · cases h

namespace Term

theorem isPlace_of_reads {part : Part} (h : t.Reads part scope e) : e.isPlace = t.isPlace := by
  cases t <;> cases e <;> first | rfl | cases h

theorem isZero_of_reads {part : Part} (h : t.Reads part scope e) : e.isZero = t.isZero := by
  cases t <;> cases e <;> first | rfl | cases h <;> rfl

namespace Denotes

/-- The parts of what a term denotes are denoted by its parts. -/
theorem exists_subterm (h : t.Denotes scope e) {n : Expr} (hn : n ∈ e.nodes) :
    ∃ t' ∈ t.subterms, t'.Denotes scope n := by
  obtain ⟨part, e', hr, hsame⟩ := h
  have hmem : n.anonymous ∈ e'.nodes.map Expr.anonymous := by
    rw [← Expr.nodes_anonymous, hsame, Expr.nodes_anonymous]
    exact List.mem_map_of_mem hn
  obtain ⟨n', hn', hsame⟩ := List.mem_map.1 hmem
  obtain ⟨t', ht', hr'⟩ := Term.exists_subterm hr hn'
  exact ⟨t', ht', part, n', hr', hsame⟩

theorem isPlace (h : t.Denotes scope e) : e.isPlace = t.isPlace := by
  obtain ⟨part, e', hr, hsame⟩ := h
  have hanonymous (e : Expr) : e.anonymous.isPlace = e.isPlace := by cases e <;> rfl
  rw [← hanonymous, ← hsame, hanonymous, isPlace_of_reads (reads_of_resolve hr)]

theorem isZero (h : t.Denotes scope e) : e.isZero = t.isZero := by
  obtain ⟨part, e', hr, hsame⟩ := h
  have hanonymous (e : Expr) : e.anonymous.isZero = e.isZero := by cases e <;> rfl
  rw [← hanonymous, ← hsame, hanonymous, isZero_of_reads (reads_of_resolve hr)]

theorem of_var (h : t.Denotes scope (.var i v)) : t = .var v.name := by
  obtain ⟨part, e', hr, hsame⟩ := h
  have hreads := reads_of_resolve hr
  cases e' with
  | var j w =>
      cases hsame
      cases t with
      | var name => rw [Scope.name_of_resolve hreads]
      | _ => cases hreads
  | _ => cases hsame

theorem of_ref (h : t.Denotes scope (.ref i e)) : ∃ t', t = .ref t' ∧ t'.Denotes scope e := by
  obtain ⟨part, e', hr, hsame⟩ := h
  have hreads := reads_of_resolve hr
  cases e' with
  | ref j e' =>
      cases t with
      | ref t' => exact ⟨t', rfl, part, e', hreads, (Expr.ref.inj hsame).2⟩
      | _ => cases hreads
  | _ => cases hsame

theorem of_deref (h : t.Denotes scope (.deref i e)) : ∃ t', t = .deref t' ∧ t'.Denotes scope e := by
  obtain ⟨part, e', hr, hsame⟩ := h
  have hreads := reads_of_resolve hr
  cases e' with
  | deref j e' =>
      cases t with
      | deref t' => exact ⟨t', rfl, part, e', hreads, (Expr.deref.inj hsame).2⟩
      | _ => cases hreads
  | _ => cases hsame

theorem of_index {position : Expr} (h : t.Denotes scope (.index i e position)) :
    ∃ t' p, t = .index t' p ∧ t'.Denotes scope e ∧ p.Denotes scope position := by
  obtain ⟨part, e', hr, hsame⟩ := h
  have hreads := reads_of_resolve hr
  cases e' with
  | index j e' position' =>
      obtain ⟨-, he, hp⟩ := Expr.index.inj hsame
      cases t with
      | index t' p => exact ⟨t', p, rfl, ⟨part, e', hreads.1, he⟩, part, position', hreads.2, hp⟩
      | _ => cases hreads
  | _ => cases hsame

/-- A term that denotes an access path is one over the name of its variable. -/
theorem accessed? (h : t.Denotes scope e) (he : e.Along v k) : t.accessed? = some v.name := by
  induction he generalizing t with
  | var => rw [h.of_var, Term.accessed?]
  | ref _ ih =>
      obtain ⟨t', rfl, ht⟩ := h.of_ref
      rw [Term.accessed?, ih ht]
  | deref _ ih =>
      obtain ⟨t', rfl, ht⟩ := h.of_deref
      rw [Term.accessed?, ih ht]
  | index hz _ ih =>
      obtain ⟨t', p, rfl, ht, hp⟩ := h.of_index
      rw [Term.accessed?, if_pos (hp.isZero.symm.trans hz), ih ht]

end Denotes

end Term

end Description

/-! ## What blocks access -/

namespace BlockSet

/-- The expression stands somewhere in the blocks. -/
def HasNode (bs : BlockSet) (e : Expr) : Prop := ∃ b ∈ bs.toList, ∃ o, b.Holds o e

/-- Addresses are those of places, and access paths over the name do not dereference the addresses that they
take. -/
structure Direct (bs : BlockSet) (name : String) : Prop where
  ref {i e} : bs.HasNode (.ref i e) → e.isPlace = true
  deref {i e v k} : bs.HasNode (.deref i e) → e.Along v k → v.name = name → e.isRef = false

/-- Nor do they index them. -/
structure Outermost (bs : BlockSet) (name : String) : Prop extends bs.Direct name where
  index {i e position v k} : bs.HasNode (.index i e position) → position.isZero = true → e.Along v k →
    v.name = name → e.isRef = false

/-- Variables of that name are accessed through positions only, or through dereferences only. -/
structure HopsBy (bs : BlockSet) (name : String) (positions : Bool) : Prop where
  deref {i e v k} : bs.HasNode (.deref i e) → e.Along v k → v.name = name → positions = false
  index {i e position v k} : bs.HasNode (.index i e position) → position.isZero = true → e.Along v k →
    v.name = name → positions = true

variable {bs : BlockSet} {b c : Block} {e : Expr} {key : Option ChunkId × String} {m : Capture} {v : Variable}
  {u : Usage} {positions : Bool}

theorem HasNode.child (h : bs.HasNode e) {part : Expr} (hpart : part ∈ e.children) : bs.HasNode part := by
  obtain ⟨b, hb, o, ho, hn⟩ := h
  have hmem : part ∈ e.nodes := Expr.mem_nodes_iff.2 (Or.inr ⟨part, hpart, Expr.mem_nodes_self part⟩)
  exact ⟨b, hb, o, ho, Expr.nodes_subset hn hmem⟩

theorem pointee?_of_capture? (h : e.capture? key = some m) (he : e.isRef = false) : m.pointee? = none := by
  unfold Expr.capture? at h
  split at h
  · split at h
    · cases h
      rfl
    · cases h
  · cases he
  · obtain ⟨inner, -, rfl⟩ := Option.map_eq_some_iff.1 h
    rfl
  · split at h
    · obtain ⟨inner, -, rfl⟩ := Option.map_eq_some_iff.1 h
      rfl
    · cases h
  · cases h

theorem unassigned_of_capture? (h : e.capture? key = some m) : m.unassigned = true := by
  fun_induction Expr.capture? key e generalizing m with
  | case1 =>
      cases h
      rfl
  | case2 | case6 | case7 => cases h
  | case3 i target ih | case4 i target ih | case5 i target position hz ih =>
      obtain ⟨inner, hinner, rfl⟩ := Option.map_eq_some_iff.1 h
      have hun := ih hinner
      exact hun

theorem Direct.tidy_of_capture? (h : bs.Direct key.2) (he : bs.HasNode e) (hm : e.capture? key = some m) :
    m.tidy = true := by
  fun_induction Expr.capture? key e generalizing m with
  | case1 =>
      cases hm
      rfl
  | case2 | case6 | case7 => cases hm
  | case3 i target ih =>
      obtain ⟨inner, hinner, rfl⟩ := Option.map_eq_some_iff.1 hm
      have hpointee := pointee?_of_capture? hinner (Expr.isRef_of_isPlace (h.ref he))
      rw [Capture.tidy, hpointee, ih (he.child List.mem_cons_self) hinner]
      rfl
  | case4 i target ih =>
      obtain ⟨inner, hinner, rfl⟩ := Option.map_eq_some_iff.1 hm
      obtain ⟨v, k, hkey, halong, -⟩ := Expr.along_of_capture? hinner
      have hpointee := pointee?_of_capture? hinner (h.deref he halong (congrArg Prod.snd hkey))
      rw [Capture.tidy, hpointee, ih (he.child List.mem_cons_self) hinner]
      rfl
  | case5 i target position hz ih =>
      obtain ⟨inner, hinner, rfl⟩ := Option.map_eq_some_iff.1 hm
      rw [Capture.tidy, ih (he.child List.mem_cons_self) hinner]

theorem Outermost.outermost_of_capture? (h : bs.Outermost key.2) (he : bs.HasNode e) (hm : e.capture? key = some m) :
    m.outermost = true := by
  have hplain {target : Expr} {inner : Capture} (hinner : target.capture? key = some inner)
      (hout : inner.outermost = true) (htarget : target.isRef = false) : inner.plain = true := by
    rwa [Capture.outermost, pointee?_of_capture? hinner htarget, Option.getD_none] at hout
  fun_induction Expr.capture? key e generalizing m with
  | case1 =>
      cases hm
      rfl
  | case2 | case6 | case7 => cases hm
  | case3 i target ih =>
      obtain ⟨inner, hinner, rfl⟩ := Option.map_eq_some_iff.1 hm
      have hout := ih (he.child List.mem_cons_self) hinner
      exact hplain hinner hout (Expr.isRef_of_isPlace (h.ref he))
  | case4 i target ih =>
      obtain ⟨inner, hinner, rfl⟩ := Option.map_eq_some_iff.1 hm
      obtain ⟨v, k, hkey, halong, -⟩ := Expr.along_of_capture? hinner
      have hout := ih (he.child List.mem_cons_self) hinner
      have hinner := hplain hinner hout (h.deref he halong (congrArg Prod.snd hkey))
      exact hinner
  | case5 i target position hz ih =>
      obtain ⟨inner, hinner, rfl⟩ := Option.map_eq_some_iff.1 hm
      obtain ⟨v, k, hkey, halong, -⟩ := Expr.along_of_capture? hinner
      have hout := ih (he.child List.mem_cons_self) hinner
      have hinner := hplain hinner hout (h.index he hz halong (congrArg Prod.snd hkey))
      exact hinner

theorem HopsBy.of_capture? {name : String} (h : bs.HopsBy name positions) (he : bs.HasNode e) {k : ℤ}
    (halong : e.Along v k) (hname : v.name = name) (hm : e.capture? key = some m) : m.hopsBy positions = true := by
  induction halong generalizing m with
  | var =>
      rw [Expr.capture?] at hm
      split at hm
      · cases hm
        rfl
      · cases hm
  | ref _ ih =>
      obtain ⟨inner, hinner, rfl⟩ := Option.map_eq_some_iff.1 hm
      rw [Capture.hopsBy, ih (he.child List.mem_cons_self) hinner]
  | deref halong ih =>
      obtain ⟨inner, hinner, rfl⟩ := Option.map_eq_some_iff.1 hm
      rw [Capture.hopsBy, ih (he.child List.mem_cons_self) hinner, h.deref he halong hname]
      rfl
  | index hz halong ih =>
      rw [Expr.capture?, if_pos hz] at hm
      obtain ⟨inner, hinner, rfl⟩ := Option.map_eq_some_iff.1 hm
      rw [Capture.hopsBy, ih (he.child List.mem_cons_self) hinner, h.index he hz halong hname, hz]
      rfl

theorem usages_cases (hc : c ∈ bs.toList) (hu : u ∈ c.usages key) :
    (∃ n, bs.HasNode n ∧ n.capture? key = some u.capture) ∨ ∃ i v, u.capture = .assigned (.base (.var i v)) := by
  rw [Block.usages, Stmt.usagesOfAll_eq] at hu
  obtain ⟨o, ho, hu⟩ := List.mem_flatMap.1 hu
  rcases Operand.usages_cases hu with ⟨n, hn, -, hm⟩ | ⟨i, v, -, -, rfl⟩
  · exact Or.inl ⟨n, ⟨c, hc, o, ho, hn⟩, hm⟩
  · exact Or.inr ⟨i, v, rfl⟩

theorem Direct.tidy (h : bs.Direct key.2) (hc : c ∈ bs.toList) (hu : u ∈ c.usages key) : u.capture.tidy = true := by
  rcases usages_cases hc hu with ⟨n, hn, hm⟩ | ⟨i, v, hm⟩
  · exact h.tidy_of_capture? hn hm
  · rw [hm]
    rfl

theorem Outermost.outermost (h : bs.Outermost key.2) (hc : c ∈ bs.toList) (hu : u ∈ c.usages key) :
    u.capture.outermost = true := by
  rcases usages_cases hc hu with ⟨n, hn, hm⟩ | ⟨i, v, hm⟩
  · exact h.outermost_of_capture? hn hm
  · rw [hm]
    rfl

theorem HopsBy.hopsBy (h : bs.HopsBy key.2 positions) (hc : c ∈ bs.toList) (hu : u ∈ c.usages key) :
    u.capture.hopsBy positions = true := by
  rcases usages_cases hc hu with ⟨n, hn, hm⟩ | ⟨i, v, hm⟩
  · obtain ⟨v, k, hkey, halong, -⟩ := Expr.along_of_capture? hm
    exact h.of_capture? hn halong (congrArg Prod.snd hkey) hm
  · rw [hm]
    rfl

end BlockSet

namespace LowersTo

variable {d : Description} {p : Placement} {g : Graph} {bs : BlockSet} {P : Program}

/-- All that stands in the blocks is denoted by parts of the description's terms. -/
theorem exists_denotes (h : LowersTo d p g bs P) :
    ∃ scope, ∀ e, bs.HasNode e → ∃ t ∈ d.subterms, t.Denotes scope e := by
  obtain ⟨s, s', supply, supply', blocks, -, hg, -, hin, hrep⟩ := h.spliced
  obtain ⟨scope, hscope⟩ := Description.exists_denotes hg
  refine ⟨scope, fun e he => ?_⟩
  obtain ⟨b, hb, o, ho, hn⟩ := he
  obtain ⟨c, hc, o', ho', hsame⟩ := BlockSet.exists_operand_of_repaired hin hrep hb ho
  obtain ⟨t, ht, part, e', hr, he'⟩ := hscope c hc o' ho'
  have hdenotes : t.Denotes scope o.expr := ⟨part, e', hr, he'.trans (congrArg Operand.expr hsame)⟩
  obtain ⟨t', ht', hdenotes⟩ := hdenotes.exists_subterm hn
  exact ⟨t', List.mem_flatMap.2 ⟨t, ht, ht'⟩, hdenotes⟩

theorem isPlace_of_ref (h : LowersTo d p g bs P) (hplace : ∀ t ∈ d.subterms, t.addressesPlace = true) (i : NodeId)
    (e : Expr) (hn : bs.HasNode (.ref i e)) : e.isPlace = true := by
  obtain ⟨scope, hscope⟩ := h.exists_denotes
  obtain ⟨_, ht, hnode⟩ := hscope _ hn
  obtain ⟨t, rfl, htarget⟩ := hnode.of_ref
  exact htarget.isPlace.trans (hplace _ ht)

theorem direct (h : LowersTo d p g bs P) (hplace : ∀ t ∈ d.subterms, t.addressesPlace = true) {name : String}
    (hname : d.Direct name) : bs.Direct name := by
  obtain ⟨scope, hscope⟩ := h.exists_denotes
  refine ⟨h.isPlace_of_ref hplace _ _, fun {i e v k} hn he hv => ?_⟩
  obtain ⟨_, ht, hnode⟩ := hscope _ hn
  obtain ⟨t, rfl, htarget⟩ := hnode.of_deref
  cases he with
  | ref he =>
      obtain ⟨t, rfl, hinner⟩ := htarget.of_ref
      refine absurd (List.mem_filterMap.2 ⟨_, ht, ?_⟩) hname
      rw [Description.Term.followed?, hinner.accessed? he, hv, Option.map_some]
  | _ => rfl

theorem outermost (h : LowersTo d p g bs P) (hplace : ∀ t ∈ d.subterms, t.addressesPlace = true) {name : String}
    (hname : d.Outermost name) : bs.Outermost name := by
  obtain ⟨scope, hscope⟩ := h.exists_denotes
  refine ⟨h.direct hplace hname.direct, fun {i e position v k} hn hz he hv => ?_⟩
  obtain ⟨_, ht, hnode⟩ := hscope _ hn
  obtain ⟨t, position', rfl, htarget, hposition⟩ := hnode.of_index
  cases he with
  | ref he =>
      obtain ⟨t, rfl, hinner⟩ := htarget.of_ref
      refine absurd hv (hname (v.name, true) (List.mem_filterMap.2 ⟨_, ht, ?_⟩))
      rw [Description.Term.followed?, if_pos (hposition.isZero.symm.trans hz), hinner.accessed? he, Option.map_some]
  | _ => rfl

theorem exists_hopsBy (h : LowersTo d p g bs P) {name : String} (hname : d.Unmixed name) :
    ∃ positions, bs.HopsBy name positions := by
  obtain ⟨scope, hscope⟩ := h.exists_denotes
  have hderef {i : NodeId} {e : Expr} {v : Variable} {k : ℤ} (hn : bs.HasNode (.deref i e)) (he : e.Along v k)
      (hv : v.name = name) : (name, false) ∈ d.subterms.filterMap Description.Term.hop? := by
    obtain ⟨_, ht, hnode⟩ := hscope _ hn
    obtain ⟨t, rfl, htarget⟩ := hnode.of_deref
    refine List.mem_filterMap.2 ⟨_, ht, ?_⟩
    rw [Description.Term.hop?, htarget.accessed? he, hv, Option.map_some]
  have hindex {i : NodeId} {e position : Expr} {v : Variable} {k : ℤ} (hn : bs.HasNode (.index i e position))
      (hz : position.isZero = true) (he : e.Along v k) (hv : v.name = name) :
      (name, true) ∈ d.subterms.filterMap Description.Term.hop? := by
    obtain ⟨_, ht, hnode⟩ := hscope _ hn
    obtain ⟨t, position', rfl, htarget, hposition⟩ := hnode.of_index
    refine List.mem_filterMap.2 ⟨_, ht, ?_⟩
    rw [Description.Term.hop?, if_pos (hposition.isZero.symm.trans hz), htarget.accessed? he, hv, Option.map_some]
  by_cases hpositions : (name, true) ∈ d.subterms.filterMap Description.Term.hop?
  · exact ⟨true, fun hn he hv => hname _ hpositions _ (hderef hn he hv) rfl rfl, fun _ _ _ _ => rfl⟩
  · exact ⟨false, fun _ _ _ => rfl, fun hn hz he hv => absurd (hindex hn hz he hv) hpositions⟩

end LowersTo

namespace Graph.Prepared

variable {g : Graph} {bs : BlockSet} {p : Placement} {t : Trace} {ps : Parameters} {b c : Block} {v : Variable}
  {q : Parameter} {u : Usage} {path : CallPath}

/-- What callers pass goes through no more than any usage in the function or below it. -/
theorem hops_maximal_le (h : g.Prepared bs p t ps) (hb : b ∈ bs.toList) (hq : q.Lifts bs p t b v)
    (hwalk : Walk bs b path c) (hu : u ∈ c.usages v.key) : q.lifted.maximal.hops ≤ u.capture.hops := by
  obtain ⟨us, type, hus, hm, -, -⟩ := Block.lift_eq_ok hq.lift
  obtain ⟨path', hwalk, hfresh⟩ := hwalk.exists_fresh (BlockSet.find?_name h.placed.names hb)
  exact Capture.hops_le_of_joinUsages hm ((Block.mem_usagesBelow hus).2 ⟨path', c, hwalk, hfresh, hu⟩)

/-- If a variable is accessed in one way only, what callers pass is tidy and goes through as much as one of the
usages. -/
theorem tidy_maximal (h : g.Prepared bs p t ps) (hb : b ∈ bs.toList) (hq : q.Lifts bs p t b v)
    (hbs : bs.Direct v.name) {positions : Bool} (hby : bs.HopsBy v.name positions) : q.lifted.maximal.tidy = true ∧
      ∃ path c, Walk bs b path c ∧ ∃ u ∈ c.usages v.key, u.capture.hops ≤ q.lifted.maximal.hops := by
  obtain ⟨us, type, hus, hm, -, -⟩ := Block.lift_eq_ok hq.lift
  have hbelow {u : Usage} (hu : u ∈ us) : ∃ path c, Walk bs b path c ∧ c ∈ bs.toList ∧ u ∈ c.usages v.key := by
    obtain ⟨path, c, hwalk, -, hu⟩ := (Block.mem_usagesBelow hus).1 hu
    exact ⟨path, c, hwalk, BlockSet.mem_of_find? (hwalk.find? (BlockSet.find?_name h.placed.names hb)), hu⟩
  obtain ⟨htidy, u, hu, hle⟩ := Capture.tidy_of_joinUsages hm fun u hu => by
    obtain ⟨path, c, -, hc, hu⟩ := hbelow hu
    exact ⟨hby.hopsBy hc hu, hbs.tidy hc hu⟩
  obtain ⟨path, c, hwalk, -, hu⟩ := hbelow hu
  exact ⟨htidy, path, c, hwalk, u, hu, hle⟩

/-- What replaces a usage has its addresses in order, and replaces a place by a place. -/
theorem wellAddressed_of_lookup (h : g.Prepared bs p t ps) (hb : b ∈ bs.toList) {o : Operand}
    {n r : Expr} (hn : b.Holds o n) (hr : ps.substitution.lookup n.id = some r)
    (hbs : ∀ w ∈ r.vars, w ∈ (ps.of b.name).map (·.lifted.param.var) → bs.Direct w.name) :
    r.WellAddressed ∧ (n.isPlace = true → r.isPlace = true) := by
  obtain ⟨b', hb', q, hq, v, hlifts, u, hu, he⟩ := h.exists_usage_of_lookup hr
  obtain ⟨hid, rfl⟩ := Prod.mk.inj he
  obtain ⟨_, _, hm⟩ := h.over_maximal hb' hlifts
  obtain ⟨o', _, _, _, ⟨ho', -⟩, huo, -, -, huv⟩ := h.along_of_usage hlifts.needed hb' hu
  have hle := h.hops_maximal_le hb' hlifts .nil hu
  rcases Operand.usages_cases huo with ⟨m, hmem, hmid, hcapture⟩ | ⟨i, w, -, -, rfl⟩
  · obtain ⟨rfl, -, rfl⟩ := BlockSet.eq_of_holds h.placed.ids hb' hb ⟨ho', hmem⟩ hn (hmid.trans hid)
    -- the parameter has the name of the variable
    obtain ⟨_, type, -, -, hparam, -⟩ := Block.lift_eq_ok hlifts.lift
    have hvars := (huv.replace (hm.invert (w := q.lifted.param.var) .unnumbered)).simplify.toExpr.vars
    have hdirect := hbs q.lifted.param.var (hvars ▸ List.mem_singleton.2 rfl) (List.mem_map_of_mem hq)
    rw [hparam] at hdirect
    obtain ⟨hwell, hplace⟩ := huv.wellAddressed_replace (w := q.lifted.param.var)
      (BlockSet.unassigned_of_capture? hcapture) (hdirect.tidy hb' hu) hm hle .unnumbered
    exact ⟨hwell, fun hn => hplace (BlockSet.pointee?_of_capture? hcapture (Expr.isRef_of_isPlace hn))⟩
  · -- what is assigned to reads as the variable itself
    cases huv with
    | assigned huv =>
        obtain ⟨hwell, hplace⟩ := huv.wellAddressed_replace (w := q.lifted.param.var) rfl rfl hm hle .unnumbered
        exact ⟨hwell, fun _ => hplace rfl⟩

theorem wellAddressed_substitute (h : g.Prepared bs p t ps) (hb : b ∈ bs.toList) {o : Operand}
    (ho : o ∈ Stmt.operandsOfAll b.statements) (hplace : ∀ i e, bs.HasNode (.ref i e) → e.isPlace = true)
    (hbs : ∀ w ∈ (o.expr.substitute ps.substitution).vars, w ∈ (ps.of b.name).map (·.lifted.param.var) →
      bs.Direct w.name) :
    (o.expr.substitute ps.substitution).WellAddressed := by
  rw [Expr.substitute_eq h.closed_substitution] at hbs ⊢
  exact (Expr.wellAddressed_replaceNodes (fun i target hn => hplace i target ⟨b, hb, o, ho, hn⟩)
    (fun n hn r hr => h.wellAddressed_of_lookup hb ⟨ho, hn⟩ hr) hbs).1

/-- What a function passes has its addresses in order if the variable is accessed in one way only, or if the
function passes the variable itself and addresses of it are taken outermost. -/
theorem wellAddressed_argument (h : g.Prepared bs p t ps) (hb : b ∈ bs.toList)
    {call : NodeId × BlockRef} (hcall : call ∈ b.calls) (hq : q ∈ ps.of call.2.name) {a : Expr}
    (ha : q.argument t b.name (ps.of b.name) = .ok a) (hbs : ∀ w ∈ a.vars,
      (bs.Direct w.name ∧ ∃ positions, bs.HopsBy w.name positions) ∨ (bs.Outermost w.name ∧ w.chunk ≠ none)) :
    a.WellAddressed := by
  obtain ⟨c, hc, -, hres⟩ := h.placed.linked b hb call hcall
  obtain ⟨-, c', v, hc', hlifts⟩ := Trace.lifts_of_mem h.parameters hq
  obtain rfl := Option.some.inj (hc'.symm.trans (BlockSet.find?_of_resolve hres))
  obtain ⟨_, _, hm⟩ := h.over_maximal hc hlifts
  cases hown : (ps.of b.name).find? (·.key = q.key) with
  | none =>
      have hvars := (Parameter.along_argument_of_none ha hown hm).vars
      have htidy : q.lifted.maximal.tidy = true := by
        rcases hbs v (hvars ▸ List.mem_singleton.2 rfl) with ⟨hdirect, positions, hby⟩ | ⟨hout, -⟩
        · exact (h.tidy_maximal hc hlifts hdirect hby).1
        · refine Capture.tidy_of_outermost (outermost_maximal hlifts fun _ d hwalk u hu => ?_)
          exact hout.outermost (BlockSet.mem_of_find? (hwalk.find? (BlockSet.find?_name h.placed.names hc))) hu
      rw [Parameter.argument_of_none ha hown]
      exact hm.wellAddressed_argument (Capture.lead_le_of_tidy htidy).1
  | some q' =>
      obtain ⟨-, v', hlifts'⟩ := h.lifts_of_mem hb (List.mem_of_find?_eq_some hown)
      have hkey : q'.key = q.key := by simpa using List.find?_some hown
      obtain rfl := h.eq_of_needed hlifts.needed hlifts'.needed (hlifts'.key.symm.trans (hkey.trans hlifts.key))
      obtain ⟨_, _, hm'⟩ := h.over_maximal hb hlifts'
      obtain ⟨_, type, -, -, hparam, -⟩ := Block.lift_eq_ok hlifts'.lift
      have hvars := (Parameter.along_argument_of_some ha hown hm hm').vars
      have hbs := hbs q'.lifted.param.var (hvars ▸ List.mem_singleton.2 rfl)
      rw [hparam] at hbs
      obtain ⟨hdirect, positions, hby⟩ := hbs.resolve_right fun hchunk => hchunk.2 rfl
      -- the callee's usages are usages below the caller, too
      obtain ⟨htidy, path, d, hwalk, u, hu, hle⟩ := h.tidy_maximal hc hlifts hdirect hby
      have hwalk' : Walk bs b (⟨call.1, c'.name⟩ :: path) d := .cons hcall hres hwalk
      have hle' := h.hops_maximal_le hb hlifts' hwalk' hu
      rw [Parameter.argument_of_some ha hown]
      exact hm.wellAddressed_through htidy hm' (hle'.trans hle) .unnumbered

end Graph.Prepared

/-- Where a description takes addresses of places only, so does its program, but for addresses of addresses that
are indexed at position zero. This is said of expressions whose parameters stand for variables that are
accessed directly, and of arguments for variables that moreover are accessed in one way only, or that are passed
where they are declared and of which addresses are taken outermost. -/
theorem interpret_wellAddressed {σ : Type} [RandomSource σ] {d : Description} {s s' supply : Supply} {g : Graph}
    {source source' : σ} {P : Program} (hs : Supply.first.next ≤ s.next) (hd : d.toGraph s = .ok (g, s'))
    (hsupply : s'.next ≤ supply.next) (h : g.interpret supply source = .ok (P, source'))
    (hplace : ∀ t ∈ d.subterms, t.addressesPlace = true) :
    ∀ F ∈ P.functions, ∀ o ∈ Stmt.operandsOfAll F.body,
      ((∀ ps callee args, o.expr ≠ .generated ps callee args) →
        (∀ w ∈ o.expr.vars, w ∈ F.params.map (·.var) → d.Direct w.name) → o.expr.WellAddressed) ∧
      ∀ ps callee args, o.expr = .generated ps callee args → ∀ a ∈ args,
        (∀ w ∈ a.vars, (d.Direct w.name ∧ d.Unmixed w.name) ∨ (d.Outermost w.name ∧ w.chunk ≠ none)) →
        a.WellAddressed := by
  intro F hF o ho
  obtain ⟨p, bs, hlowers⟩ := exists_lowersTo_of_interpret hs hd hsupply h
  obtain ⟨t, ps, hprep, -, hfunctions⟩ := Graph.lower_eq_ok hlowers.lowered hlowers.placed
  obtain ⟨f, -, b, hb, hFb⟩ := forall₂_mem_right hfunctions hF
  have hmem := BlockSet.mem_of_find? hb
  rcases hFb.operand_cases ho with ⟨o', ho', rfl⟩ | ⟨call, hcall, args, hargs, rfl⟩
  · refine ⟨fun _ hdirect => ?_, fun ps' callee args he => absurd he (hprep.substitute_ne_generated hmem ho' _ _ _)⟩
    rw [hFb.params, List.map_map] at hdirect
    exact hprep.wellAddressed_substitute hmem ho' (hlowers.isPlace_of_ref hplace) fun w hw hparam =>
      hlowers.direct hplace (hdirect w hw hparam)
  · refine ⟨fun hne => absurd rfl (hne _ _ _), fun ps' callee args' he a ha hvars => ?_⟩
    obtain ⟨-, -, rfl⟩ := Expr.call.inj he
    obtain ⟨q, hq, harg⟩ := forall₂_mem_right hargs ha
    refine hprep.wellAddressed_argument hmem hcall hq harg fun w hw => ?_
    rcases hvars w hw with ⟨hdirect, hunmixed⟩ | ⟨hout, hchunk⟩
    · exact Or.inl ⟨hlowers.direct hplace hdirect, hlowers.exists_hopsBy hunmixed⟩
    · exact Or.inr ⟨hlowers.outermost hplace hout, hchunk⟩

/-- A variable is dereferenced, one is accessed at position zero, and of one the address is taken. They are passed
along two calls. -/
def Description.reaching : Description where
  entry := "main"
  externs := [⟨"say", "fn (int) void"⟩, ⟨"take", "fn (*int) void"⟩]
  chunks := [⟨none, true, false, false, [⟨"p", "*int", none⟩, ⟨"a", "[2]int", none⟩, ⟨"x", "int", none⟩]⟩]
  blocks := [
    ⟨"main", true, false, false, [.call "relay", .call "relay"]⟩,
    ⟨"relay", true, false, false, [
      .expr (.call (.var "take") [.ref (.var "x")]), .call "show", .call "show"]⟩,
    ⟨"show", true, false, false, [
      .expr (.call (.var "say") [.deref (.var "p")]),
      .expr (.call (.var "take") [.ref (.index (.var "a") (.value "0"))]),
      .expr (.call (.var "say") [.var "x"])]⟩]

theorem interpret_wellAddressed_reaching : ∃ g s P source, Description.reaching.toGraph .first = .ok (g, s) ∧
    g.interpret s (ChaCha.ofSeed 0) = .ok (P, source) ∧
    P.functions.map (fun F => F.params.map (·.var.name)) = [[], ["x", "p", "a"], ["p", "a", "x"]] ∧
    ∀ F ∈ P.functions, ∀ o ∈ Stmt.operandsOfAll F.body,
      ((∀ ps callee args, o.expr ≠ .generated ps callee args) → o.expr.WellAddressed) ∧
      ∀ ps callee args, o.expr = .generated ps callee args → ∀ a ∈ args, a.WellAddressed := by
  have h : (do
      let r ← (Description.reaching.toGraph .first).toOption
      let s ← (r.1.interpret r.2 (ChaCha.ofSeed 0)).toOption
      Option.guard (fun _ => s.1.functions.map (fun F => F.params.map (·.var.name)) =
        [[], ["x", "p", "a"], ["p", "a", "x"]]) () : Option Unit).isSome = true := by
    decide +kernel
  have hplace : ∀ t ∈ Description.reaching.subterms, t.addressesPlace = true := by decide +kernel
  have hfollowed : Description.reaching.subterms.filterMap Description.Term.followed? = [] := by decide +kernel
  have hhops : Description.reaching.subterms.filterMap Description.Term.hop? = [("p", false), ("a", true)] := by
    decide +kernel
  have hdirect (name : String) : Description.reaching.Direct name := by simp [Description.Direct, hfollowed]
  have hunmixed (name : String) : Description.reaching.Unmixed name := by
    rw [Description.Unmixed, hhops]
    intro a ha b hb hname hname'
    have hways : ∀ a ∈ [("p", false), ("a", true)], ∀ b ∈ [("p", false), ("a", true)], a.1 = b.1 → a.2 = b.2 := by
      decide
    exact hways a ha b hb (hname.trans hname'.symm)
  simp only [Option.isSome_iff_exists, Option.bind_eq_bind, Option.bind_eq_some_iff, toOption_eq_some,
    Option.guard_eq_some_iff, decide_eq_true_eq] at h
  obtain ⟨_, ⟨g, s⟩, hg, ⟨P, source⟩, hP, -, hparams⟩ := h
  refine ⟨g, s, P, source, hg, hP, hparams, fun F hF o ho => ?_⟩
  obtain ⟨hbody, hargs⟩ := interpret_wellAddressed (Nat.le_refl _) hg (Nat.le_refl _) hP hplace F hF o ho
  exact ⟨fun hne => hbody hne fun w _ _ => hdirect w.name, fun ps callee args he a ha =>
    hargs ps callee args he a ha fun w _ => Or.inl ⟨hdirect w.name, hunmixed w.name⟩⟩

namespace Description

/-- A pointer to a pointer that is accessed at positions only. What the function gets is what it points at, and
the positions are left. -/
def indexing : Description where
  entry := "main"
  externs := [⟨"say", "fn (int) void"⟩]
  chunks := [⟨none, true, false, false, [⟨"pp", "**int", none⟩]⟩]
  blocks := [
    ⟨"main", true, false, false, [.call "show", .call "show"]⟩,
    ⟨"show", true, false, false, [
      .expr (.call (.var "say") [.index (.index (.var "pp") (.value "0")) (.value "0")])]⟩]

/-- An access path that dereferences the addresses it takes, twice. -/
def cancelling : Description where
  entry := "main"
  externs := []
  chunks := [⟨none, true, false, false, [⟨"p", "*int", none⟩]⟩]
  blocks := [
    ⟨"main", true, false, false, [.call "show", .call "show"]⟩,
    ⟨"show", true, false, false, [
      .expr (.deref (.var "p")), .expr (.ref (.deref (.ref (.deref (.ref (.var "p"))))))]⟩]

/-- A parameter is passed on whose variable is accessed in both ways. -/
def mixing : Description where
  entry := "main"
  externs := []
  chunks := [⟨none, true, false, false, [⟨"pp", "**int", none⟩]⟩]
  blocks := [
    ⟨"main", true, false, false, [.call "relay", .call "relay"]⟩,
    ⟨"relay", true, false, false, [
      .expr (.index (.index (.var "pp") (.value "0")) (.value "0")), .call "leaf"]⟩,
    ⟨"leaf", true, false, false, [
      .expr (.ref (.deref (.index (.var "pp") (.value "0")))),
      .expr (.ref (.index (.deref (.var "pp")) (.value "0")))]⟩]

/-- A variable is accessed in both ways and passed where it is declared, but an address of it is indexed. -/
def indexedAddress : Description where
  entry := "main"
  externs := []
  chunks := [⟨none, true, false, false, [⟨"p", "*int", none⟩]⟩]
  blocks := [
    ⟨"main", true, false, false, [.call "leaf", .call "leaf"]⟩,
    ⟨"leaf", true, false, false, [
      .expr (.ref (.deref (.var "p"))), .expr (.ref (.index (.ref (.var "p")) (.value "0")))]⟩]

/-- All addresses in the description are those of places, and still a program of it takes the address of an
address. -/
def TakesDouble (d : Description) : Prop :=
  (∀ t ∈ d.subterms, t.addressesPlace = true) ∧
    ∃ g s P source, d.toGraph .first = .ok (g, s) ∧ g.interpret s (ChaCha.ofSeed 0) = .ok (P, source) ∧
      ∃ F ∈ P.functions, ∃ i j e, .expr (.ref i (.ref j e)) ∈ Stmt.nodesOfAll F.body

/-- An address of an address in the program that the description gets under seed zero. -/
def double? (d : Description) : Option Node := do
  let (g, s) ← (d.toGraph .first).toOption
  let (P, _) ← (g.interpret s (ChaCha.ofSeed 0)).toOption
  (P.functions.flatMap fun F => Stmt.nodesOfAll F.body).find? (·.expr?.any Expr.isDouble)

theorem takesDouble_of_double? {d : Description} (hplace : ∀ t ∈ d.subterms, t.addressesPlace = true)
    (h : d.double?.isSome = true) : d.TakesDouble := by
  simp only [double?, Option.isSome_iff_exists, Option.bind_eq_bind, Option.bind_eq_some_iff, toOption_eq_some] at h
  obtain ⟨n, ⟨g, s⟩, hg, ⟨P, source⟩, hP, hn⟩ := h
  obtain ⟨F, hF, hmem⟩ := List.mem_flatMap.1 (List.mem_of_find?_eq_some hn)
  refine ⟨hplace, g, s, P, source, hg, hP, F, hF, ?_⟩
  have hdouble := List.find?_some hn
  cases n with
  | stmt _ => cases hdouble
  | expr e =>
      cases e with
      | ref i target =>
          cases target with
          | ref j e => exact ⟨i, j, e, hmem⟩
          | _ => cases hdouble
      | _ => cases hdouble

end Description

theorem address_of_address : Description.indexing.TakesDouble ∧ Description.cancelling.TakesDouble ∧
    Description.mixing.TakesDouble ∧ Description.indexedAddress.TakesDouble := by
  refine ⟨?_, ?_, ?_, ?_⟩ <;> apply Description.takesDouble_of_double? <;> decide +kernel

end Diversity
