import Diversity.Proofs.Erasure
import Diversity.Proofs.Identities
import Diversity.Proofs.RenamedPrograms
import Diversity.Synthesis
/-! The text of a program depends on the random words and on the graph up to identities. It does not depend on the
identities that are left for new nodes and blocks, hence not on programs that came before. -/
namespace Diversity

open Lockstep

variable {ρ : Renaming} {σ : Type} [RandomSource σ]

/-! ## One program -/

theorem Graph.interpretFrom_rename [ρ.Faithful] (g : Graph) {s s' : Supply} (hs : ρ.Paces s s') (source : σ) :
    Agrees (fun r r' => r'.1.1 = r.1.1.rename ρ ∧ ρ.Paces r.1.2 r'.1.2) (g.interpretFrom s source)
      ((g.rename ρ).interpretFrom s' source) := by
  refine Agrees.bind (Placement.holds_draw g source source rfl) ?_
  rintro ⟨p, source⟩ ⟨_, _⟩ ⟨rfl, rfl⟩
  refine Agrees.liftM_bind (Placement.holds_inline p g.blocks s s' hs) ?_
  rintro ⟨blocks, s⟩ ⟨_, s'⟩ ⟨rfl, hs⟩
  refine Agrees.liftM_bind (Agrees.of_holds (BlockSet.repaired_rename blocks)) ?_
  rintro bs _ rfl
  refine Agrees.liftM_bind (Agrees.of_holds (g.lower_rename bs p)) ?_
  rintro P _ rfl
  exact .ok ⟨rfl, hs⟩

namespace Synthesis

def rename (ρ : Renaming) (s : Synthesis) : Synthesis := { s with pool := s.pool.rename ρ }

/-- All that occurs in the graph and in the decoys it may get. -/
def identities (s : Synthesis) (g : Graph) : Identities := .ofGraphs (g :: s.pool.assets)

theorem holds_produce [ρ.Faithful] (s : Synthesis) (g : Graph) (source : σ) :
    (stateT ρ.Paces).Holds id (s.produce g source) ((s.rename ρ).produce (g.rename ρ) source) := by
  intro supply supply' hs
  have hrendered {g : Graph} {t t' : Supply} (ht : ρ.Paces t t') (source : σ) :
      Agrees (fun r r' => r'.1 = r.1 ∧ ρ.Paces r.2 r'.2)
        (g.interpretFrom t source >>= fun r => .ok (r.1.1.render, r.1.2))
        ((g.rename ρ).interpretFrom t' source >>= fun r => .ok (r.1.1.render, r.1.2)) := by
    refine Agrees.bind (g.interpretFrom_rename ht source) ?_
    rintro ⟨⟨P, t⟩, _⟩ ⟨⟨_, t'⟩, _⟩ ⟨rfl, ht⟩
    exact .ok ⟨P.render_rename, ht⟩
  unfold produce rename
  rw [g.names_rename]
  cases s.decoys with
  | none => exact hrendered hs source
  | some chance =>
      refine Agrees.bind (g.withDecoys_rename s.pool chance (Names.empty.reserveAll g.names) hs source) ?_
      intro i i' h
      rw [h.graph, h.source]
      exact hrendered h.supply i.source

variable {s : Synthesis} {g : Graph}

/-- New identities may start higher by `d`: the text is the same, and the supplies go in step. -/
theorem produce_moved {t : Supply} {d : Nat} (source : σ) (hρ : ρ.Separates (s.identities g))
    (hd : ρ.Within (s.identities g) d) (ht : t.Above (s.identities g)) :
    Agrees (fun r r' => r'.1 = r.1 ∧ (ρ.extend (s.identities g) d).Paces r.2 r'.2) (s.produce g source t)
      ((s.rename ρ).produce (g.rename ρ) source ⟨t.next + d⟩) := by
  have := Renaming.faithful_extend hρ hd
  have halike := ρ.alike_extend (s.identities g) d
  have hproduce := s.holds_produce (ρ := ρ.extend (s.identities g) d) g source t _ (Renaming.paces_extend ht)
  have hg : g.rename (ρ.extend (s.identities g) d) = g.rename ρ := Graph.rename_congr halike List.mem_cons_self
  have hs : s.rename (ρ.extend (s.identities g) d) = s.rename ρ := by
    have hassets := List.map_congr_left fun asset hasset => Graph.rename_congr halike (List.mem_cons_of_mem g hasset)
    rw [rename, rename, DecoyPool.rename, DecoyPool.rename, hassets]
  rwa [hg, hs] at hproduce

omit [RandomSource σ] in
theorem rename_same (s : Synthesis) : s.rename .same = s := by
  have hassets : s.pool.assets.map (Graph.rename .same) = s.pool.assets :=
    (List.map_congr_left fun asset _ => asset.rename_same).trans (List.map_id' _)
  rw [rename, DecoyPool.rename, hassets]

/-- The text does not depend on identities. -/
theorem produce_agrees {t t' : Supply} (source : σ) (hρ : ρ.Separates (s.identities g)) (ht : t.Above (s.identities g))
    (ht' : t'.Above ((s.rename ρ).identities (g.rename ρ))) :
    Agrees (fun r r' => r'.1 = r.1) (s.produce g source t) ((s.rename ρ).produce (g.rename ρ) source t') := by
  -- both are compared with a third program, which starts with identities that are high enough for both
  obtain ⟨n, hn⟩ := ρ.exists_within (s.identities g)
  obtain ⟨m, hm⟩ := Renaming.same.exists_within ((s.rename ρ).identities (g.rename ρ))
  have h := produce_moved source hρ (hn (n + m + t'.next) (by omega)) ht
  have h' := produce_moved source (Renaming.separates_same _) (hm (n + m + t.next) (by omega)) ht'
  rw [rename_same, Graph.rename_same] at h'
  have hnext : t.next + (n + m + t'.next) = t'.next + (n + m + t.next) := by omega
  rw [hnext] at h
  generalize s.produce g source t = x, (s.rename ρ).produce (g.rename ρ) source t' = y,
    (s.rename ρ).produce (g.rename ρ) source ⟨t'.next + (n + m + t.next)⟩ = z at h h' ⊢
  cases h with
  | error =>
      cases h'
      exact .error
  | ok hr =>
      cases h' with
      | ok hr' => exact .ok (hr'.1.symm.trans hr.1)

/-- Nor does it depend on the supply, and what is left of that is above all that is in use. -/
theorem produce_above {t t' : Supply} (source : σ) (ht : t.Above (s.identities g)) (ht' : t'.Above (s.identities g)) :
    Agrees (fun r r' => r'.1 = r.1 ∧ r.2.Above (s.identities g)) (s.produce g source t) (s.produce g source t') := by
  have hagrees : t'.Above ((s.rename .same).identities (g.rename .same)) → Agrees (fun r r' => r'.1 = r.1)
      (s.produce g source t) ((s.rename .same).produce (g.rename .same) source t') :=
    produce_agrees source (Renaming.separates_same _) ht
  rw [rename_same, Graph.rename_same] at hagrees
  have h := hagrees ht'
  obtain ⟨n, hn⟩ := Renaming.same.exists_within (s.identities g)
  have hmoved := produce_moved source (Renaming.separates_same _) (hn (n + 1) (Nat.le_succ n)) ht
  generalize s.produce g source t = x, s.produce g source t' = y,
    (s.rename .same).produce (g.rename .same) source ⟨t.next + (n + 1)⟩ = z at h hmoved ⊢
  cases h with
  | error => exact .error
  | ok hr =>
      cases hmoved with
      | ok hr' => exact .ok ⟨hr, Renaming.above_of_paces (Nat.succ_pos n) hr'.2⟩

/-! ## Many programs -/

theorem map_variant_eq_ok {x : Except SynthesisError String} {seed : UInt64} {v : Variant} :
    x.map (Variant.mk seed) = .ok v ↔ v.seed = seed ∧ x = .ok v.source := by
  obtain ⟨seed', text⟩ := v
  cases x with
  | error e => simp [Except.map]
  | ok text' => simp [Except.map, eq_comm]

theorem map_variant_eq_error {x : Except SynthesisError String} {seed : UInt64} {e : SynthesisError} :
    x.map (Variant.mk seed) = .error e ↔ x = .error e := by
  cases x <;> simp [Except.map]

/-- Each variant of a batch is that of its seed alone. -/
theorem variant_agrees {t : Supply} (hs : s.supply.Above (s.identities g)) (ht : t.Above (s.identities g))
    (seed : UInt64) :
    Agrees (fun r v => v = r.1 ∧ r.2.Above (s.identities g)) (s.variant g seed t)
      ((s.run g seed).map (Variant.mk seed)) := by
  have hrun : (s.run g seed).map (Variant.mk seed) =
      s.produce g (ChaCha.ofSeed seed) s.supply >>= fun r => .ok ⟨seed, r.1⟩ := by
    rw [run, runWith]
    cases s.produce g (ChaCha.ofSeed seed) s.supply <;> rfl
  rw [hrun]
  refine Agrees.bind (produce_above (ChaCha.ofSeed seed) ht hs) ?_
  rintro ⟨text, t⟩ ⟨_, _⟩ ⟨rfl, ht⟩
  exact .ok ⟨rfl, ht⟩

theorem variants_eq_mapM (hs : s.supply.Above (s.identities g)) (seed : UInt64) (count : Nat) :
    s.variants g seed count =
      (List.range count).mapM fun k => (s.run g (seed + UInt64.ofNat k)).map (Variant.mk (seed + UInt64.ofNat k)) := by
  have hall (ks : List Nat) {t : Supply} (ht : t.Above (s.identities g)) : Agrees (fun r vs => vs = r.1)
      (ks.mapM (fun k => s.variant g (seed + UInt64.ofNat k)) t)
      (ks.mapM fun k => (s.run g (seed + UInt64.ofNat k)).map (Variant.mk (seed + UInt64.ofNat k))) := by
    induction ks generalizing t with
    | nil => exact .ok rfl
    | cons k ks ih =>
        rw [List.mapM_cons, List.mapM_cons]
        refine Agrees.bind (variant_agrees hs ht _) ?_
        rintro ⟨v, t⟩ _ ⟨rfl, ht⟩
        refine Agrees.bind (ih ht) ?_
        rintro ⟨vs, t⟩ _ rfl
        exact .ok rfl
  have h : Agrees (fun vs vs' => vs' = vs) (s.variants g seed count) (_ >>= pure) :=
    Agrees.bind (hall (List.range count) hs) fun _ _ hvs => .ok hvs
  rw [bind_pure] at h
  exact h.eq.symm

/-- A text is the same whatever the identities in the graph and its decoys are and whatever identities are left. So
variants are what their seeds give alone, and the first failure of a batch is that of its seed alone. -/
theorem reproducible (s : Synthesis) (g : Graph) (ρ : Renaming) (supply : Supply) (hρ : ρ.Separates (s.identities g))
    (hs : s.supply.Above (s.identities g)) (hs' : supply.Above ((s.rename ρ).identities (g.rename ρ))) :
    (∀ source : σ, ({ s.rename ρ with supply } : Synthesis).runWith (g.rename ρ) source = s.runWith g source) ∧
    ∀ seed count,
      (∀ vs, s.variants g seed count = .ok vs ↔ vs.length = count ∧
        ∀ k v, vs[k]? = some v → v.seed = seed + UInt64.ofNat k ∧ s.run g v.seed = .ok v.source) ∧
      ∀ e, s.variants g seed count = .error e ↔ ∃ k < count, s.run g (seed + UInt64.ofNat k) = .error e ∧
        ∀ j < k, ∃ text, s.run g (seed + UInt64.ofNat j) = .ok text := by
  refine ⟨fun source => ?_, fun seed count => ⟨fun vs => ?_, fun e => ?_⟩⟩
  · have h : Agrees (fun text text' => text' = text) (s.runWith g source)
        (({ s.rename ρ with supply } : Synthesis).runWith (g.rename ρ) source) :=
      Agrees.bind (produce_agrees source hρ hs hs') fun _ _ htext => .ok htext
    exact h.eq
  · rw [variants_eq_mapM hs, mapM_range_eq_ok]
    refine and_congr_right fun _ => forall₃_congr fun k v _ => map_variant_eq_ok.trans (and_congr_right fun hseed => ?_)
    rw [hseed]
  · have hok (j : Nat) : (∃ v, (s.run g (seed + UInt64.ofNat j)).map (Variant.mk (seed + UInt64.ofNat j)) = .ok v) ↔
        ∃ text, s.run g (seed + UInt64.ofNat j) = .ok text := by
      constructor
      · rintro ⟨v, h⟩
        exact ⟨v.source, (map_variant_eq_ok.1 h).2⟩
      · rintro ⟨text, h⟩
        exact ⟨⟨_, text⟩, map_variant_eq_ok.2 ⟨rfl, h⟩⟩
    simp only [variants_eq_mapM hs, mapM_range_eq_error, map_variant_eq_error, hok]

end Synthesis

/-- The identities below a hundred in the opposite order. -/
def Renaming.reversed : Renaming :=
  let reverse (i : Nat) : Nat := if 0 < i ∧ i < 100 then 100 - i else i
  ⟨fun i => ⟨reverse i.index⟩, fun i => ⟨reverse i.index⟩, fun i => ⟨reverse i.index⟩, rfl⟩

theorem Renaming.separates_reversed (ids : Identities) : reversed.Separates ids := by
  constructor
  all_goals
    rintro ⟨i⟩ - ⟨j⟩ - h
    simp only [reversed, NodeId.mk.injEq, BlockId.mk.injEq, ChunkId.mk.injEq] at h ⊢
    split_ifs at h <;> omega

namespace Synthesis

/-- With decoys, identities in the opposite order and new ones from elsewhere. -/
theorem reproducible_nesting : ∃ g t asset supply text text',
    Description.nesting.toGraph .first = .ok (g, t) ∧ Description.ticking.toGraph t = .ok (asset, supply) ∧
    Renaming.reversed.Separates (identities ⟨.ofGraphs [asset], some .always, supply⟩ g) ∧
    supply.Above (identities ⟨.ofGraphs [asset], some .always, supply⟩ g) ∧
    Supply.Above ⟨200⟩
      (identities (.rename .reversed ⟨.ofGraphs [asset], some .always, supply⟩) (g.rename .reversed)) ∧
    run ⟨.ofGraphs [asset], some .always, supply⟩ g 0 = .ok text ∧
    run ⟨.ofGraphs [asset], some .always, supply⟩ g 1 = .ok text' ∧
    run ⟨(DecoyPool.ofGraphs [asset]).rename .reversed, some .always, ⟨200⟩⟩ (g.rename .reversed) 0 = .ok text ∧
    variants ⟨.ofGraphs [asset], some .always, supply⟩ g 0 2 = .ok [⟨0, text⟩, ⟨1, text'⟩] := by
  have h : (do
      let r ← (Description.nesting.toGraph .first).toOption
      let a ← (Description.ticking.toGraph r.2).toOption
      let _ ← (run ⟨.ofGraphs [a.1], some .always, a.2⟩ r.1 0).toOption
      let _ ← (run ⟨.ofGraphs [a.1], some .always, a.2⟩ r.1 1).toOption
      guard (a.2.Above (identities ⟨.ofGraphs [a.1], some .always, a.2⟩ r.1) ∧ Supply.Above ⟨200⟩
        (identities (.rename .reversed ⟨.ofGraphs [a.1], some .always, a.2⟩) (r.1.rename .reversed))) :
      Option Unit).isSome = true := by
    decide +kernel
  simp only [Option.isSome_iff_exists, Option.bind_eq_bind, Option.bind_eq_some_iff, toOption_eq_some] at h
  obtain ⟨_, ⟨g, t⟩, hg, ⟨asset, supply⟩, hasset, text, htext, text', htext', h⟩ := h
  obtain ⟨habove, habove'⟩ : supply.Above (identities ⟨.ofGraphs [asset], some .always, supply⟩ g) ∧ Supply.Above ⟨200⟩
      (identities (.rename .reversed ⟨.ofGraphs [asset], some .always, supply⟩) (g.rename .reversed)) := by
    by_contra hnot
    simp [guard, hnot] at h
  have hseparates := Renaming.separates_reversed (identities ⟨.ofGraphs [asset], some .always, supply⟩ g)
  obtain ⟨hrun, hvariants⟩ := reproducible (σ := ChaCha) _ g .reversed ⟨200⟩ hseparates habove habove'
  refine ⟨g, t, asset, supply, text, text', hg, hasset, hseparates, habove, habove', htext, htext', ?_, ?_⟩
  · exact (hrun (ChaCha.ofSeed 0)).trans htext
  · refine ((hvariants 0 2).1 _).2 ⟨rfl, fun k v hv => ?_⟩
    rcases k with _ | _ | k
    · cases hv
      exact ⟨rfl, htext⟩
    · cases hv
      exact ⟨rfl, htext'⟩
    · cases hv

end Synthesis

end Diversity
