import Diversity.Proofs.Decoyed
import Diversity.Proofs.Inlined
import Diversity.Proofs.Splicing
/-! Splicing blocks into functions changes no run of a program. -/
namespace Diversity

universe u

namespace Graph

/-- The graphs that descriptions stand for, with or without decoys. -/
inductive Produced : Graph → Prop
  | compiled {d : Description} {s s' g} : d.toGraph s = .ok (g, s') → Produced g
  | decoyed {σ : Type} [RandomSource σ] {g pool chance names supply} {source : σ} {i : Injection σ} :
      Produced g → g.withDecoys pool chance names supply source = .ok i → Produced i.graph

variable {g : Graph} {p : Placement} {s s' : Supply} {blocks : List Block}

theorem Compiled.blocks_linked (h : g.Compiled s s') : g.blocks.Linked := by
  refine ⟨h.names, fun b hb c hc => ?_⟩
  obtain ⟨d, hd, e⟩ := h.linked b hb c hc
  exact e ▸ List.mem_map_of_mem hd

theorem Produced.linked (h : g.Produced) : g.blocks.Linked ∧ g.entry ∈ g.blocks.names := by
  induction h with
  | compiled h =>
      have hc := Description.compiled h
      exact ⟨hc.blocks_linked, hc.entry⟩
  | decoyed _ h ih => exact linked_withDecoys h ih.1 ih.2

/-- Whatever the statements and conditions mean, the entry runs as it does before all blocks that are no
functions are spliced into those that are. -/
theorem Produced.runs_entry_iff (hg : g.Produced) (hentry : p.isFunc g.entry = true)
    (hin : p.inline g.blocks s = .ok (blocks, s')) : ∃ bs b b', BlockSet.repaired blocks = .ok bs ∧
      g.blocks.find? g.entry = some b ∧ bs.find? g.entry = some b' ∧
      ∀ {S : Type u} (M : Meaning S) (x y : S),
        Stmt.Runs M g.blocks b.statements x y ↔ Stmt.Runs M bs b'.statements x y := by
  obtain ⟨hlinked, hmem⟩ := hg.linked
  obtain ⟨bs, hbs⟩ := hlinked.exists_repaired hin
  have hcorr := Stmt.corresponds_of_repaired hin hbs
  rcases hcorr g.entry hentry with ⟨hnone, -⟩ | ⟨b, b', hb, hb', hs⟩
  · exact absurd hmem (BlockSet.find?_eq_none.1 hnone)
  · exact ⟨bs, b, b', hbs, hb, hb', fun M x y => ⟨fun h => h.spliced hcorr hs, fun h => h.of_spliced hcorr hs⟩⟩

end Graph

namespace Description

/-- The blocks below `main` but the last are spliced in. -/
def splicedSharing : Placement := ⟨["main", "show"], ["relay", "fill"], []⟩

theorem runs_sharing_iff : ∃ g s blocks s' bs b b', sharing.toGraph .first = .ok (g, s) ∧
    splicedSharing.inline g.blocks s = .ok (blocks, s') ∧ BlockSet.repaired blocks = .ok bs ∧
    g.blocks.find? g.entry = some b ∧ bs.find? g.entry = some b' ∧
    ∀ {S : Type} (M : Meaning S) (x y : S),
      Stmt.Runs M g.blocks b.statements x y ↔ Stmt.Runs M bs b'.statements x y := by
  have h : (match sharing.toGraph .first with
    | .ok (g, s) => splicedSharing.isFunc g.entry && (splicedSharing.inline g.blocks s).isOk
    | .error _ => false) = true := by decide +kernel
  split at h
  · next g s hg =>
    rw [Bool.and_eq_true] at h
    cases hin : splicedSharing.inline g.blocks s with
    | error e =>
        rw [hin] at h
        cases h.2
    | ok r =>
        obtain ⟨bs, b, b', hrest⟩ := (Graph.Produced.compiled hg).runs_entry_iff h.1 hin
        exact ⟨g, s, r.1, r.2, bs, b, b', hg, hin, hrest⟩
  · cases h

end Description

end Diversity
