import Diversity.Inline
import Diversity.Proofs.MappedCalls
/-! What splicing blocks into their callers gives when it succeeds. -/
namespace Diversity

namespace Placement

variable {p : Placement} {bs : BlockSet}

/-- What becomes of one call: the call of a function stays, any other gives way to what `Q` says of a
copy of the block called. -/
inductive Expansion (p : Placement) (bs : BlockSet)
    (Q : Supply → List Stmt → List Stmt → Supply → Prop) :
    Supply → NodeId → BlockRef → List Stmt → Supply → Prop
  | kept {s i callee} : p.isFunc callee.name = true → Expansion p bs Q s i callee [.call i callee] s
  | spliced {s s₁ s' i callee b copy front} : p.isFunc callee.name = false → bs.resolve callee = .ok b →
      Stmt.refreshAll b.statements s = (copy, s₁) → Q s₁ copy front s' →
      Expansion p bs Q s i callee front s'

/-- What holds of a splicing if it holds of the splicings of all blocks called, holds of all
splicings. -/
theorem expand_induction {Q : Supply → List Stmt → List Stmt → Supply → Prop}
    (step : ∀ {s body body' s'}, Stmt.MapsAll (Expansion p bs Q) s body body' s' → Q s body body' s')
    {entered : List String} {body body' : List Stmt} {s s' : Supply}
    (h : p.expand bs entered body s = .ok (body', s')) : Q s body body' s' := by
  induction entered, body using expand.induct bs generalizing s body' s' with
  | case1 entered body ih =>
    rw [expand] at h
    apply step
    apply (Stmt.mapsAll_of_gives (gives_iff_run.2 h)).mono
    rintro s i callee front s' ⟨o, ho, rfl⟩
    rw [gives_iff_run] at ho
    beta_reduce at ho
    split at ho
    · next hf =>
      cases ho
      exact .kept hf
    · next hf =>
      split at ho
      · cases ho
      · split at ho
        · cases ho
        · next hn =>
          generalize hr : bs.resolve callee = r at ho
          cases r with
          | error e => cases ho
          | ok b =>
            obtain ⟨copy, s₁, hc, ho⟩ := run_bind_eq_ok.1 ho
            obtain ⟨front, s₂, hfront, ho⟩ := run_bind_eq_ok.1 ho
            cases ho
            exact .spliced (by simpa using hf) hr (Except.ok.inj hc) (ih callee hn b hr _ hfront)

/-- Splicing draws new identities for all that it splices in. -/
theorem keeps_expand {entered : List String} {body body' : List Stmt} {s s' : Supply}
    (h : p.expand bs entered body s = .ok (body', s')) : s.Keeps (Stmt.ids body) (Stmt.ids body') s' := by
  refine expand_induction (Q := fun s body body' s' => s.Keeps (Stmt.ids body) (Stmt.ids body') s') ?_ h
  intro s body body' s' h
  obtain ⟨fronts, hf, -, -, hi⟩ := h.parted
  have hfronts : s.Keeps ((Stmt.calls body).map fun c => {c.1}).sum (fronts.map Stmt.ids).sum s' := by
    refine Supply.Keeps.sum ?_ hf
    intro s c front s' h
    cases h with
    | kept _ => exact .refl _ _
    | spliced _ _ hc hq =>
        obtain ⟨drawn, hd, hle⟩ := hq
        exact ⟨_, (Stmt.draws_of_refreshAll hc).append hd, hle.trans (Multiset.le_add_left _ _)⟩
  simpa using (hfronts.add 0).exchange hi

/-- Each function keeps its block's identity, name and constraint; its body is spliced. -/
theorem inline_chained {blocks : List Block} {s s' : Supply} (h : p.inline bs s = .ok (blocks, s')) :
    Chained (fun s b b' s' => ∃ body, p.expand bs [] b.statements s = .ok (body, s') ∧
      b' = b.withBody body) s (bs.toList.filter (p.isFunc ·.name)) blocks s' := by
  apply (chained_of_mapM h).mono
  intro s b b' s' h
  obtain ⟨body, s₁, hb, h⟩ := run_bind_eq_ok.1 h
  cases h
  exact ⟨body, hb, rfl⟩

end Placement

end Diversity
