import Diversity.Proofs.RenamedDecoys
import Mathlib.Algebra.Order.BigOperators.Group.List
import Mathlib.Algebra.Order.Group.Nat
import Mathlib.Data.Set.Piecewise
/-! The identities in use, and renamings that matter for nothing else. -/
namespace Diversity

/-- Identities of nodes, blocks and chunks. Nodes that are not numbered may occur anywhere. -/
structure Identities where
  nodes : List NodeId
  blocks : List BlockId
  chunks : List ChunkId
  unnumbered : .unnumbered ∈ nodes

namespace Declaration

/-- The nodes of the initial value. -/
def nodes (d : Declaration) : List Expr := d.initial.elim [] Expr.nodes

/-- The variable declared and those that it starts from. -/
def vars (d : Declaration) : List Variable := d.var :: d.nodes.filterMap (·.var?)

end Declaration

namespace Graph

def declarations (g : Graph) : List Declaration := g.chunks.flatMap (·.vars) ++ g.externs

def vars (g : Graph) : List Variable := g.blocks.toList.flatMap (·.vars) ++ g.declarations.flatMap (·.vars)

def nodeIds (g : Graph) : List NodeId :=
  g.blocks.toList.flatMap (fun b => (Stmt.nodesOfAll b.statements).map (·.id)) ++
    g.declarations.flatMap fun d => d.nodes.map (·.id)

/-- The blocks and what they call. -/
def blockIds (g : Graph) : List BlockId := g.blocks.toList.flatMap fun b => b.id :: b.calls.map (·.2.id)

/-- The chunks and what variables belong to. -/
def chunkIds (g : Graph) : List ChunkId := g.chunks.map (·.id) ++ g.vars.filterMap (·.chunk)

end Graph

namespace Identities

/-- What occurs in graphs. -/
def ofGraphs (graphs : List Graph) : Identities where
  nodes := .unnumbered :: graphs.flatMap (·.nodeIds)
  blocks := graphs.flatMap (·.blockIds)
  chunks := graphs.flatMap (·.chunkIds)
  unnumbered := List.mem_cons_self

/-- The two renamings give the same new identities. -/
structure Alike (ids : Identities) (ρ τ : Renaming) : Prop where
  nodes : ∀ i ∈ ids.nodes, ρ.node i = τ.node i
  blocks : ∀ i ∈ ids.blocks, ρ.block i = τ.block i
  chunks : ∀ i ∈ ids.chunks, ρ.chunk i = τ.chunk i

end Identities

/-- Different identities among the given ones stay different. -/
structure Renaming.Separates (ρ : Renaming) (ids : Identities) : Prop where
  nodes : Set.InjOn ρ.node {i | i ∈ ids.nodes}
  blocks : Set.InjOn ρ.block {i | i ∈ ids.blocks}
  chunks : Set.InjOn ρ.chunk {i | i ∈ ids.chunks}

/-- The supply gives out none of the identities to nodes and blocks. -/
@[mk_iff]
structure Supply.Above (s : Supply) (ids : Identities) : Prop where
  nodes : ∀ i ∈ ids.nodes, i.index < s.next
  blocks : ∀ i ∈ ids.blocks, i.index < s.next

instance (s : Supply) (ids : Identities) : Decidable (s.Above ids) := decidable_of_iff' _ (Supply.above_iff s ids)

variable {ρ τ : Renaming}

/-! ## Where renamings are alike -/

theorem Variable.rename_congr {v : Variable} (h : ∀ c, v.chunk = some c → ρ.chunk c = τ.chunk c) :
    v.rename ρ = v.rename τ := by
  have hchunk : v.chunk.map ρ.chunk = v.chunk.map τ.chunk := by
    cases hc : v.chunk with
    | none => rfl
    | some c => rw [Option.map_some, Option.map_some, h c hc]
  rw [rename, rename, hchunk]

/-- The two renamings do the same to the node itself. -/
structure Node.Alike (ρ τ : Renaming) (n : Node) : Prop where
  id : ρ.node n.id = τ.node n.id
  callee : ∀ c, n.call? = some c → ρ.block c.2.id = τ.block c.2.id
  var : ∀ v, n.var? = some v → v.rename ρ = v.rename τ

theorem Expr.rename_congr {e : Expr} (h : ∀ n ∈ e.asNodes, n.Alike ρ τ) : e.rename ρ = e.rename τ := by
  induction e using parts_induction with
  | step e ih =>
      have hself := h (.expr e) (List.mem_map_of_mem (mem_nodes_self e))
      have hid : ρ.node e.id = τ.node e.id := hself.id
      have hvar : ∀ v, e.var? = some v → v.rename ρ = v.rename τ := hself.var
      have hparts : ∀ c ∈ e.children, c.rename ρ = c.rename τ := by
        intro c hc
        refine ih c hc fun n hn => h n ?_
        obtain ⟨m, hm, rfl⟩ := List.mem_map.1 hn
        exact List.mem_map_of_mem (mem_nodes_iff.2 (.inr ⟨c, hc, hm⟩))
      cases e <;> simp_all [rename, renameAll_eq, children, id, var?]

namespace Stmt

mutual

theorem rename_congr (x : Stmt) (h : ∀ n ∈ nodes x, n.Alike ρ τ) : x.rename ρ = x.rename τ := by
  match x with
  | .assign i target value =>
      rw [nodes, List.forall_mem_cons, List.forall_mem_append] at h
      obtain ⟨hself, htarget, hvalue⟩ := h
      have hid : ρ.node i = τ.node i := hself.id
      rw [rename, rename, hid, Expr.rename_congr htarget, Expr.rename_congr hvalue]
  | .call i callee =>
      rw [nodes, List.forall_mem_singleton] at h
      have hid : ρ.node i = τ.node i := h.id
      rw [rename, rename, BlockRef.rename, BlockRef.rename, hid, h.callee (i, callee) rfl]
  | .choice i branches =>
      rw [nodes, List.forall_mem_cons] at h
      have hid : ρ.node i = τ.node i := h.1.id
      rw [rename, rename, hid, renameBranches_congr branches h.2]
  | .loop i condition body =>
      rw [nodes, List.forall_mem_cons, List.forall_mem_append] at h
      obtain ⟨hself, hcondition, hbody⟩ := h
      have hid : ρ.node i = τ.node i := hself.id
      rw [rename, rename, hid, Expr.rename_congr hcondition, renameAll_congr body hbody]
  | .expr i e =>
      rw [nodes, List.forall_mem_cons] at h
      have hid : ρ.node i = τ.node i := h.1.id
      rw [rename, rename, hid, Expr.rename_congr h.2]
  | .group i body =>
      rw [nodes, List.forall_mem_cons] at h
      have hid : ρ.node i = τ.node i := h.1.id
      rw [rename, rename, hid, renameAll_congr body h.2]

theorem renameAll_congr (body : List Stmt) (h : ∀ n ∈ nodesOfAll body, n.Alike ρ τ) :
    renameAll ρ body = renameAll τ body := by
  match body with
  | [] => rfl
  | x :: rest =>
      rw [nodesOfAll, List.forall_mem_append] at h
      rw [renameAll, renameAll, rename_congr x h.1, renameAll_congr rest h.2]

theorem renameBranches_congr (branches : List Branch) (h : ∀ n ∈ nodesOfBranches branches, n.Alike ρ τ) :
    renameBranches ρ branches = renameBranches τ branches := by
  match branches with
  | [] => rfl
  | .mk none body :: rest =>
      rw [nodesOfBranches, nodesOfBranch, List.forall_mem_append] at h
      rw [renameBranches, renameBranches, renameBranch, renameBranch, renameAll_congr body h.1,
        renameBranches_congr rest h.2]
      rfl
  | .mk (some condition) body :: rest =>
      rw [nodesOfBranches, nodesOfBranch, List.forall_mem_append, List.forall_mem_append] at h
      obtain ⟨⟨hcondition, hbody⟩, hrest⟩ := h
      rw [renameBranches, renameBranches, renameBranch, renameBranch, renameAll_congr body hbody,
        renameBranches_congr rest hrest, Option.map_some, Option.map_some, Expr.rename_congr hcondition]

end

end Stmt

theorem Block.rename_congr {b : Block} (hid : ρ.block b.id = τ.block b.id)
    (hnodes : ∀ n ∈ Stmt.nodesOfAll b.statements, ρ.node n.id = τ.node n.id)
    (hcalls : ∀ c ∈ b.calls, ρ.block c.2.id = τ.block c.2.id) (hvars : ∀ v ∈ b.vars, v.rename ρ = v.rename τ) :
    b.rename ρ = b.rename τ := by
  have hbody := Stmt.renameAll_congr b.statements fun n hn => (⟨hnodes n hn,
    fun c hc => hcalls c (List.mem_filterMap.2 ⟨n, hn, hc⟩), fun v hv => hvars v (List.mem_filterMap.2 ⟨n, hn, hv⟩)⟩ :
      n.Alike ρ τ)
  rw [rename, rename, hid, hbody]

theorem Declaration.rename_congr {d : Declaration} (hnodes : ∀ n ∈ d.nodes, ρ.node n.id = τ.node n.id)
    (hvars : ∀ v ∈ d.vars, v.rename ρ = v.rename τ) : d.rename ρ = d.rename τ := by
  obtain ⟨hvar, hvars⟩ := List.forall_mem_cons.1 hvars
  have hinitial : d.initial.map (Expr.rename ρ) = d.initial.map (Expr.rename τ) := by
    rw [nodes] at hnodes hvars
    cases he : d.initial with
    | none => rfl
    | some e =>
        rw [he] at hnodes hvars
        refine congrArg some (Expr.rename_congr fun n hn => ?_)
        obtain ⟨m, hm, rfl⟩ := List.mem_map.1 hn
        refine ⟨hnodes m hm, fun c hc => ?_, fun v hv => hvars v (List.mem_filterMap.2 ⟨m, hm, hv⟩)⟩
        cases hc
  rw [rename, rename, hvar, hinitial]

/-- What a renaming does to a graph depends on the identities in use only. -/
theorem Graph.rename_congr {g : Graph} {graphs : List Graph} (h : (Identities.ofGraphs graphs).Alike ρ τ)
    (hg : g ∈ graphs) : g.rename ρ = g.rename τ := by
  have hnodes {i : NodeId} (hi : i ∈ g.nodeIds) : ρ.node i = τ.node i :=
    h.nodes i (List.mem_cons_of_mem _ (List.mem_flatMap_of_mem hg hi))
  have hblocks {i : BlockId} (hi : i ∈ g.blockIds) : ρ.block i = τ.block i :=
    h.blocks i (List.mem_flatMap_of_mem hg hi)
  have hchunks {i : ChunkId} (hi : i ∈ g.chunkIds) : ρ.chunk i = τ.chunk i :=
    h.chunks i (List.mem_flatMap_of_mem hg hi)
  have hvar {v : Variable} (hv : v ∈ g.vars) : v.rename ρ = v.rename τ :=
    Variable.rename_congr fun c hc => hchunks (List.mem_append_right _ (List.mem_filterMap.2 ⟨v, hv, hc⟩))
  have hblock : ∀ b ∈ g.blocks.toList, b.rename ρ = b.rename τ := by
    intro b hb
    apply Block.rename_congr
    · exact hblocks (List.mem_flatMap_of_mem hb List.mem_cons_self)
    · intro n hn
      exact hnodes (List.mem_append_left _ (List.mem_flatMap_of_mem hb (List.mem_map_of_mem hn)))
    · intro c hc
      exact hblocks (List.mem_flatMap_of_mem hb (List.mem_cons_of_mem _ (List.mem_map_of_mem hc)))
    · intro v hv
      exact hvar (List.mem_append_left _ (List.mem_flatMap_of_mem hb hv))
  have hdeclared : ∀ d ∈ g.declarations, d.rename ρ = d.rename τ := by
    intro d hd
    apply Declaration.rename_congr
    · intro n hn
      exact hnodes (List.mem_append_right _ (List.mem_flatMap_of_mem hd (List.mem_map_of_mem hn)))
    · intro v hv
      exact hvar (List.mem_append_right _ (List.mem_flatMap_of_mem hd hv))
  have hchunk : ∀ c ∈ g.chunks, c.rename ρ = c.rename τ := by
    intro c hc
    have hid := hchunks (List.mem_append_left _ (List.mem_map_of_mem hc))
    have hvars := List.map_congr_left fun d hd =>
      hdeclared d (List.mem_append_left _ (List.mem_flatMap_of_mem hc hd))
    rw [Chunk.rename, Chunk.rename, hid, hvars]
  have hexterns := List.map_congr_left fun d hd => hdeclared d (List.mem_append_right _ hd)
  rw [rename, rename, BlockSet.rename, BlockSet.rename, List.map_congr_left hchunk, hexterns,
    List.map_congr_left hblock]

/-! ## Renaming nothing -/

namespace Renaming

def same : Renaming := ⟨id, id, id, rfl⟩

@[simp] theorem node_same (i : NodeId) : same.node i = i := rfl

@[simp] theorem block_same (i : BlockId) : same.block i = i := rfl

@[simp] theorem chunk_same (i : ChunkId) : same.chunk i = i := rfl

theorem separates_same (ids : Identities) : same.Separates ids :=
  ⟨Function.injective_id.injOn, Function.injective_id.injOn, Function.injective_id.injOn⟩

end Renaming

theorem Variable.rename_same (v : Variable) : v.rename .same = v := by
  have hchunk : v.chunk.map Renaming.same.chunk = v.chunk := by
    cases v.chunk <;> rfl
  rw [rename, hchunk]

theorem Expr.rename_same (e : Expr) : e.rename .same = e := by
  induction e using parts_induction with
  | step e ih =>
      have hparts : e.children.map (rename .same) = e.children := (List.map_congr_left ih).trans (List.map_id' _)
      cases e <;> simp_all [rename, renameAll_eq, children, Variable.rename_same]

namespace Stmt

mutual

theorem rename_same (x : Stmt) : x.rename .same = x := by
  match x with
  | .assign _ _ _ | .call _ _ | .expr _ _ =>
      simp [rename, BlockRef.rename, Expr.rename_same]
  | .choice _ branches => simp [rename, renameBranches_same branches]
  | .loop _ _ body | .group _ body => simp [rename, Expr.rename_same, renameAll_same body]

theorem renameAll_same (body : List Stmt) : renameAll .same body = body := by
  match body with
  | [] => rfl
  | x :: rest => rw [renameAll, rename_same x, renameAll_same rest]

theorem renameBranches_same (branches : List Branch) : renameBranches .same branches = branches := by
  match branches with
  | [] => rfl
  | .mk none body :: rest | .mk (some condition) body :: rest =>
      simp [renameBranches, renameBranch, Expr.rename_same, renameAll_same body, renameBranches_same rest]

end

end Stmt

theorem Graph.rename_same (g : Graph) : g.rename .same = g := by
  have hblock (b : Block) : b.rename .same = b := by
    simp [Block.rename, Stmt.renameAll_same]
  have hdeclared (d : Declaration) : d.rename .same = d := by
    simp [Declaration.rename, Variable.rename_same, Expr.rename_same]
  have hchunk (c : Chunk) : c.rename .same = c := by
    obtain ⟨id, name, constraint, vars, _, rfl⟩ := c
    simp [Chunk.rename, Chunk.of, hdeclared]
  have hblocks : g.blocks.rename .same = g.blocks := BlockSet.ext (by simp [BlockSet.rename, hblock])
  simp [rename, hblocks, hdeclared, hchunk]

/-! ## Renaming what is not in use -/

namespace Renaming

/-- The renaming on what is in use; all else moves up by `d`. -/
def extend (ρ : Renaming) (ids : Identities) (d : Nat) : Renaming where
  node i := if i ∈ ids.nodes then ρ.node i else ⟨i.index + d⟩
  block i := if i ∈ ids.blocks then ρ.block i else ⟨i.index + d⟩
  chunk i := if i ∈ ids.chunks then ρ.chunk i else ⟨i.index + d⟩
  unnumbered := by rw [if_pos ids.unnumbered, ρ.unnumbered]

/-- What is in use gets identities below `d`. -/
structure Within (ρ : Renaming) (ids : Identities) (d : Nat) : Prop where
  nodes : ∀ i ∈ ids.nodes, (ρ.node i).index < d
  blocks : ∀ i ∈ ids.blocks, (ρ.block i).index < d
  chunks : ∀ i ∈ ids.chunks, (ρ.chunk i).index < d

variable {ids : Identities} {d : Nat}

theorem exists_within (ρ : Renaming) (ids : Identities) : ∃ n, ∀ d, n ≤ d → ρ.Within ids d := by
  have hbound {α : Type} (f : α → Nat) (as : List α) {d : Nat} (h : (as.map f).sum < d) : ∀ a ∈ as, f a < d := by
    intro a ha
    have hle : f a ≤ (as.map f).sum := List.le_sum_of_mem (List.mem_map_of_mem ha)
    exact hle.trans_lt h
  refine ⟨(ids.nodes.map fun i => (ρ.node i).index).sum + (ids.blocks.map fun i => (ρ.block i).index).sum +
    (ids.chunks.map fun i => (ρ.chunk i).index).sum + 1, fun d hd => ⟨?_, ?_, ?_⟩⟩
  · exact hbound (fun i => (ρ.node i).index) ids.nodes (by omega)
  · exact hbound (fun i => (ρ.block i).index) ids.blocks (by omega)
  · exact hbound (fun i => (ρ.chunk i).index) ids.chunks (by omega)

theorem alike_extend (ρ : Renaming) (ids : Identities) (d : Nat) : ids.Alike (ρ.extend ids d) ρ :=
  ⟨fun _ hi => if_pos hi, fun _ hi => if_pos hi, fun _ hi => if_pos hi⟩

theorem injective_moved {ι : Type} [DecidableEq ι] {used : List ι} {f g : ι → ι} {n : ι → Nat}
    (hn : Function.Injective n) (hf : Set.InjOn f {i | i ∈ used}) (hlow : ∀ i ∈ used, n (f i) < d)
    (hg : ∀ i, n (g i) = n i + d) : Function.Injective fun i => if i ∈ used then f i else g i := by
  refine (Set.injective_piecewise_iff {i | i ∈ used}).2 ⟨hf, ?_, ?_⟩
  · intro i _ j _ h
    have h := congrArg n h
    rw [hg, hg] at h
    exact hn (Nat.add_right_cancel h)
  · intro i hi j _ h
    have h := congrArg n h
    rw [hg] at h
    have := hlow i hi
    omega

theorem faithful_extend (h : ρ.Separates ids) (hd : ρ.Within ids d) : (ρ.extend ids d).Faithful where
  node := by
    refine injective_moved (n := NodeId.index) ?_ h.nodes hd.nodes fun _ => rfl
    rintro ⟨a⟩ ⟨b⟩ rfl
    rfl
  block := by
    refine injective_moved (n := BlockId.index) ?_ h.blocks hd.blocks fun _ => rfl
    rintro ⟨a⟩ ⟨b⟩ rfl
    rfl
  chunk := by
    refine injective_moved (n := ChunkId.index) ?_ h.chunks hd.chunks fun _ => rfl
    rintro ⟨a⟩ ⟨b⟩ rfl
    rfl

/-- A supply above all that is in use goes in step with the one that starts higher by `d`. -/
theorem paces_extend {s : Supply} (hs : s.Above ids) : (ρ.extend ids d).Paces s ⟨s.next + d⟩ := by
  intro k
  have hnode : (⟨s.next + k⟩ : NodeId) ∉ ids.nodes := fun h =>
    absurd (hs.nodes _ h) (Nat.not_lt.2 (Nat.le_add_right _ _))
  have hblock : (⟨s.next + k⟩ : BlockId) ∉ ids.blocks := fun h =>
    absurd (hs.blocks _ h) (Nat.not_lt.2 (Nat.le_add_right _ _))
  simp only [extend, hnode, hblock, ↓reduceIte, Nat.add_right_comm, and_self]

/-- What goes in step with a supply that starts elsewhere is above all that is in use. -/
theorem above_of_paces {s s' : Supply} (hd : 0 < d) (h : (same.extend ids d).Paces s s') : s.Above ids := by
  obtain ⟨n, hn⟩ := exists_within same ids
  have hlow := hn n (Nat.le_refl n)
  -- far out nothing is in use, so that the distance of the two supplies shows
  have hnext : s'.next = s.next + d := by
    have hfar : (⟨s.next + n⟩ : NodeId) ∉ ids.nodes := fun hmem =>
      absurd (hlow.nodes _ hmem) (Nat.not_lt.2 (Nat.le_add_left _ _))
    have hn := (h n).1
    simp only [extend, hfar, ↓reduceIte, NodeId.mk.injEq] at hn
    omega
  constructor
  · rintro ⟨i⟩ hi
    by_contra hle
    obtain ⟨k, rfl⟩ := Nat.exists_eq_add_of_le (Nat.not_lt.1 hle)
    have hk := (h k).1
    simp only [extend, hi, ↓reduceIte, node_same, NodeId.mk.injEq] at hk
    omega
  · rintro ⟨i⟩ hi
    by_contra hle
    obtain ⟨k, rfl⟩ := Nat.exists_eq_add_of_le (Nat.not_lt.1 hle)
    have hk := (h k).2
    simp only [extend, hi, ↓reduceIte, block_same, BlockId.mk.injEq] at hk
    omega

end Renaming

end Diversity
