import Diversity.Proofs.Coverage
/-! Substitutions for several variables of a block, merged. No two of them replace one node, so their
order does not matter, and nothing but captures is replaced. -/
namespace Diversity

/-- The substitution replaces what some of the others replace. Where two of them know a node, either may
win. -/
structure Substitution.Merges (σ : Substitution) (σs : List Substitution) : Prop where
  mem : ∀ entry ∈ σ, ∃ τ ∈ σs, entry ∈ τ
  known : ∀ τ ∈ σs, ∀ entry ∈ τ, ∃ r, (entry.1, r) ∈ σ

theorem Substitution.merges_of_mem_iff {σ : Substitution} {σs : List Substitution}
    (h : ∀ entry, entry ∈ σ ↔ ∃ τ ∈ σs, entry ∈ τ) : σ.Merges σs :=
  ⟨fun entry => (h entry).1, fun τ hτ entry he => ⟨entry.2, (h entry).2 ⟨τ, hτ, he⟩⟩⟩

/-- If no two substitutions disagree, the order of a merge does not show. -/
theorem Substitution.Merges.lookup_iff {σ : Substitution} {σs : List Substitution} (h : σ.Merges σs)
    (hagree : ∀ τ ∈ σs, ∀ τ' ∈ σs, ∀ i r r', (i, r) ∈ τ → (i, r') ∈ τ' → r = r') {i : NodeId} {r : Expr} :
    σ.lookup i = some r ↔ ∃ τ ∈ σs, (i, r) ∈ τ := by
  constructor
  · intro hr
    exact h.mem _ (Substitution.mem_of_lookup hr)
  · rintro ⟨τ, hτ, hr⟩
    obtain ⟨r', hr'⟩ := h.known τ hτ _ hr
    obtain ⟨r'', hlookup⟩ := Option.isSome_iff_exists.1 (List.lookup_isSome_iff.2 ⟨_, hr', beq_self_eq_true i⟩)
    obtain ⟨τ', hτ', hr''⟩ := h.mem _ (Substitution.mem_of_lookup hlookup)
    rw [hlookup, hagree τ' hτ' τ hτ i r'' r hr'' hr]

/-! ### What a replacement holds -/

theorem Expr.vars_of_isZero {e : Expr} (h : e.isZero = true) : e.vars = [] := by
  cases e with
  | value _ _ => rfl
  | _ => cases h

namespace Capture

theorem vars_toExpr {c : Capture} (h : ∀ position ∈ c.positions, position.isZero = true) :
    c.toExpr.vars = c.root.vars := by
  induction c with
  | base _ => rfl
  | ref inner ih | deref inner ih =>
      rw [toExpr, Expr.vars_eq]
      simpa [Expr.var?, Expr.children, root] using ih h
  | assigned inner ih => exact ih h
  | index inner position ih =>
      obtain ⟨hz, h⟩ := List.forall_mem_cons.1 h
      rw [toExpr, Expr.vars_eq]
      simpa [Expr.var?, Expr.children, Expr.vars_of_isZero hz, root] using ih h

end Capture

/-- A replacement mentions the parameter and nothing else. -/
theorem Usage.vars_replacement {u : Usage} {c : Capture} {w : Variable}
    (h : ∀ position ∈ u.capture.positions, position.isZero = true) :
    (u.replacement (c.invert (.var .unnumbered w))).2.vars = [w] := by
  rw [replacement, Capture.vars_toExpr, Capture.root_simplify, Capture.root_replace, Capture.invert,
    Capture.root_invertOnto]
  · rfl
  · rwa [Capture.positions_simplify, Capture.positions_replace, Capture.invert, Capture.positions_invertOnto,
      Capture.positions, List.append_nil]

/-! ### Where a node stands -/

namespace Expr

/-- The node that is reached by going from part to part. -/
def node? : List Nat → Expr → Option Expr
  | [], e => some e
  | i :: path, e => e.children[i]?.bind (node? path)

/-- A node without its parts: its identity, what it is, and how many parts it has. -/
def head (e : Expr) : Expr := e.mapChildren fun _ => default

variable {e n : Expr} {f : Expr → Option Expr} {path : List Nat}

theorem mem_nodes_of_node? (h : e.node? path = some n) : n ∈ e.nodes := by
  induction path generalizing e with
  | nil =>
      cases h
      exact mem_nodes_self _
  | cons i path ih =>
      obtain ⟨c, hc, h⟩ := Option.bind_eq_some_iff.1 h
      exact mem_nodes_iff.2 (.inr ⟨c, List.mem_of_getElem? hc, ih h⟩)

/-- A node stays where it is if nothing around it is replaced. -/
theorem node?_replaceNodes (h : e.node? path = some n) (hf : ∀ m ∈ e.nodes, n ∈ m.nodes → f m = none) :
    (e.replaceNodes f).node? path = some (n.replaceNodes f) := by
  induction path generalizing e with
  | nil =>
      cases h
      rfl
  | cons i path ih =>
      have he : f e = none := hf e (mem_nodes_self e) (mem_nodes_of_node? h)
      obtain ⟨c, hc, h⟩ := Option.bind_eq_some_iff.1 h
      have hpart := ih h fun m hm => hf m (mem_nodes_iff.2 (.inr ⟨c, List.mem_of_getElem? hc, hm⟩))
      rw [replaceNodes_eq, he, Option.getD_none, node?, children_mapChildren, List.getElem?_map, hc]
      exact hpart

theorem head_mapChildren (e : Expr) (g : Expr → Expr) : (e.mapChildren g).head = e.head := by
  cases e <;> simp [head, mapChildren, Function.comp_def]

theorem head_replaceNodes (h : f e = none) : (e.replaceNodes f).head = e.head := by
  rw [replaceNodes_eq, h, Option.getD_none, head_mapChildren]

end Expr

namespace Stmt

variable {f g : Expr → Expr}

mutual

theorem mapExprs_mapExprs (x : Stmt) : mapExprs f (mapExprs g x) = mapExprs (fun e => f (g e)) x := by
  match x with
  | .assign _ _ _ => rfl
  | .call _ _ => rfl
  | .choice _ branches => simp [mapExprs, mapExprsOfBranches_mapExprs branches]
  | .loop _ _ body => simp [mapExprs, mapExprsOfAll_mapExprs body]
  | .expr _ _ => rfl
  | .group _ body => simp [mapExprs, mapExprsOfAll_mapExprs body]

theorem mapExprsOfAll_mapExprs (body : List Stmt) :
    mapExprsOfAll f (mapExprsOfAll g body) = mapExprsOfAll (fun e => f (g e)) body := by
  match body with
  | [] => rfl
  | x :: rest => simp [mapExprsOfAll, mapExprs_mapExprs x, mapExprsOfAll_mapExprs rest]

theorem mapExprsOfBranches_mapExprs (branches : List Branch) :
    mapExprsOfBranches f (mapExprsOfBranches g branches) = mapExprsOfBranches (fun e => f (g e)) branches := by
  match branches with
  | [] => rfl
  | .mk condition body :: rest =>
      simp [mapExprsOfBranches, mapExprsOfBranch, mapExprsOfAll_mapExprs body, mapExprsOfBranches_mapExprs rest,
        Function.comp_def]

end

end Stmt

/-! ### The body of a block, through parameters -/

/-- The body of a block with variables turned into parameters. Of such a variable nothing is left but the
parameter, which may share the key of a variable without a chunk; and whatever is not captured is still
there, in the same place. -/
structure Block.Rewrites (b : Block) (vs : List Variable) (ls : List Lifted) (body : List Stmt) : Prop where
  gone : ∀ v ∈ vs, ∀ w ∈ Stmt.vars body, w.key = v.key → v.chunk = none ∧ ∃ l ∈ ls, w = l.param.var
  statements : Stmt.mapExprsOfAll (fun _ => default) body = Stmt.mapExprsOfAll (fun _ => default) b.statements
  operands : List.Forall₂ (fun o o' => o'.isTarget = o.isTarget ∧ ∀ path n, o.expr.node? path = some n →
      (∀ v ∈ vs, ∀ u ∈ b.usages v.key, ¬ u.Covers b.exprs n) →
        ∃ n', o'.expr.node? path = some n' ∧ n'.head = n.head)
    (Stmt.operandsOfAll b.statements) (Stmt.operandsOfAll body)

namespace Block

variable {b : Block} {bs : BlockSet} {vs : List Variable} {ls : List Lifted} {l l' : Lifted} {v : Variable}
  {i : NodeId} {r r' n : Expr} {u : Usage} {key : Option ChunkId × String}

theorem lift_eq_of_key {w : Variable} (h : v.key = w.key) : b.lift bs v = b.lift bs w := by
  rw [lift, lift, h, show v.name = w.name from congrArg Prod.snd h]

theorem positions_of_usages (hu : u ∈ b.usages key) :
    ∀ position ∈ u.capture.positions, position ∈ b.exprs ∧ position.isZero = true := by
  intro position hp
  rw [usages_eq] at hu
  obtain ⟨o, ho, hu⟩ := List.mem_flatMap.1 hu
  obtain ⟨hpos, hz⟩ := Operand.positions_of_usages hu position hp
  exact ⟨exprs_eq b ▸ List.mem_flatMap.2 ⟨o, ho, hpos⟩, hz⟩

/-- What is replaced is a usage of a variable that is lifted. -/
theorem exists_usage_of_mem (hlift : List.Forall₂ (fun v l => b.lift bs v = .ok l) vs ls) (hl : l ∈ ls)
    (hr : (i, r) ∈ l.substitution) : ∃ v ∈ vs, b.lift bs v = .ok l ∧ l.param.var.chunk = none ∧
      ∃ u ∈ b.usages v.key, u.replacement (l.maximal.invert (.var .unnumbered l.param.var)) = (i, r) := by
  obtain ⟨v, hv, hl⟩ := forall₂_mem_right hlift hl
  obtain ⟨us, type, -, -, hparam, hsub, -⟩ := lift_eq_ok hl
  rw [hsub] at hr
  refine ⟨v, hv, hl, ?_, List.mem_map.1 hr⟩
  rw [hparam]
  rfl

/-- No two of the substitutions disagree. -/
theorem replacement_unique (hids : (b.exprs.map Expr.id).Nodup)
    (hlift : List.Forall₂ (fun v l => b.lift bs v = .ok l) vs ls) (hl : l ∈ ls) (hl' : l' ∈ ls)
    (hr : (i, r) ∈ l.substitution) (hr' : (i, r') ∈ l'.substitution) : r = r' := by
  obtain ⟨v, -, hv, -, u, hu, he⟩ := exists_usage_of_mem hlift hl hr
  obtain ⟨v', -, hv', -, u', hu', he'⟩ := exists_usage_of_mem hlift hl' hr'
  obtain ⟨hi, rfl⟩ := Prod.mk.inj he
  obtain ⟨hi', rfl⟩ := Prod.mk.inj he'
  have hsep := separate hids
  obtain ⟨o, ho, hid⟩ := hsep.exists_origin hu
  have hcovers : u.Covers b.exprs o := ⟨o, ho, hid, Expr.mem_nodes_self o⟩
  have hcovers' : u'.Covers b.exprs o := ⟨o, ho, hid.trans (hi.trans hi'.symm), Expr.mem_nodes_self o⟩
  obtain ⟨hkey, rfl⟩ := hsep.apart hu hu' hcovers hcovers'
  rw [lift_eq_of_key hkey, hv', Except.ok.injEq] at hv
  rw [hv]

/-- A merge of the substitutions that turn variables of the block into parameters. -/
structure Merged (b : Block) (bs : BlockSet) (vs : List Variable) (ls : List Lifted) (σ : Substitution) : Prop where
  ids : (b.exprs.map Expr.id).Nodup
  lifts : List.Forall₂ (fun v l => b.lift bs v = .ok l) vs ls
  merges : σ.Merges (ls.map Lifted.substitution)

namespace Merged

variable {σ σ' : Substitution}

theorem lookup_iff (h : b.Merged bs vs ls σ) : σ.lookup i = some r ↔ ∃ l ∈ ls, (i, r) ∈ l.substitution := by
  rw [h.merges.lookup_iff]
  · simp only [List.mem_map, exists_exists_and_eq_and]
  · intro τ hτ τ' hτ' i r r' hr hr'
    obtain ⟨l, hl, rfl⟩ := List.mem_map.1 hτ
    obtain ⟨l', hl', rfl⟩ := List.mem_map.1 hτ'
    exact replacement_unique h.ids h.lifts hl hl' hr hr'

theorem lookup_eq (h : b.Merged bs vs ls σ) (h' : b.Merged bs vs ls σ') (i : NodeId) :
    σ.lookup i = σ'.lookup i := by
  ext r
  rw [h.lookup_iff, h'.lookup_iff]

theorem exists_usage_of_lookup (h : b.Merged bs vs ls σ) (hr : σ.lookup i = some r) :
    ∃ l ∈ ls, ∃ v ∈ vs, l.param.var.chunk = none ∧ ∃ u ∈ b.usages v.key,
      u.replacement (l.maximal.invert (.var .unnumbered l.param.var)) = (i, r) := by
  obtain ⟨l, hl, hr⟩ := h.lookup_iff.1 hr
  obtain ⟨v, hv, -, hchunk, u, hu, he⟩ := exists_usage_of_mem h.lifts hl hr
  exact ⟨l, hl, v, hv, hchunk, u, hu, he⟩

theorem exists_lookup (h : b.Merged bs vs ls σ) (hv : v ∈ vs) (hu : u ∈ b.usages v.key) :
    ∃ r, σ.lookup u.origin = some r := by
  obtain ⟨l, hl, hlift⟩ := forall₂_mem_left h.lifts hv
  obtain ⟨us, type, -, -, -, hsub, -⟩ := lift_eq_ok hlift
  exact ⟨_, h.lookup_iff.2 ⟨l, hl, hsub ▸ List.mem_map_of_mem hu⟩⟩

/-- A replacement is not looked into again: its nodes are new or literals. -/
theorem closed (h : b.Merged bs vs ls σ) (hnumbered : .unnumbered ∉ b.exprs.map Expr.id) :
    Expr.Substitution.Closed σ := by
  intro i r hr n hn
  by_contra hsome
  obtain ⟨r', hr'⟩ := Option.ne_none_iff_exists'.1 hsome
  obtain ⟨l, -, v, -, -, u, hu, he⟩ := h.exists_usage_of_lookup hr
  obtain ⟨l', -, v', -, -, u', hu', he'⟩ := h.exists_usage_of_lookup hr'
  obtain ⟨-, rfl⟩ := Prod.mk.inj he
  obtain ⟨o, ho, hid, c, hc⟩ := (separate h.ids).origin _ u' hu'
  have hid : o.id = n.id := hid.trans (Prod.mk.inj he').1
  rcases Usage.mem_nodes_replacement hn with hnew | ⟨position, hp, hn⟩
  · exact hnumbered (hnew ▸ hid ▸ List.mem_map_of_mem ho)
  · obtain ⟨hpos, hz⟩ := positions_of_usages hu position hp
    obtain rfl := Expr.eq_of_mem_nodes_of_isZero hz hn
    obtain rfl := List.inj_on_of_nodup_map h.ids ho hpos hid
    obtain ⟨w, k, -, hw, -⟩ := Expr.along_of_capture? hc
    cases hw <;> cases hz

/-- Of a variable that is lifted, the body mentions nothing but a parameter. -/
theorem eq_param_of_mem_vars (h : b.Merged bs vs ls σ) (hv : v ∈ vs) {w : Variable} (hkey : w.key = v.key)
    (hw : w ∈ Stmt.vars (Stmt.mapExprsOfAll (·.replaceNodes fun n => σ.lookup n.id) b.statements)) :
    v.chunk = none ∧ ∃ l ∈ ls, w = l.param.var := by
  obtain ⟨o', ho', hw⟩ := Stmt.mem_vars_iff.1 hw
  rw [Stmt.operandsOfAll_mapExprs] at ho'
  obtain ⟨o, ho, rfl⟩ := List.mem_map.1 ho'
  have hreplaced (key) (hkey : ∃ v ∈ vs, v.key = key) :
      ∀ u ∈ o.usages key, ∃ r, σ.lookup u.origin = some r := by
    intro u hu
    obtain ⟨v, hv, rfl⟩ := hkey
    exact h.exists_lookup hv (usages_eq b v.key ▸ List.mem_flatMap.2 ⟨o, ho, hu⟩)
  rcases Operand.vars_replaceNodes hreplaced hw with ⟨-, hkept⟩ | ⟨n, -, r, hr, hw⟩
  · exact absurd ⟨v, hv, hkey.symm⟩ hkept
  · obtain ⟨l, hl, v', -, hchunk, u, hu, he⟩ := h.exists_usage_of_lookup hr
    obtain rfl : _ = r := congrArg Prod.snd he
    rw [Usage.vars_replacement fun p hp => (positions_of_usages hu p hp).2, List.mem_singleton] at hw
    exact ⟨(congrArg Prod.fst hkey).symm.trans (hw ▸ hchunk), l, hl, hw⟩

/-- A node that is not captured stays in its place, with its identity and its constructor. -/
theorem exists_node?_of_uncovered (h : b.Merged bs vs ls σ) {e : Expr} (he : e.nodes ⊆ b.exprs) {path : List Nat}
    (hn : e.node? path = some n) (huncovered : ∀ v ∈ vs, ∀ u ∈ b.usages v.key, ¬ u.Covers b.exprs n) :
    ∃ n', (e.replaceNodes fun n => σ.lookup n.id).node? path = some n' ∧ n'.head = n.head := by
  have hkept : ∀ m ∈ e.nodes, n ∈ m.nodes → σ.lookup m.id = none := by
    intro m hm hnm
    by_contra hsome
    obtain ⟨r, hr⟩ := Option.ne_none_iff_exists'.1 hsome
    obtain ⟨l, -, v, hv, -, u, hu, hreplaced⟩ := h.exists_usage_of_lookup hr
    exact huncovered v hv u hu ⟨m, he hm, (Prod.mk.inj hreplaced).1.symm, hnm⟩
  refine ⟨_, Expr.node?_replaceNodes hn hkept, Expr.head_replaceNodes ?_⟩
  exact hkept n (Expr.mem_nodes_of_node? hn) (Expr.mem_nodes_self n)

theorem rewrites (h : b.Merged bs vs ls σ) :
    b.Rewrites vs ls (Stmt.mapExprsOfAll (·.replaceNodes fun n => σ.lookup n.id) b.statements) := by
  refine ⟨fun v hv w hw hkey => h.eq_param_of_mem_vars hv hkey hw, Stmt.mapExprsOfAll_mapExprs _, ?_⟩
  rw [Stmt.operandsOfAll_mapExprs, List.forall₂_map_right_iff, List.forall₂_same]
  refine fun o ho => ⟨rfl, fun path n hn => h.exists_node?_of_uncovered (fun m hm => ?_) hn⟩
  rw [exprs_eq]
  exact List.mem_flatMap.2 ⟨o, ho, hm⟩

end Merged

/-- All merges of the substitutions give one body. -/
theorem exists_rewrites (hids : (b.exprs.map Expr.id).Nodup) (hnumbered : .unnumbered ∉ b.exprs.map Expr.id)
    (hlift : List.Forall₂ (fun v l => b.lift bs v = .ok l) vs ls) :
    ∃ body, b.Rewrites vs ls body ∧ ∀ σ : Substitution, σ.Merges (ls.map Lifted.substitution) →
      Stmt.mapExprsOfAll (·.substitute σ) b.statements = body := by
  have hall : b.Merged bs vs ls (ls.flatMap Lifted.substitution) :=
    ⟨hids, hlift, Substitution.merges_of_mem_iff fun entry => by simp⟩
  refine ⟨_, hall.rewrites, fun σ hσ => ?_⟩
  have hmerged : b.Merged bs vs ls σ := ⟨hids, hlift, hσ⟩
  refine congrArg (Stmt.mapExprsOfAll · b.statements) (funext fun e => ?_)
  rw [Expr.substitute_eq (hmerged.closed hnumbered)]
  simp only [hmerged.lookup_eq hall]

/-- In a block whose nodes have distinct identities, each usage is an access path, each occurrence of a
variable lies on that of exactly one usage, and no two usages have a node in common, be they of one variable
or of two. So the substitutions for any variables that become parameters can be merged in any order. There
the nodes have to be numbered, as those of a replacement are not. -/
theorem usages_cover_once (b : Block) (hids : ((Stmt.nodesOfAll b.statements).map Node.id).Nodup) :
    (∀ key, ((b.usages key).map Usage.origin).Nodup ∧
      ∀ u ∈ b.usages key, ∃ o ∈ b.exprs, o.id = u.origin ∧ ∃ v k, v.key = key ∧ o.Along v k) ∧
    (∀ n ∈ b.exprs, ∀ v, n.var? = some v → ∃! u, u ∈ b.usages v.key ∧ u.Covers b.exprs n) ∧
    (∀ key key', ∀ u ∈ b.usages key, ∀ u' ∈ b.usages key', ∀ n, u.Covers b.exprs n → u'.Covers b.exprs n →
      key = key' ∧ u = u') ∧
    (.unnumbered ∉ (Stmt.nodesOfAll b.statements).map Node.id → ∀ bs vs ls,
      List.Forall₂ (fun v l => b.lift bs v = .ok l) vs ls → ∃ body, b.Rewrites vs ls body ∧
        ∀ σ : Substitution, σ.Merges (ls.map Lifted.substitution) →
          Stmt.mapExprsOfAll (·.substitute σ) b.statements = body) := by
  have hexprs := nodup_exprs hids
  have hsep := separate hexprs
  refine ⟨fun key => ⟨nodup_origins hexprs key, fun u hu => ?_⟩, fun n hn v hv => ?_, ?_, ?_⟩
  · obtain ⟨o, ho, hid, c, hc⟩ := hsep.origin key u hu
    obtain ⟨v, k, hkey, halong, -⟩ := Expr.along_of_capture? hc
    exact ⟨o, ho, hid, v, k, hkey, halong⟩
  · obtain ⟨u, hu, hcovers⟩ := exists_covers hn hv
    exact ⟨u, ⟨hu, hcovers⟩, fun u' hu' => (hsep.apart hu'.1 hu hu'.2 hcovers).2⟩
  · exact fun key key' u hu u' hu' n => hsep.apart hu hu'
  · intro hnumbered bs vs ls hlift
    exact exists_rewrites hexprs (fun h => hnumbered (ids_exprs_subset b h)) hlift

/-- A block that calls nothing has no usages below it. -/
theorem exists_lift_of_calls {c : Capture} {type : CType} (hcalls : b.calls = [])
    (hjoin : Capture.joinUsages v.name b.name (b.usages v.key) = .ok c) (htype : c.paramType = .ok type) :
    ∃ l, b.lift bs v = .ok l := by
  have hbelow : b.usagesBelow bs v.key [b.name] = .ok (b.usages v.key) := by
    rw [usagesBelow, hcalls]
    exact congrArg Except.ok (List.append_nil _)
  rw [lift, hbelow]
  exact ⟨_, bind_eq_ok.2 ⟨_, rfl, bind_eq_ok.2 ⟨c, hjoin, bind_eq_ok.2 ⟨type, htype, rfl⟩⟩⟩⟩

end Block

/-! ### A block with two variables of a chunk -/

namespace Rows

def base : Variable := ⟨"rows", some (.pointer (.pointer (.named "int"))), some ⟨1⟩⟩

def current : Variable := ⟨"i", some (.named "int"), some ⟨1⟩⟩

/-- The statements `*rows[0] = (*rows)[1]; i = i + 1;`. -/
def step : Block :=
  ⟨⟨1⟩, "step", ⟨true, false, false⟩,
    [.assign ⟨2⟩ (.deref ⟨3⟩ (.index ⟨4⟩ (.var ⟨5⟩ base) (.value ⟨6⟩ "0")))
      (.index ⟨7⟩ (.deref ⟨8⟩ (.var ⟨9⟩ base)) (.value ⟨10⟩ "1")),
     .assign ⟨11⟩ (.var ⟨12⟩ current) (.op ⟨13⟩ "+" [.var ⟨14⟩ current, .value ⟨15⟩ "1"])]⟩

theorem exists_lift_base : ∃ l, step.lift .empty base = .ok l := by
  have hjoin : Capture.join (.index (.base (.var ⟨5⟩ base)) (.value ⟨6⟩ "0")) (.deref (.base (.var ⟨9⟩ base))) =
      .base (.var ⟨5⟩ base) := by
    simp only [Capture.join]
  exact Block.exists_lift_of_calls rfl (congrArg Except.ok hjoin) rfl

theorem exists_lift_current : ∃ l, step.lift .empty current = .ok l := by
  have hjoin : Capture.join (.assigned (.base (.var ⟨12⟩ current))) (.base (.var ⟨14⟩ current)) =
      .assigned (.base (.var ⟨12⟩ current)) := by
    simp only [Capture.join]
    rfl
  exact Block.exists_lift_of_calls rfl (congrArg Except.ok hjoin) rfl

theorem step_covers_once : ((Stmt.nodesOfAll step.statements).map Node.id).Nodup ∧
    (∃! u, u ∈ step.usages base.key ∧ u.Covers step.exprs (.var ⟨5⟩ base)) ∧
    ∃ l l' body, step.lift .empty base = .ok l ∧ step.lift .empty current = .ok l' ∧
      step.Rewrites [base, current] [l, l'] body ∧
      Stmt.mapExprsOfAll (·.substitute (l.substitution ++ l'.substitution)) step.statements = body ∧
      Stmt.mapExprsOfAll (·.substitute (l'.substitution ++ l.substitution)) step.statements = body := by
  have hids : ((Stmt.nodesOfAll step.statements).map Node.id).Nodup := by decide
  obtain ⟨-, honce, -, hmerge⟩ := Block.usages_cover_once step hids
  obtain ⟨l, hl⟩ := exists_lift_base
  obtain ⟨l', hl'⟩ := exists_lift_current
  obtain ⟨body, hbody, hmerge⟩ := hmerge (by decide) .empty [base, current] [l, l'] (.cons hl (.cons hl' .nil))
  refine ⟨hids, honce _ (List.mem_of_getElem? (i := 2) rfl) base rfl, l, l', body, hl, hl', hbody, ?_, ?_⟩
  · exact hmerge _ (Substitution.merges_of_mem_iff fun entry => by simp)
  · exact hmerge _ (Substitution.merges_of_mem_iff fun entry => by simp [or_comm])

end Rows

end Diversity
