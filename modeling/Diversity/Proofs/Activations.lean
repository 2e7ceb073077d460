import Diversity.Proofs.Arguments
import Diversity.Proofs.Supplied
/-! How often a run enters a function. A chunk is declared at the end of the calls that all paths to it start
with. If none of these calls stands in a loop, and no function on the way reaches itself, a run enters the
function that declares the chunk once at most. -/
namespace Diversity

/-! ## Runs of programs -/

/-- The function that a statement enters, if it was put in for the call of a block. All other statements are
numbered. -/
def Expr.enters? (i : NodeId) : Expr → Option String
  | .call _ (.var _ v) _ => if i = .unnumbered then some v.name else none
  | _ => none

theorem Expr.enters?_of_numbered {i : NodeId} {e : Expr} (h : i ≠ .unnumbered) : e.enters? i = none := by
  unfold enters?
  split
  · exact if_neg h
  · rfl

namespace Stmt

mutual

/-- The functions that a statement enters, in the order in which they are written. -/
def entries : Stmt → List String
  | .assign _ _ _ | .call _ _ => []
  | .choice _ branches => entriesOfBranches branches
  | .loop _ _ body => entriesOfAll body
  | .expr i e => (e.enters? i).toList
  | .group _ body => entriesOfAll body

def entriesOfAll : List Stmt → List String
  | [] => []
  | x :: rest => entries x ++ entriesOfAll rest

def entriesOfBranches : List Branch → List String
  | [] => []
  | .mk _ body :: rest => entriesOfAll body ++ entriesOfBranches rest

end

mutual

/-- What `inner` says of the bodies of the outermost loops. -/
def looped {α : Type} (inner : List Stmt → List α) : Stmt → List α
  | .assign _ _ _ | .call _ _ | .expr _ _ => []
  | .choice _ branches => loopedOfBranches inner branches
  | .loop _ _ body => inner body
  | .group _ body => loopedOfAll inner body

def loopedOfAll {α : Type} (inner : List Stmt → List α) : List Stmt → List α
  | [] => []
  | x :: rest => looped inner x ++ loopedOfAll inner rest

def loopedOfBranches {α : Type} (inner : List Stmt → List α) : List Branch → List α
  | [] => []
  | .mk _ body :: rest => loopedOfAll inner body ++ loopedOfBranches inner rest

end

/-- The functions that statements enter in loops. -/
def loopEntries (body : List Stmt) : List String := loopedOfAll entriesOfAll body

/-- The calls of blocks that stand in loops. -/
def loopCalls (body : List Stmt) : List (NodeId × BlockRef) := loopedOfAll calls body

end Stmt

namespace Program

/-- One step of the statements that are left to run: the functions that it enters and what is left after it.
The choice says which branch is taken, and whether a loop is left or gone through once more. -/
def next (P : Program) (choice : Nat) : List Stmt → Option (List String × List Stmt)
  | [] | .call _ _ :: _ => none
  | .assign _ _ _ :: k => some ([], k)
  | .choice _ branches :: k =>
    if (branches.take choice).all (·.condition.isSome) then some ([], (branches[choice]?.elim [] (·.body)) ++ k)
    else none
  | .loop i condition body :: k =>
    some ([], if choice = 0 then k else body ++ .loop i condition body :: k)
  | .expr i e :: k =>
    match e.enters? i with
    | none => some ([], k)
    | some n => (P.function? n).map fun F => ([n], F.body ++ k)
  | .group _ body :: k => some ([], body ++ k)

/-- A run from the entry: the functions that it has entered so far, and what is left to run. -/
inductive Runs (P : Program) (entry : String) : List String → List Stmt → Prop
  | start {F} : P.function? entry = some F → Runs P entry [entry] F.body
  | step {entered k choice more k'} : Runs P entry entered k → P.next choice k = some (more, k') →
      Runs P entry (entered ++ more) k'

/-- The run that makes the given choices. -/
def follow (P : Program) (choices : List Nat) (entry : String) : Option (List String × List Stmt) := do
  let F ← P.function? entry
  choices.foldlM (fun (entered, k) choice => do
    let (more, k') ← P.next choice k
    return (entered ++ more, k')) ([entry], F.body)

end Program

/-! ## Counting what is entered -/

namespace Stmt

variable {n : String}

theorem entriesOfAll_append (front back : List Stmt) :
    entriesOfAll (front ++ back) = entriesOfAll front ++ entriesOfAll back := by
  induction front with
  | nil => rfl
  | cons x front ih => simp [entriesOfAll, ih]

theorem loopEntries_cons (x : Stmt) (rest : List Stmt) :
    loopEntries (x :: rest) = looped entriesOfAll x ++ loopEntries rest := rfl

theorem loopCalls_cons (x : Stmt) (rest : List Stmt) : loopCalls (x :: rest) = looped calls x ++ loopCalls rest := rfl

theorem loopEntries_append (front back : List Stmt) :
    loopEntries (front ++ back) = loopEntries front ++ loopEntries back := by
  induction front with
  | nil => rfl
  | cons x front ih => simp [loopEntries_cons, ih]

section

variable {α : Type} {inner : List Stmt → List α}

/-- What is said of statements is said of the statements in which they stand. -/
structure Spreads (inner : List Stmt → List α) : Prop where
  rest (x : Stmt) (rest : List Stmt) : inner rest ⊆ inner (x :: rest)
  choice (i : NodeId) {branches : List Branch} (rest : List Stmt) {b : Branch} : b ∈ branches →
    inner b.body ⊆ inner (.choice i branches :: rest)
  loop (i : NodeId) (condition : Expr) (body rest : List Stmt) : inner body ⊆ inner (.loop i condition body :: rest)
  group (i : NodeId) (body rest : List Stmt) : inner body ⊆ inner (.group i body :: rest)

mutual

theorem looped_subset (h : Spreads inner) (x : Stmt) (rest : List Stmt) : looped inner x ⊆ inner (x :: rest) := by
  match x with
  | .assign _ _ _ | .call _ _ | .expr _ _ => exact List.nil_subset _
  | .choice i branches =>
      intro a ha
      obtain ⟨b, hb, ha⟩ := exists_of_mem_loopedOfBranches h branches ha
      exact h.choice i rest hb ha
  | .loop i condition body => exact h.loop i condition body rest
  | .group i body => exact List.Subset.trans (loopedOfAll_subset h body) (h.group i body rest)

theorem loopedOfAll_subset (h : Spreads inner) (body : List Stmt) : loopedOfAll inner body ⊆ inner body := by
  match body with
  | [] => exact List.nil_subset _
  | x :: rest =>
      refine List.append_subset.2 ⟨looped_subset h x rest, ?_⟩
      exact List.Subset.trans (loopedOfAll_subset h rest) (h.rest x rest)

theorem exists_of_mem_loopedOfBranches (h : Spreads inner) (branches : List Branch) {a : α}
    (ha : a ∈ loopedOfBranches inner branches) : ∃ b ∈ branches, a ∈ inner b.body := by
  match branches with
  | [] => cases ha
  | .mk condition body :: rest =>
      rcases List.mem_append.1 ha with ha | ha
      · exact ⟨_, List.mem_cons_self, loopedOfAll_subset h body ha⟩
      · obtain ⟨b, hb, ha⟩ := exists_of_mem_loopedOfBranches h rest ha
        exact ⟨b, List.mem_cons_of_mem _ hb, ha⟩

end

end

theorem entriesOfBranches_eq (branches : List Branch) :
    entriesOfBranches branches = branches.flatMap (entriesOfAll ·.body) := by
  induction branches with
  | nil => rfl
  | cons b branches ih =>
      obtain ⟨condition, body⟩ := b
      rw [entriesOfBranches, ih, List.flatMap_cons, Branch.body]

theorem loopedOfBranches_eq {α : Type} (inner : List Stmt → List α) (branches : List Branch) :
    loopedOfBranches inner branches = branches.flatMap (loopedOfAll inner ·.body) := by
  induction branches with
  | nil => rfl
  | cons b branches ih =>
      obtain ⟨condition, body⟩ := b
      rw [loopedOfBranches, ih, List.flatMap_cons, Branch.body]

theorem entries_branch {branches : List Branch} {b : Branch} (hb : b ∈ branches) :
    List.Sublist (entriesOfAll b.body) (entriesOfBranches branches) := by
  rw [entriesOfBranches_eq, List.flatMap_def]
  exact List.sublist_flatten_of_mem (List.mem_map_of_mem hb)

theorem calls_branch {branches : List Branch} {b : Branch} (hb : b ∈ branches) :
    calls b.body ⊆ callsOfBranches branches := by
  induction branches with
  | nil => cases hb
  | cons a branches ih =>
      obtain ⟨condition, body⟩ := a
      rw [callsOfBranches_cons]
      rcases List.mem_cons.1 hb with rfl | hb
      · exact List.subset_append_left _ _
      · exact List.subset_append_of_subset_right _ (ih hb)

theorem spreads_entries : Spreads entriesOfAll where
  rest _ _ := List.subset_append_right _ _
  choice _ _ _ _ hb := List.subset_append_of_subset_left _ (entries_branch hb).subset
  loop _ _ _ _ := List.subset_append_left _ _
  group _ _ _ := List.subset_append_left _ _

theorem spreads_calls : Spreads calls where
  rest x rest := by
    rw [← List.singleton_append, calls_append]
    exact List.subset_append_right _ _
  choice _ _ _ _ hb := by
    rw [calls_choice]
    exact List.subset_append_of_subset_left _ (calls_branch hb)
  loop _ _ _ _ := by
    rw [calls_loop]
    exact List.subset_append_left _ _
  group _ _ _ := by
    rw [calls_group]
    exact List.subset_append_left _ _

end Stmt

namespace Program

variable {P : Program} {n : String}

theorem function?_eq_some {F : Function} (h : P.function? n = some F) : F ∈ P.functions ∧ F.name = n :=
  ⟨List.mem_of_find?_eq_some h, by simpa using List.find?_some h⟩

/-- No function enters the function in a loop, and each does so at most as often as the weight of its name. -/
def EntersWithin (P : Program) (n : String) (weight : String → Nat) : Prop :=
  ∀ F ∈ P.functions, n ∉ Stmt.loopEntries F.body ∧ (Stmt.entriesOfAll F.body).count n ≤ weight F.name

variable {weight : String → Nat} {choice : Nat} {k k' : List Stmt} {more : List String}

/-- What has been entered and what is left to enter together grow by the weight of what is entered. -/
theorem EntersWithin.next (hP : P.EntersWithin n weight) (h : P.next choice k = some (more, k'))
    (hk : n ∉ Stmt.loopEntries k) : n ∉ Stmt.loopEntries k' ∧
      more.count n + (Stmt.entriesOfAll k').count n ≤ (Stmt.entriesOfAll k).count n + (more.map weight).sum := by
  cases k with
  | nil => cases h
  | cons x k =>
      rw [Stmt.loopEntries_cons, List.mem_append, not_or] at hk
      obtain ⟨hx, hk⟩ := hk
      cases x with
      | call _ _ => cases h
      | assign _ _ _ =>
          cases h
          exact ⟨hk, by simp [Stmt.entriesOfAll, Stmt.entries]⟩
      | choice _ branches =>
          simp only [Program.next] at h
          split at h
          · cases h
            cases hb : branches[choice]? with
            | none => exact ⟨hk, by simp [Stmt.entriesOfAll]⟩
            | some b =>
                have hb := List.mem_of_getElem? hb
                have hsub : Stmt.loopEntries b.body ⊆ Stmt.loopedOfBranches Stmt.entriesOfAll branches := by
                  rw [Stmt.loopedOfBranches_eq]
                  exact fun m hm => List.mem_flatMap.2 ⟨b, hb, hm⟩
                have hcount := (Stmt.entries_branch hb).count_le n
                simp only [Option.elim_some, Stmt.loopEntries_append, List.mem_append, not_or, Stmt.entriesOfAll_append,
                  Stmt.entriesOfAll, Stmt.entries, List.count_append]
                exact ⟨⟨fun hn => hx (hsub hn), hk⟩, by simpa using hcount⟩
          · cases h
      | loop i condition body =>
          cases h
          split
          · exact ⟨hk, by simp [Stmt.entriesOfAll]⟩
          · -- the body of the loop does not enter the function, so that it can run again
            have hbody : (Stmt.entriesOfAll body).count n = 0 := List.count_eq_zero.2 hx
            simp only [Stmt.loopEntries_append, Stmt.loopEntries_cons, List.mem_append, not_or,
              Stmt.entriesOfAll_append, List.count_append, hbody]
            exact ⟨⟨fun hn => hx (Stmt.loopedOfAll_subset Stmt.spreads_entries body hn), hx, hk⟩, by simp⟩
      | expr i e =>
          simp only [Program.next] at h
          split at h
          · cases h
            exact ⟨hk, by simp [Stmt.entriesOfAll]⟩
          · next m hm =>
            obtain ⟨F, hF, h⟩ := Option.map_eq_some_iff.1 h
            cases h
            obtain ⟨hmem, rfl⟩ := function?_eq_some hF
            obtain ⟨hloop, hcount⟩ := hP F hmem
            simp only [Stmt.loopEntries_append, List.mem_append, not_or, Stmt.entriesOfAll_append, Stmt.entriesOfAll,
              Stmt.entries, hm, Option.toList_some, List.count_append, List.map_singleton, List.sum_singleton]
            exact ⟨⟨hloop, hk⟩, by omega⟩
      | group _ body =>
          cases h
          simp only [Stmt.loopEntries_append, List.mem_append, not_or, Stmt.entriesOfAll_append, Stmt.entriesOfAll,
            Stmt.entries]
          exact ⟨⟨hx, hk⟩, by simp⟩

/-- A function is entered at most as often as the functions that enter it weigh together. -/
theorem EntersWithin.runs (hP : P.EntersWithin n weight) {entry : String} {entered : List String}
    (h : P.Runs entry entered k) : n ∉ Stmt.loopEntries k ∧
      entered.count n + (Stmt.entriesOfAll k).count n ≤ [entry].count n + (entered.map weight).sum := by
  induction h with
  | start hF =>
      obtain ⟨hmem, rfl⟩ := function?_eq_some hF
      obtain ⟨hloop, hcount⟩ := hP _ hmem
      exact ⟨hloop, by simpa using hcount⟩
  | step _ hnext ih =>
      obtain ⟨hloop, hcount⟩ := hP.next hnext ih.1
      refine ⟨hloop, ?_⟩
      have := ih.2
      simp only [List.count_append, List.map_append, List.sum_append]
      omega

theorem runs_of_follow {choices : List Nat} {entry : String} {entered : List String}
    (h : P.follow choices entry = some (entered, k)) : P.Runs entry entered k := by
  rw [follow, Option.bind_eq_bind, Option.bind_eq_some_iff] at h
  obtain ⟨F, hF, h⟩ := h
  have hstart : P.Runs entry [entry] F.body := .start hF
  generalize [entry] = before, F.body = k₀ at h hstart
  induction choices generalizing before k₀ with
  | nil =>
      cases h
      exact hstart
  | cons choice choices ih =>
      rw [List.foldlM_cons] at h
      obtain ⟨⟨before', k'⟩, hnext, h⟩ := Option.bind_eq_some_iff.1 h
      obtain ⟨⟨more, k''⟩, hnext, hpure⟩ := Option.bind_eq_some_iff.1 hnext
      cases hpure
      exact ih _ _ h (hstart.step hnext)

end Program

/-! ## What lowered blocks enter -/

namespace Stmt

variable {σ : Type} {R : σ → NodeId → BlockRef → List Stmt → σ → Prop} {s s' : σ}

mutual

/-- Where each call is replaced by one that enters the callee, the functions that are entered are the callees. -/
theorem entries_of_mapsAll (hR : ∀ s i callee front s', R s i callee front s' →
      entriesOfAll front = [callee.name] ∧ loopEntries front = [])
    (f : Expr → Expr) (body : List Stmt) (hids : .unnumbered ∉ ids body) {body' : List Stmt} {s s' : σ}
    (h : MapsAll R s (mapExprsOfAll f body) body' s') : entriesOfAll body' = (calls body).map (·.2.name) ∧
      loopEntries body' = (loopCalls body).map (·.2.name) := by
  match body with
  | [] =>
      cases h
      exact ⟨rfl, rfl⟩
  | .assign i e e' :: rest =>
      cases h with
      | assign h =>
        rw [ids_assign, Multiset.mem_add, not_or] at hids
        obtain ⟨he, hl⟩ := entries_of_mapsAll hR f rest hids.2 h
        simp [entriesOfAll, entries, loopEntries_cons, loopCalls_cons, looped, he, hl]
  | .call i callee :: rest =>
      cases h with
      | call hfront h =>
        rw [← List.singleton_append, ids_append, Multiset.mem_add, not_or] at hids
        obtain ⟨hf, hfl⟩ := hR _ _ _ _ _ hfront
        obtain ⟨he, hl⟩ := entries_of_mapsAll hR f rest hids.2 h
        simp [entriesOfAll_append, loopEntries_append, loopCalls_cons, looped, he, hl, hf, hfl]
  | .choice i branches :: rest =>
      cases h with
      | choice hb h =>
        rw [ids_choice, Multiset.mem_add, Multiset.mem_add, not_or, not_or] at hids
        obtain ⟨hbe, hbl⟩ := entries_of_mapsBranches hR f branches hids.1.2 hb
        obtain ⟨he, hl⟩ := entries_of_mapsAll hR f rest hids.2 h
        simp [entriesOfAll, entries, loopEntries_cons, loopCalls_cons, looped, he, hl, hbe, hbl]
  | .loop i e body :: rest =>
      cases h with
      | loop hb h =>
        rw [ids_loop, Multiset.mem_add, Multiset.mem_add, Multiset.mem_add] at hids
        obtain ⟨hbe, hbl⟩ := entries_of_mapsAll hR f body (fun hi => hids (by simp [hi])) hb
        obtain ⟨he, hl⟩ := entries_of_mapsAll hR f rest (fun hi => hids (by simp [hi])) h
        simp [entriesOfAll, entries, loopEntries_cons, loopCalls_cons, looped, he, hl, hbe]
  | .expr i e :: rest =>
      cases h with
      | expr h =>
        rw [ids_expr, Multiset.mem_add, Multiset.mem_add, Multiset.mem_singleton] at hids
        obtain ⟨he, hl⟩ := entries_of_mapsAll hR f rest (fun hi => hids (by simp [hi])) h
        have henters : (f e).enters? i = none := Expr.enters?_of_numbered fun hi => hids (by simp [hi])
        simp [entriesOfAll, entries, loopEntries_cons, loopCalls_cons, looped, he, hl, henters]
  | .group i body :: rest =>
      cases h with
      | group hb h =>
        rw [ids_group, Multiset.mem_add, Multiset.mem_add, not_or, not_or] at hids
        obtain ⟨hbe, hbl⟩ := entries_of_mapsAll hR f body hids.1.2 hb
        obtain ⟨he, hl⟩ := entries_of_mapsAll hR f rest hids.2 h
        simp only [loopEntries, loopCalls] at hbl
        simp [entriesOfAll, entries, loopEntries_cons, loopCalls_cons, looped, he, hl, hbe, hbl]

theorem entries_of_mapsBranches (hR : ∀ s i callee front s', R s i callee front s' →
      entriesOfAll front = [callee.name] ∧ loopEntries front = [])
    (f : Expr → Expr) (branches : List Branch) (hids : .unnumbered ∉ idsOfBranches branches) {branches' : List Branch}
    {s s' : σ} (h : MapsBranches R s (mapExprsOfBranches f branches) branches' s') :
    entriesOfBranches branches' = (callsOfBranches branches).map (·.2.name) ∧
      loopedOfBranches entriesOfAll branches' = (loopedOfBranches calls branches).map (·.2.name) := by
  match branches with
  | [] =>
      cases h
      exact ⟨rfl, rfl⟩
  | .mk condition body :: rest =>
      cases h with
      | cons hb h =>
        rw [idsOfBranches_cons, Multiset.mem_add, Multiset.mem_add] at hids
        obtain ⟨hbe, hbl⟩ := entries_of_mapsAll hR f body (fun hi => hids (by simp [hi])) hb
        obtain ⟨he, hl⟩ := entries_of_mapsBranches hR f rest (fun hi => hids (by simp [hi])) h
        simp only [loopEntries, loopCalls] at hbl
        simp [entriesOfBranches, loopedOfBranches, he, hl, hbe, hbl]

end

theorem nodup_calls {body : List Stmt} (h : (ids body).Nodup) : ((calls body).map Prod.fst).Nodup := by
  refine (Multiset.coe_nodup.1 h).sublist (filterMap_map_sublist ?_ _)
  rintro (x | _) c hc
  · cases x <;> cases hc
    rfl
  · cases hc

end Stmt

/-- A function enters those that its block calls, in loops where the block does. -/
theorem Function.Lowers.entries {g : Graph} {p : Placement} {t : Trace} {ps : Parameters} {b : Block} {F : Function}
    (hF : F.Lowers g p t ps b) (hb : .unnumbered ∉ Stmt.ids b.statements) :
    Stmt.entriesOfAll F.body = b.calls.map (·.2.name) ∧
      Stmt.loopEntries F.body = (Stmt.loopCalls b.statements).map (·.2.name) := by
  refine Stmt.entries_of_mapsAll ?_ _ _ hb hF.body
  rintro _ i callee front _ ⟨args, -, rfl⟩
  exact ⟨by simp [Stmt.entriesOfAll, Stmt.entries, Expr.enters?, Expr.generated, Variable.free], rfl⟩

/-! ## The calls on the way to a declaration -/

theorem CallPath.eq_of_start {p q front back : CallPath} {a b : CallSite} (h : front ++ a :: back <+: p ++ b :: q)
    (hn : (CallPath.entered (p ++ b :: q)).Nodup) (hab : a.block = b.block) : p = front ∧ b = a := by
  obtain ⟨rest, hrest⟩ := h
  rw [List.append_assoc, List.cons_append, List.append_eq_append_iff] at hrest
  simp only [entered, List.map_append, List.map_cons, List.nodup_append, List.nodup_cons, List.mem_cons] at hn
  rcases hrest with ⟨between, rfl, heq⟩ | ⟨between, rfl, heq⟩
  · cases between with
    | nil =>
        cases heq
        exact ⟨by simp, rfl⟩
    | cons _ between =>
        obtain ⟨rfl, -⟩ := List.cons.inj heq
        exact absurd hab (hn.2.2 a.block (by simp) b.block (Or.inl rfl))
  · cases between with
    | nil =>
        cases heq
        exact ⟨by simp, rfl⟩
    | cons _ between =>
        cases heq
        exact absurd (by simp [hab]) hn.2.1.1

namespace Trace

variable {bs : BlockSet} {root : Block} {t : Trace} {w : Visit} {c : ChunkId}

theorem exists_mention_of_stem (hstem : t.stem c ≠ []) : ∃ x ∈ t.visits, x.mentions c = true := by
  by_contra hcon
  refine hstem ?_
  have hnil : t.paths c = [] := by
    rw [paths, List.map_eq_nil_iff, List.filter_eq_nil_iff]
    exact fun w hw hm => hcon ⟨w, hw, hm⟩
  rw [stem, hnil]
  rfl

/-- A block that does not reach itself, on the part that all paths to a chunk have in common, is called in one
place. -/
theorem caller_of_stem (h : ofBlock bs root true = .ok t) (hroot : bs.find? root.name = some root)
    {front back : CallPath} {site : CallSite} (hstem : t.stem c = front ++ site :: back) {b : Block}
    (hb : bs.find? site.block = some b) (hrec : ∀ r, r ≠ [] → ¬ Walk bs b r b) (hw : w ∈ t.visits) {call : NodeId}
    {callee : BlockRef} (hc : (call, callee) ∈ w.block.calls) (hr : bs.resolve callee = .ok b) :
    w.path = front ∧ call = site.call := by
  obtain ⟨x, hx, hm⟩ := exists_mention_of_stem (t := t) (c := c) (by simp [hstem])
  obtain ⟨rest, hrest⟩ := stem_start hx hm
  rw [hstem, List.append_assoc, List.cons_append] at hrest
  obtain ⟨hwalk, hfresh⟩ := (mem_visits h).1 hx
  rw [← hrest] at hwalk hfresh
  -- from the block on, the path goes as it does behind any other call of the block
  have hname := BlockSet.name_of_find? hb
  have hbelow : Walk bs b (back ++ rest) x.block := by
    obtain ⟨_, -, hback⟩ := hwalk.split
    obtain ⟨_, b', -, hb', hname', hback⟩ := hback.head
    have hf := BlockSet.find?_of_resolve hb'
    rw [← BlockSet.name_of_find? hf, hname', hb, Option.some.injEq] at hf
    exact hf ▸ hback
  have hy := mem_visits_of_call h hroot hw hc hr hbelow (hname ▸ hfresh.after) fun q hq =>
    hrec _ (by simp) (hq.append (.cons hc hr .nil))
  have hstart := stem_start (c := c) hy hm
  rw [hstem] at hstart
  obtain ⟨-, hnodup, -⟩ := (mem_visits h).1 hy
  obtain ⟨hpath, hsite⟩ := CallPath.eq_of_start hstart hnodup hname.symm
  exact ⟨hpath, congrArg CallSite.call hsite⟩

end Trace

theorem sum_count_singleton (n : String) (l : List String) : (l.map ([n].count ·)).sum = l.count n := by
  induction l with
  | nil => rfl
  | cons m l ih =>
      by_cases hm : m = n
      · simp [ih, hm, Nat.add_comm]
      · simp [ih, hm, Ne.symm hm]

namespace Graph.Prepared

variable {g : Graph} {bs : BlockSet} {p : Placement} {t : Trace} {ps : Parameters} {P : Program} {n : String}

/-- A bound on the calls of a block, and none of them in a loop, is a bound on what its function enters. -/
theorem entersWithin (h : g.Prepared bs p t ps)
    (hP : List.Forall₂ (fun f F => ∃ b, bs.find? f = some b ∧ F.Lowers g p t ps b) t.blocks P.functions)
    {weight : String → Nat} (hcalls : ∀ w ∈ t.visits, (∀ c ∈ w.block.calls, c.2.name = n →
      c ∉ Stmt.loopCalls w.block.statements) ∧ (w.block.calls.map (·.2.name)).count n ≤ weight w.block.name) :
    P.EntersWithin n weight := by
  intro F hF
  obtain ⟨f, hf, b, hb, hF⟩ := forall₂_mem_right hP hF
  obtain ⟨w, hw, rfl⟩ := Trace.mem_blocks.1 hf
  obtain rfl := Option.some.inj ((h.find?_visit hw).symm.trans hb)
  have hids : .unnumbered ∉ Stmt.ids w.block.statements := fun hi =>
    h.placed.numbered (BlockSet.mem_ids.2 ⟨_, BlockSet.mem_of_find? hb, hi⟩)
  obtain ⟨hentries, hloop⟩ := hF.entries hids
  obtain ⟨hnot, hcount⟩ := hcalls w hw
  rw [hentries, hloop, hF.name]
  refine ⟨fun hn => ?_, hcount⟩
  obtain ⟨c, hc, rfl⟩ := List.mem_map.1 hn
  exact hnot c (Stmt.loopedOfAll_subset Stmt.spreads_calls _ hc) rfl hc

/-- Only the call that the chunk's paths share enters the function behind it, and from no loop. -/
theorem entersWithin_of_stem (h : g.Prepared bs p t ps)
    (hP : List.Forall₂ (fun f F => ∃ b, bs.find? f = some b ∧ F.Lowers g p t ps b) t.blocks P.functions)
    {c : ChunkId} {front back : CallPath} {site : CallSite} (hstem : t.stem c = front ++ site :: back)
    (hrec : ∀ b r, bs.find? site.block = some b → r ≠ [] → ¬ Walk bs b r b)
    (hloop : ∀ b ∈ bs.toList, site.call ∉ (Stmt.loopCalls b.statements).map (·.1)) :
    P.EntersWithin site.block ([front.getLast?.elim t.root (·.block)].count ·) := by
  obtain ⟨root, hroot, ht⟩ := h.traced
  have hroot' : bs.find? root.name = some root := (BlockSet.name_of_find? hroot).symm ▸ hroot
  refine h.entersWithin hP fun w hw => ?_
  have hb := BlockSet.mem_of_find? (h.find?_visit hw)
  have hcaller {call : NodeId × BlockRef} (hc : call ∈ w.block.calls) (hname : call.2.name = site.block) :
      w.path = front ∧ call.1 = site.call := by
    obtain ⟨b, -, -, hres⟩ := h.placed.linked w.block hb call hc
    have hf := BlockSet.find?_of_resolve hres
    rw [hname] at hf
    exact Trace.caller_of_stem ht hroot' hstem hf (fun r => hrec b r hf) hw hc hres
  constructor
  · intro call hc hname hmem
    exact hloop w.block hb (List.mem_map.2 ⟨call, hmem, (hcaller hc hname).2⟩)
  · by_cases hpath : w.path = front
    · have hlast := ((Trace.mem_visits ht).1 hw).1.last
      rw [hpath, ← (Trace.ofBlock_eq_ok ht).1] at hlast
      -- all calls of the block by its caller have one identity, and so there is one at most
      calc (w.block.calls.map (·.2.name)).count site.block
          ≤ (w.block.calls.map Prod.fst).count site.call := by
            simp only [List.count, List.countP_map]
            exact List.countP_mono_left fun call hc hname => by simpa using (hcaller hc (by simpa using hname)).2
        _ ≤ 1 := List.nodup_iff_count_le_one.1 (Stmt.nodup_calls (BlockSet.nodup_block_ids h.placed.ids hb)) _
        _ = [front.getLast?.elim t.root (·.block)].count w.block.name := by rw [hlast, List.count_singleton_self]
    · have hnone : site.block ∉ w.block.calls.map (·.2.name) := by
        intro hn
        obtain ⟨call, hc, hname⟩ := List.mem_map.1 hn
        exact hpath (hcaller hc hname).1
      rw [List.count_eq_zero.2 hnone]
      exact Nat.zero_le _

/-- A block that does not reach itself is not called if the trace starts with it. -/
theorem entersWithin_root (h : g.Prepared bs p t ps)
    (hP : List.Forall₂ (fun f F => ∃ b, bs.find? f = some b ∧ F.Lowers g p t ps b) t.blocks P.functions)
    (hrec : ∀ b r, bs.find? g.entry = some b → r ≠ [] → ¬ Walk bs b r b) : P.EntersWithin g.entry fun _ => 0 := by
  obtain ⟨root, hroot, ht⟩ := h.traced
  have hnone {w : Visit} (hw : w ∈ t.visits) {c : NodeId × BlockRef} (hc : c ∈ w.block.calls) : c.2.name ≠ g.entry := by
    intro hname
    obtain ⟨b, -, -, hres⟩ := h.placed.linked w.block (BlockSet.mem_of_find? (h.find?_visit hw)) c hc
    have hf := BlockSet.find?_of_resolve hres
    rw [hname, hroot, Option.some.injEq] at hf
    subst hf
    exact hrec root _ hroot (by simp) (((Trace.mem_visits ht).1 hw).1.append (.cons hc hres .nil))
  refine h.entersWithin hP fun w hw => ⟨fun c hc hname => absurd hname (hnone hw hc), ?_⟩
  rw [List.count_eq_zero.2]
  intro hn
  obtain ⟨c, hc, hname⟩ := List.mem_map.1 hn
  exact hnone hw hc hname

/-- A run enters each function on the way to a declaration once at most. -/
theorem count_le_one (h : g.Prepared bs p t ps)
    (hP : List.Forall₂ (fun f F => ∃ b, bs.find? f = some b ∧ F.Lowers g p t ps b) t.blocks P.functions)
    {c : ChunkId} (hrec : ∀ n ∈ g.entry :: CallPath.entered (t.stem c), ∀ b r, bs.find? n = some b → r ≠ [] →
      ¬ Walk bs b r b)
    (hloop : ∀ site ∈ t.stem c, ∀ b ∈ bs.toList, site.call ∉ (Stmt.loopCalls b.statements).map (·.1))
    {entered : List String} {k : List Stmt} (hruns : P.Runs g.entry entered k) {front : CallPath}
    (hfront : front <+: t.stem c) : entered.count (front.getLast?.elim t.root (·.block)) ≤ 1 := by
  obtain ⟨root, hroot, ht⟩ := h.traced
  have htroot : t.root = g.entry := (Trace.ofBlock_eq_ok ht).1.trans (BlockSet.name_of_find? hroot)
  induction front using List.reverseRecOn with
  | nil =>
      have hcount := ((h.entersWithin_root hP (hrec _ (by simp))).runs hruns).2
      have hzero : (entered.map fun _ => 0).sum = 0 := by simp
      rw [List.count_singleton_self, hzero] at hcount
      rw [List.getLast?_nil, Option.elim_none, htroot]
      omega
  | append_singleton front site ih =>
      obtain ⟨back, hstem⟩ := hfront
      rw [List.append_assoc, List.singleton_append] at hstem
      have hsite : site ∈ t.stem c := by simp [← hstem]
      have hwithin := h.entersWithin_of_stem hP hstem.symm
        (hrec _ (List.mem_cons_of_mem _ (List.mem_map_of_mem hsite))) (hloop site hsite)
      have hcount := (hwithin.runs hruns).2
      have hne : g.entry ≠ site.block := by
        obtain ⟨x, hx, hm⟩ := Trace.exists_mention_of_stem (t := t) (c := c) (by simp [← hstem])
        obtain ⟨-, -, hfresh⟩ := (Trace.mem_visits ht).1 hx
        have hmem := (Trace.stem_start hx hm).subset hsite
        exact fun e => hfresh _ (List.mem_map_of_mem hmem) (by simp [← e, BlockSet.name_of_find? hroot])
      have hcaller := ih ⟨site :: back, hstem⟩
      have hzero : [g.entry].count site.block = 0 := List.count_eq_zero.2 (by simpa using hne.symm)
      rw [hzero, sum_count_singleton] at hcount
      rw [List.getLast?_concat, Option.elim_some]
      omega

end Graph.Prepared

/-- A run enters the function that declares a local chunk once at most, if none of the calls that all paths to
the chunk start with stands in a loop and no function that these calls go through reaches itself. -/
theorem LowersTo.entered_once {d : Description} {p : Placement} {g : Graph} {bs : BlockSet} {P : Program}
    (h : LowersTo d p g bs P) {root : Block} (hroot : bs.get g.entry = .ok root) {t : Trace}
    (ht : Trace.ofBlock bs root true = .ok t) {F : Function} (hF : F ∈ P.functions) {c : Chunk}
    (hc : c ∈ g.chunksAt p t F.name)
    (hloop : ∀ site ∈ t.stem c.id, ∀ b ∈ bs.toList, site.call ∉ (Stmt.loopCalls b.statements).map (·.1))
    (hrec : ∀ n ∈ g.entry :: CallPath.entered (t.stem c.id), ∀ b, bs.find? n = some b →
      b.reachesItself bs = .ok false) :
    c.vars ⊆ F.statics ++ F.locals ∧ ∀ entered k, P.Runs g.entry entered k → entered.count F.name ≤ 1 := by
  obtain ⟨t', ps, hprep, -, hP⟩ := Graph.lower_eq_ok h.lowered h.placed
  obtain ⟨root', hroot', ht'⟩ := hprep.traced
  obtain rfl : root' = root := Option.some.inj (hroot'.symm.trans (BlockSet.get_eq_ok.1 hroot))
  obtain rfl : t' = t := Except.ok.inj (ht'.symm.trans ht)
  obtain ⟨hc, hplaced⟩ := List.mem_filter.1 hc
  rw [Bool.and_eq_true, beq_iff_eq] at hplaced
  obtain ⟨hlocal, hsite⟩ := hplaced
  obtain ⟨f, -, b, hb, hlowers⟩ := forall₂_mem_right hP hF
  have hname := hlowers.name
  refine ⟨fun d hd => hlowers.mem_declared.2 ⟨c, hc, hlocal, hsite.trans hname, hd⟩, fun entered k hruns => ?_⟩
  have htied : bs.Tied := by
    obtain ⟨_, _, _, _, _, -, -, -, -, hrep⟩ := h.spliced
    exact BlockSet.tied_of_repaired hrep
  rw [← hsite, Trace.site_eq]
  refine hprep.count_le_one hP (fun n hn b r hb hr hwalk => ?_) hloop hruns List.prefix_rfl
  have htrue := Block.reachesItself_of_walk htied (BlockSet.mem_of_find? hb) hr hwalk
  rw [hrec n hn b hb] at htrue
  cases htrue

/-- Both calls of `leaf` are made by `relay`, where their variable is declared. -/
def Description.relaying : Description where
  entry := "main"
  externs := []
  chunks := [⟨none, true, false, false, [⟨"x", "int", none⟩]⟩]
  blocks := [
    ⟨"main", true, false, false, [.call "relay"]⟩,
    ⟨"relay", true, false, false, [.call "leaf", .call "leaf"]⟩,
    ⟨"leaf", true, false, false, [.assign (.var "x") (.value "1")]⟩]

theorem entered_once_relaying : ∃ p g bs P root t F c, LowersTo Description.relaying p g bs P ∧
    bs.get g.entry = .ok root ∧ Trace.ofBlock bs root true = .ok t ∧ F ∈ P.functions ∧ c ∈ g.chunksAt p t F.name ∧
    F.name ≠ g.entry ∧ ∀ entered k, P.Runs g.entry entered k → entered.count F.name ≤ 1 := by
  let p : Placement := ⟨["main", "relay", "leaf"], [], [⟨1⟩]⟩
  have h : (do
      let l ← Description.relaying.lowering? p
      let F ← l.program.function? "relay"
      let c ← (l.graph.chunksAt p l.trace F.name).head?
      Option.guard (fun _ => F.name ≠ l.graph.entry ∧ (∀ site ∈ l.trace.stem c.id, ∀ b ∈ l.blocks.toList,
        site.call ∉ (Stmt.loopCalls b.statements).map (·.1)) ∧
        ∀ n ∈ l.graph.entry :: CallPath.entered (l.trace.stem c.id),
          ((l.blocks.find? n).all fun b => (b.reachesItself l.blocks).toOption = some false) = true) ()
      : Option Unit).isSome = true := by
    decide +kernel
  simp only [Option.isSome_iff_exists, Option.bind_eq_bind, Option.bind_eq_some_iff, Option.guard_eq_some_iff,
    decide_eq_true_eq] at h
  obtain ⟨_, l, hl, F, hF, c, hc, -, hne, hloop, hrec⟩ := h
  obtain ⟨hlower, hroot, ht, -⟩ := Description.lowersTo_of_lowering? hl
  obtain ⟨hF, -⟩ := Program.function?_eq_some hF
  have hc := List.mem_of_head? hc
  refine ⟨p, _, _, _, _, _, F, c, hlower, hroot, ht, hF, hc, hne, ?_⟩
  refine (hlower.entered_once hroot ht hF hc hloop fun n hn b hb => ?_).2
  have hrec := hrec n hn
  rw [hb] at hrec
  simpa [toOption_eq_some] using hrec

/-- The variable of `leaf` is declared in it, and a loop of `main` calls it. -/
def Description.looping : Description where
  entry := "main"
  externs := []
  chunks := [⟨none, true, false, false, [⟨"x", "int", none⟩]⟩]
  blocks := [
    ⟨"main", true, false, false, [.loop (.value "1") [.call "leaf"]]⟩,
    ⟨"leaf", true, false, false, [.assign (.var "x") (.op "+" [.var "x", .value "1"])]⟩]

/-- The variable of `leaf` is declared in it, and `leaf` calls itself. -/
def Description.recursing : Description where
  entry := "main"
  externs := []
  chunks := [⟨none, true, false, false, [⟨"x", "int", none⟩]⟩]
  blocks := [
    ⟨"main", true, false, false, [.call "leaf"]⟩,
    ⟨"leaf", true, false, false, [.assign (.var "x") (.op "+" [.var "x", .value "1"]), .call "leaf"]⟩]

namespace Description

/-- A run of a program of the description enters the function more than once that declares a chunk, though the
chunk is not static and the function is not the entry. -/
def EntersAgain (d : Description) : Prop :=
  ∃ p g bs P root t F c, LowersTo d p g bs P ∧ bs.get g.entry = .ok root ∧ Trace.ofBlock bs root true = .ok t ∧
    F ∈ P.functions ∧ c ∈ g.chunksAt p t F.name ∧ c.constraint.isStatic = false ∧ F.name ≠ g.entry ∧
    ∃ entered k, P.Runs g.entry entered k ∧ 1 < entered.count F.name

/-- A chunk that `leaf` declares, if a run that goes on wherever it can enters `leaf` more than once in five
steps. -/
def enteredAgain? (d : Description) (p : Placement) : Option Diversity.Chunk := do
  let l ← d.lowering? p
  let F ← l.program.function? "leaf"
  let c ← (l.graph.chunksAt p l.trace F.name).head?
  let (entered, _) ← l.program.follow [1, 1, 1, 1, 1] l.graph.entry
  Option.guard (fun c => c.constraint.isStatic = false ∧ F.name ≠ l.graph.entry ∧ 1 < entered.count F.name) c

theorem entersAgain_of_enteredAgain? {d : Description} {p : Placement} (h : (d.enteredAgain? p).isSome = true) :
    d.EntersAgain := by
  simp only [enteredAgain?, Option.isSome_iff_exists, Option.bind_eq_bind, Option.bind_eq_some_iff,
    Option.guard_eq_some_iff, decide_eq_true_eq] at h
  obtain ⟨_, l, hl, F, hF, c, hc, ⟨entered, k⟩, hfollow, rfl, hstatic, hne, hcount⟩ := h
  obtain ⟨hlower, hroot, ht, -⟩ := lowersTo_of_lowering? hl
  obtain ⟨hF, -⟩ := Program.function?_eq_some hF
  exact ⟨p, _, _, _, _, _, F, c, hlower, hroot, ht, hF, List.mem_of_head? hc, hstatic, hne, entered, k,
    Program.runs_of_follow hfollow, hcount⟩

end Description

theorem entered_again : Description.looping.EntersAgain ∧ Description.recursing.EntersAgain := by
  constructor <;>
    exact Description.entersAgain_of_enteredAgain? (p := ⟨["main", "leaf"], [], [⟨1⟩]⟩) (by decide +kernel)

end Diversity
