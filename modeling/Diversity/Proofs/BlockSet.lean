import Diversity.Program.Lowering
import Diversity.Proofs.MappedCalls
import Mathlib.Data.List.Nodup
/-! Block sets: what is found by name, which lists make a set, and what repairing the calls of a list
gives. -/
namespace Diversity

namespace BlockSet

variable {bs bs' : BlockSet} {name : String} {b : Block}

/-- A position in the index is that of a block with the name. -/
theorem exists_of_position {i : ℕ} (h : bs.index.find? name = some i) :
    ∃ b, bs.toList[i]? = some b ∧ b.name = name := by
  rw [bs.indexed] at h
  obtain ⟨b, hb, hname⟩ := NameIndex.exists_of_find? h
  exact ⟨b, hb, Option.some.inj hname⟩

theorem getElem?_names {i : ℕ} (h : bs.index.find? name = some i) : bs.names[i]? = some name := by
  obtain ⟨b, hb, rfl⟩ := exists_of_position h
  rw [names, List.getElem?_map, hb, Option.map_some]

theorem contains_iff : bs.contains name = true ↔ name ∈ bs.names := by
  rw [contains, Option.isSome_iff_ne_none, ne_eq, bs.indexed, NameIndex.find?_of_eq_none, not_not]
  simp [names]

theorem find?_eq_none : bs.find? name = none ↔ name ∉ bs.names := by
  rw [find?, bs.indexed, NameIndex.lookup_eq_none]
  simp [names]

theorem mem_names_of_find? (h : bs.find? name = some b) : name ∈ bs.names :=
  name_of_find? h ▸ List.mem_map_of_mem (mem_of_find? h)

theorem find?_name (hn : bs.names.Nodup) (hb : b ∈ bs.toList) : bs.find? b.name = some b := by
  cases hf : bs.find? b.name with
  | none => exact absurd (List.mem_map_of_mem hb) (find?_eq_none.1 hf)
  | some c => rw [List.inj_on_of_nodup_map hn (mem_of_find? hf) hb (name_of_find? hf)]

theorem resolve_eq_ok {callee : BlockRef} :
    bs.resolve callee = .ok b ↔ bs.find? callee.name = some b ∧ b.id = callee.id := by
  unfold resolve
  cases hf : bs.find? callee.name with
  | none => simp
  | some c =>
    by_cases hid : c.id = callee.id
    · simp only [hid, ↓reduceIte, Except.ok.injEq, Option.some.injEq]
      exact ⟨fun h => ⟨h, h ▸ hid⟩, fun h => h.1⟩
    · simp only [hid, ↓reduceIte, Option.some.injEq, reduceCtorEq, false_iff]
      rintro ⟨rfl, h⟩
      exact hid h

theorem get_eq_ok : bs.get name = .ok b ↔ bs.find? name = some b := by
  unfold get
  cases bs.find? name with
  | none => simp
  | some c => simp

theorem names_append (bs : BlockSet) (blocks : List Block) :
    names (.of (bs.toList ++ blocks)) = bs.names ++ blocks.map (·.name) :=
  List.map_append

theorem insert_eq_ok : bs.insert b = .ok bs' ↔ b.name ∉ bs.names ∧ bs' = .of (bs.toList ++ [b]) := by
  unfold insert
  split
  · next hc => simp [contains_iff.1 hc]
  · next hc =>
    rw [contains_iff] at hc
    simp [hc, BlockSet.ext_iff, eq_comm]

theorem insertAll_eq_ok {blocks : List Block} : bs.insertAll blocks = .ok bs' ↔
    (blocks.map (·.name)).Nodup ∧ (∀ b ∈ blocks, b.name ∉ bs.names) ∧
      bs' = .of (bs.toList ++ blocks) := by
  induction blocks generalizing bs with
  | nil => simp [insertAll, pure, Except.pure, BlockSet.ext_iff, eq_comm]
  | cons b rest ih =>
    have hstep : bs.insertAll (b :: rest) = bs.insert b >>= fun bs => bs.insertAll rest := by
      simp [insertAll]
    rw [hstep, bind_eq_ok]
    simp only [insert_eq_ok, ih]
    constructor
    · rintro ⟨_, ⟨hb, rfl⟩, hn, hrest, rfl⟩
      have hbr : ∀ c ∈ rest, c.name ≠ b.name := fun c hc h => hrest c hc (by simp [names, h])
      refine ⟨?_, ?_, by simp⟩
      · rw [List.map_cons, List.nodup_cons]
        exact ⟨fun h => by
          obtain ⟨c, hc, e⟩ := List.mem_map.1 h
          exact hbr c hc e, hn⟩
      · intro c hc
        rcases List.mem_cons.1 hc with rfl | hc
        · exact hb
        · exact fun h => hrest c hc (by rw [names_append, List.mem_append]; exact Or.inl h)
    · rintro ⟨hn, hrest, rfl⟩
      rw [List.map_cons, List.nodup_cons] at hn
      refine ⟨_, ⟨hrest b List.mem_cons_self, rfl⟩, hn.2, ?_, by simp⟩
      intro c hc h
      rw [names_append, List.mem_append, List.map_singleton, List.mem_singleton] at h
      rcases h with h | h
      · exact hrest c (List.mem_cons_of_mem _ hc) h
      · exact hn.1 (h ▸ List.mem_map_of_mem hc)

theorem ofList_eq_ok {blocks : List Block} :
    ofList blocks = .ok bs ↔ (blocks.map (·.name)).Nodup ∧ bs = .of blocks := by
  simp [ofList, insertAll_eq_ok, empty, names]

theorem replace_eq_ok (h : bs.replace b = .ok bs') :
    ∃ i, bs.index.find? b.name = some i ∧ bs' = .of (bs.toList.set i b) := by
  rw [replace_eq] at h
  cases hi : bs.index.find? b.name with
  | none => simp [hi] at h
  | some i =>
    rw [hi] at h
    cases h
    exact ⟨i, rfl, rfl⟩

theorem names_of_replace (h : bs.replace b = .ok bs') : bs'.names = bs.names := by
  obtain ⟨i, hi, rfl⟩ := replace_eq_ok h
  rw [names, toList_of, List.map_set]
  exact set_eq_self (getElem?_names hi)

theorem mem_of_replace (h : bs.replace b = .ok bs') {c : Block} (hc : c ∈ bs'.toList) : c ∈ bs.toList ∨ c = b := by
  obtain ⟨i, -, rfl⟩ := replace_eq_ok h
  exact List.mem_or_eq_of_mem_set hc

/-- Among distinct names a block takes the place of the one block that has its name. -/
theorem replace_between {front back : List Block} {c : Block} (hn : (names (.of (front ++ c :: back))).Nodup)
    (hname : b.name = c.name) (h : replace (.of (front ++ c :: back)) b = .ok bs') :
    bs' = .of (front ++ b :: back) := by
  obtain ⟨i, hi, rfl⟩ := replace_eq_ok h
  have hi := getElem?_names hi
  obtain rfl : i = front.length := by
    refine (List.getElem?_inj (List.getElem?_eq_some_iff.1 hi).1 hn).1 (hi.trans ?_)
    simp [names, hname]
  simp

/-- A call is pointed at the block of its name. -/
def Redirected (blocks : List Block) (_ : Unit) (i : NodeId) (callee : BlockRef) (front : List Stmt)
    (_ : Unit) : Prop :=
  ∃ b ∈ blocks, b.name = callee.name ∧ front = [.call i b.ref]

/-- Repaired blocks have distinct names and keep all but the identities of callees. -/
theorem repaired_eq_ok {blocks : List Block} (h : repaired blocks = .ok bs) :
    bs.names.Nodup ∧ List.Forall₂ (fun b b' => ∃ body, b' = b.withBody body ∧
      Stmt.MapsAll (Redirected blocks) () b.statements body ()) blocks bs.toList := by
  obtain ⟨c, hc, h⟩ := bind_eq_ok.1 h
  obtain ⟨blocks', hm, ho⟩ := bind_eq_ok.1 h
  obtain ⟨-, rfl⟩ := ofList_eq_ok.1 hc
  obtain ⟨hn, rfl⟩ := ofList_eq_ok.1 ho
  refine ⟨hn, (mapM_eq_ok.1 hm).imp ?_⟩
  intro b b' h
  obtain ⟨body, hbody, h⟩ := bind_eq_ok.1 h
  cases h
  refine ⟨body, rfl, (Stmt.mapsAll_of_gives (gives_iff_ok.2 hbody)).mono ?_⟩
  rintro _ i callee front _ ⟨o, ho, rfl⟩
  rw [gives_iff_ok, redirect] at ho
  split at ho
  · next d hd =>
    cases ho
    exact ⟨d, mem_of_find? hd, name_of_find? hd, rfl⟩
  · cases ho

/-- Blocks that call each other by distinct names can be repaired. -/
theorem exists_repaired {blocks : List Block} (hn : (blocks.map (·.name)).Nodup)
    (hc : ∀ b ∈ blocks, ∀ c ∈ b.calls, c.2.name ∈ blocks.map (·.name)) : ∃ bs, repaired blocks = .ok bs := by
  have hbody : ∀ b ∈ blocks, ∃ body, Stmt.mapCallsOfAll (redirect (.of blocks)) b.statements = .ok body := by
    refine fun b hb => Stmt.exists_mapCallsOfAll b.statements fun c hcb => ?_
    obtain ⟨d, hd, hdc⟩ := List.mem_map.1 (hc b hb c hcb)
    have hfound : (of blocks).find? d.name = some d := find?_name hn hd
    exact ⟨_, by rw [redirect, ← hdc, hfound]⟩
  choose! body hbody using hbody
  refine ⟨.of (blocks.map fun b => b.withBody (body b)), bind_eq_ok.2 ⟨_, ofList_eq_ok.2 ⟨hn, rfl⟩, ?_⟩⟩
  refine bind_eq_ok.2 ⟨_, mapM_eq_ok.2 ?_, ofList_eq_ok.2 ⟨?_, rfl⟩⟩
  · rw [List.forall₂_map_right_iff, List.forall₂_same]
    exact fun b hb => bind_eq_ok.2 ⟨_, hbody b hb, rfl⟩
  · rw [List.map_map]
    exact hn

/-- The names are distinct, and every call names a block of the set. -/
structure Linked (bs : BlockSet) : Prop where
  names : bs.names.Nodup
  calls : ∀ b ∈ bs.toList, ∀ c ∈ b.calls, c.2.name ∈ bs.names

end BlockSet

end Diversity
