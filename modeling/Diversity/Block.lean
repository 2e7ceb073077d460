import Diversity.Error
import Diversity.NameIndex
import Diversity.Stmt.Basic
/-! Blocks: named lists of statements that call each other. -/
namespace Diversity

/-- What a description asks of a block: to be a function, to be spliced in. A `nop` block is a decoy. -/
structure Block.Constraint where
  func : Bool
  inline : Bool
  nop : Bool
  deriving DecidableEq, Inhabited

structure Block where
  id : BlockId
  name : String
  constraint : Block.Constraint
  statements : List Stmt
  deriving Inhabited

namespace Block

def ref (b : Block) : BlockRef := ⟨b.name, b.id⟩

def withBody (b : Block) (statements : List Stmt) : Block := { b with statements }

/-- Neither a function nor spliced in on demand: placed at random. -/
def isUnconstrained (b : Block) : Bool := !b.constraint.func && !b.constraint.inline

def calls (b : Block) : List (NodeId × BlockRef) := Stmt.calls b.statements

def vars (b : Block) : List Variable := Stmt.vars b.statements

end Block

theorem set_eq_self {α : Type} {xs : List α} {i : Nat} {x : α} (h : xs[i]? = some x) : xs.set i x = xs := by
  obtain ⟨hi, rfl⟩ := List.getElem?_eq_some_iff.1 h
  exact List.set_getElem_self hi

/-- Blocks in the order of their insertion, with the index by which they are found. -/
structure BlockSet where
  toList : List Block
  index : NameIndex
  indexed : index = .of (toList.map (some ·.name))

namespace BlockSet

def empty : BlockSet := ⟨[], .empty, rfl⟩

instance : Inhabited BlockSet := ⟨empty⟩

/-- The blocks of a list; of several with one name, the last is found. -/
def of (blocks : List Block) : BlockSet := ⟨blocks, _, rfl⟩

@[simp]
theorem toList_of (blocks : List Block) : (of blocks).toList = blocks := rfl

@[ext]
theorem ext {bs bs' : BlockSet} (h : bs.toList = bs'.toList) : bs = bs' := by
  obtain ⟨blocks, _, rfl⟩ := bs
  obtain ⟨_, _, rfl⟩ := bs'
  cases h
  rfl

@[simp]
theorem of_toList (bs : BlockSet) : of bs.toList = bs := ext rfl

def names (bs : BlockSet) : List String := bs.toList.map (·.name)

def find? (bs : BlockSet) (name : String) : Option Block := bs.index.lookup bs.toList name

def contains (bs : BlockSet) (name : String) : Bool := (bs.index.find? name).isSome

theorem of_find? {bs : BlockSet} {name : String} {b : Block} (h : bs.find? name = some b) :
    b ∈ bs.toList ∧ b.name = name := by
  rw [find?, bs.indexed] at h
  obtain ⟨hb, hname⟩ := NameIndex.of_lookup h
  exact ⟨hb, Option.some.inj hname⟩

theorem mem_of_find? {bs : BlockSet} {name : String} {b : Block} (h : bs.find? name = some b) :
    b ∈ bs.toList :=
  (of_find? h).1

theorem name_of_find? {bs : BlockSet} {name : String} {b : Block} (h : bs.find? name = some b) :
    b.name = name :=
  (of_find? h).2

theorem index_of_map {f : Block → Block} (hf : ∀ b, (f b).name = b.name) (bs : BlockSet) :
    (of (bs.toList.map f)).index = bs.index := by
  rw [BlockSet.indexed, bs.indexed, toList_of, List.map_map]
  exact congrArg NameIndex.of (List.map_congr_left fun b _ => congrArg some (hf b))

/-- Blocks that keep their names are found as before. -/
theorem find?_of_map {f : Block → Block} (hf : ∀ b, (f b).name = b.name) (bs : BlockSet) (name : String) :
    (of (bs.toList.map f)).find? name = (bs.find? name).map f := by
  rw [find?, find?, index_of_map hf, toList_of, NameIndex.lookup, NameIndex.lookup]
  cases bs.index.find? name with
  | none => rfl
  | some i => exact List.getElem?_map

theorem indexed_insert (bs : BlockSet) (b : Block) :
    bs.index.insert b.name bs.toList.length = .of ((bs.toList ++ [b]).map (some ·.name)) := by
  rw [bs.indexed, List.map_append, List.map_singleton, NameIndex.of_concat, List.length_map]

def insert (bs : BlockSet) (b : Block) : Except SynthesisError BlockSet :=
  if bs.contains b.name then .error (.duplicateBlock b.name)
  else .ok ⟨bs.toList ++ [b], bs.index.insert b.name bs.toList.length, bs.indexed_insert b⟩

/-- Inserts the blocks of a list in its order. -/
def insertAll (bs : BlockSet) (blocks : List Block) : Except SynthesisError BlockSet :=
  blocks.foldlM insert bs

def ofList (blocks : List Block) : Except SynthesisError BlockSet := empty.insertAll blocks

theorem indexed_set {bs : BlockSet} {b : Block} {i : Nat} (h : bs.index.find? b.name = some i) :
    bs.index = .of ((bs.toList.set i b).map (some ·.name)) := by
  rw [bs.indexed] at h
  rw [List.map_set, set_eq_self (NameIndex.getElem?_of_find? h)]
  exact bs.indexed

/-- Puts a block in the place of the one that has its name. -/
def replace (bs : BlockSet) (b : Block) : Except SynthesisError BlockSet :=
  match h : bs.index.find? b.name with
  | some i => .ok ⟨bs.toList.set i b, bs.index, indexed_set h⟩
  | none => .error (.unknownBlock b.name)

theorem replace_eq (bs : BlockSet) (b : Block) : bs.replace b =
    (bs.index.find? b.name).elim (.error (.unknownBlock b.name)) fun i => .ok (of (bs.toList.set i b)) := by
  unfold replace
  split
  · next i hi =>
    simp only [hi, Option.elim_some]
    exact congrArg Except.ok (BlockSet.ext rfl)
  · next hi => simp only [hi, Option.elim_none]

/-- The block that a call means. -/
def resolve (bs : BlockSet) (callee : BlockRef) : Except SynthesisError Block :=
  match bs.find? callee.name with
  | none => .error (.unknownBlock callee.name)
  | some b => if b.id = callee.id then .ok b else .error (.divergentCall callee.name)

theorem find?_of_resolve {bs : BlockSet} {callee : BlockRef} {b : Block} (h : bs.resolve callee = .ok b) :
    bs.find? callee.name = some b := by
  unfold resolve at h
  split at h
  · cases h
  · next hf =>
    split at h
    · cases h
      exact hf
    · cases h

/-- How many blocks are left that have not been entered. -/
def unentered (bs : BlockSet) (entered : List String) : Nat :=
  bs.toList.countP fun b => decide (b.name ∉ entered)

theorem unentered_cons_lt {bs : BlockSet} {entered : List String} {b : Block} (hb : b ∈ bs.toList)
    (hn : b.name ∉ entered) : bs.unentered (b.name :: entered) < bs.unentered entered := by
  obtain ⟨front, back, hs⟩ := List.append_of_mem hb
  have mono (l : List Block) : l.countP (fun c => decide (c.name ∉ b.name :: entered)) ≤
      l.countP fun c => decide (c.name ∉ entered) :=
    List.countP_mono_left fun c _ => by simp_all
  have hf := mono front
  have hk := mono back
  simp only [unentered, hs, List.countP_append, List.countP_cons]
  simp [hn]
  simp at hf hk
  omega

end BlockSet

end Diversity
