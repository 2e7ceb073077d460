/-! Indexes: where in a list each name stands. -/
namespace Diversity

/-- Positions by name. Of several entries for one name the newest counts. -/
structure NameIndex where
  entries : List (String × Nat)

namespace NameIndex

def empty : NameIndex := ⟨[]⟩

def insert (index : NameIndex) (name : String) (position : Nat) : NameIndex :=
  ⟨(name, position) :: index.entries⟩

def find? (index : NameIndex) (name : String) : Option Nat := index.entries.lookup name

/-- An element is entered under its name, if it has one. -/
def enter (index : NameIndex) : Option String × Nat → NameIndex
  | (some name, position) => index.insert name position
  | (none, _) => index

/-- The index of a list whose elements have the given names. -/
def of (names : List (Option String)) : NameIndex := names.zipIdx.foldl enter empty

/-- The element that stands where the index says. -/
def lookup {α : Type} (index : NameIndex) (xs : List α) (name : String) : Option α :=
  (index.find? name).bind (xs[·]?)

variable {names : List (Option String)} {name : String} {i : Nat}

theorem of_concat (names : List (Option String)) (name : String) :
    of (names ++ [some name]) = (of names).insert name names.length := by
  rw [of, List.zipIdx_append, List.foldl_append, Nat.zero_add]
  rfl

theorem mem_entries_foldl {elements : List (Option String × Nat)} {index : NameIndex} :
    (name, i) ∈ (elements.foldl enter index).entries ↔ (name, i) ∈ index.entries ∨ (some name, i) ∈ elements := by
  induction elements generalizing index with
  | nil => simp
  | cons x rest ih =>
    obtain ⟨name?, position⟩ := x
    rw [List.foldl_cons, ih, List.mem_cons]
    cases name? with
    | none => simp [enter]
    | some _ => simp [enter, insert, or_assoc, or_left_comm]

/-- Just the elements with names are entered, under their names. -/
theorem mem_entries_of : (name, i) ∈ (of names).entries ↔ names[i]? = some (some name) := by
  rw [of, mem_entries_foldl, List.mem_zipIdx_iff_getElem?]
  simp [empty]

theorem getElem?_of_find? (h : (of names).find? name = some i) : names[i]? = some (some name) := by
  obtain ⟨front, back, hentries, -⟩ := List.lookup_eq_some_iff.1 h
  exact mem_entries_of.1 (by simp [hentries])

theorem find?_of_eq_none : (of names).find? name = none ↔ some name ∉ names := by
  rw [find?, List.lookup_eq_none_iff]
  constructor
  · intro h hmem
    obtain ⟨i, hi⟩ := List.getElem?_of_mem hmem
    simpa using h _ (mem_entries_of.2 hi)
  · rintro h ⟨entry, i⟩ hentry
    have hne : name ≠ entry := fun he => h (List.mem_of_getElem? (mem_entries_of.1 (he ▸ hentry)))
    simpa using hne

/-! ## The index of a list -/

variable {α : Type} {xs : List α} {name? : α → Option String} {x : α}

theorem exists_of_find? (h : (of (xs.map name?)).find? name = some i) : ∃ x, xs[i]? = some x ∧ name? x = some name := by
  simpa using getElem?_of_find? h

/-- What is found is an element with the name. -/
theorem of_lookup (h : (of (xs.map name?)).lookup xs name = some x) : x ∈ xs ∧ name? x = some name := by
  obtain ⟨i, hi, hx⟩ := Option.bind_eq_some_iff.1 h
  obtain ⟨y, hy, hname⟩ := exists_of_find? hi
  obtain rfl := Option.some.inj (hx.symm.trans hy)
  exact ⟨List.mem_of_getElem? hx, hname⟩

theorem lookup_eq_none : (of (xs.map name?)).lookup xs name = none ↔ some name ∉ xs.map name? := by
  rw [← find?_of_eq_none, lookup]
  cases hi : (of (xs.map name?)).find? name with
  | none => simp
  | some i =>
    obtain ⟨x, hx, -⟩ := exists_of_find? hi
    simp [hx]

end NameIndex

end Diversity
