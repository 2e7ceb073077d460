/-! Lists in which no two elements have the same key. -/
namespace Diversity

/-- The first element of every key, in order. -/
def distinctBy {α κ : Type} [DecidableEq κ] (key : α → κ) : List α → List α
  | [] => []
  | a :: as => a :: (distinctBy key as).filter fun b => key b ≠ key a

/-- The first occurrence of every element, in order. -/
def distinct {α : Type} [DecidableEq α] (as : List α) : List α := distinctBy id as

theorem mem_of_mem_distinctBy {α κ : Type} [DecidableEq κ] {key : α → κ} {a : α} {as : List α}
    (h : a ∈ distinctBy key as) : a ∈ as := by
  induction as with
  | nil => exact h
  | cons b bs ih =>
    rcases List.mem_cons.1 h with rfl | h
    · exact List.mem_cons_self
    · exact List.mem_cons_of_mem _ (ih (List.mem_filter.1 h).1)

theorem exists_mem_distinctBy {α κ : Type} [DecidableEq κ] (key : α → κ) {a : α} {as : List α}
    (h : a ∈ as) : ∃ b ∈ distinctBy key as, key b = key a := by
  induction as with
  | nil => cases h
  | cons c cs ih =>
    by_cases hk : key a = key c
    · exact ⟨c, List.mem_cons_self, hk.symm⟩
    · rcases List.mem_cons.1 h with rfl | h
      · exact absurd rfl hk
      · obtain ⟨b, hb, hkb⟩ := ih h
        exact ⟨b, List.mem_cons_of_mem _ (List.mem_filter.2 ⟨hb, by simpa [hkb] using hk⟩), hkb⟩

theorem nodup_map_distinctBy {α κ : Type} [DecidableEq κ] (key : α → κ) (as : List α) :
    ((distinctBy key as).map key).Nodup := by
  induction as with
  | nil => exact List.Pairwise.nil
  | cons a as ih =>
    rw [distinctBy, List.map_cons, List.nodup_cons]
    constructor
    · intro h
      obtain ⟨b, hb, hk⟩ := List.mem_map.1 h
      exact absurd hk (by simpa using (List.mem_filter.1 hb).2)
    · exact List.Pairwise.sublist (List.filter_sublist.map key) ih

theorem mem_distinct {α : Type} [DecidableEq α] {a : α} {as : List α} : a ∈ distinct as ↔ a ∈ as := by
  constructor
  · exact mem_of_mem_distinctBy
  · intro h
    obtain ⟨b, hb, hk⟩ : ∃ b ∈ distinct as, id b = id a := exists_mem_distinctBy id h
    obtain rfl : b = a := hk
    exact hb

theorem nodup_distinct {α : Type} [DecidableEq α] (as : List α) : (distinct as).Nodup := by
  have h := nodup_map_distinctBy (id : α → α) as
  rwa [List.map_id] at h

end Diversity
