import Diversity.CType.Parser
import Mathlib.Data.List.TakeWhile
import Mathlib.Data.Nat.Digits.Defs
/-! The words, blanks and array lengths of types: what they are, and that the readers find just these. -/
namespace Diversity.CType

namespace Grammar

def IsBlank (c : Char) : Prop := c = ' ' ∨ c = '\t' ∨ c = '\r' ∨ c = '\n'

instance (c : Char) : Decidable (IsBlank c) :=
  inferInstanceAs (Decidable (c = ' ' ∨ c = '\t' ∨ c = '\r' ∨ c = '\n'))

def Blanks (s : List Char) : Prop := ∀ c ∈ s, IsBlank c

def IsLetter (c : Char) : Prop := ('A' ≤ c ∧ c ≤ 'Z') ∨ ('a' ≤ c ∧ c ≤ 'z') ∨ c = '_'

def IsDigit (c : Char) : Prop := '0' ≤ c ∧ c ≤ '9'

inductive IsWord : List Char → Prop where
  | intro {c : Char} {s : List Char} (head : IsLetter c) (tail : ∀ d ∈ s, IsLetter d ∨ IsDigit d) : IsWord (c :: s)

/-- Words with at least one blank between neighbours. -/
inductive IsName : List Char → List (List Char) → Prop where
  | last {w : List Char} (word : IsWord w) : IsName w [w]
  | more {w b s : List Char} {ws : List (List Char)} (word : IsWord w) (blanks : Blanks b) (apart : b ≠ [])
      (rest : IsName s ws) : IsName (w ++ (b ++ s)) (w :: ws)

/-- The number that digits write, the first being the most significant. -/
def value (digits : List Char) : Nat := Nat.ofDigits 10 (digits.reverse.map fun c => c.toNat - '0'.toNat)

/-- What stands between the brackets of an array. -/
inductive IsLength : List Char → Option UInt64 → Prop where
  | missing : IsLength [] none
  | digits {ds : List Char} {n : UInt64} (present : ds ≠ []) (all : ∀ d ∈ ds, IsDigit d)
      (fits : value ds = n.toNat) : IsLength ds (some n)

theorem IsName.ne_nil {s : List Char} {ws : List (List Char)} (h : IsName s ws) : s ≠ [] := by
  cases h with
  | last hw =>
      cases hw
      exact List.cons_ne_nil _ _
  | more hw =>
      cases hw
      exact List.cons_ne_nil _ _

theorem isAlpha_iff {c : Char} : c.isAlpha = true ↔ ('A' ≤ c ∧ c ≤ 'Z') ∨ ('a' ≤ c ∧ c ≤ 'z') := by
  have halpha : c.isAlpha = (decide ('A' ≤ c ∧ c ≤ 'Z') || (decide ('a' ≤ c) && decide (c ≤ 'z'))) := rfl
  rw [halpha, Bool.or_eq_true, Bool.and_eq_true]
  simp only [decide_eq_true_eq]

theorem isDigit_iff {c : Char} : c.isDigit = true ↔ IsDigit c := by
  have hdigit : c.isDigit = (decide ('0' ≤ c) && decide (c ≤ '9')) := rfl
  rw [hdigit, Bool.and_eq_true, decide_eq_true_eq, decide_eq_true_eq, IsDigit]

theorem value_eq (digits : List Char) : value digits = Text.ofDigits digits := by
  rw [value, Text.ofDigits, Nat.ofDigits_eq_foldr, List.foldr_map, List.foldr_reverse]
  congr 1
  funext n c
  exact Nat.add_comm _ _

end Grammar

namespace Parser

open Grammar

variable {s w b rest : List Char} {ws : List (List Char)}

theorem isSpace_iff {c : Char} : isSpace c = true ↔ IsBlank c := by
  simp [isSpace, IsBlank, or_assoc]

theorem isWordStart_iff {c : Char} : isWordStart c = true ↔ IsLetter c := by
  simp [isWordStart, isAlpha_iff, IsLetter, or_assoc]

theorem isWordRest_iff {c : Char} : isWordRest c = true ↔ IsLetter c ∨ IsDigit c := by
  have hrest : isWordRest c = (c.isAlpha || c.isDigit || c == '_') := rfl
  rw [hrest, Bool.or_eq_true, Bool.or_eq_true, isAlpha_iff, isDigit_iff, beq_iff_eq, IsLetter]
  tauto

/-! ### Blanks -/

theorem exists_blanks (s : List Char) : ∃ b, Blanks b ∧ s = b ++ skipSpaces s :=
  ⟨s.takeWhile isSpace, fun _ hc => isSpace_iff.1 (List.mem_takeWhile_imp hc), List.takeWhile_append_dropWhile.symm⟩

theorem skipSpaces_append (hb : Blanks b) (s : List Char) : skipSpaces (b ++ s) = skipSpaces s :=
  List.dropWhile_append_of_pos fun c hc => isSpace_iff.2 (hb c hc)

theorem skipSpaces_blanks (hb : Blanks b) : skipSpaces b = [] := by
  rw [← List.append_nil b, skipSpaces_append hb]
  rfl

theorem skipSpaces_cons {c : Char} (hc : ¬ IsBlank c) (s : List Char) : skipSpaces (c :: s) = c :: s := by
  rw [skipSpaces, List.dropWhile_cons_of_neg (by rwa [isSpace_iff])]

theorem skipSpaces_blanks_cons {c : Char} (hb : Blanks b) (hc : ¬ IsBlank c) (s : List Char) :
    skipSpaces (b ++ c :: s) = c :: s := by
  rw [skipSpaces_append hb, skipSpaces_cons hc]

/-! ### Words -/

theorem not_isBlank_of_isLetter {c : Char} (hc : IsLetter c) : ¬ IsBlank c := by
  rintro (rfl | rfl | rfl | rfl) <;> revert hc <;> unfold IsLetter <;> decide

/-- Nothing in front of the text satisfies the test: a run before it ends there. -/
def Stops (p : Char → Bool) (rest : List Char) : Prop := ∀ c ∈ rest.head?, p c = false

theorem takeWhile_append_stops {p : Char → Bool} (hs : ∀ c ∈ s, p c = true) (hrest : Stops p rest) :
    (s ++ rest).takeWhile p = s := by
  rw [List.takeWhile_append_of_pos hs]
  cases rest with
  | nil => exact List.append_nil s
  | cons c rest => rw [List.takeWhile_cons_of_neg (by simp [hrest c rfl]), List.append_nil]

theorem dropWhile_append_stops {p : Char → Bool} (hs : ∀ c ∈ s, p c = true) (hrest : Stops p rest) :
    (s ++ rest).dropWhile p = rest := by
  rw [List.dropWhile_append_of_pos hs]
  cases rest with
  | nil => rfl
  | cons c rest => rw [List.dropWhile_cons_of_neg (by simp [hrest c rfl])]

/-- Blanks end every run of characters that are not blanks. -/
theorem stops_blanks {p : Char → Bool} (hp : ∀ c, IsBlank c → p c = false) (hb : Blanks b)
    (hrest : b = [] → Stops p rest) : Stops p (b ++ rest) := by
  cases b with
  | nil => exact hrest rfl
  | cons c b =>
      rintro d ⟨⟩
      exact hp c (hb c List.mem_cons_self)

theorem word_eq_some (h : word s = some (w, rest)) : s = w ++ rest ∧ IsWord w := by
  cases s with
  | nil => cases h
  | cons c s =>
      rw [word] at h
      split at h
      · rename_i hc
        cases h
        exact ⟨congrArg (c :: ·) List.takeWhile_append_dropWhile.symm, .intro (isWordStart_iff.1 hc)
          fun d hd => isWordRest_iff.1 (List.mem_takeWhile_imp hd)⟩
      · cases h

theorem word_append (hw : IsWord w) (hrest : Stops isWordRest rest) : word (w ++ rest) = some (w, rest) := by
  cases hw with
  | @intro c s hc hs =>
      have hall : ∀ d ∈ s, isWordRest d = true := fun d hd => isWordRest_iff.2 (hs d hd)
      rw [List.cons_append, word, if_pos (isWordStart_iff.2 hc), takeWhile_append_stops hall hrest,
        dropWhile_append_stops hall hrest]

theorem isWordRest_of_isBlank {c : Char} (hc : IsBlank c) : isWordRest c = false := by
  rcases hc with rfl | rfl | rfl | rfl <;> rfl

theorem stops_isWordRest (hb : Blanks b) (hne : b ≠ []) (s : List Char) : Stops isWordRest (b ++ s) :=
  stops_blanks (fun _ => isWordRest_of_isBlank) hb fun h => absurd h hne

/-! ### Names -/

theorem moreWords_eq (h : moreWords s = (ws, rest)) :
    (ws = [] ∧ rest = s) ∨ ∃ b front, Blanks b ∧ b ≠ [] ∧ s = b ++ (front ++ rest) ∧ IsName front ws := by
  induction hn : s.length using Nat.strong_induction_on generalizing s ws with
  | _ n ih =>
      subst hn
      rw [moreWords] at h
      split at h
      · rename_i hspace
        split at h
        · rename_i w after hword
          obtain ⟨b, hb, hs⟩ := exists_blanks s
          have hlt : after.length < s.length := (length_word_lt hword).trans_le (length_skipSpaces_le s)
          obtain ⟨hskip, hw⟩ := word_eq_some hword
          have hne : b ≠ [] := by
            rintro rfl
            cases hw with
            | intro hc _ =>
                rw [List.nil_append] at hs
                rw [hs, hskip] at hspace
                exact not_isBlank_of_isLetter hc (isSpace_iff.1 (by simpa using hspace))
          cases h
          refine .inr ⟨b, ?_⟩
          rcases ih _ hlt rfl rfl with ⟨hws, hrest⟩ | ⟨b', front, hb', hne', hafter, hfront⟩
          · refine ⟨w, hb, hne, ?_, hws ▸ .last hw⟩
            rw [hrest, ← hskip]
            exact hs
          · refine ⟨w ++ (b' ++ front), hb, hne, ?_, .more hw hb' hne' hfront⟩
            rw [List.append_assoc, List.append_assoc, ← hafter, ← hskip]
            exact hs
        · cases h
          exact .inl ⟨rfl, rfl⟩
      · cases h
        exact .inl ⟨rfl, rfl⟩

theorem name_of_word {after : List Char} (h : word s = some (w, after)) :
    name s = .done (.named (" ".intercalate ((w :: (moreWords after).1).map String.ofList))) (moreWords after).2 := by
  rw [name, h]

theorem name_eq_done {t : CType} (h : name s = .done t rest) :
    ∃ front ws, s = front ++ rest ∧ IsName front ws ∧ t = .named (" ".intercalate (ws.map String.ofList)) := by
  cases hword : word s with
  | none =>
      rw [name, hword] at h
      cases h
  | some read =>
      obtain ⟨w, after⟩ := read
      obtain ⟨hs, hw⟩ := word_eq_some hword
      rw [name_of_word hword] at h
      generalize hmore : moreWords after = more at h
      obtain ⟨ws, rest'⟩ := more
      cases h
      rcases moreWords_eq hmore with ⟨rfl, rfl⟩ | ⟨b, front, hb, hne, hafter, hfront⟩
      · exact ⟨w, [w], hs, .last hw, rfl⟩
      · refine ⟨w ++ (b ++ front), w :: ws, ?_, .more hw hb hne hfront, rfl⟩
        rw [List.append_assoc, List.append_assoc, ← hafter]
        exact hs

/-- No word stands in front, and none before could be lengthened: a name before it is over. -/
structure NameEnds (rest : List Char) : Prop where
  wordEnds : Stops isWordRest rest
  noWord : word (skipSpaces rest) = none

theorem nameEnds_of_stops (h : Stops isWordRest (skipSpaces rest)) : NameEnds rest := by
  constructor
  · intro c hc
    cases rest with
    | nil => cases hc
    | cons d rest =>
        cases hc
        by_cases hblank : IsBlank c
        · exact isWordRest_of_isBlank hblank
        · exact h c (congrArg List.head? (skipSpaces_cons hblank rest))
  · cases hskip : skipSpaces rest with
    | nil => rfl
    | cons c r =>
        have hc : isWordRest c = false := h c (congrArg List.head? hskip)
        refine if_neg fun hstart => ?_
        rw [isWordRest_iff.2 (.inl (isWordStart_iff.1 hstart))] at hc
        cases hc

theorem moreWords_of_nameEnds (h : NameEnds rest) : moreWords rest = ([], rest) := by
  rw [moreWords]
  split
  · split
    · rename_i hword
      rw [h.noWord] at hword
      cases hword
    · rfl
  · rfl

theorem skipSpaces_name (h : IsName s ws) (rest : List Char) : skipSpaces (s ++ rest) = s ++ rest := by
  cases h with
  | last hw =>
      cases hw with
      | intro hc _ => exact skipSpaces_cons (not_isBlank_of_isLetter hc) _
  | more hw =>
      cases hw with
      | intro hc _ => exact skipSpaces_cons (not_isBlank_of_isLetter hc) _

theorem moreWords_of_word {after : List Char} (hb : Blanks b) (hne : b ≠ [])
    (h : word (skipSpaces (b ++ s)) = some (w, after)) :
    moreWords (b ++ s) = (w :: (moreWords after).1, (moreWords after).2) := by
  have hspace : (b ++ s).head?.any isSpace = true := by
    cases b with
    | nil => exact absurd rfl hne
    | cons c b => exact isSpace_iff.2 (hb c List.mem_cons_self)
  rw [moreWords, if_pos hspace]
  split
  · rename_i heq
    rw [h] at heq
    cases heq
    rfl
  · rename_i heq
    rw [h] at heq
    cases heq

theorem moreWords_append (hb : Blanks b) (hne : b ≠ []) (h : IsName s ws) (hrest : NameEnds rest) :
    moreWords (b ++ (s ++ rest)) = (ws, rest) := by
  induction h generalizing b with
  | @last w hw =>
      have hword : word (skipSpaces (b ++ (w ++ rest))) = some (w, rest) := by
        rw [skipSpaces_append hb, skipSpaces_name (.last hw), word_append hw hrest.wordEnds]
      rw [moreWords_of_word hb hne hword, moreWords_of_nameEnds hrest]
  | @more w b' s ws hw hb' hne' hs ih =>
      have hword : word (skipSpaces (b ++ (w ++ (b' ++ s) ++ rest))) = some (w, b' ++ (s ++ rest)) := by
        rw [skipSpaces_append hb, skipSpaces_name (.more hw hb' hne' hs), List.append_assoc, List.append_assoc,
          word_append hw (stops_isWordRest hb' hne' _)]
      rw [moreWords_of_word hb hne hword, ih hb' hne']

theorem name_append (h : IsName s ws) (hrest : NameEnds rest) :
    name (s ++ rest) = .done (.named (" ".intercalate (ws.map String.ofList))) rest := by
  cases h with
  | last hw => rw [name_of_word (word_append hw hrest.wordEnds), moreWords_of_nameEnds hrest]
  | more hw hb hne hs =>
      rw [List.append_assoc, List.append_assoc, name_of_word (word_append hw (stops_isWordRest hb hne _)),
        moreWords_append hb hne hs hrest]

/-! ### Array lengths -/

theorem isLength_iff {ds : List Char} {n : Option UInt64} : IsLength ds n ↔ (∀ d ∈ ds, IsDigit d) ∧
    (if ds = [] then some none
      else if Text.ofDigits ds < UInt64.size then some (some (UInt64.ofNat (Text.ofDigits ds))) else none) =
        some n := by
  refine ⟨fun h => ?_, fun ⟨hall, h⟩ => ?_⟩
  · cases h with
    | missing => exact ⟨List.forall_mem_nil _, rfl⟩
    | @digits _ n hne hall hvalue =>
        rw [value_eq] at hvalue
        rw [if_neg hne, hvalue, if_pos n.toNat_lt_size, UInt64.ofNat_toNat]
        exact ⟨hall, rfl⟩
  · split at h
    · rename_i hnil
      cases h
      exact hnil ▸ .missing
    · rename_i hne
      split at h
      · rename_i hlt
        cases h
        exact .digits hne hall (by rw [value_eq, UInt64.toNat_ofNat_of_lt' hlt])
      · cases h

theorem arrayLength_eq_some {n : Option UInt64} (h : arrayLength s = some (n, rest)) :
    ∃ b ds b', Blanks b ∧ IsLength ds n ∧ Blanks b' ∧ s = b ++ (ds ++ (b' ++ ']' :: rest)) := by
  obtain ⟨b, hb, hs⟩ := exists_blanks s
  obtain ⟨b', hb', hdrop⟩ := exists_blanks ((skipSpaces s).dropWhile Char.isDigit)
  have hdigits : ∀ d ∈ (skipSpaces s).takeWhile Char.isDigit, IsDigit d :=
    fun d hd => isDigit_iff.1 (List.mem_takeWhile_imp hd)
  simp only [arrayLength] at h
  split at h
  · rename_i m after hm hafter
    cases h
    refine ⟨b, (skipSpaces s).takeWhile Char.isDigit, b', hb, isLength_iff.2 ⟨hdigits, hm⟩, hb', ?_⟩
    rw [← hafter, ← hdrop, List.takeWhile_append_dropWhile]
    exact hs
  · cases h

theorem arrayLength_append {b' ds : List Char} {n : Option UInt64} (hb : Blanks b) (h : IsLength ds n)
    (hb' : Blanks b') (rest : List Char) : arrayLength (b ++ (ds ++ (b' ++ ']' :: rest))) = some (n, rest) := by
  obtain ⟨hall, hn⟩ := isLength_iff.1 h
  have hblank : ¬ IsBlank ']' := by decide
  have hclose : skipSpaces (b' ++ ']' :: rest) = ']' :: rest := skipSpaces_blanks_cons hb' hblank rest
  have hbracket : Stops Char.isDigit (']' :: rest) := by
    rintro c ⟨⟩
    rfl
  -- without digits, the blanks before and after them are skipped at once
  obtain ⟨after, hskip, hstops, hafter⟩ : ∃ after, skipSpaces (b ++ (ds ++ (b' ++ ']' :: rest))) = ds ++ after ∧
      Stops Char.isDigit after ∧ skipSpaces after = ']' :: rest := by
    rw [skipSpaces_append hb]
    cases ds with
    | nil => exact ⟨']' :: rest, hclose, hbracket, skipSpaces_cons hblank rest⟩
    | cons d ds =>
        refine ⟨b' ++ ']' :: rest, skipSpaces_cons (fun hd => ?_) _,
          stops_blanks (fun c hc => ?_) hb' fun _ => hbracket, hclose⟩
        · have hdigit := isDigit_iff.2 (hall d List.mem_cons_self)
          rcases hd with rfl | rfl | rfl | rfl <;> cases hdigit
        · rcases hc with rfl | rfl | rfl | rfl <;> rfl
  have hds : ∀ d ∈ ds, d.isDigit = true := fun d hd => isDigit_iff.2 (hall d hd)
  simp only [arrayLength]
  rw [hskip, takeWhile_append_stops hds hstops, dropWhile_append_stops hds hstops, hafter, hn]
  rfl

end Parser

end Diversity.CType
