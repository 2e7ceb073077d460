import Diversity.Text.Lines
/-! Places in a text. Finding the offset of a line and column undoes counting the line and column of an offset, and no
line and column leads out of the text or, if there is such a line, out of it. -/
namespace Diversity.Text

/-- The byte that ends a line. -/
def newline : UInt8 := 10

def bytes (source : String) : List UInt8 := source.toByteArray.data.toList

/-- The line that the offset `o` is on, counted from one. -/
def lineAt (bs : List UInt8) (o : Nat) : Nat := (bs.take o).count newline + 1

/-- Where the line that the offset `o` is on starts: after the last newline before `o`, or with the text. -/
def lineStart (bs : List UInt8) (o : Nat) : Nat := o - (bs.take o).reverse.idxOf newline

/-- The column that the offset `o` is in, counted in bytes from one. -/
def columnAt (bs : List UInt8) (o : Nat) : Nat := o - lineStart bs o + 1

/-- There is a line with this number, and it starts at the offset `s`. -/
structure StartsLine (bs : List UInt8) (line s : Nat) : Prop where
  le_length : s ≤ bs.length
  lineAt_eq : lineAt bs s = line
  lineStart_eq : lineStart bs s = s

/-! ## Bytes of characters -/

def encode (cs : List Char) : List UInt8 := cs.flatMap String.utf8EncodeChar

theorem bytes_eq_encode (source : String) : bytes source = encode source.toList := by
  rw [bytes, ← String.utf8Encode_toList, List.utf8Encode, List.toList_data_toByteArray, encode]

theorem length_encode (cs : List Char) : (encode cs).length = byteLength cs := by
  induction cs with
  | nil => rfl
  | cons c cs ih =>
      rw [encode, List.flatMap_cons, List.length_append, String.length_utf8EncodeChar, byteLength, ← ih, encode]

theorem encode_append_newline (l cs : List Char) : encode (l ++ '\n' :: cs) = encode l ++ newline :: encode cs := by
  rw [encode, List.flatMap_append, List.flatMap_cons]
  rfl

theorem newline_ne_or {a b : UInt8} (h : newline < b) : newline ≠ a ||| b := by
  intro hab
  have hle : b.toNat ≤ (a ||| b).toNat := by
    rw [UInt8.toNat_or]
    exact Nat.right_le_or
  rw [← hab] at hle
  exact Nat.not_lt.2 hle (UInt8.lt_iff_toNat_lt.1 h)

/-- A newline is no part of another character: all bytes of one that takes several have their highest bit set. -/
theorem eq_newline_of_mem_utf8EncodeChar {c : Char} (h : newline ∈ String.utf8EncodeChar c) : c = '\n' := by
  obtain hsize | hsize | hsize | hsize := c.utf8Size_eq
  · rw [String.utf8EncodeChar_eq_singleton hsize, List.mem_singleton] at h
    have hval : c.val.toNat ≤ 127 := UInt32.le_iff_toNat_le.1 (Char.utf8Size_eq_one_iff.1 hsize)
    have hbyte : newline.toNat = c.val.toNat % 2 ^ 8 := by rw [h, UInt32.toNat_toUInt8]
    have hnewline : newline.toNat = 10 := rfl
    refine Char.ext (UInt32.toNat_inj.1 ?_)
    show c.val.toNat = 10
    omega
  · rw [String.utf8EncodeChar_eq_cons_cons hsize] at h
    simp [newline_ne_or (show newline < 0xc0 by decide), newline_ne_or (show newline < 0x80 by decide)] at h
  · rw [String.utf8EncodeChar_eq_cons_cons_cons hsize] at h
    simp [newline_ne_or (show newline < 0xe0 by decide), newline_ne_or (show newline < 0x80 by decide)] at h
  · rw [String.utf8EncodeChar_eq_cons_cons_cons_cons hsize] at h
    simp [newline_ne_or (show newline < 0xf0 by decide), newline_ne_or (show newline < 0x80 by decide)] at h

theorem newline_notMem_encode {l : List Char} (h : '\n' ∉ l) : newline ∉ encode l := by
  intro hmem
  obtain ⟨c, hc, hnewline⟩ := List.mem_flatMap.1 hmem
  exact h (eq_newline_of_mem_utf8EncodeChar hnewline ▸ hc)

/-! ## Counting -/

/-- A list is one without `a`, or one without `a` before an `a` and a list. -/
theorem splitInduction {α : Type} {a : α} {motive : List α → Prop} (last : ∀ l, a ∉ l → motive l)
    (ended : ∀ l xs, a ∉ l → motive xs → motive (l ++ a :: xs)) (xs : List α) : motive xs := by
  induction hn : xs.length using Nat.strongRecOn generalizing xs with
  | ind n ih =>
      by_cases hmem : a ∈ xs
      · obtain ⟨l, xs, rfl, hl⟩ := List.eq_append_cons_of_mem hmem
        have hlt : xs.length < n := by
          rw [← hn, List.length_append, List.length_cons]
          omega
        exact ended l xs hl (ih xs.length hlt xs rfl)
      · exact last xs hmem

variable {bs rest : List UInt8} {line o s t : Nat}

theorem lineAt_pos (bs : List UInt8) (o : Nat) : 0 < lineAt bs o := Nat.succ_pos _

theorem lineAt_of_notMem (h : newline ∉ bs) (o : Nat) : lineAt bs o = 1 := by
  rw [lineAt, List.count_eq_zero.2 fun hmem => h (List.mem_of_mem_take hmem)]

theorem lineStart_of_notMem (h : newline ∉ bs) (ho : o ≤ bs.length) : lineStart bs o = 0 := by
  have hmem : newline ∉ (bs.take o).reverse := fun hmem => h (List.mem_of_mem_take (List.mem_reverse.1 hmem))
  rw [lineStart, List.idxOf_eq_length hmem, List.length_reverse, List.length_take_of_le ho, Nat.sub_self]

theorem lineAt_append_of_le (ho : o ≤ bs.length) : lineAt (bs ++ rest) o = lineAt bs o := by
  rw [lineAt, List.take_append_of_le_length ho, lineAt]

theorem lineStart_append_of_le (ho : o ≤ bs.length) : lineStart (bs ++ rest) o = lineStart bs o := by
  rw [lineStart, List.take_append_of_le_length ho, lineStart]

theorem take_append_newline (bs rest : List UInt8) (i : Nat) :
    (bs ++ newline :: rest).take (bs.length + 1 + i) = bs ++ newline :: rest.take i := by
  rw [Nat.add_assoc, List.take_length_add_append, Nat.add_comm, List.take_succ_cons]

theorem lineAt_append_newline (h : newline ∉ bs) (i : Nat) :
    lineAt (bs ++ newline :: rest) (bs.length + 1 + i) = lineAt rest i + 1 := by
  rw [lineAt, take_append_newline, List.count_append, List.count_eq_zero.2 h, List.count_cons_self, Nat.zero_add,
    lineAt]

theorem lineStart_append_newline (i : Nat) :
    lineStart (bs ++ newline :: rest) (bs.length + 1 + i) = bs.length + 1 + lineStart rest i := by
  have hle : (rest.take i).reverse.idxOf newline ≤ i := by
    calc (rest.take i).reverse.idxOf newline
      _ ≤ (rest.take i).reverse.length := List.idxOf_le_length
      _ ≤ i := by rw [List.length_reverse]; exact List.length_take_le ..
  -- If `rest.take i` has no newline, one search stops at the newline before it and the other runs off its end.
  have hlast : (bs ++ newline :: rest.take i).reverse.idxOf newline = (rest.take i).reverse.idxOf newline := by
    rw [List.reverse_append, List.reverse_cons, List.append_assoc, List.singleton_append, List.idxOf_append]
    split
    · rfl
    · next hmem => rw [List.idxOf_cons_self, Nat.zero_add, List.idxOf_eq_length hmem]
  rw [lineStart, take_append_newline, hlast, Nat.add_sub_assoc hle, lineStart]

theorem columnAt_append_newline (i : Nat) :
    columnAt (bs ++ newline :: rest) (bs.length + 1 + i) = columnAt rest i := by
  rw [columnAt, lineStart_append_newline, Nat.add_sub_add_left, columnAt]

theorem StartsLine.pos (h : StartsLine bs line s) : 0 < line := h.lineAt_eq ▸ lineAt_pos bs s

theorem startsLine_of_notMem (h : newline ∉ bs) : StartsLine bs line s ↔ line = 1 ∧ s = 0 := by
  constructor
  · rintro ⟨hle, rfl, hstart⟩
    exact ⟨lineAt_of_notMem h s, hstart ▸ lineStart_of_notMem h hle⟩
  · rintro ⟨rfl, rfl⟩
    exact ⟨Nat.zero_le _, lineAt_of_notMem h 0, lineStart_of_notMem h (Nat.zero_le _)⟩

/-- The lines of a text are its first line and, with numbers one higher, those of what follows it. -/
theorem startsLine_append_newline (h : newline ∉ bs) :
    StartsLine (bs ++ newline :: rest) line s ↔
      line = 1 ∧ s = 0 ∨ ∃ n i, line = n + 1 ∧ s = bs.length + 1 + i ∧ StartsLine rest n i := by
  have hlength : (bs ++ newline :: rest).length = bs.length + (rest.length + 1) := by
    rw [List.length_append, List.length_cons]
  constructor
  · rintro ⟨hle, rfl, hstart⟩
    obtain hlt | hs := Nat.lt_or_ge bs.length s
    · obtain ⟨i, rfl⟩ := Nat.exists_eq_add_of_le hlt
      rw [lineStart_append_newline] at hstart
      exact .inr ⟨lineAt rest i, i, lineAt_append_newline h i, rfl, by omega, rfl, by omega⟩
    · rw [lineStart_append_of_le hs, lineStart_of_notMem h hs] at hstart
      exact .inl ⟨by rw [lineAt_append_of_le hs, lineAt_of_notMem h], hstart.symm⟩
  · rintro (⟨rfl, rfl⟩ | ⟨n, i, rfl, rfl, hle, rfl, hstart⟩)
    · have hzero : 0 ≤ bs.length := Nat.zero_le _
      refine ⟨Nat.zero_le _, ?_, ?_⟩
      · rw [lineAt_append_of_le hzero, lineAt_of_notMem h]
      · rw [lineStart_append_of_le hzero, lineStart_of_notMem h hzero]
    · exact ⟨by omega, lineAt_append_newline h i, by rw [lineStart_append_newline, hstart]⟩

theorem startsLine_lineStart (ho : o ≤ bs.length) : StartsLine bs (lineAt bs o) (lineStart bs o) := by
  induction bs using splitInduction (a := newline) generalizing o with
  | last bs h => exact (startsLine_of_notMem h).2 ⟨lineAt_of_notMem h o, lineStart_of_notMem h ho⟩
  | ended bs rest h ih =>
      rw [startsLine_append_newline h]
      obtain hlt | hle := Nat.lt_or_ge bs.length o
      · obtain ⟨i, rfl⟩ := Nat.exists_eq_add_of_le hlt
        rw [List.length_append, List.length_cons] at ho
        exact .inr ⟨_, _, lineAt_append_newline h i, lineStart_append_newline i, ih (by omega)⟩
      · rw [lineAt_append_of_le hle, lineStart_append_of_le hle]
        exact .inl ⟨lineAt_of_notMem h o, lineStart_of_notMem h hle⟩

theorem exists_startsLine_iff : (∃ s, StartsLine bs line s) ↔ 0 < line ∧ line ≤ bs.count newline + 1 := by
  induction bs using splitInduction (a := newline) generalizing line with
  | last bs h =>
      simp only [startsLine_of_notMem h, List.count_eq_zero.2 h, exists_and_left, exists_eq, and_true]
      omega
  | ended bs rest h ih =>
      rw [List.count_append, List.count_eq_zero.2 h, List.count_cons_self, Nat.zero_add]
      simp only [startsLine_append_newline h]
      constructor
      · rintro ⟨s, ⟨rfl, -⟩ | ⟨n, i, rfl, -, hi⟩⟩
        · omega
        · have hn := ih.1 ⟨i, hi⟩
          omega
      · rintro ⟨hpos, hle⟩
        obtain rfl | hline := Nat.eq_or_lt_of_le hpos
        · exact ⟨0, .inl ⟨rfl, rfl⟩⟩
        · obtain ⟨i, hi⟩ := ih.2 ⟨Nat.sub_pos_of_lt hline, Nat.sub_le_of_le_add hle⟩
          exact ⟨_, .inr ⟨line - 1, i, by omega, rfl, hi⟩⟩

/-! ## Finding -/

variable {l cs : List Char}

theorem lines_of_notMem (h : '\n' ∉ l) (hl : l ≠ []) : lines l = [l] := by
  induction l with
  | nil => exact absurd rfl hl
  | cons c l ih =>
      obtain ⟨hc, h⟩ := not_or.1 (mt List.mem_cons.2 h)
      rw [lines, if_neg (Ne.symm hc)]
      cases l with
      | nil => rfl
      | cons d l => rw [ih h (List.cons_ne_nil d l)]

theorem lines_append_newline (h : '\n' ∉ l) (cs : List Char) :
    lines (l ++ '\n' :: cs) = (l ++ ['\n']) :: lines cs := by
  induction l with
  | nil => rfl
  | cons c l ih =>
      obtain ⟨hc, h⟩ := not_or.1 (mt List.mem_cons.2 h)
      rw [List.cons_append, lines, if_neg (Ne.symm hc), ih h]
      rfl

theorem offsetIn_eq_add (start : Nat) (ls : List (List Char)) (line column : Nat) :
    offsetIn start ls line column = start + offsetIn 0 ls line column := by
  induction ls generalizing start line with
  | nil => rfl
  | cons l ls ih =>
      by_cases hline : line = 1
      · simp only [offsetIn, hline, if_true, Nat.zero_add]
      · simp only [offsetIn, hline, if_false]
        rw [ih (start + byteLength l), ih (0 + byteLength l)]
        omega

/-- The last line. It may be empty, and is then none of the `lines`. -/
theorem offsetIn_of_notMem (h : '\n' ∉ l) (line column : Nat) :
    offsetIn 0 (lines l) line column =
      if line = 1 then min (column - 1) (encode l).length else (encode l).length := by
  rw [length_encode]
  by_cases hl : l = []
  · subst hl
    simp [lines, offsetIn, byteLength]
  · rw [lines_of_notMem h hl, offsetIn, offsetIn, Nat.zero_add, Nat.zero_add]

theorem offsetIn_append_newline (h : '\n' ∉ l) (line column : Nat) :
    offsetIn 0 (lines (l ++ '\n' :: cs)) line column =
      if line = 1 then min (column - 1) ((encode l).length + 1)
      else (encode l).length + 1 + offsetIn 0 (lines cs) (line - 1) column := by
  have hlength : byteLength (l ++ ['\n']) = (encode l).length + 1 := by
    rw [← length_encode, encode_append_newline, List.length_append]
    rfl
  rw [lines_append_newline h, offsetIn, hlength, Nat.zero_add, offsetIn_eq_add, Nat.zero_add]

theorem offsetIn_lineAt_columnAt (cs : List Char) (ho : o ≤ (encode cs).length) :
    offsetIn 0 (lines cs) (lineAt (encode cs) o) (columnAt (encode cs) o) = o := by
  induction cs using splitInduction (a := '\n') generalizing o with
  | last l h =>
      have hl := newline_notMem_encode h
      rw [lineAt_of_notMem hl, columnAt, lineStart_of_notMem hl ho, offsetIn_of_notMem h, if_pos rfl]
      omega
  | ended l cs h ih =>
      have hl := newline_notMem_encode h
      rw [offsetIn_append_newline h]
      rw [encode_append_newline] at ho ⊢
      -- An offset right before the newline is still on the line that the newline ends.
      obtain hlt | hle := Nat.lt_or_ge (encode l).length o
      · obtain ⟨i, rfl⟩ := Nat.exists_eq_add_of_le hlt
        have hi : i ≤ (encode cs).length := by
          rw [List.length_append, List.length_cons] at ho
          omega
        have hline : lineAt (encode cs) i + 1 ≠ 1 := Nat.succ_ne_succ_iff.2 (Nat.ne_of_gt (lineAt_pos _ i))
        rw [Nat.succ_eq_add_one, lineAt_append_newline hl, columnAt_append_newline, if_neg hline, Nat.add_sub_cancel,
          ih hi]
      · rw [lineAt_append_of_le hle, lineAt_of_notMem hl, columnAt, lineStart_append_of_le hle,
          lineStart_of_notMem hl hle, if_pos rfl]
        omega

theorem offsetIn_le_length (cs : List Char) (line column : Nat) :
    offsetIn 0 (lines cs) line column ≤ (encode cs).length := by
  induction cs using splitInduction (a := '\n') generalizing line with
  | last l h =>
      rw [offsetIn_of_notMem h]
      split
      · exact Nat.min_le_right ..
      · exact Nat.le_refl _
  | ended l cs h ih =>
      have hrest := ih (line - 1)
      rw [offsetIn_append_newline h, encode_append_newline, List.length_append, List.length_cons]
      split <;> omega

theorem StartsLine.le_offsetIn (hs : StartsLine (encode cs) line s) (column : Nat) :
    s ≤ offsetIn 0 (lines cs) line column := by
  induction cs using splitInduction (a := '\n') generalizing line s with
  | last l h =>
      obtain ⟨-, rfl⟩ := (startsLine_of_notMem (newline_notMem_encode h)).1 hs
      exact Nat.zero_le _
  | ended l cs h ih =>
      rw [encode_append_newline, startsLine_append_newline (newline_notMem_encode h)] at hs
      obtain ⟨-, rfl⟩ | ⟨n, i, rfl, rfl, hi⟩ := hs
      · exact Nat.zero_le _
      · have hn : n + 1 ≠ 1 := Nat.succ_ne_succ_iff.2 (Nat.ne_of_gt hi.pos)
        rw [offsetIn_append_newline h, if_neg hn, Nat.add_sub_cancel]
        exact Nat.add_le_add_left (ih hi) _

/-- There is no line zero: asked for it, `offsetIn` gives the end of the text, which is behind the start of line one. -/
theorem StartsLine.offsetIn_le (ht : StartsLine (encode cs) (line + 1) t) (hline : 0 < line) (column : Nat) :
    offsetIn 0 (lines cs) line column ≤ t := by
  induction cs using splitInduction (a := '\n') generalizing line t with
  | last l h =>
      obtain ⟨hone, -⟩ := (startsLine_of_notMem (newline_notMem_encode h)).1 ht
      omega
  | ended l cs h ih =>
      rw [encode_append_newline, startsLine_append_newline (newline_notMem_encode h)] at ht
      obtain ⟨hone, -⟩ | ⟨n, i, hn, rfl, hi⟩ := ht
      · omega
      · obtain rfl : line = n := Nat.succ.inj hn
        rw [offsetIn_append_newline h]
        split
        · omega
        · obtain ⟨k, rfl⟩ := Nat.exists_eq_add_of_le' hline
          exact Nat.add_le_add_left (ih hi (by omega)) _

/-- The offset of the line and column that an offset is at is this offset. Whatever the line and column, their offset is
in the text; if there is such a line, it is not before the line's start nor behind the start of the next. -/
theorem offset_inverts_counting (source : String) :
    (∀ o ≤ source.utf8ByteSize,
      StartsLine (bytes source) (lineAt (bytes source) o) (lineStart (bytes source) o) ∧
      offset source (lineAt (bytes source) o) (columnAt (bytes source) o) = o) ∧
    ∀ line column,
      offset source line column ≤ source.utf8ByteSize ∧
      ((∃ s, StartsLine (bytes source) line s) ↔ 0 < line ∧ line ≤ (bytes source).count newline + 1) ∧
      ∀ s, StartsLine (bytes source) line s →
        s ≤ offset source line column ∧
        ∀ t, StartsLine (bytes source) (line + 1) t → offset source line column ≤ t := by
  have hlength : source.utf8ByteSize = (bytes source).length := rfl
  rw [hlength, bytes_eq_encode]
  refine ⟨fun o ho => ⟨startsLine_lineStart ho, offsetIn_lineAt_columnAt _ ho⟩, fun line column => ?_⟩
  exact ⟨offsetIn_le_length .., exists_startsLine_iff, fun s hs =>
    ⟨hs.le_offsetIn column, fun t ht => ht.offsetIn_le hs.pos column⟩⟩

/-- Two lines, the first with a character of two bytes, and an empty one after the last newline. -/
def twoEnded : String := "é,\noops\n"

theorem offset_inverts_counting_twoEnded :
    lineAt (bytes twoEnded) 9 = 3 ∧ columnAt (bytes twoEnded) 9 = 1 ∧ offset twoEnded 3 1 = 9 ∧
    lineAt (bytes twoEnded) 1 = 1 ∧ columnAt (bytes twoEnded) 1 = 2 ∧ offset twoEnded 1 2 = 1 ∧
    StartsLine (bytes twoEnded) 2 4 ∧ StartsLine (bytes twoEnded) 3 9 ∧
    4 ≤ offset twoEnded 2 80 ∧ offset twoEnded 2 80 ≤ 9 := by
  have h := offset_inverts_counting twoEnded
  have hsecond : StartsLine (bytes twoEnded) 2 4 := ⟨by decide, by decide, by decide⟩
  have hthird : StartsLine (bytes twoEnded) 3 9 := ⟨by decide, by decide, by decide⟩
  have hwithin := (h.2 2 80).2.2 4 hsecond
  exact ⟨by decide, by decide, (h.1 9 (by decide)).2, by decide, by decide, (h.1 1 (by decide)).2,
    hsecond, hthird, hwithin.1, hwithin.2 9 hthird⟩

end Diversity.Text
