import Diversity.CType.Declarator
import Diversity.Proofs.TypeGrammar
/-! The text of a type: it is read as that type again, so no two types have one text. -/
namespace Diversity.CType

open Grammar

/-- What holds of a type if it holds of its parts, holds of every type. -/
theorem parts_induction {P : CType → Prop} (named : ∀ name, P (.named name))
    (pointer : ∀ target, P target → P (.pointer target))
    (array : ∀ element length, P element → P (.array element length))
    (function : ∀ result params variadic, P result → (∀ p ∈ params, P p) → P (.function result params variadic)) :
    ∀ t, P t :=
  @rec P (fun ts => ∀ p ∈ ts, P p) named pointer array function (List.forall_mem_nil _) fun _ _ hp hps =>
    List.forall_mem_cons.2 ⟨hp, hps⟩

theorem texts_eq (ts : List CType) : texts ts = ts.map text := by
  induction ts with
  | nil => rfl
  | cons t ts ih => rw [texts, ih, List.map_cons]

theorem namesOfAll_eq (ts : List CType) : namesOfAll ts = ts.flatMap names := by
  induction ts with
  | nil => rfl
  | cons t ts ih => rw [namesOfAll, ih, List.flatMap_cons]

/-! ### Names of words -/

theorem Grammar.isWord_iff {w : List Char} :
    IsWord w ↔ w.head?.any Parser.isWordStart = true ∧ w.tail.all Parser.isWordRest = true := by
  cases w with
  | nil =>
      simp only [List.head?_nil, Option.any_none, Bool.false_eq_true, false_and, iff_false]
      intro h
      cases h
  | cons c s =>
      simp only [List.head?_cons, Option.any_some, List.tail_cons, List.all_eq_true, Parser.isWordStart_iff,
        Parser.isWordRest_iff]
      constructor
      · rintro ⟨hc, hs⟩
        exact ⟨hc, hs⟩
      · exact fun ⟨hc, hs⟩ => .intro hc hs

instance (w : List Char) : Decidable (IsWord w) :=
  decidable_of_iff _ isWord_iff.symm

/-- Words, joined by single spaces. -/
def IsWords (name : String) : Prop := ∀ w ∈ name.toList.splitOn ' ', IsWord w

instance (name : String) : Decidable (IsWords name) :=
  inferInstanceAs (Decidable (∀ w ∈ name.toList.splitOn ' ', IsWord w))

/-- Every name in the type consists of words. -/
def WordNamed (t : CType) : Prop := ∀ name ∈ t.names, IsWords name

instance (t : CType) : Decidable t.WordNamed := inferInstanceAs (Decidable (∀ name ∈ t.names, IsWords name))

theorem wordNamed_function {result : CType} {params : List CType} {variadic : Bool} :
    (function result params variadic).WordNamed ↔ (∀ p ∈ params, p.WordNamed) ∧ result.WordNamed := by
  simp only [WordNamed, names, namesOfAll_eq, List.mem_append, List.mem_flatMap]
  grind

/-! ### What is read has names of words -/

theorem splitOn_words {ws : List (List Char)} (hne : ws ≠ []) (hws : ∀ w ∈ ws, IsWord w) :
    (" ".intercalate (ws.map String.ofList)).toList.splitOn ' ' = ws := by
  have hspace : ∀ w ∈ ws, ' ' ∉ w := by
    intro w hw hmem
    cases hws w hw with
    | intro hc hs =>
        rcases List.mem_cons.1 hmem with rfl | hmem
        · exact Parser.not_isBlank_of_isLetter hc (.inl rfl)
        · cases Parser.isWordRest_iff.2 (hs _ hmem)
  have hlists : (ws.map String.ofList).map String.toList = ws := by simp [Function.comp_def]
  rw [String.toList_intercalate, hlists]
  exact List.splitOn_intercalate ' ' hspace hne

theorem Grammar.IsName.words {s : List Char} {ws : List (List Char)} (h : IsName s ws) :
    ws ≠ [] ∧ ∀ w ∈ ws, IsWord w := by
  induction h with
  | last hw => simpa using hw
  | more hw _ _ _ ih => simpa [hw] using ih.2

theorem Grammar.IsParamList.exists_text {s : List Char} {ts : List CType} {variadic : Bool}
    (h : IsParamList IsType s ts variadic) : ∀ t ∈ ts, ∃ s', IsType s' t := by
  induction h with
  | last ht => simpa using ⟨_, ht⟩
  | mark => simp
  | more ht _ _ ih => simpa using ⟨⟨_, ht⟩, ih⟩

theorem Grammar.IsType.wordNamed {s : List Char} {t : CType} (h : IsType s t) : t.WordNamed := by
  induction t using parts_induction generalizing s with
  | named name =>
      intro n hn
      obtain rfl := List.mem_singleton.1 hn
      cases h with
      | named _ hname =>
          obtain ⟨hne, hws⟩ := hname.words
          rwa [IsWords, splitOn_words hne hws]
  | pointer target ih =>
      cases h with
      | pointer _ htarget => exact ih htarget
  | array element length ih =>
      cases h with
      | array _ _ _ _ helement => exact ih helement
  | function result params variadic ihr ihp =>
      cases h with
      | function _ _ hparams hresult =>
          refine wordNamed_function.2 ⟨fun p hp => ?_, ?_⟩
          · cases hparams with
            | none => cases hp
            | some hlist =>
                obtain ⟨s', hs'⟩ := hlist.exists_text p hp
                exact ihp p hp hs'
          · cases hresult with
            | missing => decide
            | type hresult => exact ihr hresult

/-! ### Every type of such names is written by its text -/

theorem Grammar.IsType.blanks {b s : List Char} {t : CType} (hb : Blanks b) (h : IsType s t) : IsType (b ++ s) t := by
  have happend {b' : List Char} (hb' : Blanks b') : Blanks (b ++ b') :=
    fun c hc => (List.mem_append.1 hc).elim (hb c) (hb' c)
  cases h with
  | pointer hb' ht => simpa using IsType.pointer (happend hb') ht
  | array hb' h₁ h₂ h₃ ht => simpa using IsType.array (happend hb') h₁ h₂ h₃ ht
  | function hb' h₁ h₂ h₃ => simpa using IsType.function (happend hb') h₁ h₂ h₃
  | named hb' hn => simpa using IsType.named (happend hb') hn

theorem isName_intercalate {ws : List (List Char)} (hne : ws ≠ []) (hws : ∀ w ∈ ws, IsWord w) :
    IsName ([' '].intercalate ws) ws := by
  induction ws with
  | nil => exact absurd rfl hne
  | cons w ws ih =>
      rw [List.forall_mem_cons] at hws
      cases ws with
      | nil => simpa using IsName.last hws.1
      | cons v ws =>
          have hblank : Blanks [' '] := by simp [Blanks, IsBlank]
          simpa [List.intercalate_cons_cons] using
            IsName.more hws.1 hblank (List.cons_ne_nil _ _) (ih (List.cons_ne_nil _ _) hws.2)

theorem isType_named {name : String} (h : IsWords name) : IsType name.toList (.named name) := by
  have hwords : [' '].intercalate (name.toList.splitOn ' ') = name.toList := List.intercalate_splitOn ' '
  have hname := isName_intercalate (List.splitOn_ne_nil ' ' name.toList) h
  have htype := IsType.named (b := []) (List.forall_mem_nil _) hname
  have hjoin : " ".intercalate ((name.toList.splitOn ' ').map String.ofList) = name := by
    rw [← String.toList_inj, String.toList_intercalate, List.map_map]
    simp [Function.comp_def, hwords]
  rwa [hjoin, hwords] at htype

theorem isLength_toString (n : UInt64) : IsLength (toString n.toNat).toList (some n) := by
  rw [Nat.toString_eq_ofList_toDigits, String.toList_ofList]
  refine .digits Nat.toDigits_ne_nil (fun d hd => ?_) ?_
  · exact isDigit_iff.1 (Nat.isDigit_of_mem_toDigits (by decide) (by decide) hd)
  · rw [value_eq, Text.ofDigits, ← Nat.ofDigitChars_eq_foldl, Nat.ofDigitChars_ten_toDigits]

theorem toList_text_function (result : CType) (params : List CType) (variadic : Bool) :
    (function result params variadic).text.toList = 'f' :: 'n' :: ([' '] ++ '(' ::
      ([',', ' '].intercalate (params.map (·.text.toList) ++ if variadic then [['.', '.', '.']] else []) ++
        ')' :: ([' '] ++ result.text.toList))) := by
  cases variadic <;> simp [text, texts_eq, Function.comp_def]

theorem isParamList_join {b : List Char} {ts : List CType} {variadic : Bool} (hb : Blanks b)
    (hts : ∀ t ∈ ts, IsType t.text.toList t) (hne : ts = [] → variadic = true) :
    IsParamList IsType (b ++ [',', ' '].intercalate (ts.map (·.text.toList) ++
      if variadic then [['.', '.', '.']] else [])) ts variadic := by
  induction ts generalizing b with
  | nil => simpa [hne rfl] using IsParamList.mark hb
  | cons t ts ih =>
      rw [List.forall_mem_cons] at hts
      have ht := hts.1.blanks hb
      by_cases hlast : ts = [] ∧ variadic = false
      · obtain ⟨rfl, rfl⟩ := hlast
        simpa using IsParamList.last ht
      · have hblank : Blanks [' '] := by simp [Blanks, IsBlank]
        have hrest := ih hblank hts.2 (by simpa using hlast)
        have hmore : (ts.map (·.text.toList) ++ if variadic then [['.', '.', '.']] else []) ≠ [] := by
          cases ts <;> simp_all
        rw [List.map_cons, List.cons_append, List.intercalate_cons_of_ne_nil hmore]
        simpa using IsParamList.more ht (List.forall_mem_nil _) hrest

theorem isType_text {t : CType} (h : t.WordNamed) : IsType t.text.toList t := by
  induction t using parts_induction with
  | named name => exact isType_named (h name (List.mem_singleton.2 rfl))
  | pointer target ih =>
      have htype := IsType.pointer (b := []) (List.forall_mem_nil _) (ih h)
      simpa [text] using htype
  | array element length ih =>
      have hnil : Blanks [] := List.forall_mem_nil _
      cases length with
      | none => simpa [text] using IsType.array hnil hnil .missing hnil (ih h)
      | some n => simpa [text] using IsType.array hnil hnil (isLength_toString n) hnil (ih h)
  | function result params variadic ihr ihp =>
      obtain ⟨hparams, hresult⟩ := wordNamed_function.1 h
      have hnil : Blanks [] := List.forall_mem_nil _
      have hblank : Blanks [' '] := by simp [Blanks, IsBlank]
      have hlist : IsParams IsType ([',', ' '].intercalate (params.map (·.text.toList) ++
          if variadic then [['.', '.', '.']] else [])) params variadic := by
        by_cases hempty : params = [] ∧ variadic = false
        · obtain ⟨rfl, rfl⟩ := hempty
          exact .none hnil
        · have hjoin := isParamList_join hnil (fun p hp => ihp p hp (hparams p hp)) (by simpa using hempty)
          simpa using IsParams.some hjoin hnil
      rw [toList_text_function]
      exact IsType.function hnil hblank hlist (.type ((ihr hresult).blanks hblank))

theorem parse_text {t : CType} (h : t.WordNamed) : parse t.text = .ok t :=
  parse_of_writes ⟨t.text.toList, [], (List.append_nil _).symm, isType_text h, List.forall_mem_nil _⟩

theorem wordNamed_of_parse {text : String} {t : CType} (h : parse text = .ok t) : t.WordNamed := by
  obtain ⟨s, b, -, htype, -⟩ := writes_of_parse h
  exact htype.wordNamed

/-- A type is read back from its text just if its names consist of words. What any text is read as is such
a type, and no two of them have one text. -/
theorem parse_text_iff : (∀ t, parse t.text = .ok t ↔ t.WordNamed) ∧
    (∀ s t, parse s = .ok t → parse t.text = .ok t) ∧
    ∀ t u : CType, t.WordNamed → u.WordNamed → t.text = u.text → t = u := by
  refine ⟨fun t => ⟨wordNamed_of_parse, parse_text⟩, fun s t h => parse_text (wordNamed_of_parse h), ?_⟩
  intro t u ht hu htext
  have hread := parse_text ht
  rw [htext, parse_text hu] at hread
  injection hread with heq
  exact heq.symm

/-- A type whose names look like the keyword of function types. -/
theorem parse_text_keywords :
    parse "fn (*fn, [8]fnord fn) fn (...) fn" = .ok (.function (.function (.named "fn") [] true)
      [.pointer (.named "fn"), .array (.named "fnord fn") (some 8)] false) := by
  have hread := (parse_text_iff.1 (.function (.function (.named "fn") [] true)
    [.pointer (.named "fn"), .array (.named "fnord fn") (some 8)] false)).2 (by decide)
  exact hread

end Diversity.CType
