import Diversity.Proofs.TypeText
/-! The tokens of C text. Each token is the longest that can be read; a text that is put together from parts has
the tokens of the parts unless two of them run together. -/
namespace Diversity.C

open CType.Parser CType.Grammar

inductive Token where
  /-- An identifier or a keyword. -/
  | word (name : String)
  /-- A number, a character or a string. -/
  | literal (text : String)
  | lparen
  | rparen
  | lbracket
  | rbracket
  | comma
  | ellipsis
  | star
  /-- Any other punctuator. -/
  | symbol (spelling : String)
  deriving DecidableEq

def Token.ofPunctuator : String → Token
  | "(" => .lparen
  | ")" => .rparen
  | "[" => .lbracket
  | "]" => .rbracket
  | "," => .comma
  | "..." => .ellipsis
  | "*" => .star
  | spelling => .symbol spelling

/-- All punctuators. Longer ones come first, so that the first one found is the longest. -/
def punctuators : List String :=
  ["%:%:", "...", "<<=", ">>=", "->", "++", "--", "<<", ">>", "<=", ">=", "==", "!=", "&&", "||", "*=", "/=",
    "%=", "+=", "-=", "&=", "^=", "|=", "##", "<:", ":>", "<%", "%>", "%:", "[", "]", "(", ")", "\x7b", "\x7d",
    ".", "&", "*", "+", "-", "~", "!", "/", "%", "<", ">", "^", "|", "?", ":", ";", "=", ",", "#"]

def punctuator? (s : List Char) : Option (Token × List Char) :=
  (punctuators.find? (·.toList.isPrefixOf s)).map fun p => (.ofPunctuator p, s.drop p.toList.length)

def startsComment (s : List Char) : Bool := ['/', '/'].isPrefixOf s || ['/', '*'].isPrefixOf s

def isExponent (c : Char) : Bool := c == 'e' || c == 'E' || c == 'p' || c == 'P'

def isSign (c : Char) : Bool := c == '+' || c == '-'

def isNumberRest (c : Char) : Bool := isWordRest c || c == '.'

/-- The front of a text that belongs to a number, and what follows. After the letter of an exponent a sign
belongs to it too. -/
def spanNumber (afterExponent : Bool) : List Char → List Char × List Char
  | [] => ([], [])
  | c :: s =>
    if isNumberRest c || (afterExponent && isSign c) then
      (c :: (spanNumber (isExponent c) s).1, (spanNumber (isExponent c) s).2)
    else ([], c :: s)

def startsNumber : List Char → Bool
  | '.' :: c :: _ => c.isDigit
  | c :: _ => c.isDigit
  | [] => false

def isQuote (c : Char) : Bool := c == '"' || c == '\''

/-- The front of a text up to the closing quote and with it, and what follows. A backslash takes the next
character along; a literal does not go beyond its line. -/
def spanQuoted (quote : Char) (escaped : Bool) : List Char → Option (List Char × List Char)
  | [] => none
  | c :: s =>
    if c == '\n' then none
    else if !escaped && c == quote then some ([c], s)
    else (spanQuoted quote (!escaped && c == '\\') s).map fun r => (c :: r.1, r.2)

/-- A character or a string behind the prefix that says how it is encoded. -/
def quoted? (encoding : List Char) : List Char → Option (Token × List Char)
  | [] => none
  | quote :: s =>
    (spanQuoted quote false s).map fun r => (.literal (String.ofList (encoding ++ quote :: r.1)), r.2)

def encodings : List (List Char) := [['L'], ['u'], ['U'], ['u', '8']]

/-- The token in front of a text that does not start with a blank. Comments are no tokens. -/
def token? (s : List Char) : Option (Token × List Char) :=
  match word s with
  | some (w, rest) =>
    if encodings.contains w && rest.head?.any isQuote then quoted? w rest
    else some (.word (String.ofList w), rest)
  | none =>
    if startsNumber s then some (.literal (String.ofList (spanNumber false s).1), (spanNumber false s).2)
    else if s.head?.any isQuote then quoted? [] s
    else if startsComment s then none
    else punctuator? s

/-- The tokens of a text; `none` if it is not made of tokens. -/
def lex : List Char → Option (List Token)
  | [] => some []
  | c :: s =>
    if isSpace c then lex s
    else match token? (c :: s) with
      | none => none
      | some (t, rest) => if rest.length ≤ s.length then (lex rest).map (t :: ·) else none
termination_by s => s.length

variable {s s' rest : List Char} {ts ts' : List Token} {t : Token}

theorem lex_nil : lex [] = some [] := by
  rw [lex]

theorem lex_space (s : List Char) : lex (' ' :: s) = lex s := by
  rw [lex, if_pos (by decide)]

theorem lex_of_token {c : Char} (hc : ¬ IsBlank c) (h : token? (c :: s ++ rest) = some (t, rest)) :
    lex (c :: s ++ rest) = (lex rest).map (t :: ·) := by
  have hlen : rest.length ≤ (s ++ rest).length := by simp
  rw [List.cons_append] at h ⊢
  rw [lex, if_neg (by rwa [isSpace_iff]), h]
  simp only [if_pos hlen]

/-! ### Where a token is over -/

/-- A text that continues no word, number or quoted text before it. -/
def Delimited (rest : List Char) : Prop := ∀ c ∈ rest.head?, c ∈ [' ', '(', ')', '[', ']', ',']

theorem Delimited.append (hs : Delimited s) (hrest : Delimited rest) : Delimited (s ++ rest) := by
  cases s with
  | nil => exact hrest
  | cons c s => exact hs

theorem Delimited.stops {p : Char → Bool} (hp : [' ', '(', ')', '[', ']', ','].any p = false)
    (h : Delimited rest) : Stops p rest := by
  intro c hc
  rw [List.any_eq_false] at hp
  exact Bool.eq_false_of_not_eq_true (hp c (h c hc))

theorem token?_word {w : List Char} (hw : IsWord w) (hrest : Delimited rest) :
    token? (w ++ rest) = some (.word (String.ofList w), rest) := by
  have hquote : rest.head?.any isQuote = false := by
    cases rest with
    | nil => rfl
    | cons c rest => exact hrest.stops (p := isQuote) (by decide) c rfl
  rw [token?, word_append hw (hrest.stops (by decide))]
  simp [hquote]

theorem spanQuoted_append {quote : Char} {escaped : Bool} {l : List Char}
    (h : spanQuoted quote escaped s = some (l, s')) (rest : List Char) :
    spanQuoted quote escaped (s ++ rest) = some (l, s' ++ rest) := by
  induction s generalizing escaped l with
  | nil => cases h
  | cons c s ih =>
      rw [spanQuoted] at h
      rw [List.cons_append, spanQuoted]
      split_ifs at h ⊢
      · cases h
        rfl
      · obtain ⟨r, hr, heq⟩ := Option.map_eq_some_iff.1 h
        cases heq
        rw [ih hr, Option.map_some]

theorem quoted?_append {encoding : List Char} (h : quoted? encoding s = some (t, s')) (rest : List Char) :
    quoted? encoding (s ++ rest) = some (t, s' ++ rest) := by
  cases s with
  | nil => cases h
  | cons quote s =>
      obtain ⟨r, hr, heq⟩ := Option.map_eq_some_iff.1 h
      cases heq
      simp [quoted?, spanQuoted_append hr]

theorem spanNumber_append {afterExponent : Bool} (hs : (spanNumber afterExponent s).2 = []) (hrest : Delimited rest) :
    spanNumber afterExponent (s ++ rest) = ((spanNumber afterExponent s).1, rest) := by
  induction s generalizing afterExponent with
  | nil =>
      cases rest with
      | nil => rfl
      | cons c rest =>
          have hnumber : isNumberRest c = false := hrest.stops (p := isNumberRest) (by decide) c rfl
          have hsign : isSign c = false := hrest.stops (p := isSign) (by decide) c rfl
          simp [spanNumber, hnumber, hsign]
  | cons c s ih =>
      rw [spanNumber] at hs ⊢
      rw [List.cons_append, spanNumber]
      split_ifs at hs ⊢
      simp [ih hs]

/-- The text is one literal: a number without a sign, a character or a string. -/
def IsLiteral (text : String) : Prop := token? text.toList = some (.literal text, [])

instance (text : String) : Decidable (IsLiteral text) :=
  inferInstanceAs (Decidable (token? text.toList = some (.literal text, [])))

theorem punctuator?_ne_literal {l : String} : punctuator? s ≠ some (.literal l, rest) := by
  intro h
  obtain ⟨p, -, heq⟩ := Option.map_eq_some_iff.1 h
  have hp : Token.ofPunctuator p = .literal l := congrArg Prod.fst heq
  revert hp
  unfold Token.ofPunctuator
  split <;> simp

theorem startsNumber_append (hs : startsNumber s = true) (rest : List Char) : startsNumber (s ++ rest) = true := by
  fun_cases startsNumber s with
  | case1 c s => exact hs
  | case2 c s hne =>
      rw [startsNumber] at hs
      · rwa [List.cons_append, startsNumber]
        rintro d r rfl -
        cases hs
      · exact hne
  | case3 => cases hs

theorem isQuote_iff {c : Char} : isQuote c = true ↔ c = '"' ∨ c = '\'' := by
  simp [isQuote]

theorem word_append_of_none (h : word s = none) (hne : s ≠ []) (rest : List Char) : word (s ++ rest) = none := by
  cases s with
  | nil => exact absurd rfl hne
  | cons c s =>
      simp only [word, ite_eq_right_iff, reduceCtorEq, imp_false] at h
      simp [word, h]

theorem token?_literal {l : String} (hl : IsLiteral l) (hrest : Delimited rest) :
    token? (l.toList ++ rest) = some (.literal l, rest) := by
  unfold IsLiteral at hl
  generalize l.toList = s at hl ⊢
  unfold token? at hl
  cases hword : word s with
  | some read =>
      obtain ⟨w, r⟩ := read
      obtain ⟨rfl, hw⟩ := word_eq_some hword
      simp only [hword, ite_eq_iff, Bool.and_eq_true, Option.some.injEq, Prod.mk.injEq, reduceCtorEq, false_and,
        and_false, or_false] at hl
      -- the word before the quote is the same in the longer text
      obtain ⟨⟨hencoding, hquote⟩, hl⟩ := hl
      cases r with
      | nil => cases hquote
      | cons q r =>
          have hstops : Stops isWordRest (q :: r ++ rest) := by
            rintro c ⟨⟩
            rcases isQuote_iff.1 hquote with rfl | rfl <;> rfl
          have hquote' : (q :: r ++ rest).head?.any isQuote = true := hquote
          rw [token?, List.append_assoc, word_append hw hstops]
          simp only [hencoding, hquote', Bool.and_self, if_true]
          exact quoted?_append hl rest
  | none =>
      simp only [hword] at hl
      have hne : s ≠ [] := by
        rintro rfl
        cases hl
      rw [token?, word_append_of_none hword hne]
      by_cases hnumber : startsNumber s = true
      · simp only [hnumber, if_true, Option.some.injEq, Prod.mk.injEq, Token.literal.injEq] at hl
        simp only [startsNumber_append hnumber, if_true, spanNumber_append hl.2 hrest, hl.1]
      · rw [if_neg hnumber] at hl
        by_cases hquote : s.head?.any isQuote = true
        · rw [if_pos hquote] at hl
          have hread := quoted?_append hl rest
          cases s with
          | nil => cases hquote
          | cons q s =>
              rcases isQuote_iff.1 hquote with rfl | rfl <;> exact hread
        · rw [if_neg hquote] at hl
          split at hl
          · cases hl
          · exact absurd hl punctuator?_ne_literal

theorem not_isWordStart_of_isDigit {c : Char} (hc : c.isDigit = true) : isWordStart c = false := by
  obtain ⟨-, hle⟩ := isDigit_iff.1 hc
  rw [← Bool.not_eq_true, isWordStart_iff]
  rintro (⟨hge, -⟩ | ⟨hge, -⟩ | rfl)
  · exact absurd (Char.le_trans hge hle) (by decide)
  · exact absurd (Char.le_trans hge hle) (by decide)
  · cases hc

theorem spanNumber_of_forall {afterExponent : Bool} (h : ∀ c ∈ s, isNumberRest c = true) :
    spanNumber afterExponent s = (s, []) := by
  induction s generalizing afterExponent with
  | nil => rfl
  | cons c s ih =>
      rw [List.forall_mem_cons] at h
      simp [spanNumber, h.1, ih h.2]

theorem token?_digits (hne : s ≠ []) (h : ∀ c ∈ s, c.isDigit = true) :
    token? s = some (.literal (String.ofList s), []) := by
  have hnumber : ∀ c ∈ s, isNumberRest c = true := by
    intro c hc
    simp [isNumberRest, isWordRest_iff.2 (.inr (isDigit_iff.1 (h c hc)))]
  cases s with
  | nil => exact absurd rfl hne
  | cons c s =>
      have hc := h c List.mem_cons_self
      have hstarts : startsNumber (c :: s) = true := by
        rwa [startsNumber]
        rintro d r rfl -
        cases hc
      rw [token?, word, not_isWordStart_of_isDigit hc]
      simp [hstarts, spanNumber_of_forall hnumber]

/-! ### Texts put together -/

/-- Before any text that does not continue it, the text has the tokens. -/
def Lexes (s : List Char) (ts : List Token) : Prop :=
  ∀ rest, Delimited rest → lex (s ++ rest) = (lex rest).map (ts ++ ·)

theorem Lexes.lex (h : Lexes s ts) : lex s = some ts := by
  have hall := h [] (by simp [Delimited])
  simpa [lex_nil] using hall

theorem Lexes.nil : Lexes [] [] := by
  intro rest _
  simp

theorem Lexes.space (h : Lexes s ts) : Lexes (' ' :: s) ts := by
  intro rest hrest
  rw [List.cons_append, lex_space, h rest hrest]

theorem Lexes.append (h : Lexes s ts) (h' : Lexes s' ts') (hs' : Delimited s') : Lexes (s ++ s') (ts ++ ts') := by
  intro rest hrest
  rw [List.append_assoc, h _ (hs'.append hrest), h' rest hrest, Option.map_map]
  simp [Function.comp_def]

theorem Lexes.ofToken {c : Char} (hc : ¬ IsBlank c)
    (h : ∀ rest, Delimited rest → token? (c :: s ++ rest) = some (t, rest)) : Lexes (c :: s) [t] := by
  intro rest hrest
  rw [lex_of_token hc (h rest hrest)]
  rfl

theorem lexes_word {w : List Char} (hw : IsWord w) : Lexes w [.word (String.ofList w)] := by
  cases hw with
  | intro hc hs => exact .ofToken (not_isBlank_of_isLetter hc) fun rest => token?_word (.intro hc hs)

theorem lexes_literal {l : String} (hl : IsLiteral l) : Lexes l.toList [.literal l] := by
  have htoken (rest) (hrest : Delimited rest) := token?_literal hl hrest
  cases hs : l.toList with
  | nil =>
      rw [IsLiteral, hs] at hl
      cases hl
  | cons c s =>
      rw [hs] at htoken
      refine .ofToken (fun hc => ?_) htoken
      rw [IsLiteral, hs] at hl
      rcases hc with rfl | rfl | rfl | rfl <;> cases hl

/-- The brackets and the comma, which are tokens whatever follows. -/
def brackets : List (Char × Token) :=
  [('(', .lparen), (')', .rparen), ('[', .lbracket), (']', .rbracket), (',', .comma)]

theorem lex_bracket {c : Char} (hc : (c, t) ∈ brackets) (rest : List Char) :
    lex (c :: rest) = (lex rest).map (t :: ·) := by
  have hblank : ∀ p ∈ brackets, ¬ IsBlank p.1 := by decide
  have htoken : token? ([c] ++ rest) = some (t, rest) := by
    simp only [brackets, List.mem_cons, Prod.mk.injEq, List.not_mem_nil, or_false] at hc
    rcases hc with ⟨rfl, rfl⟩ | ⟨rfl, rfl⟩ | ⟨rfl, rfl⟩ | ⟨rfl, rfl⟩ | ⟨rfl, rfl⟩ <;> rfl
  exact lex_of_token (s := []) (hblank _ hc) htoken

theorem Lexes.bracket {c : Char} (hc : (c, t) ∈ brackets) (h : Lexes s ts) : Lexes (c :: s) (t :: ts) := by
  intro rest hrest
  rw [List.cons_append, lex_bracket hc, h rest hrest, Option.map_map]
  rfl

theorem delimited_bracket {c : Char} (hc : (c, t) ∈ brackets) (s : List Char) : Delimited (c :: s) := by
  have hall : ∀ p ∈ brackets, p.1 ∈ [' ', '(', ')', '[', ']', ','] := by decide
  rintro d ⟨⟩
  exact hall _ hc

theorem Lexes.enclosed {c c' : Char} {t' : Token} (hc : (c, t) ∈ brackets) (hc' : (c', t') ∈ brackets)
    (h : Lexes s ts) : Lexes (c :: (s ++ [c'])) (t :: (ts ++ [t'])) :=
  (h.append (nil.bracket hc') (delimited_bracket hc' [])).bracket hc

/-- The operators that stand in front of an operand without a space. -/
def prefixes : List (Char × Token) :=
  [('*', .star), ('&', .symbol "&"), ('!', .symbol "!"), ('~', .symbol "~"), ('-', .symbol "-"), ('+', .symbol "+")]

/-- The text does not run together with the operator `c` in front of it; no operator is written `**`. -/
def Apart (c : Char) (s : List Char) : Prop := ∀ d ∈ s.head?, '=' ≠ d ∧ '>' ≠ d ∧ (c ≠ '*' → c ≠ d)

theorem Delimited.apart {c : Char} (hc : (c, t) ∈ prefixes) (h : Delimited s) : Apart c s := by
  have hall : ∀ p ∈ prefixes, p.1 ∉ [' ', '(', ')', '[', ']', ','] := by decide
  intro d hd
  have hmem := h d hd
  refine ⟨?_, ?_, ?_⟩
  · rintro rfl
    exact absurd hmem (by decide)
  · rintro rfl
    exact absurd hmem (by decide)
  · rintro - rfl
    exact hall _ hc hmem

theorem apart_of_isWord {c : Char} (hc : (c, t) ∈ prefixes) (hs : IsWord s) : Apart c s := by
  have hall : ∀ p ∈ prefixes, isWordStart p.1 = false := by decide
  cases hs with
  | intro hd _ =>
      rintro d ⟨⟩
      rw [← isWordStart_iff] at hd
      refine ⟨?_, ?_, fun _ => ?_⟩
      · rintro rfl
        cases hd
      · rintro rfl
        cases hd
      · rintro rfl
        exact Bool.false_ne_true ((hall _ hc).symm.trans hd)

theorem Apart.append_bracket {c c' : Char} (hc : (c, t) ∈ prefixes) {t' : Token} (hc' : (c', t') ∈ brackets)
    (h : Apart c s) (rest : List Char) : Apart c (s ++ c' :: rest) := by
  cases s with
  | nil => exact (delimited_bracket hc' rest).apart hc
  | cons d s => exact h

theorem token?_ahead {c : Char} (hc : (c, t) ∈ prefixes) (hs : Apart c s) : token? (c :: s) = some (t, s) := by
  simp only [prefixes, List.mem_cons, Prod.mk.injEq, List.not_mem_nil, or_false] at hc
  cases s with
  | nil => rcases hc with ⟨rfl, rfl⟩ | ⟨rfl, rfl⟩ | ⟨rfl, rfl⟩ | ⟨rfl, rfl⟩ | ⟨rfl, rfl⟩ | ⟨rfl, rfl⟩ <;> rfl
  | cons d s =>
      obtain ⟨heq, hgt, hself⟩ := hs d rfl
      have htoken : token? (c :: d :: s) = punctuator? (c :: d :: s) := by
        rcases hc with ⟨rfl, rfl⟩ | ⟨rfl, rfl⟩ | ⟨rfl, rfl⟩ | ⟨rfl, rfl⟩ | ⟨rfl, rfl⟩ | ⟨rfl, rfl⟩ <;> rfl
      rw [htoken, punctuator?]
      rcases hc with ⟨rfl, rfl⟩ | ⟨rfl, rfl⟩ | ⟨rfl, rfl⟩ | ⟨rfl, rfl⟩ | ⟨rfl, rfl⟩ | ⟨rfl, rfl⟩ <;>
        simp_all [punctuators, List.isPrefixOf, Token.ofPunctuator]

theorem Lexes.prefixed {c : Char} (hc : (c, t) ∈ prefixes) (h : Lexes s ts) (hs : Apart c s) :
    Lexes (c :: s) (t :: ts) := by
  intro rest hrest
  have hapart : Apart c (s ++ rest) := by
    cases s with
    | nil => exact hrest.apart hc
    | cons d s => exact hs
  have hblank : ∀ p ∈ prefixes, ¬ IsBlank p.1 := by decide
  have hlex : C.lex (c :: (s ++ rest)) = (C.lex (s ++ rest)).map (t :: ·) :=
    lex_of_token (s := []) (hblank _ hc) (token?_ahead hc hapart)
  rw [List.cons_append, hlex, h rest hrest, Option.map_map]
  rfl

theorem Lexes.join {sep : List Char} {ss : List (List Char)} {tss : List (List Token)}
    (hsep : ∀ s ts, Lexes s ts → Delimited (sep ++ s) ∧ Lexes (sep ++ s) (t :: ts)) (h : List.Forall₂ Lexes ss tss) :
    Lexes (sep.intercalate ss) ([t].intercalate tss) := by
  induction h with
  | nil => exact .nil
  | cons hs hss ih =>
      cases hss with
      | nil => simpa using hs
      | cons hs' hss' =>
          rw [List.intercalate_cons_cons, List.intercalate_cons_cons, List.append_assoc, List.append_assoc]
          exact hs.append (hsep _ _ ih).2 (hsep _ _ ih).1

theorem Lexes.commas {ss : List (List Char)} {tss : List (List Token)} (h : List.Forall₂ Lexes ss tss) :
    Lexes ([',', ' '].intercalate ss) ([.comma].intercalate tss) := by
  refine .join (fun s ts hs => ⟨?_, hs.space.bracket (by decide)⟩) h
  rintro c ⟨⟩
  decide

/-- The tokens of a name of words. -/
def wordTokens (name : String) : List Token := (name.toList.splitOn ' ').map fun w => .word (String.ofList w)

theorem lexes_spaced {ws : List (List Char)} (hws : ∀ w ∈ ws, IsWord w) :
    Lexes ([' '].intercalate ws) (ws.map fun w => .word (String.ofList w)) := by
  induction ws with
  | nil => exact .nil
  | cons w ws ih =>
      rw [List.forall_mem_cons] at hws
      cases ws with
      | nil => simpa using lexes_word hws.1
      | cons v ws =>
          rw [List.intercalate_cons_cons, List.append_assoc, List.map_cons, ← List.singleton_append]
          refine (lexes_word hws.1).append (ih hws.2).space ?_
          rintro c ⟨⟩
          decide

theorem lexes_words {name : String} (h : CType.IsWords name) : Lexes name.toList (wordTokens name) := by
  have hjoin : [' '].intercalate (name.toList.splitOn ' ') = name.toList := List.intercalate_splitOn ' '
  have hlexes := lexes_spaced h
  rwa [hjoin] at hlexes

end Diversity.C
