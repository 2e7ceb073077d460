import Diversity.Proofs.Lexing
import Mathlib.Data.List.Forall2
/-! C declarators: how they are read, and that the declaration of a name with a type is read as that name and that
type. -/
namespace Diversity.CType

theorem bareDeclarators_eq (ts : List CType) : bareDeclarators ts = ts.map (declarator · "") := by
  induction ts with
  | nil => rfl
  | cons t ts ih => rw [bareDeclarators, ih, List.map_cons]

mutual

/-- The parameter lists in a type, and whether further arguments may follow. -/
def signatures : CType → List (List CType × Bool)
  | .named _ => []
  | .pointer target => signatures target
  | .array element _ => signatures element
  | .function result params variadic => (params, variadic) :: (signaturesOfAll params ++ signatures result)

def signaturesOfAll : List CType → List (List CType × Bool)
  | [] => []
  | t :: ts => signatures t ++ signaturesOfAll ts

end

theorem signaturesOfAll_eq (ts : List CType) : signaturesOfAll ts = ts.flatMap signatures := by
  induction ts with
  | nil => rfl
  | cons t ts ih => rw [signaturesOfAll, ih, List.flatMap_cons]

/-- The words of which the names in a type consist. -/
def words (t : CType) : List String := t.names.flatMap fun name => (name.toList.splitOn ' ').map String.ofList

theorem mem_words_function {result : CType} {params : List CType} {variadic : Bool} {w : String} :
    w ∈ (function result params variadic).words ↔ (∃ p ∈ params, w ∈ p.words) ∨ w ∈ result.words := by
  simp only [words, names, namesOfAll_eq, List.mem_flatMap, List.mem_append]
  grind

/-- The names of the type consist of words that name types. -/
def Known (isType : String → Bool) (t : CType) : Prop := t.WordNamed ∧ ∀ w ∈ t.words, isType w = true

instance (isType : String → Bool) (t : CType) : Decidable (t.Known isType) :=
  inferInstanceAs (Decidable (t.WordNamed ∧ ∀ w ∈ t.words, isType w = true))

theorem known_function {isType : String → Bool} {result : CType} {params : List CType} {variadic : Bool} :
    (function result params variadic).Known isType ↔ (∀ p ∈ params, p.Known isType) ∧ result.Known isType := by
  simp only [Known, wordNamed_function, mem_words_function]
  grind

/-- The names of the type consist of words, C spells them as they are, and no parameter list of it would be taken
for an empty one. -/
structure Plain (t : CType) : Prop where
  words : t.WordNamed
  spelled : ∀ name ∈ t.names, Builtin.spell name = name
  voids : ([.void], false) ∉ t.signatures

instance (t : CType) : Decidable t.Plain :=
  decidable_of_iff (t.WordNamed ∧ (∀ name ∈ t.names, Builtin.spell name = name) ∧ ([.void], false) ∉ t.signatures)
    ⟨fun ⟨hwords, hspelled, hvoids⟩ => ⟨hwords, hspelled, hvoids⟩, fun h => ⟨h.words, h.spelled, h.voids⟩⟩

theorem plain_function {result : CType} {params : List CType} {variadic : Bool} :
    (function result params variadic).Plain ↔
      (params, variadic) ≠ ([.void], false) ∧ (∀ p ∈ params, p.Plain) ∧ result.Plain := by
  constructor
  · rintro ⟨hwords, hspelled, hvoids⟩
    simp only [names, signatures, namesOfAll_eq, signaturesOfAll_eq, List.mem_append, List.mem_cons, List.mem_flatMap,
      not_or] at hspelled hvoids
    obtain ⟨hparams, hresult⟩ := wordNamed_function.1 hwords
    refine ⟨Ne.symm hvoids.1, fun p hp => ⟨hparams p hp, ?_, ?_⟩, hresult, fun n hn => hspelled n (.inr hn), hvoids.2.2⟩
    · exact fun n hn => hspelled n (.inl ⟨p, hp, hn⟩)
    · exact fun h => hvoids.2.1 ⟨p, hp, h⟩
  · rintro ⟨hvoid, hparams, hresult⟩
    refine ⟨wordNamed_function.2 ⟨fun p hp => (hparams p hp).words, hresult.words⟩, fun n hn => ?_, fun h => ?_⟩
    · simp only [names, namesOfAll_eq, List.mem_append, List.mem_flatMap] at hn
      rcases hn with ⟨p, hp, hn⟩ | hn
      · exact (hparams p hp).spelled n hn
      · exact hresult.spelled n hn
    · simp only [signatures, signaturesOfAll_eq, List.mem_cons, List.mem_append, List.mem_flatMap] at h
      rcases h with h | ⟨p, hp, h⟩ | h
      · exact hvoid h.symm
      · exact (hparams p hp).voids h
      · exact hresult.voids h

end Diversity.CType

namespace Diversity.C

/-! ### The tokens of a printed type -/

def lengthTokens : Option UInt64 → List Token
  | none => []
  | some n => [.literal (toString n.toNat)]

/-- Parameters, at least one or the mark for further ones. -/
def listTokens (params : List (List Token)) (variadic : Bool) : List Token :=
  [.comma].intercalate (params ++ if variadic then [[.ellipsis]] else [])

/-- A parameter list between its parentheses. -/
def paramTokens (params : List (List Token)) (variadic : Bool) : List Token :=
  if params = [] ∧ variadic = false then [.word "void"] else listTokens params variadic

mutual

/-- The tokens of a type's declaration around those of what is declared. -/
def declaratorTokens : CType → List Token → List Token
  | .named base, inner => wordTokens base ++ inner
  | .pointer target, inner =>
    declaratorTokens target
      (if target.bindsTighter then .lparen :: .star :: (inner ++ [.rparen]) else .star :: inner)
  | .array element length, inner =>
    declaratorTokens element (inner ++ .lbracket :: (lengthTokens length ++ [.rbracket]))
  | .function result params variadic, inner =>
    declaratorTokens result (inner ++ .lparen :: (paramTokens (bareTokens params) variadic ++ [.rparen]))

def bareTokens : List CType → List (List Token)
  | [] => []
  | t :: ts => declaratorTokens t [] :: bareTokens ts

end

theorem bareTokens_eq (ts : List CType) : bareTokens ts = ts.map (declaratorTokens · []) := by
  induction ts with
  | nil => rfl
  | cons t ts ih => rw [bareTokens, ih, List.map_cons]

theorem isLiteral_toString (n : Nat) : IsLiteral (toString n) := by
  have hdigits : ∀ c ∈ Nat.toDigits 10 n, c.isDigit = true :=
    fun c hc => Nat.isDigit_of_mem_toDigits (by decide) (by decide) hc
  rw [IsLiteral, Nat.toString_eq_ofList_toDigits, String.toList_ofList]
  exact token?_digits Nat.toDigits_ne_nil hdigits

theorem lexes_paramText {params : List String} {tss : List (List Token)}
    (h : List.Forall₂ (fun s ts => Lexes s.toList ts) params tss) (variadic : Bool) :
    Lexes (CType.paramText (params ++ if variadic then ["..."] else [])).toList (paramTokens tss variadic) := by
  have hvoid : Lexes ['v', 'o', 'i', 'd'] [.word "void"] := lexes_word (by decide)
  have hellipsis : Lexes ['.', '.', '.'] [.ellipsis] := .ofToken (by decide) fun rest _ => rfl
  have hparams : List.Forall₂ Lexes (params.map String.toList) tss := List.forall₂_map_left_iff.2 h
  have hnil : params = [] ↔ tss = [] := by
    cases h <;> simp
  cases variadic with
  | false =>
      by_cases hempty : tss = []
      · simpa [CType.paramText, paramTokens, hempty, hnil.2 hempty] using hvoid
      · simpa [CType.paramText, paramTokens, listTokens, hempty, hnil] using Lexes.commas hparams
  | true =>
      have hall := List.rel_append hparams (List.Forall₂.cons hellipsis .nil)
      simpa [CType.paramText, paramTokens, listTokens] using Lexes.commas hall

theorem lexes_declarator {t : CType} (ht : t.Plain) {name : String} {inner : List Token}
    (h : Lexes name.toList inner) (hname : Apart '*' name.toList) :
    Lexes (t.declarator name).toList (declaratorTokens t inner) := by
  induction t using CType.parts_induction generalizing name inner with
  | named base =>
      have hbase : Builtin.spell base = base := ht.spelled base (List.mem_singleton.2 rfl)
      have hwords := lexes_words (ht.words base (List.mem_singleton.2 rfl))
      rw [CType.declarator, declaratorTokens, hbase]
      split
      · rename_i hempty
        obtain rfl := String.isEmpty_iff.1 hempty
        have hinner : some [] = some inner := lex_nil.symm.trans h.lex
        cases hinner
        simpa using hwords
      · have hspace : Delimited (' ' :: name.toList) := by
          rintro c ⟨⟩
          decide
        simpa using hwords.append h.space hspace
  | pointer target ih =>
      have hstar : Lexes ('*' :: name.toList) (.star :: inner) := h.prefixed (by decide) hname
      have hgroup : Lexes ('(' :: ('*' :: name.toList ++ [')'])) (.lparen :: (.star :: inner ++ [.rparen])) :=
        hstar.enclosed (by decide) (by decide)
      rw [CType.declarator, declaratorTokens]
      refine ih ⟨ht.words, ht.spelled, ht.voids⟩ ?_ ?_
      · split
        · simpa using hgroup
        · simpa using hstar
      · split <;> simp [Apart]
  | array element length ih =>
      have hlength : Lexes (length.elim "" (toString ·.toNat)).toList (lengthTokens length) := by
        cases length with
        | none => exact .nil
        | some n => exact lexes_literal (isLiteral_toString n.toNat)
      have hopen : ('[', Token.lbracket) ∈ brackets := by decide
      have hclose : (']', Token.rbracket) ∈ brackets := by decide
      have happend := h.append (hlength.enclosed hopen hclose) (delimited_bracket hopen _)
      rw [CType.declarator, declaratorTokens]
      refine ih ⟨ht.words, ht.spelled, ht.voids⟩ ?_ ?_
      · simpa using happend
      · simpa using hname.append_bracket (t := .star) (by decide) hopen _
  | function result params variadic ihr ihp =>
      obtain ⟨-, hparams, hresult⟩ := CType.plain_function.1 ht
      have hlist : List.Forall₂ (fun s ts => Lexes s.toList ts) (CType.bareDeclarators params) (bareTokens params) := by
        rw [CType.bareDeclarators_eq, bareTokens_eq, List.forall₂_map_left_iff, List.forall₂_map_right_iff,
          List.forall₂_same]
        exact fun p hp => ihp p hp (hparams p hp) .nil (by simp [Apart])
      have hopen : ('(', Token.lparen) ∈ brackets := by decide
      have hclose : (')', Token.rparen) ∈ brackets := by decide
      have happend := h.append ((lexes_paramText hlist variadic).enclosed hopen hclose) (delimited_bracket hopen _)
      rw [CType.declarator, declaratorTokens]
      refine ihr hresult ?_ ?_
      · simpa using happend
      · simpa using hname.append_bracket (t := .star) (by decide) hopen _

/-! ### Reading declarators -/

/-- What a declarator makes of the type in front of it. -/
inductive Layer where
  | pointer
  | array (length : Option UInt64)
  | function (params : List CType) (variadic : Bool)

def Layer.wrap : Layer → CType → CType
  | .pointer, t => .pointer t
  | .array length, t => .array t length
  | .function params variadic, t => .function t params variadic

/-- The name that is declared, if any, and the layers around it from the inside outwards. -/
structure Declarator where
  name : Option String
  layers : List Layer

namespace Declarator

def abstract : Declarator := ⟨none, []⟩

def add (d : Declarator) (l : Layer) : Declarator := ⟨d.name, d.layers ++ [l]⟩

def type (d : Declarator) (base : CType) : CType := d.layers.foldr Layer.wrap base

end Declarator

def Token.word? : Token → Option String
  | .word name => some name
  | _ => none

/-- The array length that a decimal constant writes. -/
def length? (text : String) : Option UInt64 :=
  let n := Text.ofDigits text.toList
  if toString n = text ∧ n < UInt64.size then some (UInt64.ofNat n) else none

section Reader

-- which words name types
variable (isType : String → Bool)

/-- What follows an opening parenthesis makes it that of a parameter list. -/
def opensParams : List Token → Bool
  | .word w :: ts => isType w || (w == "void" && ts.head? == some .rparen)
  | .ellipsis :: _ => true
  | _ => false

/-- The name of a type in front of a text, and what follows. -/
def specifiers (ts : List Token) : CType × List Token :=
  (.named (" ".intercalate ((ts.takeWhile (·.word?.any isType)).filterMap Token.word?)),
    ts.dropWhile (·.word?.any isType))

mutual

/-- A star binds less than what follows the name. -/
def declarator : List Token → Option (Declarator × List Token)
  | .star :: ts =>
    match declarator ts with
    | some (d, rest) => some (d.add .pointer, rest)
    | none => none
  | ts => direct ts
termination_by ts => 3 * ts.length + 2

/-- A name, a declarator between parentheses or nothing, and what follows it. -/
def direct : List Token → Option (Declarator × List Token)
  | .word name :: ts => suffixes ⟨some name, []⟩ ts
  | .lparen :: ts =>
    if opensParams isType ts then suffixes .abstract (.lparen :: ts)
    else match declarator ts with
      | some (d, .rparen :: rest) => if rest.length < ts.length then suffixes d rest else none
      | _ => none
  | ts => suffixes .abstract ts
termination_by ts => 3 * ts.length + 1

/-- Array lengths and parameter lists. -/
def suffixes (d : Declarator) : List Token → Option (Declarator × List Token)
  | .lbracket :: .rbracket :: ts => suffixes (d.add (.array none)) ts
  | .lbracket :: .literal text :: .rbracket :: ts =>
    match length? text with
    | some n => suffixes (d.add (.array (some n))) ts
    | none => none
  | .lparen :: ts =>
    match params ts with
    | some ((ps, variadic), rest) =>
      if rest.length < ts.length then suffixes (d.add (.function ps variadic)) rest else none
    | none => none
  | ts => some (d, ts)
termination_by ts => 3 * ts.length

/-- The rest of a parameter list after its opening parenthesis; `void` alone stands for no parameters. -/
def params (ts : List Token) : Option ((List CType × Bool) × List Token) :=
  if ts.take 2 = [.word "void", .rparen] then some (([], false), ts.drop 2) else paramList ts
termination_by 3 * ts.length + 2

def paramList (ts : List Token) : Option ((List CType × Bool) × List Token) :=
  if ts.take 2 = [.ellipsis, .rparen] then some (([], true), ts.drop 2)
  else match typeName ts with
    | some (t, .rparen :: rest) => some (([t], false), rest)
    | some (t, .comma :: rest) =>
      if rest.length < ts.length then (paramList rest).map fun r => ((t :: r.1.1, r.1.2), r.2) else none
    | _ => none
termination_by 3 * ts.length + 1

/-- A type without the name of what has it. -/
def typeName (ts : List Token) : Option (CType × List Token) :=
  if (specifiers isType ts).2.length < ts.length then
    match declarator (specifiers isType ts).2 with
    | some (⟨none, layers⟩, rest) => some ((Declarator.mk none layers).type (specifiers isType ts).1, rest)
    | _ => none
  else none
termination_by 3 * ts.length

end

/-- A declarator may start with these tokens. -/
def startsDeclarator : List Token → Bool
  | .star :: _ | .word _ :: _ => true
  | .lparen :: ts => !opensParams isType ts
  | _ => false

/-- A declaration. Of the words in front the last is the name that is declared, unless a declarator follows. -/
def declaration (ts : List Token) : Option (String × CType) :=
  let words := (ts.takeWhile (·.word?.isSome)).length
  let count := if startsDeclarator isType (ts.drop words) then words else words - 1
  match specifiers isType (ts.take count), declarator isType (ts.drop count) with
  | (base, []), some (⟨some name, layers⟩, []) =>
    if count = 0 then none else some (name, (Declarator.mk (some name) layers).type base)
  | _, _ => none

variable {isType} {ts rest : List Token} {d : Declarator}

theorem declarator_star (h : declarator isType ts = some (d, rest)) :
    declarator isType (.star :: ts) = some (d.add .pointer, rest) := by
  rw [declarator, h]

theorem declarator_word (name : String) (ts : List Token) :
    declarator isType (.word name :: ts) = suffixes isType ⟨some name, []⟩ ts := by
  rw [declarator, direct]
  simp

theorem declarator_group (hopens : opensParams isType ts = false)
    (h : declarator isType ts = some (d, .rparen :: rest)) (hlt : rest.length < ts.length) :
    declarator isType (.lparen :: ts) = suffixes isType d rest := by
  rw [declarator, direct, hopens, h]
  · simp [hlt]
  · simp

theorem declarator_abstract (h : startsDeclarator isType ts = false) :
    declarator isType ts = suffixes isType .abstract ts := by
  cases ts with
  | nil => simp [declarator, direct]
  | cons t ts => cases t <;> simp_all [declarator, direct, startsDeclarator]

theorem length?_toString (n : UInt64) : length? (toString n.toNat) = some n := by
  have hvalue : Text.ofDigits (toString n.toNat).toList = n.toNat := by
    rw [Nat.toString_eq_ofList_toDigits, String.toList_ofList, Text.ofDigits, ← Nat.ofDigitChars_eq_foldl,
      Nat.ofDigitChars_ten_toDigits]
  simp only [length?, hvalue]
  rw [if_pos ⟨trivial, n.toNat_lt_size⟩, UInt64.ofNat_toNat]

theorem suffixes_array (d : Declarator) (length : Option UInt64) (rest : List Token) :
    suffixes isType d (.lbracket :: (lengthTokens length ++ .rbracket :: rest)) =
      suffixes isType (d.add (.array length)) rest := by
  cases length with
  | none => simp [lengthTokens, suffixes]
  | some n => rw [lengthTokens, List.singleton_append, suffixes, length?_toString]

theorem suffixes_function {ps : List CType} {variadic : Bool} (h : params isType ts = some ((ps, variadic), rest))
    (hlt : rest.length < ts.length) (d : Declarator) :
    suffixes isType d (.lparen :: ts) = suffixes isType (d.add (.function ps variadic)) rest := by
  rw [suffixes, h]
  simp [hlt]

/-- A type is over before these tokens. -/
def Ends (rest : List Token) : Prop := ∀ t ∈ rest.head?, t = .comma ∨ t = .rparen

theorem suffixes_ends (h : Ends rest) (d : Declarator) : suffixes isType d rest = some (d, rest) := by
  cases rest with
  | nil => simp [suffixes]
  | cons t rest => rcases h t rfl with rfl | rfl <;> simp [suffixes]

theorem Ends.startsDeclarator (h : Ends rest) : startsDeclarator isType rest = false := by
  cases rest with
  | nil => rfl
  | cons t rest => rcases h t rfl with rfl | rfl <;> rfl

/-! ### A printed type is read as that type -/

variable (isType) in
/-- What comes after the name, if any: no declarator starts in it. -/
def IsTail (inner : List Token) : Prop :=
  ∀ rest, startsDeclarator isType rest = false → startsDeclarator isType (inner ++ rest) = false

variable (isType) in
/-- Where the declared name stands: in front, or behind a star. -/
def Headed (name : Option String) (inner : List Token) : Prop :=
  (∃ tail, inner = name.toList.map .word ++ tail ∧ IsTail isType tail) ∨ (∃ tail, inner = .star :: tail) ∨
    ∃ tail, inner = .lparen :: .star :: tail

variable (isType) in
/-- The tokens are a declarator that array lengths and parameter lists may follow. -/
structure IsDirect (inner : List Token) (d : Declarator) : Prop where
  headed : Headed isType d.name inner
  reads : ∀ rest, startsDeclarator isType rest = false → declarator isType (inner ++ rest) = suffixes isType d rest

variable (isType) in
/-- The tokens are a declarator. -/
structure IsDeclarator (inner : List Token) (d : Declarator) : Prop where
  headed : Headed isType d.name inner
  reads : ∀ rest, Ends rest → declarator isType (inner ++ rest) = some (d, rest)

variable {inner : List Token}

theorem isDirect_word (name : String) : IsDirect isType [.word name] ⟨some name, []⟩ :=
  ⟨.inl ⟨[], rfl, fun _ h => h⟩, fun rest _ => declarator_word name rest⟩

theorem isDirect_nil : IsDirect isType [] .abstract :=
  ⟨.inl ⟨[], rfl, fun _ h => h⟩, fun _ => declarator_abstract⟩

theorem IsDirect.isDeclarator (h : IsDirect isType inner d) : IsDeclarator isType inner d := by
  refine ⟨h.headed, fun rest hrest => ?_⟩
  rw [h.reads rest hrest.startsDeclarator, suffixes_ends hrest]

theorem IsDeclarator.star (h : IsDeclarator isType inner d) : IsDeclarator isType (.star :: inner) (d.add .pointer) :=
  ⟨.inr (.inl ⟨inner, rfl⟩), fun rest hrest => declarator_star (h.reads rest hrest)⟩

theorem IsDeclarator.group (h : IsDeclarator isType inner d) :
    IsDirect isType (.lparen :: .star :: (inner ++ [.rparen])) (d.add .pointer) := by
  refine ⟨.inr (.inr ⟨_, rfl⟩), fun rest _ => ?_⟩
  have hread := h.star.reads (.rparen :: rest) (by rintro t ⟨⟩; exact .inr rfl)
  rw [List.cons_append, List.cons_append, List.append_assoc, List.singleton_append]
  refine declarator_group rfl hread ?_
  simp
  omega

/-- A suffix comes behind what may have one. -/
theorem IsDirect.append {suffix : List Token} {l : Layer} (h : IsDirect isType inner d)
    (hstarts : ∀ rest, startsDeclarator isType (suffix ++ rest) = false)
    (hreads : ∀ rest, suffixes isType d (suffix ++ rest) = suffixes isType (d.add l) rest) :
    IsDirect isType (inner ++ suffix) (d.add l) := by
  refine ⟨?_, fun rest _ => ?_⟩
  · rcases h.headed with ⟨tail, rfl, htail⟩ | ⟨tail, rfl⟩ | ⟨tail, rfl⟩
    · refine .inl ⟨tail ++ suffix, List.append_assoc _ _ _, fun rest _ => ?_⟩
      rw [List.append_assoc]
      exact htail _ (hstarts rest)
    · exact .inr (.inl ⟨_, rfl⟩)
    · exact .inr (.inr ⟨_, rfl⟩)
  · rw [List.append_assoc, h.reads _ (hstarts rest), hreads]

theorem IsDirect.array (h : IsDirect isType inner d) (length : Option UInt64) :
    IsDirect isType (inner ++ .lbracket :: (lengthTokens length ++ [.rbracket])) (d.add (.array length)) := by
  refine h.append (fun rest => rfl) fun rest => ?_
  rw [List.cons_append, List.append_assoc, List.singleton_append, suffixes_array]

/-- Between parentheses and before whatever follows, the tokens are read as the parameters. -/
def IsParams (isType : String → Bool) (list : List Token) (ps : List CType) (variadic : Bool) : Prop :=
  ∀ rest, opensParams isType (list ++ .rparen :: rest) = true ∧
    params isType (list ++ .rparen :: rest) = some ((ps, variadic), rest)

theorem IsDirect.function {ps : List CType} {variadic : Bool} {list : List Token} (h : IsDirect isType inner d)
    (hlist : IsParams isType list ps variadic) :
    IsDirect isType (inner ++ .lparen :: (list ++ [.rparen])) (d.add (.function ps variadic)) := by
  refine h.append (fun rest => ?_) fun rest => ?_
  · simp [startsDeclarator, (hlist rest).1]
  · rw [List.cons_append, List.append_assoc, List.singleton_append, suffixes_function (hlist rest).2]
    simp
    omega

/-- Words that name a type, before anything that does not continue them. -/
theorem specifiers_append {base : String} (hbase : ∀ w ∈ base.toList.splitOn ' ', isType (String.ofList w) = true)
    (hrest : ∀ t ∈ rest.head?, t.word?.any isType = false) :
    specifiers isType (wordTokens base ++ rest) = (.named base, rest) := by
  have htypes : ∀ t ∈ wordTokens base, t.word?.any isType = true := by
    intro t ht
    obtain ⟨w, hw, rfl⟩ := List.mem_map.1 ht
    exact hbase w hw
  have hstop : rest.takeWhile (·.word?.any isType) = [] ∧ rest.dropWhile (·.word?.any isType) = rest := by
    cases rest with
    | nil => exact ⟨rfl, rfl⟩
    | cons t rest => simp [hrest t rfl]
  have hwords : (wordTokens base).filterMap Token.word? = (base.toList.splitOn ' ').map String.ofList := by
    simp [wordTokens, List.filterMap_map, Function.comp_def, Token.word?]
  have hjoin : " ".intercalate ((base.toList.splitOn ' ').map String.ofList) = base := by
    rw [← String.toList_inj, String.toList_intercalate, List.map_map]
    simp [Function.comp_def]
  simp only [specifiers, List.takeWhile_append_of_pos htypes, List.dropWhile_append_of_pos htypes, hstop,
    List.append_nil, hwords, hjoin]

theorem Headed.not_word (h : Headed isType none inner) (hrest : Ends rest) :
    ∀ t ∈ (inner ++ rest).head?, t.word?.any isType = false := by
  rcases h with ⟨tail, rfl, htail⟩ | ⟨tail, rfl⟩ | ⟨tail, rfl⟩
  · have hstarts := htail rest hrest.startsDeclarator
    intro t ht
    cases hall : inner ++ rest with
    | nil => simp [hall] at ht
    | cons t' ts => cases t <;> simp_all [startsDeclarator, Token.word?]
  · rintro t ⟨⟩
    rfl
  · rintro t ⟨⟩
    rfl

variable (isType) in
/-- The tokens are those of a type without a name. -/
structure IsTypeName (ts : List Token) (t : CType) : Prop where
  starts : ∃ w tail, ts = .word w :: tail ∧ isType w = true
  reads : ∀ rest, Ends rest → typeName isType (ts ++ rest) = some (t, rest)

variable (isType) in
/-- The tokens are the name of a type and a declarator, which makes `t` of it and goes on from `d`. -/
def Declares (ts : List Token) (d : Declarator) (t : CType) : Prop :=
  ∃ base outer layers, (∀ w ∈ base.toList.splitOn ' ', isType (String.ofList w) = true) ∧
    ts = wordTokens base ++ outer ∧ IsDeclarator isType outer ⟨d.name, d.layers ++ layers⟩ ∧
    layers.foldr Layer.wrap (.named base) = t

theorem exists_wordTokens (base : String) :
    ∃ w ws, base.toList.splitOn ' ' = w :: ws ∧
      wordTokens base = .word (String.ofList w) :: ws.map fun w => .word (String.ofList w) := by
  obtain ⟨w, ws, hsplit⟩ := List.exists_cons_of_ne_nil (List.splitOn_ne_nil ' ' base.toList)
  exact ⟨w, ws, hsplit, by simp [wordTokens, hsplit]⟩

theorem Declares.isTypeName {t : CType} (h : Declares isType ts .abstract t) : IsTypeName isType ts t := by
  obtain ⟨base, outer, layers, hbase, rfl, houter, htype⟩ := h
  obtain ⟨w, ws, hsplit, htokens⟩ := exists_wordTokens base
  refine ⟨⟨_, _, by rw [htokens, List.cons_append], hbase w (by simp [hsplit])⟩, fun rest hrest => ?_⟩
  rw [List.append_assoc, typeName, specifiers_append hbase (houter.headed.not_word hrest),
    if_pos (by simp only [htokens, List.cons_append, List.length_cons, List.length_append]; omega),
    houter.reads rest hrest]
  simpa [Declarator.type, Declarator.abstract] using htype

theorem IsTypeName.paramList {t : CType} (h : IsTypeName isType ts t) (rest : List Token) :
    paramList isType (ts ++ rest) =
      match typeName isType (ts ++ rest) with
      | some (t, .rparen :: rest) => some (([t], false), rest)
      | some (t, .comma :: rest') =>
        if rest'.length < (ts ++ rest).length then
          (C.paramList isType rest').map fun r => ((t :: r.1.1, r.1.2), r.2)
        else none
      | _ => none := by
  obtain ⟨w, tail, rfl, -⟩ := h.starts
  rw [C.paramList, if_neg (by simp)]

theorem listTokens_cons {ps : List (List Token)} {variadic : Bool} (h : ps ≠ [] ∨ variadic = true) (p : List Token) :
    listTokens (p :: ps) variadic = p ++ .comma :: listTokens ps variadic := by
  have hne : ps ++ (if variadic then [[.ellipsis]] else []) ≠ [] := by
    simpa [or_iff_not_imp_left] using h
  rw [listTokens, List.cons_append, List.intercalate_cons_of_ne_nil hne, List.append_assoc]
  rfl

theorem paramList_printed {ps : List CType} {variadic : Bool}
    (hps : ∀ p ∈ ps, IsTypeName isType (declaratorTokens p []) p)
    (hne : ps ≠ [] ∨ variadic = true) (rest : List Token) :
    paramList isType (listTokens (bareTokens ps) variadic ++ .rparen :: rest) = some ((ps, variadic), rest) := by
  induction ps with
  | nil =>
      obtain rfl : variadic = true := by simpa using hne
      simp [bareTokens, listTokens, paramList]
  | cons p ps ih =>
      rw [List.forall_mem_cons] at hps
      have hp := hps.1
      rw [bareTokens]
      by_cases hmore : ps ≠ [] ∨ variadic = true
      · have hlist : bareTokens ps ≠ [] ∨ variadic = true := by simpa [bareTokens_eq] using hmore
        rw [listTokens_cons hlist, List.append_assoc, List.cons_append, hp.paramList,
          hp.reads _ (by rintro t ⟨⟩; exact .inl rfl)]
        simp only [ih hps.2 hmore]
        rw [if_pos (by simp; omega), Option.map_some]
      · obtain ⟨rfl, rfl⟩ : ps = [] ∧ variadic = false := by simpa using hmore
        have hlist : listTokens [declaratorTokens p []] false = declaratorTokens p [] := by simp [listTokens]
        rw [bareTokens, hlist, hp.paramList, hp.reads _ (by rintro t ⟨⟩; exact .inr rfl)]

theorem exists_intercalate_cons (sep p : List Token) (ps : List (List Token)) :
    ∃ tail, sep.intercalate (p :: ps) = p ++ tail := by
  cases ps with
  | nil => exact ⟨[], by simp⟩
  | cons p' ps => exact ⟨_, by rw [List.intercalate_cons_cons, List.append_assoc]⟩

theorem isTypeName_void (h : isType "void" = true) : IsTypeName isType [.word "void"] .void :=
  Declares.isTypeName ⟨"void", [], [], List.forall_mem_singleton.2 h, rfl, isDirect_nil.isDeclarator, rfl⟩

/-- Where `void` names a type, one parameter of that type is written like no parameters. -/
theorem paramList_void (h : isType "void" = true) (rest : List Token) :
    paramList isType (.word "void" :: .rparen :: rest) = some (([.void], false), rest) := by
  have hvoid := isTypeName_void h
  rw [← List.singleton_append, hvoid.paramList, hvoid.reads _ (by rintro t ⟨⟩; exact .inr rfl)]

theorem isParams_printed {ps : List CType} {variadic : Bool}
    (hps : ∀ p ∈ ps, IsTypeName isType (declaratorTokens p []) p) (hvoid : (ps, variadic) ≠ ([.void], false)) :
    IsParams isType (paramTokens (bareTokens ps) variadic) ps variadic := by
  intro rest
  by_cases hne : ps ≠ [] ∨ variadic = true
  · have htokens : paramTokens (bareTokens ps) variadic = listTokens (bareTokens ps) variadic := by
      rw [paramTokens, if_neg]
      simpa [bareTokens_eq, or_iff_not_imp_left] using hne
    have hread := paramList_printed hps hne rest
    rw [htokens, params]
    cases ps with
    | nil =>
        obtain rfl : variadic = true := by simpa using hne
        exact ⟨rfl, hread⟩
    | cons p ps =>
        obtain ⟨w, tail, hp, hw⟩ := (hps p List.mem_cons_self).starts
        obtain ⟨tail', hlist⟩ := exists_intercalate_cons [.comma] (declaratorTokens p [])
          (bareTokens ps ++ if variadic then [[.ellipsis]] else [])
        rw [bareTokens, listTokens, List.cons_append, hlist, hp, List.cons_append, List.cons_append] at hread ⊢
        refine ⟨by simp [opensParams, hw], ?_⟩
        rw [if_neg, hread]
        intro htake
        cases hrest : tail ++ tail' ++ .rparen :: rest with
        | nil => simp at hrest
        | cons t rest' =>
            rw [hrest] at hread htake
            obtain ⟨rfl, rfl⟩ : w = "void" ∧ t = .rparen := by simpa using htake
            rw [paramList_void hw] at hread
            exact hvoid (congrArg Prod.fst (Option.some.inj hread)).symm
  · obtain ⟨rfl, rfl⟩ : ps = [] ∧ variadic = false := by simpa using hne
    simp [paramTokens, bareTokens, opensParams, params]

theorem Declares.of_add {l : Layer} {t : CType} (h : Declares isType ts (d.add l) t) :
    Declares isType ts d (l.wrap t) := by
  obtain ⟨base, outer, layers, hbase, rfl, houter, rfl⟩ := h
  exact ⟨base, outer, l :: layers, hbase, rfl, by simpa [Declarator.add] using houter, rfl⟩

/-- Around a declarator, the tokens of a type make that type of it. -/
theorem declares_declaratorTokens {t : CType} (ht : t.Plain) (htypes : ∀ w ∈ t.words, isType w = true)
    (h : if t.bindsTighter then IsDirect isType inner d else IsDeclarator isType inner d) :
    Declares isType (declaratorTokens t inner) d t := by
  have hdirect {inner : List Token} {d : Declarator} (h : IsDirect isType inner d) (t : CType) :
      if t.bindsTighter then IsDirect isType inner d else IsDeclarator isType inner d := by
    split
    · exact h
    · exact h.isDeclarator
  induction t using CType.parts_induction generalizing inner d with
  | named base =>
      have hbase : ∀ w ∈ base.toList.splitOn ' ', isType (String.ofList w) = true := by
        simpa [CType.words, CType.names] using htypes
      have houter : IsDeclarator isType inner d := h
      exact ⟨base, inner, [], hbase, rfl, by simpa using houter, rfl⟩
  | pointer target ih =>
      have hd : IsDeclarator isType inner d := h
      refine (ih ⟨ht.words, ht.spelled, ht.voids⟩ htypes ?_).of_add (l := .pointer)
      split
      · exact hd.group
      · exact hd.star
  | array element length ih =>
      have hd : IsDirect isType inner d := h
      exact (ih ⟨ht.words, ht.spelled, ht.voids⟩ htypes (hdirect (hd.array length) element)).of_add
  | function result params variadic ihr ihp =>
      have hd : IsDirect isType inner d := h
      obtain ⟨hvoid, hparams, hresult⟩ := CType.plain_function.1 ht
      have htypes' (w) := htypes w ∘ CType.mem_words_function.2
      have hnames : ∀ p ∈ params, IsTypeName isType (declaratorTokens p []) p := fun p hp =>
        (ihp p hp (hparams p hp) (fun w hw => htypes' w (.inl ⟨p, hp, hw⟩)) (hdirect isDirect_nil p)).isTypeName
      have hlist := isParams_printed hnames hvoid
      exact (ihr hresult (fun w hw => htypes' w (.inr hw)) (hdirect (hd.function hlist) result)).of_add

theorem isTypeName_declaratorTokens {t : CType} (ht : t.Plain) (htypes : ∀ w ∈ t.words, isType w = true) :
    IsTypeName isType (declaratorTokens t []) t := by
  refine (declares_declaratorTokens ht htypes ?_).isTypeName
  split
  · exact isDirect_nil
  · exact isDirect_nil.isDeclarator

/-- Behind words, the name that is declared is the last word or stands in the declarator that follows. -/
theorem Headed.count {x : String} (h : Headed isType (some x) inner) {words : List Token}
    (hwords : ∀ t ∈ words, t.word?.isSome = true) :
    (if startsDeclarator isType ((words ++ inner).drop ((words ++ inner).takeWhile (·.word?.isSome)).length)
      then ((words ++ inner).takeWhile (·.word?.isSome)).length
      else ((words ++ inner).takeWhile (·.word?.isSome)).length - 1) = words.length := by
  rw [List.takeWhile_append_of_pos hwords, List.length_append, List.drop_append, List.drop_of_length_le (by omega),
    List.nil_append, Nat.add_sub_cancel_left]
  rcases h with ⟨tail, rfl, htail⟩ | ⟨tail, rfl⟩ | ⟨tail, rfl⟩
  · have hstarts : startsDeclarator isType tail = false := by simpa using htail [] rfl
    have hstop : tail.takeWhile (·.word?.isSome) = [] := by
      cases tail with
      | nil => rfl
      | cons t tail => cases t <;> simp_all [startsDeclarator, Token.word?]
    have hword : (Token.word x).word? = some x := rfl
    simp [hword, hstop, hstarts]
  · simp [Token.word?, startsDeclarator]
  · simp [Token.word?, startsDeclarator, opensParams]

theorem Declares.declaration {x : String} {t : CType} (h : Declares isType ts ⟨some x, []⟩ t) :
    declaration isType ts = some (x, t) := by
  obtain ⟨base, outer, layers, hbase, rfl, houter, rfl⟩ := h
  have hwords : ∀ t ∈ wordTokens base, t.word?.isSome = true := by simp [wordTokens, Token.word?]
  have hspecifiers : specifiers isType (wordTokens base) = (.named base, []) := by
    have happend : specifiers isType (wordTokens base ++ []) = (.named base, []) := specifiers_append hbase (by simp)
    simpa using happend
  have hread : declarator isType outer = some (⟨some x, layers⟩, []) := by
    simpa using houter.reads [] (by simp [Ends])
  have hpos : (wordTokens base).length ≠ 0 := by simp [wordTokens]
  simp only [C.declaration, houter.headed.count hwords, List.take_left, List.drop_left, hspecifiers, hread, if_neg hpos]
  rfl

end Reader

open CType.Grammar

theorem declaration_text {isType : String → Bool} {t : CType} {x : String} (ht : t.Plain)
    (htypes : ∀ w ∈ t.words, isType w = true) (hx : IsWord x.toList) :
    (lex (t.declarator x).toList).bind (declaration isType) = some (x, t) := by
  have hlexes : Lexes x.toList [.word x] := by simpa using lexes_word hx
  have hapart : Apart '*' x.toList := apart_of_isWord (t := .star) (by decide) hx
  rw [(lexes_declarator ht hlexes hapart).lex, Option.bind_some]
  refine (declares_declaratorTokens ht htypes ?_).declaration
  split
  · exact isDirect_word x
  · exact (isDirect_word x).isDeclarator

/-- The declaration of a name with a type is read as that name and that type wherever the words of the type name
types; so no two types give one name the same declaration. -/
theorem declaration_declarator : (∀ (isType : String → Bool) (t : CType) (x : String), t.Plain →
      (∀ w ∈ t.words, isType w = true) → IsWord x.toList →
      (lex (t.declarator x).toList).bind (declaration isType) = some (x, t)) ∧
    ∀ (t u : CType) (x : String), t.Plain → u.Plain → IsWord x.toList → t.declarator x = u.declarator x → t = u := by
  refine ⟨fun isType t x ht htypes hx => declaration_text ht htypes hx, fun t u x ht hu hx heq => ?_⟩
  have hread {t : CType} (ht : t.Plain) :
      (lex (t.declarator x).toList).bind (declaration fun _ => true) = some (x, t) :=
    declaration_text ht (fun _ _ => rfl) hx
  have hsame : some (x, t) = some (x, u) := by rw [← hread ht, ← hread hu, heq]
  exact congrArg Prod.snd (Option.some.inj hsame)

/-- The type names `int` and `fn` are known; the declared name is again `fn`. -/
theorem declaration_nested :
    (lex "fn int (*(*fn[3])(int (*)(void), fn *[], ...))[8]".toList).bind (declaration fun w => w = "int" || w = "fn") =
      some ("fn", .array (.pointer (.function (.pointer (.array (.named "fn int") (some 8)))
        [.pointer (.function (.named "int") [] false), .array (.pointer (.named "fn")) none] true)) (some 3)) :=
  Eq.trans (congrArg (fun s : String => (lex s.toList).bind (declaration fun w => w = "int" || w = "fn")) (by decide))
    (declaration_declarator.1 _ _ "fn" (by decide) (by decide) (by decide))

end Diversity.C
