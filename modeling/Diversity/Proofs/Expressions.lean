import Diversity.Program.Render
import Diversity.Proofs.Declarators
import Diversity.Proofs.Parts
import Diversity.Proofs.Precedence
/-! C expressions: how they are read, and that the text of an expression is read as that expression. -/
namespace Diversity

open C CType.Grammar

namespace Expr

mutual

/-- What a text can say of an expression: nodes have no numbers, and variables have nothing but their names. -/
def written : Expr → Expr
  | .var _ v => .var .unnumbered (.free v.name none)
  | .ref _ target => .ref .unnumbered (written target)
  | .deref _ target => .deref .unnumbered (written target)
  | .index _ target position => .index .unnumbered (written target) (written position)
  | .call _ target args => .call .unnumbered (written target) (writtenAll args)
  | .op _ symbol operands => .op .unnumbered symbol (writtenAll operands)
  | .value _ literal => .value .unnumbered literal
  | .cast _ target type => .cast .unnumbered (written target) type
  | .sizeofExpr _ target => .sizeofExpr .unnumbered (written target)
  | .sizeofType _ type => .sizeofType .unnumbered type

def writtenAll : List Expr → List Expr
  | [] => []
  | e :: es => written e :: writtenAll es

end

theorem writtenAll_eq (es : List Expr) : writtenAll es = es.map written := by
  induction es with
  | nil => rfl
  | cons e es ih => rw [writtenAll, ih, List.map_cons]

theorem renderAll_eq (es : List Expr) : renderAll es = es.map render := by
  induction es with
  | nil => rfl
  | cons e es ih => rw [renderAll, ih, List.map_cons]

def isSizeof : Expr → Bool
  | .sizeofExpr _ _ | .sizeofType _ _ => true
  | _ => false

/-- C has a form for the node. A second `&` in front of a first would be another operator, and what follows `sizeof`
belongs to its operand. -/
def Regular : Expr → Prop
  | .var _ v => v.render = v.name
  | .ref _ target => target.isRef = false
  | .index _ target _ | .call _ target _ => target.isSizeof = false
  | .op _ symbol operands =>
    symbol ∈ unaryOperators ∧ operands.length = 1 ∨ symbol ∈ binaryOperators ∧ 2 ≤ operands.length
  | .value _ literal => IsLiteral literal
  | .cast _ _ type | .sizeofType _ type =>
    (∀ name ∈ type.names, Builtin.spell name = name) ∧ ([.void], false) ∉ type.signatures
  | .deref _ _ | .sizeofExpr _ _ => True

/-- Where the words in `isType` name types, the variable and the type of the node have such names as C has for them. -/
def Named (isType : String → Bool) : Expr → Prop
  | .var _ v => IsWord v.name.toList ∧ v.name ≠ "sizeof" ∧ isType v.name = false
  | .cast _ _ type | .sizeofType _ type => type.Known isType
  | _ => True

instance : (e : Expr) → Decidable e.Regular
  | .var _ v => inferInstanceAs (Decidable (v.render = v.name))
  | .ref _ target => inferInstanceAs (Decidable (target.isRef = false))
  | .index _ target _ | .call _ target _ => inferInstanceAs (Decidable (target.isSizeof = false))
  | .op _ symbol operands => inferInstanceAs (Decidable
      (symbol ∈ unaryOperators ∧ operands.length = 1 ∨ symbol ∈ binaryOperators ∧ 2 ≤ operands.length))
  | .value _ literal => inferInstanceAs (Decidable (IsLiteral literal))
  | .cast _ _ type | .sizeofType _ type => inferInstanceAs (Decidable
      ((∀ name ∈ type.names, Builtin.spell name = name) ∧ ([.void], false) ∉ type.signatures))
  | .deref _ _ | .sizeofExpr _ _ => isTrue trivial

instance (isType : String → Bool) : (e : Expr) → Decidable (e.Named isType)
  | .var _ v => inferInstanceAs (Decidable (IsWord v.name.toList ∧ v.name ≠ "sizeof" ∧ isType v.name = false))
  | .cast _ _ type | .sizeofType _ type => inferInstanceAs (Decidable (type.Known isType))
  | .ref _ _ | .deref _ _ | .index _ _ _ | .call _ _ _ | .op _ _ _ | .value _ _ | .sizeofExpr _ _ => isTrue trivial

/-- Every node is regular and named. -/
def Lawful (isType : String → Bool) (e : Expr) : Prop := ∀ n ∈ e.nodes, n.Regular ∧ n.Named isType

theorem lawful_iff {isType : String → Bool} {e : Expr} :
    e.Lawful isType ↔ (e.Regular ∧ e.Named isType) ∧ ∀ c ∈ e.children, c.Lawful isType :=
  forall_nodes_iff

end Expr

namespace C

open Diversity.Expr

/-! ### The tokens of a printed expression -/

def groupTokens (ts : List Token) : List Token := .lparen :: (ts ++ [.rparen])

def guardedTokens (e : Expr) (ts : List Token) : List Token := if e.needsParens then groupTokens ts else ts

/-- An operator and its operands, between parentheses. -/
def operationTokens (symbol : String) : List (List Token) → List Token
  | [operand] => groupTokens (.symbol symbol :: operand)
  | operands => groupTokens ([.ofPunctuator symbol].intercalate operands)

mutual

def exprTokens : Expr → List Token
  | .var _ v => [.word v.name]
  | .ref _ target => .symbol "&" :: exprTokens target
  | .deref _ target => .star :: exprTokens target
  | .index _ target position =>
    guardedTokens target (exprTokens target) ++ .lbracket :: (exprTokens position ++ [.rbracket])
  | .call _ target args =>
    guardedTokens target (exprTokens target) ++ groupTokens ([.comma].intercalate (exprTokensOfAll args))
  | .op _ symbol operands => operationTokens symbol (exprTokensOfAll operands)
  | .value _ literal => [.literal literal]
  | .cast _ target type => groupTokens (declaratorTokens type []) ++ exprTokens target
  | .sizeofExpr _ target => .word "sizeof" :: groupTokens (exprTokens target)
  | .sizeofType _ type => .word "sizeof" :: groupTokens (declaratorTokens type [])

def exprTokensOfAll : List Expr → List (List Token)
  | [] => []
  | e :: es => exprTokens e :: exprTokensOfAll es

end

theorem exprTokensOfAll_eq (es : List Expr) : exprTokensOfAll es = es.map exprTokens := by
  induction es with
  | nil => rfl
  | cons e es ih => rw [exprTokensOfAll, ih, List.map_cons]

variable {isType : String → Bool} {e : Expr}

theorem apart_literal {c : Char} {t : Token} {l : String} (hc : (c, t) ∈ prefixes) (hl : IsLiteral l) :
    Apart c l.toList := by
  have hne : ∀ d ∈ ['=', '>', '&', '!', '~', '-', '+'], ∀ s, token? (d :: s) ≠ some (.literal l, []) := by
    have hpunctuator : ∀ d ∈ ['=', '>', '&', '!', '~', '-', '+'], ∀ s, token? (d :: s) = punctuator? (d :: s) := by
      intro d hd s
      simp only [List.mem_cons, List.not_mem_nil, or_false] at hd
      rcases hd with rfl | rfl | rfl | rfl | rfl | rfl | rfl <;> rfl
    intro d hd s h
    exact punctuator?_ne_literal ((hpunctuator d hd s).symm.trans h)
  have hprefixes : ∀ p ∈ prefixes, p.1 ≠ '*' → p.1 ∈ ['=', '>', '&', '!', '~', '-', '+'] := by decide
  intro d hd
  obtain ⟨s, hs⟩ := List.head?_eq_some_iff.1 hd
  rw [IsLiteral, hs] at hl
  refine ⟨?_, ?_, fun hstar => ?_⟩
  · rintro rfl
    exact hne _ (by decide) s hl
  · rintro rfl
    exact hne _ (by decide) s hl
  · rintro rfl
    exact hne _ (hprefixes _ hc hstar) s hl

theorem apart_paren {c : Char} {t : Token} (hc : (c, t) ∈ prefixes) (s : List Char) : Apart c ('(' :: s) :=
  (delimited_bracket (t := .lparen) (by decide) s).apart hc

/-- No operator runs together with the text before an index or an argument list. -/
theorem apart_guarded {c : Char} {t : Token} (hc : (c, t) ∈ prefixes)
    (h : e.isRef = false → Apart c e.render.toList) : Apart c (e.guarded e.render).toList := by
  rw [guarded]
  split
  · rw [String.append_assoc, String.toList_append]
    exact apart_paren hc _
  · refine h ?_
    cases e <;> simp_all [needsParens, isRef]

/-- No operator runs together with an expression behind it but `&` with a reference. -/
theorem apart_render {c : Char} {t : Token} (hc : (c, t) ∈ prefixes) (he : e.Lawful isType)
    (href : c = '&' → e.isRef = false) : Apart c e.render.toList := by
  have hsizeof : Apart c ['s'] := apart_of_isWord hc (by decide)
  induction e using parts_induction with
  | step e ih =>
      obtain ⟨⟨hregular, hnamed⟩, hchildren⟩ := lawful_iff.1 he
      cases e with
      | var id v =>
          rw [render, hregular]
          exact apart_of_isWord hc hnamed.1
      | ref id target =>
          rw [render, String.toList_append]
          rintro d ⟨⟩
          refine ⟨by decide, by decide, fun _ hand => ?_⟩
          cases href hand
      | deref id target =>
          rw [render, String.toList_append]
          rintro d ⟨⟩
          exact ⟨by decide, by decide, fun hstar => hstar⟩
      | index id target position =>
          have htarget := apart_guarded hc fun hne =>
            ih target List.mem_cons_self (hchildren _ List.mem_cons_self) fun _ => hne
          have hopen : ('[', Token.lbracket) ∈ brackets := by decide
          simpa [render] using htarget.append_bracket hc hopen _
      | call id target args =>
          have htarget := apart_guarded hc fun hne =>
            ih target List.mem_cons_self (hchildren _ List.mem_cons_self) fun _ => hne
          have hopen : ('(', Token.lparen) ∈ brackets := by decide
          simpa [render] using htarget.append_bracket hc hopen _
      | op id symbol operands =>
          rw [render]
          split <;> simpa [String.toList_append] using apart_paren hc _
      | value id literal => exact apart_literal hc hregular
      | cast id target type => simpa [render] using apart_paren hc _
      | sizeofExpr id target =>
          rw [render, String.append_assoc, String.toList_append]
          exact hsizeof
      | sizeofType id type =>
          rw [render, String.append_assoc, String.toList_append]
          exact hsizeof

theorem lex_operator {symbol : String} (h : symbol ∈ binaryOperators) (rest : List Char) :
    lex (symbol.toList ++ ' ' :: rest) = (lex rest).map (.ofPunctuator symbol :: ·) := by
  have hblank : ∀ p ∈ binaryOperators, p.toList.head?.any (¬ IsBlank ·) = true := by decide
  have htoken : ∀ p ∈ binaryOperators, ∀ r, token? (p.toList ++ ' ' :: r) = some (.ofPunctuator p, ' ' :: r) := by
    simp only [binaryOperators, levels, List.flatMap_cons, List.flatMap_nil, List.append_nil, List.cons_append,
      List.nil_append, List.forall_mem_cons, List.not_mem_nil, false_implies, implies_true, and_true]
    and_intros <;> exact fun _ => rfl
  obtain ⟨c, hc, hhead⟩ := Option.any_eq_true _ _ |>.1 (hblank symbol h)
  have hread := htoken symbol h rest
  obtain ⟨s, hs⟩ := List.head?_eq_some_iff.1 hc
  rw [hs] at hread ⊢
  rw [lex_of_token (of_decide_eq_true hhead) hread, lex_space]

theorem lexes_separated {symbol : String} (h : symbol ∈ binaryOperators) {ss : List (List Char)}
    {tss : List (List Token)} (hss : List.Forall₂ Lexes ss tss) :
    Lexes ((" " ++ symbol ++ " ").toList.intercalate ss) ([.ofPunctuator symbol].intercalate tss) := by
  refine .join (fun s ts hs => ⟨?_, ?_⟩) hss
  · rw [String.append_assoc, String.toList_append]
    rintro c ⟨⟩
    decide
  · intro rest hrest
    have htext : (" " ++ symbol ++ " ").toList ++ s ++ rest = ' ' :: (symbol.toList ++ ' ' :: (s ++ rest)) := by simp
    rw [htext, lex_space, lex_operator h, hs rest hrest, Option.map_map]
    rfl

theorem lexes_group {s : List Char} {ts : List Token} (h : Lexes s ts) : Lexes ('(' :: (s ++ [')'])) (groupTokens ts) :=
  h.enclosed (by decide) (by decide)

theorem lexes_type {t : CType} (ht : t.Plain) : Lexes (t.declarator "").toList (declaratorTokens t []) :=
  lexes_declarator ht .nil (by simp [Apart])

theorem forall₂_lexes {es : List Expr} (h : ∀ c ∈ es, Lexes c.render.toList (exprTokens c)) :
    List.Forall₂ Lexes ((es.map render).map String.toList) (es.map exprTokens) := by
  rw [List.map_map, List.forall₂_map_left_iff, List.forall₂_map_right_iff, List.forall₂_same]
  exact h

theorem exists_cons_cons {α : Type} {as : List α} (h : 2 ≤ as.length) : ∃ a b rest, as = a :: b :: rest := by
  cases as with
  | nil => cases h
  | cons a as =>
      cases as with
      | nil => exact absurd h (by simp)
      | cons b rest => exact ⟨a, b, rest, rfl⟩

theorem lexes_operation {symbol : String} {operands : List Expr}
    (hsymbol : symbol ∈ unaryOperators ∧ operands.length = 1 ∨ symbol ∈ binaryOperators ∧ 2 ≤ operands.length)
    (hoperands : ∀ c ∈ operands, c.Lawful isType ∧ Lexes c.render.toList (exprTokens c)) (id : NodeId) :
    Lexes (Expr.op id symbol operands).render.toList (operationTokens symbol (exprTokensOfAll operands)) := by
  rw [render, renderAll_eq, exprTokensOfAll_eq]
  rcases hsymbol with ⟨hsymbol, hlen⟩ | ⟨hsymbol, hlen⟩
  · obtain ⟨operand, rfl⟩ := List.length_eq_one_iff.1 hlen
    obtain ⟨hlawful, hlexes⟩ := hoperands operand (List.mem_singleton.2 rfl)
    have hall : ∀ p ∈ unaryOperators, ∃ c, p.toList = [c] ∧ (c, Token.symbol p) ∈ prefixes ∧ c ≠ '&' := by
      simp [unaryOperators, prefixes]
    obtain ⟨c, htext, hc, hand⟩ := hall symbol hsymbol
    have hapart : Apart c operand.render.toList := apart_render hc hlawful fun h => absurd h hand
    simpa [operationTokens, htext] using lexes_group (hlexes.prefixed hc hapart)
  · have hmap := forall₂_lexes fun c hc => (hoperands c hc).2
    obtain ⟨first, second, rest, rfl⟩ := exists_cons_cons hlen
    simpa [operationTokens] using lexes_group (lexes_separated hsymbol hmap)

theorem lexes_render (he : e.Lawful isType) : Lexes e.render.toList (exprTokens e) := by
  induction e using parts_induction with
  | step e ih =>
      obtain ⟨⟨hregular, hnamed⟩, hchildren⟩ := lawful_iff.1 he
      have hlexes (c) (hc : c ∈ e.children) := ih c hc (hchildren c hc)
      have hguarded (c) (hc : c ∈ e.children) : Lexes (c.guarded c.render).toList (guardedTokens c (exprTokens c)) := by
        rw [guarded, guardedTokens]
        split
        · simpa using lexes_group (hlexes c hc)
        · exact hlexes c hc
      have hsizeof : Lexes ['s', 'i', 'z', 'e', 'o', 'f'] [.word "sizeof"] := lexes_word (by decide)
      have hparen (s) : Delimited ('(' :: s) := delimited_bracket (t := .lparen) (by decide) s
      cases e with
      | var id v =>
          rw [render, hregular, exprTokens]
          simpa using lexes_word hnamed.1
      | ref id target =>
          have htarget := hchildren target (List.mem_singleton.2 rfl)
          have hapart : Apart '&' target.render.toList :=
            apart_render (t := .symbol "&") (by decide) htarget fun _ => hregular
          simpa [render, exprTokens] using (hlexes target (List.mem_singleton.2 rfl)).prefixed (by decide) hapart
      | deref id target =>
          have htarget := hchildren target (List.mem_singleton.2 rfl)
          have hapart : Apart '*' target.render.toList :=
            apart_render (t := .star) (by decide) htarget fun h => absurd h (by decide)
          simpa [render, exprTokens] using (hlexes target (List.mem_singleton.2 rfl)).prefixed (by decide) hapart
      | index id target position =>
          have hopen : ('[', Token.lbracket) ∈ brackets := by decide
          have hclose : (']', Token.rbracket) ∈ brackets := by decide
          have hposition := (hlexes position (by simp [children])).enclosed hopen hclose
          have hindex := (hguarded target List.mem_cons_self).append hposition (delimited_bracket hopen _)
          simpa [render, exprTokens] using hindex
      | call id target args =>
          have hargs := forall₂_lexes fun c hc => hlexes c (List.mem_cons_of_mem _ hc)
          have hcall := (hguarded target List.mem_cons_self).append (lexes_group (.commas hargs)) (hparen _)
          simpa [render, renderAll_eq, exprTokens, exprTokensOfAll_eq] using hcall
      | op id symbol operands => exact lexes_operation hregular (fun c hc => ⟨hchildren c hc, hlexes c hc⟩) id
      | value id literal => exact lexes_literal hregular
      | cast id target type =>
          have hclose : (')', Token.rparen) ∈ brackets := by decide
          have htarget := (hlexes target (List.mem_singleton.2 rfl)).bracket hclose
          have htype := (lexes_type ⟨hnamed.1, hregular.1, hregular.2⟩).append htarget (delimited_bracket hclose _)
          have hcast := htype.bracket (c := '(') (t := .lparen) (by decide)
          simpa [render, exprTokens, groupTokens] using hcast
      | sizeofExpr id target =>
          have hgroup := lexes_group (hlexes target (List.mem_singleton.2 rfl))
          simpa [render, exprTokens] using hsizeof.append hgroup (hparen _)
      | sizeofType id type =>
          have hgroup := lexes_group (lexes_type ⟨hnamed.1, hregular.1, hregular.2⟩)
          simpa [render, exprTokens] using hsizeof.append hgroup (hparen _)

/-! ### Reading expressions -/

/-- The operator that a token is between two operands. A comma between arguments is none. -/
def Token.operator? (commas : Bool) : Token → Option String
  | .star => some "*"
  | .comma => if commas then some "," else none
  | .symbol spelling => if spelling ∈ binaryOperators then some spelling else none
  | _ => none

section Reader

variable (isType)

def startsType : List Token → Bool
  | .lparen :: .word w :: _ => isType w
  | _ => false

/-- A type between parentheses. -/
def groupedType : List Token → Option (CType × List Token)
  | .lparen :: ts =>
    match typeName isType ts with
    | some (t, .rparen :: rest) => some (t, rest)
    | _ => none
  | _ => none

mutual

/-- An operand with the operators in front of it; a cast is one. -/
def operand : List Token → Option (Expr × List Token)
  | .star :: ts => (operand ts).map fun r => (.deref .unnumbered r.1, r.2)
  | .symbol s :: ts =>
    if s = "&" then (operand ts).map fun r => (.ref .unnumbered r.1, r.2)
    else if s ∈ unaryOperators then (operand ts).map fun r => (.op .unnumbered s [r.1], r.2)
    else none
  | .word w :: ts =>
    if w = "sizeof" then
      if startsType isType ts then (groupedType isType ts).map fun r => (.sizeofType .unnumbered r.1, r.2)
      else (operand ts).map fun r => (.sizeofExpr .unnumbered r.1, r.2)
    else if isType w then none
    else accesses (.var .unnumbered (.free w none)) ts
  | .literal text :: ts => accesses (.value .unnumbered text) ts
  | .lparen :: ts =>
    if startsType isType (.lparen :: ts) then
      match groupedType isType (.lparen :: ts) with
      | some (t, rest) =>
        if rest.length ≤ ts.length then (operand rest).map fun r => (.cast .unnumbered r.1 t, r.2) else none
      | none => none
    else match expression true ts with
      | some (e, .rparen :: rest) => if rest.length ≤ ts.length then accesses e rest else none
      | _ => none
  | _ => none
termination_by ts => 5 * ts.length

/-- Positions and arguments behind an expression. -/
def accesses (e : Expr) : List Token → Option (Expr × List Token)
  | .lbracket :: ts =>
    match expression true ts with
    | some (position, .rbracket :: rest) =>
      if rest.length ≤ ts.length then accesses (.index .unnumbered e position) rest else none
    | _ => none
  | .lparen :: ts =>
    match arguments ts with
    | some (args, rest) => if rest.length ≤ ts.length then accesses (.call .unnumbered e args) rest else none
    | none => none
  | ts => some (e, ts)
termination_by ts => 5 * ts.length

/-- The rest of an argument list after its opening parenthesis. -/
def arguments : List Token → Option (List Expr × List Token)
  | .rparen :: ts => some ([], ts)
  | ts => argumentList ts
termination_by ts => 5 * ts.length + 4

def argumentList (ts : List Token) : Option (List Expr × List Token) :=
  match expression false ts with
  | some (e, .rparen :: rest) => some ([e], rest)
  | some (e, .comma :: rest) =>
    if rest.length < ts.length then (argumentList rest).map fun r => (e :: r.1, r.2) else none
  | _ => none
termination_by 5 * ts.length + 3

def expression (commas : Bool) (ts : List Token) : Option (Expr × List Token) :=
  match chain commas ts with
  | some ((first, more), rest) => (assemble first more).map (·, rest)
  | none => none
termination_by 5 * ts.length + 2

/-- Operands with operators between them. -/
def chain (commas : Bool) (ts : List Token) : Option ((Expr × List (String × Expr)) × List Token) :=
  match operand ts with
  | some (e, t :: rest) =>
    match t.operator? commas with
    | some symbol =>
      if rest.length < ts.length then
        (chain commas rest).map fun r => ((e, (symbol, r.1.1) :: r.1.2), r.2)
      else none
    | none => some ((e, []), t :: rest)
  | some (e, []) => some ((e, []), [])
  | none => none
termination_by 5 * ts.length + 1

end

/-- The expression that a whole text is. -/
def readExpr (s : String) : Option Expr :=
  match (lex s.toList).bind (expression isType true) with
  | some (e, []) => some e
  | _ => none

variable {isType} {ts rest : List Token} {commas : Bool}

theorem operand_group (hstarts : startsType isType (.lparen :: ts) = false)
    (h : expression isType true ts = some (e, .rparen :: rest)) (hlen : rest.length ≤ ts.length) :
    operand isType (.lparen :: ts) = accesses isType e rest := by
  rw [operand, hstarts, h]
  simp [hlen]

theorem operand_cast {t : CType} (hstarts : startsType isType (.lparen :: ts) = true)
    (h : groupedType isType (.lparen :: ts) = some (t, rest)) (hlen : rest.length ≤ ts.length) :
    operand isType (.lparen :: ts) = (operand isType rest).map fun r => (.cast .unnumbered r.1 t, r.2) := by
  rw [operand, hstarts, h]
  simp [hlen]

theorem accesses_index {position : Expr} (h : expression isType true ts = some (position, .rbracket :: rest))
    (hlen : rest.length ≤ ts.length) (e : Expr) :
    accesses isType e (.lbracket :: ts) = accesses isType (.index .unnumbered e position) rest := by
  rw [accesses, h]
  simp [hlen]

theorem accesses_call {args : List Expr} (h : arguments isType ts = some (args, rest))
    (hlen : rest.length ≤ ts.length) (e : Expr) :
    accesses isType e (.lparen :: ts) = accesses isType (.call .unnumbered e args) rest := by
  rw [accesses, h]
  simp [hlen]

theorem argumentList_comma (h : expression isType false ts = some (e, .comma :: rest))
    (hlen : rest.length < ts.length) :
    argumentList isType ts = (argumentList isType rest).map fun r => (e :: r.1, r.2) := by
  rw [argumentList, h]
  simp [hlen]

theorem chain_operator {t : Token} {symbol : String} (h : operand isType ts = some (e, t :: rest))
    (ht : t.operator? commas = some symbol) (hlen : rest.length < ts.length) :
    chain isType commas ts = (chain isType commas rest).map fun r => ((e, (symbol, r.1.1) :: r.1.2), r.2) := by
  rw [chain, h]
  simp [ht, hlen]

/-- Neither a position nor arguments follow. -/
def Closes (rest : List Token) : Prop := ∀ t ∈ rest.head?, t ≠ .lbracket ∧ t ≠ .lparen

theorem closes_of_operator {t : Token} {symbol : String} (h : t.operator? commas = some symbol) :
    t ≠ .lbracket ∧ t ≠ .lparen := by
  constructor
  · rintro rfl
    cases h
  · rintro rfl
    cases h

theorem accesses_closes (h : Closes rest) (e : Expr) : accesses isType e rest = some (e, rest) := by
  cases rest with
  | nil => simp [accesses]
  | cons t rest =>
      obtain ⟨hbracket, hparen⟩ := h t rfl
      cases t <;> simp_all [accesses]

/-- With what follows them, the tokens are read as an expression that may have positions and arguments. -/
def IsAccess (isType : String → Bool) (ts : List Token) (e : Expr) : Prop :=
  ∀ rest, operand isType (ts ++ rest) = accesses isType e rest

/-- The tokens are read as an operand unless a position or arguments follow. -/
def IsOperand (isType : String → Bool) (ts : List Token) (e : Expr) : Prop :=
  ∀ rest, Closes rest → operand isType (ts ++ rest) = some (e, rest)

theorem IsAccess.isOperand (h : IsAccess isType ts e) : IsOperand isType ts e := by
  intro rest hrest
  rw [h rest, accesses_closes hrest]

theorem IsOperand.chain (h : IsOperand isType ts e) (hrest : Closes rest)
    (hop : ∀ t ∈ rest.head?, t.operator? commas = none) : chain isType commas (ts ++ rest) = some ((e, []), rest) := by
  rw [C.chain, h rest hrest]
  cases rest with
  | nil => rfl
  | cons t rest => simp [hop t rfl]

theorem IsOperand.expression (h : IsOperand isType ts e) (hrest : Closes rest)
    (hop : ∀ t ∈ rest.head?, t.operator? commas = none) :
    expression isType commas (ts ++ rest) = some (e, rest) := by
  rw [C.expression, h.chain hrest hop]
  simp [assemble_nil]

/-- An expression may start with the tokens, and no type does. -/
def Begins (isType : String → Bool) (ts : List Token) : Prop :=
  ∃ t tail, ts = t :: tail ∧ t.word?.any isType = false ∧ t ≠ .rparen

theorem Begins.startsType (h : Begins isType ts) (rest : List Token) :
    startsType isType (.lparen :: (ts ++ rest)) = false := by
  obtain ⟨t, tail, rfl, ht, -⟩ := h
  cases t <;> simp_all [C.startsType, Token.word?]

theorem isAccess_group (hbegins : Begins isType ts)
    (h : ∀ rest, expression isType true (ts ++ .rparen :: rest) = some (e, .rparen :: rest)) :
    IsAccess isType (groupTokens ts) e := by
  intro rest
  rw [groupTokens, List.cons_append, List.append_assoc, List.singleton_append,
    operand_group (hbegins.startsType _) (h rest) (by simp; omega)]

theorem IsOperand.group (h : IsOperand isType ts e) (hbegins : Begins isType ts) :
    IsAccess isType (groupTokens ts) e :=
  isAccess_group hbegins fun rest => h.expression (by simp [Closes]) (by simp [Token.operator?])

theorem IsAccess.index {ps : List Token} {position : Expr} (h : IsAccess isType ts e)
    (hposition : IsOperand isType ps position) :
    IsAccess isType (ts ++ .lbracket :: (ps ++ [.rbracket])) (.index .unnumbered e position) := by
  intro rest
  rw [List.append_assoc, h, List.cons_append, List.append_assoc, List.singleton_append,
    accesses_index (hposition.expression (by simp [Closes]) (by simp [Token.operator?])) (by simp; omega)]

theorem IsAccess.call {list : List Token} {args : List Expr} (h : IsAccess isType ts e)
    (hargs : ∀ rest, arguments isType (list ++ .rparen :: rest) = some (args, rest)) :
    IsAccess isType (ts ++ groupTokens list) (.call .unnumbered e args) := by
  intro rest
  rw [groupTokens, List.append_assoc, h, List.cons_append, List.append_assoc, List.singleton_append,
    accesses_call (hargs rest) (by simp; omega)]

theorem Begins.intercalate (h : Begins isType ts) (sep : List Token) (tss : List (List Token)) :
    Begins isType (sep.intercalate (ts :: tss)) := by
  obtain ⟨t, tail, rfl, ht⟩ := h
  obtain ⟨tail', htail⟩ := exists_intercalate_cons sep (t :: tail) tss
  exact ⟨t, tail ++ tail', htail, ht⟩

theorem argumentList_printed {tss : List (List Token)} {es : List Expr} (h : List.Forall₂ (IsOperand isType) tss es)
    (hne : tss ≠ []) (rest : List Token) :
    argumentList isType ([.comma].intercalate tss ++ .rparen :: rest) = some (es, rest) := by
  induction h with
  | nil => exact absurd rfl hne
  | @cons ts e tss es hts htss ih =>
      cases htss with
      | nil =>
          rw [List.intercalate_singleton, argumentList,
            hts.expression (by simp [Closes]) (by simp [Token.operator?])]
      | cons hts' htss' =>
          rw [List.intercalate_cons_cons, List.append_assoc, List.append_assoc, List.singleton_append,
            argumentList_comma (hts.expression (by simp [Closes]) (by simp [Token.operator?])) (by simp; omega),
            ih (List.cons_ne_nil _ _), Option.map_some]

theorem arguments_printed {tss : List (List Token)} {es : List Expr} (h : List.Forall₂ (IsOperand isType) tss es)
    (hbegins : ∀ ts ∈ tss, Begins isType ts) (rest : List Token) :
    arguments isType ([.comma].intercalate tss ++ .rparen :: rest) = some (es, rest) := by
  cases tss with
  | nil =>
      cases h
      simp [arguments]
  | cons ts tss =>
      have hread := argumentList_printed h (List.cons_ne_nil _ _) rest
      obtain ⟨t, tail, htail, -, ht⟩ := (hbegins ts List.mem_cons_self).intercalate [.comma] tss
      rw [htail, List.cons_append] at hread ⊢
      rwa [arguments]
      rintro ts h
      exact ht (List.cons.inj h).1

theorem chain_printed {symbol : String} (hsymbol : symbol ∈ binaryOperators) {tss : List (List Token)} {es : List Expr}
    (h : List.Forall₂ (IsOperand isType) (ts :: tss) (e :: es)) (rest : List Token) :
    chain isType true ([.ofPunctuator symbol].intercalate (ts :: tss) ++ .rparen :: rest) =
      some ((e, es.map (symbol, ·)), .rparen :: rest) := by
  have hoperator : (Token.ofPunctuator symbol).operator? true = some symbol := by
    revert symbol
    decide
  induction tss generalizing ts e es with
  | nil =>
      cases h with
      | cons hts hnil =>
          cases hnil
          rw [List.intercalate_singleton, hts.chain (by simp [Closes]) (by simp [Token.operator?]), List.map_nil]
  | cons ts' tss ih =>
      cases h with
      | @cons _ _ _ _ hts hmore =>
          cases es with
          | nil => cases hmore
          | cons e' es =>
              have hread := hts
                (.ofPunctuator symbol :: ([.ofPunctuator symbol].intercalate (ts' :: tss) ++ .rparen :: rest))
                (by rintro t ⟨⟩; exact closes_of_operator hoperator)
              rw [List.intercalate_cons_cons, List.append_assoc, List.append_assoc, List.singleton_append,
                chain_operator hread hoperator (by simp; omega), ih hmore, Option.map_some, List.map_cons]

/-! ### A printed expression is read as that expression -/

theorem begins_group (ts rest : List Token) : Begins isType (groupTokens ts ++ rest) :=
  ⟨.lparen, ts ++ [.rparen] ++ rest, rfl, rfl, by decide⟩

theorem begins_guarded {ts : List Token} (h : Begins isType ts) (e : Expr) (rest : List Token) :
    Begins isType (guardedTokens e ts ++ rest) := by
  rw [guardedTokens]
  split
  · exact begins_group ts rest
  · obtain ⟨t, tail, rfl, ht⟩ := h
    exact ⟨t, tail ++ rest, rfl, ht⟩

theorem begins_exprTokens (hsizeof : isType "sizeof" = false) (he : e.Lawful isType) :
    Begins isType (exprTokens e) := by
  induction e using parts_induction with
  | step e ih =>
      obtain ⟨⟨hregular, hnamed⟩, hchildren⟩ := lawful_iff.1 he
      cases e with
      | var id v =>
          exact ⟨.word v.name, [], rfl, hnamed.2.2, by simp⟩
      | ref id target => exact ⟨.symbol "&", _, rfl, rfl, by decide⟩
      | deref id target => exact ⟨.star, _, rfl, rfl, by decide⟩
      | index id target position =>
          exact begins_guarded (ih target List.mem_cons_self (hchildren _ List.mem_cons_self)) target _
      | call id target args =>
          exact begins_guarded (ih target List.mem_cons_self (hchildren _ List.mem_cons_self)) target _
      | op id symbol operands =>
          rw [exprTokens, operationTokens.eq_def]
          split <;> simpa using begins_group _ []
      | value id literal => exact ⟨.literal literal, [], rfl, rfl, by simp⟩
      | cast id target type => exact begins_group _ _
      | sizeofExpr id target => exact ⟨.word "sizeof", _, rfl, hsizeof, by decide⟩
      | sizeofType id type => exact ⟨.word "sizeof", _, rfl, hsizeof, by decide⟩

/-- The expression is read back. -/
structure IsRead (isType : String → Bool) (e : Expr) : Prop where
  operand : IsOperand isType (exprTokens e) e.written
  access : e.isSizeof = false → IsAccess isType (guardedTokens e (exprTokens e)) e.written

theorem IsAccess.isRead (hguard : e.needsParens = false) (h : IsAccess isType (exprTokens e) e.written) :
    IsRead isType e := by
  refine ⟨h.isOperand, fun _ => ?_⟩
  simpa [guardedTokens, hguard] using h

theorem IsOperand.isRead (hguard : e.needsParens = true) (hbegins : Begins isType (exprTokens e))
    (h : IsOperand isType (exprTokens e) e.written) : IsRead isType e := by
  refine ⟨h, fun _ => ?_⟩
  simpa [guardedTokens, hguard] using h.group hbegins

theorem groupedType_printed {t : CType} (ht : t.Plain) (htypes : ∀ w ∈ t.words, isType w = true) (rest : List Token) :
    startsType isType (groupTokens (declaratorTokens t []) ++ rest) = true ∧
      groupedType isType (groupTokens (declaratorTokens t []) ++ rest) = some (t, rest) := by
  have hname := isTypeName_declaratorTokens ht htypes
  rw [groupTokens, List.cons_append, List.append_assoc, List.singleton_append]
  refine ⟨?_, ?_⟩
  · obtain ⟨w, tail, htokens, hw⟩ := hname.starts
    rw [htokens]
    exact hw
  · rw [groupedType, hname.reads _ (by rintro t ⟨⟩; exact .inr rfl)]

theorem forall₂_operands {es : List Expr} (h : ∀ c ∈ es, IsOperand isType (exprTokens c) c.written) :
    List.Forall₂ (IsOperand isType) (es.map exprTokens) (es.map written) := by
  rw [List.forall₂_map_left_iff, List.forall₂_map_right_iff, List.forall₂_same]
  exact h

theorem isAccess_operation {symbol : String} {operands : List Expr}
    (hsymbol : symbol ∈ unaryOperators ∧ operands.length = 1 ∨ symbol ∈ binaryOperators ∧ 2 ≤ operands.length)
    (hoperands : ∀ c ∈ operands, Begins isType (exprTokens c) ∧ IsOperand isType (exprTokens c) c.written) :
    IsAccess isType (operationTokens symbol (operands.map exprTokens))
      (.op .unnumbered symbol (operands.map written)) := by
  rcases hsymbol with ⟨hsymbol, hlen⟩ | ⟨hsymbol, hlen⟩
  · obtain ⟨c, rfl⟩ := List.length_eq_one_iff.1 hlen
    obtain ⟨-, hread⟩ := hoperands c (List.mem_singleton.2 rfl)
    refine IsOperand.group (fun rest hrest => ?_) ⟨.symbol symbol, _, rfl, rfl, by simp⟩
    have hand : symbol ≠ "&" := by
      rintro rfl
      revert hsymbol
      decide
    rw [List.cons_append, operand, if_neg hand, if_pos hsymbol, hread rest hrest]
    rfl
  · obtain ⟨first, second, rest, rfl⟩ := exists_cons_cons hlen
    have hreads := forall₂_operands fun c hc => (hoperands c hc).2
    refine isAccess_group ((hoperands first List.mem_cons_self).1.intercalate _ _) fun more => ?_
    rw [expression, chain_printed hsymbol hreads more]
    simp only [List.map_cons]
    rw [← List.map_cons, assemble_chain hsymbol]
    rfl

theorem isRead (hsizeof : isType "sizeof" = false) (he : e.Lawful isType) : IsRead isType e := by
  induction e using parts_induction with
  | step e ih =>
      have hbegins := begins_exprTokens hsizeof he
      obtain ⟨⟨hregular, hnamed⟩, hchildren⟩ := lawful_iff.1 he
      have hread (c) (hc : c ∈ e.children) := ih c hc (hchildren c hc)
      have hchild (c) (hc : c ∈ e.children) := begins_exprTokens hsizeof (hchildren c hc)
      cases e with
      | var id v =>
          obtain ⟨-, hname, htype⟩ := hnamed
          refine IsAccess.isRead rfl fun rest => ?_
          rw [exprTokens, List.singleton_append, operand, if_neg hname, htype]
          rfl
      | ref id target =>
          refine IsOperand.isRead rfl hbegins fun rest hrest => ?_
          rw [exprTokens, List.cons_append, operand, if_pos rfl,
            (hread target (List.mem_singleton.2 rfl)).operand rest hrest]
          rfl
      | deref id target =>
          refine IsOperand.isRead rfl hbegins fun rest hrest => ?_
          rw [exprTokens, List.cons_append, operand, (hread target (List.mem_singleton.2 rfl)).operand rest hrest]
          rfl
      | index id target position =>
          have htarget := (hread target List.mem_cons_self).access hregular
          exact IsAccess.isRead rfl (htarget.index (hread position (by simp [children])).operand)
      | call id target args =>
          have htarget := (hread target List.mem_cons_self).access hregular
          have hargs := forall₂_operands fun c hc => (hread c (List.mem_cons_of_mem _ hc)).operand
          have hstarts : ∀ ts ∈ args.map exprTokens, Begins isType ts := by
            simpa using fun c hc => hchild c (List.mem_cons_of_mem _ hc)
          refine IsAccess.isRead rfl ?_
          rw [exprTokens, written, exprTokensOfAll_eq, writtenAll_eq]
          exact htarget.call (arguments_printed hargs hstarts)
      | op id symbol operands =>
          refine IsAccess.isRead rfl ?_
          rw [exprTokens, written, exprTokensOfAll_eq, writtenAll_eq]
          exact isAccess_operation hregular fun c hc => ⟨hchild c hc, (hread c hc).operand⟩
      | value id literal =>
          refine IsAccess.isRead rfl fun rest => ?_
          rw [exprTokens, List.singleton_append, operand]
          rfl
      | cast id target type =>
          refine IsOperand.isRead rfl hbegins fun rest hrest => ?_
          obtain ⟨hstarts, htype⟩ :=
            groupedType_printed ⟨hnamed.1, hregular.1, hregular.2⟩ hnamed.2 (exprTokens target ++ rest)
          rw [exprTokens, List.append_assoc]
          refine (operand_cast hstarts htype (by simp; omega)).trans ?_
          rw [(hread target (List.mem_singleton.2 rfl)).operand rest hrest]
          rfl
      | sizeofExpr id target =>
          refine ⟨fun rest hrest => ?_, fun h => absurd h (by simp [isSizeof])⟩
          have hmem : target ∈ [target] := List.mem_singleton.2 rfl
          have hgroup := (hread target hmem).operand.group (hchild target hmem)
          have hstarts : startsType isType (groupTokens (exprTokens target) ++ rest) = false := by
            simpa [groupTokens] using (hchild target (List.mem_singleton.2 rfl)).startsType (.rparen :: rest)
          rw [exprTokens, List.cons_append, operand, if_pos rfl, hstarts, hgroup.isOperand rest hrest]
          rfl
      | sizeofType id type =>
          refine ⟨fun rest _ => ?_, fun h => absurd h (by simp [isSizeof])⟩
          obtain ⟨hstarts, htype⟩ := groupedType_printed ⟨hnamed.1, hregular.1, hregular.2⟩ hnamed.2 rest
          rw [exprTokens, List.cons_append, operand, if_pos rfl, hstarts, htype]
          rfl

theorem readExpr_text (hsizeof : isType "sizeof" = false) (he : e.Lawful isType) :
    readExpr isType e.render = some e.written := by
  have hread : expression isType true (exprTokens e) = some (e.written, []) := by
    have hnil : expression isType true (exprTokens e ++ []) = some (e.written, []) :=
      (isRead hsizeof he).operand.expression (by simp [Closes]) (by simp)
    rwa [List.append_nil] at hnil
  rw [readExpr, (lexes_render he).lex, Option.bind_some, hread]

end Reader

end C

end Diversity
