import Diversity.Proofs.Expressions
/-! Which names a read expression has. With it, the text of an expression is read as that expression exactly if its
variables and types have such names as C has for them. -/
namespace Diversity.C

open CType.Grammar

def Layer.Known (isType : String → Bool) : Layer → Prop
  | .function params _ => ∀ p ∈ params, p.Known isType
  | _ => True

def Declarator.Known (isType : String → Bool) (d : Declarator) : Prop := ∀ l ∈ d.layers, l.Known isType

variable {isType : String → Bool} {ts : List Token} {d : Declarator} {t : CType}

theorem Declarator.Known.add {l : Layer} (hd : d.Known isType) (hl : l.Known isType) : (d.add l).Known isType := by
  simpa [Known, Declarator.add, or_imp, forall_and] using ⟨hd, hl⟩

theorem Declarator.Known.type (hd : d.Known isType) (ht : t.Known isType) : (d.type t).Known isType := by
  obtain ⟨name, layers⟩ := d
  induction layers with
  | nil => exact ht
  | cons l layers ih =>
      obtain ⟨hl, hlayers⟩ := List.forall_mem_cons.1 hd
      cases l with
      | pointer => exact ih hlayers
      | array length => exact ih hlayers
      | function params variadic => exact CType.known_function.2 ⟨hl, ih hlayers⟩

/-- The words among the tokens are spelled as words. -/
def Spelled (ts : List Token) : Prop := ∀ t ∈ ts, ∀ w ∈ t.word?, IsWord w.toList

theorem spelled_cons {t : Token} : Spelled (t :: ts) ↔ (∀ w ∈ t.word?, IsWord w.toList) ∧ Spelled ts :=
  List.forall_mem_cons

theorem Spelled.tail {t : Token} (h : Spelled (t :: ts)) : Spelled ts := (spelled_cons.1 h).2

/-- If something is read, it is good, and the words in what is left are spelled as words. -/
def Yields {α : Type} (good : α → Prop) (r : Option (α × List Token)) : Prop :=
  ∀ a rest, r = some (a, rest) → good a ∧ Spelled rest

section

variable {α β : Type} {good : α → Prop} {good' : β → Prop} {r : Option (α × List Token)}

theorem yields_none : Yields good none := by
  rintro a rest ⟨⟩

theorem yields_some {a : α} {rest : List Token} (ha : good a) (hrest : Spelled rest) :
    Yields good (some (a, rest)) := by
  rintro b rest' ⟨⟩
  exact ⟨ha, hrest⟩

theorem yields_ite {c : Prop} [Decidable c] (h : c → Yields good r) : Yields good (if c then r else none) := by
  split
  · exact h ‹c›
  · exact yields_none

theorem Yields.map {f : α → β} (h : Yields good r) (hf : ∀ a, good a → good' (f a)) :
    Yields good' (r.map fun p => (f p.1, p.2)) := by
  intro b rest hb
  obtain ⟨⟨a, rest'⟩, hr, heq⟩ := Option.map_eq_some_iff.1 hb
  cases heq
  obtain ⟨ha, hrest⟩ := h a rest' hr
  exact ⟨hf a ha, hrest⟩

end

theorem known_named {words : List String} (hne : words ≠ []) (h : ∀ w ∈ words, IsWord w.toList ∧ isType w = true) :
    (CType.named (" ".intercalate words)).Known isType := by
  have hmap : (words.map String.toList).map String.ofList = words := by simp [Function.comp_def]
  have hsplit : (" ".intercalate words).toList.splitOn ' ' = words.map String.toList := by
    have hlists := CType.splitOn_words (mt List.map_eq_nil_iff.1 hne) (by simpa using fun w hw => (h w hw).1)
    rwa [hmap] at hlists
  constructor
  · intro name hname
    obtain rfl := List.mem_singleton.1 hname
    rw [CType.IsWords, hsplit]
    simpa using fun w hw => (h w hw).1
  · intro w hw
    rw [CType.words, CType.names, List.flatMap_singleton, hsplit, hmap] at hw
    exact (h w hw).2

theorem known_specifiers (hts : Spelled ts) (hlen : (specifiers isType ts).2.length < ts.length) :
    (specifiers isType ts).1.Known isType ∧ Spelled (specifiers isType ts).2 := by
  have hsplit : ts.takeWhile (·.word?.any isType) ++ (specifiers isType ts).2 = ts := List.takeWhile_append_dropWhile
  have hmem (t) (ht : t ∈ ts.takeWhile (·.word?.any isType) ∨ t ∈ (specifiers isType ts).2) : t ∈ ts := by
    rw [← hsplit]
    exact List.mem_append.2 ht
  refine ⟨known_named ?_ fun w hw => ?_, fun t ht => hts t (hmem t (.inr ht))⟩
  · cases hfront : ts.takeWhile (·.word?.any isType) with
    | nil =>
        rw [hfront, List.nil_append] at hsplit
        rw [hsplit] at hlen
        exact absurd hlen (Nat.lt_irrefl _)
    | cons t front =>
        have hmem : t ∈ ts.takeWhile (·.word?.any isType) := hfront ▸ List.mem_cons_self
        have ht := List.mem_takeWhile_imp hmem
        cases t <;> simp_all [Token.word?]
  · obtain ⟨t, ht, hw⟩ := List.mem_filterMap.1 hw
    have htype := List.mem_takeWhile_imp ht
    rw [hw] at htype
    exact ⟨hts t (hmem t (.inl ht)) w hw, htype⟩

variable (isType) in
/-- The readers of a text yield types with known names. -/
structure ReadsKnown (ts : List Token) : Prop where
  declarator : Yields (Declarator.Known isType) (declarator isType ts)
  suffixes : ∀ d, d.Known isType → Yields (Declarator.Known isType) (suffixes isType d ts)
  params : Yields (fun r => ∀ p ∈ r.1, p.Known isType) (params isType ts)
  paramList : Yields (fun r => ∀ p ∈ r.1, p.Known isType) (paramList isType ts)
  typeName : Yields (CType.Known isType) (typeName isType ts)

section

variable (hshort : ∀ ts', ts'.length < ts.length → Spelled ts' → ReadsKnown isType ts') (hts : Spelled ts)

include hshort hts

theorem yields_suffixes (hd : d.Known isType) : Yields (Declarator.Known isType) (suffixes isType d ts) := by
  rw [suffixes.eq_def]
  split
  · exact (hshort _ (by simp only [List.length_cons]; omega) hts.tail.tail).suffixes _ (hd.add trivial)
  · split
    · exact (hshort _ (by simp; omega) hts.tail.tail.tail).suffixes _ (hd.add trivial)
    · exact yields_none
  · split
    · rename_i ps variadic rest hread
      obtain ⟨hps, hrest⟩ := (hshort _ (by simp) hts.tail).params _ _ hread
      exact yields_ite fun hlen => (hshort rest (by simp; omega) hrest).suffixes _ (hd.add hps)
    · exact yields_none
  · exact yields_some hd hts

theorem yields_declarator : Yields (Declarator.Known isType) (declarator isType ts) := by
  have hname (name) : Declarator.Known isType ⟨name, []⟩ := by simp [Declarator.Known]
  rw [declarator.eq_def]
  split
  · split
    · rename_i d rest hread
      obtain ⟨hd, hrest⟩ := (hshort _ (by simp) hts.tail).declarator d rest hread
      exact yields_some (hd.add trivial) hrest
    · exact yields_none
  · rw [direct.eq_def]
    split
    · exact (hshort _ (by simp) hts.tail).suffixes _ (hname _)
    · split
      · exact yields_suffixes hshort hts (hname none)
      · split
        · rename_i d rest hread
          obtain ⟨hd, hrest⟩ := (hshort _ (by simp) hts.tail).declarator d _ hread
          exact yields_ite fun hlen => (hshort rest (by simp; omega) hrest.tail).suffixes d hd
        · exact yields_none
    · exact yields_suffixes hshort hts (hname none)

theorem yields_typeName : Yields (CType.Known isType) (typeName isType ts) := by
  rw [typeName]
  refine yields_ite fun hlen => ?_
  obtain ⟨hbase, hspelled⟩ := known_specifiers hts hlen
  split
  · rename_i layers rest hread
    obtain ⟨hd, hrest⟩ := (hshort _ hlen hspelled).declarator _ rest hread
    exact yields_some (hd.type hbase) hrest
  · exact yields_none

theorem yields_paramList : Yields (fun r => ∀ p ∈ r.1, p.Known isType) (paramList isType ts) := by
  rw [paramList]
  split
  · exact yields_some (by simp) fun t ht => hts t (List.mem_of_mem_drop ht)
  · split
    · rename_i t rest hread
      obtain ⟨ht, hrest⟩ := yields_typeName hshort hts t _ hread
      exact yields_some (by simpa using ht) hrest.tail
    · rename_i t rest hread
      obtain ⟨ht, hrest⟩ := yields_typeName hshort hts t _ hread
      refine yields_ite fun hlen => ?_
      refine Yields.map (f := fun r => (t :: r.1, r.2)) (hshort rest hlen hrest.tail).paramList fun r hr => ?_
      exact List.forall_mem_cons.2 ⟨ht, hr⟩
    · exact yields_none

end

theorem readsKnown {ts : List Token} (hts : Spelled ts) : ReadsKnown isType ts := by
  have hshort : ∀ ts', ts'.length < ts.length → Spelled ts' → ReadsKnown isType ts' := fun _ _ => readsKnown
  refine ⟨yields_declarator hshort hts, fun d hd => yields_suffixes hshort hts hd, ?_, yields_paramList hshort hts,
    yields_typeName hshort hts⟩
  rw [params]
  split
  · exact yields_some (by simp) fun t ht => hts t (List.mem_of_mem_drop ht)
  · exact yields_paramList hshort hts
termination_by ts.length

/-! ### Read expressions -/

/-- Every operand of the tree has the property. -/
def Tree.All (P : Expr → Prop) : Tree → Prop
  | .leaf e => P e
  | .node _ left right => left.All P ∧ right.All P

section

variable {P : Expr → Prop}

theorem Tree.All.operands (hop : ∀ symbol es, (∀ e ∈ es, P e) → P (.op .unnumbered symbol es)) {t : Tree} (h : t.All P)
    (chain : String) : ∀ e ∈ t.operands chain, P e := by
  induction t generalizing chain with
  | leaf e => exact List.forall_mem_singleton.2 h
  | node symbol left right ihl ihr =>
      have hall : ∀ e ∈ left.operands symbol ++ right.operands symbol, P e :=
        List.forall_mem_append.2 ⟨ihl h.1 symbol, ihr h.2 symbol⟩
      rw [Tree.operands]
      split
      · exact hall
      · exact List.forall_mem_singleton.2 (hop symbol _ hall)

theorem Tree.All.expr (hop : ∀ symbol es, (∀ e ∈ es, P e) → P (.op .unnumbered symbol es)) {t : Tree} (h : t.All P) :
    P t.expr := by
  cases t with
  | leaf e => exact h
  | node symbol left right =>
      exact hop symbol _ (List.forall_mem_append.2 ⟨h.1.operands hop symbol, h.2.operands hop symbol⟩)

theorem all_group (l : Level) {first : Tree} {rest : List (String × Tree)} (hfirst : first.All P)
    (hrest : ∀ p ∈ rest, p.2.All P) :
    (l.group first rest).1.All P ∧ ∀ p ∈ (l.group first rest).2, p.2.All P := by
  induction rest generalizing first with
  | nil => exact ⟨hfirst, hrest⟩
  | cons p rest ih =>
      obtain ⟨hp, hrest⟩ := List.forall_mem_cons.1 hrest
      obtain ⟨htree, hmore⟩ := ih hp hrest
      rw [Level.group]
      split
      · split
        · exact ⟨⟨hfirst, htree⟩, hmore⟩
        · exact ih ⟨hfirst, hp⟩ hrest
      · exact ⟨hfirst, List.forall_mem_cons.2 ⟨htree, hmore⟩⟩

theorem all_groupAll (ls : List Level) {r : Tree × List (String × Tree)} (hfirst : r.1.All P)
    (hrest : ∀ p ∈ r.2, p.2.All P) : (groupAll ls r).1.All P := by
  induction ls generalizing r with
  | nil => exact hfirst
  | cons l ls ih =>
      obtain ⟨hfirst, hrest⟩ := all_group l hfirst hrest
      exact ih hfirst hrest

theorem assemble_all (hop : ∀ symbol es, (∀ e ∈ es, P e) → P (.op .unnumbered symbol es)) {first e : Expr}
    {rest : List (String × Expr)} (hfirst : P first) (hrest : ∀ p ∈ rest, P p.2) (h : assemble first rest = some e) :
    P e := by
  have hleaves : ∀ p ∈ rest.map fun p => (p.1, Tree.leaf p.2), p.2.All P := List.forall_mem_map.2 hrest
  unfold assemble at h
  generalize levels = ls at h
  have hall := all_groupAll ls (r := (.leaf first, rest.map fun p => (p.1, .leaf p.2))) hfirst hleaves
  split at h
  · rename_i t heq
    cases h
    rw [heq] at hall
    exact hall.expr hop
  · cases h

end

variable (isType) in
/-- All nodes have such names as C has for them. -/
def AllNamed (e : Expr) : Prop := ∀ n ∈ e.nodes, n.Named isType

theorem allNamed_iff {e : Expr} : AllNamed isType e ↔ e.Named isType ∧ ∀ c ∈ e.children, AllNamed isType c :=
  Expr.forall_nodes_iff

variable (isType) in
/-- The readers of a text yield expressions with such names. -/
structure ReadsNamed (ts : List Token) : Prop where
  operand : Yields (AllNamed isType) (operand isType ts)
  accesses : ∀ e, AllNamed isType e → Yields (AllNamed isType) (accesses isType e ts)
  arguments : Yields (fun es => ∀ e ∈ es, AllNamed isType e) (arguments isType ts)
  argumentList : Yields (fun es => ∀ e ∈ es, AllNamed isType e) (argumentList isType ts)
  expression : ∀ commas, Yields (AllNamed isType) (expression isType commas ts)
  chain : ∀ commas, Yields (fun r => AllNamed isType r.1 ∧ ∀ p ∈ r.2, AllNamed isType p.2) (chain isType commas ts)

/-- A node with one part is good if it and the part are. -/
theorem Yields.wrap {r : Option (Expr × List Token)} {f : Expr → Expr} (h : Yields (AllNamed isType) r)
    (hf : ∀ e, (f e).Named isType ∧ (f e).children = [e]) :
    Yields (AllNamed isType) (r.map fun p => (f p.1, p.2)) := by
  refine h.map fun e he => allNamed_iff.2 ⟨(hf e).1, ?_⟩
  rw [(hf e).2]
  exact List.forall_mem_singleton.2 he

theorem yields_groupedType (hts : Spelled ts) : Yields (CType.Known isType) (groupedType isType ts) := by
  rw [groupedType.eq_def]
  split
  · split
    · rename_i t rest hread
      obtain ⟨ht, hrest⟩ := (readsKnown hts.tail).typeName t _ hread
      exact yields_some ht hrest.tail
    · exact yields_none
  · exact yields_none

section

variable (hshort : ∀ ts', ts'.length < ts.length → Spelled ts' → ReadsNamed isType ts') (hts : Spelled ts)

include hshort hts

theorem yields_accesses {e : Expr} (he : AllNamed isType e) : Yields (AllNamed isType) (accesses isType e ts) := by
  rw [accesses.eq_def]
  split
  · split
    · rename_i position rest hread
      obtain ⟨hposition, hrest⟩ := (hshort _ (by simp) hts.tail).expression true _ _ hread
      refine yields_ite fun hlen => (hshort rest (by simp; omega) hrest.tail).accesses _ ?_
      exact allNamed_iff.2 ⟨trivial, by simpa [Expr.children] using ⟨he, hposition⟩⟩
    · exact yields_none
  · split
    · rename_i args rest hread
      obtain ⟨hargs, hrest⟩ := (hshort _ (by simp) hts.tail).arguments _ _ hread
      refine yields_ite fun hlen => (hshort rest (by simp; omega) hrest).accesses _ ?_
      exact allNamed_iff.2 ⟨trivial, List.forall_mem_cons.2 ⟨he, hargs⟩⟩
    · exact yields_none
  · exact yields_some he hts

theorem yields_operand : Yields (AllNamed isType) (operand isType ts) := by
  rw [operand.eq_def]
  split
  · exact (hshort _ (by simp) hts.tail).operand.wrap fun e => ⟨trivial, rfl⟩
  · split
    · exact (hshort _ (by simp) hts.tail).operand.wrap fun e => ⟨trivial, rfl⟩
    · rename_i symbol _ _
      refine yields_ite fun _ => ?_
      exact (hshort _ (by simp) hts.tail).operand.wrap (f := fun e => .op .unnumbered symbol [e]) fun e =>
        ⟨trivial, rfl⟩
  · split
    · split
      · refine (yields_groupedType hts.tail).map fun t ht => allNamed_iff.2 ⟨ht, ?_⟩
        simp [Expr.children]
      · exact (hshort _ (by simp) hts.tail).operand.wrap fun e => ⟨trivial, rfl⟩
    · split
      · exact yields_none
      · rename_i w _ hsizeof htype
        refine (hshort _ (by simp) hts.tail).accesses _
          (allNamed_iff.2 ⟨⟨?_, hsizeof, Bool.eq_false_of_not_eq_true htype⟩, ?_⟩)
        · exact (spelled_cons.1 hts).1 w rfl
        · simp [Expr.children]
  · refine (hshort _ (by simp) hts.tail).accesses _ (allNamed_iff.2 ⟨trivial, ?_⟩)
    simp [Expr.children]
  · split
    · split
      · rename_i t rest hread
        obtain ⟨ht, hrest⟩ := yields_groupedType hts t rest hread
        refine yields_ite fun hlen => ?_
        exact (hshort rest (by simp; omega) hrest).operand.wrap (f := fun e => .cast .unnumbered e t) fun e => ⟨ht, rfl⟩
      · exact yields_none
    · split
      · rename_i e rest hread
        obtain ⟨he, hrest⟩ := (hshort _ (by simp) hts.tail).expression true e _ hread
        exact yields_ite fun hlen => (hshort rest (by simp; omega) hrest.tail).accesses e he
      · exact yields_none
  · exact yields_none

theorem yields_chain (commas : Bool) :
    Yields (fun r => AllNamed isType r.1 ∧ ∀ p ∈ r.2, AllNamed isType p.2) (chain isType commas ts) := by
  rw [chain]
  split
  · rename_i e t rest hread
    obtain ⟨he, hrest⟩ := yields_operand hshort hts e _ hread
    split
    · rename_i symbol _
      refine yields_ite fun hlen => ?_
      refine Yields.map (f := fun r => (e, (symbol, r.1) :: r.2)) ((hshort rest hlen hrest.tail).chain commas)
        fun r hr => ?_
      exact ⟨he, List.forall_mem_cons.2 hr⟩
    · exact yields_some ⟨he, by simp⟩ hrest
  · rename_i e hread
    obtain ⟨he, hrest⟩ := yields_operand hshort hts e _ hread
    exact yields_some ⟨he, by simp⟩ hrest
  · exact yields_none

theorem yields_expression (commas : Bool) : Yields (AllNamed isType) (expression isType commas ts) := by
  rw [expression]
  split
  · rename_i first more rest hread
    obtain ⟨⟨hfirst, hmore⟩, hrest⟩ := yields_chain hshort hts commas _ _ hread
    intro e rest' he
    obtain ⟨e', he', heq⟩ := Option.map_eq_some_iff.1 he
    cases heq
    exact ⟨assemble_all (fun symbol es hes => allNamed_iff.2 ⟨trivial, hes⟩) hfirst hmore he', hrest⟩
  · exact yields_none

theorem yields_argumentList : Yields (fun es => ∀ e ∈ es, AllNamed isType e) (argumentList isType ts) := by
  rw [argumentList]
  split
  · rename_i e rest hread
    obtain ⟨he, hrest⟩ := yields_expression hshort hts false e _ hread
    exact yields_some (List.forall_mem_singleton.2 he) hrest.tail
  · rename_i e rest hread
    obtain ⟨he, hrest⟩ := yields_expression hshort hts false e _ hread
    refine yields_ite fun hlen => ?_
    exact (hshort rest hlen hrest.tail).argumentList.map (f := (e :: ·)) fun es hes => List.forall_mem_cons.2 ⟨he, hes⟩
  · exact yields_none

end

theorem readsNamed {ts : List Token} (hts : Spelled ts) : ReadsNamed isType ts := by
  have hshort : ∀ ts', ts'.length < ts.length → Spelled ts' → ReadsNamed isType ts' := fun _ _ => readsNamed
  refine ⟨yields_operand hshort hts, fun e he => yields_accesses hshort hts he, ?_, yields_argumentList hshort hts,
    yields_expression hshort hts, yields_chain hshort hts⟩
  rw [arguments.eq_def]
  split
  · exact yields_some (by simp) hts.tail
  · exact yields_argumentList hshort hts
termination_by ts.length

/-! ### Texts -/

theorem quoted?_ne_word {encoding s rest : List Char} {w : String} : quoted? encoding s ≠ some (.word w, rest) := by
  intro h
  cases s with
  | nil => cases h
  | cons quote s =>
      obtain ⟨r, -, heq⟩ := Option.map_eq_some_iff.1 h
      cases heq

theorem punctuator?_ne_word {s rest : List Char} {w : String} : punctuator? s ≠ some (.word w, rest) := by
  intro h
  obtain ⟨p, -, heq⟩ := Option.map_eq_some_iff.1 h
  have hp : Token.ofPunctuator p = .word w := congrArg Prod.fst heq
  revert hp
  unfold Token.ofPunctuator
  split <;> simp

theorem isWord_of_token? {s rest : List Char} {w : String} (h : token? s = some (.word w, rest)) : IsWord w.toList := by
  rw [token?] at h
  split at h
  · rename_i v rest' hword
    obtain ⟨-, hv⟩ := CType.Parser.word_eq_some hword
    split at h
    · exact absurd h quoted?_ne_word
    · cases h
      simpa using hv
  · split_ifs at h
    · cases h
    · exact absurd h quoted?_ne_word
    · exact absurd h punctuator?_ne_word

theorem spelled_lex {s : List Char} (h : lex s = some ts) : Spelled ts := by
  fun_induction lex s generalizing ts with
  | case1 =>
      cases h
      simp [Spelled]
  | case2 c s hspace ih => exact ih h
  | case3 => cases h
  | case4 c s hspace t rest htoken hlen ih =>
      obtain ⟨ts', hts', rfl⟩ := Option.map_eq_some_iff.1 h
      refine spelled_cons.2 ⟨fun w hw => ?_, ih hts'⟩
      cases t <;> cases hw
      exact isWord_of_token? htoken
  | case5 => cases h

theorem allNamed_readExpr {s : String} {e : Expr} (h : readExpr isType s = some e) : AllNamed isType e := by
  rw [readExpr] at h
  split at h
  · rename_i e' hread
    cases h
    obtain ⟨ts, hts, hread⟩ := Option.bind_eq_some_iff.1 hread
    exact ((readsNamed (spelled_lex hts)).expression true _ _ hread).1
  · cases h

theorem named_written {e : Expr} : e.written.Named isType ↔ e.Named isType := by
  cases e <;> rfl

theorem allNamed_written {e : Expr} : AllNamed isType e.written ↔ AllNamed isType e := by
  induction e using Expr.parts_induction with
  | step e ih =>
      have hchildren : e.written.children = e.children.map Expr.written := by
        cases e <;> simp [Expr.written, Expr.children, Expr.writtenAll_eq]
      rw [allNamed_iff, allNamed_iff, named_written, hchildren, List.forall_mem_map]
      exact and_congr_right fun _ => forall₂_congr ih

/-- Where C has a form for every node, the text of an expression is read as that expression exactly if the variables
are identifiers and the types consist of words that name types. -/
theorem readExpr_render_iff (isType : String → Bool) (hsizeof : isType "sizeof" = false) (e : Expr)
    (hregular : ∀ n ∈ e.nodes, n.Regular) :
    readExpr isType e.render = some e.written ↔ ∀ n ∈ e.nodes, n.Named isType := by
  constructor
  · intro h
    exact allNamed_written.1 (allNamed_readExpr h)
  · intro hnamed
    exact readExpr_text hsizeof fun n hn => ⟨hregular n hn, hnamed n hn⟩

theorem readExpr_render_nested : ∃ e : Expr,
    e = .op .unnumbered "-"
      [.deref .unnumbered (.index .unnumbered
        (.cast .unnumbered (.var .unnumbered (.free "p" none))
          (.pointer (.function (.pointer (.named "char")) [] false)))
        (.op .unnumbered "-" [.value .unnumbered "1"])),
      .call .unnumbered (.var .unnumbered (.free "f" none))
        [.ref .unnumbered (.deref .unnumbered (.var .unnumbered (.free "x" none))),
          .op .unnumbered "!" [.index .unnumbered (.value .unnumbered "\"(\\\"\"") (.value .unnumbered "0")]],
      .sizeofType .unnumbered (.array (.named "char") (some 4))] ∧
    e.render = "(*((char *(*)(void))p)[(-1)] - f(&*x, (!\"(\\\"\"[0])) - sizeof(char [4]))" ∧
    readExpr (· == "char") e.render = some e.written :=
  ⟨_, rfl, by decide, (readExpr_render_iff _ (by decide) _ (by decide)).2 (by decide)⟩

end Diversity.C
