import Diversity.Proofs.TypeWords
/-! The grammar of types: a text is read as a type just if the grammar derives it. -/
namespace Diversity.CType

namespace Grammar

/-- Parameters parted by commas, the mark of further ones only as the last. -/
inductive IsParamList (IsType : List Char → CType → Prop) : List Char → List CType → Bool → Prop where
  | last {s : List Char} {t : CType} (type : IsType s t) : IsParamList IsType s [t] false
  | mark {b : List Char} (blanks : Blanks b) : IsParamList IsType (b ++ ['.', '.', '.']) [] true
  | more {s b s' : List Char} {t : CType} {ts : List CType} {variadic : Bool} (type : IsType s t) (blanks : Blanks b)
      (rest : IsParamList IsType s' ts variadic) : IsParamList IsType (s ++ (b ++ ',' :: s')) (t :: ts) variadic

/-- What stands between the parentheses of a function type. -/
inductive IsParams (IsType : List Char → CType → Prop) : List Char → List CType → Bool → Prop where
  | none {b : List Char} (blanks : Blanks b) : IsParams IsType b [] false
  | some {s b : List Char} {ts : List CType} {variadic : Bool} (list : IsParamList IsType s ts variadic)
      (blanks : Blanks b) : IsParams IsType (s ++ b) ts variadic

/-- What stands after the parentheses of a function type. -/
inductive IsResult (IsType : List Char → CType → Prop) : List Char → CType → Prop where
  | missing : IsResult IsType [] .void
  | type {s : List Char} {t : CType} (type : IsType s t) : IsResult IsType s t

/-- The text is a type, and the tree is that of its derivation. -/
inductive IsType : List Char → CType → Prop where
  | pointer {b s : List Char} {t : CType} (blanks : Blanks b) (target : IsType s t) :
      IsType (b ++ '*' :: s) (.pointer t)
  | array {b before ds after s : List Char} {n : Option UInt64} {t : CType} (blanks : Blanks b)
      (blanksBefore : Blanks before) (length : IsLength ds n) (blanksAfter : Blanks after) (element : IsType s t) :
      IsType (b ++ '[' :: (before ++ (ds ++ (after ++ ']' :: s)))) (.array t n)
  | function {b b' ps s : List Char} {t : CType} {ts : List CType} {variadic : Bool} (blanks : Blanks b)
      (blanks' : Blanks b') (params : IsParams IsType ps ts variadic) (result : IsResult IsType s t) :
      IsType (b ++ 'f' :: 'n' :: (b' ++ '(' :: (ps ++ ')' :: s))) (.function t ts variadic)
  | named {b s : List Char} {ws : List (List Char)} (blanks : Blanks b) (name : IsName s ws) :
      IsType (b ++ s) (.named (" ".intercalate (ws.map String.ofList)))

theorem IsType.ne_nil {s : List Char} {t : CType} (h : IsType s t) : s ≠ [] := by
  cases h with
  | named _ hname => exact List.append_ne_nil_of_right_ne_nil _ hname.ne_nil
  | _ => exact List.append_ne_nil_of_right_ne_nil _ (List.cons_ne_nil _ _)

/-- The text is a type followed by blanks. -/
def Writes (text : String) (t : CType) : Prop :=
  ∃ s b, text.toList = s ++ b ∧ IsType s t ∧ Blanks b

end Grammar

namespace Parser

open Grammar

variable {s r rest : List Char} {t : CType} {p : Param} {ps : List Param} {ts : List CType} {variadic : Bool}

theorem length_lt_append (hs : s ≠ []) (r : List Char) : r.length < (s ++ r).length := by
  have := List.length_pos_iff.2 hs
  rw [List.length_append]
  omega

theorem length_lt_of_eq {b : List Char} {c : Char} (hs : s = b ++ c :: r) : r.length < s.length := by
  rw [hs, List.length_append, List.length_cons]
  omega

/-! ### What each reader does -/

theorem type_eq_done (h : type s = .done t rest) :
    (∃ r t', skipSpaces s = '*' :: r ∧ type r = .done t' rest ∧ t = .pointer t') ∨
    (∃ r n r' t', skipSpaces s = '[' :: r ∧ arrayLength r = some (n, r') ∧ type r' = .done t' rest ∧ t = .array t' n) ∨
    (∃ r, skipSpaces s = 'f' :: 'n' :: r ∧ function r = .done t rest) ∨
    name (skipSpaces s) = .done t rest := by
  rw [type] at h
  split at h
  · rename_i r hskip
    refine .inl ⟨r, ?_⟩
    split at h
    · rename_i t' rest' hr
      cases h
      exact ⟨t', hskip, hr, rfl⟩
    · rename_i hr
      exact absurd h (hr _ _)
  · rename_i r hskip
    refine .inr (.inl ⟨r, ?_⟩)
    split at h
    · rename_i n r' hn
      split at h
      · rename_i t' rest' hr
        cases h
        exact ⟨n, r', t', hskip, hn, hr, rfl⟩
      · rename_i hr
        exact absurd h (hr _ _)
    · cases h
  · rename_i r hskip
    split at h
    · exact .inr (.inr (.inr (hskip ▸ h)))
    · exact .inr (.inr (.inl ⟨r, hskip, h⟩))
  · exact .inr (.inr (.inr h))

theorem type_pointer (hs : skipSpaces s = '*' :: r) (h : type r = .done t rest) : type s = .done (.pointer t) rest := by
  rw [type]
  split <;> simp_all

theorem type_array {r' : List Char} {n : Option UInt64} (hs : skipSpaces s = '[' :: r)
    (hn : arrayLength r = some (n, r')) (h : type r' = .done t rest) : type s = .done (.array t n) rest := by
  rw [type]
  split <;> simp_all
  split <;> simp_all

theorem type_function (hs : skipSpaces s = 'f' :: 'n' :: r) (h : function r = .done t rest) :
    type s = .done t rest := by
  rw [type]
  split <;> simp_all

theorem type_name {c : Char} (hs : skipSpaces s = c :: r) (hstar : c ≠ '*') (hbracket : c ≠ '[')
    (hfn : ∀ r', c = 'f' → r = 'n' :: r' → function r' = .miss) : type s = name (c :: r) := by
  rw [type]
  split
  · rename_i heq
    cases hs.symm.trans heq
    exact absurd rfl hstar
  · rename_i heq
    cases hs.symm.trans heq
    exact absurd rfl hbracket
  · rename_i heq
    cases hs.symm.trans heq
    rw [hfn _ rfl rfl]
  · rw [hs]

theorem type_nil (hs : skipSpaces s = []) : type s = .miss := by
  rw [type]
  split <;> simp_all [name, word]

theorem type_miss {c : Char} (hs : skipSpaces s = c :: r) (hstar : c ≠ '*') (hbracket : c ≠ '[')
    (hletter : isWordStart c = false) : type s = .miss := by
  rw [type_name hs hstar hbracket, name, word, hletter]
  · rfl
  · rintro r' rfl
    cases hletter

theorem function_eq_done (h : function s = .done t rest) :
    ∃ r ps after s' result ts variadic, skipSpaces s = '(' :: r ∧ paramList r = .done ps after ∧
      skipSpaces after = ')' :: s' ∧ s'.length < s.length ∧ params ps = some (ts, variadic) ∧
      t = .function result ts variadic ∧
      (type s' = .miss ∧ result = .void ∧ rest = s' ∨ type s' = .done result rest) := by
  have close_eq {ps result after} (h : function.close ps result after = .done t rest) :
      ∃ ts variadic, params ps = some (ts, variadic) ∧ t = .function result ts variadic ∧ rest = after := by
    rw [function.close] at h
    split at h
    · rename_i ts variadic hps
      cases h
      exact ⟨ts, variadic, hps, rfl, rfl⟩
    · cases h
  rw [function] at h
  split at h
  · rename_i r hskip
    split at h
    · cases h
    · cases h
    · rename_i ps after hlist
      split at h
      · rename_i s' hclose
        split at h
        · rename_i hlt
          split at h
          · cases h
          · rename_i hmiss
            obtain ⟨ts, variadic, hps, ht, hrest⟩ := close_eq h
            exact ⟨r, ps, after, s', .void, ts, variadic, hskip, hlist, hclose, hlt, hps, ht, .inl ⟨hmiss, rfl, hrest⟩⟩
          · rename_i result rest' hresult
            obtain ⟨ts, variadic, hps, ht, hrest⟩ := close_eq h
            exact ⟨r, ps, after, s', result, ts, variadic, hskip, hlist, hclose, hlt, hps, ht, .inr (hrest ▸ hresult)⟩
        · cases h
      · cases h
  · cases h

theorem function_miss (h : ∀ r, skipSpaces s ≠ '(' :: r) : function s = .miss := by
  rw [function]
  split
  · rename_i heq
    exact absurd heq (h _)
  · rfl

theorem param_eq_done (h : param s = .done p rest) :
    (skipSpaces s = '.' :: '.' :: '.' :: rest ∧ p = .more) ∨ ∃ t, type s = .done t rest ∧ p = .type t := by
  rw [param] at h
  split at h
  · rename_i heq
    cases h
    exact .inl ⟨heq, rfl⟩
  · split at h
    · rename_i t rest' ht
      cases h
      exact .inr ⟨t, ht, rfl⟩
    · cases h
    · cases h

theorem moreParams_eq_done (h : moreParams s = .done ps rest) :
    (ps = [] ∧ rest = s) ∨ ∃ next p mid ps', skipSpaces s = ',' :: next ∧ param next = .done p mid ∧ ps = p :: ps' ∧
      (mid.length < s.length ∧ moreParams mid = .done ps' rest ∨ ps' = [] ∧ rest = mid) := by
  rw [moreParams] at h
  split at h
  · rename_i next hskip
    split at h
    · cases h
      exact .inl ⟨rfl, rfl⟩
    · cases h
    · rename_i p mid hp
      refine .inr ⟨next, p, mid, ?_⟩
      split at h
      · rename_i hlt
        split at h
        · rename_i ps' rest' hmore
          cases h
          exact ⟨ps', hskip, hp, rfl, .inl ⟨hlt, hmore⟩⟩
        · rename_i hmore
          exact absurd h (hmore _ _)
      · cases h
        exact ⟨[], hskip, hp, rfl, .inr ⟨rfl, rfl⟩⟩
  · cases h
    exact .inl ⟨rfl, rfl⟩

theorem paramList_eq_done (h : paramList s = .done ps rest) :
    (ps = [] ∧ rest = s) ∨ ∃ p mid ps', param s = .done p mid ∧ ps = p :: ps' ∧
      (mid.length < s.length ∧ moreParams mid = .done ps' rest ∨ ps' = [] ∧ rest = mid) := by
  rw [paramList] at h
  split at h
  · cases h
    exact .inl ⟨rfl, rfl⟩
  · cases h
  · rename_i p mid hp
    refine .inr ⟨p, mid, ?_⟩
    split at h
    · rename_i hlt
      split at h
      · rename_i ps' rest' hmore
        cases h
        exact ⟨ps', hp, rfl, .inl ⟨hlt, hmore⟩⟩
      · rename_i hmore
        exact absurd h (hmore _ _)
    · cases h
      exact ⟨[], hp, rfl, .inr ⟨rfl, rfl⟩⟩

/-! ### What is read is derived -/

def Sound (s : List Char) : Prop := ∀ t rest, type s = .done t rest → ∃ front, s = front ++ rest ∧ IsType front t

/-- The text is the parameter. -/
def Param.IsWritten (s : List Char) : Param → Prop
  | .type t => IsType s t
  | .more => ∃ b, Blanks b ∧ s = b ++ ['.', '.', '.']

theorem param_sound (hs : Sound s) (h : param s = .done p rest) : ∃ front, s = front ++ rest ∧ p.IsWritten front := by
  rcases param_eq_done h with ⟨hskip, rfl⟩ | ⟨t, ht, rfl⟩
  · obtain ⟨b, hb, hb'⟩ := exists_blanks s
    refine ⟨b ++ ['.', '.', '.'], ?_, b, hb, rfl⟩
    rw [hb', hskip, List.append_assoc]
    rfl
  · exact hs t rest ht

theorem isParamList_of_params {front : List Char} (hp : p.IsWritten front) (hps : params [p] = some (ts, variadic)) :
    IsParamList IsType front ts variadic := by
  cases p with
  | type t =>
      cases hps
      exact .last hp
  | more =>
      cases hps
      obtain ⟨b, hb, rfl⟩ := hp
      exact .mark hb

theorem moreParams_sound {n : Nat} (hshort : ∀ s : List Char, s.length < n → Sound s) (hlen : s.length < n)
    (h : moreParams s = .done ps rest) {front : List Char} (hp : p.IsWritten front)
    (hps : params (p :: ps) = some (ts, variadic)) :
    ∃ front', s = front' ++ rest ∧ IsParamList IsType (front ++ front') ts variadic := by
  induction hk : s.length using Nat.strong_induction_on generalizing s p ps ts front with
  | _ k ih =>
      subst hk
      rcases moreParams_eq_done h with ⟨rfl, rfl⟩ | ⟨next, q, mid, qs, hskip, hq, rfl, hmore⟩
      · refine ⟨[], rfl, ?_⟩
        rw [List.append_nil]
        exact isParamList_of_params hp hps
      · obtain ⟨b, hb, hs⟩ := exists_blanks s
        rw [hskip] at hs
        obtain ⟨middle, hmid, hwritten⟩ := param_sound (hshort next ((length_lt_of_eq hs).trans hlen)) hq
        cases p with
        | more => cases hps
        | type t =>
            obtain ⟨⟨us, _⟩, hus, heq⟩ := Option.map_eq_some_iff.1 hps
            cases heq
            obtain ⟨last, hlast, hlist⟩ : ∃ last, mid = last ++ rest ∧
                IsParamList IsType (middle ++ last) us variadic := by
              rcases hmore with ⟨hlt, hmore⟩ | ⟨rfl, rfl⟩
              · exact ih _ hlt (hlt.trans hlen) hmore hwritten hus rfl
              · refine ⟨[], rfl, ?_⟩
                rw [List.append_nil]
                exact isParamList_of_params hwritten hus
            refine ⟨b ++ ',' :: (middle ++ last), ?_, .more hp hb hlist⟩
            rw [hs, hmid, hlast, List.append_assoc, List.cons_append, List.append_assoc]

theorem paramList_sound {n : Nat} (hshort : ∀ s : List Char, s.length < n → Sound s) (hlen : s.length < n)
    (h : paramList s = .done ps rest) (hps : params ps = some (ts, variadic)) {b r : List Char} (hb : Blanks b)
    (hrest : rest = b ++ r) : ∃ front, s = front ++ r ∧ IsParams IsType front ts variadic := by
  subst hrest
  rcases paramList_eq_done h with ⟨rfl, rfl⟩ | ⟨p, mid, ps', hp, rfl, hmore⟩
  · cases hps
    exact ⟨b, rfl, .none hb⟩
  · obtain ⟨front, hs, hp⟩ := param_sound (hshort s hlen) hp
    obtain ⟨front', hmid, hlist⟩ : ∃ front', mid = front' ++ (b ++ r) ∧
        IsParamList IsType (front ++ front') ts variadic := by
      rcases hmore with ⟨hlt, hmore⟩ | ⟨rfl, hmid⟩
      · exact moreParams_sound hshort (hlt.trans hlen) hmore hp hps
      · refine ⟨[], hmid.symm, ?_⟩
        rw [List.append_nil]
        exact isParamList_of_params hp hps
    refine ⟨front ++ front' ++ b, ?_, .some hlist hb⟩
    rw [hs, hmid, List.append_assoc, List.append_assoc]

theorem function_sound {n : Nat} (hshort : ∀ s : List Char, s.length < n → Sound s) (hlen : s.length < n)
    (h : function s = .done t rest) {b : List Char} (hb : Blanks b) :
    ∃ front, s = front ++ rest ∧ IsType (b ++ 'f' :: 'n' :: front) t := by
  obtain ⟨r, ps, after, s', result, ts, variadic, hskip, hlist, hclose, hlt, hps, rfl, hresult⟩ := function_eq_done h
  obtain ⟨b₁, hb₁, hs⟩ := exists_blanks s
  obtain ⟨b₂, hb₂, hafter⟩ := exists_blanks after
  rw [hskip] at hs
  rw [hclose] at hafter
  obtain ⟨inner, hr, hparams⟩ := paramList_sound hshort ((length_lt_of_eq hs).trans hlen) hlist hps hb₂ hafter
  obtain ⟨last, hlast, hresult⟩ : ∃ last, s' = last ++ rest ∧ IsResult IsType last result := by
    rcases hresult with ⟨-, rfl, rfl⟩ | hresult
    · exact ⟨[], rfl, .missing⟩
    · obtain ⟨last, hlast, htype⟩ := hshort s' (hlt.trans hlen) result rest hresult
      exact ⟨last, hlast, .type htype⟩
  refine ⟨b₁ ++ '(' :: (inner ++ ')' :: last), ?_, .function hb hb₁ hparams hresult⟩
  rw [hs, hr, hlast, List.append_assoc, List.cons_append, List.append_assoc, List.cons_append]

theorem type_sound (s : List Char) : Sound s := by
  induction hn : s.length using Nat.strong_induction_on generalizing s with
  | _ n ih =>
      subst hn
      have hshort (s' : List Char) (hlt : s'.length < s.length) : Sound s' := ih _ hlt s' rfl
      intro t rest h
      obtain ⟨b, hb, hs⟩ := exists_blanks s
      rcases type_eq_done h with ⟨r, t, hskip, hr, rfl⟩ | ⟨r, n, r', t, hskip, hn, hr, rfl⟩ | ⟨r, hskip, hr⟩ | hname
      · rw [hskip] at hs
        obtain ⟨front, rfl, htype⟩ := hshort r (length_lt_of_eq hs) t rest hr
        exact ⟨b ++ '*' :: front, by rw [hs, List.append_assoc, List.cons_append], .pointer hb htype⟩
      · rw [hskip] at hs
        have hlt : r'.length < s.length := (length_arrayLength_lt hn).trans (length_lt_of_eq hs)
        obtain ⟨before, ds, after, hbefore, hds, hafter, hr'⟩ := arrayLength_eq_some hn
        obtain ⟨front, rfl, htype⟩ := hshort r' hlt t rest hr
        refine ⟨b ++ '[' :: (before ++ (ds ++ (after ++ ']' :: front))), ?_, .array hb hbefore hds hafter htype⟩
        rw [hs, hr']
        simp only [List.append_assoc, List.cons_append]
      · rw [hskip] at hs
        have hlt : r.length < s.length := (Nat.lt_succ_self _).trans (length_lt_of_eq hs)
        obtain ⟨front, rfl, htype⟩ := function_sound hshort hlt hr hb
        exact ⟨b ++ 'f' :: 'n' :: front, by rw [hs, List.append_assoc, List.cons_append, List.cons_append], htype⟩
      · obtain ⟨front, ws, hskip, hwords, rfl⟩ := name_eq_done hname
        rw [hskip] at hs
        exact ⟨b ++ front, by rw [hs, List.append_assoc], .named hb hwords⟩

/-! ### What is derived is read -/

/-- A type before the text is over: only blanks are left, or a comma or closing parenthesis is next. -/
def Ends (rest : List Char) : Prop := ∀ c r, skipSpaces rest = c :: r → c = ',' ∨ c = ')'

theorem ends_blanks_cons {b : List Char} {c : Char} (hb : Blanks b) (hc : c = ',' ∨ c = ')') (r : List Char) :
    Ends (b ++ c :: r) := by
  have hblank : ¬ IsBlank c := by rcases hc with rfl | rfl <;> decide
  intro d r' h
  rw [skipSpaces_blanks_cons hb hblank] at h
  cases h
  exact hc

theorem Ends.nameEnds (h : Ends rest) : NameEnds rest := by
  refine nameEnds_of_stops fun c hc => ?_
  obtain ⟨r, hskip⟩ := List.head?_eq_some_iff.1 hc
  rcases h c r hskip with rfl | rfl <;> rfl

theorem Ends.type_miss (h : Ends rest) : type rest = .miss := by
  cases hskip : skipSpaces rest with
  | nil => exact type_nil hskip
  | cons c r => rcases h c r hskip with rfl | rfl <;> exact Parser.type_miss hskip (by decide) (by decide) rfl

def Complete (s : List Char) (t : CType) : Prop := ∀ rest, Ends rest → type (s ++ rest) = .done t rest

theorem param_of_type (h : type s = .done t rest) : param s = .done (.type t) rest := by
  rw [param]
  split
  · rename_i hskip
    rw [type_miss hskip (by decide) (by decide) rfl] at h
    cases h
  · rw [h]

theorem param_of_mark {b : List Char} (hb : Blanks b) (rest : List Char) :
    param (b ++ ['.', '.', '.'] ++ rest) = .done .more rest := by
  rw [param, List.append_assoc, List.cons_append, skipSpaces_blanks_cons hb (by decide)]
  rfl

theorem moreParams_nil {b : List Char} (hb : Blanks b) (r : List Char) :
    moreParams (b ++ ')' :: r) = .done [] (b ++ ')' :: r) := by
  rw [moreParams]
  split
  · rename_i heq
    rw [skipSpaces_blanks_cons hb (by decide)] at heq
    cases heq
  · rfl

theorem moreParams_cons {b mid : List Char} (hb : Blanks b) (hp : param s = .done p mid)
    (hlt : mid.length < s.length) (h : moreParams mid = .done ps rest) :
    moreParams (b ++ ',' :: s) = .done (p :: ps) rest := by
  have hskip := skipSpaces_blanks_cons hb (c := ',') (by decide) s
  rw [moreParams]
  split
  · rename_i heq
    cases hskip.symm.trans heq
    have hlt : mid.length < (b ++ ',' :: s).length := hlt.trans (length_lt_of_eq rfl)
    rw [hp]
    simp only [dif_pos hlt, h]
  · rename_i heq
    exact absurd hskip (heq _)

theorem paramList_nil {b : List Char} (hb : Blanks b) (r : List Char) :
    paramList (b ++ ')' :: r) = .done [] (b ++ ')' :: r) := by
  have hmiss := (ends_blanks_cons hb (.inr rfl) r).type_miss
  rw [paramList, param, hmiss, skipSpaces_blanks_cons hb (by decide)]
  rfl

theorem paramList_cons {mid : List Char} (hp : param s = .done p mid) (hlt : mid.length < s.length)
    (h : moreParams mid = .done ps rest) : paramList s = .done (p :: ps) rest := by
  rw [paramList, hp]
  simp only [dif_pos hlt, h]

theorem exists_params {n : Nat} (hshort : ∀ s t, s.length < n → IsType s t → Complete s t)
    (h : IsParamList IsType s ts variadic) (hlen : s.length < n) {b : List Char} (hb : Blanks b) (r : List Char) :
    ∃ p ps mid, params (p :: ps) = some (ts, variadic) ∧ param (s ++ (b ++ ')' :: r)) = .done p mid ∧
      mid.length < (s ++ (b ++ ')' :: r)).length ∧ moreParams mid = .done ps (b ++ ')' :: r) := by
  induction h with
  | @last s t htype =>
      have hread := hshort s t hlen htype _ (ends_blanks_cons hb (.inr rfl) r)
      exact ⟨.type t, [], _, rfl, param_of_type hread, length_lt_append htype.ne_nil _, moreParams_nil hb r⟩
  | @mark b' hb' =>
      have hne : b' ++ ['.', '.', '.'] ≠ [] := List.append_ne_nil_of_right_ne_nil _ (List.cons_ne_nil _ _)
      exact ⟨.more, [], _, rfl, param_of_mark hb' _, length_lt_append hne _, moreParams_nil hb r⟩
  | @more s b' s' t ts variadic htype hb' hrest ih =>
      rw [List.length_append, List.length_append, List.length_cons] at hlen
      obtain ⟨p, ps, mid, hps, hp, hlt, hmore⟩ := ih (by omega)
      have hread := hshort s t (by omega) htype _ (ends_blanks_cons hb' (.inl rfl) (s' ++ (b ++ ')' :: r)))
      rw [List.append_assoc, List.append_assoc, List.cons_append]
      refine ⟨.type t, p :: ps, _, ?_, param_of_type hread, length_lt_append htype.ne_nil _,
        moreParams_cons hb' hp hlt hmore⟩
      rw [params, hps]
      rfl

theorem exists_paramList {n : Nat} (hshort : ∀ s t, s.length < n → IsType s t → Complete s t)
    (h : IsParams IsType s ts variadic) (hlen : s.length < n) (r : List Char) :
    ∃ ps after, params ps = some (ts, variadic) ∧ paramList (s ++ ')' :: r) = .done ps after ∧
      skipSpaces after = ')' :: r := by
  cases h with
  | none hb => exact ⟨[], _, rfl, paramList_nil hb r, skipSpaces_blanks_cons hb (by decide) r⟩
  | @some s b _ _ hlist hb =>
      rw [List.length_append] at hlen
      obtain ⟨p, ps, mid, hps, hp, hlt, hmore⟩ := exists_params hshort hlist (by omega) hb r
      rw [List.append_assoc]
      exact ⟨p :: ps, _, hps, paramList_cons hp hlt hmore, skipSpaces_blanks_cons hb (by decide) r⟩

theorem function_of_paramList {after s' : List Char} {result : CType} (hs : skipSpaces s = '(' :: r)
    (hlist : paramList r = .done ps after) (hclose : skipSpaces after = ')' :: s') (hlt : s'.length < s.length)
    (hps : params ps = some (ts, variadic))
    (hresult : type s' = .miss ∧ result = .void ∧ rest = s' ∨ type s' = .done result rest) :
    function s = .done (.function result ts variadic) rest := by
  have hend (rest : List Char) : function.close ps result rest = .done (.function result ts variadic) rest := by
    rw [function.close, hps]
  rw [function]
  split
  · rename_i heq
    cases hs.symm.trans heq
    rw [hlist]
    dsimp only
    split
    · rename_i heq
      cases hclose.symm.trans heq
      rw [dif_pos hlt]
      rcases hresult with ⟨hmiss, rfl, rfl⟩ | hdone
      · rw [hmiss]
        exact hend _
      · rw [hdone]
        exact hend _
    · rename_i heq
      exact absurd hclose (heq _)
  · rename_i heq
    exact absurd hs (heq _)

/-- A name may begin with the keyword of function types, but no parenthesis follows it then. -/
theorem function_miss_of_name {ws : List (List Char)} (h : IsName s ws) (hrest : Ends rest)
    (hfn : s ++ rest = 'f' :: 'n' :: r) : function r = .miss := by
  refine function_miss fun r' hskip => ?_
  have hends : NameEnds r := by
    refine nameEnds_of_stops ?_
    rw [hskip]
    rintro c ⟨⟩
    rfl
  have hword : IsWord ['f', 'n'] := by
    refine .intro (isWordStart_iff.1 rfl) fun d hd => ?_
    cases List.mem_singleton.1 hd
    exact isWordRest_iff.1 rfl
  -- the keyword alone would be the name, so the text after it would be the rest
  have hname := name_append h hrest.nameEnds
  rw [hfn] at hname
  injection (name_append (.last hword) hends).symm.trans hname with _ heq
  rw [heq] at hskip
  rcases hrest _ _ hskip with hc | hc <;> cases hc

theorem name_complete {b : List Char} {ws : List (List Char)} (hb : Blanks b) (h : IsName s ws) :
    Complete (b ++ s) (.named (" ".intercalate (ws.map String.ofList))) := by
  intro rest hrest
  have hname := name_append h hrest.nameEnds
  have hskip : skipSpaces (b ++ s ++ rest) = s ++ rest := by
    rw [List.append_assoc, skipSpaces_append hb, skipSpaces_name h]
  obtain ⟨c, r, hs, hc⟩ : ∃ c r, s ++ rest = c :: r ∧ IsLetter c := by
    cases h with
    | last hw =>
        cases hw with
        | intro hc _ => exact ⟨_, _, rfl, hc⟩
    | more hw =>
        cases hw with
        | intro hc _ => exact ⟨_, _, rfl, hc⟩
  rw [← hname, hs, type_name (hs ▸ hskip)]
  · rintro rfl
    cases isWordStart_iff.2 hc
  · rintro rfl
    cases isWordStart_iff.2 hc
  · rintro r' rfl rfl
    exact function_miss_of_name h hrest hs

theorem type_complete {s : List Char} {t : CType} (h : IsType s t) : Complete s t := by
  induction hn : s.length using Nat.strong_induction_on generalizing s t with
  | _ n ih =>
      subst hn
      intro rest hrest
      cases h with
      | @pointer b s t hb htarget =>
          rw [List.append_assoc]
          exact type_pointer (skipSpaces_blanks_cons hb (by decide) _)
            (ih _ (length_lt_of_eq rfl) htarget rfl rest hrest)
      | @array b before ds after s n t hb hbefore hds hafter helement =>
          have hlt : s.length < (b ++ '[' :: (before ++ (ds ++ (after ++ ']' :: s)))).length := by
            simp only [List.length_append, List.length_cons]
            omega
          simp only [List.append_assoc, List.cons_append]
          exact type_array (skipSpaces_blanks_cons hb (by decide) _) (arrayLength_append hbefore hds hafter _)
            (ih _ hlt helement rfl rest hrest)
      | @function b b' ps s t ts variadic hb hb' hparams hresult =>
          have hlen : (b ++ 'f' :: 'n' :: (b' ++ '(' :: (ps ++ ')' :: s))).length =
              b.length + b'.length + ps.length + s.length + 4 := by
            simp only [List.length_append, List.length_cons]
            omega
          rw [hlen] at ih
          obtain ⟨qs, after, hqs, hlist, hclose⟩ := exists_paramList
            (fun s t hlt ht => ih _ hlt ht rfl) hparams (by omega) (s ++ rest)
          simp only [List.append_assoc, List.cons_append]
          refine type_function (skipSpaces_blanks_cons hb (by decide) _)
            (function_of_paramList (skipSpaces_blanks_cons hb' (by decide) _) hlist hclose ?_ hqs ?_)
          · simp only [List.length_append, List.length_cons]
            omega
          · cases hresult with
            | missing => exact .inl ⟨hrest.type_miss, rfl, rfl⟩
            | type htype => exact .inr (ih _ (by omega) htype rfl rest hrest)
      | named hb hname => exact name_complete hb hname rest hrest

end Parser

open Grammar

theorem parse_of_writes {text : String} {t : CType} (h : Writes text t) : parse text = .ok t := by
  obtain ⟨s, b, htext, htype, hb⟩ := h
  have hskip := Parser.skipSpaces_blanks hb
  have hends : Parser.Ends b := by
    intro c r h
    rw [hskip] at h
    cases h
  rw [parse, htext, Parser.type_complete htype b hends]
  simp only [hskip]

theorem writes_of_parse {text : String} {t : CType} (h : parse text = .ok t) : Writes text t := by
  rw [parse] at h
  split at h
  · rename_i t' rest hread
    split at h
    · rename_i hskip
      cases h
      obtain ⟨s, htext, htype⟩ := Parser.type_sound _ t rest hread
      obtain ⟨b, hb, hrest⟩ := Parser.exists_blanks rest
      rw [hskip, List.append_nil] at hrest
      exact ⟨s, rest, htext, htype, hrest ▸ hb⟩
    · cases h
  · cases h
  · cases h

/-- A text is read as a type just if the grammar derives it with that tree, and no text has two trees. -/
theorem parse_eq_ok_iff_writes : (∀ text t, parse text = .ok t ↔ Writes text t) ∧
    ∀ text t t', Writes text t → Writes text t' → t = t' := by
  refine ⟨fun text t => ⟨writes_of_parse, parse_of_writes⟩, fun text t t' h h' => ?_⟩
  have hread := (parse_of_writes h).symm.trans (parse_of_writes h')
  injection hread

end Diversity.CType
