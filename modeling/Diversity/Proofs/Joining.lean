import Diversity.Proofs.Consistency
import Diversity.Proofs.Shapes
import Diversity.Proofs.Sharing
/-! How two captures are joined: in a few steps, and with the same result in either order. -/
namespace Diversity

namespace Capture

def isAssigned : Capture → Bool
  | .assigned _ => true
  | _ => false

def isBase : Capture → Bool
  | .base _ => true
  | _ => false

/-- The address of `inner`, which `c` or `d` may assign to. -/
def commonAddress (c d inner : Capture) : Capture :=
  if c.isAssigned || d.isAssigned then .assigned inner else .ref inner

/-- Joining `c` with `d` ends within that many steps and gives the last capture. If only `d` is an address, a step
exchanges them. -/
inductive JoinsWithin : ℕ → Capture → Capture → Capture → Prop
  | addresses {n c d a b j} : c.pointee? = some a → d.pointee? = some b → JoinsWithin n a b j →
      JoinsWithin (n + 1) c d (commonAddress c d j)
  | address {n c d a j} : c.pointee? = some a → d.pointee? = none → JoinsWithin n a d j →
      JoinsWithin (n + 1) c d (if j.sameShape a then c else j)
  | exchange {n c d b j} : c.pointee? = none → d.pointee? = some b → JoinsWithin n d c j → JoinsWithin (n + 1) c d j
  | base_left {n e d} : d.pointee? = none → JoinsWithin (n + 1) (.base e) d (.base e)
  | base_right {n c e} : c.pointee? = none → c.isBase = false → JoinsWithin (n + 1) c (.base e) (.base e)
  | deref {n a b j} : JoinsWithin n a b j → JoinsWithin (n + 1) (.deref a) (.deref b) (.deref j)
  | index {n a b j i k} : i.sameLiteral k = true → JoinsWithin n a b j →
      JoinsWithin (n + 1) (.index a i) (.index b k) (.index j i)
  | indices {n a b j i k} : i.sameLiteral k = false → JoinsWithin n a b j →
      JoinsWithin (n + 1) (.index a i) (.index b k) j
  | deref_index {n a b j i} : JoinsWithin n a b j → JoinsWithin (n + 1) (.deref a) (.index b i) j
  | index_deref {n a b j i} : JoinsWithin n a b j → JoinsWithin (n + 1) (.index a i) (.deref b) j

variable {c d j : Capture} {m n : ℕ}

theorem JoinsWithin.succ (h : JoinsWithin n c d j) : JoinsWithin (n + 1) c d j := by
  induction h with
  | addresses hc hd _ ih => exact .addresses hc hd ih
  | address hc hd _ ih => exact .address hc hd ih
  | exchange hc hd _ ih => exact .exchange hc hd ih
  | base_left hd => exact .base_left hd
  | base_right hc hbase => exact .base_right hc hbase
  | deref _ ih => exact .deref ih
  | index hik _ ih => exact .index hik ih
  | indices hik _ ih => exact .indices hik ih
  | deref_index _ ih => exact .deref_index ih
  | index_deref _ ih => exact .index_deref ih

theorem JoinsWithin.mono (h : JoinsWithin n c d j) (hnm : n ≤ m) : JoinsWithin m c d j := by
  induction hnm with
  | refl => exact h
  | step _ ih => exact ih.succ

theorem pointee?_eq_none (href : ∀ a, c = .ref a → False) (hassigned : ∀ a, c = .assigned a → False) :
    c.pointee? = none := by
  cases c with
  | ref a => exact (href a rfl).elim
  | assigned a => exact (hassigned a rfl).elim
  | _ => rfl

theorem isBase_eq_false (h : ∀ e, c = .base e → False) : c.isBase = false := by
  cases c with
  | base e => exact (h e rfl).elim
  | _ => rfl

theorem depth_of_pointee? (h : c.pointee? = some d) : c.depth = d.depth + 1 := by
  cases c <;> cases h <;> rfl

/-- Each step takes a layer off, but for an exchange, after which the next one does. -/
theorem joinsWithin_join (c d : Capture) : JoinsWithin (2 * (c.depth + d.depth) + 1) c d (c.join d) := by
  have haddresses {c d a b j : Capture} (hc : c.pointee? = some a) (hd : d.pointee? = some b)
      (h : JoinsWithin (2 * (a.depth + b.depth) + 1) a b j) :
      JoinsWithin (2 * (c.depth + d.depth) + 1) c d (commonAddress c d j) := by
    have hdepth := depth_of_pointee? hc
    have hdepth' := depth_of_pointee? hd
    exact (JoinsWithin.addresses hc hd h).mono (by omega)
  -- this leaves a step for an exchange
  have haddress {c d a j : Capture} (hc : c.pointee? = some a) (hd : d.pointee? = none)
      (h : JoinsWithin (2 * (a.depth + d.depth) + 1) a d j) :
      JoinsWithin (2 * (c.depth + d.depth)) c d (absorb c a j) := by
    have hdepth := depth_of_pointee? hc
    exact (JoinsWithin.address hc hd h).mono (by omega)
  fun_induction join c d with
  | case1 a b ih => exact haddresses (c := .ref a) (d := .ref b) rfl rfl ih
  | case2 a b ih => exact haddresses (c := .ref a) (d := .assigned b) rfl rfl ih
  | case3 a b ih => exact haddresses (c := .assigned a) (d := .ref b) rfl rfl ih
  | case4 a b ih => exact haddresses (c := .assigned a) (d := .assigned b) rfl rfl ih
  | case5 a d hr ha ih => exact (haddress (c := .ref a) rfl (pointee?_eq_none hr ha) ih).succ
  | case6 a d hr ha ih => exact (haddress (c := .assigned a) rfl (pointee?_eq_none hr ha) ih).succ
  | case7 c b hr ha ih =>
      have hc := pointee?_eq_none hr ha
      rw [Nat.add_comm c.depth]
      exact .exchange hc rfl (haddress (c := .ref b) rfl hc ih)
  | case8 c b hr ha ih =>
      have hc := pointee?_eq_none hr ha
      rw [Nat.add_comm c.depth]
      exact .exchange hc rfl (haddress (c := .assigned b) rfl hc ih)
  | case9 e d hr ha => exact .base_left (pointee?_eq_none hr ha)
  | case10 c e hr ha hbase => exact .base_right (pointee?_eq_none hr ha) (isBase_eq_false hbase)
  | case11 a b ih => exact ih.deref.mono (by simp only [depth]; omega)
  | case12 a i b k hik ih => exact (ih.index hik).mono (by simp only [depth]; omega)
  | case13 a i b k hik ih => exact (ih.indices (by simpa using hik)).mono (by simp only [depth]; omega)
  | case14 a b _ ih => exact ih.deref_index.mono (by simp only [depth]; omega)
  | case15 a _ b ih => exact ih.index_deref.mono (by simp only [depth]; omega)

theorem JoinsWithin.eq_join (h : JoinsWithin n c d j) : j = c.join d := by
  induction h with
  | @addresses _ c d a b j hc hd _ ih =>
      subst ih
      cases c <;> cases hc <;> cases d <;> cases hd <;> rw [Capture.join] <;> rfl
  | address hc hd _ ih => rw [ih, join_of_pointee? hc hd, absorb]
  | exchange hc hd _ ih => rw [ih, join_comm_of_pointee? hc hd]
  | @base_left _ e d hd => cases d <;> cases hd <;> simp [Capture.join]
  | @base_right _ c e hc hbase => cases c <;> cases hc <;> cases hbase <;> simp [Capture.join]
  | deref _ ih | deref_index _ ih | index_deref _ ih => rw [Capture.join, ih]
  | index hik _ ih | indices hik _ ih => simp [Capture.join, hik, ih]

theorem joinsWithin_iff (c d j : Capture) : JoinsWithin (2 * (c.depth + d.depth) + 1) c d j ↔ j = c.join d := by
  constructor
  · exact JoinsWithin.eq_join
  · rintro rfl
    exact joinsWithin_join c d

/-! ## Either order -/

theorem exists_root_of_key {k : Option ChunkId × String} (h : c.key = some k) :
    ∃ i v, c.root = .var i v ∧ v.key = k := by
  obtain ⟨v, hv, rfl⟩ := Option.map_eq_some_iff.1 h
  cases hroot : c.root <;> simp_all [Expr.var?]

/-- An address and what is no address are joined in one order only. All other steps do not tell left from right. -/
theorem shape_join_comm (h : c.root.shape = d.root.shape) : (c.join d).shape = (d.join c).shape := by
  fun_induction join c d with
  | case1 a b ih | case2 a b ih | case3 a b ih | case4 a b ih | case11 a b ih => simp [join, shape, ih h]
  | case5 a d hr ha ih | case6 a d hr ha ih =>
      have hd := pointee?_eq_none hr ha
      rw [join_comm_of_pointee? hd rfl]
      exact congrArg shape (join_of_pointee? rfl hd).symm
  | case7 c b hr ha ih | case8 c b hr ha ih =>
      have hc := pointee?_eq_none hr ha
      exact congrArg shape (join_of_pointee? rfl hc).symm
  | case9 e d hr ha =>
      cases d with
      | base e' => simpa [join, shape] using show e.shape = e'.shape from h
      | ref a => exact (hr a rfl).elim
      | assigned a => exact (ha a rfl).elim
      | deref _ | index _ _ => simp [join]
  | case10 c e hr ha hbase =>
      cases c with
      | base e' => exact (hbase e' rfl).elim
      | ref a => exact (hr a rfl).elim
      | assigned a => exact (ha a rfl).elim
      | deref _ | index _ _ => simp [join]
  | case12 a i b k hik ih =>
      simp [join, k.sameLiteral_comm i, hik, shape, ih h, Expr.shape_eq_of_sameLiteral hik]
  | case13 a i b k hik ih => simp [join, k.sameLiteral_comm i, hik, ih h]
  | case14 a b _ ih | case15 a _ b ih => simp [join, ih h]

/-- Captures of one variable have a join, which is a capture of it, is found within a number of steps that is linear
in their depths, and has the same shape in either order. -/
theorem maximal_symmetric {i k : NodeId} {v w : Variable} (hc : c.root = .var i v) (hd : d.root = .var k w)
    (hvw : v.key = w.key) :
    ∃ m m', c.maximal d = .ok m ∧ d.maximal c = .ok m' ∧ m.sameShape m' = true ∧
      (∃ l u, m.root = .var l u ∧ u.key = v.key) ∧ (∃ l u, m'.root = .var l u ∧ u.key = v.key) ∧
      (∀ j, JoinsWithin (2 * (c.depth + d.depth) + 1) c d j ↔ j = m) ∧
      (∀ j, JoinsWithin (2 * (c.depth + d.depth) + 1) d c j ↔ j = m') := by
  have hkc : c.key = some v.key := by rw [key, hc]; rfl
  have hkd : d.key = some v.key := by rw [key, hd, hvw]; rfl
  have hroots : c.root.shape = d.root.shape := by
    rw [hc, hd, ← Expr.sameShape_iff]
    simpa [Expr.sameShape] using hvw
  refine ⟨c.join d, d.join c, if_pos (hkc.trans hkd.symm), if_pos (hkd.trans hkc.symm), ?_, ?_, ?_, ?_, ?_⟩
  · exact (sameShape_iff _ _).2 (shape_join_comm hroots)
  · exact exists_root_of_key (key_join hkc hkd)
  · exact exists_root_of_key (key_join hkd hkc)
  · exact joinsWithin_iff c d
  · rw [Nat.add_comm c.depth]
    exact joinsWithin_iff d c

/-- The variable `x`, where it is captured as it is. -/
def bareX (i : ℕ) : Capture := .base (.var ⟨i⟩ (.free "x" none))

/-- An assignment to `x[n]` is joined with `*&x`, in which the address has to come first. -/
theorem maximal_symmetric_assigned : ∃ m m',
    maximal (.assigned (.index (bareX 1) (.var ⟨2⟩ (.free "n" none)))) (.deref (.ref (bareX 4))) = .ok m ∧
      maximal (.deref (.ref (bareX 4))) (.assigned (.index (bareX 1) (.var ⟨2⟩ (.free "n" none)))) = .ok m' ∧
      m.sameShape m' = true := by
  obtain ⟨m, m', hm, hm', hsame, -⟩ :=
    maximal_symmetric (c := .assigned (.index (bareX 1) (.var ⟨2⟩ (.free "n" none)))) (d := .deref (.ref (bareX 4)))
      rfl rfl rfl
  exact ⟨m, m', hm, hm', hsame⟩

end Capture

end Diversity
