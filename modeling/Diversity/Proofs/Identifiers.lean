import Diversity.Proofs.Activations
import Diversity.Proofs.Naming
/-! Names that programs declare. Variables that blocks can name and externs have names of their own, and so have
functions; a function may still clash with a variable, and so may two variables that nothing can name. -/
namespace Diversity

/-- The externs that the program declares itself. -/
def Program.declaredExterns (P : Program) : List Declaration := P.externs.filter (!·.var.isBuiltin)

def Program.globalNames (P : Program) : List String := (P.globals.map (·.declaration)).map (·.name)

def Program.outerNames (P : Program) : List String :=
  P.globalNames ++ (P.functions.map (·.name) ++ P.declaredExterns.map (·.name))

def Function.ownNames (F : Function) : List String := (F.params ++ (F.statics ++ F.locals)).map (·.name)

/-- No two declarations of one scope have the same name, and no function hides another one that it calls. -/
structure Program.ClashFree (P : Program) : Prop where
  outer : P.outerNames.Nodup
  own : ∀ F ∈ P.functions, F.ownNames.Nodup
  calls : ∀ F ∈ P.functions, ∀ callee ∈ Stmt.entriesOfAll F.body, callee ∉ F.ownNames

/-- Functions are named apart from globals, externs and what hides them where they are called, and variables that
nothing can name are named apart from each other and from externs. -/
structure Program.Apart (P : Program) : Prop where
  functions : ∀ F ∈ P.functions, F.name ∉ P.globalNames ∧ F.name ∉ P.declaredExterns.map (·.name)
  calls : ∀ F ∈ P.functions, ∀ callee ∈ Stmt.entriesOfAll F.body, callee ∉ F.ownNames
  hiddenGlobals : (((P.globals.map (·.declaration)).filter (·.var.isHidden)).map (·.name)).Nodup
  hiddenExterns : ∀ d ∈ (P.globals.map (·.declaration)).filter (·.var.isHidden),
    d.name ∉ P.declaredExterns.map (·.name)
  hiddenLocals : ∀ F ∈ P.functions, (((F.statics ++ F.locals).filter (·.var.isHidden)).map (·.name)).Nodup

namespace Declaration

variable {ds : List Declaration} {d d' : Declaration}

theorem isHidden_congr (h : d.name = d'.name) : d.var.isHidden = d'.var.isHidden :=
  congrArg (fun name : String => name.toList.head? == some '_') h

theorem nodup_names_of_parts (hvisible : ((ds.filter (!·.var.isHidden)).map (·.name)).Nodup)
    (hhidden : ((ds.filter (·.var.isHidden)).map (·.name)).Nodup) : (ds.map (·.name)).Nodup := by
  have hperm : (ds.map (·.name)).Perm
      ((ds.filter (·.var.isHidden)).map (·.name) ++ (ds.filter (!·.var.isHidden)).map (·.name)) := by
    rw [← List.map_append]
    exact ((List.filter_append_perm _ ds).symm.map _)
  refine hperm.nodup_iff.2 (List.nodup_append.2 ⟨hhidden, hvisible, ?_⟩)
  rintro n hn m hm rfl
  obtain ⟨d, hd, rfl⟩ := List.mem_map.1 hn
  obtain ⟨d', hd', hname⟩ := List.mem_map.1 hm
  have hd := (List.mem_filter.1 hd).2
  have hd' := (List.mem_filter.1 hd').2
  rw [isHidden_congr hname, hd] at hd'
  cases hd'

end Declaration

namespace Program

variable {P : Program}

theorem nodup_locals_of_declarations {Q : Declaration → Bool} {F : Function} (hF : F ∈ P.functions)
    (h : ((P.declarations.filter Q).map (·.name)).Nodup) : (((F.statics ++ F.locals).filter Q).map (·.name)).Nodup := by
  have hown : (F.statics ++ F.locals).Sublist (P.functions.flatMap fun F => F.statics ++ F.locals) :=
    List.sublist_flatten_of_mem (List.mem_map_of_mem (f := fun F : Function => F.statics ++ F.locals) hF)
  exact h.sublist (((hown.trans (List.sublist_append_right _ _)).filter _).map _)

theorem nodup_globals_of_declarations {Q : Declaration → Bool}
    (h : ((P.declarations.filter Q).map (·.name)).Nodup) :
    (((P.globals.map (·.declaration)).filter Q).map (·.name)).Nodup :=
  h.sublist (((List.sublist_append_left _ _).filter _).map _)

theorem ClashFree.apart (h : P.ClashFree) : P.Apart := by
  have houter := h.outer
  rw [outerNames, List.nodup_append', List.nodup_append', List.disjoint_append_right] at houter
  obtain ⟨hglobals, ⟨-, -, hexterns⟩, hfunctions, hboth⟩ := houter
  refine ⟨fun F hF => ⟨fun hg => ?_, ?_⟩, h.calls, ?_, fun d hd => ?_, fun F hF => ?_⟩
  · exact hfunctions hg (List.mem_map_of_mem hF)
  · exact hexterns (List.mem_map_of_mem hF)
  · exact hglobals.sublist (List.filter_sublist.map _)
  · exact hboth (List.mem_map_of_mem (List.mem_filter.1 hd).1)
  · have hown := h.own F hF
    rw [Function.ownNames, List.map_append] at hown
    exact hown.of_append_right.sublist (List.filter_sublist.map _)

end Program

namespace LowersTo

variable {d : Description} {p : Placement} {g : Graph} {bs : BlockSet} {P : Program}

/-- Externs and declared variables that blocks can name all have different names. -/
theorem nodup_visible (h : LowersTo d p g bs P) :
    (g.externs.map (·.name) ++ (P.declarations.filter (!·.var.isHidden)).map (·.name)).Nodup := by
  have hscoped := h.placed.wellScoped h.lowered
  have hvisible : ((g.chunks.flatMap (·.vars)).filter (!·.var.isHidden)).map (·.name) =
      (g.chunks.flatMap Description.visible).map (·.name) := by
    simp only [List.filter_flatMap, List.map_flatMap, Description.visible, List.filter_map, List.map_map]
    rfl
  have hperm := ((hscoped.declared.filter (!·.var.isHidden)).map (·.name)).append_left (g.externs.map (·.name))
  rw [hperm.nodup_iff, hvisible]
  have hnames := h.named.names
  rwa [Graph.scope, List.map_append, List.map_map] at hnames

theorem nodup_functions (h : LowersTo d p g bs P) : (P.functions.map (·.name)).Nodup := by
  obtain ⟨t, ps, -, -, hP⟩ := Graph.lower_eq_ok h.lowered h.placed
  have hnames : t.blocks.map id = P.functions.map (·.name) :=
    map_eq_map_of_forall₂ hP fun f F ⟨b, hb, hF⟩ => (hF.name.trans (BlockSet.name_of_find? hb)).symm
  rw [← hnames, List.map_id]
  exact nodup_distinct _

theorem declaredExterns_subset (h : LowersTo d p g bs P) : P.declaredExterns.map (·.name) ⊆ g.externs.map (·.name) := by
  intro n hn
  obtain ⟨e, he, rfl⟩ := List.mem_map.1 hn
  obtain ⟨he, hb⟩ := List.mem_filter.1 he
  exact h.name_mem_externs he (by simpa using hb)

theorem nodup_outerNames (h : LowersTo d p g bs P) (hP : P.Apart) : P.outerNames.Nodup := by
  obtain ⟨-, hvisible, hexterns⟩ := List.nodup_append'.1 h.nodup_visible
  rw [Program.outerNames, List.nodup_append', List.nodup_append', List.disjoint_append_right]
  refine ⟨?_, ⟨h.nodup_functions, h.nodup_externs.sublist (List.filter_sublist.map _), ?_⟩, ?_, ?_⟩
  · exact Declaration.nodup_names_of_parts (Program.nodup_globals_of_declarations hvisible) hP.hiddenGlobals
  · intro n hn
    obtain ⟨F, hF, rfl⟩ := List.mem_map.1 hn
    exact (hP.functions F hF).2
  · intro n hn hn'
    obtain ⟨F, hF, rfl⟩ := List.mem_map.1 hn'
    exact (hP.functions F hF).1 hn
  · intro n hn hn'
    obtain ⟨x, hx, rfl⟩ := List.mem_map.1 hn
    -- the scope keeps apart from externs only what it holds, so hidden globals need the hypothesis
    cases hhidden : x.var.isHidden with
    | true => exact hP.hiddenExterns x (List.mem_filter.2 ⟨hx, hhidden⟩) hn'
    | false =>
        refine hexterns (h.declaredExterns_subset hn') (List.mem_map_of_mem (List.mem_filter.2 ⟨?_, ?_⟩))
        · exact List.mem_append_left _ hx
        · simp [hhidden]

theorem nodup_ownNames (h : LowersTo d p g bs P) (hP : P.Apart) {F : Function} (hF : F ∈ P.functions) :
    F.ownNames.Nodup := by
  obtain ⟨-, hvisible, -⟩ := List.nodup_append'.1 h.nodup_visible
  obtain ⟨t, ps, b, hprep, -, hb, -, hFb, -⟩ := h.exists_block hF
  rw [Function.ownNames, List.map_append, List.nodup_append']
  refine ⟨hprep.nodup_params hb hFb, ?_, fun n hn hn' => ?_⟩
  · exact Declaration.nodup_names_of_parts (Program.nodup_locals_of_declarations hF hvisible) (hP.hiddenLocals F hF)
  · obtain ⟨x, hx, rfl⟩ := List.mem_map.1 hn
    obtain ⟨y, hy, hname⟩ := List.mem_map.1 hn'
    exact (h.placed.wellScoped h.lowered).apart F hF y hy x hx hname

theorem clashFree_of_apart (h : LowersTo d p g bs P) (hP : P.Apart) : P.ClashFree :=
  ⟨h.nodup_outerNames hP, fun _ hF => h.nodup_ownNames hP hF, hP.calls⟩

/-! ### Descriptions that give no name twice -/

theorem perm_names (h : LowersTo d p g bs P) :
    (P.declarations.map (·.name)).Perm (g.chunks.flatMap (·.vars.map (·.name))) := by
  rw [← List.map_flatMap]
  exact (h.placed.wellScoped h.lowered).declared.map _

theorem ownNames_subset (h : LowersTo d p g bs P) {F : Function} (hF : F ∈ P.functions) :
    F.ownNames ⊆ g.chunks.flatMap (·.vars.map (·.name)) := by
  obtain ⟨t, ps, b, hprep, -, hb, -, hFb, -⟩ := h.exists_block hF
  intro n hn
  obtain ⟨x, hx, rfl⟩ := List.mem_map.1 hn
  rcases List.mem_append.1 hx with hx | hx
  · obtain ⟨-, v, hv, hname, -⟩ := hprep.find?_param h.named hb hFb hx
    exact hname ▸ Graph.name_mem_of_visible hv
  · exact h.perm_names.mem_iff.1 (List.mem_map_of_mem (List.mem_append_right _ (List.mem_flatMap.2 ⟨F, hF, hx⟩)))

theorem entries_subset (h : LowersTo d p g bs P) {F : Function} (hF : F ∈ P.functions) :
    Stmt.entriesOfAll F.body ⊆ P.functions.map (·.name) := by
  obtain ⟨t, ps, b, -, -, hb, -, hFb, hcalls⟩ := h.exists_block hF
  have hids : .unnumbered ∉ Stmt.ids b.statements := fun hi => h.placed.numbered (BlockSet.mem_ids.2 ⟨b, hb, hi⟩)
  rw [(hFb.entries hids).1]
  intro n hn
  obtain ⟨c, hc, rfl⟩ := List.mem_map.1 hn
  exact hcalls c hc

theorem apart_of_nodup (h : LowersTo d p g bs P) (hn : g.names.Nodup) : P.Apart := by
  rw [Graph.names, List.nodup_append', List.nodup_append', List.disjoint_append_left] at hn
  obtain ⟨⟨-, hvars, hblocks⟩, -, hblocks', hexterns⟩ := hn
  have hglobals : P.globalNames ⊆ g.chunks.flatMap (·.vars.map (·.name)) := by
    intro n hn
    obtain ⟨x, hx, rfl⟩ := List.mem_map.1 hn
    exact h.perm_names.mem_iff.1 (List.mem_map_of_mem (List.mem_append_left _ hx))
  have hhidden : ((P.declarations.filter (·.var.isHidden)).map (·.name)).Nodup :=
    (h.perm_names.nodup_iff.2 hvars).sublist (List.filter_sublist.map _)
  refine ⟨fun F hF => ?_, fun F hF callee hcallee hown => ?_, Program.nodup_globals_of_declarations hhidden,
    fun x hx hx' => ?_, fun F hF => Program.nodup_locals_of_declarations hF hhidden⟩
  · have hname := h.functions_subset (List.mem_map_of_mem hF)
    exact ⟨fun hg => hblocks hname (hglobals hg), fun he => hblocks' hname (h.declaredExterns_subset he)⟩
  · exact hblocks (h.functions_subset (h.entries_subset hF hcallee)) (h.ownNames_subset hF hown)
  · exact hexterns (hglobals (List.mem_map_of_mem (List.mem_filter.1 hx).1)) (h.declaredExterns_subset hx')

end LowersTo

/-- Whatever the random source, names clash in a program only if a function is named like a global, an extern or
something that hides it where it is called, or if variables that nothing can name have a name in common or that of
an extern. They do not clash if the description gives no name twice. -/
theorem interpret_clashFree_iff {σ : Type} [RandomSource σ] {d : Description} {s s' supply : Supply} {g : Graph}
    {source source' : σ} {P : Program} (hs : Supply.first.next ≤ s.next) (hd : d.toGraph s = .ok (g, s'))
    (hsupply : s'.next ≤ supply.next) (h : g.interpret supply source = .ok (P, source')) :
    (P.ClashFree ↔ P.Apart) ∧ (g.names.Nodup → P.ClashFree) := by
  obtain ⟨p, bs, hlowers⟩ := exists_lowersTo_of_interpret hs hd hsupply h
  exact ⟨⟨Program.ClashFree.apart, hlowers.clashFree_of_apart⟩, fun hn =>
    hlowers.clashFree_of_apart (hlowers.apart_of_nodup hn)⟩

theorem interpret_clashFree_sharing : ∃ g s P source, Description.sharing.toGraph .first = .ok (g, s) ∧
    g.interpret s (ChaCha.ofSeed 0) = .ok (P, source) ∧ g.names.Nodup ∧ P.ClashFree := by
  have h : (do
      let r ← (Description.sharing.toGraph .first).toOption
      let r' ← (r.1.interpret r.2 (ChaCha.ofSeed 0)).toOption
      pure (decide r.1.names.Nodup) : Option Bool) = some true := by
    decide +kernel
  simp only [Option.bind_eq_bind, Option.bind_eq_some_iff, toOption_eq_some, Option.pure_def, Option.some.injEq,
    decide_eq_true_eq] at h
  obtain ⟨⟨g, s⟩, hg, ⟨P, source⟩, hP, hn⟩ := h
  exact ⟨g, s, P, source, hg, hP, hn, (interpret_clashFree_iff (Nat.le_refl _) hg (Nat.le_refl _) hP).2 hn⟩

/-- A block has the name of a global variable, another one that of a local variable of its caller, and two chunks
have a variable in common that nothing can name. -/
def Description.clashing : Description where
  entry := "main"
  externs := []
  chunks := [⟨none, false, true, false, [⟨"x", "int", none⟩]⟩,
    ⟨none, true, false, false, [⟨"show", "int", none⟩, ⟨"_pad", "int", none⟩]⟩,
    ⟨none, true, false, false, [⟨"_pad", "int", none⟩]⟩]
  blocks := [⟨"main", true, false, false, [.call "x", .call "show"]⟩,
    ⟨"x", true, false, false, [.assign (.var "x") (.value "1")]⟩,
    ⟨"show", true, false, false, []⟩]

/-- Nothing in the description is refused, and no part of freedom from clashes is left to its program. -/
theorem names_clash : ∃ g s P source, Description.clashing.toGraph .first = .ok (g, s) ∧
    g.interpret s (ChaCha.ofSeed 0) = .ok (P, source) ∧ ¬ P.outerNames.Nodup ∧
    (∃ F ∈ P.functions, ¬ F.ownNames.Nodup) ∧
    ∃ F ∈ P.functions, ∃ callee ∈ Stmt.entriesOfAll F.body, callee ∈ F.ownNames := by
  have h : (do
      let r ← (Description.clashing.toGraph .first).toOption
      let r' ← (r.1.interpret r.2 (ChaCha.ofSeed 0)).toOption
      pure (decide (¬ r'.1.outerNames.Nodup ∧ (∃ F ∈ r'.1.functions, ¬ F.ownNames.Nodup) ∧
        ∃ F ∈ r'.1.functions, ∃ callee ∈ Stmt.entriesOfAll F.body, callee ∈ F.ownNames)) : Option Bool) =
      some true := by
    decide +kernel
  simp only [Option.bind_eq_bind, Option.bind_eq_some_iff, toOption_eq_some, Option.pure_def, Option.some.injEq,
    decide_eq_true_eq] at h
  obtain ⟨⟨g, s⟩, hg, ⟨P, source⟩, hP, h⟩ := h
  exact ⟨g, s, P, source, hg, hP, h⟩

end Diversity
