import Hlang.Codegen.Binding

/-!
# Hlang.Codegen.Globals — which storage a global variable has

A global variable may be declared any number of times; the first declaration gives the name its
storage and its type, and the storage is a definition as soon as one of the declarations is real
(`Placed`). The first pass keeps this up declaration by declaration, and every function and the
startup function are generated with its table (`run_places`).
-/

namespace Hlang.Codegen

open Ir Gen Cg
open Hlang.Parser (TopItem GlobalVar)

/-- The first declaration of a variable. -/
def firstOf (gs : List GlobalVar) (n : String) : Option GlobalVar := gs.find? (·.decl.name = n)

/-- A variable has storage: one of its declarations is not a reference. -/
def HasStorage (gs : List GlobalVar) (n : String) : Prop :=
  ∃ g ∈ gs, g.decl.name = n ∧ g.isDecl = false

/-- The storage of the variables `gs`, in the module `M` and under the names of `table`. -/
structure Placed (Γ : Env) (gs : List GlobalVar) (M : Mod) (table : List (String × VarSym)) :
    Prop where
  /-- the first declaration gives the type; the module defines the storage if one is real -/
  first : ∀ n g, firstOf gs n = some g → ∃ v ∈ M.vars,
    table.lookup n = some ⟨.glob v.name, g.decl.type⟩ ∧ v.type = Γ.memTy g.decl.type ∧
      (v.init.isSome ↔ HasStorage gs n)
  absent : ∀ n, firstOf gs n = none → table.lookup n = none
  /-- no two names share their storage -/
  apart : ∀ n m v w, table.lookup n = some v → table.lookup m = some w → v.addr = w.addr → n = m
  nodup : (M.vars.map (·.name)).Nodup

section Steps

variable {R : Renaming} {Γ : Env} {gs : List GlobalVar} {M M' : Mod}
  {table : List (String × VarSym)} {S S' : Declaring}

/-- The variables of `M'` are those of `M`, but for the initializer of `x`. -/
def Touches (x : String) (M M' : Mod) : Prop :=
  ∃ f : GlobalVariable → GlobalVariable, M'.vars = M.vars.map f ∧
    ∀ v, (f v).name = v.name ∧ (f v).type = v.type ∧ (v.name ≠ x → f v = v) ∧
      (v.init.isSome = true → (f v).init.isSome = true)

theorem Touches.refl (x : String) (h : M'.vars = M.vars) : Touches x M M' := by
  refine ⟨id, ?_, fun v => ⟨rfl, rfl, fun _ => rfl, fun h => h⟩⟩
  rw [h, List.map_id]

theorem Touches.names {x : String} (h : Touches x M M') :
    M'.vars.map (·.name) = M.vars.map (·.name) := by
  rcases h with ⟨f, hf, hkeep⟩
  rw [hf, List.map_map]
  exact List.map_congr_left fun v _ => (hkeep v).1

theorem touches_setInitializer (M : Mod) (x : String) (c : Const) :
    Touches x M (M.setInitializer x c) := by
  refine ⟨_, rfl, fun v => ?_⟩
  split_ifs with hv
  · exact ⟨rfl, rfl, fun hne => absurd hv hne, fun _ => rfl⟩
  · exact ⟨rfl, rfl, fun _ => rfl, fun h => h⟩

/-- The symbol is a name of the module, like those of all its variables. -/
def Mod.NamesVars (M : Mod) : Prop := ∀ v ∈ M.vars, v.name ∈ M.names

theorem firstOf_append (gs : List GlobalVar) (g : GlobalVar) (n : String) :
    firstOf (gs ++ [g]) n =
      (firstOf gs n).or (if g.decl.name = n then some g else none) := by
  unfold firstOf
  rw [List.find?_append, List.find?_singleton]
  simp only [decide_eq_true_eq]

theorem hasStorage_append (gs : List GlobalVar) (g : GlobalVar) (n : String) :
    HasStorage (gs ++ [g]) n ↔ HasStorage gs n ∨ g.decl.name = n ∧ g.isDecl = false := by
  constructor
  · rintro ⟨g', hg', hn⟩
    rcases List.mem_append.mp hg' with hg' | hg'
    · exact .inl ⟨g', hg', hn⟩
    · rcases List.mem_singleton.mp hg' with rfl
      exact .inr hn
  · rintro (⟨g', hg', hn⟩ | hn)
    · exact ⟨g', List.mem_append_left _ hg', hn⟩
    · exact ⟨g, List.mem_append_right _ (List.mem_singleton.mpr rfl), hn⟩

/-- A variable that is not declared is not real. -/
theorem not_hasStorage {n : String} (h : firstOf gs n = none) : ¬ HasStorage gs n := by
  rintro ⟨g, hg, hn, -⟩
  have := List.find?_eq_none.mp h g hg
  exact this (decide_eq_true hn)

/-- An update that changes nothing keeps every variable. -/
theorem map_keeps {f : GlobalVariable → GlobalVariable} {vs : List GlobalVariable}
    (h : vs.map f = vs) {v : GlobalVariable} (hv : v ∈ vs) : f v = v := by
  have hall := List.map_inj_left.mp (h.trans (List.map_id vs).symm)
  exact hall v hv

theorem lookup_placed_ne {x n : String} (v : VarSym) (h : x ≠ n) :
    List.lookup n ((x, v) :: table) = table.lookup n := by
  rw [List.lookup_cons, beq_eq_false_iff_ne.mpr (Ne.symm h)]

/-- What is in the table is declared. -/
theorem Placed.declared (h : Placed Γ gs M table) {n : String} {v : VarSym}
    (hn : table.lookup n = some v) : ∃ g, firstOf gs n = some g := by
  cases hf : firstOf gs n with
  | some g => exact ⟨g, rfl⟩
  | none =>
      rw [h.absent n hf] at hn
      cases hn

theorem Placed.undeclared (h : Placed Γ gs M table) {n : String} (hn : table.lookup n = none) :
    firstOf gs n = none := by
  cases hf : firstOf gs n with
  | none => rfl
  | some g =>
      rcases h.first n g hf with ⟨w, -, hlookup, -⟩
      rw [hn] at hlookup
      cases hlookup

/-- What is in the table is a variable of the module. -/
theorem Placed.addr (h : Placed Γ gs M table) {n : String} {v : VarSym}
    (hn : table.lookup n = some v) : ∃ w ∈ M.vars, v.addr = .glob w.name := by
  rcases h.declared hn with ⟨g, hg⟩
  rcases h.first n g hg with ⟨w, hw, hlookup, -⟩
  rw [hn] at hlookup
  exact ⟨w, hw, congrArg VarSym.addr (Option.some.inj hlookup)⟩

/-- One more declaration of a variable that is placed. -/
theorem Placed.again (h : Placed Γ gs M table) {g g₀ : GlobalVar} {v : VarSym} {x : String}
    (hg : table.lookup g.decl.name = some v) (hfirst : firstOf gs g.decl.name = some g₀)
    (hx : v.addr = .glob x) (ht : Touches x M M')
    (hreal : g.isDecl = false → ∀ w ∈ M'.vars, w.name = x → w.init.isSome = true)
    (hsame : g.isDecl = true → M'.vars = M.vars) : Placed Γ (gs ++ [g]) M' table where
  first := by
    intro n g' hn
    have hold : firstOf gs n = some g' := by
      rw [firstOf_append] at hn
      cases hf : firstOf gs n with
      | some g'' =>
          rw [hf] at hn
          exact hn
      | none =>
          rw [hf, Option.none_or] at hn
          split_ifs at hn with heq
          rw [heq] at hfirst
          rw [hfirst] at hf
          cases hf
    rcases h.first n g' hold with ⟨w, hw, hlookup, htype, hinit⟩
    rw [hasStorage_append]
    rcases ht with ⟨f, hf, hkeep⟩
    have hmem : f w ∈ M'.vars := by
      rw [hf]
      exact List.mem_map.mpr ⟨w, hw, rfl⟩
    refine ⟨f w, hmem, ?_, (hkeep w).2.1.trans htype, ?_⟩
    · rw [(hkeep w).1]
      exact hlookup
    by_cases hn : g.decl.name = n
    · have hwx : w.name = x := by
        rw [← hn, hg] at hlookup
        have haddr : v.addr = .glob w.name := congrArg VarSym.addr (Option.some.inj hlookup)
        exact Value.glob.inj (haddr.symm.trans hx)
      cases hd : g.isDecl with
      | false =>
          exact iff_of_true (hreal hd (f w) hmem ((hkeep w).1.trans hwx)) (.inr ⟨hn, rfl⟩)
      | true =>
          rw [map_keeps (hf.symm.trans (hsame hd)) hw, hinit]
          exact ⟨.inl, fun h' => h'.elim (fun h' => h') fun h' => absurd h'.2 Bool.noConfusion⟩
    · have hwx : w.name ≠ x := by
        intro hwx
        refine hn (h.apart _ _ v _ hg hlookup ?_)
        rw [hx]
        exact congrArg Value.glob hwx.symm
      rw [(hkeep w).2.2.1 hwx, hinit]
      exact ⟨.inl, fun h' => h'.elim (fun h' => h') fun h' => absurd h'.1 hn⟩
  absent := by
    intro n hn
    rw [firstOf_append, Option.or_eq_none_iff] at hn
    exact h.absent n hn.1
  apart := h.apart
  nodup := ht.names ▸ h.nodup

/-- A storage whose symbol is new is apart from all others. -/
theorem Placed.apart_cons (h : Placed Γ gs M table) (hM : M.NamesVars) {x s : String} {t : Ty}
    (hfresh : s ∉ M.names) (n m : String) (v w : VarSym)
    (hn : List.lookup n ((x, ⟨.glob s, t⟩) :: table) = some v)
    (hm : List.lookup m ((x, ⟨.glob s, t⟩) :: table) = some w) (haddr : v.addr = w.addr) :
    n = m := by
  have hother : ∀ k u, table.lookup k = some u → u.addr ≠ .glob s := by
    intro k u hk hu
    rcases h.addr hk with ⟨g, hg, hgu⟩
    exact hfresh (Value.glob.inj (hgu.symm.trans hu) ▸ hM g hg)
  by_cases hxn : x = n
  · by_cases hxm : x = m
    · exact hxn.symm.trans hxm
    · rw [← hxn, List.lookup_cons_self] at hn
      rw [lookup_placed_ne _ hxm] at hm
      rcases Option.some.inj hn with rfl
      exact absurd haddr.symm (hother m w hm)
  · rw [lookup_placed_ne _ hxn] at hn
    by_cases hxm : x = m
    · rw [← hxm, List.lookup_cons_self] at hm
      rcases Option.some.inj hm with rfl
      exact absurd haddr (hother n v hn)
    · rw [lookup_placed_ne _ hxm] at hm
      exact h.apart n m v w hn hm haddr

/-- The first declaration of a variable, whose storage is new. -/
theorem Placed.new (h : Placed Γ gs M table) (hM : M.NamesVars) {g : GlobalVar}
    {v : GlobalVariable} (hg : table.lookup g.decl.name = none) (hfresh : v.name ∉ M.names)
    (htype : v.type = Γ.memTy g.decl.type) (hinit : v.init.isSome = !g.isDecl) {M₁ : Mod}
    (hM₁ : M₁.vars = M.vars ++ [v]) (ht : Touches v.name M₁ M')
    (hsame : g.isDecl = true → M'.vars = M₁.vars) :
    Placed Γ (gs ++ [g]) M' ((g.decl.name, ⟨.glob v.name, g.decl.type⟩) :: table) := by
  have hfirst : firstOf gs g.decl.name = none := h.undeclared hg
  have hnames : M'.vars.map (·.name) = M.vars.map (·.name) ++ [v.name] := by
    rw [ht.names, hM₁, List.map_append, List.map_singleton]
  rcases ht with ⟨f, hf, hkeep⟩
  have hvars : M'.vars = M.vars.map f ++ [f v] := by
    rw [hf, hM₁, List.map_append, List.map_singleton]
  constructor
  case first =>
    intro n g' hn
    rw [hasStorage_append]
    by_cases heq : g.decl.name = n
    · -- the new variable
      rw [firstOf_append, ← heq, hfirst, Option.none_or, if_pos rfl] at hn
      rcases Option.some.inj hn with rfl
      refine ⟨f v, ?_, ?_, (hkeep v).2.1.trans htype, ?_⟩
      · rw [hvars]
        exact List.mem_append_right _ (List.mem_singleton.mpr rfl)
      · rw [(hkeep v).1, ← heq]
        exact List.lookup_cons_self
      · cases hd : g.isDecl with
        | false =>
            rw [hd] at hinit
            exact iff_of_true ((hkeep v).2.2.2 hinit) (.inr ⟨heq, rfl⟩)
        | true =>
            have hmem : v ∈ M₁.vars := hM₁ ▸ List.mem_append_right _ (List.mem_singleton.mpr rfl)
            rw [map_keeps (hf.symm.trans (hsame hd)) hmem, hinit, hd]
            refine iff_of_false Bool.false_ne_true ?_
            rintro (h' | h')
            · exact not_hasStorage (heq ▸ hfirst) h'
            · cases h'.2
    · -- a variable that was placed before
      have hgs : firstOf gs n = some g' := by
        rw [firstOf_append, if_neg heq, Option.or_none] at hn
        exact hn
      rcases h.first n g' hgs with ⟨w, hw, hlookup, hwt, hwi⟩
      have hwv : w.name ≠ v.name := fun hwv => hfresh (hwv ▸ hM w hw)
      refine ⟨w, ?_, (lookup_placed_ne _ heq).trans hlookup, hwt, ?_⟩
      · rw [hvars]
        refine List.mem_append_left _ (List.mem_map.mpr ⟨w, hw, ?_⟩)
        exact (hkeep w).2.2.1 hwv
      · rw [hwi]
        exact ⟨.inl, fun h' => h'.elim (fun h' => h') fun h' => absurd h'.1 heq⟩
  case absent =>
    intro n hn
    rw [firstOf_append, Option.or_eq_none_iff] at hn
    have heq : g.decl.name ≠ n := by
      intro heq
      rw [if_pos heq] at hn
      cases hn.2
    exact (lookup_placed_ne _ heq).trans (h.absent n hn.1)
  case apart => exact h.apart_cons hM hfresh
  case nodup =>
    rw [hnames, List.nodup_append]
    refine ⟨h.nodup, List.nodup_singleton _, ?_⟩
    intro x hx y hy hxy
    rcases List.mem_map.mp hx with ⟨w, hw, rfl⟩
    rcases List.mem_singleton.mp hy with rfl
    exact hfresh (hxy ▸ hM w hw)

/-! ## The first pass -/

theorem Placed.of_vars (h : Placed Γ gs M table) (hv : M'.vars = M.vars) : Placed Γ gs M' table where
  first := by
    rw [hv]
    exact h.first
  absent := h.absent
  apart := h.apart
  nodup := hv ▸ h.nodup

theorem Mod.NamesVars.touches {x : String} (h : M.NamesVars) (ht : Touches x M M')
    (hnames : ∀ n ∈ M.names, n ∈ M'.names) : M'.NamesVars := by
  intro v hv
  have hmem : v.name ∈ M.vars.map (·.name) := ht.names ▸ List.mem_map.mpr ⟨v, hv, rfl⟩
  rcases List.mem_map.mp hmem with ⟨w, hw, heq⟩
  exact hnames _ (heq ▸ h w hw)

theorem noteString_kept (c : Const) :
    (noteString R c S).globals = S.globals ∧ (noteString R c S).mod.vars = S.mod.vars ∧
      ∀ n ∈ S.mod.names, n ∈ (noteString R c S).mod.names := by
  unfold noteString
  split
  · unfold stringConst
    split_ifs
    · exact ⟨rfl, rfl, fun _ hn => hn⟩
    · exact ⟨rfl, rfl, fun _ hn => List.mem_cons_of_mem _ hn⟩
  · exact ⟨rfl, rfl, fun _ hn => hn⟩

/-- Folding an initialiser touches the new variable only, and nothing where it is a reference. -/
theorem foldInit_touches {g : GlobalVar} {v : GlobalVariable} {init : Option Expr}
    (h : foldInit R Γ g v S = .ok (init, S')) :
    S'.globals = S.globals ∧ Touches v.name S.mod S'.mod ∧
      (g.isDecl = true → S'.mod.vars = S.mod.vars) ∧ ∀ n ∈ S.mod.names, n ∈ S'.mod.names := by
  unfold foldInit at h
  split at h
  case h_1 hdecl _ =>
    split at h
    case h_1 c _ =>
      rcases Prod.mk.inj (Except.ok.inj h) with ⟨-, rfl⟩
      rcases noteString_kept (R := R) (S := S) c with ⟨hglobals, hvars, hnames⟩
      refine ⟨hglobals, ?_, fun hd => ?_, hnames⟩
      · rcases touches_setInitializer (noteString R c S).mod v.name c with ⟨f, hf, hkeep⟩
        exact ⟨f, hvars ▸ hf, hkeep⟩
      · rw [hdecl] at hd
        cases hd
    case h_2 =>
      rcases Prod.mk.inj (Except.ok.inj h) with ⟨-, rfl⟩
      exact ⟨rfl, .refl _ rfl, fun _ => rfl, fun _ hn => hn⟩
    case h_3 => cases h
  case h_2 =>
    rcases Prod.mk.inj (Except.ok.inj h) with ⟨-, rfl⟩
    exact ⟨rfl, .refl _ rfl, fun _ => rfl, fun _ hn => hn⟩

theorem supplies_eq (g : GlobalVar) : g.supplies = !g.isDecl := by
  unfold Parser.GlobalVar.supplies Parser.GlobalVar.isDecl
  cases g.linkage <;> rfl

/-- The storage of a reference becomes a definition. -/
theorem supplyStorage_touches {v : VarSym} {w : GlobalVariable} (hw : w ∈ S.mod.vars)
    (haddr : v.addr = .glob w.name) (hnodup : (S.mod.vars.map (·.name)).Nodup) :
    (supplyStorage v S).globals = S.globals ∧ Touches w.name S.mod (supplyStorage v S).mod ∧
      (∀ n ∈ S.mod.names, n ∈ (supplyStorage v S).mod.names) ∧
      ∀ u ∈ (supplyStorage v S).mod.vars, u.name = w.name → u.init.isSome = true := by
  unfold supplyStorage
  split
  · next gv hfind =>
      have hgv : v.addr = .glob gv.name := by simpa using List.find?_some hfind
      have hname : gv.name = w.name := Value.glob.inj (hgv.symm.trans haddr)
      have hmem : gv ∈ S.mod.vars := List.mem_of_find?_eq_some hfind
      split_ifs with hnone
      · refine ⟨rfl, hname ▸ touches_setInitializer S.mod gv.name _, fun _ hn => hn, ?_⟩
        intro u hu hun
        rcases List.mem_map.mp hu with ⟨u', -, rfl⟩
        have hu' : u'.name = gv.name := by
          split_ifs at hun with heq
          · exact heq
          · exact hun.trans hname.symm
        rw [if_pos hu']
        rfl
      · refine ⟨rfl, .refl _ rfl, fun _ hn => hn, ?_⟩
        intro u hu hun
        have heq : u = gv := List.inj_on_of_nodup_map hnodup hu hmem (hun.trans hname.symm)
        rw [heq]
        exact Option.ne_none_iff_isSome.mp (by simpa using hnone)
  · next hfind =>
      have := List.find?_eq_none.mp hfind w hw
      exact absurd (decide_eq_true haddr) this

/-- A declaration of a variable in the first pass. -/
theorem placed_declareVariable {g : GlobalVar} {item : DeclaredItem}
    (h : Placed Γ gs S.mod S.globals) (hN : S.mod.NamesVars)
    (hx : declareVariable R Γ g S = .ok (item, S')) :
    Placed Γ (gs ++ [g]) S'.mod S'.globals ∧ S'.mod.NamesVars := by
  unfold declareVariable at hx
  split at hx
  case h_1 hnone =>
    -- the first declaration
    rcases Fallible.bind_eq_ok.mp hx with ⟨⟨init, S₁⟩, hd, hok⟩
    rcases Prod.mk.inj (Except.ok.inj hok) with ⟨-, rfl⟩
    rcases foldInit_touches hd with ⟨hglobals, ht, hsame, hnames⟩
    have hinit : (if g.isDecl then none else some (Const.null (Γ.memTy g.decl.type))).isSome =
        !g.isDecl := by
      cases g.isDecl <;> rfl
    constructor
    · rw [hglobals]
      exact h.new hN hnone (uniqueName_fresh g.sym) rfl hinit rfl ht hsame
    · refine Mod.NamesVars.touches ?_ ht hnames
      intro v hv
      rcases List.mem_append.mp hv with hv | hv
      · exact List.mem_cons_of_mem _ (hN v hv)
      · rcases List.mem_singleton.mp hv with rfl
        exact List.mem_cons_self
  case h_2 v hv =>
    rcases Prod.mk.inj (Except.ok.inj hx) with ⟨-, rfl⟩
    -- the variable is placed already
    rcases h.declared hv with ⟨g₀, hfirst⟩
    rcases h.addr hv with ⟨w, hw, haddr⟩
    split_ifs with hsup
    · have hdecl : g.isDecl = false := by
        rw [supplies_eq] at hsup
        simpa using hsup
      rcases supplyStorage_touches hw haddr h.nodup with ⟨hglobals, ht, hnames, hall⟩
      rw [hglobals]
      refine ⟨h.again hv hfirst haddr ht (fun _ => hall) ?_, hN.touches ht hnames⟩
      intro hd
      rw [hdecl] at hd
      cases hd
    · refine ⟨h.again hv hfirst haddr (.refl _ rfl) ?_ fun _ => rfl, hN⟩
      intro hd
      rw [supplies_eq, hd] at hsup
      exact absurd rfl hsup

theorem placed_declareFunc (h : Placed Γ gs S.mod S.globals) (hN : S.mod.NamesVars)
    (fd : Parser.FuncDecl) :
    Placed Γ gs (declareFunc R fd S).2.mod (declareFunc R fd S).2.globals ∧
      (declareFunc R fd S).2.mod.NamesVars := by
  cases hk : S.known fd with
  | some f =>
      rw [declareFunc_known hk, noteBody_mod, noteBody_globals]
      exact ⟨h, hN⟩
  | none =>
      rw [declareFunc_new hk, noteBody_mod, noteBody_globals]
      exact ⟨h.of_vars rfl, fun v hv => List.mem_cons_of_mem _ (hN v hv)⟩

/-- The first pass. -/
theorem placed_declareItems {items : List TopItem} {ds : List DeclaredItem}
    (h : Placed Γ gs S.mod S.globals) (hN : S.mod.NamesVars)
    (hx : declareItems R Γ items S = .ok (ds, S')) :
    Placed Γ (gs ++ globalItems items) S'.mod S'.globals := by
  induction items generalizing S gs ds with
  | nil =>
      rcases Prod.mk.inj (Except.ok.inj hx) with ⟨-, rfl⟩
      have hnil : gs ++ globalItems [] = gs := List.append_nil gs
      rw [hnil]
      exact h
  | cons item items ih =>
      rcases Fallible.bind_eq_ok.mp hx with ⟨⟨item', S₁⟩, hd, hx⟩
      rcases Fallible.bind_eq_ok.mp hx with ⟨⟨ds₁, S₂⟩, hds, hx⟩
      rcases Prod.mk.inj (Except.ok.inj hx) with ⟨-, rfl⟩
      cases item with
      | func fd =>
          rcases Prod.mk.inj (Except.ok.inj hd) with ⟨-, rfl⟩
          rcases placed_declareFunc (R := R) h hN fd with ⟨h', hN'⟩
          refine ih ?_ ?_ hds
          · unfold bindFirst
            split
            · exact h'
            · exact h'
          · unfold bindFirst
            split
            · exact hN'
            · exact hN'
      | global g =>
          rcases placed_declareVariable h hN hd with ⟨h', hN'⟩
          have hcons : gs ++ globalItems (.global g :: items) =
              (gs ++ [g]) ++ globalItems items := List.append_cons gs g (globalItems items)
          rw [hcons]
          exact ih h' hN' hds
      | stmt s =>
          rcases Prod.mk.inj (Except.ok.inj hd) with ⟨-, rfl⟩
          exact ih h hN hds
      | classDef c =>
          rcases Prod.mk.inj (Except.ok.inj hd) with ⟨-, rfl⟩
          exact ih h hN hds

end Steps

/-! ## The file -/

theorem placed_nil (Γ : Env) : Placed Γ [] {} [] where
  first := fun n g h => by cases h
  absent := fun _ _ => rfl
  apart := fun n m v w h => by cases h
  nodup := List.nodup_nil

/-- The variables of a file are those of its first pass. -/
theorem run_declares {R : Renaming} {Γ : Env} {d : Nat} {aot : Bool} {items : List TopItem}
    {M : Compiled} (h : run R Γ d aot items = .ok M) :
    ∃ ds S, declareItems R Γ items {} = .ok (ds, S) ∧
      Placed Γ (globalItems items) M.mod S.globals := by
  rcases Fallible.bind_eq_ok.mp h with ⟨⟨ds, S⟩, hds, h⟩
  have hplaced := placed_declareItems (placed_nil Γ) (fun v hv => absurd hv List.not_mem_nil) hds
  have hvars : M.mod.vars = S.mod.vars := by
    rcases Fallible.bind_eq_ok.mp h with ⟨W, -, h⟩
    rcases Fallible.bind_eq_ok.mp h with ⟨⟨_, F⟩, -, h⟩
    rcases Except.ok.inj h with rfl
    unfold createMain
    split_ifs
    · rfl
    · rfl
  exact ⟨ds, S, hds, hplaced.of_vars hvars⟩

/-- The global variables of a file: every name has one storage, of the type of its first
declaration, which is defined if one of its declarations is real; and this is what the name stands
for in every function and in the startup function, unless a local variable hides it. -/
theorem run_places {R : Renaming} {Γ : Env} {d : Nat} {aot : Bool} {items : List TopItem}
    {M : Compiled} (hl : Linkable items) (h : run R Γ d aot items = .ok M) :
    ∃ ds fn env table, Binds d items M ds fn env ∧ (∀ k, (env k).globals = table) ∧
      Placed Γ (globalItems items) M.mod table := by
  rcases run_declares h with ⟨ds, S, hds, hplaced⟩
  exact ⟨ds, _, _, S.globals, binds_run hl hds h, fun _ => rfl, hplaced⟩

/-- `extern U8 g; g = 1; I64 g;` -/
def forwardGlobal : List TopItem :=
  [.global ⟨⟨"g", .u8, none, {}⟩, .externL, ""⟩,
    .stmt (.expr {} (.assign {} .assign (.ident {} "g") (.intLit {} 1))),
    .global ⟨⟨"g", .i64, none, {}⟩, .normal, ""⟩]

theorem forwardGlobal_places : ∃ M ds fn env table,
    run onesNaming { classFuel := 1 } 4 false forwardGlobal = .ok M ∧
      Binds 4 forwardGlobal M ds fn env ∧ (∀ k, (env k).globals = table) ∧
      Placed { classFuel := 1 } (globalItems forwardGlobal) M.mod table := by
  have hl : Linkable forwardGlobal := ⟨by decide, by decide⟩
  have hsome :
      (run onesNaming { classFuel := 1 } 4 false forwardGlobal).toOption.isSome = true := by
    decide +kernel
  rcases Option.isSome_iff_exists.mp hsome with ⟨M, hM⟩
  have hrun := eq_ok_of_isSome hsome M
  rw [hM] at hrun
  rcases run_places hl hrun with ⟨ds, fn, env, table, hplaced⟩
  exact ⟨M, ds, fn, env, table, hrun, hplaced⟩

end Hlang.Codegen
