import Hlang.Codegen.Module
import Hlang.Lib.Fallible
import Hlang.Lib.Overshadow
import Mathlib.Algebra.Order.BigOperators.Group.List

/-!
# Hlang.Codegen.Binding — which function a name is bound to

The first pass gives each declaration of a function a `Function*`, and the second one binds names
as it comes along. In the terms of overshadowing: two declarations have the same `Function*` if
and only if they have the same owner (`Linked.same`), and the table of functions has what is in
force at each item (`run_binds`).
-/

namespace Hlang.Codegen

open Ir Gen Cg
open Overshadow (owner ownerAt InForce StandsFor)
open Hlang.Parser (TopItem GlobalVar)

/-- What the symbol of a function goes by: its LLVM type, and whether there is a body. -/
def declOf (fd : Parser.FuncDecl) : Overshadow.Decl String FnTy :=
  ⟨fd.sym, llvmFnType fd.type, fd.hasBody⟩

/-- A function item. -/
def funcItem? : TopItem → Option Parser.FuncDecl
  | .func fd => some fd
  | _ => none

/-- A global variable. -/
def globalItem? : TopItem → Option GlobalVar
  | .global g => some g
  | _ => none

/-- The function declarations of a file. -/
def funcItems (items : List TopItem) : List Parser.FuncDecl := items.filterMap funcItem?

/-- The global variables of a file. -/
def globalItems (items : List TopItem) : List GlobalVar := items.filterMap globalItem?

/-- A function that is declared, with its `Function*`. -/
def DeclaredItem.func? : DeclaredItem → Option (Parser.FuncDecl × Function)
  | .func fd fn => some (fd, fn)
  | _ => none

/-- The functions that are declared, with their `Function*`. -/
def declaredFuncs (ds : List DeclaredItem) : List (Parser.FuncDecl × Function) :=
  ds.filterMap DeclaredItem.func?

/-- The symbols are words of the source, and no variable has the symbol of a function. -/
structure Linkable (items : List TopItem) : Prop where
  undotted : ∀ fd ∈ funcItems items, '.' ∉ fd.sym.toList
  apart : ∀ fd ∈ funcItems items, ∀ g ∈ globalItems items, g.sym ≠ fd.sym

/-! ## The first pass -/

/-- What the first pass has done to the functions `fs` and to variables with symbols `vs`. -/
structure Linked (vs : List String) (fs : List (Parser.FuncDecl × Function)) (S : Declaring) :
    Prop where
  /-- a `Function*` for each owner -/
  same : ∀ i j p q, fs[i]? = some p → fs[j]? = some q →
    (p.2.name = q.2.name ↔
      ownerAt (fs.map fun p => declOf p.1) i = ownerAt (fs.map fun p => declOf p.1) j)
  type : ∀ p ∈ fs, p.2.type = llvmFnType p.1.type
  /-- a symbol is that of the first function declared with it -/
  holder : ∀ s, '.' ∉ s.toList →
    S.mod.getFunction s = (fs.find? fun p => p.1.sym = s).map Prod.snd
  defined : ∀ s, s ∈ S.bodyDeclared ↔ ∃ p ∈ fs, p.1.sym = s ∧ p.1.hasBody = true
  /-- where the names of the module come from -/
  names : ∀ n ∈ S.mod.names, '.' ∈ n.toList ∨ (∃ p ∈ fs, p.1.sym = n) ∨ n ∈ vs
  known : ∀ p ∈ fs, p.2.name ∈ S.mod.names

section Names

variable {R : Renaming} {M : Mod}

theorem uniqueName_fresh (name : String) : M.uniqueName R name ∉ M.names := by
  unfold Mod.uniqueName
  split
  case isTrue => exact R.fresh M.names name
  case isFalse h => exact h

/-- The name asked for, or one with a dot. -/
theorem uniqueName_eq (name : String) :
    M.uniqueName R name = name ∨ '.' ∈ (M.uniqueName R name).toList := by
  unfold Mod.uniqueName
  split
  case isTrue => exact .inr (R.dotted M.names name)
  case isFalse => exact .inl rfl

end Names

section Step

variable {R : Renaming} {vs : List String} {fs : List (Parser.FuncDecl × Function)}
  {S : Declaring}

theorem findIdx?_declOf (fd : Parser.FuncDecl) :
    (fs.map fun p => declOf p.1).findIdx? (·.key = (declOf fd).key) =
      fs.findIdx? fun p => p.1.sym = fd.sym := by
  rw [List.findIdx?_map]
  rfl

/-- The function a new declaration gets: that of its owner, or a new one. -/
structure Gets (vs : List String) (fs : List (Parser.FuncDecl × Function)) (S : Declaring)
    (fd : Parser.FuncDecl) (f : Function) (S' : Declaring) : Prop where
  type : f.type = llvmFnType fd.type
  bodyDeclared : S'.bodyDeclared = if fd.hasBody then fd.sym :: S.bodyDeclared else S.bodyDeclared
  funcs : S'.funcs = S.funcs
  globals : S'.globals = S.globals
  owner : (∃ p, fs[owner (fs.map fun p => declOf p.1) (declOf fd)]? = some p ∧ f = p.2 ∧
      S'.mod = S.mod ∧ ∃ q ∈ fs, q.1.sym = fd.sym) ∨
    owner (fs.map fun p => declOf p.1) (declOf fd) = fs.length ∧ f.name ∉ S.mod.names ∧
      S'.mod = { S.mod with names := f.name :: S.mod.names, fns := S.mod.fns ++ [f] } ∧
      ((∃ q ∈ fs, q.1.sym = fd.sym) ∧ '.' ∈ f.name.toList ∨
        (∀ q ∈ fs, q.1.sym ≠ fd.sym) ∧ f.name = fd.sym)

/-- There is a function of the symbol. -/
theorem Linked.getFunction_some (h : Linked vs fs S) {fd : Parser.FuncDecl}
    (hdot : '.' ∉ fd.sym.toList) {i : Nat}
    (hi : fs.findIdx? (fun p => p.1.sym = fd.sym) = some i) :
    ∃ p, fs[i]? = some p ∧ p.1.sym = fd.sym ∧ S.mod.getFunction fd.sym = some p.2 := by
  rcases List.findIdx?_eq_some_iff_getElem.mp hi with ⟨hlt, hp, hfirst⟩
  refine ⟨fs[i], List.getElem?_eq_getElem hlt, of_decide_eq_true hp, ?_⟩
  have hfind : fs.find? (fun p => p.1.sym = fd.sym) = some fs[i] := by
    rw [List.find?_eq_some_iff_getElem]
    refine ⟨hp, i, hlt, rfl, ?_⟩
    intro j hj
    have := hfirst j hj
    simpa using this
  rw [h.holder fd.sym hdot, hfind]
  rfl

theorem createFor_taken (fd : Parser.FuncDecl) (hS : (S.mod.getFunction fd.sym).isSome = true) :
    ∃ f, (createFor R fd S).1 = f ∧ f.type = llvmFnType fd.type ∧ f.name ∉ S.mod.names ∧
      '.' ∈ f.name.toList ∧
      (createFor R fd S).2 = { S with
        mod := { S.mod with names := f.name :: S.mod.names, fns := S.mod.fns ++ [f] }
        uniq := S.uniq + 1 } := by
  refine ⟨_, rfl, rfl, uniqueName_fresh _, ?_, ?_⟩
  · rcases uniqueName_eq (R := R) (M := S.mod) (if (S.mod.getFunction fd.sym).isSome then
      fd.sym ++ "." ++ toString S.uniq else fd.sym) with h | h
    · show '.' ∈ (S.mod.uniqueName R _).toList
      rw [h, if_pos hS, String.toList_append, String.toList_append]
      exact List.mem_append_left _ (List.mem_append_right _ (List.mem_singleton.mpr rfl))
    · exact h
  · unfold createFor
    simp only [hS, if_true]
    rfl

theorem createFor_free (fd : Parser.FuncDecl) (hS : S.mod.getFunction fd.sym = none)
    (hname : fd.sym ∉ S.mod.names) :
    ∃ f, (createFor R fd S).1 = f ∧ f.type = llvmFnType fd.type ∧ f.name = fd.sym ∧
      (createFor R fd S).2 = { S with
        mod := { S.mod with names := f.name :: S.mod.names, fns := S.mod.fns ++ [f] } } := by
  have hkeep : S.mod.uniqueName R fd.sym = fd.sym := if_neg hname
  refine ⟨_, rfl, rfl, ?_, ?_⟩
  · show S.mod.uniqueName R (if (S.mod.getFunction fd.sym).isSome then _ else fd.sym) = fd.sym
    rw [hS]
    exact hkeep
  · unfold createFor
    rw [hS]
    rfl

/-- What is noted of a declaration with a body. -/
def Declaring.noteBody (S : Declaring) (fd : Parser.FuncDecl) : Declaring :=
  if fd.hasBody then { S with bodyDeclared := fd.sym :: S.bodyDeclared } else S

@[simp] theorem noteBody_mod (fd : Parser.FuncDecl) : (S.noteBody fd).mod = S.mod := by
  unfold Declaring.noteBody
  split_ifs
  · rfl
  · rfl

@[simp] theorem noteBody_funcs (fd : Parser.FuncDecl) : (S.noteBody fd).funcs = S.funcs := by
  unfold Declaring.noteBody
  split_ifs
  · rfl
  · rfl

@[simp] theorem noteBody_globals (fd : Parser.FuncDecl) :
    (S.noteBody fd).globals = S.globals := by
  unfold Declaring.noteBody
  split_ifs
  · rfl
  · rfl

theorem noteBody_bodyDeclared (fd : Parser.FuncDecl) :
    (S.noteBody fd).bodyDeclared =
      if fd.hasBody then fd.sym :: S.bodyDeclared else S.bodyDeclared := by
  unfold Declaring.noteBody
  split_ifs
  · rfl
  · rfl

theorem declareFunc_known {fd : Parser.FuncDecl} {f : Function} (hf : S.known fd = some f) :
    declareFunc R fd S = (f, S.noteBody fd) := by
  unfold declareFunc
  rw [hf]
  rfl

theorem declareFunc_new {fd : Parser.FuncDecl} (hf : S.known fd = none) :
    declareFunc R fd S = ((createFor R fd S).1, (createFor R fd S).2.noteBody fd) := by
  unfold declareFunc
  rw [hf]
  rfl

/-- The first declaration of a symbol: the module knows nothing of it. -/
theorem Linked.unknown (h : Linked vs fs S) {fd : Parser.FuncDecl} (hdot : '.' ∉ fd.sym.toList)
    (hvs : fd.sym ∉ vs) (hno : ∀ q ∈ fs, q.1.sym ≠ fd.sym) :
    S.mod.getFunction fd.sym = none ∧ fd.sym ∉ S.mod.names := by
  constructor
  · have hfind : fs.find? (fun p => p.1.sym = fd.sym) = none := by
      rw [List.find?_eq_none]
      intro q hq
      simpa using hno q hq
    rw [h.holder fd.sym hdot, hfind]
    rfl
  · intro hmem
    rcases h.names _ hmem with hd | ⟨p, hp, hsym⟩ | hv
    · exact hdot hd
    · exact hno p hp hsym
    · exact hvs hv

/-- There is a body already. -/
theorem Linked.bodyDeclared_iff (h : Linked vs fs S) (fd : Parser.FuncDecl) :
    fd.sym ∈ S.bodyDeclared ↔
      ∃ e ∈ fs.map fun p => declOf p.1, e.key = (declOf fd).key ∧ e.defines := by
  rw [h.defined]
  constructor
  · rintro ⟨q, hq, hqs, hqb⟩
    exact ⟨_, List.mem_map.mpr ⟨q, hq, rfl⟩, hqs, hqb⟩
  · rintro ⟨e, he, hkey, hdef⟩
    rcases List.mem_map.mp he with ⟨q, hq, rfl⟩
    exact ⟨q, hq, hkey, hdef⟩

/-- What `declareFunc` does. -/
theorem Linked.gets (h : Linked vs fs S) {fd : Parser.FuncDecl} (hdot : '.' ∉ fd.sym.toList)
    (hvs : fd.sym ∉ vs) :
    Gets vs fs S fd (declareFunc R fd S).1 (declareFunc R fd S).2 := by
  have hidx : (fs.map fun p => declOf p.1).findIdx? (·.key = (declOf fd).key) =
      fs.findIdx? fun p => p.1.sym = fd.sym := findIdx?_declOf fd
  cases hi : fs.findIdx? (fun p => p.1.sym = fd.sym) with
  | none =>
      -- the first declaration of the symbol
      rw [hi] at hidx
      have hno : ∀ q ∈ fs, q.1.sym ≠ fd.sym := by
        intro q hq hsym
        have := List.findIdx?_eq_none_iff.mp hi q hq
        exact absurd hsym (of_decide_eq_false this)
      rcases h.unknown hdot hvs hno with ⟨hget, hname⟩
      have hknown : S.known fd = none := by
        unfold Declaring.known
        rw [hget]
      rcases createFor_free (R := R) fd hget hname with ⟨f, hf, htype, hfname, hS'⟩
      rw [declareFunc_new hknown, hf, hS']
      refine ⟨htype, noteBody_bodyDeclared fd, noteBody_funcs fd, noteBody_globals fd,
        .inr ⟨?_, ?_, noteBody_mod fd, .inr ⟨hno, hfname⟩⟩⟩
      · unfold owner
        rw [hidx]
        exact List.length_map _
      · rw [hfname]
        exact hname
  | some i =>
      rw [hi] at hidx
      rcases h.getFunction_some hdot hi with ⟨p, hp, hsym, hget⟩
      have hmem : p ∈ fs := List.mem_of_getElem? hp
      have hsig : (fs.map fun p => declOf p.1)[i]?.map (·.sig) = some p.2.type := by
        rw [List.getElem?_map, hp, h.type p hmem]
        rfl
      have hbody := h.bodyDeclared_iff fd
      by_cases hshare : p.2.type = llvmFnType fd.type ∧ ¬ (fd.hasBody ∧ fd.sym ∈ S.bodyDeclared)
      · -- the function of the first declaration
        have hknown : S.known fd = some p.2 := by
          unfold Declaring.known
          rw [hget]
          show (if _ then _ else if _ then _ else _) = _
          rw [if_neg (not_not_intro hshare.1), if_neg]
          simpa using hshare.2
        have hown : owner (fs.map fun p => declOf p.1) (declOf fd) = i := by
          unfold owner
          rw [hidx]
          refine if_pos ⟨?_, ?_⟩
          · rw [hsig, hshare.1]
            rfl
          · rintro ⟨hb, he⟩
            exact hshare.2 ⟨hb, hbody.mpr he⟩
        rw [declareFunc_known hknown]
        refine ⟨hshare.1, noteBody_bodyDeclared fd, noteBody_funcs fd, noteBody_globals fd,
          .inl ⟨p, ?_, rfl, noteBody_mod fd, p, hmem, hsym⟩⟩
        rw [hown]
        exact hp
      · -- one of its own
        have hknown : S.known fd = none := by
          unfold Declaring.known
          rw [hget]
          show (if _ then _ else if _ then _ else _) = _
          by_cases htype : p.2.type = llvmFnType fd.type
          · rw [if_neg (not_not_intro htype), if_pos]
            have hb := not_not.mp fun hb => hshare ⟨htype, hb⟩
            simpa using hb
          · rw [if_pos htype]
        have hown : owner (fs.map fun p => declOf p.1) (declOf fd) = fs.length := by
          unfold owner
          rw [hidx]
          refine (if_neg ?_).trans (List.length_map _)
          rintro ⟨hs, hd⟩
          rw [hsig] at hs
          refine hshare ⟨Option.some.inj hs, ?_⟩
          rintro ⟨hb, hmemb⟩
          exact hd ⟨hb, hbody.mp hmemb⟩
        rcases createFor_taken (R := R) fd (by rw [hget]; rfl) with
          ⟨f, hf, htype, hfresh, hfdot, hS'⟩
        rw [declareFunc_new hknown, hf, hS']
        exact ⟨htype, noteBody_bodyDeclared fd, noteBody_funcs fd, noteBody_globals fd,
          .inr ⟨hown, hfresh, noteBody_mod fd, .inl ⟨⟨p, hmem, hsym⟩, hfdot⟩⟩⟩

/-- The new declaration against an earlier one. -/
theorem Linked.same_last (h : Linked vs fs S) {fd : Parser.FuncDecl} {f : Function} {S' : Declaring}
    (hg : Gets vs fs S fd f S') {i : Nat} {p : Parser.FuncDecl × Function} (hi : fs[i]? = some p) :
    p.2.name = f.name ↔
      ownerAt (fs.map fun p => declOf p.1) i = owner (fs.map fun p => declOf p.1) (declOf fd) := by
  have hlt : i < fs.length := (List.getElem?_eq_some_iff.mp hi).1
  rcases hg.owner with ⟨q, hq, rfl, -, -⟩ | ⟨hown, hfresh, -, -⟩
  · rw [h.same i _ p q hi hq, Overshadow.ownerAt_owner]
    rw [List.length_map]
    exact (List.getElem?_eq_some_iff.mp hq).1
  · constructor
    · intro hname
      exact absurd (hname ▸ h.known p (List.mem_of_getElem? hi)) hfresh
    · intro heq
      have := Overshadow.ownerAt_le (fs.map fun p => declOf p.1) i
      omega

theorem Linked.same_snoc (h : Linked vs fs S) {fd : Parser.FuncDecl} {f : Function}
    {S' : Declaring} (hg : Gets vs fs S fd f S') :
    ∀ i j p q, (fs ++ [(fd, f)])[i]? = some p → (fs ++ [(fd, f)])[j]? = some q →
      (p.2.name = q.2.name ↔ ownerAt ((fs ++ [(fd, f)]).map fun p => declOf p.1) i =
        ownerAt ((fs ++ [(fd, f)]).map fun p => declOf p.1) j) := by
  have hmap : ((fs ++ [(fd, f)]).map fun p => declOf p.1) =
      (fs.map fun p => declOf p.1) ++ [declOf fd] := List.map_append
  have hold : ∀ {i}, i < fs.length → ownerAt ((fs.map fun p => declOf p.1) ++ [declOf fd]) i =
      ownerAt (fs.map fun p => declOf p.1) i := fun hi =>
    Overshadow.ownerAt_append (by rw [List.length_map]; exact hi) _
  have hlast : ownerAt ((fs.map fun p => declOf p.1) ++ [declOf fd]) fs.length =
      owner (fs.map fun p => declOf p.1) (declOf fd) := by
    have := Overshadow.ownerAt_last (fs.map fun p => declOf p.1) (declOf fd)
    rwa [List.length_map] at this
  have hcases : ∀ i p, (fs ++ [(fd, f)])[i]? = some p →
      fs[i]? = some p ∧ i < fs.length ∨ i = fs.length ∧ p = (fd, f) := by
    intro i p hi
    rcases Nat.lt_or_ge i fs.length with hlt | hge
    · rw [List.getElem?_append_left hlt] at hi
      exact .inl ⟨hi, hlt⟩
    · rw [List.getElem?_append_right hge] at hi
      have hlt : i - fs.length < 1 := (List.getElem?_eq_some_iff.mp hi).1
      have hz : i - fs.length = 0 := by omega
      rw [hz] at hi
      exact .inr ⟨by omega, (Option.some.inj hi).symm⟩
  intro i j p q hi hj
  rw [hmap]
  rcases hcases i p hi with ⟨hi, hil⟩ | ⟨rfl, rfl⟩
  · rcases hcases j q hj with ⟨hj, hjl⟩ | ⟨rfl, rfl⟩
    · rw [hold hil, hold hjl]
      exact h.same i j p q hi hj
    · rw [hold hil, hlast]
      exact h.same_last hg hi
  · rcases hcases j q hj with ⟨hj, hjl⟩ | ⟨rfl, rfl⟩
    · rw [hold hjl, hlast, eq_comm, h.same_last hg hj, eq_comm]
    · exact iff_of_true rfl rfl

theorem Linked.holder_snoc (h : Linked vs fs S) {fd : Parser.FuncDecl} {f : Function}
    {S' : Declaring} (hg : Gets vs fs S fd f S') (s : String) (hs : '.' ∉ s.toList) :
    S'.mod.getFunction s = ((fs ++ [(fd, f)]).find? fun p => p.1.sym = s).map Prod.snd := by
  have hold := h.holder s hs
  rw [List.find?_append]
  rcases hg.owner with ⟨p, -, -, hmod, q, hq, hsym⟩ | ⟨-, -, hmod, hname⟩
  · -- no new function: an earlier declaration of the symbol is found first
    rw [hmod, hold]
    by_cases hsd : fd.sym = s
    · have hfound : (fs.find? fun p => p.1.sym = s).isSome := by
        rw [List.find?_isSome]
        exact ⟨q, hq, decide_eq_true (hsym.trans hsd)⟩
      rcases Option.isSome_iff_exists.mp hfound with ⟨r, hr⟩
      rw [hr]
      rfl
    · rw [List.find?_singleton, if_neg (by simpa using hsd), Option.or_none]
  · have hfind : S'.mod.getFunction s =
        (S.mod.getFunction s).or (if f.name = s then some f else none) := by
      rw [hmod]
      show (S.mod.fns ++ [f]).find? _ = _
      rw [List.find?_append]
      rw [List.find?_singleton]
      simp only [decide_eq_true_eq]
      rfl
    rw [hfind, hold, List.find?_singleton]
    by_cases hsd : fd.sym = s
    · rcases hname with ⟨⟨q, hq, hsym⟩, -⟩ | ⟨hno, hfs⟩
      · have hfound : (fs.find? fun p => p.1.sym = s).isSome := by
          rw [List.find?_isSome]
          exact ⟨q, hq, decide_eq_true (hsym.trans hsd)⟩
        rcases Option.isSome_iff_exists.mp hfound with ⟨r, hr⟩
        rw [hr]
        rfl
      · have hnone : fs.find? (fun p => p.1.sym = s) = none := by
          rw [List.find?_eq_none]
          intro q hq
          simpa using hsd ▸ hno q hq
        rw [hnone, if_pos (hfs.trans hsd), if_pos (decide_eq_true hsd)]
        rfl
    · have hfs : f.name ≠ s := by
        rintro rfl
        rcases hname with ⟨-, hdot⟩ | ⟨-, hfs⟩
        · exact hs hdot
        · exact hsd hfs.symm
      rw [if_neg hfs, if_neg (by simpa using hsd), Option.or_none, Option.or_none]

/-- One more function. -/
theorem Linked.snoc (h : Linked vs fs S) {fd : Parser.FuncDecl} {f : Function}
    {S' : Declaring} (hg : Gets vs fs S fd f S') : Linked vs (fs ++ [(fd, f)]) S' where
  same := h.same_snoc hg
  type := by
    intro p hp
    rcases List.mem_append.mp hp with hp | hp
    · exact h.type p hp
    · rcases List.mem_singleton.mp hp with rfl
      exact hg.type
  holder := h.holder_snoc hg
  defined := by
    intro s
    rw [hg.bodyDeclared]
    constructor
    · intro hs
      split_ifs at hs with hb
      · rcases List.mem_cons.mp hs with rfl | hs
        · exact ⟨(fd, f), List.mem_append_right _ List.mem_cons_self, rfl, hb⟩
        · rcases (h.defined s).mp hs with ⟨p, hp, hps⟩
          exact ⟨p, List.mem_append_left _ hp, hps⟩
      · rcases (h.defined s).mp hs with ⟨p, hp, hps⟩
        exact ⟨p, List.mem_append_left _ hp, hps⟩
    · rintro ⟨p, hp, hps, hpb⟩
      rcases List.mem_append.mp hp with hp | hp
      · have hs := (h.defined s).mpr ⟨p, hp, hps, hpb⟩
        split_ifs
        · exact List.mem_cons_of_mem _ hs
        · exact hs
      · rcases List.mem_singleton.mp hp with rfl
        rw [if_pos hpb]
        exact hps ▸ List.mem_cons_self
  names := by
    have hold : ∀ n ∈ S.mod.names, '.' ∈ n.toList ∨ (∃ p ∈ fs ++ [(fd, f)], p.1.sym = n) ∨ n ∈ vs := by
      intro n hn
      rcases h.names n hn with hd | ⟨p, hp, hps⟩ | hv
      · exact .inl hd
      · exact .inr (.inl ⟨p, List.mem_append_left _ hp, hps⟩)
      · exact .inr (.inr hv)
    rcases hg.owner with ⟨-, -, -, hmod, -⟩ | ⟨-, -, hmod, hname⟩
    · rw [hmod]
      exact hold
    · rw [hmod]
      intro n hn
      rcases List.mem_cons.mp hn with rfl | hn
      · rcases hname with ⟨-, hdot⟩ | ⟨-, hfs⟩
        · exact .inl hdot
        · exact .inr (.inl ⟨(fd, f), List.mem_append_right _ List.mem_cons_self, hfs.symm⟩)
      · exact hold n hn
  known := by
    rcases hg.owner with ⟨q, hq, hf, hmod, -⟩ | ⟨-, -, hmod, -⟩
    · rw [hmod]
      intro p hp
      rcases List.mem_append.mp hp with hp | hp
      · exact h.known p hp
      · rcases List.mem_singleton.mp hp with rfl
        exact hf ▸ h.known q (List.mem_of_getElem? hq)
    · rw [hmod]
      intro p hp
      rcases List.mem_append.mp hp with hp | hp
      · exact List.mem_cons_of_mem _ (h.known p hp)
      · rcases List.mem_singleton.mp hp with rfl
        exact List.mem_cons_self

end Step

/-! ## Variables and the table of functions -/

/-- A step that leaves the functions alone; new names are dotted or symbols of variables. -/
structure FuncsKept (vs : List String) (S S' : Declaring) : Prop where
  fns : S'.mod.fns = S.mod.fns
  bodyDeclared : S'.bodyDeclared = S.bodyDeclared
  funcs : S'.funcs = S.funcs
  names : ∀ n ∈ S'.mod.names, n ∈ S.mod.names ∨ '.' ∈ n.toList ∨ n ∈ vs
  kept : ∀ n ∈ S.mod.names, n ∈ S'.mod.names

section FuncsKept

variable {R : Renaming} {Γ : Env} {vs : List String} {S S' S'' : Declaring}

theorem FuncsKept.refl (S : Declaring) : FuncsKept vs S S := ⟨rfl, rfl, rfl, fun _ => .inl, fun _ => id⟩

theorem FuncsKept.trans (h : FuncsKept vs S S') (h' : FuncsKept vs S' S'') : FuncsKept vs S S'' where
  fns := h'.fns.trans h.fns
  bodyDeclared := h'.bodyDeclared.trans h.bodyDeclared
  funcs := h'.funcs.trans h.funcs
  names := by
    intro n hn
    rcases h'.names n hn with hn | hn
    · exact h.names n hn
    · exact .inr hn
  kept := fun n hn => h'.kept n (h.kept n hn)

theorem FuncsKept.linked {fs : List (Parser.FuncDecl × Function)} (h : FuncsKept vs S S')
    (hS : Linked vs fs S) : Linked vs fs S' where
  same := hS.same
  type := hS.type
  holder := by
    intro s hs
    unfold Mod.getFunction
    rw [h.fns]
    exact hS.holder s hs
  defined := by
    rw [h.bodyDeclared]
    exact hS.defined
  names := by
    intro n hn
    rcases h.names n hn with hn | hn | hn
    · exact hS.names n hn
    · exact .inl hn
    · exact .inr (.inr hn)
  known := fun p hp => h.kept _ (hS.known p hp)

theorem funcsKept_stringConst (s : String) : FuncsKept vs S (stringConst R s S) := by
  unfold stringConst
  split_ifs
  · exact FuncsKept.refl S
  · refine ⟨rfl, rfl, rfl, ?_, fun n hn => List.mem_cons_of_mem _ hn⟩
    intro n hn
    rcases List.mem_cons.mp hn with rfl | hn
    · refine .inr (.inl ?_)
      rcases uniqueName_eq (R := R) (M := S.mod) (".str" ++ toString S.uniq) with h | h
      · rw [h, String.toList_append]
        exact List.mem_append_left _ List.mem_cons_self
      · exact h
    · exact .inl hn

theorem funcsKept_noteString (c : Const) : FuncsKept vs S (noteString R c S) := by
  cases c with
  | strAddr ty s => exact funcsKept_stringConst s
  | _ => exact FuncsKept.refl S

theorem funcsKept_setInitializer (name : String) (c : Const) :
    FuncsKept vs S { S with mod := S.mod.setInitializer name c } :=
  ⟨rfl, rfl, rfl, fun _ => .inl, fun _ => id⟩

theorem funcsKept_foldInit {g : GlobalVar} {v : GlobalVariable} {init : Option Expr}
    (h : foldInit R Γ g v S = .ok (init, S')) : FuncsKept vs S S' := by
  unfold foldInit at h
  split at h
  case h_1 e _ _ =>
    split at h
    case h_1 c _ =>
      rcases Prod.mk.inj (Except.ok.inj h) with ⟨-, rfl⟩
      exact (funcsKept_noteString c).trans (funcsKept_setInitializer v.name c)
    case h_2 =>
      rcases Prod.mk.inj (Except.ok.inj h) with ⟨-, rfl⟩
      exact FuncsKept.refl S
    case h_3 => cases h
  case h_2 =>
    rcases Prod.mk.inj (Except.ok.inj h) with ⟨-, rfl⟩
    exact FuncsKept.refl S

theorem funcsKept_declareGlobal {g : GlobalVar} {init : Option Expr} (hg : g.sym ∈ vs)
    (h : declareGlobal R Γ g S = .ok (init, S')) : FuncsKept vs S S' := by
  have hfold : FuncsKept vs _ S' := funcsKept_foldInit h
  refine FuncsKept.trans ?_ hfold
  refine ⟨rfl, rfl, rfl, ?_, fun n hn => List.mem_cons_of_mem _ hn⟩
  intro n hn
  rcases List.mem_cons.mp hn with rfl | hn
  · rcases uniqueName_eq (R := R) (M := S.mod) g.sym with he | he
    · exact .inr (.inr (he.symm ▸ hg))
    · exact .inr (.inl he)
  · exact .inl hn

theorem funcsKept_supplyStorage (v : VarSym) : FuncsKept vs S (supplyStorage v S) := by
  unfold supplyStorage
  split
  case h_1 gv _ =>
    split_ifs
    · exact funcsKept_setInitializer gv.name _
    · exact FuncsKept.refl S
  case h_2 => exact FuncsKept.refl S

theorem funcsKept_declareVariable {g : GlobalVar} {d : DeclaredItem} (hg : g.sym ∈ vs)
    (h : declareVariable R Γ g S = .ok (d, S')) : FuncsKept vs S S' ∧ d.func? = none := by
  unfold declareVariable at h
  split at h
  case h_1 =>
    rcases Fallible.bind_eq_ok.mp h with ⟨⟨init, S₁⟩, hd, hok⟩
    rcases Prod.mk.inj (Except.ok.inj hok) with ⟨rfl, rfl⟩
    exact ⟨funcsKept_declareGlobal hg hd, rfl⟩
  case h_2 v _ =>
    rcases Prod.mk.inj (Except.ok.inj h) with ⟨rfl, rfl⟩
    refine ⟨?_, rfl⟩
    split_ifs
    · exact funcsKept_supplyStorage v
    · exact FuncsKept.refl S

end FuncsKept

/-- The entry of a function in the table. -/
def entryOf (p : Parser.FuncDecl × Function) : String × FuncSym := (p.1.name, funcSym p.1 p.2)

/-- The table of the first pass has the first declarations. -/
def Firsts (fs : List (Parser.FuncDecl × Function)) (S : Declaring) : Prop :=
  ∀ n, S.funcs.lookup n = (fs.map entryOf).lookup n

section Items

variable {R : Renaming} {Γ : Env} {vs : List String} {fs : List (Parser.FuncDecl × Function)}
  {S S' : Declaring}

theorem firsts_bindFirst (h : Firsts fs S) (fd : Parser.FuncDecl) (f : Function) :
    Firsts (fs ++ [(fd, f)]) (bindFirst fd.name (funcSym fd f) S) := by
  intro n
  rw [List.map_append, List.lookup_append, ← h n]
  unfold bindFirst
  split
  case h_1 v hv =>
    by_cases hn : n = fd.name
    · rw [hn, hv]
      exact Option.some_or.symm
    · show S.funcs.lookup n = _
      rw [show ([(fd, f)].map entryOf).lookup n = none from ?_, Option.or_none]
      exact List.lookup_eq_none_iff.mpr fun p hp => by
        rcases List.mem_singleton.mp hp with rfl
        exact bne_iff_ne.mpr hn
  case h_2 hnone =>
    show List.lookup n ((fd.name, funcSym fd f) :: S.funcs) = _
    by_cases hn : n = fd.name
    · rw [hn, List.lookup_cons_self, hnone, Option.none_or]
      exact List.lookup_cons_self.symm
    · rw [List.lookup_cons, beq_eq_false_iff_ne.mpr hn]
      show S.funcs.lookup n = _
      rw [show ([(fd, f)].map entryOf).lookup n = none from ?_, Option.or_none]
      exact List.lookup_eq_none_iff.mpr fun p hp => by
        rcases List.mem_singleton.mp hp with rfl
        exact bne_iff_ne.mpr hn

/-- An item of the first pass. -/
theorem declareItem_linked {item : TopItem} {d : DeclaredItem}
    (hfunc : ∀ fd, funcItem? item = some fd → '.' ∉ fd.sym.toList ∧ fd.sym ∉ vs)
    (hglob : ∀ g, globalItem? item = some g → g.sym ∈ vs) (hl : Linked vs fs S) (hf : Firsts fs S)
    (h : declareItem R Γ item S = .ok (d, S')) :
    Linked vs (fs ++ d.func?.toList) S' ∧ Firsts (fs ++ d.func?.toList) S' ∧
      d.func?.map Prod.fst = funcItem? item := by
  have hkeep : ∀ {S' : Declaring}, FuncsKept vs S S' → Linked vs (fs ++ []) S' ∧ Firsts (fs ++ []) S' := by
    intro S' hk
    rw [List.append_nil]
    exact ⟨hk.linked hl, fun n => hk.funcs.symm ▸ hf n⟩
  cases item with
  | func fd =>
      rcases Prod.mk.inj (Except.ok.inj h) with ⟨rfl, rfl⟩
      have hg := hl.gets (R := R) (hfunc fd rfl).1 (hfunc fd rfl).2
      have hsnoc := hl.snoc hg
      refine ⟨?_, ?_, rfl⟩
      · unfold bindFirst
        split
        case h_1 => exact hsnoc
        case h_2 =>
          exact ⟨hsnoc.same, hsnoc.type, hsnoc.holder, hsnoc.defined, hsnoc.names, hsnoc.known⟩
      · refine firsts_bindFirst ?_ fd _
        intro n
        rw [hg.funcs]
        exact hf n
  | global g =>
      have hvar := funcsKept_declareVariable (hglob g rfl) h
      rcases hkeep hvar.1 with ⟨hl', hf'⟩
      rw [hvar.2]
      exact ⟨hl', hf', rfl⟩
  | stmt s =>
      rcases Prod.mk.inj (Except.ok.inj h) with ⟨rfl, rfl⟩
      rcases hkeep (FuncsKept.refl S) with ⟨hl', hf'⟩
      exact ⟨hl', hf', rfl⟩
  | classDef c =>
      rcases Prod.mk.inj (Except.ok.inj h) with ⟨rfl, rfl⟩
      rcases hkeep (FuncsKept.refl S) with ⟨hl', hf'⟩
      exact ⟨hl', hf', rfl⟩

/-- The first pass. -/
theorem declareItems_linked {items : List TopItem} {ds : List DeclaredItem}
    (hfunc : ∀ fd ∈ funcItems items, '.' ∉ fd.sym.toList ∧ fd.sym ∉ vs)
    (hglob : ∀ g ∈ globalItems items, g.sym ∈ vs) (hl : Linked vs fs S) (hf : Firsts fs S)
    (h : declareItems R Γ items S = .ok (ds, S')) :
    Linked vs (fs ++ declaredFuncs ds) S' ∧ Firsts (fs ++ declaredFuncs ds) S' ∧
      (declaredFuncs ds).map Prod.fst = funcItems items := by
  induction items generalizing fs S ds with
  | nil =>
      rcases Prod.mk.inj (Except.ok.inj h) with ⟨rfl, rfl⟩
      show Linked vs (fs ++ []) S ∧ Firsts (fs ++ []) S ∧ _
      rw [List.append_nil]
      exact ⟨hl, hf, rfl⟩
  | cons item items ih =>
      rcases Fallible.bind_eq_ok.mp h with ⟨⟨d, S₁⟩, hd, h⟩
      rcases Fallible.bind_eq_ok.mp h with ⟨⟨ds₁, S₂⟩, hds, h⟩
      rcases Prod.mk.inj (Except.ok.inj h) with ⟨rfl, rfl⟩
      rcases declareItem_linked
          (fun fd hfd => hfunc fd (List.mem_filterMap.mpr ⟨item, List.mem_cons_self, hfd⟩))
          (fun g hg => hglob g (List.mem_filterMap.mpr ⟨item, List.mem_cons_self, hg⟩)) hl hf hd with
        ⟨hl₁, hf₁, hfst⟩
      have hrest : ∀ {α : Type} {f : TopItem → Option α} {a : α}, a ∈ items.filterMap f →
          a ∈ (item :: items).filterMap f := by
        intro α f a ha
        rcases List.mem_filterMap.mp ha with ⟨x, hx, hfx⟩
        exact List.mem_filterMap.mpr ⟨x, List.mem_cons_of_mem _ hx, hfx⟩
      rcases ih (fun fd hfd => hfunc fd (hrest hfd)) (fun g hg => hglob g (hrest hg)) hl₁ hf₁ hds with
        ⟨hl₂, hf₂, hfst₂⟩
      have hdecl : declaredFuncs (d :: ds₁) = d.func?.toList ++ declaredFuncs ds₁ := by
        unfold declaredFuncs
        cases hd : d.func? with
        | none => rw [List.filterMap_cons_none hd]; rfl
        | some p => rw [List.filterMap_cons_some hd]; rfl
      rw [hdecl, ← List.append_assoc]
      refine ⟨hl₂, hf₂, ?_⟩
      rw [List.map_append, hfst₂]
      unfold funcItems
      cases hi : funcItem? item with
      | none =>
          rw [List.filterMap_cons_none hi]
          rw [hi] at hfst
          rw [Option.map_eq_none_iff.mp hfst]
          rfl
      | some fd =>
          rw [List.filterMap_cons_some hi]
          rw [hi] at hfst
          rcases Option.map_eq_some_iff.mp hfst with ⟨p, hp, rfl⟩
          rw [hp]
          rfl

end Items

/-! ## The second pass -/

section Walk

variable (Γ : Env) (d : Nat) (startName : String)

/-- The functions that are passed with an item. -/
def DeclaredItem.passed (item : DeclaredItem) : Nat := item.func?.toList.length

/-- What an item adds to the startup function. -/
def startupItem (item : DeclaredItem) : Cg Unit :=
  match item with
  | .global name init => genGlobalInit Γ d name init
  | .stmt s => genStmt Γ d startName [] s
  | .func _ _ | .classDef => pure ()

/-- The code of the startup function, each item in the environment behind the functions that have
been passed. -/
def startupItems (E : Nat → Env) : Nat → List DeclaredItem → Cg Unit
  | _, [] => pure ()
  | k, item :: items => do
      startupItem (E k) d startName item
      startupItems E (k + item.passed) items

/-- The table behind the first `k` functions. -/
def tableAt (fs : List (Parser.FuncDecl × Function)) (T : List (String × FuncSym)) (k : Nat) :
    List (String × FuncSym) := ((fs.map entryOf).take k).reverse ++ T

/-- What is looked up behind the first `k` functions. -/
def envAt (fs : List (Parser.FuncDecl × Function)) (T : List (String × FuncSym)) (k : Nat) : Env :=
  { Γ with funcs := tableAt fs T k }

variable {Γ d startName}
variable {fs : List (Parser.FuncDecl × Function)} {T : List (String × FuncSym)}

theorem tableAt_succ {k : Nat} {p : Parser.FuncDecl × Function} (hp : fs[k]? = some p) :
    tableAt fs T (k + 1) = entryOf p :: tableAt fs T k := by
  unfold tableAt
  rw [List.take_add_one, List.getElem?_map, hp, List.reverse_append]
  rfl

/-- What a function of the second pass adds: its body, if it has one. -/
theorem genBody_eq_ok {fd : Parser.FuncDecl} {f : Function} {W W' : Walk}
    (h : genBody Γ d fd f W = .ok W') :
    ∃ new, W'.bodies = W.bodies ++ new ∧ W'.funcs = W.funcs ∧ W'.startup = W.startup ∧
      (∀ b ∈ new, ∃ body, fd.body = some body ∧ b.1 = f.name ∧
        genFuncBody { Γ with funcs := W.funcs } d ⟨f.name, fd.type, [], body⟩ = .ok b.2) ∧
      ∀ body, fd.body = some body → ∃ F, (f.name, F) ∈ new ∧
        genFuncBody { Γ with funcs := W.funcs } d ⟨f.name, fd.type, [], body⟩ = .ok F := by
  unfold genBody at h
  split at h
  case h_1 hnone =>
    rcases Except.ok.inj h with rfl
    refine ⟨[], (List.append_nil _).symm, rfl, rfl, fun b hb => absurd hb List.not_mem_nil, ?_⟩
    intro body hbody
    rw [hnone] at hbody
    cases hbody
  case h_2 body hsome =>
    rcases Fallible.bind_eq_ok.mp h with ⟨F, hF, hok⟩
    rcases Except.ok.inj hok with rfl
    refine ⟨[(f.name, F)], rfl, rfl, rfl, ?_, ?_⟩
    · intro b hb
      rcases List.mem_singleton.mp hb with rfl
      exact ⟨body, hsome, rfl, hF⟩
    · intro body' hbody'
      rcases Option.some.inj (hsome.symm.trans hbody') with rfl
      exact ⟨F, List.mem_singleton.mpr rfl, hF⟩

/-- An item that is not a function adds to the startup function only. -/
theorem appendStartup_eq_ok {x : Cg Unit} {W W' : Walk} (h : appendStartup x W = .ok W') :
    x W.startup = .ok ((), W'.startup) ∧ W'.funcs = W.funcs ∧ W'.bodies = W.bodies := by
  rcases Fallible.bind_eq_ok.mp h with ⟨⟨_, F⟩, hF, hok⟩
  rcases Except.ok.inj hok with rfl
  exact ⟨hF, rfl, rfl⟩

/-- The body of a function of the second pass is generated where the function stands, and the
startup function gets the rest, in order. -/
theorem walkItems_eq_ok {ds : List DeclaredItem} {k : Nat} {W W' : Walk}
    (hfs : fs.drop k = declaredFuncs ds) (hW : W.funcs = tableAt fs T k)
    (h : walkItems Γ d startName ds W = .ok W') :
    startupItems d startName (envAt Γ fs T) k ds W.startup = .ok ((), W'.startup) ∧
      ∃ bodies, W'.bodies = W.bodies ++ bodies ∧
        (∀ b ∈ bodies, ∃ j p body, k ≤ j ∧ fs[j]? = some p ∧ p.1.body = some body ∧
          b.1 = p.2.name ∧
          genFuncBody (envAt Γ fs T (j + 1)) d ⟨p.2.name, p.1.type, [], body⟩ = .ok b.2) ∧
        ∀ j p body, k ≤ j → fs[j]? = some p → p.1.body = some body →
          ∃ F, (p.2.name, F) ∈ bodies ∧
            genFuncBody (envAt Γ fs T (j + 1)) d ⟨p.2.name, p.1.type, [], body⟩ = .ok F := by
  induction ds generalizing k W with
  | nil =>
      rcases Except.ok.inj h with rfl
      refine ⟨rfl, [], (List.append_nil _).symm, fun b hb => absurd hb List.not_mem_nil, ?_⟩
      intro j p body hkj hj
      have hlen : fs.length ≤ k := List.drop_eq_nil_iff.mp hfs
      have hjl : j < fs.length := (List.getElem?_eq_some_iff.mp hj).1
      omega
  | cons item ds ih =>
      rcases Fallible.bind_eq_ok.mp h with ⟨W₁, hitem, hrest⟩
      cases item with
      | func fd f =>
          have hk : fs[k]? = some (fd, f) := by
            have := congrArg List.head? hfs
            rwa [List.head?_drop] at this
          have hdrop : fs.drop (k + 1) = declaredFuncs ds := by
            have := congrArg List.tail hfs
            rwa [List.tail_drop] at this
          have htable : (fd.name, funcSym fd f) :: W.funcs = tableAt fs T (k + 1) := by
            rw [hW, tableAt_succ hk]
            rfl
          have hgen : genBody Γ d fd f { W with funcs := (fd.name, funcSym fd f) :: W.funcs } =
              .ok W₁ := hitem
          rw [htable] at hgen
          have hbody := genBody_eq_ok hgen
          rcases hbody with ⟨new, hnew, hfuncs, hstart, honly, hall⟩
          rcases ih hdrop hfuncs hrest with ⟨hstartup, bodies, hbodies, honly', hall'⟩
          refine ⟨?_, new ++ bodies, ?_, ?_, ?_⟩
          · rw [← hstart]
            exact hstartup
          · rw [hbodies, hnew, List.append_assoc]
          · intro b hb
            rcases List.mem_append.mp hb with hb | hb
            · rcases honly b hb with ⟨body, hfb, hname, hF⟩
              exact ⟨k, (fd, f), body, Nat.le_refl k, hk, hfb, hname, hF⟩
            · rcases honly' b hb with ⟨j, p, body, hkj, hrest⟩
              exact ⟨j, p, body, Nat.le_of_succ_le hkj, hrest⟩
          · intro j p body hkj hj hpb
            rcases Nat.lt_or_eq_of_le hkj with hlt | rfl
            · rcases hall' j p body hlt hj hpb with ⟨F, hmem, hF⟩
              exact ⟨F, List.mem_append_right _ hmem, hF⟩
            · rcases Option.some.inj (hk.symm.trans hj) with rfl
              rcases hall body hpb with ⟨F, hmem, hF⟩
              exact ⟨F, List.mem_append_left _ hmem, hF⟩
      | global name init =>
          have hx : appendStartup (genGlobalInit { Γ with funcs := W.funcs } d name init) W =
              .ok W₁ := hitem
          rcases appendStartup_eq_ok hx with ⟨hF, hfuncs, hbodies⟩
          rcases ih hfs (hfuncs.trans hW) hrest with ⟨hstartup, hrest'⟩
          rw [hbodies] at hrest'
          refine ⟨Fallible.bind_eq_ok.mpr ⟨((), W₁.startup), ?_, hstartup⟩, hrest'⟩
          rw [hW] at hF
          exact hF
      | stmt s =>
          have hx : appendStartup (genStmt { Γ with funcs := W.funcs } d startName [] s) W =
              .ok W₁ := hitem
          rcases appendStartup_eq_ok hx with ⟨hF, hfuncs, hbodies⟩
          rcases ih hfs (hfuncs.trans hW) hrest with ⟨hstartup, hrest'⟩
          rw [hbodies] at hrest'
          refine ⟨Fallible.bind_eq_ok.mpr ⟨((), W₁.startup), ?_, hstartup⟩, hrest'⟩
          rw [hW] at hF
          exact hF
      | classDef =>
          rcases Except.ok.inj hitem with rfl
          exact ih hfs hW hrest

end Walk

/-! ## The file -/

/-- The names of the functions of a file, as they are declared. -/
def funcNames (items : List TopItem) : List String := (funcItems items).map (·.name)

/-- What the functions of a file are declared as. -/
def funcDecls (items : List TopItem) : List (Overshadow.Decl String FnTy) :=
  (funcItems items).map declOf

/-- The module of a file: declaration `j` has the `Function*` named `fn j`, and behind the first `k`
declarations code is generated in `env k`. -/
structure Binds (d : Nat) (items : List TopItem) (M : Compiled) (ds : List DeclaredItem)
    (fn : Nat → String) (env : Nat → Env) : Prop where
  /-- declarations share a `Function*` if they share their owner -/
  same : ∀ i j, i < (funcItems items).length → j < (funcItems items).length →
    (fn i = fn j ↔ ownerAt (funcDecls items) i = ownerAt (funcDecls items) j)
  /-- a definition has its `Function*` to itself and the prototypes that stand for it -/
  defined : ∀ i fd, (funcItems items)[i]? = some fd → fd.hasBody = true →
    ∀ j, j < (funcItems items).length → (fn j = fn i ↔ j = i ∨ StandsFor (funcDecls items) j i)
  /-- a name is bound to the last declaration so far, or to the first of all -/
  bound : ∀ k n j fd, InForce (funcNames items) k n j → (funcItems items)[j]? = some fd →
    (env k).findFunc n = some ⟨some (.fn (fn j)), fd.type⟩
  unbound : ∀ k n, n ∉ funcNames items → (env k).findFunc n = none
  /-- a definition is generated where it stands, bound to itself -/
  body : ∀ j fd body, (funcItems items)[j]? = some fd → fd.body = some body →
    ∃ F, (fn j, F) ∈ M.bodies ∧ genFuncBody (env (j + 1)) d ⟨fn j, fd.type, [], body⟩ = .ok F
  /-- there are no other bodies -/
  only : ∀ b ∈ M.bodies, ∃ j fd body, (funcItems items)[j]? = some fd ∧ fd.body = some body ∧
    b.1 = fn j ∧ genFuncBody (env (j + 1)) d ⟨fn j, fd.type, [], body⟩ = .ok b.2
  /-- statements and initialisers are the startup function, in order -/
  startup : ∃ F, startupItems d M.start.name env 0 ds (beginFn startType) = .ok ((), F) ∧
    finishFn M.start.name F = .ok ((), M.startup)

theorem linked_nil (vs : List String) : Linked vs [] {} where
  same := fun i j p q hp _ => by cases hp
  type := fun p hp => absurd hp List.not_mem_nil
  holder := fun _ _ => rfl
  defined := by
    intro s
    constructor
    · intro h
      cases h
    · rintro ⟨p, hp, -⟩
      cases hp
  names := fun n hn => absurd hn List.not_mem_nil
  known := fun p hp => absurd hp List.not_mem_nil

/-- The name of the `Function*` of declaration `j`. -/
def fnNameAt (fs : List (Parser.FuncDecl × Function)) (j : Nat) : String :=
  (fs[j]?.map (·.2.name)).getD ""

section Declared

variable {items : List TopItem} {vs : List String} {fs : List (Parser.FuncDecl × Function)}
  {S : Declaring}

theorem fnNameAt_eq {j : Nat} {p : Parser.FuncDecl × Function} (hp : fs[j]? = some p) :
    fnNameAt fs j = p.2.name := by
  unfold fnNameAt
  rw [hp]
  rfl

theorem getElem?_funcItems (hfst : fs.map Prod.fst = funcItems items) {j : Nat}
    {fd : Parser.FuncDecl} (hj : (funcItems items)[j]? = some fd) :
    ∃ f, fs[j]? = some (fd, f) := by
  rw [← hfst, List.getElem?_map] at hj
  rcases Option.map_eq_some_iff.mp hj with ⟨p, hp, rfl⟩
  exact ⟨p.2, hp⟩

theorem map_declOf (hfst : fs.map Prod.fst = funcItems items) :
    (fs.map fun p => declOf p.1) = funcDecls items := by
  unfold funcDecls
  rw [← hfst, List.map_map]
  rfl

theorem map_entryOf (hfst : fs.map Prod.fst = funcItems items) :
    (fs.map entryOf).map Prod.fst = funcNames items := by
  unfold funcNames
  rw [← hfst, List.map_map, List.map_map]
  rfl

/-- Declarations share a `Function*` if they share their owner. -/
theorem Linked.fnNameAt_iff (h : Linked vs fs S) (hfst : fs.map Prod.fst = funcItems items)
    {i j : Nat} (hi : i < (funcItems items).length) (hj : j < (funcItems items).length) :
    fnNameAt fs i = fnNameAt fs j ↔
      ownerAt (funcDecls items) i = ownerAt (funcDecls items) j := by
  have hlen : fs.length = (funcItems items).length := by
    rw [← hfst, List.length_map]
  have hi' := List.getElem?_eq_getElem (hlen ▸ hi)
  have hj' := List.getElem?_eq_getElem (hlen ▸ hj)
  rw [fnNameAt_eq hi', fnNameAt_eq hj', h.same i j _ _ hi' hj', map_declOf hfst]

/-- A definition has its `Function*` to itself and the prototypes that stand for it. -/
theorem Linked.fnNameAt_defined (h : Linked vs fs S) (hfst : fs.map Prod.fst = funcItems items)
    {i j : Nat} {fd : Parser.FuncDecl} (hi : (funcItems items)[i]? = some fd)
    (hbody : fd.hasBody = true) (hj : j < (funcItems items).length) :
    fnNameAt fs j = fnNameAt fs i ↔ j = i ∨ StandsFor (funcDecls items) j i := by
  have hdecl : (funcDecls items)[i]? = some (declOf fd) := by
    unfold funcDecls
    rw [List.getElem?_map, hi]
    rfl
  have hjlen : j < (funcDecls items).length := by
    unfold funcDecls
    rwa [List.length_map]
  rw [h.fnNameAt_iff hfst hj (List.getElem?_eq_some_iff.mp hi).1]
  exact Overshadow.ownerAt_eq_iff hdecl hbody hjlen

/-- The function that is in force is found. -/
theorem Firsts.findFunc {Γ : Env} (h : Firsts fs S) (hfst : fs.map Prod.fst = funcItems items)
    {k j : Nat} {n : String} {fd : Parser.FuncDecl} (hforce : InForce (funcNames items) k n j)
    (hj : (funcItems items)[j]? = some fd) :
    (envAt Γ fs S.funcs k).findFunc n = some ⟨some (.fn (fnNameAt fs j)), fd.type⟩ := by
  rcases getElem?_funcItems hfst hj with ⟨f, hf⟩
  rw [fnNameAt_eq hf]
  refine Overshadow.lookup_inForce (h n) ((map_entryOf hfst).symm ▸ hforce) ?_
  rw [List.map_map, List.getElem?_map, hf]
  rfl

end Declared

/-- The first pass over a file. -/
theorem Linkable.linked {R : Renaming} {Γ : Env} {items : List TopItem}
    {ds : List DeclaredItem} {S : Declaring} (hl : Linkable items)
    (h : declareItems R Γ items {} = .ok (ds, S)) :
    Linked ((globalItems items).map (·.sym)) (declaredFuncs ds) S ∧ Firsts (declaredFuncs ds) S ∧
      (declaredFuncs ds).map Prod.fst = funcItems items := by
  have hglob : ∀ g ∈ globalItems items, g.sym ∈ (globalItems items).map (·.sym) := fun g hg =>
    List.mem_map.mpr ⟨g, hg, rfl⟩
  have hfunc : ∀ fd ∈ funcItems items,
      '.' ∉ fd.sym.toList ∧ fd.sym ∉ (globalItems items).map (·.sym) := by
    intro fd hfd
    refine ⟨hl.undotted fd hfd, fun hmem => ?_⟩
    rcases List.mem_map.mp hmem with ⟨g, hg, heq⟩
    exact hl.apart fd hfd g hg heq
  have hlinked := declareItems_linked hfunc hglob (linked_nil _) (fun _ => rfl) h
  rwa [List.nil_append] at hlinked

/-- What the file binds, after the first pass. -/
theorem binds_run {R : Renaming} {Γ : Env} {d : Nat} {aot : Bool} {items : List TopItem}
    {M : Compiled} {ds : List DeclaredItem} {S : Declaring} (hl : Linkable items)
    (hds : declareItems R Γ items {} = .ok (ds, S)) (h : run R Γ d aot items = .ok M) :
    Binds d items M ds (fnNameAt (declaredFuncs ds))
      (envAt (S.env Γ) (declaredFuncs ds) S.funcs) := by
  rcases Fallible.bind_eq_ok.mp h with ⟨⟨ds', S'⟩, hds', h⟩
  rcases Prod.mk.inj (Except.ok.inj (hds.symm.trans hds')) with ⟨rfl, rfl⟩
  rcases Fallible.bind_eq_ok.mp h with ⟨W, hwalk, h⟩
  rcases Fallible.bind_eq_ok.mp h with ⟨⟨_, F⟩, hfin, h⟩
  rcases Except.ok.inj h with rfl
  rcases hl.linked hds with ⟨hlink, hfirst, hfst⟩
  have hdrop : (declaredFuncs ds).drop 0 = declaredFuncs ds := rfl
  have hW := walkItems_eq_ok (T := S.funcs) hdrop rfl hwalk
  rcases hW with ⟨hstartup, bodies, hbodies, honly, hall⟩
  constructor
  case same =>
    intro i j hi hj
    exact hlink.fnNameAt_iff hfst hi hj
  case defined =>
    intro i fd hi hbody j hj
    exact hlink.fnNameAt_defined hfst hi hbody hj
  case bound =>
    intro k n j fd hforce hj
    exact hfirst.findFunc hfst hforce hj
  case unbound =>
    intro k n hn
    exact Overshadow.lookup_undeclared (hfirst n) ((map_entryOf hfst).symm ▸ hn)
  case body =>
    intro j fd body hj hbody
    rcases getElem?_funcItems hfst hj with ⟨f, hf⟩
    rcases hall j (fd, f) body (Nat.zero_le j) hf hbody with ⟨F', hmem, hF'⟩
    rw [fnNameAt_eq hf]
    exact ⟨F', hbodies ▸ hmem, hF'⟩
  case only =>
    intro b hb
    rcases honly b (by rw [hbodies] at hb; exact hb) with ⟨j, p, body, _, hp, hbody, hname, hgen⟩
    refine ⟨j, p.1, body, ?_, hbody, ?_, ?_⟩
    · rw [← hfst, List.getElem?_map, hp]
      rfl
    · rw [hname, fnNameAt_eq hp]
    · rw [fnNameAt_eq hp]
      exact hgen
  case startup => exact ⟨W.startup, hstartup, hfin⟩

/-- What `CG::run` makes of the functions of a file. -/
theorem run_binds {R : Renaming} {Γ : Env} {d : Nat} {aot : Bool} {items : List TopItem}
    {M : Compiled} (hl : Linkable items) (h : run R Γ d aot items = .ok M) :
    ∃ ds S, declareItems R Γ items {} = .ok (ds, S) ∧
      ∃ fn env, Binds d items M ds fn env := by
  have hrun := h
  rcases Fallible.bind_eq_ok.mp h with ⟨⟨ds, S⟩, hds, -⟩
  exact ⟨ds, S, hds, _, _, binds_run hl hds hrun⟩

/-- A naming that appends a number of ones. -/
def onesNaming : Renaming where
  rename taken name := name ++ "." ++ String.ofList (List.replicate ((taken.map String.length).sum + 1) '1')
  fresh := by
    intro taken name hmem
    have hle := List.single_le_sum (fun _ _ => Nat.zero_le _) _
      (List.mem_map.mpr ⟨_, hmem, rfl⟩ : _ ∈ taken.map String.length)
    rw [String.length_append, String.length_append, String.length_ofList, String.length_ofList,
      List.length_replicate] at hle
    omega
  dotted := by
    intro taken name
    rw [String.toList_append, String.toList_append]
    exact List.mem_append_left _ (List.mem_append_right _ (List.mem_singleton.mpr rfl))

/-- `I64 F() {return 1;} F; I64 F() {return 2;} F; I64 F(); F;` -/
def twiceDefined : List TopItem :=
  let def? (body : Option (List Stmt)) : TopItem := .func ⟨"F", {}, .i64, [], false, body, {}⟩
  let call : TopItem := .stmt (.expr {} (.ident {} "F"))
  [def? (some [.returnS {} (some (.intLit {} 1))]), call,
    def? (some [.returnS {} (some (.intLit {} 2))]), call, def? none, call]

theorem twiceDefined_binds : ∃ M ds fn env,
    run onesNaming { classFuel := 1 } 4 false twiceDefined = .ok M ∧
      Binds 4 twiceDefined M ds fn env := by
  have hl : Linkable twiceDefined := ⟨by decide, by decide⟩
  have hsome : (run onesNaming { classFuel := 1 } 4 false twiceDefined).toOption.isSome = true := by
    decide +kernel
  rcases Option.isSome_iff_exists.mp hsome with ⟨M, hM⟩
  have hrun := eq_ok_of_isSome hsome M
  rw [hM] at hrun
  rcases run_binds hl hrun with ⟨ds, S, _, fn, env, hb⟩
  exact ⟨M, ds, fn, env, hrun, hb⟩

end Hlang.Codegen
