import Hlang.Codegen.Lowering
import Mathlib.Data.List.Sort

/-!
# Hlang.Codegen.Func — the code of a function

`genFuncBody`: the parameters are stored to their slots, the body is generated, and
`finishFn` ends what is still open. A function for which nothing is reported has a
well-formed control-flow graph (`genFuncBody_wellFormed`).
-/

namespace Hlang.Codegen

open Ir Gen Cg

/-- What code generation uses of a `FuncDecl` with a body. -/
structure FuncDecl where
  /-- the name of the `Function*` -/
  name : String
  type : FuncType
  paramLocs : List SrcLoc := []
  body : List Stmt

section Func

variable (Γ : Env) (d : Nat)

/-- The register of argument `i` of type `t`. -/
def argValue (i : Nat) (t : Ty) : Value := .reg (if t.isF64 then .double else .int 64) i

/-- `beginFn`: the arguments are the first registers. -/
def beginFn (type : FuncType) : FnCtx :=
  { b := { nextReg := type.params.length + if type.variadic then 2 else 0 }
    retIsF64 :=
      match type.ret with
      | .void => .void
      | t => if t.isF64 then .f64 else .int }

/-- The name of a parameter, where it has one. -/
def declareParam (p : FuncParam) (sym : VarSym) (loc : SrcLoc) : Cg Unit :=
  if p.name = "" then pure () else declareLocal p.name sym loc

/-- The slots of the parameters, from argument `i` on. -/
def genFnParams : Nat → List FuncParam → List SrcLoc → Cg Unit
  | _, [], _ => pure ()
  | i, p :: ps, locs => do
      let pt := regSlotType p.type
      let a ← ir (entryAlloca (Γ.memTy pt))
      ir (storeTo Γ a ⟨some (argValue i p.type), if pt.isF64 then .f64 else .i64⟩ pt)
      declareParam p ⟨a, pt⟩ (locs.headD {})
      genFnParams (i + 1) ps locs.tail

/-- A builtin parameter of a variadic function, which is bound unconditionally. -/
def genBuiltinParam (i : Nat) (name : String) (t : Ty) : Cg Unit := do
  let a ← ir (entryAlloca (.int 64))
  ir (emit (.store (.int 64) (argValue i .i64) a))
  modify fun F => { F with localNames := name :: F.localNames }
  bindName name ⟨a, t⟩

/-- `argc` and `argv`. -/
def genVariadic (n : Nat) (variadic : Bool) : Cg Unit :=
  if variadic then do
    genBuiltinParam n "argc" .i64
    genBuiltinParam (n + 1) "argv" (.ptr .i64)
  else pure ()

/-- The value a function returns at its end. -/
def endRet : RetKind → Instr
  | .void => .ret none
  | .f64 => .ret (some (.fp 0))
  | .int => .ret (some (cI64 0))

/-- A label of `finishFn`: one that is not defined is reported, and its block ended. -/
def closeLabel (fnName : String) (l : String × Blk) : Cg Unit := fun F =>
  if l.1 ∈ F.labelsDefined then .ok ((), F)
  else
    let ended := (F.b.log.code l.2).getLast?.any (·.isTerminator)
    let log := if ended then F.b.log else F.b.log ++ [(l.2, endRet F.retIsF64)]
    let errors := F.b.errors ++ [(({} : SrcLoc), "goto to undefined label '" ++ l.1 ++ "' in " ++ fnName)]
    .ok ((), { F with b := { F.b with log := log, errors := errors } })

/-- The loop over the labels, which are ordered by name. -/
def closeLabels (fnName : String) : List (String × Blk) → Cg Unit
  | [] => pure ()
  | l :: ls => do
      closeLabel fnName l
      closeLabels fnName ls

/-- `finishFn`. -/
def finishFn (fnName : String) : Cg Unit := do
  let F ← get
  endOpen F.retIsF64
  closeLabels fnName (F.labels.insertionSort fun l l' => l.1 ≤ l'.1)
where
  /-- the return at the end -/
  endOpen (k : RetKind) : Cg Unit := do
    if !(← hasTerminator) then ir (emit (endRet k))

/-- `genFuncBody`. -/
def genFuncBody (fd : FuncDecl) : Except Stop FnCtx :=
  let gen : Cg Unit := do
    genFnParams Γ 0 fd.type.params fd.paramLocs
    genVariadic fd.type.params.length fd.type.variadic
    genStmts Γ d fd.name [] fd.body
    finishFn fd.name
  (gen (beginFn fd.type)).map Prod.snd

end Func

/-! ## Well-formed control-flow graphs -/

/-- The control-flow graph is well formed. -/
structure FnCtx.WellFormed (F : FnCtx) : Prop where
  /-- instructions are in blocks of the function -/
  own : ∀ e ∈ F.b.log, e.1 < F.b.nextBlk
  /-- every block has one terminator, its last instruction -/
  ended : ∀ b, b < F.b.nextBlk → Ended (F.b.code b)
  /-- branches go to blocks of the function -/
  targets : ∀ e ∈ F.b.log, ∀ t ∈ F.targets e.2, t < F.b.nextBlk
  /-- the entry block has no predecessor -/
  entry : ∀ p, ¬ F.Pred p 0
  /-- a phi has one entry for each predecessor of its block -/
  phis : ∀ b dst inc, (b, .phi dst inc) ∈ F.b.log →
    (inc.map Prod.snd).Nodup ∧ ∀ p, p ∈ inc.map Prod.snd ↔ F.Pred p b

/-- Every chain of comparisons in the function has at least one. -/
structure FuncDecl.Chained (fd : FuncDecl) : Prop where
  type : fd.type.Chained
  body : ∀ s ∈ fd.body, s.Chained

section Lemmas

variable {Γ : Env} {d : Nat} {ps ts : List Blk}

/-- The invariant holds at the beginning of a function. -/
theorem at_beginFn (type : FuncType) : (beginFn type).At [] [] true := by
  refine ⟨[], ?_, fun _ => rfl⟩
  constructor
  case wf => exact ⟨Nat.one_pos, fun _ _ => rfl⟩
  case cur => exact unended_nil
  case ended => exact fun b hb hne => absurd (Nat.lt_one_iff.mp hb) hne
  case pending =>
    rintro b (hb | hb)
    · cases hb
    · cases hb
  case nodup => exact List.nodup_nil
  case names => exact List.nodup_nil
  case defined => exact fun _ h => absurd h List.not_mem_nil
  case target =>
    rintro b (hb | hb)
    · cases hb
    · cases hb
  case edges =>
    rintro p b ⟨i, hi, _⟩
    cases hi
  case phis => exact fun _ _ _ h => absurd h List.not_mem_nil
  case tables => exact fun _ _ _ h => absurd h List.not_mem_nil
  case dests => exact fun _ h => absurd h List.not_mem_nil
  case scopes =>
    intro sc hsc v hv
    rcases List.mem_singleton.mp hsc with rfl
    cases hv
  case live => exact List.not_mem_nil

theorem keeps_genFnParams {params : List FuncParam} (hp : ∀ p ∈ params, p.type.Chained)
    (i : Nat) (locs : List SrcLoc) :
    Keeps (FnCtx.At ps ts true) (genFnParams Γ i params locs) fun _ => FnCtx.At ps ts true := by
  induction params generalizing i locs with
  | nil => exact .pure fun _ => id
  | cons p params ih =>
      unfold genFnParams
      extract_lets pt
      refine .bind (keeps_spec (Silent.entryAlloca _)) fun a => ?_
      refine .bind (keeps_spec (silent_storeTo _ _ _ _)) fun _ => ?_
      refine .bind (Q := fun _ => FnCtx.At ps ts true) ?_ fun _ =>
        ih (fun p hp' => hp p (List.mem_cons_of_mem _ hp')) _ _
      unfold declareParam
      split_ifs
      · exact .pure fun _ => id
      · exact keeps_declareLocal _ ⟨a, pt⟩ _
          (chained_regSlotType (hp p List.mem_cons_self))

theorem keeps_genVariadic (n : Nat) (variadic : Bool) :
    Keeps (FnCtx.At ps ts true) (genVariadic n variadic) fun _ => FnCtx.At ps ts true := by
  have hparam : ∀ i name t, t.Chained → Keeps (FnCtx.At ps ts true) (genBuiltinParam i name t)
      fun _ => FnCtx.At ps ts true := by
    intro i name t ht
    refine .bind (keeps_spec (Silent.entryAlloca _)) fun a => ?_
    refine .bind (keeps_makes (makes_emitStore _ _ _)) fun _ => ?_
    refine .bind (keeps_modify (fun _ => rfl) (fun _ => rfl) (fun _ => rfl) (fun _ => rfl) ?_ ?_) ?_
    · exact fun F h => h
    · exact fun F h => h
    · exact fun _ => keeps_bindName name ht
  unfold genVariadic
  split_ifs
  · exact .bind (hparam _ _ _ chained_i64) fun _ => hparam _ _ _ (.ptr chained_i64)
  · exact .pure fun _ => id

theorem keeps_endOpen (k : RetKind) :
    Keeps (FnCtx.At ps ts true) (finishFn.endOpen k) fun _ => FnCtx.At ps ts false := by
  refine keeps_ifOpen ?_
  cases k with
  | void => exact keeps_ret _
  | f64 => exact keeps_ret _
  | int => exact keeps_ret _

/-- The return at the end only appends to the code. -/
theorem endOpen_labels {k : RetKind} {F F' : FnCtx} {u : Unit} (hF : F.At ps ts true)
    (h : finishFn.endOpen k F = .ok (u, F')) :
    F'.labels = F.labels ∧ F'.labelsDefined = F.labelsDefined := by
  rcases Cg.bind_eq_ok.mp h with ⟨b, F₁, hb, h⟩
  rw [hF.open] at hb
  rcases Prod.mk.inj (Except.ok.inj hb) with ⟨rfl, rfl⟩
  rcases Prod.mk.inj (Except.ok.inj h) with ⟨_, rfl⟩
  exact ⟨rfl, rfl⟩

/-- Where nothing is reported, every label was defined, and nothing is changed. -/
theorem closeLabels_clean (fnName : String) (ls : List (String × Blk)) {F F' : FnCtx} {u : Unit}
    (h : closeLabels fnName ls F = .ok (u, F')) (hok : F'.b.errors = []) :
    F' = F ∧ ∀ l ∈ ls, l.1 ∈ F.labelsDefined := by
  induction ls generalizing F with
  | nil =>
      rcases Prod.mk.inj (Except.ok.inj h) with ⟨_, rfl⟩
      exact ⟨rfl, fun _ h => absurd h List.not_mem_nil⟩
  | cons l ls ih =>
      rcases Cg.bind_eq_ok.mp h with ⟨_, F₁, hl, hls⟩
      rcases ih hls with ⟨rfl, hdef⟩
      unfold closeLabel at hl
      split_ifs at hl with hD
      · rcases Prod.mk.inj (Except.ok.inj hl) with ⟨_, rfl⟩
        refine ⟨rfl, ?_⟩
        intro l' hl'
        rcases List.mem_cons.mp hl' with rfl | hl'
        · exact hD
        · exact hdef l' hl'
      · rcases Prod.mk.inj (Except.ok.inj hl) with ⟨_, rfl⟩
        exact absurd (List.append_eq_nil_iff.mp hok).2 (List.cons_ne_nil _ _)

/-- A function without pending blocks and with its last block ended is well formed. -/
theorem FnCtx.Good.wellFormed {F : FnCtx} (h : F.Good [] [] false)
    (hlabels : F.undefinedLabels = []) : F.WellFormed where
  own := fun _ he => lt_of_mem h.wf he
  ended := by
    intro b hb
    by_cases hcur : b = F.b.cur
    · rw [hcur]
      exact h.cur
    · exact h.ended b hb hcur List.not_mem_nil (hlabels ▸ List.not_mem_nil)
  targets := fun e he t ht => (h.edges e.1 t ⟨e.2, he, ht⟩).2
  entry := fun p hp => absurd (h.edges p 0 hp).1 (Nat.lt_irrefl 0)
  phis := h.phis

theorem exists_of_map_ok {α β ε : Type} {f : α → β} {x : Except ε α} {b : β}
    (h : x.map f = .ok b) : ∃ a, x = .ok a ∧ f a = b := by
  cases x with
  | error e => cases h
  | ok a => exact ⟨a, rfl, Except.ok.inj h⟩

/-- The run of the generator: the invariant holds where the body ends. -/
theorem genFuncBody_end {fd : FuncDecl} {F : FnCtx}
    (hΓ : ({ Γ with scopes := [] } : Env).Chained) (hfd : fd.Chained)
    (h : genFuncBody Γ d fd = .ok F) : ∃ F₁ F₂, F₁.At [] [] true ∧
      finishFn.endOpen F₁.retIsF64 F₁ = .ok ((), F₂) ∧
      closeLabels fd.name (F₁.labels.insertionSort fun l l' => l.1 ≤ l'.1) F₂ = .ok ((), F) := by
  unfold genFuncBody at h
  rcases exists_of_map_ok h with ⟨⟨u, F'⟩, hgen, rfl⟩
  rcases Cg.bind_eq_ok.mp hgen with ⟨_, F₁, hparams, hgen⟩
  rcases Cg.bind_eq_ok.mp hgen with ⟨_, F₂, hvariadic, hgen⟩
  rcases Cg.bind_eq_ok.mp hgen with ⟨_, F₃, hbody, hfinish⟩
  have hat₁ := keeps_genFnParams hfd.type.params _ _ _ (at_beginFn fd.type) _ _ hparams
  have hat₂ := keeps_genVariadic _ _ _ hat₁ _ _ hvariadic
  have hat₃ := keeps_genStmts hΓ fd.name fd.body [] [] hfd.body (fun _ h => absurd h List.not_mem_nil)
    [] [] (List.Subset.refl _) _ hat₂ _ _ hbody
  rcases Cg.bind_eq_ok.mp hfinish with ⟨_, F₄, hget, hfinish⟩
  rcases Prod.mk.inj (Except.ok.inj hget) with ⟨rfl, rfl⟩
  rcases Cg.bind_eq_ok.mp hfinish with ⟨_, F₅, hend, hclose⟩
  exact ⟨F₃, F₅, hat₃, hend, hclose⟩

/-- A function for which nothing is reported has a well-formed control-flow graph. -/
theorem genFuncBody_wellFormed {fd : FuncDecl} {F : FnCtx}
    (hΓ : ({ Γ with scopes := [] } : Env).Chained) (hfd : fd.Chained)
    (h : genFuncBody Γ d fd = .ok F) (hok : F.b.errors = []) : F.WellFormed := by
  rcases genFuncBody_end hΓ hfd h with ⟨F₃, F₅, hat₃, hend, hclose⟩
  rcases keeps_endOpen _ _ hat₃ _ _ hend with ⟨stray, hgood, hstray⟩
  rcases endOpen_labels hat₃ hend with ⟨hlabels, hdefined⟩
  rcases closeLabels_clean fd.name _ hclose hok with ⟨rfl, hdef⟩
  rw [hstray hok] at hgood
  refine hgood.wellFormed ?_
  -- every label was placed
  unfold FnCtx.undefinedLabels
  rw [hlabels, hdefined, List.filter_eq_nil_iff.mpr]
  · rfl
  · intro l hl
    have hmem := hdef l ((List.mem_insertionSort _).mpr hl)
    rw [hdefined] at hmem
    simpa using hmem

/-- Without globals, functions and classes there is nothing to ask for. -/
theorem chained_noNames (n : Nat) : ({ classFuel := n } : Env).Chained where
  var := fun _ _ h => nomatch h
  func := fun _ _ h => nomatch h
  member := fun _ _ h => absurd h List.not_mem_nil
  whole := fun _ _ h => nomatch h

/-- `I64 F(I64 x) { while (x && 1<x<9) { if (x) break; else goto out; } out: return x; }` -/
def loopFunc : FuncDecl where
  name := "F"
  type := ⟨.i64, [.mk "x" .i64 none false], false⟩
  body := [
    .whileS {} (.binary {} .andAnd (.ident {} "x")
        (.chainCmp {} (.intLit {} 1) [(.lt, .ident {} "x"), (.lt, .intLit {} 9)]))
      (.block {} [.ifS {} (.ident {} "x") (.breakS {}) (some (.gotoS {} "out"))]),
    .labelS {} "out",
    .returnS {} (some (.ident {} "x"))]

theorem loopFunc_chained : loopFunc.Chained where
  type := by
    refine ⟨chained_i64, ?_, ?_⟩
    · intro p hp
      rcases List.mem_singleton.mp hp with rfl
      exact chained_i64
    · intro p hp e he
      rcases List.mem_singleton.mp hp with rfl
      cases he
  body := by
    have hx : (Expr.ident {} "x").Chained := .ident _ _
    have hcond : (Expr.binary {} .andAnd (.ident {} "x")
        (.chainCmp {} (.intLit {} 1) [(.lt, .ident {} "x"), (.lt, .intLit {} 9)])).Chained := by
      refine .binary hx (.chainCmp (.intLit _ _) (List.cons_ne_nil _ _) ?_)
      intro e he
      rcases List.mem_cons.mp he with rfl | he
      · exact hx
      · rcases List.mem_singleton.mp he with rfl
        exact .intLit _ _
    intro s hs
    rcases List.mem_cons.mp hs with rfl | hs
    · refine .whileS hcond (.block ?_)
      intro s hs
      rcases List.mem_singleton.mp hs with rfl
      refine .ifS hx (.breakS _) ?_
      intro s hs
      rcases Option.some.inj hs with rfl
      exact .gotoS _ _
    · rcases List.mem_cons.mp hs with rfl | hs
      · exact .labelS _ _
      · rcases List.mem_singleton.mp hs with rfl
        refine .returnS ?_
        intro e he
        rcases Option.some.inj he with rfl
        exact hx

/-- The code generated for it. -/
def loopCtx : FnCtx := ((genFuncBody { classFuel := 1 } 5 loopFunc).toOption).getD {}

theorem eq_ok_of_isSome {α ε : Type} {x : Except ε α} (h : x.toOption.isSome = true) (a : α) :
    x = .ok (x.toOption.getD a) := by
  cases x with
  | error e => cases h
  | ok b => rfl

theorem genFuncBody_wellFormed_loop : loopCtx.b.errors = [] ∧ loopCtx.WellFormed := by
  have hsome : (genFuncBody { classFuel := 1 } 5 loopFunc).toOption.isSome = true := by
    decide +kernel
  have hgen : genFuncBody { classFuel := 1 } 5 loopFunc = .ok loopCtx := by
    rw [loopCtx]
    exact eq_ok_of_isSome hsome _
  have hok : loopCtx.b.errors = [] := List.isEmpty_iff.mp (by decide +kernel)
  exact ⟨hok, genFuncBody_wellFormed (chained_noNames 1) loopFunc_chained hgen hok⟩

end Lemmas

end Hlang.Codegen
