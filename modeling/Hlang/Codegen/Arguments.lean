import Hlang.Parser.CallArgs
import Hlang.Codegen.Supplies

/-!
# Hlang.Codegen.Arguments — what a call passes

A `Meaning` says of an expression what its code does, and `Passed` what is passed in one position
of a call. `params` and `extras` match the slots of an argument list with the parameters of a
function type, and `runAll` evaluates what is passed from left to right. The code of `genCallTo`
passes just that, and reports just what is wrong with the slots.
-/

namespace Hlang.Codegen

open Ir Gen Machine

/-- What an expression means: the type of its value and the LLVM type, if it has a value, the
diagnostics, and from what is seen the value and what is seen next. -/
structure Meaning where
  type : Ty
  lty : Option LTy
  reports : List (SrcLoc × String) := []
  run : St → Option (Option Val × St)

/-- The code that `x` generates does what `M` says. -/
def Meaning.Of (O : Oracle) (M : Meaning) (x : Gen RV) : Prop :=
  ∀ B, Supplies O B [] x (fun rv => rv.v.toList)
    (fun rv => rv.t = M.type ∧ rv.v.map Value.type = M.lty) M.reports
    fun _ st => (M.run st).map fun y => (y.1.toList, y.2)

/-- A value of type `t` passed as an `F64`; nothing is passed as 0. -/
def castF64 (t : Ty) : Option LTy → Option Val → Option Val
  | none, _ => some (.fp 0)
  | some .double, x => x
  | some _, x => (x.bind Val.int?).map fun i => .fp (asFp t (.int i))

/-- A value passed as an `I64`: a double is truncated. -/
def castI64 : Option LTy → Option Val → Option Val
  | none, _ => some (.int 0)
  | some .double, x => ((x.bind Val.fp?).bind toI64?).map .int
  | some _, x => (x.bind Val.int?).map .int

/-- A value passed in a slot of `argv`: of a double, the bits. -/
def castSlot (W : World) : Option LTy → Option Val → Option Val
  | some .double, x => (x.bind Val.fp?).map fun q => .int (W.f64Bits q)
  | ty, x => castI64 ty x

/-! ## Conversions -/

section Casts

variable {O : Oracle} {B : Builder} {rv : RV} {ty : LTy}

theorem head?_map_eval (rv : RV) (ρ : Regs) :
    (rv.v.toList.map (·.eval O.world ρ)).head? = rv.v.map (·.eval O.world ρ) := by
  cases rv.v <;> rfl

theorem int?_eval {W : World} {ρ : Regs} {v : Value} {i : I64} (h : (v.eval W ρ).int? = some i) :
    v.eval W ρ = .int i := by
  cases hv : v.eval W ρ with
  | int j =>
      rw [hv] at h
      rw [Option.some.inj h]
  | fp q =>
      rw [hv] at h
      cases h

theorem fp?_eval {W : World} {ρ : Regs} {v : Value} {q : ℚ} (h : (v.eval W ρ).fp? = some q) :
    v.eval W ρ = .fp q := by
  cases hv : v.eval W ρ with
  | int j =>
      rw [hv] at h
      cases h
  | fp q' =>
      rw [hv] at h
      rw [Option.some.inj h]

/-- A value that is passed as it is. -/
theorem supplies_same (v : Value) : Supplies O B [v] (pure v) (fun w => [w]) (fun _ => True) []
    fun xs st => some (xs, st) :=
  Supplies.pure trivial (fun _ h => h) fun _ => rfl

/-- An instruction that takes an integer. -/
theorem supplies_int {o : Value → Op} {F : I64 → Val}
    (ho : ∀ W ρ m v i, v.evalInt W ρ = some i → (o v).eval W ρ m = some (F i)) (v : Value) :
    Supplies O B [v] (create (o v)) (fun w => [w]) (fun _ => True) []
      fun xs st => ((xs.head?.bind Val.int?).map F).map fun y => ([y], st) := by
  refine (Supplies.create ?_).weaken fun _ _ => trivial
  intro es ρ m y hy
  rcases Option.map_eq_some_iff.mp hy with ⟨i, hi, rfl⟩
  exact ho _ _ _ _ _ ((O.evalInt_seen es ρ v).trans hi)

/-- An instruction that takes a double. -/
theorem supplies_fp {o : Value → Op} {F : ℚ → Option Val}
    (ho : ∀ es ρ m v q, v.eval O.world ρ = .fp q → (o v).eval (O.seen es) ρ m = F q) (v : Value) :
    Supplies O B [v] (create (o v)) (fun w => [w]) (fun _ => True) []
      fun xs st => ((xs.head?.bind Val.fp?).bind F).map fun y => ([y], st) := by
  refine (Supplies.create ?_).weaken fun _ _ => trivial
  intro es ρ m y hy
  rcases Option.bind_eq_some_iff.mp hy with ⟨q, hq, hF⟩
  exact (ho es ρ m v q (fp?_eval hq)).trans hF

/-- `ptrToI64`. -/
theorem supplies_ptrToI64 (v : Value) :
    Supplies O B [v] (ptrToI64 v) (fun w => [w]) (fun _ => True) []
      fun xs st => ((xs.head?.bind Val.int?).map .int).map fun y => ([y], st) := by
  unfold ptrToI64
  split
  · refine supplies_int (o := .ptrtoint) ?_ v
    intro W ρ m v i hi
    change (v.evalInt W ρ).bind _ = _
    rw [hi]
    rfl
  · refine (supplies_same v).congr ?_
    intro ρ st z hz
    rcases Option.map_eq_some_iff.mp hz with ⟨y, hy, rfl⟩
    rcases Option.map_eq_some_iff.mp hy with ⟨i, hi, rfl⟩
    change some ([v.eval O.world ρ], st) = _
    rw [int?_eval hi]

theorem castF64_other (t : Ty) (h : ty ≠ .double) (x : Option Val) :
    castF64 t (some ty) x = (x.bind Val.int?).map fun i => .fp (asFp t (.int i)) := by
  unfold castF64
  split
  · next heq => cases heq
  · next heq => exact absurd (Option.some.inj heq) h
  · rfl

theorem castI64_other (h : ty ≠ .double) (x : Option Val) :
    castI64 (some ty) x = (x.bind Val.int?).map .int := by
  unfold castI64
  split
  · next heq => cases heq
  · next heq => exact absurd (Option.some.inj heq) h
  · rfl

/-- The instruction from an integer of type `t` to a double. -/
theorem supplies_toDouble (t : Ty) (v : Value) :
    Supplies O B [v] (match t with
      | .int 8 true => create (.uitofp v)
      | _ => create (.sitofp v)) (fun w => [w]) (fun _ => True) []
      fun xs st => ((xs.head?.bind Val.int?).map fun i => .fp (asFp t (.int i))).map
        fun y => ([y], st) := by
  split
  · refine supplies_int (o := .uitofp) ?_ v
    intro W ρ m v i hi
    change (v.evalInt W ρ).bind _ = _
    rw [hi]
    rfl
  · next hne =>
      refine supplies_int (o := .sitofp) ?_ v
      intro W ρ m v i hi
      change (v.evalInt W ρ).bind _ = _
      have hfp : asFp t (.int i) = i.toInt := by simp only [asFp]
      rw [hi, hfp]
      rfl

/-- `convert` to `F64`. -/
theorem supplies_convertF64 (rv : RV) :
    Supplies O B rv.v.toList (convert rv .f64) (fun w => [w]) (fun _ => True) []
      fun xs st => (castF64 rv.t (rv.v.map Value.type) xs.head?).map fun y => ([y], st) := by
  rcases rv with ⟨v, t⟩
  cases v with
  | none => exact .pure trivial (fun n _ w hw => List.mem_singleton.mp hw ▸ trivial) fun _ => rfl
  | some v =>
      unfold convert
      change Supplies O B [v] (if v.type = .double then pure v else _) _ _ _ _
      split
      · next hv =>
          refine (supplies_same v).congr ?_
          intro ρ st z hz
          change (castF64 t (some v.type) _).map _ = _ at hz
          rw [hv] at hz
          exact hz
      · next hv =>
          refine ((supplies_ptrToI64 v).bind fun w B' _ _ => (supplies_toDouble t w).using
            (g := List.tail) (fun _ h u hu => h u (List.mem_append_right _ hu)) fun _ => rfl).congr ?_
          intro ρ st z hz
          change (castF64 t (some v.type) (some (v.eval O.world ρ))).map _ = _ at hz
          rw [castF64_other t hv] at hz
          rcases Option.map_eq_some_iff.mp hz with ⟨y, hy, rfl⟩
          rcases Option.map_eq_some_iff.mp hy with ⟨i, hi, rfl⟩
          have hi : (v.eval O.world ρ).int? = some i := hi
          change (((v.eval O.world ρ).int?.map _).map _).bind _ = _
          rw [hi]
          rfl

/-- `convert` to `I64`, where no narrow type normalises. -/
theorem supplies_convertI64 (rv : RV) :
    Supplies O B rv.v.toList (convert rv .i64 false) (fun w => [w]) (fun _ => True) []
      fun xs st => (castI64 (rv.v.map Value.type) xs.head?).map fun y => ([y], st) := by
  rcases rv with ⟨v, t⟩
  cases v with
  | none => exact .pure trivial (fun n _ w hw => List.mem_singleton.mp hw ▸ trivial) fun _ => rfl
  | some v =>
      have hconvert : convert ⟨some v, t⟩ .i64 false =
          if v.type = .double then create (.fptosi v) else ptrToI64 v := by
        change (if v.type = .double then create (.fptosi v) >>= pure else ptrToI64 v >>= pure) = _
        rw [bind_pure, bind_pure]
      rw [hconvert]
      split
      · next hv =>
          refine (supplies_fp (o := .fptosi) (F := fun q => (toI64? q).map .int) ?_ v).congr ?_
          · intro es ρ m w q hw
            have hw : w.evalFp (O.seen es) ρ = some q := by
              unfold Value.evalFp
              rw [O.eval_seen, hw]
              rfl
            change (w.evalFp (O.seen es) ρ).bind _ = _
            rw [hw]
            exact (Option.map_eq_bind ..).symm
          · intro ρ st z hz
            change (castI64 (some v.type) (some (v.eval O.world ρ))).map _ = _ at hz
            rw [hv] at hz
            change (((v.eval O.world ρ).fp?.bind toI64?).map Val.int).map _ = _ at hz
            rw [Option.map_bind] at hz
            exact hz
      · next hv =>
          refine (supplies_ptrToI64 v).congr ?_
          intro ρ st z hz
          change (castI64 (some v.type) (some (v.eval O.world ρ))).map _ = _ at hz
          rw [castI64_other hv] at hz
          exact hz

/-- What `genExtra` does with the value of an argument. -/
def convertSlot (rv : RV) : Gen Value :=
  match rv.v with
  | some v => if v.type = .double then create (.bitcast v) else convert rv .i64 false
  | none => convert rv .i64 false

theorem supplies_convertSlot (rv : RV) :
    Supplies O B rv.v.toList (convertSlot rv) (fun w => [w]) (fun _ => True) []
      fun xs st => (castSlot O.world (rv.v.map Value.type) xs.head?).map fun y => ([y], st) := by
  rcases rv with ⟨v, t⟩
  cases v with
  | none => exact supplies_convertI64 ⟨none, t⟩
  | some v =>
      change Supplies O B [v] (if v.type = .double then _ else _) _ _ _ _
      split
      · next hv =>
          refine (supplies_fp (o := .bitcast) (F := fun q => some (.int (O.world.f64Bits q)))
            ?_ v).congr ?_
          · intro es ρ m w q hw
            have hw : w.evalFp (O.seen es) ρ = some q := by
              unfold Value.evalFp
              rw [O.eval_seen, hw]
              rfl
            change (w.evalFp (O.seen es) ρ).bind _ = _
            rw [hw]
            rfl
          · intro ρ st z hz
            change (castSlot O.world (some v.type) (some (v.eval O.world ρ))).map _ = _ at hz
            rw [hv] at hz
            change ((v.eval O.world ρ).fp?.map _).map _ = _ at hz
            rcases Option.map_eq_some_iff.mp hz with ⟨y, hy, rfl⟩
            rcases Option.map_eq_some_iff.mp hy with ⟨q, hq, rfl⟩
            change ((v.eval O.world ρ).fp?.bind _).map _ = _
            rw [hq]
            rfl
      · next hv =>
          refine (supplies_convertI64 ⟨some v, t⟩).congr ?_
          intro ρ st z hz
          have hslot : castSlot O.world (some v.type) (some (v.eval O.world ρ)) =
              castI64 (some v.type) (some (v.eval O.world ρ)) := by
            unfold castSlot
            split
            · next h => exact absurd (Option.some.inj h) hv
            · rfl
          change (castSlot O.world (some v.type) (some (v.eval O.world ρ))).map _ = _ at hz
          rw [hslot] at hz
          exact hz

end Casts

/-! ## Matching -/

/-- What is passed in one position: the diagnostics of the call itself, those of the expression,
and the value. -/
structure Passed where
  own : List (SrcLoc × String) := []
  reports : List (SrcLoc × String) := []
  run : St → Option (Val × St)

/-- The value for a parameter of type `ty`. -/
def Meaning.castParam (M : Meaning) (ty : Ty) (x : Option Val) : Option Val :=
  if ty.isF64 then castF64 M.type M.lty x else castI64 M.lty x

/-- Passed for a parameter of type `ty`. -/
def Meaning.asParam (M : Meaning) (ty : Ty) : Passed where
  reports := M.reports
  run st := (M.run st).bind fun y => (M.castParam ty y.1).map fun x => (x, y.2)

/-- Passed in a slot of `argv`. -/
def Meaning.asExtra (W : World) (M : Meaning) : Passed where
  reports := M.reports
  run st := (M.run st).bind fun y => (castSlot W M.lty y.1).map fun x => (x, y.2)

/-- What stands where there is neither an argument nor a default. -/
def Meaning.zero : Meaning where
  type := .i64
  lty := some (.int 64)
  run st := some (some (.int 0), st)

/-- The default `lastclass`. -/
def Meaning.lastClass (W : World) (name : String) : Meaning where
  type := .ptr .u8
  lty := some (.int 64)
  run st := some (some (.int (W.strAddr name)), st)

section Matching

variable (W : World) (Γ : Env) (n : Node) (M D : Expr → Meaning)

/-- What stands for the parameter `p`: the argument, where one is written, or the default. -/
def standsFor (p : FuncParam) (arg : Arg) (prev : Option Ty) : Meaning :=
  match arg with
  | some e => M e
  | none =>
      if p.dfltIsLastClass then .lastClass W (Γ.classNameOf (prev.getD .i64))
      else
        match p.dflt with
        | some e => D e
        | none => .zero

/-- The type `lastclass` stands for behind the parameter `p`. -/
def lastType (p : FuncParam) (arg : Arg) (prev : Option Ty) : Option Ty :=
  match arg with
  | some e => Γ.typeOf e
  | none => some (standsFor W Γ M D p none prev).type

/-- The parameter `p` has no default. -/
def required (p : FuncParam) : Bool := !p.dfltIsLastClass && p.dflt.isNone

/-- What is passed for parameter `i`. -/
def passParam (i : Nat) (p : FuncParam) (arg : Arg) (prev : Option Ty) : Passed :=
  { (standsFor W Γ M D p arg prev).asParam p.type with
    own := if required p && arg.isNone then
        [(n.loc, "missing argument " ++ toString (i + 1) ++
          (if p.name = "" then "" else " ('" ++ p.name ++ "')") ++ " and no default value")]
      else [] }

/-- What is passed for the parameters from `i` on. -/
def passParams : Nat → List FuncParam → List Arg → Option Ty → List Passed
  | _, [], _, _ => []
  | i, p :: ps, args, prev =>
      passParam W Γ n M D i p (args.head?.getD none) prev ::
        passParams (i + 1) ps args.tail (lastType W Γ M D p (args.head?.getD none) prev)

/-- What is passed in a slot of `argv`. -/
def passExtra : Arg → Passed
  | some e => (M e).asExtra W
  | none =>
      { own := [(n.loc, "missing variadic argument has no default")]
        run := fun st => some (.int 0, st) }

end Matching

/-- From left to right, each once. -/
def runAll : List Passed → St → Option (List Val × St)
  | [], st => some ([], st)
  | a :: as, st =>
      (a.run st).bind fun y => (runAll as y.2).map fun z => (y.1 :: z.1, z.2)

/-- The diagnostics, from left to right. -/
def reportAll (as : List Passed) : List (SrcLoc × String) := as.flatMap fun a => a.own ++ a.reports

/-! ## The code -/

section Code

variable {O : Oracle} {Γ : Env} {R : Rec} {cs : List Nat} {n : Node} {M D : Expr → Meaning}
  {B : Builder}

/-- The code of a meaning, and then what uses its value. -/
theorem Meaning.Of.bind {β : Type} {N : Meaning} {x : Gen RV} {y : RV → Gen β}
    {us : β → List Value} {ok : β → Prop} {F : Option Val → Option (List Val)} (hN : N.Of O x)
    (hy : ∀ rv B, rv.t = N.type → rv.v.map Value.type = N.lty →
      Supplies O B rv.v.toList (y rv) us ok [] fun xs st => (F xs.head?).map fun zs => (zs, st)) :
    Supplies O B [] (x >>= y) us ok N.reports fun _ st =>
      (N.run st).bind fun z => (F z.1).map fun zs => (zs, z.2) := by
  have hbind := (hN B).bind fun rv B' _ hrv => hy rv B' hrv.1 hrv.2
  rw [List.append_nil] at hbind
  refine hbind.congr ?_
  intro ρ st z hz
  rcases Option.bind_eq_some_iff.mp hz with ⟨⟨v, st'⟩, hv, hz⟩
  rw [hv]
  change (F v.toList.head?).map _ = _
  cases v <;> exact hz

/-- The value of a parameter, with the type for `lastclass`. -/
def convertParam (ty : Ty) (rv : RV) (t : Ty) : Gen (Value × Ty) :=
  if ty.isF64 then convert rv .f64 >>= fun v => pure (v, t)
  else convert rv .i64 false >>= fun v => pure (v, t)

/-- What `genParam` does with the value of an argument or a default. -/
theorem supplies_convertParam {N : Meaning} {rv : RV} (ht : rv.t = N.type)
    (hv : rv.v.map Value.type = N.lty) (ty t : Ty) :
    Supplies O B rv.v.toList (convertParam ty rv t) (fun vt => [vt.1]) (fun vt => vt.2 = t) []
      fun xs st => ((N.castParam ty xs.head?).map fun x => [x]).map fun zs => (zs, st) := by
  unfold convertParam Meaning.castParam
  rw [← ht, ← hv]
  split
  · refine ((supplies_convertF64 rv).wrap (g := fun v => (v, t)) (fun _ _ => rfl) fun _ _ => rfl).congr
      ?_
    intro ρ st z hz
    rw [Option.map_map] at hz
    exact hz
  · refine ((supplies_convertI64 rv).wrap (g := fun v => (v, t)) (fun _ _ => rfl) fun _ _ => rfl).congr
      ?_
    intro ρ st z hz
    rw [Option.map_map] at hz
    exact hz

/-- An argument or a default, and its conversion. -/
theorem Meaning.Of.param {N : Meaning} {x : Gen RV} (hN : N.Of O x) (ty : Ty) {t : RV → Ty} {u : Ty}
    (ht : ∀ rv, rv.t = N.type → t rv = u) :
    Supplies O B [] (x >>= fun rv => convertParam ty rv (t rv)) (fun vt => [vt.1])
      (fun vt => vt.2 = u) (N.asParam ty).reports
      fun _ st => ((N.asParam ty).run st).map fun y => ([y.1], y.2) := by
  refine (hN.bind (F := fun v => (N.castParam ty v).map fun x => [x]) ?_).congr ?_
  · intro rv B htype hv
    rw [ht rv htype]
    exact supplies_convertParam htype hv ty u
  · intro ρ st z hz
    change ((N.run st).bind _).map _ = _ at hz
    rw [Option.map_bind] at hz
    rcases Option.bind_eq_some_iff.mp hz with ⟨y, hy, hz⟩
    rw [hy]
    change ((N.castParam ty y.1).map _).map _ = _ at hz
    change ((N.castParam ty y.1).map _).map _ = _
    rw [Option.map_map] at hz ⊢
    exact hz

/-- The code of a string. -/
theorem of_strRV (s : String) : (Meaning.lastClass O.world s).Of O (strRV s) := by
  intro B
  have hcreate : Supplies O B [] (create (.ptrtoint (.str s))) (fun w => [w])
      (fun w => w.type = .int 64) [] fun _ st => some ([.int (O.world.strAddr s)], st) := by
    have hptr : Supplies O B [] (create (.ptrtoint (.str s))) (fun w => [w])
        (fun w => ∃ r, w = .reg (.int 64) r) [] fun _ st => some ([.int (O.world.strAddr s)], st) := by
      refine Supplies.create (g := fun _ => some (.int (O.world.strAddr s))) ?_
      intro es ρ m y hy
      rcases Option.some.inj hy with rfl
      rfl
    refine hptr.weaken ?_
    rintro w ⟨r, rfl⟩
    rfl
  refine hcreate.wrap (g := fun v => (⟨some v, .ptr .u8⟩ : RV)) (fun _ _ => rfl) ?_
  intro v hv
  exact ⟨rfl, congrArg some hv⟩

theorem of_zero : Meaning.zero.Of O (pure RV.zero) := by
  intro B
  refine Supplies.pure (g := fun _ => [.int 0]) ⟨rfl, rfl⟩ ?_ fun _ => rfl
  intro k _ w hw
  rcases List.mem_singleton.mp hw with rfl
  exact trivial

/-- One turn of the loop over the parameters. -/
theorem supplies_genParam (i : Nat) {p : FuncParam} {arg : Arg} {prev : Option Ty}
    (hM : ∀ e, arg = some e → (M e).Of O (R.genExpr cs e) ∧ ∃ t, Γ.typeOf e = some t)
    (hD : ∀ e, p.dflt = some e → (D e).Of O (R.genExpr (n.addr :: cs) e)) :
    Supplies O B [] (genParam Γ R cs n i p arg prev) (fun vt => [vt.1])
      (fun vt => some vt.2 = lastType O.world Γ M D p arg prev)
      ((passParam O.world Γ n M D i p arg prev).own ++
        (passParam O.world Γ n M D i p arg prev).reports)
      fun _ st => ((passParam O.world Γ n M D i p arg prev).run st).map fun y => ([y.1], y.2) := by
  unfold passParam lastType standsFor required
  cases arg with
  | some e =>
      rcases hM e rfl with ⟨hof, t, ht⟩
      have hcode : genParam Γ R cs n i p (some e) prev =
          R.genExpr cs e >>= fun rv => convertParam p.type rv t := by
        unfold genParam
        change (R.genExpr cs e >>= fun rv => ofOption (Γ.typeOf e) >>= _) = _
        rw [ht]
        rfl
      rw [hcode, Option.isNone_some, Bool.and_false, if_neg Bool.false_ne_true]
      exact (hof.param p.type fun _ _ => rfl).weaken fun vt hvt => (congrArg some hvt).trans ht.symm
  | none =>
      have hnext : ∀ {N : Meaning} {x : Gen RV} {B : Builder}, N.Of O x → Supplies O B []
          (x >>= fun rv => convertParam p.type rv rv.t) (fun vt => [vt.1])
          (fun vt => some vt.2 = some N.type) (N.asParam p.type).reports
          fun _ st => ((N.asParam p.type).run st).map fun y => ([y.1], y.2) := by
        intro N x B hN
        exact (hN.param p.type fun _ h => h).weaken fun vt hvt => congrArg some hvt
      rw [Option.isNone_none, Bool.and_true]
      unfold genParam
      cases hlast : p.dfltIsLastClass with
      | true => exact hnext (of_strRV _)
      | false =>
          cases hdflt : p.dflt with
          | some e => exact hnext (hD e hdflt)
          | none =>
              refine ((Supplies.error n.loc _).bind fun _ B' _ _ => hnext of_zero).congr ?_
              exact fun _ _ _ h => h

/-- A value, and then the list of those behind it. -/
theorem Supplies.cons {α : Type} {x : Gen α} {v : α → Value} {xs : α → Gen (List Value)}
    {ok : α → Prop} {rs rs' : List (SrcLoc × String)} {f : St → Option (Val × St)}
    {g : St → Option (List Val × St)}
    (hx : Supplies O B [] x (fun a => [v a]) ok rs fun _ st => (f st).map fun y => ([y.1], y.2))
    (hxs : ∀ a B', ok a → Supplies O B' [] (xs a) id (fun _ => True) rs' fun _ st => g st) :
    Supplies O B [] (x >>= fun a => xs a >>= fun vs => Pure.pure (v a :: vs)) id (fun _ => True)
      (rs ++ rs') fun _ st => (f st).bind fun y => (g y.2).map fun z => (y.1 :: z.1, z.2) := by
  -- the value is still known where the list is built
  have hlist : ∀ a B', ok a → Supplies O B' [v a] (xs a >>= fun vs => Pure.pure (v a :: vs)) id
      (fun _ => True) rs' fun us st => (g st).map fun z => (us ++ z.1, z.2) := by
    intro a B' ha
    have hpure : ∀ vs B'', Supplies O B'' ([v a] ++ vs) (Pure.pure (v a :: vs)) id (fun _ => True) []
        fun us st => some (us, st) :=
      fun vs B'' => .pure trivial (fun _ h => h) fun _ => rfl
    have hframe : Supplies O B' [v a] (xs a) id (fun _ => True) rs' fun _ st => g st :=
      (hxs a B' ha).frame
    have hbind := hframe.bind fun vs B'' _ _ => hpure vs B''
    rw [List.append_nil] at hbind
    refine hbind.congr ?_
    intro ρ st z hz
    rw [Option.map_eq_bind] at hz
    exact hz
  refine (hx.bind fun a B' _ ha => hlist a B' ha).congr ?_
  intro ρ st z hz
  rcases Option.bind_eq_some_iff.mp hz with ⟨y, hy, hz⟩
  rw [hy]
  exact hz

/-- The loop over the parameters. -/
theorem supplies_genParams : ∀ {ps : List FuncParam} {args : List Arg} (i : Nat) (prev : Option Ty)
    (B : Builder),
    (∀ e, some e ∈ args → (M e).Of O (R.genExpr cs e) ∧ ∃ t, Γ.typeOf e = some t) →
    (∀ p ∈ ps, ∀ e, p.dflt = some e → (D e).Of O (R.genExpr (n.addr :: cs) e)) →
    Supplies O B [] (genParams Γ R cs n i ps args prev) id (fun _ => True)
      (reportAll (passParams O.world Γ n M D i ps args prev))
      fun _ st => runAll (passParams O.world Γ n M D i ps args prev) st := by
  intro ps
  induction ps with
  | nil =>
      intro args i prev B _ _
      exact .pure (g := id) trivial (fun _ _ w hw => absurd hw List.not_mem_nil) fun _ => rfl
  | cons p ps ih =>
      intro args i prev B hM hD
      have hhead : ∀ e, args.head?.getD none = some e → some e ∈ args := by
        intro e he
        cases args with
        | nil => cases he
        | cons arg args =>
            have he : arg = some e := he
            exact he ▸ List.mem_cons_self
      have hparam : Supplies O B [] (genParam Γ R cs n i p (args.head?.getD none) prev)
          (fun vt => [vt.1]) _ _ _ :=
        supplies_genParam i (fun e he => hM e (hhead e he)) (hD p List.mem_cons_self)
      refine hparam.cons fun vt B' hvt => ?_
      rw [hvt]
      exact ih _ _ B' (fun e he => hM e (List.mem_of_mem_tail he))
        fun q hq => hD q (List.mem_cons_of_mem _ hq)

/-- The loop over the extra arguments. -/
theorem supplies_genExtra : ∀ {args : List Arg} (B : Builder),
    (∀ e, some e ∈ args → (M e).Of O (R.genExpr cs e)) →
    Supplies O B [] (genExtra R cs n args) id (fun _ => True)
      (reportAll (args.map (passExtra O.world n M)))
      fun _ st => runAll (args.map (passExtra O.world n M)) st := by
  intro args
  induction args with
  | nil =>
      intro B _
      exact .pure (g := id) trivial (fun _ _ w hw => absurd hw List.not_mem_nil) fun _ => rfl
  | cons arg args ih =>
      intro B hM
      have hargs : ∀ B', Supplies O B' [] (genExtra R cs n args) id (fun _ => True)
          (reportAll (args.map (passExtra O.world n M)))
          fun _ st => runAll (args.map (passExtra O.world n M)) st :=
        fun B' => ih B' fun e he => hM e (List.mem_cons_of_mem _ he)
      cases arg with
      | none =>
          unfold genExtra
          have hzero : Supplies O B [] (error n.loc "missing variadic argument has no default" >>=
              fun _ => pure (cI64 0)) (fun v => [v]) (fun _ => True)
              ((passExtra O.world n M none).own ++ (passExtra O.world n M none).reports)
              fun _ st => ((passExtra O.world n M none).run st).map fun y => ([y.1], y.2) := by
            have hpure : ∀ B', Supplies O B' ([] ++ []) (pure (cI64 0)) (fun v => [v])
                (fun _ => True) [] fun _ st => some ([.int 0], st) := by
              intro B'
              refine .pure (g := fun _ => [.int 0]) trivial ?_ fun _ => rfl
              intro k _ w hw
              rcases List.mem_singleton.mp hw with rfl
              exact trivial
            exact (Supplies.error n.loc _).bind fun _ B' _ _ => hpure B'
          exact hzero.cons fun v B' _ => hargs B'
      | some e =>
          have hslot : Supplies O B [] (R.genExpr cs e >>= convertSlot) (fun v => [v])
              (fun _ => True)
              ((passExtra O.world n M (some e)).own ++ (passExtra O.world n M (some e)).reports)
              fun _ st => ((passExtra O.world n M (some e)).run st).map fun y => ([y.1], y.2) := by
            refine ((hM e List.mem_cons_self).bind
              (F := fun v => (castSlot O.world (M e).lty v).map fun x => [x]) ?_).congr ?_
            · intro rv B hrv hlty
              rw [← hlty]
              refine (supplies_convertSlot rv).congr ?_
              intro ρ st z hz
              rw [Option.map_map] at hz
              exact hz
            · intro ρ st z hz
              change (((M e).run st).bind _).map _ = _ at hz
              rw [Option.map_bind] at hz
              rcases Option.bind_eq_some_iff.mp hz with ⟨y, hy, hz⟩
              rw [hy]
              change ((castSlot O.world (M e).lty y.1).map _).map _ = _ at hz
              change ((castSlot O.world (M e).lty y.1).map _).map _ = _
              rw [Option.map_map] at hz ⊢
              exact hz
          have hcode : genExtra R cs n (some e :: args) = (R.genExpr cs e >>= convertSlot) >>=
              fun v => genExtra R cs n args >>= fun vs => pure (v :: vs) := by
            rw [bind_assoc]
            refine bind_congr fun rv => ?_
            unfold convertSlot
            rcases rv with ⟨v, t⟩
            cases v with
            | none => rfl
            | some v =>
                change (if _ then _ else _) = (if _ then _ else _) >>= _
                split <;> rfl
          rw [hcode]
          exact hslot.cons fun v B' _ => hargs B'

end Code

end Hlang.Codegen
