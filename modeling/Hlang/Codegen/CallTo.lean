import Hlang.Codegen.Arguments

/-!
# Hlang.Codegen.CallTo — a call, from its written arguments to its effect

The slots of a written argument list, as `parseCallArgs` reads them, are matched with the
parameters of a function type by `genCallTo`: its code evaluates what is passed from left to right,
lays the surplus slots out as `argv`, and calls. The diagnostics are those of the expressions and,
of the call itself, those for slots that do not fit the type.
-/

namespace Hlang.Codegen

open Ir Gen Machine

/-! ## The instructions -/

section Instructions

variable {O : Oracle} {B : Builder} {ops : List Value}

theorem callVal_at {W : World} {m : Mem} {ρ : Regs} {callee : Value} {c : Val} {ys : List Val}
    (hc : callee.eval W ρ = c) :
    callVal W m ρ callee ys = callVal W m (fun _ => c) callee ys := by
  have heval : callee.eval W ρ = callee.eval W fun _ => c := by
    cases callee with
    | reg ty r => exact hc
    | _ => rfl
  unfold callVal
  split
  · rfl
  · rfl
  · rw [heval]

/-- A call of `callee`, whose value is `c`, with the arguments `ys`. -/
def calls (O : Oracle) (ty : LTy) (callee : Value) (c : Val) (ys : List Val) (st : St) :
    Option (List Val × St) :=
  (callVal (O.seen st.2) st.1 (fun _ => c) callee ys).bind fun r =>
    if ty = .void then some ([], (r.2, st.2 ++ [⟨c, ys⟩]))
    else r.1.map fun v => ([v], (r.2, st.2 ++ [⟨c, ys⟩]))

/-- The step of the instruction `i`, a call of `callee`. -/
theorem runIn_call {T : Switches} {callee : Value} {args : List Value} {ρ : Regs} {st : St}
    {r : Option Val × Mem} (dst : Option Reg) (prev : Blk)
    (hcall : callVal (O.seen st.2) st.1 (fun _ => callee.eval O.world ρ) callee
      (args.map (·.eval O.world ρ)) = some r) (hdst : dst.isSome = true → r.1.isSome = true) :
    Instr.runIn O T (Point.at B.point prev ρ st) (.call dst callee args) =
      some (Point.at (B.cur, (B.code B.cur).length + 1) prev
        (dst.elim ρ fun q => r.1.elim ρ (Function.update ρ q))
        (r.2, st.2 ++ [⟨callee.eval O.world ρ, args.map (·.eval O.world ρ)⟩])) := by
  have hargs : args.map (·.eval (O.seen st.2) ρ) = args.map (·.eval O.world ρ) := by
    simp only [O.eval_seen]
  have hval : callVal (O.seen st.2) st.1 ρ callee (args.map (·.eval (O.seen st.2) ρ)) = some r := by
    rw [hargs, callVal_at (O.eval_seen st.2 ρ callee)]
    exact hcall
  have hrun : Instr.run (O.seen st.2) ⟨B.cur, (B.code B.cur).length, prev, ρ, st.1⟩
      (.call dst callee args) =
      some ⟨B.cur, (B.code B.cur).length + 1, prev,
        dst.elim ρ fun q => r.1.elim ρ (Function.update ρ q), r.2⟩ := by
    unfold Instr.run
    dsimp only
    rw [hval]
    rcases r with ⟨v, m⟩
    cases dst with
    | none => cases v <;> rfl
    | some q =>
        cases v with
        | none => exact absurd (hdst rfl) Bool.false_ne_true
        | some v => rfl
  change (Instr.run (O.seen st.2) ⟨B.cur, (B.code B.cur).length, prev, ρ, st.1⟩
    (.call dst callee args)).map _ = _
  rw [hrun]
  rfl

theorem Supplies.createCall (ty : LTy) (callee : Value) (args : List Value) :
    Supplies O B (callee :: args) (Gen.createCall ty callee args) Option.toList
      (fun r => ty = .void → r = none) []
      fun xs st => xs.head?.bind fun c => calls O ty callee c xs.tail st := by
  intro hB hops
  by_cases hty : ty = .void
  · subst hty
    refine ⟨none, B.push (.call none callee args), rfl, fun _ => rfl, ⟨.push B _, hB.push _,
      fun _ hw => absurd hw List.not_mem_nil, (List.append_nil _).symm⟩, ?_⟩
    intro T prev ρ st ys st' hF
    have hF : calls O .void callee (callee.eval O.world ρ) (args.map (·.eval O.world ρ)) st =
        some (ys, st') := hF
    rcases Option.bind_eq_some_iff.mp hF with ⟨r, hr, hz⟩
    rcases Prod.mk.inj (Option.some.inj hz) with ⟨rfl, rfl⟩
    refine ⟨1, prev, ρ, .single ?_, fun _ _ => rfl, rfl⟩
    rw [eventStep_push, point_push]
    exact runIn_call none prev hr Bool.noConfusion
  · refine ⟨some (.reg ty B.nextReg), (B.push (.call (some B.nextReg) callee args)).bump, ?_,
      fun h => absurd h hty,
      ⟨(Builder.Le.push B _).trans (.bump _), (hB.push _).bump, ?_, (List.append_nil _).symm⟩, ?_⟩
    · unfold Gen.createCall
      rw [if_neg hty]
      rfl
    · intro w hw
      rcases List.mem_singleton.mp hw with rfl
      exact Nat.lt_succ_self _
    intro T prev ρ st ys st' hF
    have hF : calls O ty callee (callee.eval O.world ρ) (args.map (·.eval O.world ρ)) st =
        some (ys, st') := hF
    rcases Option.bind_eq_some_iff.mp hF with ⟨r, hr, hz⟩
    rw [if_neg hty] at hz
    rcases Option.map_eq_some_iff.mp hz with ⟨v, hv, hz⟩
    rcases Prod.mk.inj hz with ⟨rfl, rfl⟩
    have hstep := runIn_call (B := B) (T := T) (some B.nextReg) prev hr fun _ => by rw [hv]; rfl
    rw [hv] at hstep
    refine ⟨1, prev, Function.update ρ B.nextReg v, .single ?_, ?_, ?_⟩
    · have hpoint : (B.push (.call (some B.nextReg) callee args)).bump.point =
          (B.cur, (B.code B.cur).length + 1) := point_push B _
      change eventStep O T (B.push (.call (some B.nextReg) callee args)).log _ = _
      rw [eventStep_push, hstep, hpoint]
      rfl
    · intro q hq
      exact Function.update_of_ne (Nat.ne_of_lt hq) _ _
    · exact congrArg (fun x => [x]) (Function.update_self ..)

theorem getLast?_snoc (y z : Val) (ys : List Val) : (y :: (ys ++ [z])).getLast? = some z :=
  List.getLast?_concat (l := y :: ys)

/-- The slots of the array at `a`, from `i` on, take the values `ys`. -/
def storeArgs (W : World) (a : I64) : Nat → List Val → Mem → Mem
  | _, [], m => m
  | i, y :: ys, m =>
      storeArgs W a (i + 1) ys (storeVal W m (.int 64) (a + BitVec.ofNat 64 (8 * i)) y)

/-- The slots before `i` are as they were. -/
theorem storeArgs_before {W : World} {a : I64} : ∀ {ys : List Val} {i k : Nat} {m : Mem},
    8 * (i + ys.length) ≤ 2 ^ 64 → k < 8 * i →
      storeArgs W a i ys m (a + BitVec.ofNat 64 k) = m (a + BitVec.ofNat 64 k) := by
  intro ys
  induction ys with
  | nil => exact fun _ _ => rfl
  | cons y ys ih =>
      intro i k m hlen hk
      rw [List.length_cons] at hlen
      have hoff : ¬ (a + BitVec.ofNat 64 k - (a + BitVec.ofNat 64 (8 * i))).toNat < 8 := by
        bv_omega
      have hstore : storeVal W m (.int 64) (a + BitVec.ofNat 64 (8 * i)) y
          (a + BitVec.ofNat 64 k) = m (a + BitVec.ofNat 64 k) := by
        cases y with
        | int v => exact if_neg hoff
        | fp q => exact if_neg hoff
      unfold storeArgs
      rw [ih (by omega) (by omega), hstore]

/-- Each slot holds its value. -/
theorem storeArgs_read {W : World} {a : I64} : ∀ {ys : List Val} {i j : Nat} {x : I64} {m : Mem},
    8 * (i + ys.length) ≤ 2 ^ 64 → ys[j]? = some (.int x) →
      (storeArgs W a i ys m).read (a + BitVec.ofNat 64 (8 * (i + j))) 8 = x := by
  intro ys
  induction ys with
  | nil => exact fun _ h => absurd h (by simp)
  | cons y ys ih =>
      intro i j x m hlen hj
      rw [List.length_cons] at hlen
      unfold storeArgs
      cases j with
      | succ j =>
          have hnext : i + (j + 1) = i + 1 + j := by omega
          rw [hnext]
          exact ih (by omega) hj
      | zero =>
          rcases Option.some.inj hj with rfl
          -- the slots behind it are elsewhere
          have hread : ∀ m' : Mem, (∀ k, k < 8 * (i + 1) →
              m' (a + BitVec.ofNat 64 k) = m.write (a + BitVec.ofNat 64 (8 * i)) 8 (byteOf x)
                (a + BitVec.ofNat 64 k)) → m'.read (a + BitVec.ofNat 64 (8 * (i + 0))) 8 = x := by
            intro m' hm'
            have hback : (m.write (a + BitVec.ofNat 64 (8 * i)) 8 (byteOf x)).read
                (a + BitVec.ofNat 64 (8 * i)) 8 = x := Mem.read_write _ _ x.isLt
            refine Eq.trans ?_ hback
            refine BitVec.eq_of_getLsbD_eq fun q hq => ?_
            have haddr : a + BitVec.ofNat 64 (8 * i) + BitVec.ofNat 64 (q / 8) =
                a + BitVec.ofNat 64 (8 * i + q / 8) := by
              rw [BitVec.add_assoc, ← BitVec.ofNat_add]
            rw [Mem.getLsbD_read _ _ _ _ hq, Mem.getLsbD_read _ _ _ _ hq, Nat.add_zero, haddr,
              hm' _ (by omega)]
          refine hread _ fun k hk => ?_
          exact storeArgs_before (by omega) hk

/-- The first value is stored where the second says. -/
def storeWord (W : World) : List Val → Mem → Option Mem
  | [y, .int a], m => some (storeVal W m (.int 64) a y)
  | _, _ => none

theorem supplies_store (v addr : Value) :
    Supplies O B [v, addr] (emit (.store (.int 64) v addr)) (fun _ => []) (fun _ => True) []
      fun xs st => (storeWord O.world xs st.1).map fun m => ([], (m, st.2)) := by
  refine Supplies.emit ?_ (fun _ => rfl) fun _ _ h => by cases h
  intro es ρ m m' c hregs hmem hstore
  subst hregs hmem
  change storeWord O.world [v.eval O.world c.regs, addr.eval O.world c.regs] c.mem = _ at hstore
  cases haddr : addr.eval O.world c.regs with
  | fp q =>
      rw [haddr] at hstore
      cases hstore
  | int a =>
      rw [haddr] at hstore
      rcases Option.some.inj hstore with rfl
      have hint : addr.evalInt (O.seen es) c.regs = some a := by
        rw [O.evalInt_seen]
        unfold Value.evalInt
        rw [haddr]
        rfl
      change (addr.evalInt (O.seen es) c.regs).map _ = _
      rw [hint, O.eval_seen]
      cases v.eval O.world c.regs <;> rfl

/-- The stores into the array. -/
theorem supplies_storeExtra (arr : Value) : ∀ {vs : List Value} (i : Nat) (B : Builder),
    Supplies O B (arr :: vs) (storeExtra arr i vs) (fun _ => []) (fun _ => True) []
      fun xs st => (xs.head?.bind Val.int?).map fun a =>
        ([], (storeArgs O.world a i xs.tail st.1, st.2)) := by
  intro vs
  induction vs with
  | nil =>
      intro i B
      refine (Supplies.pure (g := fun _ => []) trivial (fun _ _ w hw => absurd hw List.not_mem_nil)
        fun _ => rfl).congr ?_
      intro ρ st z hz
      rcases Option.map_eq_some_iff.mp hz with ⟨a, _, rfl⟩
      rfl
  | cons v vs ih =>
      intro i B
      -- the address of the slot, the store, and the slots behind
      have hgep : Supplies O B (arr :: v :: vs) (create (.gep arr (cI64 (BitVec.ofNat 64 (8 * i)))))
          (fun w => [w]) (fun _ => True) [] fun xs st =>
            ((xs.head?.bind Val.int?).map fun a => .int (a + BitVec.ofNat 64 (8 * i))).map
              fun y => ([y], st) := by
        refine (Supplies.create ?_).weaken fun _ _ => trivial
        intro es ρ m y hy
        rcases Option.map_eq_some_iff.mp hy with ⟨a, ha, rfl⟩
        have ha : arr.evalInt (O.seen es) ρ = some a := (O.evalInt_seen es ρ arr).trans ha
        change (arr.evalInt (O.seen es) ρ).bind _ = _
        rw [ha]
        rfl
      have hstore : ∀ slot B', Supplies O B' ((arr :: v :: vs) ++ [slot])
          (emit (.store (.int 64) v slot)) (fun _ => []) (fun _ => True) [] fun xs st =>
            (storeWord O.world (xs[1]?.toList ++ xs.getLast?.toList) st.1).map
              fun m => ([], (m, st.2)) := by
        intro slot B'
        refine (supplies_store v slot).using (g := fun xs => xs[1]?.toList ++ xs.getLast?.toList)
          ?_ ?_
        · intro k h w hw
          rcases List.mem_cons.mp hw with rfl | hw
          · exact h _ (List.mem_append_left _ (List.mem_cons_of_mem _ List.mem_cons_self))
          · exact h _ (List.mem_append_right _ hw)
        · intro ρ
          simp [getLast?_snoc]
      have hrest : ∀ slot B', Supplies O B' ((arr :: v :: vs) ++ [slot] ++ [])
          (storeExtra arr (i + 1) vs) (fun _ => []) (fun _ => True) [] fun xs st =>
            ((xs.head?.toList ++ (xs.drop 2).take vs.length).head?.bind Val.int?).map fun a =>
              ([], (storeArgs O.world a (i + 1)
                (xs.head?.toList ++ (xs.drop 2).take vs.length).tail st.1, st.2)) := by
        intro slot B'
        refine (ih (i + 1) B').using (g := fun xs => xs.head?.toList ++ (xs.drop 2).take vs.length)
          ?_ ?_
        · intro k h w hw
          refine h w ?_
          rcases List.mem_cons.mp hw with rfl | hw
          · simp
          · simp [hw]
        · intro ρ
          simp
      unfold storeExtra
      refine (hgep.bind fun slot B' _ _ => (hstore slot B').bind fun _ B'' _ _ =>
        hrest slot B'').congr ?_
      intro ρ st z hz
      rcases Option.map_eq_some_iff.mp hz with ⟨a, ha, rfl⟩
      have ha : (arr.eval O.world ρ).int? = some a := ha
      have harr : arr.eval O.world ρ = .int a := int?_eval ha
      simp [harr, getLast?_snoc, Val.int?, storeWord, storeArgs]

/-- A slot of the frame. -/
theorem supplies_entryAlloca (ty : LTy) : ∃ k, Supplies O B ops (entryAlloca ty) (fun w => [w])
    (fun w => w = .slot k) [] fun _ st => some ([.int (O.world.slotAddr k)], st) := by
  refine ⟨B.slots.length, ?_⟩
  intro hB hops
  refine ⟨.slot B.slots.length, { B with slots := B.slots ++ [ty] }, rfl, rfl, ?_, ?_⟩
  · constructor
    case le => exact ⟨List.prefix_refl _, Nat.le_refl _, Nat.le_refl _, .inl rfl, fun _ _ _ => rfl,
      List.prefix_refl _⟩
    case wf => exact ⟨hB.cur, hB.fresh⟩
    case below =>
      intro w hw
      rcases List.mem_singleton.mp hw with rfl
      exact trivial
    case errors => exact (List.append_nil _).symm
  · intro T prev ρ st ys st' hF
    rcases Prod.mk.inj (Option.some.inj hF) with ⟨rfl, rfl⟩
    exact Flows.refl _ st rfl

/-- What is called, where `t` is a pointer or an integer. -/
def callTarget (t : Value) : Value := if t.type = .ptr then t else .reg .ptr 0

/-- `asPtr`, of what is called. -/
theorem supplies_asPtr (t : Value) :
    Supplies O B [t] (asPtr (some t)) (fun w => [w])
      (fun w => ∀ ty c ys st, calls O ty w c ys st = calls O ty (callTarget t) c ys st) []
      fun xs st => (xs.head?.bind Val.int?).map fun a => ([.int a], st) := by
  unfold asPtr callTarget
  dsimp only
  split
  · refine Supplies.congr (.pure (g := id) (fun _ _ _ _ => rfl) (fun _ h => h) fun _ => rfl) ?_
    intro ρ st z hz
    rcases Option.map_eq_some_iff.mp hz with ⟨a, ha, rfl⟩
    have ha : (t.eval O.world ρ).int? = some a := ha
    change some ([t.eval O.world ρ], st) = _
    rw [int?_eval ha]
  · have hcreate : Supplies O B [t] (create (.inttoptr t)) (fun w => [w])
        (fun w => ∃ r, w = .reg .ptr r) [] fun xs st =>
          ((xs.head?.bind Val.int?).map Val.int).map fun y => ([y], st) := by
      refine Supplies.create ?_
      intro es ρ m y hy
      rcases Option.map_eq_some_iff.mp hy with ⟨a, ha, rfl⟩
      have ha : t.evalInt (O.seen es) ρ = some a := (O.evalInt_seen es ρ t).trans ha
      change (t.evalInt (O.seen es) ρ).bind _ = _
      rw [ha]
      rfl
    refine (hcreate.weaken ?_).congr ?_
    · rintro w ⟨r, rfl⟩ ty c ys st
      rfl
    · intro ρ st z hz
      rw [Option.map_map]
      exact hz

/-- The result of a call. -/
def callResult (ret : Ty) (r : Option Value) : RV :=
  match ret with
  | .void => ⟨none, .void⟩
  | rt => ⟨r, rt⟩

theorem callResult_t (ret : Ty) (r : Option Value) : (callResult ret r).t = ret := by
  cases ret <;> rfl

theorem callResult_v {ret : Ty} {r : Option Value} (h : retTy ret = .void → r = none) :
    (callResult ret r).v = r := by
  cases ret with
  | void => exact (h rfl).symm
  | _ => rfl

/-- `genCallTo`, from the callee on: the mark, the call and the result. -/
def emitCall (s : Site) (ret : Ty) (vs : List Value) (callee : Value) : Gen RV := do
  emit (.mark s)
  let r ← createCall (retTy ret) callee vs
  return callResult ret r

theorem supplies_emitCall (s : Site) (ret : Ty) (vs : List Value) (callee : Value) :
    Supplies O B (callee :: vs) (emitCall s ret vs callee) (fun rv => rv.v.toList)
      (fun rv => rv.t = ret) []
      fun xs st => xs.head?.bind fun c => calls O (retTy ret) callee c xs.tail st := by
  have hmark : Supplies O B (callee :: vs) (emit (.mark s)) (fun _ => []) (fun _ => True) []
      fun _ st => some ([], st) := by
    refine Supplies.congr (Supplies.emit (g := fun _ m => some m) ?_ (fun _ => rfl)
      fun _ _ h => by cases h) fun _ _ _ h => h
    intro es ρ m m' c hregs hmem hg
    rcases Option.some.inj hg with rfl
    subst hmem
    rfl
  have hcall : ∀ B', Supplies O B' ((callee :: vs) ++ [])
      (createCall (retTy ret) callee vs >>= fun r => pure (callResult ret r))
      (fun rv => rv.v.toList) (fun rv => rv.t = ret) []
      fun xs st => xs.head?.bind fun c => calls O (retTy ret) callee c xs.tail st := by
    intro B'
    rw [List.append_nil]
    refine (Supplies.createCall (retTy ret) callee vs).wrap ?_ fun r _ => callResult_t ret r
    intro r hr
    rw [callResult_v hr]
  unfold emitCall
  refine (hmark.bind fun _ B' _ _ => hcall B').congr ?_
  intro ρ st z hz
  simp only [Option.bind_some, List.append_nil]
  exact hz

/-- The call through the pointer or the integer `t`. -/
theorem supplies_callThrough (s : Site) (ret : Ty) (vs : List Value) (t : Value) :
    Supplies O B (t :: vs) (asPtr (some t) >>= emitCall s ret vs) (fun rv => rv.v.toList)
      (fun rv => rv.t = ret) []
      fun xs st => (xs.head?.bind Val.int?).bind fun c =>
        calls O (retTy ret) (callTarget t) (.int c) xs.tail st := by
  have hptr : Supplies O B (t :: vs) (asPtr (some t)) (fun w => [w])
      (fun w => ∀ ty c ys st, calls O ty w c ys st = calls O ty (callTarget t) c ys st) []
      fun xs st => ((xs.take 1).head?.bind Val.int?).map fun a => ([.int a], st) := by
    refine (supplies_asPtr t).using (g := List.take 1) ?_ fun _ => rfl
    intro k h w hw
    rcases List.mem_singleton.mp hw with rfl
    exact h _ List.mem_cons_self
  have hcall : ∀ w B', (∀ ty c ys st, calls O ty w c ys st = calls O ty (callTarget t) c ys st) →
      Supplies O B' ((t :: vs) ++ [w]) (emitCall s ret vs w) (fun rv => rv.v.toList)
        (fun rv => rv.t = ret) []
        fun xs st => (xs.getLast?.toList ++ xs.tail.take vs.length).head?.bind fun c =>
          calls O (retTy ret) (callTarget t) c
            (xs.getLast?.toList ++ xs.tail.take vs.length).tail st := by
    intro w B' hw
    refine ((supplies_emitCall s ret vs w).using
      (g := fun xs => xs.getLast?.toList ++ xs.tail.take vs.length) ?_ ?_).congr ?_
    · intro k h u hu
      refine h u ?_
      rcases List.mem_cons.mp hu with rfl | hu
      · simp
      · simp [hu]
    · intro ρ
      simp [getLast?_snoc]
    · intro ρ st z hz
      simp only [hw]
      exact hz
  refine (hptr.bind fun w B' _ hw => hcall w B' hw).congr ?_
  intro ρ st z hz
  rcases Option.bind_eq_some_iff.mp hz with ⟨c, hc, hz⟩
  have hc : (t.eval O.world ρ).int? = some c := hc
  have ht : t.eval O.world ρ = .int c := int?_eval hc
  rw [← hz]
  simp [ht, getLast?_snoc, Val.int?]

/-! ### The array of the surplus slots -/

/-- `genCallTo`: the array `argv`. -/
def genArgv (extra : List Value) : Gen Value :=
  if extra.isEmpty then pure (cI64 0)
  else do
    let al ← entryAlloca (.bytes (BitVec.ofNat 64 (8 * extra.length)))
    storeExtra al 0 extra
    create (.ptrtoint al)

/-- Where `argv` lies, laid out in the slot `k` of the frame. -/
def argvAddr (W : World) (k : Nat) (ys : List Val) : I64 := if ys.isEmpty then 0 else W.slotAddr k

/-- The memory in which `argv` is laid out. -/
def argvMem (W : World) (k : Nat) (ys : List Val) (m : Mem) : Mem :=
  if ys.isEmpty then m else storeArgs W (W.slotAddr k) 0 ys m

theorem supplies_genArgv (extra : List Value) : ∃ k, Supplies O B extra (genArgv extra)
    (fun w => [w]) (fun _ => True) [] fun xs st =>
      some ([.int (argvAddr O.world k xs)], (argvMem O.world k xs st.1, st.2)) := by
  unfold genArgv
  cases extra with
  | nil =>
      refine ⟨0, Supplies.congr (.pure (g := fun _ => [.int 0]) trivial ?_ fun _ => rfl)
        fun _ _ _ h => h⟩
      intro k _ w hw
      rcases List.mem_singleton.mp hw with rfl
      exact trivial
  | cons v vs =>
      have halloca : ∃ k, Supplies O B (v :: vs)
          (entryAlloca (.bytes (BitVec.ofNat 64 (8 * (v :: vs).length)))) (fun w => [w])
          (fun w => w = .slot k) [] fun _ st => some ([.int (O.world.slotAddr k)], st) :=
        supplies_entryAlloca _
      rcases halloca with ⟨k, halloca⟩
      refine ⟨k, ?_⟩
      have hstore : ∀ al B', Supplies O B' ((v :: vs) ++ [al]) (storeExtra al 0 (v :: vs))
          (fun _ => []) (fun _ => True) [] fun xs st =>
            ((xs.getLast?.toList ++ xs.take (vs.length + 1)).head?.bind Val.int?).map fun a =>
              ([], (storeArgs O.world a 0
                (xs.getLast?.toList ++ xs.take (vs.length + 1)).tail st.1, st.2)) := by
        intro al B'
        refine (supplies_storeExtra al 0 B').using
          (g := fun xs => xs.getLast?.toList ++ xs.take (vs.length + 1)) ?_ ?_
        · intro j h w hw
          refine h w ?_
          rcases List.mem_cons.mp hw with rfl | hw
          · simp
          · exact List.mem_append_left _ hw
        · intro ρ
          simp [getLast?_snoc]
      have haddr : ∀ al B', al = .slot k → Supplies O B' ((v :: vs) ++ [al] ++ [])
          (create (.ptrtoint al)) (fun w => [w]) (fun _ => True) []
          fun _ st => some ([.int (O.world.slotAddr k)], st) := by
        rintro al B' rfl
        have hcreate : Supplies O B' ((v :: vs) ++ [.slot k] ++ []) (create (.ptrtoint (.slot k)))
            (fun w => [w]) (fun w => ∃ r, w = .reg (.int 64) r) []
            fun _ st => some ([.int (O.world.slotAddr k)], st) := by
          refine Supplies.create (g := fun _ => some (.int (O.world.slotAddr k))) ?_
          intro es ρ m y hy
          rcases Option.some.inj hy with rfl
          rfl
        exact hcreate.weaken fun _ _ => trivial
      refine (halloca.bind fun al B' _ hal => (hstore al B').bind fun _ B'' _ _ =>
        haddr al B'' hal).congr ?_
      intro ρ st z hz
      rw [← hz]
      simp [getLast?_snoc, Val.int?, argvAddr, argvMem]

end Instructions

/-! ## The call -/

section Call

variable {O : Oracle} {Γ : Env} {R : Rec} {cs : List Nat} {n : Node} {M D : Expr → Meaning}
  {B : Builder} {sym : FuncSym} {args : List Arg} {fnPtr : Option Value} {t : Value}

/-- More slots are written than the type takes. -/
def tooMany (ft : FuncType) (args : List Arg) : Bool :=
  decide (ft.params.length < args.length) && !ft.variadic

/-- The slots that are used. -/
def fitting (ft : FuncType) (args : List Arg) : List Arg :=
  if tooMany ft args then args.take ft.params.length else args

/-- `genCallTo`, behind the loops over the arguments. -/
def genRest (R : Rec) (cs : List Nat) (n : Node) (ft : FuncType) (args : List Arg) (t : Value)
    (vs : List Value) : Gen RV :=
  if ft.variadic then do
    let extra ← genExtra R cs n (args.drop ft.params.length)
    let arr ← genArgv extra
    asPtr (some t) >>= emitCall ⟨cs, n.addr⟩ ft.ret
      (vs ++ [cI64 (BitVec.ofNat 64 extra.length), arr])
  else asPtr (some t) >>= emitCall ⟨cs, n.addr⟩ ft.ret vs

theorem genCallTo_eq (ht : sym.fn.or fnPtr = some t) (hfn : ∀ f, sym.fn = some f → f.type = .ptr) :
    genCallTo Γ R cs n sym args fnPtr =
      (if tooMany sym.type args then error n.loc "too many arguments" else pure ()) >>= fun _ =>
        genParams Γ R cs n 0 sym.type.params (fitting sym.type args) none >>=
          genRest R cs n sym.type (fitting sym.type args) t := by
  unfold genCallTo
  extract_lets np callWith rest
  have hwith : ∀ vs, callWith vs = asPtr (some t) >>= emitCall ⟨cs, n.addr⟩ sym.type.ret vs := by
    intro vs
    unfold callWith
    extract_lets emit'
    have hemit : ∀ callee, emit' callee = emitCall ⟨cs, n.addr⟩ sym.type.ret vs callee := by
      intro callee
      unfold emit' emitCall
      refine bind_congr fun _ => bind_congr fun r => ?_
      cases sym.type.ret <;> rfl
    cases hsym : sym.fn with
    | some f =>
        rw [hsym] at ht
        rcases Option.some.inj ht with rfl
        have hptr : asPtr (some f) = pure f := if_pos (hfn f hsym)
        rw [hptr, pure_bind]
        exact hemit f
    | none =>
        rw [hsym] at ht
        have ht : fnPtr = some t := ht
        rw [ht]
        exact bind_congr hemit
  have hrest : ∀ args, rest args = genParams Γ R cs n 0 sym.type.params args none >>=
      genRest R cs n sym.type args t := by
    intro args
    unfold rest
    refine bind_congr fun vs => ?_
    unfold genRest
    split
    · refine bind_congr fun extra => ?_
      unfold genArgv
      split
      · rw [pure_bind]
        exact hwith _
      · simp only [bind_assoc]
        exact bind_congr fun al => bind_congr fun _ => bind_congr fun arr => hwith _
    · exact hwith _
  have hmany : (decide (np < args.length) && !sym.type.variadic) = tooMany sym.type args := rfl
  unfold fitting
  rw [hmany]
  cases tooMany sym.type args with
  | true => exact bind_congr fun _ => hrest _
  | false => exact hrest _

/-- The call, where the parameters have the values `ys` and `argv` has the values `zs`. -/
def callWithArgv (O : Oracle) (ft : FuncType) (t : Value) (k : Nat) (c : I64) (ys zs : List Val)
    (st : St) : Option (List Val × St) :=
  calls O (retTy ft.ret) (callTarget t) (.int c)
    (ys ++ [.int (BitVec.ofNat 64 zs.length), .int (argvAddr O.world k zs)])
    (argvMem O.world k zs st.1, st.2)

/-- The surplus slots and the call, where the parameters have the values `ys`. -/
def runRest (O : Oracle) (ft : FuncType) (t : Value) (es : List Passed) (k : Nat) (c : I64)
    (ys : List Val) (st : St) : Option (List Val × St) :=
  if ft.variadic then (runAll es st).bind fun z => callWithArgv O ft t k c ys z.1 z.2
  else calls O (retTy ft.ret) (callTarget t) (.int c) ys st

/-- What is passed in the surplus slots. -/
def surplus (W : World) (n : Node) (M : Expr → Meaning) (ft : FuncType) (args : List Arg) :
    List Passed :=
  if ft.variadic then (args.drop ft.params.length).map (passExtra W n M) else []

theorem supplies_argvCall (s : Site) (ft : FuncType) (t : Value) (vs extra : List Value) :
    ∃ k, Supplies O B (t :: vs ++ extra) (genArgv extra >>= fun arr => asPtr (some t) >>=
      emitCall s ft.ret (vs ++ [cI64 (BitVec.ofNat 64 extra.length), arr]))
      (fun rv => rv.v.toList) (fun rv => rv.t = ft.ret) []
      fun xs st => (xs.head?.bind Val.int?).bind fun c =>
        callWithArgv O ft t k c ((xs.drop 1).take vs.length) (xs.drop (vs.length + 1)) st := by
  rcases supplies_genArgv (O := O) (B := B) extra with ⟨k, hargv⟩
  refine ⟨k, ?_⟩
  have hargv : Supplies O B (t :: vs ++ extra) (genArgv extra) (fun w => [w]) (fun _ => True) []
      fun xs st => some ([.int (argvAddr O.world k (xs.drop (vs.length + 1)))],
        (argvMem O.world k (xs.drop (vs.length + 1)) st.1, st.2)) := by
    refine hargv.using (g := List.drop (vs.length + 1)) ?_ ?_
    · intro j h w hw
      exact h w (List.mem_append_right _ hw)
    · intro ρ
      simp
  have hcall : ∀ arr B', Supplies O B' ((t :: vs ++ extra) ++ [arr]) (asPtr (some t) >>=
      emitCall s ft.ret (vs ++ [cI64 (BitVec.ofNat 64 extra.length), arr]))
      (fun rv => rv.v.toList) (fun rv => rv.t = ft.ret) []
      fun xs st => ((xs.take (vs.length + 1) ++ (.int (BitVec.ofNat 64 extra.length) ::
          xs.getLast?.toList)).head?.bind Val.int?).bind fun c =>
        calls O (retTy ft.ret) (callTarget t) (.int c) (xs.take (vs.length + 1) ++
          (.int (BitVec.ofNat 64 extra.length) :: xs.getLast?.toList)).tail st := by
    intro arr B'
    refine (supplies_callThrough s ft.ret _ t).using (g := fun xs => xs.take (vs.length + 1) ++
      (.int (BitVec.ofNat 64 extra.length) :: xs.getLast?.toList)) ?_ ?_
    · intro j h w hw
      rcases List.mem_cons.mp hw with rfl | hw
      · exact h _ (by simp)
      rcases List.mem_append.mp hw with hw | hw
      · exact h w (by simp [hw])
      rcases List.mem_cons.mp hw with rfl | hw
      · exact trivial
      · exact h w (List.mem_append_right _ hw)
    · intro ρ
      simp only [List.map_append, List.map_cons, List.map_nil]
      rw [List.getLast?_concat]
      simp
      rfl
  refine (hargv.bind fun arr B' _ _ => hcall arr B').congr ?_
  intro ρ st z hz
  rcases Option.bind_eq_some_iff.mp hz with ⟨c, hc, hz⟩
  have hc : (t.eval O.world ρ).int? = some c := hc
  have ht : t.eval O.world ρ = .int c := int?_eval hc
  rw [← hz]
  simp only [List.map_append, List.map_cons, Option.bind_some, List.getLast?_concat]
  simp [ht, Val.int?, callWithArgv]

/-- The surplus slots, `argv` and the call. -/
theorem supplies_genRest {ft : FuncType} (hM : ∀ e, some e ∈ args → (M e).Of O (R.genExpr cs e))
    (vs : List Value) :
    ∃ k, Supplies O B (t :: vs) (genRest R cs n ft args t vs) (fun rv => rv.v.toList)
      (fun rv => rv.t = ft.ret) (reportAll (surplus O.world n M ft args))
      fun xs st => (xs.head?.bind Val.int?).bind fun c =>
        runRest O ft t (surplus O.world n M ft args) k c xs.tail st := by
  unfold genRest surplus runRest
  cases hvar : ft.variadic with
  | false =>
      refine ⟨0, ?_⟩
      rw [if_neg Bool.false_ne_true]
      exact supplies_callThrough ⟨cs, n.addr⟩ ft.ret vs t
  | true =>
      have hextra : Supplies O B (t :: vs) (genExtra R cs n (args.drop ft.params.length)) id
          (fun _ => True)
          (reportAll ((args.drop ft.params.length).map (passExtra O.world n M)))
          fun _ st => runAll ((args.drop ft.params.length).map (passExtra O.world n M)) st :=
        (supplies_genExtra B fun e he => hM e (List.mem_of_mem_drop he)).frame
      have hcall : ∀ extra B', True → ∃ k, Supplies O B' ((t :: vs) ++ id extra)
          (genArgv extra >>= fun arr => asPtr (some t) >>=
            emitCall ⟨cs, n.addr⟩ ft.ret (vs ++ [cI64 (BitVec.ofNat 64 extra.length), arr]))
          (fun rv => rv.v.toList) (fun rv => rv.t = ft.ret) []
          fun xs st => (xs.head?.bind Val.int?).bind fun c =>
            callWithArgv O ft t k c ((xs.drop 1).take vs.length) (xs.drop (vs.length + 1)) st :=
        fun extra B' _ => supplies_argvCall ⟨cs, n.addr⟩ ft t vs extra
      rcases hextra.bind_at hcall with ⟨k, hk⟩
      refine ⟨k, ?_⟩
      rw [List.append_nil] at hk
      refine hk.congr ?_
      intro ρ st z hz
      rcases Option.bind_eq_some_iff.mp hz with ⟨c, hc, hz⟩
      have hc : (t.eval O.world ρ).int? = some c := hc
      rcases Option.bind_eq_some_iff.mp hz with ⟨y, hy, hz⟩
      have hy : runAll ((args.drop ft.params.length).map (passExtra O.world n M)) st = some y := hy
      rw [hy, ← hz]
      have hlen : (vs.map (·.eval O.world ρ)).length = vs.length := List.length_map _
      have htake : ((vs.map (·.eval O.world ρ)) ++ y.1).take vs.length = vs.map (·.eval O.world ρ) :=
        List.take_left' hlen
      have hdrop : ((vs.map (·.eval O.world ρ)) ++ y.1).drop vs.length = y.1 :=
        List.drop_left' hlen
      change ((t.eval O.world ρ).int?.bind fun c => callWithArgv O ft t k c
        (((vs.map (·.eval O.world ρ)) ++ y.1).take vs.length)
        (((vs.map (·.eval O.world ρ)) ++ y.1).drop vs.length) y.2) = _
      rw [hc, htake, hdrop]
      rfl

/-! ### The whole call -/

/-- Slots behind the parameters stand for none of them. -/
theorem passParams_take {W : World} : ∀ {ps : List FuncParam} {args : List Arg} {i k : Nat}
    {prev : Option Ty}, ps.length ≤ k →
      passParams W Γ n M D i ps (args.take k) prev = passParams W Γ n M D i ps args prev := by
  intro ps
  induction ps with
  | nil => exact fun _ => rfl
  | cons p ps ih =>
      intro args i k prev hk
      rw [List.length_cons] at hk
      rcases Nat.exists_eq_succ_of_ne_zero (Nat.ne_of_gt (Nat.lt_of_lt_of_le (Nat.succ_pos _) hk))
        with ⟨k, rfl⟩
      cases args with
      | nil => rw [List.take_nil]
      | cons arg args =>
          unfold passParams
          rw [List.take_succ_cons, List.head?_cons, List.head?_cons, List.tail_cons, List.tail_cons,
            ih (Nat.le_of_succ_le_succ hk)]

theorem mem_fitting {ft : FuncType} {arg : Arg} (h : arg ∈ fitting ft args) : arg ∈ args := by
  unfold fitting at h
  split at h
  · exact List.mem_of_mem_take h
  · exact h

theorem passParams_fitting {W : World} (ft : FuncType) {prev : Option Ty} :
    passParams W Γ n M D 0 ft.params (fitting ft args) prev =
      passParams W Γ n M D 0 ft.params args prev := by
  unfold fitting
  split
  · exact passParams_take (Nat.le_refl _)
  · rfl

theorem surplus_fitting {W : World} (ft : FuncType) :
    surplus W n M ft (fitting ft args) = surplus W n M ft args := by
  unfold surplus fitting tooMany
  cases ft.variadic with
  | false => rfl
  | true => rw [Bool.not_true, Bool.and_false, if_neg Bool.false_ne_true]

/-- What is passed for the parameters of the type. -/
def passed (W : World) (Γ : Env) (n : Node) (M D : Expr → Meaning) (ft : FuncType)
    (args : List Arg) : List Passed :=
  passParams W Γ n M D 0 ft.params args none

/-- The diagnostic for slots that nothing takes. -/
def countReport (n : Node) (ft : FuncType) (args : List Arg) : List (SrcLoc × String) :=
  if tooMany ft args then [(n.loc, "too many arguments")] else []

/-- The call: what is passed for the parameters, what is passed in the surplus slots, the call. -/
def runCall (O : Oracle) (ft : FuncType) (t : Value) (ps es : List Passed) (k : Nat) (c : I64)
    (st : St) : Option (List Val × St) :=
  (runAll ps st).bind fun y => runRest O ft t es k c y.1 y.2

/-- The code of `genCallTo`, where `t` is what is called. -/
theorem supplies_genCallTo (ht : sym.fn.or fnPtr = some t)
    (hfn : ∀ f, sym.fn = some f → f.type = .ptr)
    (hM : ∀ e, some e ∈ args → (M e).Of O (R.genExpr cs e) ∧ ∃ t, Γ.typeOf e = some t)
    (hD : ∀ p ∈ sym.type.params, ∀ e, p.dflt = some e → (D e).Of O (R.genExpr (n.addr :: cs) e)) :
    ∃ k, Supplies O B [t] (genCallTo Γ R cs n sym args fnPtr) (fun rv => rv.v.toList)
      (fun rv => rv.t = sym.type.ret)
      (countReport n sym.type args ++ (reportAll (passed O.world Γ n M D sym.type args) ++
        reportAll (surplus O.world n M sym.type args)))
      fun xs st => (xs.head?.bind Val.int?).bind fun c =>
        runCall O sym.type t (passed O.world Γ n M D sym.type args)
          (surplus O.world n M sym.type args) k c st := by
  rw [genCallTo_eq ht hfn]
  have hM' : ∀ e, some e ∈ fitting sym.type args →
      (M e).Of O (R.genExpr cs e) ∧ ∃ t, Γ.typeOf e = some t := fun e he => hM e (mem_fitting he)
  have hcount : Supplies O B [t] (if tooMany sym.type args then error n.loc "too many arguments"
      else pure ()) (fun _ => []) (fun _ => True) (countReport n sym.type args)
      fun _ st => some ([], st) := by
    unfold countReport
    split
    · exact Supplies.error n.loc _
    · exact .pure (g := fun _ => []) trivial (fun _ _ w hw => absurd hw List.not_mem_nil)
        fun _ => rfl
  have hparams : ∀ B', Supplies O B' ([t] ++ []) (genParams Γ R cs n 0 sym.type.params
      (fitting sym.type args) none) id (fun _ => True)
      (reportAll (passed O.world Γ n M D sym.type args))
      fun _ st => runAll (passed O.world Γ n M D sym.type args) st := by
    intro B'
    unfold passed
    rw [← passParams_fitting]
    exact (supplies_genParams 0 none B' hM' hD).frame
  have hrest : ∀ vs B', True → ∃ k, Supplies O B' (([t] ++ []) ++ id vs)
      (genRest R cs n sym.type (fitting sym.type args) t vs) (fun rv => rv.v.toList)
      (fun rv => rv.t = sym.type.ret) (reportAll (surplus O.world n M sym.type args))
      fun xs st => (xs.head?.bind Val.int?).bind fun c =>
        runRest O sym.type t (surplus O.world n M sym.type args) k c xs.tail st := by
    intro vs B' _
    rw [← surplus_fitting]
    exact supplies_genRest (fun e he => (hM' e he).1) vs
  rcases hcount.bind_at fun _ B' _ => (hparams B').bind_at hrest with ⟨k, hk⟩
  refine ⟨k, hk.congr ?_⟩
  intro ρ st z hz
  rcases Option.bind_eq_some_iff.mp hz with ⟨c, hc, hz⟩
  have hc : (t.eval O.world ρ).int? = some c := hc
  rcases Option.bind_eq_some_iff.mp hz with ⟨y, hy, hz⟩
  change ((runAll (passed O.world Γ n M D sym.type args) st).bind fun y =>
    (t.eval O.world ρ).int?.bind fun c => runRest O sym.type t
      (surplus O.world n M sym.type args) k c y.1 y.2) = _
  rw [hy, hc]
  exact hz

/-! ### Which slot stands for which parameter -/

/-- What is written in slot `i`. -/
def slotAt (args : List Arg) (i : Nat) : Arg := args[i]?.getD none

/-- The type `lastclass` stands for at parameter `i`. -/
def lastTypeAt (W : World) (Γ : Env) (M D : Expr → Meaning) (ps : List FuncParam)
    (args : List Arg) : Nat → Option Ty
  | 0 => none
  | i + 1 => ps[i]?.bind fun p => lastType W Γ M D p (slotAt args i) (lastTypeAt W Γ M D ps args i)

/-- The loop, from parameter `i` on. -/
theorem passParams_drop (W : World) (ps : List FuncParam) (args : List Arg) : ∀ {i : Nat},
    i ≤ ps.length → (passParams W Γ n M D 0 ps args none).drop i =
      passParams W Γ n M D i (ps.drop i) (args.drop i) (lastTypeAt W Γ M D ps args i) := by
  intro i
  induction i with
  | zero => exact fun _ => rfl
  | succ i ih =>
      intro hi
      have hslot : (args.drop i).head?.getD none = slotAt args i := by
        rw [List.head?_drop]
        rfl
      have hlast : lastTypeAt W Γ M D ps args (i + 1) =
          lastType W Γ M D ps[i] (slotAt args i) (lastTypeAt W Γ M D ps args i) := by
        change ps[i]?.bind _ = _
        rw [List.getElem?_eq_getElem hi]
        rfl
      rw [← List.tail_drop, ih (Nat.le_of_succ_le hi), List.drop_eq_getElem_cons hi, hlast]
      rw [passParams, List.tail_cons, List.tail_drop, hslot]

/-- Parameter `i` receives what is written in slot `i`, or its default. -/
theorem passed_get (W : World) (ft : FuncType) (args : List Arg) {i : Nat} {p : FuncParam}
    (hp : ft.params[i]? = some p) : (passed W Γ n M D ft args)[i]? =
      some (passParam W Γ n M D i p (slotAt args i) (lastTypeAt W Γ M D ft.params args i)) := by
  rcases List.getElem?_eq_some_iff.mp hp with ⟨hi, rfl⟩
  have hslot : (args.drop i).head?.getD none = slotAt args i := by
    rw [List.head?_drop]
    rfl
  unfold passed
  rw [← List.head?_drop, passParams_drop W ft.params args (Nat.le_of_lt hi),
    List.drop_eq_getElem_cons hi]
  unfold passParams
  rw [List.head?_cons, hslot]

theorem length_passParams (W : World) : ∀ {ps : List FuncParam} {args : List Arg} {i : Nat}
    {prev : Option Ty}, (passParams W Γ n M D i ps args prev).length = ps.length := by
  intro ps
  induction ps with
  | nil => exact rfl
  | cons p ps ih => exact congrArg Nat.succ ih

/-- The slots that are written, and where, are those of the call. -/
theorem slotAt_slotArgs (slots : List (Option Expr)) (i : Nat) :
    slotAt (Parser.slotArgs slots) i = slotAt slots i := by
  unfold Parser.slotArgs
  split
  · cases i <;> rfl
  · rfl

/-! ### The array -/

theorem castSlot_int {W : World} {ty : Option LTy} {x : Option Val} {y : Val}
    (h : castSlot W ty x = some y) : ∃ i, y = .int i := by
  unfold castSlot castI64 at h
  split at h
  · rcases Option.map_eq_some_iff.mp h with ⟨q, _, rfl⟩
    exact ⟨_, rfl⟩
  · split at h
    · rcases Option.some.inj h with rfl
      exact ⟨_, rfl⟩
    · rcases Option.map_eq_some_iff.mp h with ⟨i, _, rfl⟩
      exact ⟨_, rfl⟩
    · rcases Option.map_eq_some_iff.mp h with ⟨i, _, rfl⟩
      exact ⟨_, rfl⟩

theorem passExtra_int {W : World} {arg : Arg} {st : St} {y : Val × St}
    (h : (passExtra W n M arg).run st = some y) : ∃ i, y.1 = .int i := by
  cases arg with
  | none =>
      rcases Option.some.inj h with rfl
      exact ⟨0, rfl⟩
  | some e =>
      rcases Option.bind_eq_some_iff.mp h with ⟨z, _, h⟩
      rcases Option.map_eq_some_iff.mp h with ⟨x, hx, rfl⟩
      exact castSlot_int hx

/-- Each slot yields one word. -/
theorem runAll_extra {W : World} : ∀ {args : List Arg} {st st' : St} {zs : List Val},
    runAll (args.map (passExtra W n M)) st = some (zs, st') →
      zs.length = args.length ∧ ∀ z ∈ zs, ∃ i, z = .int i := by
  intro args
  induction args with
  | nil =>
      intro st st' zs h
      rcases Prod.mk.inj (Option.some.inj h) with ⟨rfl, rfl⟩
      exact ⟨rfl, fun _ h => absurd h List.not_mem_nil⟩
  | cons arg args ih =>
      intro st st' zs h
      rcases Option.bind_eq_some_iff.mp h with ⟨y, hy, h⟩
      rcases Option.map_eq_some_iff.mp h with ⟨z, hz, h⟩
      rcases Prod.mk.inj h with ⟨rfl, rfl⟩
      rcases ih hz with ⟨hlen, hint⟩
      refine ⟨congrArg Nat.succ hlen, ?_⟩
      intro w hw
      rcases List.mem_cons.mp hw with rfl | hw
      · exact passExtra_int hy
      · exact hint w hw

/-- Where `argv` points, the words of the surplus slots lie one behind the other. -/
theorem argvMem_read {W : World} {args : List Arg} {st st' : St} {zs : List Val} {k j : Nat}
    {z : Val} (m : Mem) (h : runAll (args.map (passExtra W n M)) st = some (zs, st'))
    (hlen : 8 * args.length ≤ 2 ^ 64) (hz : zs[j]? = some z) :
    z = .int ((argvMem W k zs m).read (argvAddr W k zs + BitVec.ofNat 64 (8 * j)) 8) := by
  rcases runAll_extra h with ⟨hzs, hint⟩
  rcases hint z (List.mem_of_getElem? hz) with ⟨x, rfl⟩
  have hne : zs.isEmpty = false := by
    cases zs with
    | nil => cases hz
    | cons _ _ => rfl
  unfold argvMem argvAddr
  rw [hne, if_neg Bool.false_ne_true, if_neg Bool.false_ne_true]
  have hread : (storeArgs W (W.slotAddr k) 0 zs m).read
      (W.slotAddr k + BitVec.ofNat 64 (8 * (0 + j))) 8 = x := storeArgs_read (by omega) hz
  rw [Nat.zero_add] at hread
  rw [hread]

/-! ### What the call reports -/

/-- The diagnostics of the call itself. -/
def ownReports (W : World) (Γ : Env) (n : Node) (M D : Expr → Meaning) (ft : FuncType)
    (args : List Arg) : List (SrcLoc × String) :=
  countReport n ft args ++
    (passed W Γ n M D ft args ++ surplus W n M ft args).flatMap (·.own)

theorem passParam_own {W : World} {i : Nat} {p : FuncParam} {arg : Arg} {prev : Option Ty} :
    (passParam W Γ n M D i p arg prev).own = [] ↔ (required p = true → arg ≠ none) := by
  unfold passParam
  cases required p <;> cases arg <;> simp

theorem passExtra_own {W : World} {arg : Arg} : (passExtra W n M arg).own = [] ↔ arg ≠ none := by
  cases arg <;> simp [passExtra, Meaning.asExtra]

/-- The call itself reports nothing where no slot is in excess, each parameter without a default
has its slot written, and no surplus slot is skipped. -/
theorem ownReports_nil (W : World) (ft : FuncType) (args : List Arg) :
    ownReports W Γ n M D ft args = [] ↔
      (ft.variadic = true ∨ args.length ≤ ft.params.length) ∧
      (∀ i p, ft.params[i]? = some p → required p = true → slotAt args i ≠ none) ∧
      (ft.variadic = true → none ∉ args.drop ft.params.length) := by
  have hcount : countReport n ft args = [] ↔
      (ft.variadic = true ∨ args.length ≤ ft.params.length) := by
    unfold countReport tooMany
    cases ft.variadic <;> simp
  have hparams : (∀ a ∈ passed W Γ n M D ft args, a.own = []) ↔
      ∀ i p, ft.params[i]? = some p → required p = true → slotAt args i ≠ none := by
    constructor
    · intro h i p hp
      exact passParam_own.mp (h _ (List.mem_of_getElem? (passed_get W ft args hp)))
    · intro h a ha
      rcases List.mem_iff_getElem?.mp ha with ⟨i, hi⟩
      have hlen : i < ft.params.length := by
        rcases List.getElem?_eq_some_iff.mp hi with ⟨hlt, -⟩
        unfold passed at hlt
        rw [length_passParams] at hlt
        exact hlt
      have hp : ft.params[i]? = some ft.params[i] := List.getElem?_eq_getElem hlen
      rw [passed_get W ft args hp] at hi
      rcases Option.some.inj hi with rfl
      exact passParam_own.mpr (h i _ hp)
  have hsurplus : (∀ a ∈ surplus W n M ft args, a.own = []) ↔
      (ft.variadic = true → none ∉ args.drop ft.params.length) := by
    unfold surplus
    cases ft.variadic with
    | false => simp
    | true =>
        constructor
        · intro h _ hnone
          exact passExtra_own.mp (h _ (List.mem_map_of_mem hnone)) rfl
        · intro h a ha
          rcases List.mem_map.mp ha with ⟨arg, harg, rfl⟩
          refine passExtra_own.mpr ?_
          rintro rfl
          exact h rfl harg
  unfold ownReports
  rw [List.append_eq_nil_iff, hcount, List.flatMap_append, List.append_eq_nil_iff,
    List.flatMap_eq_nil_iff, List.flatMap_eq_nil_iff, hparams, hsurplus]

/-- What a literal means. -/
def Meaning.intLit (v : I64) : Meaning where
  type := .i64
  lty := some (.int 64)
  run st := some (some (.int v), st)

theorem of_intLit (d : Nat) (v : I64) :
    (Meaning.intLit v).Of O ((gen Γ (d + 1)).genExpr cs (.intLit n v)) := by
  intro B
  refine Supplies.pure (g := fun _ => [.int v]) ⟨rfl, rfl⟩ ?_ fun _ => rfl
  intro k _ w hw
  rcases List.mem_singleton.mp hw with rfl
  exact trivial

/-- `F(3, , , 5)` calls a function of a number, of `lastclass`, of a number that is 7 where nothing
is written, and of more. -/
def skippingType : FuncType where
  ret := .i64
  params := [.mk "a" .i64 none false, .mk "b" (.ptr .u8) none true,
    .mk "c" .i64 (some (.intLit ⟨{}, 9⟩ 7)) false]
  variadic := true

/-- The tokens of `3, , , 5)`. -/
def skippingTokens : List Token :=
  [.ofInt 3, .ofPunct .comma, .ofPunct .comma, .ofPunct .comma, .ofInt 5, .ofPunct .rParen]

theorem parse_ofInt (E : Parser.ParseEnv) (v : I64) (p : P) (rest : List Token)
    (hp : p = .comma ∨ p = .rParen) (k : Nat) :
    Parser.parseAssign E 3 { toks := .ofInt v :: .ofPunct p :: rest, next := k } =
      some (.intLit ⟨{}, k⟩ v, { toks := .ofPunct p :: rest, next := k + 1 }) := by
  rcases hp with rfl | rfl <;> rfl

theorem slots_skipping (E : Parser.ParseEnv) : Parser.Slots (Parser.parseAssign E 3)
    { toks := skippingTokens } [some (.intLit ⟨{}, 0⟩ 3), none, none, some (.intLit ⟨{}, 1⟩ 5)]
    { toks := [], next := 2 } := by
  refine .cons (.filled rfl (parse_ofInt E 3 .comma _ (.inl rfl) 0)) rfl ?_
  refine .cons (.skipped rfl) rfl ?_
  refine .cons (.skipped rfl) rfl ?_
  exact .last (.filled rfl (parse_ofInt E 5 .rParen _ (.inr rfl) 1)) rfl

/-- What literals mean. -/
def literal : Expr → Meaning
  | .intLit _ v => .intLit v
  | _ => .zero

end Call

end Hlang.Codegen
