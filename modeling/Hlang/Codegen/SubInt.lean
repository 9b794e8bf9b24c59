import Hlang.Codegen.Condition
import Hlang.Codegen.Stores
import Hlang.Ir.Fields

/-!
# Hlang.Codegen.SubInt — sub-int access

`x.u8[k]` and its like are views of the bytes of a variable, also one through another
(`x.i32[a].u8[b]`). A view is a byte offset and a type. Reading it extracts bits of the
word the variable holds, assigning to it splices bits into the word.
-/

namespace Hlang.Codegen

open Ir Gen

/-- The integer a value is. -/
def intOf (x : Val) : I64 := x.int?.getD 0

section Helpers

variable {O : Oracle} {α β : Type} {r : Value → α} {r' : Value → β} {ty ty' : LTy}
  {f : St → Val × St}

/-- What follows a generator may be replaced by what does the same with its results. -/
theorem Works.bind_congr {x : Gen α} {k k' : α → Gen β} (hx : Works O x r ty f)
    (hk : ∀ v, k (r v) = k' (r v)) {g : St → Val × St} (h : Works O (x >>= k') r' ty' g) :
    Works O (x >>= k) r' ty' g := by
  refine ⟨h.fits, ?_⟩
  intro B hB
  rcases hx.runs B hB with ⟨v, B₁, heq, _⟩
  have hsame : (x >>= k) B = (x >>= k') B := by
    rw [Gen.bind_ok heq, Gen.bind_ok heq, hk v]
  rw [hsame]
  exact h.runs B hB

/-- A result that is wrapped once more. -/
theorem Works.wrap {x : Gen α} {k : α → Gen β} (hx : Works O x r ty f)
    (hk : ∀ v, k (r v) = Pure.pure (r' v)) : Works O (x >>= k) r' ty f := by
  refine ⟨hx.fits, ?_⟩
  intro B hB
  rcases hx.runs B hB with ⟨v, B₁, heq, hl, hrun⟩
  refine ⟨v, B₁, ?_, hl, hrun⟩
  rw [Gen.bind_ok heq, hk v]
  rfl

/-- A value under a function that agrees on the values of the type. -/
theorem Turns.value {x : Value → Gen α} {F G : Val → Val} (h : Turns O x r ty ty' F)
    (hFG : ∀ v, v.Fits ty → G v = F v) : Turns O x r ty ty' G := by
  constructor
  · intro v hv
    rw [hFG v hv]
    exact h.fits v hv
  · intro B v hB hv htype
    rcases h.runs B v hB hv htype with ⟨w, B', heq, hl, hrun⟩
    refine ⟨w, B', heq, hl, ?_⟩
    intro T prev ρ st a ha heval
    rw [hFG a ha]
    exact hrun T prev ρ st a ha heval

theorem subIntType_cases {s : String} {t : Ty} (h : subIntType s = some t) :
    ∃ n uns, t = .int n uns ∧ (n = 1 ∨ n = 2 ∨ n = 4 ∨ n = 8) := by
  unfold subIntType at h
  split at h
  all_goals first
    | (rcases Option.some.inj h with rfl; exact ⟨_, _, rfl, by omega⟩)
    | cases h

theorem accessType_int {H : Heap} {fuel : Nat} (hfuel : 0 < fuel) (n : Nat) (uns : Bool) :
    accessType H fuel (.int n uns) = some (.int n uns) := by
  cases fuel with
  | zero => exact absurd hfuel (Nat.lt_irrefl 0)
  | succ fuel => rfl

/-- A product with a constant. -/
theorem turns_scale (c : I64) : Turns O (fun w => create (.bin .mul w (cI64 c))) id (.int 64)
    (.int 64) fun x => .int (intOf x * c) := by
  refine .create (fun _ _ => LTy.noConfusion) (fun v hv => hv) ?_
  intro es ρ m v x _ hx hv
  rcases fits_int_cases hx with ⟨i, rfl⟩
  change (v.evalInt (O.seen es) ρ).bind _ = _
  rw [evalInt_seen hv]
  rfl

/-- An address at an offset. -/
theorem turns_gep : Turns₂ O (fun a k => create (.gep a k)) id .ptr (.int 64) .ptr
    fun x y => .int (intOf x + intOf y) := by
  refine .create (fun _ _ _ _ => LTy.noConfusion) (fun _ _ _ _ => rfl) ?_
  intro es ρ m v w x y hx hy hv hw
  rcases fits_int_cases hy with ⟨j, rfl⟩
  cases x with
  | fp q => exact absurd hx LTy.noConfusion
  | int i =>
      change (v.evalInt (O.seen es) ρ).bind _ = _
      rw [evalInt_seen hv]
      change (w.evalInt (O.seen es) ρ).bind _ = _
      rw [evalInt_seen hw]
      rfl

/-- A load of an integer. -/
theorem alters_load (bits : Nat) : Alters O (fun a => create (.load (.int bits) a)) id .ptr
    (.int bits) fun x st => (.int (st.1.read (intOf x) (bits / 8)), st) := by
  refine ⟨fun _ _ _ => LTy.noConfusion, ?_⟩
  intro B v hB hv htype
  refine ⟨_, _, rfl, .created hB (.load (.int bits) v), ?_⟩
  intro T prev ρ st x hx heval
  apply Carries.created
  cases x with
  | fp q => exact absurd hx LTy.noConfusion
  | int i =>
      change (v.evalInt (O.seen st.2) ρ).bind _ = _
      rw [evalInt_seen heval]
      rfl

theorem signBits_full (x : I64) : signBits 64 x = x := by
  unfold signBits
  rw [BitVec.setWidth_eq, BitVec.signExtend_eq]

/-- `widen` of a value that was loaded. -/
theorem turns_widen {n : Nat} (hn : n = 1 ∨ n = 2 ∨ n = 4 ∨ n = 8) (uns : Bool) :
    Turns O (fun v => widen v (.int n uns)) id (.int (n * 8)) (.int 64)
      fun x => .int (if uns then intOf x else signBits (8 * n) (intOf x)) := by
  by_cases h8 : n = 8
  · subst h8
    have hpure : Turns O pure id (.int 64) (.int 64) id := .pure
    refine (hpure.congr (fun v hv => ?_)).value ?_
    · unfold widen
      simp [hv, Ty.isF64]
    · intro x hx
      rcases fits_int_cases hx with ⟨i, rfl⟩
      cases uns with
      | false => exact congrArg Val.int (signBits_full i)
      | true => rfl
  · have hptr : LTy.int (n * 8) ≠ .ptr := LTy.noConfusion
    have hword : LTy.int (n * 8) ≠ .int 64 := by
      intro h
      have hbits := LTy.int.inj h
      omega
    cases uns with
    | true =>
        have hzext : Turns O (fun v => create (.zext v)) id (.int (n * 8)) (.int 64)
            fun x => .int (intOf x) := by
          refine .create (fun _ _ => LTy.noConfusion) (fun _ _ => rfl) ?_
          intro es ρ m v x _ hx hv
          rcases fits_int_cases hx with ⟨i, rfl⟩
          change (v.evalInt (O.seen es) ρ).bind _ = _
          rw [evalInt_seen hv]
          rfl
        refine hzext.congr fun v hv => ?_
        unfold widen
        simp [hv, Ty.isF64, hword]
    | false =>
        have hsext : Turns O (fun v => create (.sext v)) id (.int (n * 8)) (.int 64)
            fun x => .int (signBits (8 * n) (intOf x)) := by
          refine .create (fun _ _ => LTy.noConfusion) (fun _ _ => rfl) ?_
          intro es ρ m v x htype hx hv
          rcases fits_int_cases hx with ⟨i, rfl⟩
          unfold Op.eval
          dsimp only
          rw [htype, evalInt_seen hv, Nat.mul_comm n 8]
          rfl
        refine hsext.congr fun v hv => ?_
        unfold widen
        simp [hv, Ty.isF64, hword]

/-! ## Loads and stores -/

variable {Γ : Env} {n : Nat}

/-- The address in a value. -/
theorem fits_ptr {x : Val} (hx : x.Fits .ptr) : x = .int (intOf x) := by
  cases x with
  | int i => rfl
  | fp q => exact absurd hx LTy.noConfusion

theorem memTy_int (hn : n = 1 ∨ n = 2 ∨ n = 4 ∨ n = 8) (uns : Bool) :
    Γ.memTy (.int n uns) = .int (n * 8) := by
  unfold Env.memTy
  dsimp only
  rw [if_neg (by omega)]

/-- A load of a narrow integer, widened. -/
theorem alters_loadFrom (hfuel : 0 < Γ.classFuel) (hn : n = 1 ∨ n = 2 ∨ n = 4 ∨ n = 8)
    (uns : Bool) :
    Alters O (fun a => loadFrom Γ a (.int n uns)) (fun w => ⟨some w, .int n uns⟩) .ptr (.int 64)
      fun x st => (.int (if uns then st.1.read (intOf x) n
        else signBits (8 * n) (st.1.read (intOf x) n)), st) := by
  have hload := (alters_load (O := O) (n * 8)).turn
    ((turns_widen hn uns).wrap fun w => (⟨some w, .int n uns⟩ : RV))
  rw [Nat.mul_div_cancel n (by decide)] at hload
  refine hload.congr fun v _ => ?_
  unfold loadFrom
  rw [accessType_int hfuel]
  change (Pure.pure (Ty.int n uns) >>= _) = _
  rw [pure_bind]
  change (create (.load (Γ.memTy (.int n uns)) v) >>= _) = _
  rw [memTy_int hn]

theorem byteOf_lowBits (v : I64) {k : Nat} (hk : k < n) :
    byteOf (lowBits (8 * n) v) k = byteOf v k := by
  refine BitVec.eq_of_getLsbD_eq fun i hi => ?_
  unfold byteOf
  rw [BitVec.getLsbD_setWidth, BitVec.getLsbD_setWidth, BitVec.getLsbD_ushiftRight,
    BitVec.getLsbD_ushiftRight]
  by_cases h64 : 8 * k + i < 64
  · have hin : 8 * k + i < 8 * n := by omega
    rw [Ir.getLsbD_lowBits _ _ h64, decide_eq_true hin, Bool.true_and]
  · rw [BitVec.getLsbD_of_ge _ _ (by omega), BitVec.getLsbD_of_ge _ _ (by omega)]

/-- A store of the low bytes of a word. -/
theorem write_lowBits (m : Mem) (a v : I64) :
    m.write a n (byteOf (lowBits (8 * n) v)) = m.write a n (byteOf v) := by
  funext x
  unfold Mem.write
  split
  · next h => exact byteOf_lowBits v h
  · rfl

theorem storeTo_int (hfuel : 0 < Γ.classFuel) (hn : n = 1 ∨ n = 2 ∨ n = 4 ∨ n = 8) (uns : Bool)
    {v w : Value} (hw : w.type = .int 64) (t : Ty) :
    storeTo Γ v ⟨some w, t⟩ (.int n uns) =
      if n = 8 then emit (.store (.int 64) w v)
      else create (.trunc (n * 8) w) >>= fun z => emit (.store (.int (n * 8)) z v) := by
  unfold storeTo
  rw [accessType_int hfuel]
  change (Pure.pure (Ty.int n uns) >>= _) = _
  rw [pure_bind]
  have hconv : convert ⟨some w, t⟩ .i64 false = Pure.pure w := by
    unfold convert
    simp [hw, Ty.isF64, Ty.i64, ptrToI64_eq hw]
  rw [memTy_int hn]
  simp only [isAggregate, hconv]
  rcases hn with rfl | rfl | rfl | rfl
  · rfl
  · rfl
  · rfl
  · rfl

/-- A store of a truncated word. -/
theorem carries_storedLow {T : Switches} {B : Builder} {prev : Blk} {ρ : Regs} {st : St}
    {Q : Regs → Prop} {v addr : Value} {a x : I64} (ha : addr.eval O.world ρ = .int a)
    (hv : v.eval O.world ρ = .int (lowBits (n * 8) x)) (h : Q ρ) :
    Carries O T B (B.push (.store (.int (n * 8)) v addr)) prev ρ st
      (st.1.write a n (byteOf x), st.2) Q := by
  have hstored : Carries O T B (B.push (.store (.int (n * 8)) v addr)) prev ρ st _ Q :=
    Carries.stored ha hv h
  have hbytes : LTy.bytesOf (.int (n * 8)) = n := Nat.mul_div_cancel n (by decide)
  rw [hbytes, Nat.mul_comm n 8, write_lowBits] at hstored
  rw [Nat.mul_comm n 8]
  exact hstored

/-- The end of an assignment to a narrow integer. -/
theorem alters_genStore (hfuel : 0 < Γ.classFuel) (hn : n = 1 ∨ n = 2 ∨ n = 4 ∨ n = 8)
    (uns : Bool) (cs : List Nat) (node : Node) (t : Ty) :
    Alters₂ O (fun v w => genStore Γ cs node ⟨some v, .int n uns⟩ ⟨some w, t⟩)
      (fun w => ⟨some w, t⟩) .ptr (.int 64) (.int 64)
      fun a x st => (x, st.1.write (intOf a) n (byteOf (intOf x)), st.2) := by
  refine ⟨fun _ x _ _ hx => hx, ?_⟩
  intro B v w hB hv htv hw htw
  have hle := Builder.Le.push B (.mark ⟨cs, node.addr⟩)
  have hwf := hB.push (.mark ⟨cs, node.addr⟩)
  have herrors : (B.push (.mark ⟨cs, node.addr⟩)).errors = B.errors := rfl
  have hgen : genStore Γ cs node ⟨some v, .int n uns⟩ ⟨some w, t⟩ B =
      (storeTo Γ v ⟨some w, t⟩ (.int n uns) >>= fun _ => Pure.pure ⟨some w, t⟩)
        (B.push (.mark ⟨cs, node.addr⟩)) := rfl
  have hmark : ∀ T prev ρ st, Carries O T B (B.push (.mark ⟨cs, node.addr⟩)) prev ρ st st
      fun _ => True := fun T prev ρ st => Carries.marked trivial
  rw [storeTo_int hfuel hn uns htw] at hgen
  generalize B.push (.mark ⟨cs, node.addr⟩) = B₁ at hle hwf herrors hgen hmark
  have hv₁ := hv.mono hle.reg
  have hw₁ := hw.mono hle.reg
  by_cases h8 : n = 8
  · subst h8
    rw [if_pos rfl] at hgen
    have hle' := Builder.Le.push B₁ (.store (.int 64) w v)
    refine ⟨w, B₁.push (.store (.int 64) w v), hgen,
      ⟨hle.trans hle', hwf.push _, hw₁.mono hle'.reg, htw, herrors⟩, ?_⟩
    intro T prev ρ st x y hx hy hxv hyw
    refine (hmark T prev ρ st).trans hle hle' ?_
    intro prev' ρ' hregs _
    rw [fits_ptr hx] at hxv
    rcases fits_int_cases hy with ⟨j, rfl⟩
    exact Carries.stored (eval_kept hv hregs hxv) (eval_kept hw hregs hyw)
      (eval_kept hw hregs hyw)
  · rw [if_neg h8] at hgen
    have hle' := Builder.Le.created B₁ (.trunc (n * 8) w)
    have hle'' := Builder.Le.push (B₁.created (.trunc (n * 8) w))
      (.store (.int (n * 8)) (.reg (.int (n * 8)) B₁.nextReg) v)
    have hwf' := hwf.created (.trunc (n * 8) w)
    refine ⟨w, _, hgen, ⟨(hle.trans hle').trans hle'', hwf'.push _,
      (hw₁.mono hle'.reg).mono hle''.reg, htw, herrors⟩, ?_⟩
    intro T prev ρ st x y hx hy hxv hyw
    refine (hmark T prev ρ st).trans hle (hle'.trans hle'') ?_
    intro prev' ρ' hregs _
    rw [fits_ptr hx] at hxv
    rcases fits_int_cases hy with ⟨j, rfl⟩
    have hxv' := eval_kept hv hregs hxv
    have hyw' := eval_kept hw hregs hyw
    have htrunc : (Op.trunc (n * 8) w).eval (O.seen st.2) ρ' st.1 =
        some (.int (lowBits (n * 8) j)) := by
      change (w.evalInt (O.seen st.2) ρ').bind _ = _
      rw [evalInt_seen hyw']
      rfl
    refine (Carries.created htrunc).trans hle' hle'' ?_
    intro prev'' ρ'' hregs' hz
    exact carries_storedLow (eval_kept hv₁ hregs' hxv') hz (eval_kept hw₁ hregs' hyw')

end Helpers

/-- The address of an element at the index `iv`, and its type. -/
def subIntAddr (a : Value) (iv : RV) (size : I64) (sub : Ty) : Gen (Option LV) := do
  let off ← create (.bin .mul (← convert iv .i64) (cI64 size))
  return some ⟨some (← create (.gep a off)), sub⟩

theorem turns_subIntAddr (O : Oracle) (ti : Ty) (size : I64) (sub : Ty) :
    Turns₂ O (fun v w => subIntAddr v ⟨some w, ti⟩ size sub) (fun z => some ⟨some z, sub⟩) .ptr
      (.int 64) .ptr fun x y => .int (intOf x + intOf y * size) := by
  have hoff : Turns O (fun w => convert ⟨some w, ti⟩ .i64 >>= fun z =>
      create (.bin .mul z (cI64 size))) id (.int 64) (.int 64) fun y => .int (intOf y * size) := by
    refine (turns_scale size).congr fun w hw => ?_
    have hconv : convert ⟨some w, ti⟩ .i64 = Pure.pure w := by
      unfold convert
      simp [hw, Ty.isF64, Ty.i64, ptrToI64_eq hw]
    rw [hconv, pure_bind]
  have hpure : Turns O pure id .ptr .ptr id := .pure
  have hgep := hpure.bind₂ hoff ((turns_gep (O := O)).wrap fun z => some (⟨some z, sub⟩ : LV))
  refine hgep.congr fun v w _ _ => ?_
  unfold subIntAddr
  rw [pure_bind, bind_assoc]

/-! ## Views -/

/-- The variable `s` is a word at the address `A`. -/
structure WordAt (O : Oracle) (Γ : Env) (s : String) (v : VarSym) (A : I64) : Prop where
  found : Γ.lookupVar s = some v
  ptr : v.addr.type = .ptr
  below : ∀ n, v.addr.Below n
  addr : ∀ ρ, v.addr.eval O.world ρ = .int A
  /-- a variable of 64 bits -/
  wide : (∃ uns, v.type = .int 8 uns) ∨ v.type = .f64

section Views

variable (O : Oracle) (Γ : Env) (cs : List Nat) (s : String) (v : VarSym)

/-- `e` is a view of the variable `s` as a value of the type `t`, at the byte offset and with the
effects that the function gives. The code of `e` is generated to the depth `d`. -/
inductive View : Nat → Expr → Ty → (St → I64 × St) → Prop where
  | var (d : Nat) (n : Node) : View (d + 1) (.ident n s) v.type fun st => (0, st)
  /-- `e.T` -/
  | first {d : Nat} {e : Expr} {t sub : Ty} {off : St → I64 × St} (n : Node) (f : String)
      (h : View d e t off) (hsub : subIntType f = some sub) :
      View (d + 1) (.member n e f false) sub off
  /-- `e.T[idx]`, for an index with any effects -/
  | index {d : Nat} {e idx : Expr} {t sub ti : Ty} {off : St → I64 × St} {fi : St → Val × St}
      (n n' : Node) (f : String) (h : View d e t off) (hsub : subIntType f = some sub)
      (hidx : Works O ((gen Γ d).genExpr cs idx) (fun w => ⟨some w, ti⟩) (.int 64) fi) :
      View (d + 1) (.index n (.member n' e f false) idx) sub fun st =>
        ((off st).1 + intOf (fi (off st).2).1 * sub.size Γ.heap, (fi (off st).2).2)

end Views

section Access

variable {O : Oracle} {Γ : Env} {cs : List Nat} {s : String} {v : VarSym} {A : I64} {d : Nat}
  {e : Expr} {t : Ty} {off : St → I64 × St}

/-- The type of a view is an integer, or the double that the variable is. -/
theorem View.scalar (hv : WordAt O Γ s v A) (h : View O Γ cs s v d e t off) :
    (∃ n uns, t = .int n uns ∧ (n = 1 ∨ n = 2 ∨ n = 4 ∨ n = 8)) ∨ t = .f64 := by
  cases h with
  | var d n =>
      rcases hv.wide with ⟨uns, h⟩ | h
      · exact .inl ⟨8, uns, h, by omega⟩
      · exact .inr h
  | first n f h hsub => exact .inl (subIntType_cases hsub)
  | index n n' f h hsub hidx => exact .inl (subIntType_cases hsub)

theorem View.width {n : Nat} {uns : Bool} (hv : WordAt O Γ s v A)
    (h : View O Γ cs s v d e (.int n uns) off) : n = 1 ∨ n = 2 ∨ n = 4 ∨ n = 8 := by
  rcases h.scalar hv with ⟨m, u, heq, hm⟩ | heq
  · cases heq
    exact hm
  · cases heq

/-- The address of a view. -/
theorem View.works (hv : WordAt O Γ s v A) (h : View O Γ cs s v d e t off) :
    Works O ((gen Γ d).genLValue cs e) (fun w => ⟨some w, t⟩) .ptr
      fun st => (.int (A + (off st).1), (off st).2) := by
  induction h with
  | var d n =>
      have hgen : (gen Γ (d + 1)).genLValue cs (.ident n s) = Pure.pure ⟨some v.addr, v.type⟩ := by
        change genLValueStep Γ (gen Γ d) cs (.ident n s) = _
        unfold genLValueStep
        dsimp only
        rw [hv.found]
      have hpure := Works.pure (O := O) (r := fun w => (⟨some w, v.type⟩ : LV)) hv.below hv.ptr
        (x := .int A) LTy.noConfusion hv.addr
      rw [hgen]
      refine hpure.congr fun st => ?_
      change (Val.int (A + 0), st) = (Val.int A, st)
      have hzero : A + 0 = A := BitVec.add_zero A
      rw [hzero]
  | @first d e t sub off n f h hsub ih =>
      change Works O (genMemberLV Γ (gen Γ d) cs n e f false) _ _ _
      unfold genMemberLV
      simp only [Bool.false_eq_true, if_false]
      refine ih.wrap fun w => ?_
      change (Pure.pure (some (w, some t)) >>= _) = _
      rw [pure_bind]
      rcases h.scalar hv with ⟨m, uns, rfl, _⟩ | rfl
      · simp only [hsub]
      · simp only [hsub]
  | @index d e idx t sub ti off fi n n' f h hsub hidx ih =>
      change Works O (genIndexLV Γ (gen Γ d) cs (.member n' e f false) idx) _ _ _
      have hscalar : (t.isInt || t.isF64) = true := by
        rcases h.scalar hv with ⟨m, uns, rfl, _⟩ | rfl
        · rfl
        · rfl
      have hturns : Alters₂ O (fun w z => subIntAddr ((⟨some w, t⟩ : LV).addr.getD (cI64 0))
          ⟨some z, ti⟩ (Γ.size sub) sub) (fun z => some ⟨some z, sub⟩) .ptr (.int 64) .ptr
          fun x y st => (.int (intOf x + intOf y * Γ.size sub), st) :=
        (turns_subIntAddr O ti (Γ.size sub) sub).alters
      have haddr := Works.act₂ (h := fun (blv : LV) iv =>
        subIntAddr (blv.addr.getD (cI64 0)) iv (Γ.size sub) sub) ih hidx hturns
      have hlv : Works O (genSubIntLV Γ (gen Γ d) cs (.member n' e f false) idx)
          (fun w => some ⟨some w, sub⟩) .ptr fun st =>
            (.int (A + (off st).1 + intOf (fi (off st).2).1 * Γ.size sub), (fi (off st).2).2) := by
        unfold genSubIntLV
        simp only [hsub]
        refine ih.bind_congr (fun w => ?_) (haddr.congr fun st => rfl)
        simp only [hscalar, if_true]
        rfl
      have hindex : Works O (genIndexLV Γ (gen Γ d) cs (.member n' e f false) idx)
          (fun w => ⟨some w, sub⟩) .ptr fun st =>
            (.int (A + (off st).1 + intOf (fi (off st).2).1 * Γ.size sub), (fi (off st).2).2) := by
        unfold genIndexLV
        exact hlv.wrap fun w => rfl
      refine hindex.congr fun st => ?_
      have hassoc := BitVec.add_assoc A (off st).1 (intOf (fi (off st).2).1 * Γ.size sub)
      rw [hassoc]
      rfl

/-- The code of a view loads the bytes at its address. -/
theorem View.reads {n : Nat} {uns : Bool} (hv : WordAt O Γ s v A) (hfuel : 0 < Γ.classFuel)
    (h : View O Γ cs s v d e (.int n uns) off) :
    Works O ((gen Γ (d + 1)).genExpr cs e) (fun w => ⟨some w, .int n uns⟩) (.int 64) fun st =>
      (.int (if uns then (off st).2.1.read (A + (off st).1) n
        else signBits (8 * n) ((off st).2.1.read (A + (off st).1) n)), (off st).2) := by
  have hn := h.width hv
  have hload := Works.act
    (h := loadLV Γ) (h.works hv) (alters_loadFrom hfuel hn uns)
  have hload := hload.congr (g := fun st =>
      (.int (if uns then (off st).2.1.read (A + (off st).1) n
        else signBits (8 * n) ((off st).2.1.read (A + (off st).1) n)), (off st).2)) fun st => rfl
  generalize htype : Ty.int n uns = t at h hload
  cases h with
  | var d m =>
      have hident : (gen Γ (d + 1 + 1)).genExpr cs (.ident m s) = loadFrom Γ v.addr v.type := by
        change genIdent Γ (gen Γ (d + 1)) cs m s = _
        unfold genIdent
        rw [hv.found]
      have hlv : (gen Γ (d + 1)).genLValue cs (.ident m s) =
          Pure.pure (⟨some v.addr, v.type⟩ : LV) := by
        change genLValueStep Γ (gen Γ d) cs (.ident m s) = _
        unfold genLValueStep
        dsimp only
        rw [hv.found]
      rw [hlv, pure_bind] at hload
      rw [hident]
      exact hload
  | first m f h hsub => exact hload
  | index m m' f h hsub hidx => exact hload

/-- The code of an assignment to a view stores the low bytes of the value at its address. -/
theorem View.assigns {n : Nat} {uns : Bool} (hv : WordAt O Γ s v A) (hfuel : 0 < Γ.classFuel)
    (h : View O Γ cs s v d e (.int n uns) off) {rhs : Expr} {tr : Ty} {fv : St → Val × St}
    (hrhs : Works O ((gen Γ d).genExpr cs rhs) (fun w => ⟨some w, tr⟩) (.int 64) fv) (m : Node) :
    Works O ((gen Γ (d + 1)).genExpr cs (.assign m .assign e rhs)) (fun w => ⟨some w, tr⟩)
      (.int 64) fun st =>
        ((fv (off st).2).1, (fv (off st).2).2.1.write (A + (off st).1) n
          (byteOf (intOf (fv (off st).2).1)), (fv (off st).2).2.2) := by
  have hn := h.width hv
  have hstore := Works.act₂ (h := fun (lv : LV) rv => genStore Γ cs m lv rv) (h.works hv) hrhs
    (alters_genStore hfuel hn uns cs m tr)
  exact hstore.congr fun st => rfl

/-- An index in range of the view it is applied to. -/
theorem index_inRange {n m : Nat} {o k : I64} {uns : Bool} (hn : n = 1 ∨ n = 2 ∨ n = 4 ∨ n = 8)
    (ho : o.toNat + m ≤ 8) (hk : (k.toNat + 1) * n ≤ m) (H : Heap) :
    (o + k * Ty.size H (.int n uns)).toNat = o.toNat + k.toNat * n ∧
      o.toNat + k.toNat * n + n ≤ 8 := by
  have hsize : (Ty.size H (.int n uns)).toNat = n := by
    change n % 2 ^ 64 = n
    omega
  have hend : k.toNat * n + n ≤ m := by
    rw [Nat.succ_mul] at hk
    exact hk
  constructor
  · rw [BitVec.toNat_add, BitVec.toNat_mul, hsize, Nat.mod_eq_of_lt (by omega),
      Nat.mod_eq_of_lt (by omega)]
  · omega

/-- **Sub-int access.** For a view of a variable of 64 bits, at an offset `o` inside it:
reading it gives the bits of the variable from `8 * o` on, zero- or sign-extended; assigning to it
yields the assigned value, replaces these bits of the variable by the low bits of the value and
leaves the rest of memory alone; and an index in range of the view selects a view at the offset
`o + k * n`. -/
theorem subInt_access {n : Nat} {uns : Bool} (hv : WordAt O Γ s v A) (hfuel : 0 < Γ.classFuel)
    (h : View O Γ cs s v d e (.int n uns) off) :
    (∃ f, Works O ((gen Γ (d + 1)).genExpr cs e) (fun w => ⟨some w, .int n uns⟩) (.int 64) f ∧
      ∀ st, (off st).1.toNat + n ≤ 8 →
        f st = (.int (extractBits uns ((off st).2.1.read A 8) (8 * (off st).1.toNat) (8 * n)),
          (off st).2)) ∧
    (∀ (m : Node) (rhs : Expr) (tr : Ty) (fv : St → Val × St),
      Works O ((gen Γ d).genExpr cs rhs) (fun w => ⟨some w, tr⟩) (.int 64) fv →
      ∃ f, Works O ((gen Γ (d + 1)).genExpr cs (.assign m .assign e rhs)) (fun w => ⟨some w, tr⟩)
          (.int 64) f ∧
        ∀ st, (off st).1.toNat + n ≤ 8 →
          (f st).1 = (fv (off st).2).1 ∧ (f st).2.2 = (fv (off st).2).2.2 ∧
          (f st).2.1.read A 8 = splice ((fv (off st).2).2.1.read A 8) (8 * (off st).1.toNat)
            (8 * n) (intOf (fv (off st).2).1) ∧
          ∀ a, 8 ≤ (a - A).toNat → (f st).2.1 a = (fv (off st).2).2.1 a) ∧
    ∀ (o k : I64) (n' : Nat) (uns' : Bool), (n' = 1 ∨ n' = 2 ∨ n' = 4 ∨ n' = 8) →
      o.toNat + n ≤ 8 → (k.toNat + 1) * n' ≤ n →
      (o + k * Ty.size Γ.heap (.int n' uns')).toNat = o.toNat + k.toNat * n' ∧
        o.toNat + k.toNat * n' + n' ≤ 8 := by
  refine ⟨⟨_, h.reads hv hfuel, ?_⟩, ?_, ?_⟩
  · intro st hin
    have ho := Extent.eq_ofNat_toNat (off st).1
    have hread := Mem.read_field (m := (off st).2.1) (A := A) hin
    rw [← ho] at hread
    rw [hread, signBits_lowBits]
    rfl
  · intro m rhs tr fv hrhs
    refine ⟨_, h.assigns hv hfuel hrhs m, ?_⟩
    intro st hin
    have ho := Extent.eq_ofNat_toNat (off st).1
    have hwrite := Mem.write_field (m := (fv (off st).2).2.1) (A := A) hin (intOf (fv (off st).2).1)
    rw [← ho] at hwrite
    refine ⟨rfl, rfl, hwrite, ?_⟩
    intro a ha
    have hpart : Extent.Part ⟨A + (off st).1, n⟩ (⟨A, 8⟩ : Extent 64) := by
      have hword : (8 : Nat) ≤ 2 ^ 64 := by decide
      rw [ho]
      exact Extent.part_offset (e := ⟨A, 8⟩) hin hword
    exact if_neg fun hhas => Nat.not_lt.mpr ha (hpart a hhas)
  · intro o k n' uns' hn' ho hk
    exact index_inRange hn' ho hk Γ.heap

end Access

/-- `I64 x;` in slot 0. -/
def wordEnv : Env := { scopes := [[("x", ⟨.slot 0, .i64⟩)]], classFuel := 1 }

theorem wordEnv_x (O : Oracle) :
    WordAt O wordEnv "x" ⟨.slot 0, .i64⟩ (O.world.slotAddr 0) where
  found := rfl
  ptr := rfl
  below := fun _ => trivial
  addr := fun _ => rfl
  wide := .inl ⟨false, rfl⟩

/-- The code of a literal. -/
theorem works_literal (O : Oracle) (Γ : Env) (d : Nat) (cs : List Nat) (n : Node) (x : I64) :
    Works O ((gen Γ (d + 1)).genExpr cs (.intLit n x)) (fun w => ⟨some w, .i64⟩) (.int 64)
      fun st => (.int x, st) :=
  Works.pure (r := fun w => (⟨some w, .i64⟩ : RV)) (v := cI64 x) (fun _ => trivial) rfl
    LTy.noConfusion fun _ => rfl

/-- `x.i32[1].u8[2] = 511`, for `x = -1`: byte 6 of `x` becomes 255, and the value is 511. -/
theorem assign_byte_six :
    ∃ f, Works callsOracle ((gen wordEnv 4).genExpr [] (.assign {} .assign
        (.index {} (.member {} (.index {} (.member {} (.ident {} "x") "i32" false) (.intLit {} 1))
          "u8" false) (.intLit {} 2)) (.intLit {} 511))) (fun w => ⟨some w, .i64⟩) (.int 64) f ∧
      (f (fun _ => 1, [])).1 = .int 511 ∧
      (f (fun _ => 1, [])).2.1.read (callsOracle.world.slotAddr 0) 8 = 0x01FF010101010101 := by
  have hx : View callsOracle wordEnv [] "x" ⟨.slot 0, .i64⟩ 1 (.ident {} "x") .i64
      fun st => (0, st) :=
    .var 0 {}
  have hi32 : subIntType "i32" = some (.int 4 false) := rfl
  have hu8 : subIntType "u8" = some (.int 1 true) := rfl
  have hview := (hx.index {} {} "i32" hi32 (works_literal callsOracle wordEnv 0 [] {} 1)).index
    {} {} "u8" hu8 (works_literal callsOracle wordEnv 1 [] {} 2)
  have haccess := (subInt_access (wordEnv_x callsOracle) (by decide) hview).2.1 {} (.intLit {} 511)
    .i64 _ (works_literal callsOracle wordEnv 2 [] {} 511)
  rcases haccess with ⟨f, hf, hspec⟩
  have hoff : ((0 + 1 * 4 + 2 * 1 : I64)).toNat + 1 ≤ 8 := by decide
  have hspec := hspec (fun _ => 1, []) hoff
  have hold : Mem.read (fun _ => 1) (callsOracle.world.slotAddr 0) 8 = 0x0101010101010101 := by
    decide
  have hnew : splice 0x0101010101010101 48 8 511 = 0x01FF010101010101 := by decide
  refine ⟨f, hf, hspec.1, ?_⟩
  have hread : (f (fun _ => 1, [])).2.1.read (callsOracle.world.slotAddr 0) 8 =
      splice (Mem.read (fun _ => 1) (callsOracle.world.slotAddr 0) 8) 48 8 511 := hspec.2.2.1
  exact hread.trans ((congrArg (fun x => splice x 48 8 511) hold).trans hnew)

end Hlang.Codegen
