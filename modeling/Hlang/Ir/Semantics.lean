import Hlang.Ir.Syntax
import Hlang.Runtime.Pow
import Mathlib.Logic.Relation
import Mathlib.Logic.Function.Basic
import Mathlib.Algebra.Order.Field.Rat

/-!
# Hlang.Ir.Semantics — running the emitted code

A run is a sequence of steps between configurations. A step that LLVM leaves
undefined (a division by zero, a conversion out of range) does not exist. What
is not part of a function is in a `World`: where its storage is, the bits of a
double, and the functions it calls.
-/

namespace Hlang.Ir

/-- A value at run time; integers are zero-extended, a pointer is its address. -/
inductive Val where
  | int (v : I64)
  | fp (q : ℚ)
deriving DecidableEq

/-- Byte-addressed memory. -/
abbrev Mem := I64 → BitVec 8

/-- What the code of a function refers to. -/
structure World where
  slotAddr : Nat → I64
  globAddr : String → I64
  strAddr : String → I64
  fnAddr : String → I64
  /-- the bits of a double, and the double of some bits -/
  f64Bits : ℚ → I64
  f64OfBits : I64 → ℚ
  /-- `HC_Pow` -/
  pow : ℚ → ℚ → ℚ
  /-- any other function: its result and the memory it leaves -/
  call : Val → List Val → Mem → Option (Option Val × Mem)

/-- A world with everything at address 0, in which no function returns. -/
def World.still : World :=
  ⟨fun _ => 0, fun _ => 0, fun _ => 0, fun _ => 0, fun _ => 0, fun _ => 0, fun _ _ => 0,
    fun _ _ _ => none⟩

/-! ## Memory -/

/-- Byte `k` of a word, the lowest first. -/
def byteOf (v : I64) (k : Nat) : BitVec 8 := (v >>> (8 * k)).setWidth 8

/-- The word of `n` bytes at `a`. -/
def Mem.read (m : Mem) (a : I64) : Nat → I64
  | 0 => 0
  | n + 1 => (m.read (a + 1) n) <<< 8 ||| (m a).setWidth 64

/-- Write byte `f k` at `a + k`, for `k < n`. -/
def Mem.write (m : Mem) (a : I64) (n : Nat) (f : Nat → BitVec 8) : Mem :=
  fun x => if (x - a).toNat < n then f (x - a).toNat else m x

/-! ## Values and instructions -/

/-- Truncation toward zero. -/
def truncate (q : ℚ) : ℤ := q.num.tdiv q.den

/-- Truncation to an `I64`, where it fits. -/
def toI64? (q : ℚ) : Option I64 :=
  if -2 ^ 63 ≤ truncate q ∧ truncate q < 2 ^ 63 then some (BitVec.ofInt 64 (truncate q)) else none

def BinOp.eval (x y : I64) : BinOp → Option I64
  | .add => some (x + y)
  | .sub => some (x - y)
  | .mul => some (x * y)
  | .udiv => if y = 0 then none else some (x.udiv y)
  | .sdiv => if y = 0 ∨ (x = BitVec.intMin 64 ∧ y = -1) then none else some (x.sdiv y)
  | .urem => if y = 0 then none else some (x.umod y)
  | .srem => if y = 0 ∨ (x = BitVec.intMin 64 ∧ y = -1) then none else some (x.srem y)
  | .and => some (x &&& y)
  | .or => some (x ||| y)
  | .xor => some (x ^^^ y)
  | .shl => if y.toNat < 64 then some (x <<< y.toNat) else none
  | .lshr => if y.toNat < 64 then some (x >>> y.toNat) else none
  | .ashr => if y.toNat < 64 then some (x.sshiftRight y.toNat) else none

def FBinOp.eval (x y : ℚ) : FBinOp → Option ℚ
  | .fadd => some (x + y)
  | .fsub => some (x - y)
  | .fmul => some (x * y)
  | .fdiv => if y = 0 then none else some (x / y)
  | .frem => if y = 0 then none else some (x - y * truncate (x / y))

def ICmp.eval (x y : I64) : ICmp → Bool
  | .eq => x = y
  | .ne => x ≠ y
  | .slt => x.slt y
  | .sgt => y.slt x
  | .sle => x.sle y
  | .sge => y.sle x
  | .ult => x.ult y
  | .ugt => y.ult x
  | .ule => x.ule y
  | .uge => y.ule x

def FCmp.eval (x y : ℚ) : FCmp → Bool
  | .oeq => x = y
  | .one => x ≠ y
  | .olt => x < y
  | .ogt => y < x
  | .ole => x ≤ y
  | .oge => y ≤ x

/-- An `i1`, or a comparison as an integer. -/
def ofBool (b : Bool) : I64 := if b then 1 else 0

/-- The low `bits` bits. -/
def lowBits (bits : Nat) (v : I64) : I64 := (v.setWidth bits).setWidth 64

/-- The low `bits` bits, sign-extended. -/
def signBits (bits : Nat) (v : I64) : I64 := (v.setWidth bits).signExtend 64

/-- The size of a scalar type in memory. -/
def LTy.bytesOf : LTy → Nat
  | .int bits => bits / 8
  | _ => 8

abbrev Regs := Reg → Val

def Value.eval (W : World) (ρ : Regs) : Value → Val
  | .reg _ r => ρ r
  | .int _ v => .int v
  | .fp q => .fp q
  | .slot n => .int (W.slotAddr n)
  | .glob name => .int (W.globAddr name)
  | .str s => .int (W.strAddr s)
  | .fn name => .int (W.fnAddr name)

/-- The value uses results below `n` only. -/
def Value.Below (n : Reg) : Value → Prop
  | .reg _ r => r < n
  | _ => True

theorem Value.Below.mono {n n' : Reg} {v : Value} (h : v.Below n) (hn : n ≤ n') : v.Below n' := by
  cases v with
  | reg ty r => exact Nat.lt_of_lt_of_le h hn
  | _ => exact trivial

theorem Value.eval_congr {W : World} {ρ ρ' : Regs} {n : Reg} {v : Value} (h : v.Below n)
    (hρ : ∀ r, r < n → ρ' r = ρ r) : v.eval W ρ' = v.eval W ρ := by
  cases v with
  | reg ty r => exact hρ r h
  | _ => rfl

/-- A value of type `ty`: a double, or not. -/
def Val.Fits (ty : LTy) : Val → Prop
  | .int _ => ty ≠ .double
  | .fp _ => ty = .double

def Val.int? : Val → Option I64
  | .int v => some v
  | .fp _ => none

def Val.fp? : Val → Option ℚ
  | .fp q => some q
  | .int _ => none

/-- The integer operand `x`. -/
def Value.evalInt (W : World) (ρ : Regs) (x : Value) : Option I64 := (x.eval W ρ).int?

/-- The double operand `x`. -/
def Value.evalFp (W : World) (ρ : Regs) (x : Value) : Option ℚ := (x.eval W ρ).fp?

@[simp] theorem Value.evalInt_int (W : World) (ρ : Regs) (bits : Nat) (v : I64) :
    (Value.int bits v).evalInt W ρ = some v := rfl

@[simp] theorem Value.evalFp_fp (W : World) (ρ : Regs) (q : ℚ) :
    (Value.fp q).evalFp W ρ = some q := rfl

def Op.eval (W : World) (ρ : Regs) (m : Mem) : Op → Option Val
  | .bin o x y => do return .int (← o.eval (← x.evalInt W ρ) (← y.evalInt W ρ))
  | .fbin o x y => do return .fp (← o.eval (← x.evalFp W ρ) (← y.evalFp W ρ))
  | .fneg x => do return .fp (-(← x.evalFp W ρ))
  | .icmp p x y => do return .int (ofBool (p.eval (← x.evalInt W ρ) (← y.evalInt W ρ)))
  | .fcmp p x y => do return .int (ofBool (p.eval (← x.evalFp W ρ) (← y.evalFp W ρ)))
  | .trunc bits x => do return .int (lowBits bits (← x.evalInt W ρ))
  | .zext x | .ptrtoint x | .inttoptr x => do return .int (← x.evalInt W ρ)
  | .sext x => do
      match x.type with
      | .int bits => return .int (signBits bits (← x.evalInt W ρ))
      | _ => none
  | .fptosi x => do return .int (← toI64? (← x.evalFp W ρ))
  | .sitofp x => do return .fp (← x.evalInt W ρ).toInt
  | .uitofp x => do return .fp (← x.evalInt W ρ).toNat
  | .bitcast x => do return .int (W.f64Bits (← x.evalFp W ρ))
  | .gep base off => do return .int ((← base.evalInt W ρ) + (← off.evalInt W ρ))
  | .load ty addr => do
      let a ← addr.evalInt W ρ
      match ty with
      | .double => return .fp (W.f64OfBits (m.read a 8))
      | ty => return .int (m.read a ty.bytesOf)

/-- Memory after a store of `v` at `a`. -/
def storeVal (W : World) (m : Mem) (ty : LTy) (a : I64) : Val → Mem
  | .int v => m.write a ty.bytesOf (byteOf v)
  | .fp q => m.write a 8 (byteOf (W.f64Bits q))

/-- A call: the power functions of the runtime, or a function of the world. -/
def callVal (W : World) (m : Mem) (ρ : Regs) (callee : Value) (args : List Val) :
    Option (Option Val × Mem) :=
  match callee, args with
  | .fn "HC_PowI64", [.int b, .int e] => some (some (.int (Runtime.hcPowI64 b e)), m)
  | .fn "HC_Pow", [.fp b, .fp e] => some (some (.fp (W.pow b e)), m)
  | callee, args => W.call (callee.eval W ρ) args m

/-! ## Configurations -/

/-- Where a run stands: the block, the position in it, the block control came
from, the registers and the memory. -/
structure Config where
  blk : Blk
  pos : Nat
  prev : Blk
  regs : Regs
  mem : Mem

/-- The position moved past one instruction. -/
def Config.next (c : Config) : Config := { c with pos := c.pos + 1 }

/-- The next position, with a result. -/
def Config.set (c : Config) (r : Reg) (v : Val) : Config :=
  { c with pos := c.pos + 1, regs := Function.update c.regs r v }

/-- Control moved to the start of block `b`. -/
def Config.jump (c : Config) (b : Blk) : Config := { c with blk := b, pos := 0, prev := c.blk }

/-- One instruction. A `ret`, and a `switch` (whose cases are not in the log),
is where a run inside an expression ends. -/
def Instr.run (W : World) (c : Config) : Instr → Option Config
  | .op dst o => (o.eval W c.regs c.mem).map (c.set dst)
  | .phi dst incoming =>
      (incoming.find? (·.2 = c.prev)).map fun p => c.set dst (p.1.eval W c.regs)
  | .call dst callee args =>
      match callVal W c.mem c.regs callee (args.map (·.eval W c.regs)), dst with
      | some (some v, m), some r => some { c.set r v with mem := m }
      | some (_, m), none => some { c.next with mem := m }
      | _, _ => none
  | .store ty v addr =>
      (addr.evalInt W c.regs).map fun a =>
        { c.next with mem := storeVal W c.mem ty a (v.eval W c.regs) }
  | .memcpy dst src n => do
      let d ← dst.evalInt W c.regs
      let s ← src.evalInt W c.regs
      return { c.next with
        mem := c.mem.write d n.toNat fun k => c.mem (s + BitVec.ofNat 64 k) }
  | .memset dst byte n =>
      (dst.evalInt W c.regs).map fun d =>
        { c.next with mem := c.mem.write d n.toNat fun _ => byte }
  | .br b => some (c.jump b)
  | .condBr v t f => (v.evalInt W c.regs).map fun x => c.jump (if x = 0 then f else t)
  | .switch _ _ | .ret _ => none
  | .mark _ => some c.next

/-- One step of the code `l`. -/
def step (W : World) (l : Log) (c : Config) : Option Config :=
  (l.code c.blk)[c.pos]?.bind (·.run W c)

/-- A run of the code `l`. -/
abbrev Reaches (W : World) (l : Log) : Config → Config → Prop :=
  Relation.ReflTransGen fun c c' => step W l c = some c'

theorem step_extend {W : World} {l l' : Log} {c c' : Config} (h : step W l c = some c')
    (hl : l <+: l') : step W l' c = some c' := by
  rcases hl with ⟨t, rfl⟩
  unfold step at h ⊢
  rcases Option.bind_eq_some_iff.mp h with ⟨i, hi, hrun⟩
  rw [Log.code_append, List.getElem?_append_left (List.getElem?_eq_some_iff.mp hi).1, hi]
  exact hrun

/-- A run of the code so far is a run of the code that continues it. -/
theorem Reaches.extend {W : World} {l l' : Log} {c c' : Config} (h : Reaches W l c c')
    (hl : l <+: l') : Reaches W l' c c' :=
  Relation.ReflTransGen.mono (fun _ _ hs => step_extend hs hl) _ _ h

end Hlang.Ir
