import Hlang.Token

/-!
# Hlang.Ir.Syntax — the LLVM instructions that code generation emits

A function under construction is the log of the instructions appended so far,
each with its basic block; the code of a block is what the log has for it. The
allocas of the entry block are storage slots by the side.
-/

namespace Hlang.Ir

/-- A basic block. -/
abbrev Blk := Nat

/-- The name of an instruction's result. -/
abbrev Reg := Nat

/-- LLVM types. -/
inductive LTy where
  | int (bits : Nat)
  | double
  | ptr
  | void
  /-- `[n x i8]` -/
  | bytes (n : I64)
deriving DecidableEq

/-- `Value*`. -/
inductive Value where
  | reg (ty : LTy) (r : Reg)
  | int (bits : Nat) (v : I64)
  | fp (q : ℚ)
  /-- an alloca of the entry block -/
  | slot (n : Nat)
  /-- a global variable -/
  | glob (name : String)
  /-- a string constant -/
  | str (s : String)
  | fn (name : String)
deriving DecidableEq

/-- `getType`. -/
def Value.type : Value → LTy
  | .reg ty _ => ty
  | .int bits _ => .int bits
  | .fp _ => .double
  | .slot _ | .glob _ | .str _ | .fn _ => .ptr

inductive BinOp where
  | add | sub | mul | udiv | sdiv | urem | srem | and | or | xor | shl | lshr | ashr
deriving DecidableEq

inductive FBinOp where
  | fadd | fsub | fmul | fdiv | frem
deriving DecidableEq

inductive ICmp where
  | eq | ne | slt | sgt | sle | sge | ult | ugt | ule | uge
deriving DecidableEq

inductive FCmp where
  | oeq | one | olt | ogt | ole | oge
deriving DecidableEq

/-- Instructions that compute a value from values and memory. -/
inductive Op where
  | bin (o : BinOp) (x y : Value)
  | fbin (o : FBinOp) (x y : Value)
  | fneg (x : Value)
  | icmp (p : ICmp) (x y : Value)
  | fcmp (p : FCmp) (x y : Value)
  | trunc (bits : Nat) (x : Value)
  | zext (x : Value)
  | sext (x : Value)
  | fptosi (x : Value)
  | sitofp (x : Value)
  | uitofp (x : Value)
  | ptrtoint (x : Value)
  | inttoptr (x : Value)
  /-- the bits of a double as an `i64` -/
  | bitcast (x : Value)
  /-- an `i8` GEP -/
  | gep (base off : Value)
  | load (ty : LTy) (addr : Value)
deriving DecidableEq

/-- The type of an instruction's result; casts of integers are to `i64`. -/
def Op.type : Op → LTy
  | .bin _ x _ => x.type
  | .fbin _ _ _ | .fneg _ | .sitofp _ | .uitofp _ => .double
  | .icmp _ _ _ | .fcmp _ _ _ => .int 1
  | .trunc bits _ => .int bits
  | .zext _ | .sext _ | .fptosi _ | .ptrtoint _ | .bitcast _ => .int 64
  | .inttoptr _ | .gep _ _ => .ptr
  | .load ty _ => ty

/-- Where a side effect was written: its node, below the call sites whose
default arguments it was expanded for. -/
structure Site where
  calls : List Nat := []
  node : Nat := 0
deriving DecidableEq

inductive Instr where
  | op (dst : Reg) (o : Op)
  | phi (dst : Reg) (incoming : List (Value × Blk))
  | call (dst : Option Reg) (callee : Value) (args : List Value)
  | store (ty : LTy) (v addr : Value)
  | memcpy (dst src : Value) (n : I64)
  | memset (dst : Value) (byte : BitVec 8) (n : I64)
  | br (b : Blk)
  | condBr (c : Value) (t f : Blk)
  /-- the cases of a switch are in a table by the side, under its number -/
  | switch (n : Nat) (v : Value)
  | ret (v : Option Value)
  /-- no instruction: marks the place where a side effect is emitted -/
  | mark (s : Site)
deriving DecidableEq

/-- The instruction ends its block. -/
def Instr.isTerminator : Instr → Bool
  | .br _ | .condBr _ _ _ | .switch _ _ | .ret _ => true
  | _ => false

/-- The instructions appended so far, in order. -/
abbrev Log := List (Blk × Instr)

/-- The code of a block. -/
def Log.code (l : Log) (b : Blk) : List Instr :=
  l.filterMap fun e => if e.1 = b then some e.2 else none

namespace Log

@[simp] theorem code_nil (b : Blk) : code [] b = [] := rfl

@[simp] theorem code_append (l l' : Log) (b : Blk) :
    code (l ++ l') b = code l b ++ code l' b := by
  unfold code
  rw [List.filterMap_append]

theorem code_cons_self (b : Blk) (i : Instr) (l : Log) : code ((b, i) :: l) b = i :: code l b := by
  unfold code
  simp

theorem code_cons_other {b b' : Blk} (h : b' ≠ b) (i : Instr) (l : Log) :
    code ((b', i) :: l) b = code l b := by
  unfold code
  simp [h]

end Log

end Hlang.Ir
