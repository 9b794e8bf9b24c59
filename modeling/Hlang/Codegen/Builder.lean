import Hlang.Codegen.Env

/-!
# Hlang.Codegen.Builder — the IR builder

Code generation is a computation over the builder: it appends instructions to
the block of the insertion point, creates blocks and reports diagnostics. It
stops without a result where the C++ would not return, would dereference a null `Value*`
or has no defined result.
-/

namespace Hlang.Codegen

open Ir

/-- Why code generation has no result. -/
inductive Stop where
  /-- the bound on the depth of the recursion is reached -/
  | fuel
  /-- a null `Value*` is dereferenced -/
  | nullValue
  /-- a signed computation overflows -/
  | undefined
deriving DecidableEq

/-- The state of the builder, with the diagnostics reported so far. -/
structure Builder where
  log : Log := []
  /-- the insertion point -/
  cur : Blk := 0
  nextBlk : Blk := 1
  nextReg : Reg := 0
  /-- the allocas of the entry block -/
  slots : List LTy := []
  errors : List (SrcLoc × String) := []

abbrev Gen (α : Type) := StateT Builder (Except Stop) α

/-- `RV`: a void value has no `Value*`. -/
structure RV where
  v : Option Value
  t : Ty

/-- `LV`. -/
structure LV where
  addr : Option Value
  t : Ty

/-- `{cI64(0), tyI64()}`. -/
def RV.zero : RV := ⟨some (.int 64 0), .i64⟩

/-- The lvalue `{}`. -/
def LV.none : LV := ⟨.none, .void⟩

/-- `cI64`. -/
def cI64 (v : I64) : Value := .int 64 v

namespace Gen

/-- Stop without a result. -/
def stop {α : Type} (s : Stop) : Gen α := fun _ => .error s

/-- `error`. -/
def error (loc : SrcLoc) (msg : String) : Gen Unit :=
  fun B => .ok ((), { B with errors := B.errors ++ [(loc, msg)] })

/-- Append an instruction to the current block. -/
def emit (i : Instr) : Gen Unit :=
  fun B => .ok ((), { B with log := B.log ++ [(B.cur, i)] })

/-- Append an instruction that computes a value. -/
def create (o : Op) : Gen Value := fun B =>
  .ok (.reg o.type B.nextReg,
    { B with log := B.log ++ [(B.cur, .op B.nextReg o)], nextReg := B.nextReg + 1 })

/-- `CreatePHI(i64_)` with its incoming values. -/
def createPhi (incoming : List (Value × Blk)) : Gen Value := fun B =>
  .ok (.reg (.int 64) B.nextReg,
    { B with log := B.log ++ [(B.cur, .phi B.nextReg incoming)], nextReg := B.nextReg + 1 })

/-- `CreateCall` of a function that returns a value of type `ty`, or `void`. -/
def createCall (ty : LTy) (callee : Value) (args : List Value) : Gen (Option Value) := fun B =>
  if ty = .void then
    .ok (none, { B with log := B.log ++ [(B.cur, .call none callee args)] })
  else
    .ok (some (.reg ty B.nextReg),
      { B with log := B.log ++ [(B.cur, .call (some B.nextReg) callee args)],
               nextReg := B.nextReg + 1 })

/-- `BasicBlock::Create`. -/
def newBlock : Gen Blk := fun B => .ok (B.nextBlk, { B with nextBlk := B.nextBlk + 1 })

/-- `SetInsertPoint`. -/
def setInsertPoint (b : Blk) : Gen Unit := fun B => .ok ((), { B with cur := b })

/-- `GetInsertBlock`. -/
def insertBlock : Gen Blk := fun B => .ok (B.cur, B)

/-- `entryAlloca`. -/
def entryAlloca (ty : LTy) : Gen Value := fun B =>
  .ok (.slot B.slots.length, { B with slots := B.slots ++ [ty] })

/-- What a lookup that may not return gives. -/
def ofOption {α : Type} : Option α → Gen α
  | some a => pure a
  | none => stop .fuel

end Gen

/-! ## Helpers on values -/

open Gen

/-- `asPtr`. -/
def asPtr (v : Option Value) : Gen Value :=
  match v with
  | none => stop .nullValue
  | some v => if v.type = .ptr then pure v else create (.inttoptr v)

/-- `ptrToI64`. -/
def ptrToI64 (v : Value) : Gen Value :=
  if v.type = .ptr then create (.ptrtoint v) else pure v

/-- `widen`. -/
def widen (v : Value) (t : Ty) : Gen Value :=
  if t.isF64 then pure v
  else if v.type = .ptr then create (.ptrtoint v)
  else if v.type = .int 64 then pure v
  else
    match t with
    | .int _ true => create (.zext v)
    | _ => create (.sext v)

/-- `convert`. -/
def convert (rv : RV) (dst : Ty) (normalizeNarrow : Bool := true) : Gen Value :=
  match rv.v with
  | none => pure (if dst.isF64 then .fp 0 else cI64 0)
  | some v =>
      if dst.isF64 then
        if v.type = .double then pure v
        else do
          let iv ← ptrToI64 v
          match rv.t with
          | .int 8 true => create (.uitofp iv)
          | _ => create (.sitofp iv)
      else do
        let iv ← if v.type = .double then create (.fptosi v) else ptrToI64 v
        match dst with
        | .int n uns =>
            if normalizeNarrow && decide (0 < n ∧ n < 8) then do
              let tr ← create (.trunc (n * 8) iv)
              if uns then create (.zext tr) else create (.sext tr)
            else pure iv
        | _ => pure iv

/-- `truthy`. -/
def truthy (rv : RV) (loc : SrcLoc) : Gen Value :=
  match rv.v with
  | none => do
      error loc "void value used in condition"
      return .int 1 0
  | some v =>
      if v.type = .double then create (.fcmp .one v (.fp 0))
      else do create (.icmp .ne (← ptrToI64 v) (cI64 0))

/-- `boolToI64`. -/
def boolToI64 (v : Value) : Gen Value := create (.zext v)

/-- `strRV`. -/
def strRV (s : String) : Gen RV := do
  return ⟨some (← create (.ptrtoint (.str s))), .ptr .u8⟩

/-- `storeTo`. -/
def storeTo (Γ : Env) (addr : Value) (rv : RV) (t : Ty) : Gen Unit := do
  let t ← ofOption (accessType Γ.heap Γ.classFuel t)
  if isAggregate t then
    let src ← asPtr rv.v
    emit (.memcpy addr src (Γ.size t))
  else
    let mt := Γ.memTy t
    let v ← if mt = .double then convert rv .f64
      else do
        let iv ← convert rv .i64 false
        match mt with
        | .int 64 => pure iv
        | .int bits => create (.trunc bits iv)
        | _ => pure iv
    emit (.store mt v addr)

/-- `loadFrom`. -/
def loadFrom (Γ : Env) (addr : Value) (t : Ty) : Gen RV := do
  match ← ofOption (accessType Γ.heap Γ.classFuel t) with
  | .array elem _ => return ⟨some (← create (.ptrtoint addr)), .ptr elem⟩
  | .cls c => return ⟨some (← create (.ptrtoint addr)), .ptr (.cls c)⟩
  | t =>
      let v ← create (.load (Γ.memTy t) addr)
      return ⟨some (← widen v t), t⟩

end Hlang.Codegen
