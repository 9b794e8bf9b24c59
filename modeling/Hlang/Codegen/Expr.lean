import Hlang.Codegen.Builder
import Hlang.Codegen.Fold

/-!
# Hlang.Codegen.Expr — code generation for expressions

`genExpr`, `genLValue` and the functions they call on one node. These are
written over a record `Rec` of the two recursive functions; `gen` ties the knot
with a bound on the depth, which the default arguments of calls make necessary:
their expressions are not below the call in the tree. The list of call sites
says for which calls a default argument is being expanded.
-/

namespace Hlang.Codegen

open Ir Gen

/-- The recursive functions, below the call sites of default arguments. -/
structure Rec where
  genExpr : List Nat → Expr → Gen RV
  genLValue : List Nat → Expr → Gen LV

/-! ## Operators -/

/-- The operators that force the integer domain. -/
def isBitwise (op : P) : Bool := op = .amp || op = .pipe || op = .caret || op = .shl || op = .shr

/-- `arith` on doubles. -/
def arithDouble (op : P) (x y : Value) (loc : SrcLoc) : Gen RV :=
  match op with
  | .plus => do return ⟨some (← create (.fbin .fadd x y)), .f64⟩
  | .minus => do return ⟨some (← create (.fbin .fsub x y)), .f64⟩
  | .star => do return ⟨some (← create (.fbin .fmul x y)), .f64⟩
  | .slash => do return ⟨some (← create (.fbin .fdiv x y)), .f64⟩
  | .percent => do return ⟨some (← create (.fbin .frem x y)), .f64⟩
  | .pow => do return ⟨← createCall .double (.fn "HC_Pow") [x, y], .f64⟩
  | _ => do
      error loc "bad float operation"
      return ⟨some (.fp 0), .f64⟩

/-- `arith` on integers, for a result of type `rt`: unsigned when an operand is
(`uns`), a shift to the right when the left one is (`unsLeft`). -/
def arithInt (op : P) (uns unsLeft : Bool) (rt : Ty) (x y : Value) (loc : SrcLoc) : Gen RV :=
  match op with
  | .plus => do return ⟨some (← create (.bin .add x y)), rt⟩
  | .minus => do return ⟨some (← create (.bin .sub x y)), rt⟩
  | .star => do return ⟨some (← create (.bin .mul x y)), rt⟩
  | .slash => do return ⟨some (← create (.bin (if uns then .udiv else .sdiv) x y)), rt⟩
  | .percent => do return ⟨some (← create (.bin (if uns then .urem else .srem) x y)), rt⟩
  | .amp => do return ⟨some (← create (.bin .and x y)), rt⟩
  | .pipe => do return ⟨some (← create (.bin .or x y)), rt⟩
  | .caret => do return ⟨some (← create (.bin .xor x y)), rt⟩
  | .shl => do
      let z ← create (.bin .and y (cI64 63)) >>= fun c => create (.bin .shl x c)
      return ⟨some z, rt⟩
  | .shr => do
      let z ← create (.bin .and y (cI64 63)) >>= fun c =>
        create (.bin (if unsLeft then .lshr else .ashr) x c)
      return ⟨some z, rt⟩
  | .pow => do return ⟨← createCall (.int 64) (.fn "HC_PowI64") [x, y], .i64⟩
  | _ => do
      error loc "bad integer operation"
      return RV.zero

/-- The value is a double. -/
def RV.isDouble (rv : RV) : Bool := rv.v.any (·.type = .double)

/-- `arith`. -/
def arith (op : P) (a c : RV) (loc : SrcLoc) : Gen RV :=
  if (a.isDouble || c.isDouble) && !isBitwise op then do
    let x ← convert a .f64
    let y ← convert c .f64
    arithDouble op x y loc
  else do
    let x ← convert a .i64 false
    let y ← convert c .i64 false
    let uns := isU64 a.t || isU64 c.t
    let rt : Ty :=
      if a.t.isPtr then a.t else if c.t.isPtr then c.t else if uns then .u64 else .i64
    arithInt op uns (isU64 a.t) rt x y loc

/-- `cmp` on doubles. -/
def cmpDouble (op : P) (x y : Value) : Gen Value :=
  match op with
  | .lt => create (.fcmp .olt x y)
  | .gt => create (.fcmp .ogt x y)
  | .le => create (.fcmp .ole x y)
  | .ge => create (.fcmp .oge x y)
  | .eqEq => create (.fcmp .oeq x y)
  | .ne => create (.fcmp .one x y)
  | _ => pure (.int 1 0)

/-- `cmp` on integers. -/
def cmpInt (op : P) (uns : Bool) (x y : Value) : Gen Value :=
  match op with
  | .lt => create (.icmp (if uns then .ult else .slt) x y)
  | .gt => create (.icmp (if uns then .ugt else .sgt) x y)
  | .le => create (.icmp (if uns then .ule else .sle) x y)
  | .ge => create (.icmp (if uns then .uge else .sge) x y)
  | .eqEq => create (.icmp .eq x y)
  | .ne => create (.icmp .ne x y)
  | _ => pure (.int 1 0)

/-- `cmp`. -/
def cmp (op : P) (a c : RV) : Gen Value :=
  if a.isDouble || c.isDouble then do
    let x ← convert a .f64
    let y ← convert c .f64
    cmpDouble op x y
  else do
    let x ← convert a .i64 false
    let y ← convert c .i64 false
    cmpInt op (isU64 a.t || isU64 c.t) x y

/-- The operator of a compound assignment. -/
def compoundOp : P → P
  | .plusEq => .plus
  | .minusEq => .minus
  | .starEq => .star
  | .slashEq => .slash
  | .percentEq => .percent
  | .shlEq => .shl
  | .shrEq => .shr
  | .ampEq => .amp
  | .pipeEq => .pipe
  | .caretEq => .caret
  | _ => .plus

section Nodes

variable (Γ : Env) (R : Rec) (cs : List Nat)

/-! ## Calls -/

/-- The LLVM type of a function's result. -/
def retTy : Ty → LTy
  | .f64 => .double
  | .void => .void
  | _ => .int 64

/-- An argument slot: what was written there, if anything. -/
abbrev Arg := Option Expr

/-- One turn of the loop over the parameters, for parameter `i`: the value
passed, and the type `lastclass` would stand for next. -/
def genParam (n : Node) (i : Nat) (p : FuncParam) (arg : Arg) (prevArgType : Option Ty) :
    Gen (Value × Ty) := do
  let a ← match arg with
    | some e => R.genExpr cs e
    | none =>
        if p.dfltIsLastClass then strRV (Γ.classNameOf (prevArgType.getD .i64))
        else
          match p.dflt with
          | some e => R.genExpr (n.addr :: cs) e
          | none => do
              error n.loc ("missing argument " ++ toString (i + 1) ++
                (if p.name = "" then "" else " ('" ++ p.name ++ "')") ++ " and no default value")
              pure RV.zero
  let t ← match arg with
    | some e => ofOption (Γ.typeOf e)
    | none => pure a.t
  let v ← if p.type.isF64 then convert a .f64 else convert a .i64 false
  return (v, t)

/-- The loop over the parameters. -/
def genParams (n : Node) : Nat → List FuncParam → List Arg → Option Ty → Gen (List Value)
  | _, [], _, _ => pure []
  | i, p :: ps, args, prevArgType => do
      let (v, t) ← genParam Γ R cs n i p (args.head?.getD none) prevArgType
      let vs ← genParams n (i + 1) ps args.tail (some t)
      return v :: vs

/-- The loop over the extra arguments of a variadic call. -/
def genExtra (n : Node) : List Arg → Gen (List Value)
  | [] => pure []
  | none :: args => do
      error n.loc "missing variadic argument has no default"
      let vs ← genExtra n args
      return cI64 0 :: vs
  | some e :: args => do
      let a ← R.genExpr cs e
      let v ← match a.v with
        | some v => if v.type = .double then create (.bitcast v) else convert a .i64 false
        | none => convert a .i64 false
      let vs ← genExtra n args
      return v :: vs

/-- The stores of the extra arguments into the `argv` array. -/
def storeExtra (arr : Value) : Nat → List Value → Gen Unit
  | _, [] => pure ()
  | i, v :: vs => do
      let slot ← create (.gep arr (cI64 (BitVec.ofNat 64 (8 * i))))
      emit (.store (.int 64) v slot)
      storeExtra arr (i + 1) vs

/-- `genCallTo`. -/
def genCallTo (n : Node) (sym : FuncSym) (args : List Arg) (fnPtr : Option Value) : Gen RV := do
  let np := sym.type.params.length
  let args ← if np < args.length && !sym.type.variadic then do
      error n.loc "too many arguments"
      pure (args.take np)
    else pure args
  let vs ← genParams Γ R cs n 0 sym.type.params args none
  let vs ← if sym.type.variadic then do
      let extra ← genExtra R cs n (args.drop np)
      let arr ← if extra.isEmpty then pure (cI64 0)
        else do
          let al ← entryAlloca (.bytes (BitVec.ofNat 64 (8 * extra.length)))
          storeExtra al 0 extra
          create (.ptrtoint al)
      pure (vs ++ [cI64 (BitVec.ofNat 64 extra.length), arr])
    else pure vs
  let callee ← match sym.fn with
    | some f => pure f
    | none => asPtr fnPtr
  emit (.mark ⟨cs, n.addr⟩)
  let r ← createCall (retTy sym.type.ret) callee vs
  match sym.type.ret with
  | .void => return ⟨none, .void⟩
  | rt => return ⟨r, rt⟩

/-- The arguments of a call through a pointer of unknown signature. -/
def genUntypedArgs (n : Node) : List Arg → Gen (List Value)
  | [] => pure []
  | none :: args => do
      error n.loc "cannot skip args when calling through an untyped pointer"
      let vs ← genUntypedArgs n args
      return cI64 0 :: vs
  | some e :: args => do
      let a ← R.genExpr cs e
      let v ← match a.v with
        | some v => if v.type = .double then pure v else convert a .i64 false
        | none => convert a .i64 false
      let vs ← genUntypedArgs n args
      return v :: vs

/-- The helpers `ToI64`, `ToBool` and `ToF64`. -/
def genIntrinsic (n : Node) (name : String) (args : List Arg) : Gen RV :=
  match args with
  | [some e] => do
      let v ← R.genExpr cs e
      if name = "ToF64" then return ⟨some (← convert v .f64), .f64⟩
      if name = "ToBool" then return ⟨some (← boolToI64 (← truthy v n.loc)), .i64⟩
      return ⟨some (← convert v .i64), .i64⟩
  | _ => do
      error n.loc (name ++ "() takes exactly one argument")
      return RV.zero

/-- The function type an indirect call is made with. -/
def calledType : Ty → Option FuncType
  | .ptr (.func ret params variadic) => some ⟨ret, params, variadic⟩
  | .func ret params variadic => some ⟨ret, params, variadic⟩
  | _ => none

/-- A call through an expression. -/
def genIndirect (n : Node) (callee : Expr) (args : List Arg) : Gen RV := do
  let fv ← R.genExpr cs callee
  match calledType fv.t with
  | some ft => genCallTo Γ R cs n ⟨none, ft⟩ args fv.v
  | none => do
      let vs ← genUntypedArgs R cs n args
      let fp ← asPtr fv.v
      emit (.mark ⟨cs, n.addr⟩)
      return ⟨← createCall (.int 64) fp vs, .i64⟩

/-- `genCall`. -/
def genCall (n : Node) (callee : Expr) (args : List Arg) : Gen RV :=
  match callee with
  | .ident _ name =>
      match Γ.lookupVar name with
      | some _ => genIndirect Γ R cs n callee args
      | none =>
          if name = "ToI64" || name = "ToBool" || name = "ToF64" then
            genIntrinsic R cs n name args
          else
            match Γ.findFunc name with
            | some f => genCallTo Γ R cs n f args none
            | none => do
                error n.loc ("undefined function '" ++ name ++ "'")
                return RV.zero
  | _ => genIndirect Γ R cs n callee args

/-! ## Lvalues -/

/-- `genMemberLV`. -/
def genMemberLV (n : Node) (base : Expr) (s : String) (isArrow : Bool) : Gen LV := do
  let b : Option (Value × Option Ty) ←
    if isArrow then do
      let p ← R.genExpr cs base
      let a ← asPtr p.v
      match p.t with
      | .ptr elem => pure (some (a, some elem))
      | _ => pure (some (a, none))
    else do
      let lv ← R.genLValue cs base
      match lv.addr with
      | some a => pure (some (a, some lv.t))
      | none => pure none
  match b with
  | none => return LV.none
  | some (addr, some (.cls c)) =>
      match ← ofOption (Γ.findMember c s) with
      | some m => return ⟨some (← create (.gep addr (cI64 m.offset))), m.type⟩
      | none => do
          error n.loc ("no member '" ++ s ++ "' in class '" ++ (Γ.heap c).name ++ "'")
          return LV.none
  | some (addr, bt) =>
      let sub : Option Ty :=
        match bt with
        | some (.int _ _) | some .f64 => subIntType s
        | _ => none
      match sub with
      | some t => return ⟨some addr, t⟩
      | none => do
          error n.loc ("member access on non-class value" ++
            (match bt with
             | some t => " of type " ++ Γ.str t
             | none => ""))
          return LV.none

/-- The sub-int access of `genIndexLV`, `q.u8[5]`: no result when the value is
a class, whose member of that name is meant. -/
def genSubIntLV (base idx : Expr) : Gen (Option LV) :=
  match base with
  | .member _ q s false =>
      match subIntType s with
      | none => pure none
      | some sub => do
          let blv ← R.genLValue cs q
          match blv.addr with
          | none => return none
          | some a =>
              if blv.t.isInt || blv.t.isF64 then
                let iv ← R.genExpr cs idx
                let off ← create (.bin .mul (← convert iv .i64) (cI64 (Γ.size sub)))
                return some ⟨some (← create (.gep a off)), sub⟩
              else return none
  | _ => pure none

/-- The type of an element: what has no type is a byte. -/
def elementTy : Ty → Ty
  | .void => .u8
  | t => t

/-- The distance of two elements, at least one byte. -/
def Env.elementSize (t : Ty) : I64 := if (Γ.size t).slt 1 then 1 else Γ.size t

/-- The rest of `genIndexLV`. -/
def genElementLV (base idx : Expr) : Gen LV := do
  let b : Option (Option Value × Ty) ←
    match ← ofOption (Γ.typeOf base) with
    | .array elem _ => do
        let blv ← R.genLValue cs base
        match blv.addr with
        | none => pure none
        | some a => pure (some (some (← create (.ptrtoint a)), elem))
    | _ => do
        let bv ← R.genExpr cs base
        match bv.t with
        | .ptr elem => pure (some (bv.v, elem))
        | _ => pure (some (bv.v, .u8))
  match b with
  | none => return LV.none
  | some (bv, elem) =>
      let elem := elementTy elem
      let iv ← R.genExpr cs idx
      let off ← create (.bin .mul (← convert iv .i64) (cI64 (Γ.elementSize elem)))
      match bv with
      | none => stop .nullValue
      | some v => do
          let addr ← create (.bin .add (← ptrToI64 v) off)
          return ⟨some (← asPtr (some addr)), elem⟩

/-- `genIndexLV`. -/
def genIndexLV (base idx : Expr) : Gen LV := do
  match ← genSubIntLV Γ R cs base idx with
  | some lv => return lv
  | none => genElementLV Γ R cs base idx

/-! ## Expressions -/

/-- `genIdent`. -/
def genIdent (n : Node) (s : String) : Gen RV :=
  match Γ.lookupVar s with
  | some v => loadFrom Γ v.addr v.type
  | none =>
      match Γ.findFunc s with
      | some f => genCallTo Γ R cs n f [] none
      | none => do
          error n.loc ("undefined symbol '" ++ s ++ "'")
          return RV.zero

/-- `&k`. -/
def genAddressOf (k : Expr) : Gen RV := do
  let f : Option FuncSym :=
    match k with
    | .ident _ s => if (Γ.lookupVar s).isSome then none else Γ.findFunc s
    | _ => none
  match f with
  | some ⟨some f, t⟩ =>
      return ⟨some (← create (.ptrtoint f)), .ptr (.func t.ret t.params t.variadic)⟩
  | _ =>
      let lv ← R.genLValue cs k
      match lv.addr with
      | none => return RV.zero
      | some a => return ⟨some (← create (.ptrtoint a)), .ptr lv.t⟩

/-- `*k`. -/
def genDeref (k : Expr) : Gen RV := do
  let p ← R.genExpr cs k
  match p.t with
  | .ptr (.func _ _ _) | .func _ _ _ => return p
  | t =>
      let elem : Ty :=
        match t with
        | .ptr .void => .u8
        | .ptr elem => elem
        | _ => .u8
      loadFrom Γ (← asPtr p.v) elem

/-- `++` and `--`. -/
def genStep (n : Node) (p : P) (pre : Bool) (k : Expr) : Gen RV := do
  let lv ← R.genLValue cs k
  match lv.addr with
  | none => return RV.zero
  | some a =>
      let old ← loadFrom Γ a lv.t
      match old.v with
      | none => stop .nullValue
      | some ov => do
          let nv ← if ov.type = .double then
              create (.fbin (if p = .plusPlus then .fadd else .fsub) ov (.fp 1))
            else create (.bin (if p = .plusPlus then .add else .sub) ov (cI64 1))
          emit (.mark ⟨cs, n.addr⟩)
          storeTo Γ a ⟨some nv, old.t⟩ lv.t
          return ⟨some (if pre then nv else ov), old.t⟩

/-- `genUnary`. -/
def genUnary (n : Node) (p : P) (pre : Bool) (k : Expr) : Gen RV :=
  match p with
  | .amp => genAddressOf Γ R cs k
  | .star => genDeref Γ R cs k
  | .not => do
      let z ← truthy (← R.genExpr cs k) n.loc
      return ⟨some (← boolToI64 (← create (.bin .xor z (.int 1 1)))), .i64⟩
  | .tilde => do
      let v ← R.genExpr cs k
      return ⟨some (← create (.bin .xor (← convert v .i64 false) (cI64 (-1)))), .i64⟩
  | .minus => do
      let v ← R.genExpr cs k
      if v.isDouble then
        return ⟨some (← create (.fneg (← convert v .f64))), .f64⟩
      else
        return ⟨some (← create (.bin .sub (cI64 0) (← convert v .i64 false))),
          if v.t.isInt then v.t else .i64⟩
  | .plus => R.genExpr cs k
  | .plusPlus | .minusMinus => genStep Γ R cs n p pre k
  | _ => do
      error n.loc "bad unary operator"
      return RV.zero

/-- `genShortCircuit`. -/
def genShortCircuit (n : Node) (isAnd : Bool) (a c : Expr) : Gen RV := do
  let av ← truthy (← R.genExpr cs a) n.loc
  let lhsBB ← insertBlock
  let rhsBB ← newBlock
  let endBB ← newBlock
  if isAnd then emit (.condBr av rhsBB endBB) else emit (.condBr av endBB rhsBB)
  setInsertPoint rhsBB
  let cv ← boolToI64 (← truthy (← R.genExpr cs c) n.loc)
  let rhsEnd ← insertBlock
  emit (.br endBB)
  setInsertPoint endBB
  let phi ← createPhi [(cI64 (if isAnd then 0 else 1), lhsBB), (cv, rhsEnd)]
  return ⟨some phi, .i64⟩

/-- `genBinary`. -/
def genBinary (n : Node) (op : P) (a c : Expr) : Gen RV :=
  match op with
  | .andAnd => genShortCircuit R cs n true a c
  | .orOr => genShortCircuit R cs n false a c
  | .xorXor => do
      let a ← R.genExpr cs a
      let c ← R.genExpr cs c
      let x ← truthy a n.loc
      let y ← truthy c n.loc
      return ⟨some (← boolToI64 (← create (.bin .xor x y))), .i64⟩
  | .eqEq | .ne => do
      let a ← R.genExpr cs a
      let c ← R.genExpr cs c
      return ⟨some (← boolToI64 (← cmp op a c)), .i64⟩
  | _ => do
      let a ← R.genExpr cs a
      let c ← R.genExpr cs c
      arith op a c n.loc

/-- The loop of `genChainCmp`: the incoming values of the end block. -/
def genChain (endBB : Blk) : RV → List (P × Expr) → Gen (List (Value × Blk))
  | _, [] => pure []
  | prev, (op, e) :: rest => do
      let cur ← R.genExpr cs e
      let c ← cmp op prev cur
      if rest.isEmpty then do
        let blk ← insertBlock
        let z ← boolToI64 c
        emit (.br endBB)
        return [(z, blk)]
      else do
        let next ← newBlock
        let blk ← insertBlock
        emit (.condBr c next endBB)
        setInsertPoint next
        let incoming ← genChain endBB cur rest
        return (cI64 0, blk) :: incoming

/-- `genChainCmp`. -/
def genChainCmp (first : Expr) (rest : List (P × Expr)) : Gen RV := do
  let endBB ← newBlock
  let prev ← R.genExpr cs first
  let incoming ← genChain R cs endBB prev rest
  setInsertPoint endBB
  return ⟨some (← createPhi incoming), .i64⟩

/-- The end of `genAssign`: the store, and the value before its truncation. -/
def genStore (n : Node) (lv : LV) (rhs : RV) : Gen RV := do
  match lv.addr with
  | some a => do
      emit (.mark ⟨cs, n.addr⟩)
      storeTo Γ a rhs lv.t
  | none => pure ()
  return rhs

/-- `genAssign`. -/
def genAssign (n : Node) (op : P) (lhs rhs : Expr) : Gen RV := do
  let lv ← R.genLValue cs lhs
  if op = .assign then
    genStore Γ cs n lv (← R.genExpr cs rhs)
  else
    match lv.addr with
    | none => do
        let _ ← R.genExpr cs rhs
        return RV.zero
    | some a => do
        let old ← loadFrom Γ a lv.t
        let rv ← R.genExpr cs rhs
        genStore Γ cs n lv (← arith (compoundOp op) old rv n.loc)

/-- `genExpr`, one level. -/
def genExprStep : Expr → Gen RV
  | .intLit _ v | .charLit _ v => pure ⟨some (cI64 v), .i64⟩
  | .floatLit _ d => pure ⟨some (.fp d), .f64⟩
  | .strLit _ s => strRV s
  | .sizeofType _ t => pure ⟨some (cI64 (Γ.size t)), .i64⟩
  | .sizeofExpr _ k => do return ⟨some (cI64 (Γ.size (← ofOption (Γ.typeOf k)))), .i64⟩
  | .offsetOf n c m r =>
      match Γ.offsetOf c m r with
      | .ok v => pure ⟨some (cI64 v), .i64⟩
      | .error .notConst => do
          error n.loc "bad offset() expression"
          return RV.zero
      | .error .undefined => stop .fuel
  | .ident n s => genIdent Γ R cs n s
  | .unary n p pre k => genUnary Γ R cs n p pre k
  | .binary n op a c => genBinary R cs n op a c
  | .chainCmp _ first rest => genChainCmp R cs first rest
  | .assign n op a c => genAssign Γ R cs n op a c
  | .call n callee args => genCall Γ R cs n callee args
  | .index n b i => do
      let lv ← R.genLValue cs (.index n b i)
      match lv.addr with
      | none => return RV.zero
      | some a => loadFrom Γ a lv.t
  | .member n b s isArrow => do
      let lv ← R.genLValue cs (.member n b s isArrow)
      match lv.addr with
      | none => return RV.zero
      | some a => loadFrom Γ a lv.t
  | .cast _ k t => do
      let v ← R.genExpr cs k
      match t with
      | .void => return ⟨none, .void⟩
      | .array _ _ | .cls _ =>
          match v.v with
          | some v => return ⟨some (← ptrToI64 v), .ptr t⟩
          | none => return ⟨some (cI64 0), .ptr t⟩
      | _ => return ⟨some (← convert v t), t⟩
  | .lastClass n => do
      error n.loc "'lastclass' is only valid as a default argument"
      return RV.zero
  | .initList n _ => do
      error n.loc "initializer list is only valid in declarations"
      return RV.zero

/-- The `default` of `genLValue`. -/
def notLValue (n : Node) : Gen LV := do
  error n.loc "expression is not an lvalue"
  return LV.none

/-- `genLValue`, one level. -/
def genLValueStep : Expr → Gen LV
  | .ident n s =>
      match Γ.lookupVar s with
      | some v => pure ⟨some v.addr, v.type⟩
      | none =>
          match Γ.findFunc s with
          | some _ => do
              error n.loc ("function '" ++ s ++ "' is not an lvalue")
              return LV.none
          | none => do
              error n.loc ("undefined symbol '" ++ s ++ "'")
              return LV.none
  | .unary n p pre k =>
      if p = .star && pre then do
        let p ← R.genExpr cs k
        match p.t with
        | .ptr (.func _ _ _) => notLValue n
        | .ptr elem => return ⟨some (← asPtr p.v), elem⟩
        | _ => return ⟨some (← asPtr p.v), .u8⟩
      else if p = .plusPlus || p = .minusMinus then do
        let _ ← genUnary Γ R cs n p pre k
        R.genLValue cs k
      else notLValue n
  | .index _ b i => genIndexLV Γ R cs b i
  | .member n b s isArrow => genMemberLV Γ R cs n b s isArrow
  | .cast _ k t => do
      let lv ← R.genLValue cs k
      match lv.addr with
      | some a => return ⟨some a, t⟩
      | none => return LV.none
  | .assign n op a c => do
      let _ ← R.genExpr cs (.assign n op a c)
      R.genLValue cs a
  | e => notLValue e.node

end Nodes

/-- `genExpr` and `genLValue` to a depth. -/
def gen (Γ : Env) : Nat → Rec
  | 0 => ⟨fun _ _ => stop .fuel, fun _ _ => stop .fuel⟩
  | d + 1 => ⟨genExprStep Γ (gen Γ d), genLValueStep Γ (gen Γ d)⟩

end Hlang.Codegen
