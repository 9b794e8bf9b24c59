import Hlang.Stmt
import Hlang.Codegen.Init

/-!
# Hlang.Codegen.Stmt — code generation for statements

`genStmt` and the functions it calls, over the context `FnCtx` of the function that
is being generated. The stack of break targets is handed down; each statement that
pushes one pops it again. The operands of a `SwitchInst` are in a table, since cases
are added to it later.
-/

namespace Hlang.Codegen

open Ir Gen

/-- The operands of a `SwitchInst`. -/
structure SwitchTable where
  dflt : Blk
  cases : List (I64 × Blk) := []

/-- The blocks a switch may go to. -/
def SwitchTable.blocks (t : SwitchTable) : List Blk := t.dflt :: t.cases.map Prod.snd

/-- What `retIsF64` tells apart. -/
inductive RetKind where
  | int
  | f64
  | void
deriving DecidableEq

/-- `SwitchCtx`. -/
structure SwitchCtx where
  sw : Nat
  exitBB : Blk
  inGroup : Bool := false
  groupStartBB : Blk := 0
  groupEndBB : Blk := 0
  groupSel : Value := .slot 0
  groupSw : Option Nat := none
  nextGroupId : Nat := 0
  nextCaseVal : I64 := 0

/-- `BreakTarget`, with what its `SwitchCtx` holds when a statement is generated. -/
structure BreakTarget where
  bb : Blk
  swc : Option SwitchCtx := none

/-- What happens to the scopes of a function. -/
inductive ScopeEvent where
  | push
  | pop
  | bind (name : String) (sym : VarSym)
  /-- code is generated for an expression under these scopes -/
  | use (scopes : List (List (String × VarSym))) (e : Expr)
  /-- the post expressions of a `for` are left out -/
  | skip

/-- `FnCtx`, with the tables of its switches and its static locals. The scope log is not
in the source: it keeps what happened to the scopes, in order. -/
structure FnCtx where
  b : Builder := {}
  scopes : List (List (String × VarSym)) := [[]]
  localNames : List String := []
  labels : List (String × Blk) := []
  labelsDefined : List String := []
  retIsF64 : RetKind := .void
  tables : List SwitchTable := []
  statics : List (String × Const) := []
  scopeLog : List ScopeEvent := []

/-- Code generation in a function. -/
abbrev Cg (α : Type) := StateT FnCtx (Except Stop) α

/-- A step of the builder. -/
def ir {α : Type} (x : Gen α) : Cg α := fun F =>
  match x F.b with
  | .ok (a, B) => .ok (a, { F with b := B })
  | .error s => .error s

namespace Cg

/-- `GetInsertBlock()->getTerminator()`. -/
def hasTerminator : Cg Bool := fun F =>
  .ok ((F.b.log.code F.b.cur).getLast?.any (·.isTerminator), F)

/-- `if (!getTerminator()) CreateBr(bb)`. -/
def brIfOpen (bb : Blk) : Cg Unit := do
  if !(← hasTerminator) then ir (emit (.br bb))

/-- `startDeadBlock`. -/
def startDeadBlock : Cg Unit := do
  let dead ← ir newBlock
  ir (setInsertPoint dead)

/-- `CreateSwitch`. -/
def createSwitch (v : Value) (dflt : Blk) : Cg Nat := fun F =>
  .ok (F.tables.length, { F with
    b := { F.b with log := F.b.log ++ [(F.b.cur, .switch F.tables.length v)] }
    tables := F.tables ++ [⟨dflt, []⟩] })

/-- `addCase` for each of the values. -/
def addCases (sw : Nat) (vs : List I64) (bb : Blk) : Cg Unit := fun F =>
  let tables := F.tables.modify sw fun t => { t with cases := t.cases ++ vs.map fun v => (v, bb) }
  .ok ((), { F with tables := tables })

/-- `setDefaultDest`. -/
def setDefaultDest (sw : Nat) (bb : Blk) : Cg Unit := fun F =>
  let tables := F.tables.modify sw fun t => { t with dflt := bb }
  .ok ((), { F with tables := tables })

/-- `getLabelBlock`. -/
def getLabelBlock (name : String) : Cg Blk := fun F =>
  match F.labels.lookup name with
  | some bb => .ok (bb, F)
  | none =>
      .ok (F.b.nextBlk, { F with
        b := { F.b with nextBlk := F.b.nextBlk + 1 }
        labels := (name, F.b.nextBlk) :: F.labels })

/-- `labelsDefined.count`. -/
def isDefined (name : String) : Cg Bool := fun F => .ok (decide (name ∈ F.labelsDefined), F)

/-- `labelsDefined.insert`. -/
def defineLabel (name : String) : Cg Unit := fun F =>
  .ok ((), { F with labelsDefined := name :: F.labelsDefined })

/-- An entry of the scope log. -/
def note (ev : ScopeEvent) : Cg Unit :=
  modify fun F => { F with scopeLog := F.scopeLog ++ [ev] }

/-- `scopes.emplace_back()`. -/
def pushScope : Cg Unit := do
  note .push
  modify fun F => { F with scopes := [] :: F.scopes }

/-- `scopes.pop_back()`. -/
def popScope : Cg Unit := do
  note .pop
  modify fun F => { F with scopes := F.scopes.tail }

/-- A scope pushed, `x`, and the scope popped. -/
def inScope (x : Cg Unit) : Cg Unit := do
  pushScope
  x
  popScope

/-- `scopes.back()[name] = sym`. -/
def bindName (name : String) (sym : VarSym) : Cg Unit := do
  note (.bind name sym)
  modify fun F => { F with scopes := F.scopes.modifyHead fun s => (name, sym) :: s }

/-- `declareLocal`. -/
def declareLocal (name : String) (sym : VarSym) (loc : SrcLoc) : Cg Unit := do
  if name ∈ (← get).localNames then
    ir (error loc ("duplicate local variable '" ++ name ++
      "' (HolyC local vars are NoDups; pick another name)"))
  else do
    modify fun F => { F with localNames := name :: F.localNames }
    bindName name sym

end Cg

open Cg

section Stmts

variable (Γ : Env) (d : Nat)

/-- `genExpr` under the scopes of the function. -/
def genExpr (e : Expr) : Cg RV := do
  let F ← get
  note (.use F.scopes e)
  ir ((gen { Γ with scopes := F.scopes } d).genExpr [] e)

/-- The condition of a statement. -/
def genCond (loc : SrcLoc) (e : Expr) : Cg Value := do
  let v ← genExpr Γ d e
  ir (truthy v loc)

/-! ## Branches and loops -/

/-- The else branch. -/
def genElse (els : Option (Cg Unit)) (elseBB endBB : Blk) : Cg Unit :=
  match els with
  | none => pure ()
  | some x => do
      ir (setInsertPoint elseBB)
      x
      brIfOpen endBB

/-- `genIf`. -/
def genIf (loc : SrcLoc) (e : Expr) (thn : Cg Unit) (els : Option (Cg Unit)) : Cg Unit := do
  let c ← genCond Γ d loc e
  let thenBB ← ir newBlock
  let endBB ← ir newBlock
  let elseBB ← ir (if els.isSome then newBlock else pure endBB)
  ir (emit (.condBr c thenBB elseBB))
  ir (setInsertPoint thenBB)
  thn
  brIfOpen endBB
  genElse els elseBB endBB
  ir (setInsertPoint endBB)

/-- `genWhile`, with the body for its break target. -/
def genWhile (loc : SrcLoc) (e : Expr) (body : BreakTarget → Cg Unit) : Cg Unit := do
  let condBB ← ir newBlock
  let bodyBB ← ir newBlock
  let endBB ← ir newBlock
  ir (emit (.br condBB))
  ir (setInsertPoint condBB)
  let c ← genCond Γ d loc e
  ir (emit (.condBr c bodyBB endBB))
  ir (setInsertPoint bodyBB)
  body ⟨endBB, none⟩
  brIfOpen condBB
  ir (setInsertPoint endBB)

/-- `genDoWhile`. -/
def genDoWhile (loc : SrcLoc) (e : Expr) (body : BreakTarget → Cg Unit) : Cg Unit := do
  let bodyBB ← ir newBlock
  let condBB ← ir newBlock
  let endBB ← ir newBlock
  ir (emit (.br bodyBB))
  ir (setInsertPoint bodyBB)
  body ⟨endBB, none⟩
  brIfOpen condBB
  ir (setInsertPoint condBB)
  let c ← genCond Γ d loc e
  ir (emit (.condBr c bodyBB endBB))
  ir (setInsertPoint endBB)

/-- A list of expressions for their effects. -/
def genExprs : List Expr → Cg Unit
  | [] => pure ()
  | e :: es => do
      let _ ← genExpr Γ d e
      genExprs es

/-- The condition of `for`, which may be missing. -/
def genForCond (loc : SrcLoc) (e : Option Expr) (bodyBB endBB : Blk) : Cg Unit :=
  match e with
  | some e => do
      let c ← genCond Γ d loc e
      ir (emit (.condBr c bodyBB endBB))
  | none => ir (emit (.br bodyBB))

/-- The end of the body of `for`. -/
def genForPost (post : List Expr) (condBB : Blk) : Cg Unit := do
  if !(← hasTerminator) then
    genExprs Γ d post
    ir (emit (.br condBB))
  else note .skip

/-- `genFor`. -/
def genFor (loc : SrcLoc) (init : List Expr) (e : Option Expr) (post : List Expr)
    (body : BreakTarget → Cg Unit) : Cg Unit := do
  genExprs Γ d init
  let condBB ← ir newBlock
  let bodyBB ← ir newBlock
  let endBB ← ir newBlock
  ir (emit (.br condBB))
  ir (setInsertPoint condBB)
  genForCond Γ d loc e bodyBB endBB
  ir (setInsertPoint bodyBB)
  body ⟨endBB, none⟩
  genForPost Γ d post condBB
  ir (setInsertPoint endBB)

/-- `CreateRet` of the value of a return statement. -/
def genRetValue (e : Option Expr) (k : RetKind) : Cg Unit :=
  match e, k with
  | none, .void => ir (emit (.ret none))
  | some e, .void => do
      let _ ← genExpr Γ d e
      ir (emit (.ret none))
  | none, .f64 => ir (emit (.ret (some (.fp 0))))
  | some e, .f64 => do
      let v ← genExpr Γ d e
      ir (do emit (.ret (some (← convert v .f64))))
  | none, .int => ir (emit (.ret (some (cI64 0))))
  | some e, .int => do
      let v ← genExpr Γ d e
      ir (do emit (.ret (some (← convert v .i64 false))))

/-- `genReturn`. -/
def genReturn (e : Option Expr) : Cg Unit := do
  genRetValue Γ d e (← get).retIsF64
  startDeadBlock

/-! ## Switch -/

/-- The value of a case label, or `dflt` with a message where it is not constant. -/
def genCaseVal (loc : SrcLoc) (e : Expr) (msg : String) (dflt : I64) : Cg I64 := do
  match ({ Γ with scopes := (← get).scopes } : Env).evalConst e with
  | .ok v => return v
  | .error .notConst => do
      ir (error loc msg)
      return dflt
  | .error .undefined => ir (stop .undefined)

/-- The end of the range of a case label. -/
def genCaseHi (loc : SrcLoc) (e : Option Expr) (lo : I64) : Cg I64 :=
  match e with
  | none => pure lo
  | some e => genCaseVal Γ loc e "case range end must be a constant expression" lo

/-- The range of a case label. -/
def genCaseRange (loc : SrcLoc) (caseLo : Option (Expr × Option Expr)) (next : I64) :
    Cg (I64 × I64) :=
  match caseLo with
  | none => pure (next, next)
  | some (e, caseHi) => do
      let lo ← genCaseVal Γ loc e "case value must be a constant expression" next
      let hi ← genCaseHi Γ loc caseHi lo
      return (lo, hi)

/-- The range that is used: one value where the range is empty or too large. Its
end has a successor, and so does the end of the loop over the values; its length does
not overflow. -/
def checkCaseRange (loc : SrcLoc) (lo hi : I64) : Cg I64 :=
  if hi = BitVec.intMax 64 then ir (stop .undefined)
  else if hi.slt lo then do
    ir (error loc "case range too large")
    if lo = BitVec.intMax 64 then ir (stop .undefined) else return lo
  else if 2 ^ 63 ≤ hi.toInt - lo.toInt then ir (stop .undefined)
  else if 100000 < hi.toInt - lo.toInt then do
    ir (error loc "case range too large")
    return lo
  else pure hi

/-- The values of the loop `for (v = lo; v <= hi; v++)`. -/
def caseVals (lo hi : I64) : List I64 :=
  (List.range (hi.toInt - lo.toInt + 1).toNat).map fun k => lo + BitVec.ofNat 64 k

/-- The dispatch stub of a group's case: it remembers the case, and runs the porch. -/
def emitStub (stub : Blk) (groupSel : Value) (id : Nat) (groupStartBB : Blk) : Gen Unit := fun B =>
  .ok ((), { B with log := B.log ++
    [(stub, .store (.int 32) (.int 32 (BitVec.ofNat 64 id)) groupSel), (stub, .br groupStartBB)] })

/-- The end of the front porch, or the fall from the case before: the switch of the
group. -/
def genGroupDispatch (loc : SrcLoc) (swc : SwitchCtx) (bb : Blk) : Cg (Option Nat) :=
  match swc.groupSw with
  | some sw => do
      brIfOpen bb
      return some sw
  | none => do
      if ← hasTerminator then
        ir (error loc "start: front porch may not end in a jump")
        return none
      else
        let sel ← ir (create (.load (.int 32) swc.groupSel))
        return some (← createSwitch sel bb)

/-- The case of the group's switch. -/
def addGroupCase (groupSw : Option Nat) (id : Nat) (bb : Blk) : Cg Unit :=
  match groupSw with
  | some sw => addCases sw [BitVec.ofNat 64 id] bb
  | none => pure ()

/-- A case label in a group. -/
def genGroupCase (loc : SrcLoc) (swc : SwitchCtx) (lo hi : I64) (bb : Blk) : Cg SwitchCtx := do
  let groupSw ← genGroupDispatch loc swc bb
  if swc.nextGroupId + 1 = 2 ^ 31 then ir (stop .undefined)
  else
    let id := swc.nextGroupId
    let stub ← ir newBlock
    ir (emitStub stub swc.groupSel id swc.groupStartBB)
    addCases swc.sw (caseVals lo hi) stub
    addGroupCase groupSw id bb
    return { swc with groupSw := groupSw, nextGroupId := id + 1 }

/-- A case label outside of groups. -/
def genPlainCase (swc : SwitchCtx) (lo hi : I64) (bb : Blk) : Cg SwitchCtx := do
  brIfOpen bb
  addCases swc.sw (caseVals lo hi) bb
  return swc

/-- A case label, for its block. -/
def genCase (loc : SrcLoc) (swc : SwitchCtx) (lo hi : I64) (bb : Blk) : Cg SwitchCtx :=
  if swc.inGroup then genGroupCase loc swc lo hi bb else genPlainCase swc lo hi bb

/-- `genCaseLabel`. -/
def genCaseLabel (loc : SrcLoc) (caseLo : Option (Expr × Option Expr)) (swc : SwitchCtx) :
    Cg SwitchCtx := do
  let range ← genCaseRange Γ loc caseLo swc.nextCaseVal
  let hi ← checkCaseRange loc range.1 range.2
  let bb ← ir newBlock
  let swc ← genCase loc { swc with nextCaseVal := range.2 + 1 } range.1 hi bb
  ir (setInsertPoint bb)
  return swc

/-- What `default` does to the switch. -/
def markDefault (loc : SrcLoc) (swc : SwitchCtx) (bb : Blk) : Cg Unit :=
  if swc.inGroup then ir (error loc "default: inside start:/end: group")
  else setDefaultDest swc.sw bb

/-- The `default` of `genSwitch`. -/
def genDefault (loc : SrcLoc) (swc : SwitchCtx) : Cg SwitchCtx := do
  let bb ← ir newBlock
  brIfOpen bb
  ir (setInsertPoint bb)
  markDefault loc swc bb
  return swc

/-- The fall into a front porch enters the first case of the group. -/
def fallIntoPorch (groupSel : Value) (groupStartBB : Blk) : Cg Unit := do
  if !(← hasTerminator) then
    ir (emit (.store (.int 32) (.int 32 0) groupSel))
    ir (emit (.br groupStartBB))

/-- `genSubStart`. -/
def genSubStart (loc : SrcLoc) (swc : SwitchCtx) : Cg SwitchCtx :=
  if swc.inGroup then do
    ir (error loc "nested start: in switch")
    return swc
  else do
    let groupStartBB ← ir newBlock
    let groupEndBB ← ir newBlock
    let groupSel ← ir (entryAlloca (.int 32))
    fallIntoPorch groupSel groupStartBB
    ir (setInsertPoint groupStartBB)
    return { swc with
      inGroup := true
      groupStartBB := groupStartBB
      groupEndBB := groupEndBB
      groupSel := groupSel
      groupSw := none
      nextGroupId := 0 }

/-- `genSubEnd`. -/
def genSubEnd (loc : SrcLoc) (swc : SwitchCtx) : Cg SwitchCtx :=
  if swc.inGroup then do
    brIfOpen swc.groupEndBB
    ir (setInsertPoint swc.groupEndBB)
    return { swc with inGroup := false }
  else do
    ir (error loc "end: without start: in switch")
    return swc

/-- One item of the body of a switch; `stmt` generates what is not a label. -/
def genItem (it : Stmt) (stmt : BreakTarget → Cg Unit) (swc : SwitchCtx) : Cg SwitchCtx :=
  match it with
  | .caseS loc caseLo => genCaseLabel Γ loc caseLo swc
  | .defaultS loc => genDefault loc swc
  | .subStart loc => genSubStart loc swc
  | .subEnd loc => genSubEnd loc swc
  | _ => do
      stmt ⟨swc.exitBB, some swc⟩
      return swc

/-- Every group is closed. -/
def checkGroup (loc : SrcLoc) (swc : SwitchCtx) : Cg Unit :=
  if swc.inGroup then ir (error loc "start: without matching end: in switch") else pure ()

/-- The end of `genSwitch`. -/
def endSwitch (loc : SrcLoc) (swc : SwitchCtx) : Cg Unit := do
  checkGroup loc swc
  brIfOpen swc.exitBB
  ir (setInsertPoint swc.exitBB)

/-- `genSwitch`, with the items of its body. -/
def genSwitch (loc : SrcLoc) (e : Expr) (items : SwitchCtx → Cg SwitchCtx) : Cg Unit := do
  let v ← genExpr Γ d e
  let cond ← ir (convert v .i64 false)
  let exitBB ← ir newBlock
  let firstBB ← ir newBlock
  ir (emit (.br firstBB))
  ir (setInsertPoint firstBB)
  let sw ← createSwitch cond exitBB
  startDeadBlock
  pushScope
  let swc ← items { sw := sw, exitBB := exitBB }
  popScope
  endSwitch loc swc

/-! ## The other statements -/

/-- `genTry`. -/
def genTry (body body2 : Cg Unit) : Cg Unit := do
  let frame ← ir (entryAlloca (.bytes 256))
  let jb ← ir (createCall .ptr (.fn "HC_TryPush") [frame])
  let rc ← ir (createCall (.int 32) (.fn "setjmp") [jb.getD (cI64 0)])
  let tryBB ← ir newBlock
  let catchBB ← ir newBlock
  let endBB ← ir newBlock
  let c ← ir (create (.icmp .eq (rc.getD (cI64 0)) (.int 32 0)))
  ir (emit (.condBr c tryBB catchBB))
  ir (setInsertPoint tryBB)
  inScope body
  leave "HC_TryPop" endBB
  ir (setInsertPoint catchBB)
  let _ ← ir (createCall .void (.fn "HC_CatchEnter") [])
  inScope body2
  leave "HC_CatchDone" endBB
  ir (setInsertPoint endBB)
where
  /-- the end of a body: the call, and the branch to the end -/
  leave (f : String) (endBB : Blk) : Cg Unit := do
    if !(← hasTerminator) then
      let _ ← ir (createCall .void (.fn f) [])
      ir (emit (.br endBB))

/-- `break`. -/
def genBreak (loc : SrcLoc) (breaks : List BreakTarget) : Cg Unit :=
  match breaks with
  | [] => ir (error loc "break outside of loop or switch")
  | t :: _ => do
      let dst := match t.swc with
        | some swc => if swc.inGroup then swc.groupEndBB else t.bb
        | none => t.bb
      ir (emit (.br dst))
      startDeadBlock

/-- `goto`. -/
def genGoto (label : String) : Cg Unit := do
  let bb ← getLabelBlock label
  ir (emit (.br bb))
  startDeadBlock

/-- A label. -/
def genLabel (loc : SrcLoc) (label : String) : Cg Unit := do
  if ← isDefined label then
    ir (error loc ("duplicate label '" ++ label ++ "'"))
  else
    let bb ← getLabelBlock label
    defineLabel label
    brIfOpen bb
    ir (setInsertPoint bb)

/-- `genInit` under the scopes of the function. -/
def genInitIn (addr : Value) (t : Ty) (init : Option Expr) : Cg Unit :=
  match init with
  | some e => do
      let F ← get
      note (.use F.scopes e)
      ir (genInit { Γ with scopes := F.scopes } (gen { Γ with scopes := F.scopes } d) addr t e)
  | none => pure ()

/-- `genStaticLocal`, in the function `fnName`. -/
def genStaticLocal (fnName : String) (v : VarDeclarator) : Cg Unit := do
  let Γ : Env := { Γ with scopes := (← get).scopes }
  let init ← match v.init with
    | none => pure (.null (Γ.memTy v.type))
    | some e =>
        match Γ.tryConstInit e v.type with
        | .ok c => pure c
        | .error .undefined => ir (stop .undefined)
        | .error .notConst => do
            ir (error v.loc "static var initializer must be a compile-time constant")
            pure (.null (Γ.memTy v.type))
  let name := fnName ++ "." ++ v.name
  modify fun F => { F with statics := F.statics ++ [(name, init)] }
  declareLocal v.name ⟨.glob name, v.type⟩ v.loc

/-- A local variable of `genVarDecl`. -/
def genLocal (v : VarDeclarator) : Cg Unit := do
  let vt := regSlotType v.type
  let a ← ir (entryAlloca (Γ.memTy vt))
  declareLocal v.name ⟨a, vt⟩ v.loc
  genInitIn Γ d a vt v.init

/-- `genVarDecl`. -/
def genVarDecl (fnName : String) (isStatic : Bool) : List VarDeclarator → Cg Unit
  | [] => pure ()
  | v :: vs => do
      if isStatic then genStaticLocal Γ fnName v else genLocal Γ d v
      genVarDecl fnName isStatic vs

/-! ## The recursion -/

variable (fnName : String)

mutual

/-- `genStmt`. -/
def genStmt (breaks : List BreakTarget) : Stmt → Cg Unit
  | .empty _ | .noWarn _ => pure ()
  | .block _ body => inScope (genStmts breaks body)
  | .expr _ e => do
      let _ ← genExpr Γ d e
  | .ifS loc e body body2 => genIf Γ d loc e (genStmt breaks body) (genElseStmt breaks body2)
  | .whileS loc e body => genWhile Γ d loc e fun t => genStmt (t :: breaks) body
  | .doWhile loc e body => genDoWhile Γ d loc e fun t => genStmt (t :: breaks) body
  | .forS loc init e post body => genFor Γ d loc init e post fun t => genStmt (t :: breaks) body
  | .switchS loc e (.block _ body) => genSwitch Γ d loc e (genItems breaks body)
  | .switchS loc e body =>
      genSwitch Γ d loc e (genItem Γ body fun t => genStmt (t :: breaks) body)
  | .breakS loc => genBreak loc breaks
  | .gotoS _ label => genGoto label
  | .labelS loc label => genLabel loc label
  | .returnS _ e => genReturn Γ d e
  | .varDecl _ decls isStatic => genVarDecl Γ d fnName isStatic decls
  | .tryS _ body body2 => genTry (genStmts breaks body) (genStmts breaks body2)
  | .lock _ body => genStmt breaks body
  | .caseS loc _ | .defaultS loc | .subStart loc | .subEnd loc =>
      ir (error loc "case labels are only valid directly inside a switch")

/-- The else branch of `genIf`. -/
def genElseStmt (breaks : List BreakTarget) : Option Stmt → Option (Cg Unit)
  | none => none
  | some s => some (genStmt breaks s)

/-- The statements of a block. -/
def genStmts (breaks : List BreakTarget) : List Stmt → Cg Unit
  | [] => pure ()
  | s :: ss => do
      genStmt breaks s
      genStmts breaks ss

/-- The items of the body of a switch. -/
def genItems (breaks : List BreakTarget) : List Stmt → SwitchCtx → Cg SwitchCtx
  | [], swc => pure swc
  | it :: items, swc => do
      let swc ← genItem Γ it (fun t => genStmt (t :: breaks) it) swc
      genItems breaks items swc

end

end Stmts

end Hlang.Codegen
