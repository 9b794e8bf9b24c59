import Hlang.Codegen.Outcome

/-!
# Hlang.Codegen.Visits — what the generator of an expression visits

Read off the tree and the tables, without generating: the kind of the value of an expression
and the type of its lvalue (`rvKind`, `lvKind`), and what the generator of the expression does
in order (`steps`): the expressions it goes on to, default arguments among them, the lookups
in classes it waits for, and the values that it uses without asking whether they are there.
-/

namespace Hlang.Codegen

open Ir Gen

/-- The two generators of an expression. -/
inductive Pos where
  | rv
  | lv
deriving DecidableEq

/-- An expression, and the generator it is given to. -/
abbrev Visit := Pos × Expr

/-! ## Kinds of expressions -/

/-- The kind of the result of a call. -/
def FuncType.kind (ft : FuncType) : Kind :=
  match ft.ret with
  | .void => ⟨.void, true, false⟩
  | t => .of t

/-- What a pointer points to: what is no pointer points to bytes. -/
def pointee : Ty → Ty
  | .ptr elem => elem
  | _ => .u8

/-- What `*` loads; nothing, from a pointer to a function. -/
def derefTy : Ty → Option Ty
  | .ptr (.func _ _ _) | .func _ _ _ => none
  | .ptr .void => some .u8
  | .ptr elem => some elem
  | _ => some .u8

/-- The type of the lvalue `*` gives; a function has none. -/
def derefLV : Ty → Option Ty
  | .ptr (.func _ _ _) => none
  | t => some (pointee t)

/-- The kind of a cast value: to a pointer nothing is converted. -/
def castKind (q : Kind) : Ty → Kind
  | .void => ⟨.void, true, false⟩
  | .array elem n => ⟨.ptr (.array elem n), false, q.dbl⟩
  | .cls c => ⟨.ptr (.cls c), false, q.dbl⟩
  | t => .of t

/-- The function whose address `&k` is. -/
def Env.addressed (Γ : Env) : Expr → Option FuncSym
  | .ident _ s => if (Γ.lookupVar s).isSome then none else Γ.findFunc s
  | _ => none

/-- The ways `genCall` takes. -/
inductive CallWay where
  | indirect
  | intrinsic (name : String)
  | direct (f : FuncSym)
  | undefined (name : String)

/-- The way a call takes. -/
def Env.callWay (Γ : Env) : Expr → CallWay
  | .ident _ s =>
      match Γ.lookupVar s with
      | some _ => .indirect
      | none =>
          if s = "ToI64" || s = "ToBool" || s = "ToF64" then .intrinsic s
          else (Γ.findFunc s).elim (.undefined s) .direct
  | _ => .indirect

/-- The kind of the result of `ToI64`, `ToBool` and `ToF64`. -/
def intrinsicKind (s : String) : List Arg → Kind
  | [some _] => if s = "ToF64" then .f64 else .i64
  | _ => .i64

/-- The lvalue of an element. -/
def elementLV (tb : Option Ty) (kb : Option Kind) (lb : Option (Option Ty)) : Option (Option Ty) :=
  tb.bind fun
    | .array elem _ => lb.map fun o => o.map fun _ => elementTy elem
    | _ => kb.map fun k => some (elementTy (pointee k.t))

/-- The sub-int access of an index, where the base of its member is an integer. -/
def subIntLV (lq : Option (Option Ty)) (s : String) : Option Ty :=
  match lq, subIntType s with
  | some (some t), some sub => if t.isInt || t.isF64 then some sub else none
  | _, _ => none

namespace Env

variable (Γ : Env)

/-- What is loaded from an lvalue: 0 where there is none. -/
def loaded (lv : Option (Option Ty)) : Option Kind :=
  lv.bind fun
    | none => some .i64
    | some t => Γ.loadKind t

/-- Member `s` of an object of type `bt`. -/
def memberTy (bt : Option Ty) (s : String) : Option (Option Ty) :=
  match bt with
  | some (.cls c) => (Γ.findMember c s).map fun m => m.map (·.type)
  | some (.int _ _) | some .f64 => some (subIntType s)
  | _ => some none

/-- The lvalue of a member, given its base as a value and as an lvalue. -/
def memberLV (kb : Option Kind) (lb : Option (Option Ty)) (s : String) (isArrow : Bool) :
    Option (Option Ty) :=
  if isArrow then kb.bind fun k =>
    match k.t with
    | .ptr elem => Γ.memberTy (some elem) s
    | _ => some none
  else lb.bind fun
    | none => some none
    | some t => Γ.memberTy (some t) s

/-- The lvalue of an index whose base is member `s` of `q`. -/
def subIndexLV (q : Expr) (kq : Option Kind) (lq : Option (Option Ty)) (s : String) :
    Option (Option Ty) :=
  match subIntLV lq s with
  | some sub => some (some sub)
  | none => elementLV (Γ.typeOf (.member {} q s false))
      (Γ.loaded (Γ.memberLV kq lq s false)) (Γ.memberLV kq lq s false)

mutual

/-- The kind of the value of an expression. -/
def rvKind : Expr → Option Kind
  | .intLit _ _ | .charLit _ _ | .sizeofType _ _ | .sizeofExpr _ _ | .offsetOf _ _ _ _
  | .chainCmp _ _ _ | .lastClass _ | .initList _ _ => some .i64
  | .floatLit _ _ => some .f64
  | .strLit _ _ => some (.of (.ptr .u8))
  | .ident _ s =>
      match Γ.lookupVar s with
      | some v => Γ.loadKind v.type
      | none => some ((Γ.findFunc s).elim .i64 (·.type.kind))
  | .unary _ p _ k =>
      match p with
      | .amp =>
          match Γ.addressed k with
          | some ⟨some _, t⟩ => some (.of (.ptr (.func t.ret t.params t.variadic)))
          | _ => (lvKind k).map fun o => o.elim .i64 fun t => .of (.ptr t)
      | .star => (rvKind k).bind fun q => (derefTy q.t).elim (some q) Γ.loadKind
      | .minus => (rvKind k).map fun q =>
          if q.dbl then .f64 else if q.t.isInt then .of q.t else .i64
      | .plus => rvKind k
      | .plusPlus | .minusMinus => Γ.loaded (lvKind k)
      | _ => some .i64
  | .binary _ op a c =>
      match op with
      | .andAnd | .orOr | .xorXor | .eqEq | .ne => some .i64
      | op => (rvKind a).bind fun ka => (rvKind c).map fun kc => arithKind op ka kc
  | .assign _ op a c =>
      if op = .assign then rvKind c
      else (lvKind a).bind fun
        | none => some .i64
        | some t => (Γ.loadKind t).bind fun ka =>
            (rvKind c).map fun kc => arithKind (compoundOp op) ka kc
  | .call _ callee args =>
      match Γ.callWay callee with
      | .indirect => (rvKind callee).map fun q => (calledType q.t).elim .i64 (·.kind)
      | .intrinsic s => some (intrinsicKind s args)
      | .direct f => some f.type.kind
      | .undefined _ => some .i64
  | .index _ (.member _ q s false) _ => Γ.loaded (Γ.subIndexLV q (rvKind q) (lvKind q) s)
  | .index _ b _ => Γ.loaded (elementLV (Γ.typeOf b) (rvKind b) (lvKind b))
  | .member _ b s isArrow => Γ.loaded (Γ.memberLV (rvKind b) (lvKind b) s isArrow)
  | .cast _ k t => (rvKind k).map (castKind · t)

/-- The type of the lvalue of an expression; `some none` where there is no lvalue. -/
def lvKind : Expr → Option (Option Ty)
  | .ident _ s => some ((Γ.lookupVar s).map (·.type))
  | .unary _ p pre k =>
      if p = .star && pre then (rvKind k).map fun q => derefLV q.t
      else if p = .plusPlus || p = .minusMinus then lvKind k
      else some none
  | .index _ (.member _ q s false) _ => Γ.subIndexLV q (rvKind q) (lvKind q) s
  | .index _ b _ => elementLV (Γ.typeOf b) (rvKind b) (lvKind b)
  | .member _ b s isArrow => Γ.memberLV (rvKind b) (lvKind b) s isArrow
  | .cast _ k t => (lvKind k).map fun o => o.map fun _ => t
  | .assign _ _ a _ => lvKind a
  | _ => some none

end

-- the equations of the two are derived here, once for all that rewrites with them
attribute [local simp] rvKind lvKind

end Env

/-! ## Steps -/

/-- What the generator of a node does. -/
inductive Step where
  /-- the generator of an operand -/
  | visit (p : Pos) (e : Expr)
  /-- the generator of a default argument -/
  | dflt (e : Expr)
  /-- a lookup in the classes, that returns if `P` -/
  | find (P : Prop)
  /-- the use of a value, that is there if `P` -/
  | need (P : Prop)

/-- The type at which storage of type `t` is accessed is found. -/
def Env.Loads (Γ : Env) (t : Ty) : Prop := (accessType Γ.heap Γ.classFuel t).isSome = true

/-- The lvalue `lv`, if there is one, can be accessed. -/
def Env.LoadsLV (Γ : Env) (lv : Option (Option Ty)) : Prop := ∀ t, lv = some (some t) → Γ.Loads t

/-- Member `s` of a class `bt` is looked up. -/
def Env.MemberFinds (Γ : Env) (bt : Ty) (s : String) : Prop :=
  ∀ c, bt = .cls c → (Γ.findMember c s).isSome = true

/-- The expression has a value. -/
def Env.HasValue (Γ : Env) (e : Expr) : Prop := ∀ q, Γ.rvKind e = some q → q.isVoid = false

/-- The arguments that are written. -/
def written (args : List Arg) : List Step := args.filterMap fun a => a.map (.visit .rv)

/-- The arguments a call uses. -/
def usedArgs (ft : FuncType) (args : List Arg) : List Arg :=
  if ft.params.length < args.length && !ft.variadic then args.take ft.params.length else args

/-- `ToI64`, `ToBool` and `ToF64`. -/
def intrinsicSteps : List Arg → List Step
  | [some e] => [.visit .rv e]
  | _ => []

namespace Env

variable (Γ : Env)

/-- One turn of the loop over the parameters: the argument, or the default. -/
def slotSteps (p : FuncParam) : Arg → List Step
  | some e => [.visit .rv e, .find ((Γ.typeOf e).isSome = true)]
  | none => if p.dfltIsLastClass then [] else (p.dflt.map .dflt).toList

/-- The loop over the parameters. -/
def argSteps : List FuncParam → List Arg → List Step
  | [], _ => []
  | p :: ps, args => Γ.slotSteps p (args.head?.getD none) ++ argSteps ps args.tail

/-- `genCallTo`; `P` says that there is a callee. -/
def callSteps (ft : FuncType) (args : List Arg) (P : Prop) : List Step :=
  Γ.argSteps ft.params (usedArgs ft args) ++
    (if ft.variadic then written ((usedArgs ft args).drop ft.params.length) else []) ++ [.need P]

/-- A call through an expression. -/
def indirectSteps (callee : Expr) (args : List Arg) : List Step :=
  .visit .rv callee :: match (Γ.rvKind callee).bind fun q => calledType q.t with
    | some ft => Γ.callSteps ft args (Γ.HasValue callee)
    | none => written args ++ [.need (Γ.HasValue callee)]

/-- `genCall`. -/
def genCallSteps (callee : Expr) (args : List Arg) : List Step :=
  match Γ.callWay callee with
  | .indirect => Γ.indirectSteps callee args
  | .intrinsic _ => intrinsicSteps args
  | .direct f => Γ.callSteps f.type args (f.fn.isSome = true)
  | .undefined _ => []

/-- `genElementLV`. -/
def elementSteps (b i : Expr) : List Step :=
  .find ((Γ.typeOf b).isSome = true) :: match Γ.typeOf b with
    | some (.array _ _) => .visit .lv b ::
        match Γ.lvKind b with
        | some none => []
        | _ => [.visit .rv i]
    | _ => [.visit .rv b, .visit .rv i, .need (Γ.HasValue b)]

/-- `genIndexLV`. -/
def indexSteps (b i : Expr) : List Step :=
  match b with
  | .member _ q s false =>
      if (subIntType s).isSome then
        .visit .lv q ::
          if (subIntLV (Γ.lvKind q) s).isSome then [.visit .rv i] else Γ.elementSteps b i
      else Γ.elementSteps b i
  | _ => Γ.elementSteps b i

/-- What the generator of `e` does, in order. -/
def steps : Pos → Expr → List Step
  | .rv, .sizeofExpr _ k => [.find ((Γ.typeOf k).isSome = true)]
  | .rv, .offsetOf _ c m r => [.find (Γ.offsetOf c m r ≠ .error .undefined)]
  | .rv, .ident _ s =>
      match Γ.lookupVar s with
      | some v => [.find (Γ.Loads v.type)]
      | none => (Γ.findFunc s).elim [] fun f => Γ.callSteps f.type [] (f.fn.isSome = true)
  | .rv, .unary _ p _ k =>
      match p with
      | .amp => if (Γ.addressed k).any (·.fn.isSome) then [] else [.visit .lv k]
      | .star => [.visit .rv k,
          .need (∀ q, Γ.rvKind k = some q → (derefTy q.t).isSome = true → q.isVoid = false),
          .find (∀ q, Γ.rvKind k = some q → ∀ t, derefTy q.t = some t → Γ.Loads t)]
      | .not | .tilde | .minus | .plus => [.visit .rv k]
      | .plusPlus | .minusMinus => [.visit .lv k, .find (Γ.LoadsLV (Γ.lvKind k))]
      | _ => []
  | .rv, .binary _ _ a c => [.visit .rv a, .visit .rv c]
  | .rv, .chainCmp _ first rest => .visit .rv first :: rest.map fun r => .visit .rv r.2
  | .rv, .assign _ op a c =>
      if op = .assign then [.visit .lv a, .visit .rv c, .find (Γ.LoadsLV (Γ.lvKind a)),
        .need (∀ t t', Γ.lvKind a = some (some t) → accessType Γ.heap Γ.classFuel t = some t' →
          isAggregate t' = true → Γ.HasValue c)]
      else [.visit .lv a, .find (Γ.LoadsLV (Γ.lvKind a)), .visit .rv c]
  | .rv, .call _ callee args => Γ.genCallSteps callee args
  | .rv, .index n b i =>
      [.visit .lv (.index n b i), .find (Γ.LoadsLV (Γ.lvKind (.index n b i)))]
  | .rv, .member n b s isArrow =>
      [.visit .lv (.member n b s isArrow), .find (Γ.LoadsLV (Γ.lvKind (.member n b s isArrow)))]
  | .rv, .cast _ k _ => [.visit .rv k]
  | .lv, .unary _ p pre k =>
      if p = .star && pre then [.visit .rv k,
        .need (∀ q, Γ.rvKind k = some q → (derefLV q.t).isSome = true → q.isVoid = false)]
      else if p = .plusPlus || p = .minusMinus then
        [.visit .lv k, .find (Γ.LoadsLV (Γ.lvKind k)), .visit .lv k]
      else []
  | .lv, .index _ b i => Γ.indexSteps b i
  | .lv, .member _ b s isArrow =>
      if isArrow then [.visit .rv b, .need (Γ.HasValue b),
        .find (∀ q, Γ.rvKind b = some q → ∀ elem, q.t = .ptr elem → Γ.MemberFinds elem s)]
      else [.visit .lv b, .find (∀ t, Γ.lvKind b = some (some t) → Γ.MemberFinds t s)]
  | .lv, .cast _ k _ => [.visit .lv k]
  | .lv, .assign n op a c => [.visit .rv (.assign n op a c), .visit .lv a]
  | _, _ => []

end Env

/-! ## What holds along the steps -/

section Along

variable {E S : Visit → Prop} {P : Prop} {p : Pos} {e : Expr} {ss ss' : List Step}

/-- All steps end, where `E` says which visits do. -/
def EndAll (E : Visit → Prop) : List Step → Prop
  | [] => True
  | .visit p e :: ss => E (p, e) ∧ EndAll E ss
  | .dflt e :: ss => E (.rv, e) ∧ EndAll E ss
  | .find P :: ss => P ∧ EndAll E ss
  | .need _ :: ss => EndAll E ss

/-- No step that is reached asks for a missing value, where `S` says which visits do not. -/
def SafeAll (E S : Visit → Prop) : List Step → Prop
  | [] => True
  | .visit p e :: ss => S (p, e) ∧ (E (p, e) → SafeAll E S ss)
  | .dflt e :: ss => S (.rv, e) ∧ (E (.rv, e) → SafeAll E S ss)
  | .find P :: ss => P → SafeAll E S ss
  | .need P :: ss => P ∧ SafeAll E S ss

@[simp] theorem endAll_nil : EndAll E [] ↔ True := Iff.rfl

@[simp] theorem endAll_visit : EndAll E (.visit p e :: ss) ↔ E (p, e) ∧ EndAll E ss := Iff.rfl

@[simp] theorem endAll_dflt : EndAll E (.dflt e :: ss) ↔ E (.rv, e) ∧ EndAll E ss := Iff.rfl

@[simp] theorem endAll_find : EndAll E (.find P :: ss) ↔ P ∧ EndAll E ss := Iff.rfl

@[simp] theorem endAll_need : EndAll E (.need P :: ss) ↔ EndAll E ss := Iff.rfl

@[simp] theorem safeAll_nil : SafeAll E S [] ↔ True := Iff.rfl

@[simp] theorem safeAll_visit :
    SafeAll E S (.visit p e :: ss) ↔ S (p, e) ∧ (E (p, e) → SafeAll E S ss) := Iff.rfl

@[simp] theorem safeAll_dflt :
    SafeAll E S (.dflt e :: ss) ↔ S (.rv, e) ∧ (E (.rv, e) → SafeAll E S ss) := Iff.rfl

@[simp] theorem safeAll_find : SafeAll E S (.find P :: ss) ↔ (P → SafeAll E S ss) := Iff.rfl

@[simp] theorem safeAll_need : SafeAll E S (.need P :: ss) ↔ P ∧ SafeAll E S ss := Iff.rfl

theorem endAll_append : EndAll E (ss ++ ss') ↔ EndAll E ss ∧ EndAll E ss' := by
  induction ss with
  | nil => simp
  | cons s ss ih => cases s <;> simp [ih, and_assoc]

theorem safeAll_append :
    SafeAll E S (ss ++ ss') ↔ SafeAll E S ss ∧ (EndAll E ss → SafeAll E S ss') := by
  induction ss with
  | nil => simp
  | cons s ss ih =>
      cases s with
      | visit p e =>
          simp only [List.cons_append, endAll_visit, safeAll_visit, ih]
          tauto
      | dflt e =>
          simp only [List.cons_append, endAll_dflt, safeAll_dflt, ih]
          tauto
      | find P =>
          simp only [List.cons_append, endAll_find, safeAll_find, ih]
          tauto
      | need P =>
          simp only [List.cons_append, endAll_need, safeAll_need, ih]
          tauto

end Along

end Hlang.Codegen
