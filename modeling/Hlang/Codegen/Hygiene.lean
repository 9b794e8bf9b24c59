import Hlang.Codegen.Defaults

/-!
# Hlang.Codegen.Hygiene — default arguments under the scopes of the caller

The default of an omitted argument is generated at the call, where names are looked up in the
scopes of the caller first. Generation under two stacks of scopes is the same code where the
names that the expression uses, and those of the defaults it opens, are the same variables in
both (`gen_scopes`).
-/

namespace Hlang.Codegen

open Ir Gen Relation

/-- The operands of an expression. -/
def kids : Expr → List Expr
  | .unary _ _ _ k | .cast _ k _ | .sizeofExpr _ k | .member _ k _ _ => [k]
  | .binary _ _ a c | .assign _ _ a c | .index _ a c => [a, c]
  | .chainCmp _ first rest => first :: rest.map Prod.snd
  | .call _ callee args => callee :: args.filterMap id
  | .initList _ es => es
  | _ => []

/-- An operand of the expression, or a default argument that its generator opens. -/
def Uses (Γ : Env) (e q : Expr) : Prop := q ∈ kids e ∨ Step.dflt q ∈ Γ.steps .rv e

/-- The environment under other scopes. -/
abbrev Env.under (Γ : Env) (scopes : List (List (String × VarSym))) : Env :=
  { Γ with scopes := scopes }

/-- Every name that the expression uses, through operands and defaults, is the same variable
under both stacks of scopes. -/
def SameNames (Γ : Env) (sc sc' : List (List (String × VarSym))) (e : Expr) : Prop :=
  ∀ q, ReflTransGen (Uses (Γ.under sc')) e q → ∀ n s, q = .ident n s →
    (Γ.under sc).lookupVar s = (Γ.under sc').lookupVar s

section Names

variable {Γ : Env} {sc sc' : List (List (String × VarSym))} {e q : Expr}

theorem SameNames.kid (h : SameNames Γ sc sc' e) (hq : q ∈ kids e) : SameNames Γ sc sc' q :=
  fun x hx => h x (.head (.inl hq) hx)

theorem SameNames.dflt (h : SameNames Γ sc sc' e)
    (hq : Step.dflt q ∈ (Γ.under sc').steps .rv e) : SameNames Γ sc sc' q :=
  fun x hx => h x (.head (.inr hq) hx)

theorem SameNames.ident {n : Node} {s : String} (h : SameNames Γ sc sc' (.ident n s)) :
    (Γ.under sc).lookupVar s = (Γ.under sc').lookupVar s :=
  h _ .refl n s rfl

variable (Γ sc sc') in
theorem str_under (t : Ty) : (Γ.under sc).str t = (Γ.under sc').str t := by
  induction t using Env.str.induct with
  | case4 elem ih => exact congrArg (· ++ "*") ih
  | case5 elem n ih => exact congrArg (· ++ "[" ++ toString n.toInt ++ "]") ih
  | _ => rfl

variable (Γ sc sc') in
theorem classNameOf_under (t : Ty) : (Γ.under sc).classNameOf t = (Γ.under sc').classNameOf t := by
  induction t using Env.classNameOf.induct with
  | case1 elem ih => exact ih
  | case2 c => rfl
  | case3 t hptr hcls =>
      unfold Env.classNameOf
      split
      · exact (hptr _ rfl).elim
      · rfl
      · exact str_under Γ sc sc' t

/-- The static type of the expression is the same. -/
theorem typeOf_under (h : SameNames Γ sc sc' e) :
    (Γ.under sc).typeOf e = (Γ.under sc').typeOf e := by
  have hkid : ∀ {e q}, SameNames Γ sc sc' e → q ∈ kids e →
      (SameNames Γ sc sc' q → (Γ.under sc).typeOf q = (Γ.under sc').typeOf q) →
      (Γ.under sc).typeOf q = (Γ.under sc').typeOf q := fun h hq ih => ih (h.kid hq)
  induction e using Env.typeOf.induct (Γ.under sc) with
  | case9 n s v hv | case10 n s hv f hf | case11 n s hv hf =>
      unfold Env.typeOf
      rw [h.ident]
      rfl
  | case12 n pre k ih | case13 n pre k ih =>
      unfold Env.typeOf
      rw [hkid h List.mem_cons_self ih]
  | case15 n p pre k h₁ h₂ h₃ ih =>
      have hk := hkid h List.mem_cons_self ih
      unfold Env.typeOf
      cases p with
      | amp => exact (h₁ rfl).elim
      | star => exact (h₂ rfl).elim
      | not => exact (h₃ rfl).elim
      | _ => exact hk
  | case16 n op a c iha ihc =>
      unfold Env.typeOf
      rw [hkid h List.mem_cons_self iha, hkid h (List.mem_cons_of_mem _ List.mem_cons_self) ihc]
  | case17 n op a c ih =>
      have ha := hkid h List.mem_cons_self ih
      unfold Env.typeOf
      exact ha
  | case18 n b i ih =>
      unfold Env.typeOf
      rw [hkid h List.mem_cons_self ih]
  | case19 n b s isArrow ih =>
      unfold Env.typeOf
      rw [hkid h List.mem_cons_self ih]
      rfl
  | case20 n callee args known t ht =>
      unfold Env.typeOf
      extract_lets known'
      have hknown : known' = some t := ht
      rw [hknown, ht]
  | case21 n callee args known hnone ih =>
      have hcallee := hkid h List.mem_cons_self ih
      unfold Env.typeOf
      extract_lets known'
      have hknown : known' = none := hnone
      rw [hknown, hnone]
      dsimp only
      rw [hcallee]
  | _ => rfl

end Names

/-! ## The generators under two stacks of scopes -/

/-- Steps whose results are alike may be followed by what agrees on such results. -/
theorem bind_congr_of {α β : Type} {x : Gen α} {f g : α → Gen β} {E S : Prop} {Q : α → Prop}
    (hx : Outcome x E S Q) (h : ∀ a, Q a → f a = g a) : x >>= f = x >>= g := by
  funext B
  have hB := hx B
  change (x B >>= fun p => f p.1 p.2) = x B >>= fun p => g p.1 p.2
  cases hxB : x B with
  | error s => rfl
  | ok p =>
      rw [hxB] at hB
      exact congrFun (h p.1 hB.2.2.1) p.2

/-- The recursive functions do the same on expressions with the same names. -/
structure Rec.Agree (Γ : Env) (sc sc' : List (List (String × VarSym))) (R R' : Rec) : Prop where
  rv : ∀ l e, SameNames Γ sc sc' e → R.genExpr l e = R'.genExpr l e
  lv : ∀ l e, SameNames Γ sc sc' e → R.genLValue l e = R'.genLValue l e

section Nodes

variable {Γ : Env} {sc sc' : List (List (String × VarSym))} {R R' : Rec} {l : List Nat}
  {E S : Visit → Prop}

/-- The arguments that are written, and the defaults that are opened, have the same names. -/
structure SlotNames (Γ : Env) (sc sc' : List (List (String × VarSym))) (ps : List FuncParam)
    (args : List Arg) : Prop where
  arg : ∀ e, some e ∈ args → SameNames Γ sc sc' e
  dflt : ∀ e, Step.dflt e ∈ (Γ.under sc').argSteps ps args → SameNames Γ sc sc' e

theorem genParam_under (hR : R.Agree Γ sc sc' R') (n : Node) (i : Nat) (p : FuncParam) (arg : Arg)
    (prev : Option Ty) (harg : ∀ e, arg = some e → SameNames Γ sc sc' e)
    (hdflt : ∀ e, Step.dflt e ∈ (Γ.under sc').slotSteps p arg → SameNames Γ sc sc' e) :
    genParam (Γ.under sc) R l n i p arg prev = genParam (Γ.under sc') R' l n i p arg prev := by
  unfold genParam
  cases arg with
  | some e =>
      dsimp only
      rw [hR.rv l e (harg e rfl), typeOf_under (harg e rfl)]
  | none =>
      dsimp only
      rw [classNameOf_under Γ sc sc']
      unfold Env.slotSteps at hdflt
      by_cases hlast : p.dfltIsLastClass = true
      · rw [if_pos hlast, if_pos hlast]
      · rw [if_neg hlast, if_neg hlast]
        rw [if_neg hlast] at hdflt
        cases hd : p.dflt with
        | none => rfl
        | some e =>
            dsimp only
            rw [hR.rv (n.addr :: l) e (hdflt e (by rw [hd]; exact List.mem_cons_self))]

theorem genParams_under (hR : R.Agree Γ sc sc' R') (n : Node) (ps : List FuncParam) :
    ∀ (i : Nat) (args : List Arg) (prev : Option Ty), SlotNames Γ sc sc' ps args →
      genParams (Γ.under sc) R l n i ps args prev =
        genParams (Γ.under sc') R' l n i ps args prev := by
  induction ps with
  | nil => exact fun _ _ _ _ => rfl
  | cons p ps ih =>
      intro i args prev h
      unfold genParams
      rw [genParam_under hR n i p (args.head?.getD none) prev]
      · refine congrArg _ (funext fun v => ?_)
        rcases v with ⟨v, t⟩
        dsimp only
        rw [ih]
        exact ⟨fun e he => h.arg e (List.mem_of_mem_tail he),
          fun e he => h.dflt e (List.mem_append_right _ he)⟩
      · intro e he
        refine h.arg e ?_
        cases args with
        | nil => cases he
        | cons a args =>
            rcases he with rfl
            exact List.mem_cons_self
      · exact fun e he => h.dflt e (List.mem_append_left _ he)

theorem genExtra_under (hR : R.Agree Γ sc sc' R') (n : Node) (args : List Arg)
    (h : ∀ e, some e ∈ args → SameNames Γ sc sc' e) :
    genExtra R l n args = genExtra R' l n args := by
  induction args with
  | nil => rfl
  | cons a args ih =>
      have hrest := ih fun e he => h e (List.mem_cons_of_mem _ he)
      cases a with
      | none =>
          unfold genExtra
          rw [hrest]
      | some e =>
          unfold genExtra
          rw [hrest, hR.rv l e (h e List.mem_cons_self)]

theorem genUntypedArgs_under (hR : R.Agree Γ sc sc' R') (n : Node) (args : List Arg)
    (h : ∀ e, some e ∈ args → SameNames Γ sc sc' e) :
    genUntypedArgs R l n args = genUntypedArgs R' l n args := by
  induction args with
  | nil => rfl
  | cons a args ih =>
      have hrest := ih fun e he => h e (List.mem_cons_of_mem _ he)
      cases a with
      | none =>
          unfold genUntypedArgs
          rw [hrest]
      | some e =>
          unfold genUntypedArgs
          rw [hrest, hR.rv l e (h e List.mem_cons_self)]

theorem genCallTo_under (hR : R.Agree Γ sc sc' R') (n : Node) (sym : FuncSym) (args : List Arg)
    (fnPtr : Option Value) (h : SlotNames Γ sc sc' sym.type.params (usedArgs sym.type args)) :
    genCallTo (Γ.under sc) R l n sym args fnPtr = genCallTo (Γ.under sc') R' l n sym args fnPtr := by
  unfold genCallTo
  extract_lets np callWith rest rest'
  have hrest : rest (usedArgs sym.type args) = rest' (usedArgs sym.type args) := by
    unfold rest rest'
    rw [genParams_under hR n _ _ _ _ h, genExtra_under hR n]
    exact fun e he => h.arg e (List.mem_of_mem_drop he)
  unfold usedArgs at hrest
  split
  · next hmany =>
      rw [if_pos hmany] at hrest
      exact congrArg _ (funext fun _ => hrest)
  · next hfew =>
      rw [if_neg hfew] at hrest
      exact hrest

theorem genIntrinsic_under (hR : R.Agree Γ sc sc' R') (n : Node) (name : String) (args : List Arg)
    (h : ∀ e, some e ∈ args → SameNames Γ sc sc' e) :
    genIntrinsic R l n name args = genIntrinsic R' l n name args := by
  unfold genIntrinsic
  split
  · next e => rw [hR.rv l e (h e List.mem_cons_self)]
  · rfl

/-- The arguments of a call that is among the uses of `e`. -/
theorem SameNames.slots {e : Expr} (h : SameNames Γ sc sc' e) {ft : FuncType} {args : List Arg}
    {P : Prop} (harg : ∀ e, some e ∈ args → SameNames Γ sc sc' e)
    (hsteps : ∀ s ∈ (Γ.under sc').callSteps ft args P, s ∈ (Γ.under sc').steps .rv e) :
    SlotNames Γ sc sc' ft.params (usedArgs ft args) := by
  refine ⟨fun e he => harg e (mem_usedArgs he), fun q hq => h.dflt (hsteps _ ?_)⟩
  unfold Env.callSteps
  exact List.mem_append_left _ (List.mem_append_left _ hq)

theorem SameNames.arg {n : Node} {callee e : Expr} {args : List Arg}
    (h : SameNames Γ sc sc' (.call n callee args)) (he : some e ∈ args) : SameNames Γ sc sc' e :=
  h.kid (List.mem_cons_of_mem _ (List.mem_filterMap.mpr ⟨some e, he, rfl⟩))

theorem genIndirect_under (hR : R.Agree Γ sc sc' R') (hV : R'.Visited (Γ.under sc') E S) (n : Node)
    (callee : Expr) (args : List Arg) (h : SameNames Γ sc sc' (.call n callee args))
    (hway : (Γ.under sc').callWay callee = .indirect) :
    genIndirect (Γ.under sc) R l n callee args = genIndirect (Γ.under sc') R' l n callee args := by
  unfold genIndirect
  rw [hR.rv l callee (h.kid List.mem_cons_self)]
  refine bind_congr_of (hV.rv l callee) fun fv hfv => ?_
  rcases hfv with ⟨q, hq, hfv⟩
  rw [hfv.1]
  cases hft : calledType q.t with
  | none =>
      dsimp only
      rw [genUntypedArgs_under hR n args fun e he => h.arg he]
  | some ft =>
      refine genCallTo_under hR n _ args fv.v ?_
      refine h.slots (P := (Γ.under sc').HasValue callee) (fun e he => h.arg he) fun s hs => ?_
      change s ∈ (Γ.under sc').genCallSteps callee args
      unfold Env.genCallSteps Env.indirectSteps
      rw [hway, hq]
      dsimp only [Option.bind_some]
      rw [hft]
      exact List.mem_cons_of_mem _ hs

theorem callWay_under {callee : Expr} (h : SameNames Γ sc sc' callee) :
    (Γ.under sc).callWay callee = (Γ.under sc').callWay callee := by
  cases callee with
  | ident n s =>
      unfold Env.callWay
      dsimp only
      rw [h.ident]
      rfl
  | _ => rfl

theorem genCall_under (hR : R.Agree Γ sc sc' R') (hV : R'.Visited (Γ.under sc') E S) (n : Node)
    (callee : Expr) (args : List Arg) (h : SameNames Γ sc sc' (.call n callee args)) :
    genCall (Γ.under sc) R l n callee args = genCall (Γ.under sc') R' l n callee args := by
  rw [genCall_eq, genCall_eq, callWay_under (h.kid List.mem_cons_self)]
  cases hway : (Γ.under sc').callWay callee with
  | indirect => exact genIndirect_under hR hV n callee args h hway
  | intrinsic s => exact genIntrinsic_under hR n s args fun e he => h.arg he
  | direct f =>
      refine genCallTo_under hR n f args none ?_
      refine h.slots (P := f.fn.isSome = true) (fun e he => h.arg he) fun s hs => ?_
      change s ∈ (Γ.under sc').genCallSteps callee args
      unfold Env.genCallSteps
      rw [hway]
      exact hs
  | undefined s => rfl

/-! ## Lvalues -/

theorem genMemberLV_under (hR : R.Agree Γ sc sc' R') (n : Node) (base : Expr) (s : String)
    (isArrow : Bool) (h : SameNames Γ sc sc' base) :
    genMemberLV (Γ.under sc) R l n base s isArrow = genMemberLV (Γ.under sc') R' l n base s isArrow := by
  unfold genMemberLV
  rw [hR.rv l base h, hR.lv l base h]
  simp only [str_under Γ sc sc']
  rfl

theorem genSubIntLV_under (hR : R.Agree Γ sc sc' R') (base idx : Expr)
    (hb : SameNames Γ sc sc' base) (hi : SameNames Γ sc sc' idx) :
    genSubIntLV (Γ.under sc) R l base idx = genSubIntLV (Γ.under sc') R' l base idx := by
  unfold genSubIntLV
  split
  · next n q s =>
      rw [hR.lv l q (hb.kid List.mem_cons_self), hR.rv l idx hi]
      rfl
  · rfl

theorem genElementLV_under (hR : R.Agree Γ sc sc' R') (base idx : Expr)
    (hb : SameNames Γ sc sc' base) (hi : SameNames Γ sc sc' idx) :
    genElementLV (Γ.under sc) R l base idx = genElementLV (Γ.under sc') R' l base idx := by
  unfold genElementLV
  rw [hR.lv l base hb, hR.rv l base hb, hR.rv l idx hi, typeOf_under hb]
  rfl

theorem genIndexLV_under (hR : R.Agree Γ sc sc' R') (base idx : Expr)
    (hb : SameNames Γ sc sc' base) (hi : SameNames Γ sc sc' idx) :
    genIndexLV (Γ.under sc) R l base idx = genIndexLV (Γ.under sc') R' l base idx := by
  unfold genIndexLV
  rw [genSubIntLV_under hR base idx hb hi, genElementLV_under hR base idx hb hi]

/-! ## Expressions -/

theorem genIdent_under (hR : R.Agree Γ sc sc' R') (n : Node) (s : String)
    (h : SameNames Γ sc sc' (.ident n s)) :
    genIdent (Γ.under sc) R l n s = genIdent (Γ.under sc') R' l n s := by
  unfold genIdent
  rw [h.ident]
  cases hv : (Γ.under sc').lookupVar s with
  | some v => rfl
  | none =>
      have hfunc : (Γ.under sc).findFunc s = (Γ.under sc').findFunc s := rfl
      dsimp only
      rw [hfunc]
      cases hf : (Γ.under sc').findFunc s with
      | none => rfl
      | some f =>
          refine genCallTo_under hR n f [] none ?_
          refine h.slots (P := f.fn.isSome = true) (fun e he => absurd he List.not_mem_nil) fun t ht => ?_
          unfold Env.steps
          dsimp only
          rw [hv, hf]
          exact ht

theorem genUnary_under (hR : R.Agree Γ sc sc' R') (n : Node) (p : P) (pre : Bool) (k : Expr)
    (hk : SameNames Γ sc sc' k) :
    genUnary (Γ.under sc) R l n p pre k = genUnary (Γ.under sc') R' l n p pre k := by
  have haddr : genAddressOf (Γ.under sc) R l k = genAddressOf (Γ.under sc') R' l k := by
    unfold genAddressOf
    rw [hR.lv l k hk]
    cases k with
    | ident m s =>
        dsimp only
        rw [hk.ident]
        rfl
    | _ => rfl
  have hstep : genStep (Γ.under sc) R l n p pre k = genStep (Γ.under sc') R' l n p pre k := by
    unfold genStep
    rw [hR.lv l k hk]
    rfl
  unfold genUnary
  rw [haddr, hstep, hR.rv l k hk]
  unfold genDeref
  rw [hR.rv l k hk]
  rfl

theorem genBinary_under (hR : R.Agree Γ sc sc' R') (n : Node) (op : P) (a c : Expr)
    (ha : SameNames Γ sc sc' a) (hc : SameNames Γ sc sc' c) :
    genBinary R l n op a c = genBinary R' l n op a c := by
  unfold genBinary genShortCircuit
  rw [hR.rv l a ha, hR.rv l c hc]

theorem genChain_under (hR : R.Agree Γ sc sc' R') (endBB : Blk) (rest : List (P × Expr)) :
    ∀ prev, (∀ e ∈ rest.map Prod.snd, SameNames Γ sc sc' e) →
      genChain R l endBB prev rest = genChain R' l endBB prev rest := by
  induction rest with
  | nil => exact fun _ _ => rfl
  | cons r rest ih =>
      intro prev h
      rcases r with ⟨op, e⟩
      unfold genChain
      rw [hR.rv l e (h e List.mem_cons_self)]
      refine congrArg _ (funext fun cur => ?_)
      rw [ih cur fun q hq => h q (List.mem_cons_of_mem _ hq)]

theorem genChainCmp_under (hR : R.Agree Γ sc sc' R') (first : Expr) (rest : List (P × Expr))
    (hfirst : SameNames Γ sc sc' first) (hrest : ∀ e ∈ rest.map Prod.snd, SameNames Γ sc sc' e) :
    genChainCmp R l first rest = genChainCmp R' l first rest := by
  unfold genChainCmp
  rw [hR.rv l first hfirst]
  refine congrArg _ (funext fun endBB => congrArg _ (funext fun prev => ?_))
  rw [genChain_under hR endBB rest prev hrest]

theorem genAssign_under (hR : R.Agree Γ sc sc' R') (n : Node) (op : P) (a c : Expr)
    (ha : SameNames Γ sc sc' a) (hc : SameNames Γ sc sc' c) :
    genAssign (Γ.under sc) R l n op a c = genAssign (Γ.under sc') R' l n op a c := by
  unfold genAssign
  rw [hR.lv l a ha, hR.rv l c hc]
  rfl

/-- One level of the generator of a value. -/
theorem genExprStep_under (hR : R.Agree Γ sc sc' R') (hV : R'.Visited (Γ.under sc') E S)
    {e : Expr} (h : SameNames Γ sc sc' e) :
    genExprStep (Γ.under sc) R l e = genExprStep (Γ.under sc') R' l e := by
  unfold genExprStep
  cases e with
  | sizeofExpr n k =>
      dsimp only
      rw [typeOf_under (h.kid List.mem_cons_self)]
      rfl
  | ident n s => exact genIdent_under hR n s h
  | unary n p pre k => exact genUnary_under hR n p pre k (h.kid List.mem_cons_self)
  | binary n op a c =>
      refine genBinary_under hR n op a c (h.kid List.mem_cons_self) (h.kid ?_)
      exact List.mem_cons_of_mem _ List.mem_cons_self
  | chainCmp n first rest =>
      refine genChainCmp_under hR first rest (h.kid List.mem_cons_self) fun q hq => h.kid ?_
      exact List.mem_cons_of_mem _ hq
  | assign n op a c =>
      refine genAssign_under hR n op a c (h.kid List.mem_cons_self) (h.kid ?_)
      exact List.mem_cons_of_mem _ List.mem_cons_self
  | call n callee args => exact genCall_under hR hV n callee args h
  | index n b i =>
      dsimp only
      rw [hR.lv l _ h]
      rfl
  | member n b s isArrow =>
      dsimp only
      rw [hR.lv l _ h]
      rfl
  | cast n k t =>
      dsimp only
      rw [hR.rv l k (h.kid List.mem_cons_self)]
  | _ => rfl

/-- One level of the generator of an lvalue. -/
theorem genLValueStep_under (hR : R.Agree Γ sc sc' R') {e : Expr} (h : SameNames Γ sc sc' e) :
    genLValueStep (Γ.under sc) R l e = genLValueStep (Γ.under sc') R' l e := by
  unfold genLValueStep
  cases e with
  | ident n s =>
      dsimp only
      rw [h.ident]
      rfl
  | unary n p pre k =>
      have hk := h.kid (q := k) List.mem_cons_self
      dsimp only
      rw [hR.rv l k hk, hR.lv l k hk, genUnary_under hR n p pre k hk]
  | index n b i =>
      refine genIndexLV_under hR b i (h.kid List.mem_cons_self) (h.kid ?_)
      exact List.mem_cons_of_mem _ List.mem_cons_self
  | member n b s isArrow => exact genMemberLV_under hR n b s isArrow (h.kid List.mem_cons_self)
  | cast n k t =>
      dsimp only
      rw [hR.lv l k (h.kid List.mem_cons_self)]
  | assign n op a c =>
      dsimp only
      rw [hR.rv l _ h, hR.lv l a (h.kid List.mem_cons_self)]
  | _ => rfl

end Nodes

/-- Code generation to a depth is the same under both stacks of scopes. -/
theorem gen_scopes (Γ : Env) (sc sc' : List (List (String × VarSym))) (d : Nat) :
    (gen (Γ.under sc) d).Agree Γ sc sc' (gen (Γ.under sc') d) := by
  induction d with
  | zero => exact ⟨fun _ _ _ => rfl, fun _ _ _ => rfl⟩
  | succ d ih =>
      constructor
      · exact fun _ _ h => genExprStep_under ih (gen_visited _ d) h
      · exact fun _ _ h => genLValueStep_under ih h

/-! ## A default that is a variable -/

/-- The address that a load takes, or that is taken itself. -/
def addrOf : Instr → Option Value
  | .op _ (.load _ a) | .op _ (.ptrtoint a) => some a
  | _ => none

/-- From an empty builder, the first instruction has the address `a`. -/
def Reads {α : Type} (x : Gen α) (a : Value) : Prop :=
  ∀ r B, x {} = .ok (r, B) → ∃ e seg, B.log = e :: seg ∧ addrOf e.2 = some a

section Reads

variable {α β : Type} {x : Gen α} {f : α → Gen β} {a : Value}

theorem wf_empty : ({} : Builder).Wf := ⟨Nat.zero_lt_one, fun _ _ => rfl⟩

theorem Reads.bind (h : Reads x a) (hx : Spec x fun _ _ => True)
    (hf : ∀ r, Spec (f r) fun _ _ => True) : Reads (x >>= f) a := by
  intro r B hB
  rcases bind_eq_ok.mp hB with ⟨r', B', hB', hfB⟩
  rcases h r' B' hB' with ⟨e, seg, hlog, haddr⟩
  rcases hx {} wf_empty r' B' hB' with ⟨_, hst, _⟩
  rcases hf r' B' hst.wf r B hfB with ⟨_, hst', _⟩
  rcases hst'.seg with ⟨seg', hseg', _⟩
  refine ⟨e, seg ++ seg', ?_, haddr⟩
  rw [hseg'.log, hlog]
  rfl

theorem reads_create {o : Op} (h : ∀ r, addrOf (.op r o) = some a) : Reads (create o) a := by
  intro r B hB
  rcases Prod.mk.inj (Except.ok.inj hB) with ⟨_, rfl⟩
  exact ⟨_, [], rfl, h 0⟩

/-- What has two first addresses does not end. -/
theorem Reads.unique {b : Value} {r : α} {B : Builder} (h : Reads x a) (h' : Reads x b)
    (hx : x {} = .ok (r, B)) : a = b := by
  rcases h r B hx with ⟨e, seg, hlog, haddr⟩
  rcases h' r B hx with ⟨e', seg', hlog', haddr'⟩
  rw [hlog] at hlog'
  rcases List.cons.inj hlog' with ⟨rfl, _⟩
  exact Option.some.inj (haddr.symm.trans haddr')

theorem reads_loadFrom (Γ : Env) (a : Value) (t : Ty) : Reads (loadFrom Γ a t) a := by
  have haddr : ∀ elem : Ty, Reads (do
      let v ← create (.ptrtoint a)
      return (⟨some v, .ptr elem⟩ : RV)) a := fun elem =>
    (reads_create fun _ => rfl).bind (Silent.create _).any fun _ => Spec.pure trivial
  unfold loadFrom
  cases ht : accessType Γ.heap Γ.classFuel t with
  | none => exact fun _ _ h => nomatch h
  | some t' =>
      dsimp only [ofOption]
      rw [pure_bind]
      cases t' with
      | array elem n => exact haddr elem
      | cls c => exact haddr (.cls c)
      | _ =>
          refine Reads.bind (reads_create fun _ => rfl) (Silent.create _).any fun v => ?_
          exact Spec.bind (silent_widen v _).any fun w => Spec.pure fun _ _ => trivial

end Reads

section Omitted

variable {Γ : Env} {sc : List (List (String × VarSym))} {p : FuncParam}

/-- The value passed for an omitted argument, to a depth. -/
def omitted (Γ : Env) (d : Nat) (l : List Nat) (n : Node) (i : Nat) (p : FuncParam)
    (prev : Option Ty) : Gen (Value × Ty) :=
  genParam Γ (gen Γ d) l n i p none prev

/-- The default of a parameter that is the name of a variable reads the variable that the
scopes of the caller give. -/
theorem reads_omitted {m : Node} {s : String} {v : VarSym} (hp : p.dflt = some (.ident m s))
    (hlast : p.dfltIsLastClass = false) (hv : Γ.lookupVar s = some v) (d : Nat) (l : List Nat)
    (n : Node) (i : Nat) (prev : Option Ty) : Reads (omitted Γ (d + 1) l n i p prev) v.addr := by
  have hload : (gen Γ (d + 1)).genExpr (n.addr :: l) (.ident m s) = loadFrom Γ v.addr v.type := by
    change genIdent Γ (gen Γ d) (n.addr :: l) m s = _
    unfold genIdent
    rw [hv]
  have homitted : omitted Γ (d + 1) l n i p prev = loadFrom Γ v.addr v.type >>= fun a =>
      (if p.type.isF64 then convert a .f64 else convert a .i64 false) >>= fun w =>
        pure (w, a.t) := by
    unfold omitted genParam
    rw [hlast, hp, ← hload]
    change (gen Γ (d + 1)).genExpr (n.addr :: l) (.ident m s) >>= _ = _
    refine congrArg _ (funext fun a => ?_)
    dsimp only [pure_bind]
    split <;> rfl
  rw [homitted]
  refine (reads_loadFrom Γ v.addr v.type).bind (silent_loadFrom Γ v.addr v.type).any fun a => ?_
  refine Spec.bind (P := fun _ _ => True) ?_ fun w => Spec.pure fun _ _ => trivial
  split
  · exact (silent_convert a _ _).any
  · exact (silent_convert a _ _).any

/-- The value passed for an omitted argument is, below the scopes `sc` of the caller, the value
of the default in the global scope. -/
def Hygienic (Γ : Env) (sc : List (List (String × VarSym))) (p : FuncParam) : Prop :=
  ∀ d l n i prev, omitted (Γ.under sc) d l n i p prev = omitted (Γ.under []) d l n i p prev

theorem hygienic_of_sameNames {e : Expr} (hp : p.dflt = some e) (h : SameNames Γ sc [] e) :
    Hygienic Γ sc p := by
  intro d l n i prev
  refine genParam_under (gen_scopes Γ sc [] d) n i p none prev (fun _ he => nomatch he) ?_
  intro q hq
  unfold Env.slotSteps at hq
  dsimp only at hq
  split at hq
  · exact nomatch hq
  · rw [hp] at hq
    rcases Step.dflt.inj (List.mem_singleton.mp hq) with rfl
    exact h

theorem sameStorage_of_hygienic {m : Node} {s : String} {v v' : VarSym}
    (hp : p.dflt = some (.ident m s)) (hlast : p.dfltIsLastClass = false)
    (hv : (Γ.under sc).lookupVar s = some v) (hv' : (Γ.under []).lookupVar s = some v')
    (hloads : Γ.Loads v'.type) (h : Hygienic Γ sc p) : v.addr = v'.addr := by
  have heq := h 1 [] {} 0 none
  have hcaller := reads_omitted hp hlast hv 0 [] {} 0 none
  have hglobal := reads_omitted hp hlast hv' 0 [] {} 0 none
  rw [heq] at hcaller
  -- in the global scope the load is found, so the generator ends
  have hgoes := goes_genParam (l := []) (gen_visited (Γ.under []) 1) {} 0 p none none
  have hsteps : (Γ.under []).slotSteps p none = [.dflt (.ident m s)] := by
    unfold Env.slotSteps
    rw [hlast, hp]
    rfl
  have hfinds : (Γ.under []).steps .rv (.ident m s) = [.find (Γ.Loads v'.type)] := by
    unfold Env.steps
    dsimp only
    rw [hv']
    rfl
  have hends : EndAll (Ends (Γ.under []) 1) ((Γ.under []).slotSteps p none) := by
    rw [hsteps]
    refine ⟨?_, trivial⟩
    change EndAll _ ((Γ.under []).steps .rv (.ident m s))
    rw [hfinds]
    exact ⟨hloads, trivial⟩
  have hsafe : SafeAll (Ends (Γ.under []) 1) (Safe (Γ.under []) 1)
      ((Γ.under []).slotSteps p none) := by
    rw [hsteps]
    refine ⟨?_, fun _ => trivial⟩
    change SafeAll _ _ ((Γ.under []).steps .rv (.ident m s))
    rw [hfinds]
    exact fun _ => trivial
  rcases Outcome.exists_ok hgoes hends hsafe {} with ⟨r, B, hB⟩
  exact hcaller.unique hglobal hB

/-- The value passed for an omitted argument is the value of the default in the global scope,
if every name that the default uses, through operands and the defaults it opens, is the same
variable at the call as in the global scope. Where the default is the name of a variable, this
is necessary, too: else the caller's variable of that name is read. -/
theorem omitted_hygienic (Γ : Env) (sc : List (List (String × VarSym))) (p : FuncParam) (e : Expr)
    (hp : p.dflt = some e) (hlast : p.dfltIsLastClass = false) :
    (SameNames Γ sc [] e → Hygienic Γ sc p) ∧
    ∀ m s v v', e = .ident m s → (Γ.under sc).lookupVar s = some v →
      (Γ.under []).lookupVar s = some v' → Γ.Loads v'.type → Hygienic Γ sc p →
      v.addr = v'.addr := by
  constructor
  · exact hygienic_of_sameNames hp
  · rintro m s v v' rfl hv hv' hloads h
    exact sameStorage_of_hygienic hp hlast hv hv' hloads h

/-- `F;` after `I64 g; I64 F(I64 a=g)`, in a function with a local `x`. -/
theorem hygienic_beside : Hygienic { globals := [("g", ⟨.glob "g", .i64⟩)], classFuel := 1 }
    [[("x", ⟨.slot 0, .i64⟩)]] (.mk "a" .i64 (some (.ident {} "g")) false) := by
  refine (omitted_hygienic _ _ _ _ rfl rfl).1 ?_
  intro q hq n s hqs
  rcases hq.cases_head with rfl | ⟨c, huse, _⟩
  · rcases Expr.ident.inj hqs with ⟨_, rfl⟩
    rfl
  · rcases huse with hkid | hdflt
    · exact nomatch hkid
    · exact nomatch List.mem_singleton.mp hdflt

/-- `F;` after `I64 g; I64 F(I64 a=g)`, in a function with a local `g`. -/
theorem not_hygienic_shadowed : ¬ Hygienic
    { globals := [("g", ⟨.glob "g", .i64⟩)], classFuel := 1 }
    [[("g", ⟨.slot 0, .i64⟩)]] (.mk "a" .i64 (some (.ident {} "g")) false) := by
  intro h
  have hrun := congrFun (h 1 [] {} 0 none) {}
  have hlog := congrArg (fun r => match r with
    | .ok p => p.2.log
    | .error _ => []) hrun
  revert hlog
  decide

end Omitted

end Hlang.Codegen
