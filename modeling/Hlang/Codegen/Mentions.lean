import Hlang.Codegen.Written

/-!
# Hlang.Codegen.Mentions — what the code of expressions names

Expressions name what their environment gives them, and nothing else: if `V` allows the addresses
of the variables in scope and the functions in force (`Env.Allowed`), the code of every expression
keeps to `V`, by induction on the depth (`allowed_gen`).
-/

namespace Hlang.Codegen

open Ir Gen

/-- What can be looked up is allowed. -/
structure Env.Allowed (V : Value → Prop) (Γ : Env) : Prop where
  var : ∀ n v, Γ.lookupVar n = some v → V v.addr
  func : ∀ n s f, Γ.findFunc n = some s → s.fn = some f → V f

/-- The generators of operands keep to what is allowed. -/
structure Rec.Allowed (V : Value → Prop) (R : Rec) : Prop where
  expr : ∀ cs e, Confined V (R.genExpr cs e) (RV.Ok V)
  lval : ∀ cs e, Confined V (R.genLValue cs e) (LV.Ok V)

section Nodes

variable {V : Value → Prop} {Γ : Env} {R : Rec} {cs : List Nat}

theorem RV.Ok.zero (h : Basic V) : RV.zero.Ok V := .some (h.int _ _)

theorem confined_mark (s : Site) : Confined V (emit (.mark s)) fun _ => True := .emit (within_nil rfl)

/-! ## Calls -/

theorem confined_genParam (h : Basic V) (hR : R.Allowed V) (n : Node) (i : Nat) (p : FuncParam)
    (arg : Arg) (prev : Option Ty) : Confined V (genParam Γ R cs n i p arg prev) fun r => V r.1 := by
  unfold genParam
  extract_lets rest
  have hrest : ∀ a : RV, a.Ok V → Confined V (rest a) fun r => V r.1 := by
    intro a ha
    unfold rest
    extract_lets convertTo
    have hconvert : ∀ t, Confined V (convertTo t) fun r => V r.1 := by
      intro t
      unfold convertTo
      split_ifs
      · exact (h.convert _ _ ha).bind fun v hv => .pure hv
      · exact (h.convert _ _ ha).bind fun v hv => .pure hv
    split
    · exact (Writes.ofOption _).bind fun t _ => hconvert t
    · exact (Writes.pure trivial).bind fun t (_ : True) => hconvert t
  split
  · exact (hR.expr cs _).bind hrest
  · split
    · exact (h.strRV _).bind hrest
    · split
      · exact (hR.expr _ _).bind hrest
      · exact .report ((Writes.pure (RV.Ok.zero h)).bind hrest)

theorem confined_genParams (h : Basic V) (hR : R.Allowed V) (n : Node) (ps : List FuncParam) :
    ∀ (i : Nat) (args : List Arg) (prev : Option Ty),
      Confined V (genParams Γ R cs n i ps args prev) fun vs => ∀ v ∈ vs, V v := by
  induction ps with
  | nil => exact fun _ _ _ => .pure fun v hv => absurd hv List.not_mem_nil
  | cons p ps ih =>
      intro i args prev
      unfold genParams
      refine (confined_genParam h hR n i p _ prev).bind fun r hr => ?_
      refine (ih (i + 1) args.tail (some r.2)).bind fun vs hvs => .pure ?_
      exact List.forall_mem_cons.mpr ⟨hr, hvs⟩

/-- One more value passed. -/
theorem confined_cons {x : Gen (List Value)} {v : Value} (hv : V v)
    (hx : Confined V x fun vs => ∀ v ∈ vs, V v) :
    Confined V (do return v :: (← x)) fun vs => ∀ v ∈ vs, V v :=
  hx.bind fun _ hvs => .pure (List.forall_mem_cons.mpr ⟨hv, hvs⟩)

theorem confined_genExtra (h : Basic V) (hR : R.Allowed V) (n : Node) (args : List Arg) :
    Confined V (genExtra R cs n args) fun vs => ∀ v ∈ vs, V v := by
  induction args with
  | nil => exact .pure fun v hv => absurd hv List.not_mem_nil
  | cons a args ih =>
      cases a with
      | none =>
          unfold genExtra
          exact .report (confined_cons (h.int _ _) ih)
      | some e =>
          unfold genExtra
          refine (hR.expr cs e).bind fun a ha => ?_
          extract_lets rest
          have hrest : ∀ v, V v → Confined V (rest v) fun vs => ∀ v ∈ vs, V v :=
            fun v hv => confined_cons hv ih
          split
          · next w hw =>
              split_ifs
              · exact (h.create₁ rfl (ha w hw)).bind hrest
              · exact (h.convert _ _ ha).bind hrest
          · exact (h.convert _ _ ha).bind hrest

theorem confined_genCallTo (h : Basic V) (hR : R.Allowed V) (n : Node) {sym : FuncSym}
    (args : List Arg) {fnPtr : Option Value} (hsym : ∀ f, sym.fn = some f → V f)
    (hptr : ∀ w, fnPtr = some w → V w) : Confined V (genCallTo Γ R cs n sym args fnPtr) (RV.Ok V) := by
  unfold genCallTo
  extract_lets np callWith rest
  -- the call, once its arguments are there
  have hcall : ∀ vs, (∀ v ∈ vs, V v) → Confined V (callWith vs) (RV.Ok V) := by
    intro vs hvs
    unfold callWith
    extract_lets emitCall
    have hemit : ∀ callee, V callee → Confined V (emitCall callee) (RV.Ok V) := by
      intro callee hcallee
      refine (confined_mark _).bind fun _ _ => (h.createCall _ hcallee hvs).bind fun r hr => ?_
      split
      · exact .pure .none
      · exact .pure hr
    split
    · next f hf => exact (Writes.pure (hsym f hf)).bind hemit
    · exact (h.asPtr hptr).bind hemit
  -- the arguments: the fixed ones, and for a variadic function `argc` and `argv`
  have hrest : ∀ args : List Arg, Confined V (rest args) (RV.Ok V) := by
    intro args
    unfold rest
    refine (confined_genParams h hR n _ 0 args none).bind fun vs hvs => ?_
    have hall : ∀ (extra : List Value) (arr : Value), V arr →
        ∀ v ∈ vs ++ [cI64 (BitVec.ofNat 64 extra.length), arr], V v := by
      intro extra arr harr v hv
      rcases List.mem_append.mp hv with hv | hv
      · exact hvs v hv
      · rcases List.mem_cons.mp hv with rfl | hv
        · exact h.int _ _
        · rcases List.mem_singleton.mp hv with rfl
          exact harr
    split_ifs
    · refine (confined_genExtra h hR n _).bind fun extra hextra => ?_
      split_ifs
      · refine (Writes.pure (h.int _ _)).bind fun arr harr => ?_
        exact (Writes.pure (hall extra arr harr)).bind fun vs hvs => hcall vs hvs
      · refine (h.entryAlloca _).bind fun al hal => ?_
        refine (h.storeExtra hal hextra 0).bind fun _ _ => (h.create₁ rfl hal).bind fun arr harr => ?_
        exact (Writes.pure (hall extra arr harr)).bind fun vs hvs => hcall vs hvs
    · exact (Writes.pure hvs).bind fun vs hvs => hcall vs hvs
  split_ifs
  · -- surplus arguments are reported and left out
    exact .report ((Writes.pure trivial).bind fun as (_ : True) => hrest as)
  · exact (Writes.pure trivial).bind fun as (_ : True) => hrest as

theorem confined_genUntypedArgs (h : Basic V) (hR : R.Allowed V) (n : Node) (args : List Arg) :
    Confined V (genUntypedArgs R cs n args) fun vs => ∀ v ∈ vs, V v := by
  induction args with
  | nil => exact .pure fun v hv => absurd hv List.not_mem_nil
  | cons a args ih =>
      cases a with
      | none =>
          unfold genUntypedArgs
          exact .report (confined_cons (h.int _ _) ih)
      | some e =>
          unfold genUntypedArgs
          refine (hR.expr cs e).bind fun a ha => ?_
          extract_lets rest
          have hrest : ∀ v, V v → Confined V (rest v) fun vs => ∀ v ∈ vs, V v :=
            fun v hv => confined_cons hv ih
          split
          · next w hw =>
              split_ifs
              · exact (Writes.pure (ha w hw)).bind hrest
              · exact (h.convert _ _ ha).bind hrest
          · exact (h.convert _ _ ha).bind hrest

theorem confined_genIntrinsic (h : Basic V) (hR : R.Allowed V) (n : Node) (name : String)
    (args : List Arg) : Confined V (genIntrinsic R cs n name args) (RV.Ok V) := by
  unfold genIntrinsic
  split
  · refine (hR.expr cs _).bind fun v hv => ?_
    split_ifs
    · exact (h.convert _ _ hv).bind fun w hw => .pure (.some hw)
    · exact (h.truthy _ hv).bind fun z hz => (h.boolToI64 hz).bind fun w hw => .pure (.some hw)
    · exact (h.convert _ _ hv).bind fun w hw => .pure (.some hw)
  · exact .report (.pure (RV.Ok.zero h))

theorem confined_genIndirect (h : Basic V) (hR : R.Allowed V) (n : Node) (callee : Expr)
    (args : List Arg) : Confined V (genIndirect Γ R cs n callee args) (RV.Ok V) := by
  unfold genIndirect
  refine (hR.expr cs callee).bind fun fv hfv => ?_
  split
  · exact confined_genCallTo h hR n args forall_of_none hfv
  · refine (confined_genUntypedArgs h hR n args).bind fun vs hvs => (h.asPtr hfv).bind fun fp hfp => ?_
    exact (confined_mark _).bind fun _ _ => (h.createCall _ hfp hvs).bind fun r hr => .pure hr

theorem confined_genCall (h : Basic V) (hΓ : Γ.Allowed V) (hR : R.Allowed V) (n : Node)
    (callee : Expr) (args : List Arg) : Confined V (genCall Γ R cs n callee args) (RV.Ok V) := by
  unfold genCall
  split
  · split
    · exact confined_genIndirect h hR n _ args
    · split_ifs
      · exact confined_genIntrinsic h hR n _ args
      · split
        · next f hf =>
            exact confined_genCallTo h hR n args (hΓ.func _ f · hf) forall_of_none
        · exact .report (.pure (RV.Ok.zero h))
  · exact confined_genIndirect h hR n _ args

/-! ## Lvalues -/

theorem confined_genMemberLV (h : Basic V) (hR : R.Allowed V) (n : Node) (base : Expr) (s : String)
    (isArrow : Bool) : Confined V (genMemberLV Γ R cs n base s isArrow) (LV.Ok V) := by
  unfold genMemberLV
  extract_lets rest
  -- what is done with the base, wherever it comes from
  have hrest : ∀ b : Option (Value × Option Ty), (∀ p, b = some p → V p.1) →
      Confined V (rest b) (LV.Ok V) := by
    intro b hb
    unfold rest
    split
    · exact .pure .none
    · next addr c =>
        have haddr : V addr := hb _ rfl
        refine (Writes.ofOption _).bind fun m _ => ?_
        split
        · exact (h.create₂ rfl haddr (h.int _ _)).bind fun v hv => .pure (.some hv)
        · exact .report (.pure .none)
    · extract_lets sub
      clear_value sub
      split
      · exact .pure (.some (hb _ rfl))
      · exact .report (.pure .none)
  have hsome : ∀ (a : Value) (t : Option Ty), V a →
      Confined V (pure (some (a, t)) >>= rest) (LV.Ok V) := by
    intro a t ha
    refine (Writes.pure (Q := fun b => b = some (a, t)) rfl).bind ?_
    rintro _ rfl
    exact hrest _ (forall_of_some (P := fun p : Value × Option Ty => V p.1) ha)
  split
  · refine (hR.expr cs base).bind fun p hp => (h.asPtr hp).bind fun a ha => ?_
    split
    · exact hsome _ _ ha
    · exact hsome _ _ ha
  · refine (hR.lval cs base).bind fun lv hlv => ?_
    split
    · next a haddr => exact hsome _ _ (hlv a haddr)
    · refine (Writes.pure (Q := fun b => b = none) rfl).bind ?_
      rintro _ rfl
      exact hrest none forall_of_none

theorem confined_genSubIntLV (h : Basic V) (hR : R.Allowed V) (base idx : Expr) :
    Confined V (genSubIntLV Γ R cs base idx) fun r => ∀ lv, r = some lv → lv.Ok V := by
  have hnone : ∀ lv : LV, none = some lv → lv.Ok V := forall_of_none
  unfold genSubIntLV
  split
  · split
    · exact .pure hnone
    · refine (hR.lval cs _).bind fun blv hblv => ?_
      split
      · exact .pure hnone
      · next a ha =>
          split_ifs
          · refine (hR.expr cs idx).bind fun iv hiv => (h.convert _ _ hiv).bind fun i hi => ?_
            refine (h.create₂ rfl hi (h.int _ _)).bind fun off hoff => ?_
            refine (h.create₂ rfl (hblv a ha) hoff).bind fun g hg => .pure ?_
            exact forall_of_some (LV.Ok.some hg)
          · exact .pure hnone
  · exact .pure hnone

theorem confined_genElementLV (h : Basic V) (hR : R.Allowed V) (base idx : Expr) :
    Confined V (genElementLV Γ R cs base idx) (LV.Ok V) := by
  unfold genElementLV
  refine (Writes.ofOption _).bind fun t _ => ?_
  extract_lets rest
  have hrest : ∀ b : Option (Option Value × Ty), (∀ p w, b = some p → p.1 = some w → V w) →
      Confined V (rest b) (LV.Ok V) := by
    intro b hb
    unfold rest
    split
    · exact .pure .none
    · extract_lets elem'
      refine (hR.expr cs idx).bind fun iv hiv => (h.convert _ _ hiv).bind fun i hi => ?_
      refine (h.create₂ rfl hi (h.int _ _)).bind fun off hoff => ?_
      split
      · exact .stop _
      · refine (h.ptrToI64 (hb _ _ rfl rfl)).bind fun b hbv => ?_
        refine (h.create₂ rfl hbv hoff).bind fun addr haddr => ?_
        exact (h.asPtr (forall_of_some haddr)).bind fun a ha => .pure (.some ha)
  have hsome : ∀ (v : Option Value) (elem : Ty), (∀ w, v = some w → V w) →
      Confined V (pure (some (v, elem)) >>= rest) (LV.Ok V) := by
    intro v elem hv
    refine (Writes.pure (Q := fun b => b = some (v, elem)) rfl).bind ?_
    rintro _ rfl
    refine hrest (some (v, elem)) fun p w hp hw => ?_
    rcases Option.some.inj hp with rfl
    exact hv w hw
  split
  · refine (hR.lval cs base).bind fun blv hblv => ?_
    split
    · refine (Writes.pure (Q := fun b => b = none) rfl).bind ?_
      rintro _ rfl
      exact hrest none fun p w hp => by cases hp
    · next a ha =>
        exact (h.create₁ rfl (hblv a ha)).bind fun c hc => hsome _ _ (forall_of_some hc)
  · refine (hR.expr cs base).bind fun bv hbv => ?_
    split
    · exact hsome _ _ hbv
    · exact hsome _ _ hbv

theorem confined_genIndexLV (h : Basic V) (hR : R.Allowed V) (base idx : Expr) :
    Confined V (genIndexLV Γ R cs base idx) (LV.Ok V) := by
  unfold genIndexLV
  refine (confined_genSubIntLV h hR base idx).bind fun r hr => ?_
  split
  · exact .pure (hr _ rfl)
  · exact confined_genElementLV h hR base idx

/-! ## Operators -/

theorem confined_genIdent (h : Basic V) (hΓ : Γ.Allowed V) (hR : R.Allowed V) (n : Node)
    (s : String) : Confined V (genIdent Γ R cs n s) (RV.Ok V) := by
  unfold genIdent
  split
  · next v hv => exact h.loadFrom Γ _ (hΓ.var s v hv)
  · split
    · next f hf => exact confined_genCallTo h hR n [] (hΓ.func s f · hf) forall_of_none
    · exact .report (.pure (RV.Ok.zero h))

theorem confined_genAddressOf (h : Basic V) (hΓ : Γ.Allowed V) (hR : R.Allowed V) (k : Expr) :
    Confined V (genAddressOf Γ R cs k) (RV.Ok V) := by
  unfold genAddressOf
  extract_lets f
  have hf : ∀ g v, f = some g → g.fn = some v → V v := by
    intro g v hg hv
    unfold f at hg
    split at hg
    · split_ifs at hg
      exact hΓ.func _ g v hg hv
    · cases hg
  clear_value f
  split
  · exact (h.create₁ rfl (hf _ _ rfl rfl)).bind fun v hv => .pure (.some hv)
  · refine (hR.lval cs k).bind fun lv hlv => ?_
    split
    · exact .pure (RV.Ok.zero h)
    · next a ha => exact (h.create₁ rfl (hlv a ha)).bind fun v hv => .pure (.some hv)

theorem confined_genDeref (h : Basic V) (hR : R.Allowed V) (k : Expr) :
    Confined V (genDeref Γ R cs k) (RV.Ok V) := by
  unfold genDeref
  refine (hR.expr cs k).bind fun p hp => ?_
  split
  · exact .pure hp
  · exact .pure hp
  · exact (h.asPtr hp).bind fun a ha => h.loadFrom Γ _ ha

theorem confined_genStep (h : Basic V) (hR : R.Allowed V) (n : Node) (p : P) (pre : Bool)
    (k : Expr) : Confined V (genStep Γ R cs n p pre k) (RV.Ok V) := by
  unfold genStep
  refine (hR.lval cs k).bind fun lv hlv => ?_
  split
  · exact .pure (RV.Ok.zero h)
  · next a ha =>
      refine (h.loadFrom Γ _ (hlv a ha)).bind fun old hold => ?_
      split
      · exact .stop _
      · next ov hov =>
          extract_lets rest
          have hrest : ∀ v, V v → Confined V (rest v) (RV.Ok V) := by
            intro v hv
            refine (confined_mark _).bind fun _ _ => ?_
            refine (h.storeTo Γ _ (hlv a ha) (.some hv)).bind fun _ _ => .pure (.some ?_)
            split
            · exact hv
            · exact hold ov hov
          split
          · exact (h.create₂ rfl (hold ov hov) (h.fp _)).bind hrest
          · exact (h.create₂ rfl (hold ov hov) (h.int _ _)).bind hrest

theorem confined_genUnary (h : Basic V) (hΓ : Γ.Allowed V) (hR : R.Allowed V) (n : Node) (p : P)
    (pre : Bool) (k : Expr) : Confined V (genUnary Γ R cs n p pre k) (RV.Ok V) := by
  unfold genUnary
  split
  · exact confined_genAddressOf h hΓ hR k
  · exact confined_genDeref h hR k
  · refine (hR.expr cs k).bind fun v hv => (h.truthy _ hv).bind fun z hz => ?_
    refine (h.create₂ rfl hz (h.int _ _)).bind fun x hx => ?_
    exact (h.boolToI64 hx).bind fun w hw => .pure (.some hw)
  · refine (hR.expr cs k).bind fun v hv => (h.convert _ _ hv).bind fun x hx => ?_
    exact (h.create₂ rfl hx (h.int _ _)).bind fun w hw => .pure (.some hw)
  · refine (hR.expr cs k).bind fun v hv => ?_
    split_ifs
    · exact (h.convert _ _ hv).bind fun x hx => (h.create₁ rfl hx).bind fun w hw => .pure (.some hw)
    · refine (h.convert _ _ hv).bind fun x hx => ?_
      exact (h.create₂ rfl (h.int _ _) hx).bind fun w hw => .pure (.some hw)
    · refine (h.convert _ _ hv).bind fun x hx => ?_
      exact (h.create₂ rfl (h.int _ _) hx).bind fun w hw => .pure (.some hw)
  · exact hR.expr cs k
  · exact confined_genStep h hR n _ pre k
  · exact confined_genStep h hR n _ pre k
  · exact .report (.pure (RV.Ok.zero h))

theorem confined_genShortCircuit (h : Basic V) (hR : R.Allowed V) (n : Node) (isAnd : Bool)
    (a c : Expr) : Confined V (genShortCircuit R cs n isAnd a c) (RV.Ok V) := by
  unfold genShortCircuit
  refine (hR.expr cs a).bind fun va ha => (h.truthy _ ha).bind fun av hav => ?_
  refine Writes.insertBlock.bind fun lhsBB _ => Writes.newBlock.bind fun rhsBB _ => ?_
  refine Writes.newBlock.bind fun endBB _ => ?_
  extract_lets rest
  -- the two directions differ in the branch only
  have hrest : ∀ u, Confined V (rest u) (RV.Ok V) := by
    intro u
    unfold rest
    refine (Writes.setInsertPoint _).bind fun _ _ => (hR.expr cs c).bind fun vc hc => ?_
    refine (h.truthy _ hc).bind fun z hz => (h.boolToI64 hz).bind fun cv hcv => ?_
    refine Writes.insertBlock.bind fun rhsEnd _ => ?_
    refine (Writes.emit (within_nil rfl)).bind fun _ _ => (Writes.setInsertPoint _).bind fun _ _ => ?_
    refine (h.createPhi ?_).bind fun phi hphi => .pure (.some hphi)
    exact List.forall_mem_cons.mpr ⟨h.int _ _, List.forall_mem_singleton.mpr hcv⟩
  split_ifs
  · exact (Writes.emit (within_one rfl hav)).bind fun u _ => hrest u
  · exact (Writes.emit (within_one rfl hav)).bind fun u _ => hrest u

theorem confined_genBinary (h : Basic V) (hR : R.Allowed V) (n : Node) (op : P) (a c : Expr) :
    Confined V (genBinary R cs n op a c) (RV.Ok V) := by
  unfold genBinary
  split
  · exact confined_genShortCircuit h hR n true a c
  · exact confined_genShortCircuit h hR n false a c
  · refine (hR.expr cs a).bind fun a ha => (hR.expr cs c).bind fun c hc => ?_
    refine (h.truthy _ ha).bind fun x hx => (h.truthy _ hc).bind fun y hy => ?_
    refine (h.create₂ rfl hx hy).bind fun z hz => ?_
    exact (h.boolToI64 hz).bind fun w hw => .pure (.some hw)
  · refine (hR.expr cs a).bind fun a ha => (hR.expr cs c).bind fun c hc => ?_
    exact (h.cmp _ ha hc).bind fun z hz => (h.boolToI64 hz).bind fun w hw => .pure (.some hw)
  · refine (hR.expr cs a).bind fun a ha => (hR.expr cs c).bind fun c hc => ?_
    exact (h.cmp _ ha hc).bind fun z hz => (h.boolToI64 hz).bind fun w hw => .pure (.some hw)
  · exact (hR.expr cs a).bind fun a ha => (hR.expr cs c).bind fun c hc => h.arith op n.loc ha hc

theorem confined_genChain (h : Basic V) (hR : R.Allowed V) (endBB : Blk) (rest : List (P × Expr))
    {prev : RV} (hprev : prev.Ok V) :
    Confined V (genChain R cs endBB prev rest) fun inc => ∀ p ∈ inc, V p.1 := by
  induction rest generalizing prev with
  | nil => exact .pure fun p hp => absurd hp List.not_mem_nil
  | cons e rest ih =>
      rcases e with ⟨op, e⟩
      unfold genChain
      refine (hR.expr cs e).bind fun cur hcur => (h.cmp op hprev hcur).bind fun c hc => ?_
      split_ifs
      · refine Writes.insertBlock.bind fun blk _ => (h.boolToI64 hc).bind fun z hz => ?_
        refine (Writes.emit (within_nil rfl)).bind fun _ _ => .pure ?_
        exact List.forall_mem_singleton.mpr hz
      · refine Writes.newBlock.bind fun next _ => Writes.insertBlock.bind fun blk _ => ?_
        refine (Writes.emit (within_one rfl hc)).bind fun _ _ => ?_
        refine (Writes.setInsertPoint _).bind fun _ _ => (ih hcur).bind fun inc hinc => .pure ?_
        exact List.forall_mem_cons.mpr ⟨h.int _ _, hinc⟩

theorem confined_genChainCmp (h : Basic V) (hR : R.Allowed V) (first : Expr)
    (rest : List (P × Expr)) : Confined V (genChainCmp R cs first rest) (RV.Ok V) := by
  unfold genChainCmp
  refine Writes.newBlock.bind fun endBB _ => (hR.expr cs first).bind fun prev hprev => ?_
  refine (confined_genChain h hR endBB rest hprev).bind fun inc hinc => ?_
  refine (Writes.setInsertPoint _).bind fun _ _ => ?_
  exact (h.createPhi hinc).bind fun v hv => .pure (.some hv)

theorem confined_genStore (h : Basic V) (n : Node) {lv : LV} {rhs : RV} (hlv : lv.Ok V)
    (hrhs : rhs.Ok V) : Confined V (genStore Γ cs n lv rhs) (RV.Ok V) := by
  unfold genStore
  split
  · next a ha =>
      exact (confined_mark _).bind fun _ _ => (h.storeTo Γ _ (hlv a ha) hrhs).bind fun _ _ =>
        .pure hrhs
  · exact .pure hrhs

theorem confined_genAssign (h : Basic V) (hR : R.Allowed V) (n : Node) (op : P) (a c : Expr) :
    Confined V (genAssign Γ R cs n op a c) (RV.Ok V) := by
  unfold genAssign
  refine (hR.lval cs a).bind fun lv hlv => ?_
  split_ifs
  · exact (hR.expr cs c).bind fun rv hrv => confined_genStore h n hlv hrv
  · split
    · exact (hR.expr cs c).bind fun _ _ => .pure (RV.Ok.zero h)
    · next w hw =>
        refine (h.loadFrom Γ _ (hlv w hw)).bind fun old hold => ?_
        refine (hR.expr cs c).bind fun rv hrv => ?_
        exact (h.arith _ _ hold hrv).bind fun r hr => confined_genStore h n hlv hr

/-! ## One level, and all of them -/

theorem confined_genExprStep (h : Basic V) (hΓ : Γ.Allowed V) (hR : R.Allowed V) (e : Expr) :
    Confined V (genExprStep Γ R cs e) (RV.Ok V) := by
  have hload : ∀ lv : LV, lv.Ok V → Confined V (loadLV Γ lv) (RV.Ok V) := by
    intro lv hlv
    unfold loadLV
    split
    · exact .pure (RV.Ok.zero h)
    · next a ha => exact h.loadFrom Γ _ (hlv a ha)
  cases e with
  | intLit | charLit | sizeofType => exact .pure (.some (h.int _ _))
  | floatLit => exact .pure (.some (h.fp _))
  | strLit => exact h.strRV _
  | sizeofExpr => exact (Writes.ofOption _).bind fun _ _ => .pure (.some (h.int _ _))
  | offsetOf n c m r =>
      simp only [genExprStep]
      split
      · exact .pure (.some (h.int _ _))
      · exact .report (.pure (RV.Ok.zero h))
      · exact .stop _
  | ident n s => exact confined_genIdent h hΓ hR n s
  | unary n p pre k => exact confined_genUnary h hΓ hR n p pre k
  | binary n op a c => exact confined_genBinary h hR n op a c
  | chainCmp n first rest => exact confined_genChainCmp h hR first rest
  | assign n op a c => exact confined_genAssign h hR n op a c
  | call n callee args => exact confined_genCall h hΓ hR n callee args
  | index n b i => exact (hR.lval cs _).bind hload
  | member n b s isArrow => exact (hR.lval cs _).bind hload
  | cast n k t =>
      simp only [genExprStep]
      refine (hR.expr cs k).bind fun v hv => ?_
      split
      · exact .pure .none
      · split
        · next w hw => exact (h.ptrToI64 (hv w hw)).bind fun a ha => .pure (.some ha)
        · exact .pure (.some (h.int _ _))
      · split
        · next w hw => exact (h.ptrToI64 (hv w hw)).bind fun a ha => .pure (.some ha)
        · exact .pure (.some (h.int _ _))
      · exact (h.convert _ _ hv).bind fun a ha => .pure (.some ha)
  | lastClass | initList => exact .report (.pure (RV.Ok.zero h))

theorem confined_genLValueStep (h : Basic V) (hΓ : Γ.Allowed V) (hR : R.Allowed V) (e : Expr) :
    Confined V (genLValueStep Γ R cs e) (LV.Ok V) := by
  have hnot : ∀ n, Confined V (notLValue n) (LV.Ok V) := fun n => .report (.pure .none)
  cases e with
  | ident n s =>
      simp only [genLValueStep]
      split
      · next v hv => exact .pure (.some (hΓ.var s v hv))
      · split
        · exact .report (.pure .none)
        · exact .report (.pure .none)
  | unary n p pre k =>
      simp only [genLValueStep]
      split_ifs
      · refine (hR.expr cs k).bind fun p hp => ?_
        split
        · exact hnot n
        · exact (h.asPtr hp).bind fun a ha => .pure (.some ha)
        · exact (h.asPtr hp).bind fun a ha => .pure (.some ha)
      · exact (confined_genUnary h hΓ hR n p pre k).bind fun _ _ => hR.lval cs k
      · exact hnot n
  | index n b i => exact confined_genIndexLV h hR b i
  | member n b s isArrow => exact confined_genMemberLV h hR n b s isArrow
  | cast n k t =>
      simp only [genLValueStep]
      refine (hR.lval cs k).bind fun lv hlv => ?_
      split
      · next a ha => exact .pure (.some (hlv a ha))
      · exact .pure .none
  | assign n op a c => exact (hR.expr cs _).bind fun _ _ => hR.lval cs a
  | _ => exact hnot _

/-- The code of every expression names what its environment allows. -/
theorem allowed_gen (h : Basic V) (hΓ : Γ.Allowed V) (d : Nat) : (gen Γ d).Allowed V := by
  induction d with
  | zero => exact ⟨fun _ _ => .stop _, fun _ _ => .stop _⟩
  | succ d ih =>
      constructor
      · intro cs e
        exact confined_genExprStep h hΓ ih e
      · intro cs e
        exact confined_genLValueStep h hΓ ih e

end Nodes

end Hlang.Codegen
