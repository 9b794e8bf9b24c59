import Hlang.Codegen.Opcodes
import Hlang.Codegen.Typing

/-!
# Hlang.Codegen.Signedness — which operators of a tree are unsigned

An integer expression tree over variables has static types by the typing rules of the
operators (`Decls.ty`). Code generation lowers every operator of the tree to the form that
the static types of its operands decide, at the types that the variables are stored with
(`picks_genExpr`).
-/

namespace Hlang.Codegen

open Ir Gen

/-! ## Static types -/

/-- The types of variables. -/
abbrev Decls := String → Option Ty

/-- Integers and pointers. -/
def isWord (t : Ty) : Bool := t.isInt || t.isPtr

/-- The static type of an expression, as a value and as an lvalue. -/
def Decls.ty (D : Decls) : Pos → Expr → Ty
  | _, .ident _ s => (D s).getD .i64
  | .rv, .unary _ p _ k =>
      match p with
      | .amp => .ptr (D.ty .lv k)
      | .star => (derefTy (D.ty .rv k)).getD .i64
      | .minus => if (D.ty .rv k).isInt then D.ty .rv k else .i64
      | .plus => D.ty .rv k
      | .plusPlus | .minusMinus => D.ty .lv k
      | _ => .i64
  | .lv, .unary _ p _ k => if p = .star then pointee (D.ty .rv k) else D.ty .lv k
  | .rv, .binary _ op a c => if keepsPtr op then intResult (D.ty .rv a) (D.ty .rv c) else .i64
  | .rv, .assign _ op a c =>
      if op = .assign then D.ty .rv c else intResult (D.ty .lv a) (D.ty .rv c)
  | .lv, .assign _ _ a _ => D.ty .lv a
  | _, .index _ (.member _ _ s _) _ | _, .member _ _ s _ => (subIntType s).getD .i64
  | _, .cast _ _ t => t
  | _, _ => .i64

section Ty

variable (D : Decls) (pos : Pos) (n m : Node) (p : P) (pre : Bool) (a c k q i : Expr) (s : String)

theorem ty_ident : D.ty pos (.ident n s) = (D s).getD .i64 := by
  cases pos <;> rfl

theorem ty_star : D.ty .rv (.unary n .star pre k) = (derefTy (D.ty .rv k)).getD .i64 := rfl

theorem ty_minus : D.ty .rv (.unary n .minus pre k) =
    if (D.ty .rv k).isInt then D.ty .rv k else .i64 := rfl

theorem ty_lv_unary : D.ty .lv (.unary n p pre k) =
    if p = .star then pointee (D.ty .rv k) else D.ty .lv k := rfl

theorem ty_binary : D.ty .rv (.binary n p a c) =
    if keepsPtr p then intResult (D.ty .rv a) (D.ty .rv c) else .i64 := rfl

theorem ty_rv_assign : D.ty .rv (.assign n p a c) =
    if p = .assign then D.ty .rv c else intResult (D.ty .lv a) (D.ty .rv c) := rfl

theorem ty_view : D.ty pos (.index n (.member m q s false) i) = (subIntType s).getD .i64 := by
  cases pos <;> rfl

theorem ty_first : D.ty pos (.member n q s false) = (subIntType s).getD .i64 := by
  cases pos <;> rfl

end Ty

/-- The operators between two operands. -/
def binaryOps : List P :=
  [.andAnd, .orOr, .xorXor, .eqEq, .ne, .pow, .plus, .minus, .star, .slash, .percent, .amp, .pipe,
    .caret, .shl, .shr]

/-- The operators of a chain of comparisons. -/
def compareOps : List P := [.lt, .gt, .le, .ge]

/-- The operators that assign. -/
def assignOps : List P :=
  [.assign, .plusEq, .minusEq, .starEq, .slashEq, .percentEq, .shlEq, .shrEq, .ampEq, .pipeEq,
    .caretEq]

/-- Integer expression trees over the variables. -/
inductive WordTree (D : Decls) : Pos → Expr → Prop where
  | int (n : Node) (x : I64) : WordTree D .rv (.intLit n x)
  | char (n : Node) (x : I64) : WordTree D .rv (.charLit n x)
  | sizeofType (n : Node) (t : Ty) : WordTree D .rv (.sizeofType n t)
  | sizeofVar {s : String} {t : Ty} (n m : Node) (h : D s = some t) :
      WordTree D .rv (.sizeofExpr n (.ident m s))
  | var {s : String} {t : Ty} (p : Pos) (n : Node) (h : D s = some t) : WordTree D p (.ident n s)
  | addr {k : Expr} (n : Node) (pre : Bool) (h : WordTree D .lv k) :
      WordTree D .rv (.unary n .amp pre k)
  | load {k : Expr} {t : Ty} (n : Node) (pre : Bool) (h : WordTree D .rv k)
      (ht : derefTy (D.ty .rv k) = some t) (hword : isWord t = true) :
      WordTree D .rv (.unary n .star pre k)
  | deref {k : Expr} {t : Ty} (n : Node) (h : WordTree D .rv k)
      (ht : derefLV (D.ty .rv k) = some t) (hword : isWord t = true) :
      WordTree D .lv (.unary n .star true k)
  | unary {p : P} {k : Expr} (n : Node) (pre : Bool) (hp : p ∈ [.not, .tilde, .minus, .plus])
      (h : WordTree D .rv k) : WordTree D .rv (.unary n p pre k)
  | step {p : P} {k : Expr} (pos : Pos) (n : Node) (pre : Bool) (hp : p ∈ [.plusPlus, .minusMinus])
      (h : WordTree D .lv k) : WordTree D pos (.unary n p pre k)
  | binary {op : P} {a c : Expr} (n : Node) (hop : op ∈ binaryOps) (ha : WordTree D .rv a)
      (hc : WordTree D .rv c) : WordTree D .rv (.binary n op a c)
  | chain {first : Expr} {rest : List (P × Expr)} (n : Node) (h : WordTree D .rv first)
      (hops : ∀ r ∈ rest, r.1 ∈ compareOps) (hrest : ∀ r ∈ rest, WordTree D .rv r.2) :
      WordTree D .rv (.chainCmp n first rest)
  | assign {op : P} {a c : Expr} (pos : Pos) (n : Node) (hop : op ∈ assignOps)
      (ha : WordTree D .lv a) (hc : WordTree D .rv c) : WordTree D pos (.assign n op a c)
  /-- the sub-int access `q.T[i]` -/
  | view {q i : Expr} {s : String} (pos : Pos) (n m : Node) (h : WordTree D .lv q)
      (hint : (D.ty .lv q).isInt = true) (hs : (subIntType s).isSome = true)
      (hi : WordTree D .rv i) : WordTree D pos (.index n (.member m q s false) i)
  | first {q : Expr} {s : String} (pos : Pos) (n : Node) (h : WordTree D .lv q)
      (hint : (D.ty .lv q).isInt = true) (hs : (subIntType s).isSome = true) :
      WordTree D pos (.member n q s false)
  | cast {k : Expr} {t : Ty} (pos : Pos) (n : Node) (h : WordTree D pos k)
      (hword : isWord t = true) : WordTree D pos (.cast n k t)

/-! ## Decisions -/

/-- An operator with its two operands. -/
abbrev Decision := P × Visit × Visit

mutual

/-- The operators of a tree, in the order in which they are lowered. An lvalue whose value is
used before is generated again. -/
def decisions : Pos → Expr → List Decision
  | .rv, .unary _ p _ k =>
      if p ∈ [.amp, .plusPlus, .minusMinus] then decisions .lv k else decisions .rv k
  | .lv, .unary _ p _ k => if p = .star then decisions .rv k else decisions .lv k ++ decisions .lv k
  | .rv, .binary _ op a c => decisions .rv a ++ decisions .rv c ++ [(op, (.rv, a), (.rv, c))]
  | .rv, .chainCmp _ first rest => decisions .rv first ++ chainDecisions first rest
  | p, .assign _ op a c =>
      decisions .lv a ++ decisions .rv c ++
        (if op = .assign then [] else [(compoundOp op, (.lv, a), (.rv, c))]) ++
        (if p = .lv then decisions .lv a else [])
  | _, .index _ (.member _ q _ _) i => decisions .lv q ++ decisions .rv i
  | _, .member _ q _ _ => decisions .lv q
  | p, .cast _ k _ => decisions p k
  | _, _ => []

/-- The operators of a chain of comparisons. -/
def chainDecisions : Expr → List (P × Expr) → List Decision
  | _, [] => []
  | prev, (op, e) :: rest =>
      decisions .rv e ++ (op, (.rv, prev), (.rv, e)) :: chainDecisions e rest

end

/-- The variables are stored at these types. -/
def Env.Declares (Γ : Env) (D : Decls) : Prop :=
  ∀ s t, D s = some t → isWord t = true ∧ ∃ a, Γ.lookupVar s = some ⟨a, t⟩

/-- The form that the static types of its operands decide for an operator. -/
def Decls.form (D : Decls) (c : Decision) : Option Opcode :=
  opcode c.1 (decided c.1 (D.ty c.2.1.1 c.2.1.2) (D.ty c.2.2.1 c.2.2.2))

section Decisions

variable (n : Node) (p : P) (pre : Bool) (a c k : Expr)

theorem decisions_rv_unary : decisions .rv (.unary n p pre k) =
    if p ∈ [.amp, .plusPlus, .minusMinus] then decisions .lv k else decisions .rv k := rfl

theorem decisions_lv_unary : decisions .lv (.unary n p pre k) =
    if p = .star then decisions .rv k else decisions .lv k ++ decisions .lv k := rfl

theorem decisions_binary : decisions .rv (.binary n p a c) =
    decisions .rv a ++ decisions .rv c ++ [(p, (.rv, a), (.rv, c))] := rfl

theorem decisions_chainCmp (rest : List (P × Expr)) : decisions .rv (.chainCmp n a rest) =
    decisions .rv a ++ chainDecisions a rest := rfl

theorem decisions_assign (pos : Pos) : decisions pos (.assign n p a c) =
    decisions .lv a ++ decisions .rv c ++
      (if p = .assign then [] else [(compoundOp p, (.lv, a), (.rv, c))]) ++
      (if pos = .lv then decisions .lv a else []) := by
  cases pos <;> rfl

theorem chainDecisions_nil : chainDecisions a [] = [] := rfl

theorem chainDecisions_cons (rest : List (P × Expr)) : chainDecisions a ((p, c) :: rest) =
    decisions .rv c ++ (p, (.rv, a), (.rv, c)) :: chainDecisions c rest := rfl

end Decisions

/-- The forms of the operators of a tree, in the order in which they are lowered. -/
def Decls.forms (D : Decls) (p : Pos) (e : Expr) : List Opcode := (decisions p e).filterMap D.form

/-- The recursive functions lower the operators of `e` to these forms. -/
def Signs (D : Decls) (R : Rec) : Pos → Expr → Prop
  | .rv, e => ∀ cs, Picks (R.genExpr cs e) (D.forms .rv e) fun rv => rv.Is (.of (D.ty .rv e))
  | .lv, e => ∀ cs, Picks (R.genLValue cs e) (D.forms .lv e) fun lv => lv.Is (some (D.ty .lv e))

/-! ## Words -/

section Words

variable {Γ : Env} {D : Decls} {t u : Ty} {e k : Expr} {p : Pos}

theorem isWord_cases (h : isWord t = true) : (∃ n uns, t = .int n uns) ∨ ∃ u, t = .ptr u := by
  cases t with
  | int n uns => exact .inl ⟨n, uns, rfl⟩
  | ptr u => exact .inr ⟨u, rfl⟩
  | _ => cases h

theorem isF64_word (h : isWord t = true) : t.isF64 = false := by
  rcases isWord_cases h with ⟨n, uns, rfl⟩ | ⟨u, rfl⟩
  · rfl
  · rfl

theorem isAggregate_word (h : isWord t = true) : isAggregate t = false := by
  rcases isWord_cases h with ⟨n, uns, rfl⟩ | ⟨u, rfl⟩
  · rfl
  · rfl

theorem accessType_word (hfuel : 0 < Γ.classFuel) (h : isWord t = true) :
    accessType Γ.heap Γ.classFuel t = some t := by
  rcases Nat.exists_eq_succ_of_ne_zero (Nat.ne_of_gt hfuel) with ⟨f, hf⟩
  rw [hf]
  rcases isWord_cases h with ⟨n, uns, rfl⟩ | ⟨u, rfl⟩
  · rfl
  · rfl

theorem loadKind_word (hfuel : 0 < Γ.classFuel) (h : isWord t = true) :
    Γ.loadKind t = some (.of t) := by
  unfold Env.loadKind
  rw [accessType_word hfuel h]
  rcases isWord_cases h with ⟨n, uns, rfl⟩ | ⟨u, rfl⟩
  · rfl
  · rfl

theorem isWord_intResult (t u : Ty) : isWord (intResult t u) = true := by
  unfold intResult isWord
  split_ifs with ht hu
  · rw [ht, Bool.or_true]
  · rw [hu, Bool.or_true]
  · rfl
  · rfl

theorem isWord_subIntType {s : String} (hs : (subIntType s).isSome = true) :
    isWord ((subIntType s).getD .i64) = true := by
  rcases Option.isSome_iff_exists.mp hs with ⟨t, ht⟩
  rw [ht]
  unfold isWord
  rw [Option.getD_some, isInt_subIntType ht]
  rfl

theorem pointee_of_derefLV (h : derefLV t = some u) : pointee t = u := by
  unfold derefLV at h
  split at h
  · cases h
  · exact Option.some.inj h

/-- The values and lvalues of a tree are words. -/
theorem WordTree.isWord (hΓ : Γ.Declares D) (h : WordTree D p e) : isWord (D.ty p e) = true := by
  induction h with
  | int n x | char n x | sizeofType n t | sizeofVar n m h => rfl
  | var p n h =>
      rw [ty_ident, h]
      exact (hΓ _ _ h).1
  | addr n pre h ih => rfl
  | load n pre h ht hword ih =>
      rw [ty_star, ht]
      exact hword
  | deref n h ht hword ih =>
      rw [ty_lv_unary, if_pos rfl, pointee_of_derefLV ht]
      exact hword
  | unary n pre hp h ih =>
      simp only [List.mem_cons, List.not_mem_nil, or_false] at hp
      rcases hp with rfl | rfl | rfl | rfl
      · rfl
      · rfl
      · rw [ty_minus]
        split_ifs
        · exact ih
        · rfl
      · exact ih
  | step pos n pre hp h ih =>
      simp only [List.mem_cons, List.not_mem_nil, or_false] at hp
      cases pos with
      | rv =>
          rcases hp with rfl | rfl
          · exact ih
          · exact ih
      | lv =>
          rw [ty_lv_unary, if_neg]
          · exact ih
          · rcases hp with rfl | rfl
            · exact nofun
            · exact nofun
  | binary n hop ha hc iha ihc =>
      rw [ty_binary]
      split_ifs
      · exact isWord_intResult _ _
      · rfl
  | chain n h hops hrest ih ihrest => rfl
  | assign pos n hop ha hc iha ihc =>
      cases pos with
      | rv =>
          rw [ty_rv_assign]
          split_ifs
          · exact ihc
          · exact isWord_intResult _ _
      | lv => exact iha
  | view pos n m h hint hs hi ih ihi =>
      cases pos with
      | rv => exact isWord_subIntType hs
      | lv => exact isWord_subIntType hs
  | first pos n h hint hs ih =>
      cases pos with
      | rv => exact isWord_subIntType hs
      | lv => exact isWord_subIntType hs
  | cast pos n h hword ih =>
      cases pos with
      | rv => exact hword
      | lv => exact hword

/-- The address of an lvalue of a tree is no function. -/
theorem WordTree.addressed (hΓ : Γ.Declares D) (h : WordTree D .lv e) : Γ.addressed e = none := by
  unfold Env.addressed
  cases h with
  | var _ n h =>
      rcases hΓ _ _ h with ⟨_, a, ha⟩
      dsimp only
      rw [ha]
      rfl
  | _ => rfl

end Words

/-! ## The nodes -/

section Nodes

variable {Γ : Env} {D : Decls} {R : Rec} {e k a c q i : Expr} {t : Ty} {s : String} (cs : List Nat)

theorem picks_load (hfuel : 0 < Γ.classFuel) (addr : Value) (ht : isWord t = true) :
    Picks (loadFrom Γ addr t) [] fun rv => rv.Is (.of t) := by
  refine .of ?_ (codes_loadFrom Γ addr t)
  have hload := outcome_loadFrom Γ addr t
  rw [accessType_word hfuel ht, loadKind_word hfuel ht] at hload
  refine (hload.iff (iff_of_true rfl trivial) Iff.rfl).mono ?_
  rintro rv ⟨q, hq, hrv⟩
  rcases Option.some.inj hq with rfl
  exact hrv

theorem picks_store (hfuel : 0 < Γ.classFuel) (addr : Value) (rv : RV) (ht : isWord t = true) :
    Picks (storeTo Γ addr rv t) [] fun _ => True := by
  refine .of ?_ (codes_storeTo Γ addr rv t)
  have hstore := outcome_storeTo Γ addr rv t
  rw [accessType_word hfuel ht] at hstore
  refine hstore.iff (iff_of_true rfl trivial) (iff_of_true ?_ trivial)
  intro t' ht' hagg
  rcases Option.some.inj ht' with rfl
  rw [isAggregate_word ht] at hagg
  cases hagg

theorem picks_asPtr {rv : RV} (h : rv.Is (.of t)) : Picks (asPtr rv.v) [] fun _ => True := by
  have hv : rv.v.isSome = true := h.isSome.mpr rfl
  exact .of ((outcome_asPtr rv.v).iff Iff.rfl (iff_of_true hv trivial)) (codes_asPtr rv.v)

/-- An instruction that makes a word. -/
theorem picks_made {o : Op} (h : o.opcode? = none) (hdbl : isDbl (.reg o.type 0) = false)
    (ht : isWord t = true) : Picks (do
      let v ← create o
      return (⟨some v, t⟩ : RV)) [] fun rv => rv.Is (.of t) := by
  have hcodes := codes_create o
  rw [h] at hcodes
  have htotal := total_created (o := o) (hdbl.trans (isF64_word ht).symm)
  exact (Picks.of htotal hcodes).after fun v hv => .pure (is_made hv)

theorem picks_phi (incoming : List (Value × Blk)) : Picks (do
    return (⟨some (← createPhi incoming), .i64⟩ : RV)) [] fun rv => rv.Is .i64 :=
  .of (total_createPhiRV incoming) ((codes_createPhi incoming).after fun _ => .pure _)

theorem picks_bool (v : Value) : Picks (do
    return (⟨some (← boolToI64 v), .i64⟩ : RV)) [] fun rv => rv.Is .i64 :=
  (picks_boolToI64 v).after fun _ hw => .pure (is_made hw)

/-- Loading from an lvalue that is there. -/
theorem picks_loadLV (hfuel : 0 < Γ.classFuel) {lv : LV} (hlv : lv.Is (some t))
    (ht : isWord t = true) : Picks (match lv.addr with
      | none => return RV.zero
      | some a => loadFrom Γ a lv.t) [] fun rv => rv.Is (.of t) := by
  rcases is_cases hlv with ⟨_, hnone⟩ | ⟨addr, haddr, hty⟩
  · cases hnone
  · rcases Option.some.inj hty with rfl
    rw [haddr]
    exact picks_load hfuel addr ht

theorem picks_addressOf (hk : Signs D R .lv k) (haddr : Γ.addressed k = none) :
    Picks (genAddressOf Γ R cs k) (D.forms .lv k) fun rv => rv.Is (.of (.ptr (D.ty .lv k))) := by
  rw [genAddressOf_eq, haddr]
  refine (hk cs).before fun lv hlv => ?_
  rcases is_cases hlv with ⟨_, hnone⟩ | ⟨addr, hsome, hty⟩
  · cases hnone
  · rcases Option.some.inj hty with hty
    rw [hsome, ← hty]
    exact picks_made (o := .ptrtoint addr) rfl rfl rfl

theorem picks_deref (hfuel : 0 < Γ.classFuel) (hk : Signs D R .rv k)
    (ht : derefTy (D.ty .rv k) = some t) (hword : isWord t = true) :
    Picks (genDeref Γ R cs k) (D.forms .rv k) fun rv => rv.Is (.of t) := by
  unfold genDeref
  refine (hk cs).before fun p hp => ?_
  have hload : ∀ elem, derefTy p.t = some elem →
      Picks (do loadFrom Γ (← asPtr p.v) elem) [] fun rv => rv.Is (.of t) := by
    intro elem helem
    rw [hp.1] at helem
    rcases Option.some.inj (helem.symm.trans ht) with rfl
    exact (picks_asPtr hp).after fun addr _ => picks_load hfuel addr hword
  have hsome : derefTy p.t ≠ none := by
    rw [hp.1]
    intro hnone
    cases hnone.symm.trans ht
  cases hpt : p.t with
  | ptr elem =>
      rw [hpt] at hload hsome
      cases elem with
      | func r ps v => exact (hsome rfl).elim
      | void => exact hload _ rfl
      | _ => exact hload _ rfl
  | func r ps v =>
      rw [hpt] at hsome
      exact (hsome rfl).elim
  | _ =>
      rw [hpt] at hload
      exact hload _ rfl

theorem picks_step (hfuel : 0 < Γ.classFuel) {p : P} (n : Node) (pre : Bool)
    (hk : Signs D R .lv k) (hword : isWord (D.ty .lv k) = true) :
    Picks (genStep Γ R cs n p pre k) (D.forms .lv k) fun rv => rv.Is (.of (D.ty .lv k)) := by
  unfold genStep
  refine (hk cs).before fun lv hlv => ?_
  rcases is_cases hlv with ⟨_, hnone⟩ | ⟨addr, hsome, hty⟩
  · cases hnone
  · have hty : D.ty .lv k = lv.t := Option.some.inj hty
    rw [hty] at hword
    rw [hsome, hty]
    refine (picks_load hfuel addr hword).after fun old hold => ?_
    rcases Option.isSome_iff_exists.mp (hold.isSome.mpr rfl) with ⟨ov, hov⟩
    have hint : isDbl ov = false := by
      have hdbl := hold.2.2
      unfold RV.isDouble at hdbl
      rw [hov] at hdbl
      exact hdbl.trans (isF64_word hword)
    have hstored : ∀ nv, isDbl nv = false → Picks (do
        emit (.mark ⟨cs, n.addr⟩)
        storeTo Γ addr ⟨some nv, old.t⟩ lv.t
        return (⟨some (if pre then nv else ov), old.t⟩ : RV)) [] fun rv => rv.Is (.of lv.t) := by
      intro nv hnv
      refine (picks_emit rfl).after fun _ _ => ?_
      refine (picks_store hfuel addr _ hword).after fun _ _ => ?_
      refine .pure ⟨hold.1, rfl, ?_⟩
      have hf64 : (Kind.of lv.t).dbl = false := isF64_word hword
      rw [hf64]
      cases pre with
      | true => exact hnv
      | false => exact hint
    have hadd : ∀ o : BinOp, o ∉ [.udiv, .sdiv, .urem, .srem, .lshr, .ashr] →
        Picks (create (.bin o ov (cI64 1))) [] fun w => isDbl w = false := by
      intro o ho
      have hnone : (Op.bin o ov (cI64 1)).opcode? = none := if_neg ho
      have hcodes := codes_create (.bin o ov (cI64 1))
      rw [hnone] at hcodes
      exact .of (total_created (t := .i64) hint) hcodes
    dsimp only
    rw [hov]
    dsimp only
    rw [if_neg (of_decide_eq_false hint)]
    refine (hadd _ ?_).after hstored
    split_ifs
    · decide
    · decide

/-- `!`, `~`, `-` and `+`. -/
theorem picks_unary {p : P} (n : Node) (pre : Bool) (hp : p ∈ [.not, .tilde, .minus, .plus])
    (hk : Signs D R .rv k) (hword : isWord (D.ty .rv k) = true) :
    Picks (genUnary Γ R cs n p pre k) (D.forms .rv k)
      fun rv => rv.Is (.of (D.ty .rv (.unary n p pre k))) := by
  simp only [List.mem_cons, List.not_mem_nil, or_false] at hp
  unfold genUnary
  rcases hp with rfl | rfl | rfl | rfl
  · refine (hk cs).before fun v hv => (picks_truthy v n.loc).after fun z _ => ?_
    exact (Picks.of (total_create _) (codes_create _)).after fun w _ => picks_bool w
  · refine (hk cs).before fun v hv => (picks_convert v false).after fun w hw => ?_
    exact picks_made rfl hw rfl
  · refine (hk cs).before fun v hv => ?_
    have hdbl : v.isDouble = false := hv.2.2.trans (isF64_word hword)
    have ht : v.t = D.ty .rv k := hv.1
    rw [hdbl, if_neg Bool.false_ne_true, ht, ty_minus]
    refine (picks_convert v false).after fun w hw => picks_made rfl rfl ?_
    split_ifs
    · exact hword
    · rfl
  · exact hk cs

/-- `&&` and `||`. -/
theorem picks_shortCircuit (n : Node) (isAnd : Bool) (ha : Signs D R .rv a)
    (hc : Signs D R .rv c) : Picks (genShortCircuit R cs n isAnd a c)
      (D.forms .rv a ++ D.forms .rv c) fun rv => rv.Is .i64 := by
  unfold genShortCircuit
  refine (ha cs).bind fun av _ => (picks_truthy av n.loc).after fun z _ => ?_
  refine picks_insertBlock.after fun lhsBB _ => picks_newBlock.after fun rhsBB _ => ?_
  refine picks_newBlock.after fun endBB _ => ?_
  have hrhs : ∀ x : I64, Picks (do
      setInsertPoint rhsBB
      let cv ← boolToI64 (← truthy (← R.genExpr cs c) n.loc)
      let rhsEnd ← insertBlock
      emit (.br endBB)
      setInsertPoint endBB
      let phi ← createPhi [(cI64 x, lhsBB), (cv, rhsEnd)]
      return (⟨some phi, .i64⟩ : RV)) (D.forms .rv c) fun rv => rv.Is .i64 := by
    intro x
    refine (picks_setInsertPoint rhsBB).after fun _ _ => (hc cs).before fun cv _ => ?_
    refine (picks_truthy cv n.loc).after fun z _ => (picks_boolToI64 z).after fun w _ => ?_
    refine picks_insertBlock.after fun rhsEnd _ => (picks_emit rfl).after fun _ _ => ?_
    exact (picks_setInsertPoint endBB).after fun _ _ => picks_phi _
  cases isAnd with
  | true => exact (picks_emit rfl).after fun _ _ => hrhs 0
  | false => exact (picks_emit rfl).after fun _ _ => hrhs 1

theorem filterMap_snoc {f : Decision → Option Opcode} (l : List Decision) (x : Decision) :
    (l ++ [x]).filterMap f = l.filterMap f ++ (f x).toList := by
  rw [List.filterMap_append]
  cases h : f x with
  | none => simp [h]
  | some o => simp [h]

/-- Two operands, and what follows them. -/
theorem picks_operands {α : Type} {f : RV → RV → Gen α} {l : List Opcode} {T : α → Prop}
    (ha : Signs D R .rv a) (hc : Signs D R .rv c)
    (hf : ∀ x y, x.Is (.of (D.ty .rv a)) → y.Is (.of (D.ty .rv c)) → Picks (f x y) l T) :
    Picks (do f (← R.genExpr cs a) (← R.genExpr cs c)) (D.forms .rv a ++ D.forms .rv c ++ l) T := by
  rw [List.append_assoc]
  exact (ha cs).bind fun x hx => (hc cs).bind fun y hy => hf x y hx hy

theorem arithKind_words {op : P} {u : Ty} (ht : isWord t = true) (hu : isWord u = true) :
    arithKind op (.of t) (.of u) = .of (if keepsPtr op then intResult t u else .i64) := by
  unfold arithKind keepsPtr
  have hdbl : ((Kind.of t).dbl || (Kind.of u).dbl) = false := by
    change (t.isF64 || u.isF64) = false
    rw [isF64_word ht, isF64_word hu]
    rfl
  rw [hdbl, Bool.false_and, if_neg Bool.false_ne_true]
  simp only [decide_eq_true_eq]
  rfl

theorem picks_binary {op : P} (n : Node) (hop : op ∈ binaryOps) (ha : Signs D R .rv a)
    (hc : Signs D R .rv c) (hat : isWord (D.ty .rv a) = true) (hct : isWord (D.ty .rv c) = true) :
    Picks (genBinary R cs n op a c) (D.forms .rv (.binary n op a c))
      fun rv => rv.Is (.of (D.ty .rv (.binary n op a c))) := by
  have hforms : D.forms .rv (.binary n op a c) = D.forms .rv a ++ D.forms .rv c ++
      (opcode op (decided op (D.ty .rv a) (D.ty .rv c))).toList := by
    unfold Decls.forms
    rw [decisions_binary, filterMap_snoc, List.filterMap_append]
    rfl
  rw [hforms, ty_binary]
  have hconnect : ∀ isAnd, opcode op (decided op (D.ty .rv a) (D.ty .rv c)) = none →
      keepsPtr op = false → genBinary R cs n op a c = genShortCircuit R cs n isAnd a c →
      Picks (genBinary R cs n op a c) (D.forms .rv a ++ D.forms .rv c ++
        (opcode op (decided op (D.ty .rv a) (D.ty .rv c))).toList)
        fun rv => rv.Is (.of (if keepsPtr op then intResult (D.ty .rv a) (D.ty .rv c)
          else .i64)) := by
    intro isAnd hnone hkeep heq
    rw [hnone, hkeep, heq, Option.toList_none, List.append_nil]
    exact picks_shortCircuit cs n isAnd ha hc
  have hequal : op = .eqEq ∨ op = .ne →
      genBinary R cs n op a c = (do
        let x ← R.genExpr cs a
        let y ← R.genExpr cs c
        return ⟨some (← boolToI64 (← cmp op x y)), .i64⟩) →
      Picks (genBinary R cs n op a c) (D.forms .rv a ++ D.forms .rv c ++
        (opcode op (decided op (D.ty .rv a) (D.ty .rv c))).toList)
        fun rv => rv.Is (.of (if keepsPtr op then intResult (D.ty .rv a) (D.ty .rv c)
          else .i64)) := by
    intro hop heq
    have hkeep : keepsPtr op = false := by
      rcases hop with rfl | rfl
      · rfl
      · rfl
    have hmem : op ∈ [.lt, .gt, .le, .ge, .eqEq, .ne] := by
      rcases hop with rfl | rfl
      · decide
      · decide
    rw [heq, hkeep]
    refine picks_operands cs ha hc fun x y hx hy => ?_
    exact (picks_cmp op hx hy (isF64_word hat) (isF64_word hct) hmem).before fun z _ => picks_bool z
  have harith : op ∉ [.lt, .gt, .le, .ge] →
      genBinary R cs n op a c = (do
        let x ← R.genExpr cs a
        let y ← R.genExpr cs c
        arith op x y n.loc) →
      Picks (genBinary R cs n op a c) (D.forms .rv a ++ D.forms .rv c ++
        (opcode op (decided op (D.ty .rv a) (D.ty .rv c))).toList)
        fun rv => rv.Is (.of (if keepsPtr op then intResult (D.ty .rv a) (D.ty .rv c)
          else .i64)) := by
    intro hop heq
    rw [heq]
    refine picks_operands cs ha hc fun x y hx hy => ?_
    have h := picks_arith op hx hy (isF64_word hat) (isF64_word hct) hop n.loc
    rw [arithKind_words hat hct] at h
    exact h
  simp only [binaryOps, List.mem_cons, List.not_mem_nil, or_false] at hop
  rcases hop with rfl | rfl | rfl | rfl | rfl | hop
  · exact hconnect true rfl rfl rfl
  · exact hconnect false rfl rfl rfl
  · change Picks _ (D.forms .rv a ++ D.forms .rv c ++ []) _
    refine picks_operands cs ha hc fun x y hx hy => ?_
    refine (picks_truthy x n.loc).after fun z _ => (picks_truthy y n.loc).after fun w _ => ?_
    exact (Picks.of (total_create _) (codes_create _)).after fun v _ => picks_bool v
  · exact hequal (.inl rfl) rfl
  · exact hequal (.inr rfl) rfl
  · rcases hop with rfl | rfl | rfl | rfl | rfl | rfl | rfl | rfl | rfl | rfl | rfl
    all_goals exact harith (by decide) rfl

/-- A chain of comparisons, behind its first operand. -/
theorem picks_genChain (endBB : Blk) : ∀ (rest : List (P × Expr)) (prev : RV) (e : Expr),
    prev.Is (.of (D.ty .rv e)) → isWord (D.ty .rv e) = true →
    (∀ r ∈ rest, r.1 ∈ compareOps) → (∀ r ∈ rest, Signs D R .rv r.2) →
    (∀ r ∈ rest, isWord (D.ty .rv r.2) = true) →
    Picks (genChain R cs endBB prev rest) ((chainDecisions e rest).filterMap D.form)
      fun _ => True := by
  intro rest
  induction rest with
  | nil =>
      intro prev e hprev he hops hrest hwords
      unfold genChain
      exact .pure trivial
  | cons r rest ih =>
      intro prev e hprev he hops hrest hwords
      rcases r with ⟨op, e'⟩
      have hop : op ∈ compareOps := hops _ List.mem_cons_self
      have he' : isWord (D.ty .rv e') = true := hwords _ List.mem_cons_self
      have hcur : Signs D R .rv e' := hrest _ List.mem_cons_self
      have hmem : op ∈ [.lt, .gt, .le, .ge, .eqEq, .ne] := by
        simp only [compareOps, List.mem_cons, List.not_mem_nil, or_false] at hop ⊢
        rcases hop with rfl | rfl | rfl | rfl
        all_goals simp
      have hforms : (chainDecisions e ((op, e') :: rest)).filterMap D.form = D.forms .rv e' ++
          ((opcode op (decided op (D.ty .rv e) (D.ty .rv e'))).toList ++
            (chainDecisions e' rest).filterMap D.form) := by
        have hsplit := filterMap_snoc (f := D.form) [] (op, (.rv, e), (.rv, e'))
        have hcons : (op, (Pos.rv, e), (Pos.rv, e')) :: chainDecisions e' rest =
            ([] ++ [(op, (Pos.rv, e), (Pos.rv, e'))]) ++ chainDecisions e' rest := rfl
        unfold Decls.forms
        conv_lhs => rw [chainDecisions_cons]
        rw [List.filterMap_append, hcons, List.filterMap_append, hsplit]
        rfl
      rw [hforms]
      unfold genChain
      refine (hcur cs).bind fun cur hcur' => ?_
      refine (picks_cmp op hprev hcur' (isF64_word he) (isF64_word he') hmem).bind fun z _ => ?_
      cases rest with
      | nil =>
          refine picks_insertBlock.after fun blk _ => (picks_boolToI64 z).after fun w _ => ?_
          exact (picks_emit rfl).after fun _ _ => .pure trivial
      | cons r rest =>
          refine picks_newBlock.after fun next _ => picks_insertBlock.after fun blk _ => ?_
          refine (picks_emit rfl).after fun _ _ => (picks_setInsertPoint next).after fun _ _ => ?_
          have hchain := ih cur e' hcur' he' (fun r' hr' => hops r' (List.mem_cons_of_mem _ hr'))
            (fun r' hr' => hrest r' (List.mem_cons_of_mem _ hr'))
            fun r' hr' => hwords r' (List.mem_cons_of_mem _ hr')
          exact hchain.before fun incoming _ => .pure trivial

theorem picks_chainCmp (n : Node) {rest : List (P × Expr)} (he : Signs D R .rv e)
    (hword : isWord (D.ty .rv e) = true) (hops : ∀ r ∈ rest, r.1 ∈ compareOps)
    (hrest : ∀ r ∈ rest, Signs D R .rv r.2)
    (hwords : ∀ r ∈ rest, isWord (D.ty .rv r.2) = true) :
    Picks (genChainCmp R cs e rest) (D.forms .rv (.chainCmp n e rest)) fun rv => rv.Is .i64 := by
  unfold genChainCmp Decls.forms
  rw [decisions_chainCmp, List.filterMap_append]
  refine picks_newBlock.after fun endBB _ => (he cs).bind fun prev hprev => ?_
  refine (picks_genChain cs endBB rest prev e hprev hword hops hrest hwords).before ?_
  intro incoming _
  exact (picks_setInsertPoint endBB).after fun _ _ => picks_phi incoming

theorem picks_genStore (hfuel : 0 < Γ.classFuel) (n : Node) {lv : LV} {rhs : RV} {q : Kind}
    (hlv : lv.Is (some t)) (ht : isWord t = true) (hrhs : rhs.Is q) :
    Picks (genStore Γ cs n lv rhs) [] fun rv => rv.Is q := by
  unfold genStore
  rcases is_cases hlv with ⟨_, hnone⟩ | ⟨addr, hsome, hty⟩
  · cases hnone
  · rcases Option.some.inj hty with rfl
    rw [hsome]
    refine (picks_emit rfl).after fun _ _ => ?_
    exact (picks_store hfuel addr rhs ht).after fun _ _ => .pure hrhs

/-- The operator of a compound assignment keeps the type of a pointer. -/
theorem compoundOp_cases {op : P} (hop : op ∈ assignOps) (hne : op ≠ .assign) :
    keepsPtr (compoundOp op) = true ∧ compoundOp op ∉ [.lt, .gt, .le, .ge] := by
  simp only [assignOps, List.mem_cons, List.not_mem_nil, or_false] at hop
  rcases hop with rfl | rfl | rfl | rfl | rfl | rfl | rfl | rfl | rfl | rfl | rfl
  · exact (hne rfl).elim
  all_goals exact ⟨rfl, by decide⟩

theorem picks_assign (hfuel : 0 < Γ.classFuel) {op : P} (n : Node) (hop : op ∈ assignOps)
    (ha : Signs D R .lv a) (hc : Signs D R .rv c) (hat : isWord (D.ty .lv a) = true)
    (hct : isWord (D.ty .rv c) = true) :
    Picks (genAssign Γ R cs n op a c) (D.forms .rv (.assign n op a c))
      fun rv => rv.Is (.of (D.ty .rv (.assign n op a c))) := by
  unfold genAssign
  by_cases hassign : op = .assign
  · have hforms : D.forms .rv (.assign n op a c) = D.forms .lv a ++ D.forms .rv c := by
      unfold Decls.forms
      rw [decisions_assign, if_pos hassign, if_neg nofun, List.append_nil, List.append_nil, List.filterMap_append]
    rw [hforms, ty_rv_assign, if_pos hassign]
    refine (ha cs).bind fun lv hlv => ?_
    rw [if_pos hassign]
    exact (hc cs).before fun rhs hrhs => picks_genStore cs hfuel n hlv hat hrhs
  · have hforms : D.forms .rv (.assign n op a c) = D.forms .lv a ++ (D.forms .rv c ++
        (opcode (compoundOp op) (decided (compoundOp op) (D.ty .lv a) (D.ty .rv c))).toList) := by
      unfold Decls.forms
      rw [decisions_assign, if_neg hassign, if_neg nofun, List.append_nil, filterMap_snoc,
        List.filterMap_append, List.append_assoc]
      rfl
    rcases compoundOp_cases hop hassign with ⟨hkeep, hcmp⟩
    rw [hforms, ty_rv_assign, if_neg hassign]
    refine (ha cs).bind fun lv hlv => ?_
    rw [if_neg hassign]
    rcases is_cases hlv with ⟨_, hnone⟩ | ⟨addr, hsome, hty⟩
    · cases hnone
    · have hty : D.ty .lv a = lv.t := Option.some.inj hty
      rw [hsome]
      dsimp only
      rw [hty] at hat hlv ⊢
      refine (picks_load hfuel addr hat).after fun old hold => (hc cs).bind fun rv hrv => ?_
      have harith := picks_arith (compoundOp op) hold hrv (isF64_word hat) (isF64_word hct) hcmp
        n.loc
      rw [arithKind_words hat hct, if_pos hkeep] at harith
      exact harith.before fun r hr => picks_genStore cs hfuel n hlv hat hr

/-- The sub-int access `q.T[i]`. -/
theorem picks_view (m n : Node) (hq : Signs D R .lv q) (hi : Signs D R .rv i)
    (hint : (D.ty .lv q).isInt = true) (hs : (subIntType s).isSome = true) :
    Picks (genIndexLV Γ R cs (.member m q s false) i)
      (D.forms .lv (.index n (.member m q s false) i))
      fun lv => lv.Is (some (D.ty .lv (.index n (.member m q s false) i))) := by
  rcases Option.isSome_iff_exists.mp hs with ⟨sub, hsub⟩
  have hforms : D.forms .lv (.index n (.member m q s false) i) = D.forms .lv q ++ D.forms .rv i :=
    List.filterMap_append
  rw [hforms, ty_view, hsub]
  unfold genIndexLV
  refine Picks.before (Q := fun o => ∃ lv : LV, o = some lv ∧ lv.Is (some sub)) ?_ ?_
  · unfold genSubIntLV
    dsimp only
    rw [hsub]
    refine (hq cs).bind fun lv hlv => ?_
    rcases is_cases hlv with ⟨_, hnone⟩ | ⟨addr, hsome, hty⟩
    · cases hnone
    · have hty : D.ty .lv q = lv.t := Option.some.inj hty
      rw [hsome]
      dsimp only
      rw [← hty, hint, Bool.true_or, if_pos rfl]
      refine (hi cs).before fun iv hiv => (picks_convert iv true).after fun x hx => ?_
      refine (Picks.of (total_create _) (codes_create _)).after fun off _ => ?_
      refine (Picks.of (total_create _) (codes_create _)).after fun z _ => .pure ?_
      exact ⟨_, rfl, is_lv z sub⟩
  · rintro _ ⟨lv, rfl, hlv⟩
    exact .pure hlv

/-- The sub-int access `q.T`. -/
theorem picks_first (n : Node) (hq : Signs D R .lv q) (hint : (D.ty .lv q).isInt = true)
    (hs : (subIntType s).isSome = true) : Picks (genMemberLV Γ R cs n q s false)
      (D.forms .lv (.member n q s false))
      fun lv => lv.Is (some (D.ty .lv (.member n q s false))) := by
  rcases Option.isSome_iff_exists.mp hs with ⟨sub, hsub⟩
  rw [ty_first, hsub]
  unfold genMemberLV
  dsimp only
  rw [if_neg Bool.false_ne_true]
  refine Picks.before (l := D.forms .lv q) (hq cs) fun lv hlv => ?_
  rcases is_cases hlv with ⟨_, hnone⟩ | ⟨addr, hsome, hty⟩
  · cases hnone
  · have hty : D.ty .lv q = lv.t := Option.some.inj hty
    rw [hty] at hint
    rw [hsome]
    cases ht : lv.t with
    | int m uns =>
        refine Picks.after (Q := fun o => o = some (addr, some (.int m uns))) (.pure rfl) ?_
        rintro _ rfl
        dsimp only
        rw [hsub]
        exact .pure (is_lv addr sub)
    | _ =>
        rw [ht] at hint
        cases hint

theorem picks_cast (n : Node) (hk : Signs D R .rv k) (ht : isWord t = true) :
    Picks (genExprStep Γ R cs (.cast n k t)) (D.forms .rv k) fun rv => rv.Is (.of t) := by
  unfold genExprStep
  refine (hk cs).before fun v hv => ?_
  have hmade : Picks (do return (⟨some (← convert v t), t⟩ : RV)) [] fun rv => rv.Is (.of t) :=
    (picks_convert v true).after fun w hw => .pure (is_made hw)
  rcases isWord_cases ht with ⟨m, uns, rfl⟩ | ⟨u, rfl⟩
  · exact hmade
  · exact hmade

theorem picks_castLV (n : Node) (hk : Signs D R .lv k) :
    Picks (genLValueStep Γ R cs (.cast n k t)) (D.forms .lv k) fun lv => lv.Is (some t) := by
  unfold genLValueStep
  refine (hk cs).before fun lv hlv => ?_
  rcases is_cases hlv with ⟨_, hnone⟩ | ⟨addr, hsome, hty⟩
  · cases hnone
  · rw [hsome]
    exact .pure (is_lv addr t)

/-- `*k` as an lvalue. -/
theorem picks_derefLV (n : Node) (hk : Signs D R .rv k) (ht : derefLV (D.ty .rv k) = some t) :
    Picks (genLValueStep Γ R cs (.unary n .star true k)) (D.forms .rv k)
      fun lv => lv.Is (some t) := by
  unfold genLValueStep
  dsimp only
  have hstar : (decide (P.star = P.star) && true) = true := rfl
  rw [if_pos hstar]
  refine (hk cs).before fun p hp => ?_
  have haddr : ∀ elem, t = elem →
      Picks (do return (⟨some (← asPtr p.v), elem⟩ : LV)) [] fun lv => lv.Is (some t) := by
    rintro elem rfl
    exact (picks_asPtr hp).after fun addr _ => .pure (is_lv addr t)
  have hty : p.t = D.ty .rv k := hp.1
  rw [← hty] at ht
  unfold derefLV at ht
  split at ht
  · cases ht
  · next hfunc =>
      have ht := (Option.some.inj ht).symm
      cases hpt : p.t with
      | ptr elem =>
          rw [hpt] at ht hfunc
          cases elem with
          | func r ps v => exact (hfunc _ _ _ rfl).elim
          | _ => exact haddr _ ht
      | _ =>
          rw [hpt] at ht
          exact haddr _ ht

end Nodes

/-! ## Trees -/

section Trees

variable {Γ : Env} {D : Decls} {p : Pos} {e k : Expr} {X Y : Rec → Prop}

/-- The generators have the property from some depth on. -/
def Deep (Γ : Env) (X : Rec → Prop) : Prop := ∃ d₀, ∀ d, d₀ ≤ d → X (gen Γ d)

theorem Deep.always (h : ∀ R, X R) : Deep Γ X := ⟨0, fun _ _ => h _⟩

theorem Deep.and (h : Deep Γ X) (h' : Deep Γ Y) : Deep Γ fun R => X R ∧ Y R := by
  rcases h with ⟨d₀, h⟩
  rcases h' with ⟨d₁, h'⟩
  refine ⟨max d₀ d₁, ?_⟩
  intro d hd
  exact ⟨h d (Nat.le_trans (Nat.le_max_left _ _) hd), h' d (Nat.le_trans (Nat.le_max_right _ _) hd)⟩

/-- One level deeper. -/
theorem Deep.step (h : Deep Γ X) (hstep : ∀ R, X R → Y ⟨genExprStep Γ R, genLValueStep Γ R⟩) :
    Deep Γ Y := by
  rcases h with ⟨d₀, h⟩
  refine ⟨d₀ + 1, ?_⟩
  intro d hd
  cases d with
  | zero => omega
  | succ d => exact hstep _ (h d (by omega))

theorem Deep.list {β : Type} {X : β → Rec → Prop} (l : List β) (h : ∀ x ∈ l, Deep Γ (X x)) :
    Deep Γ fun R => ∀ x ∈ l, X x R := by
  induction l with
  | nil => exact .always fun R => nofun
  | cons x l ih =>
      have hx := h x List.mem_cons_self
      rcases hx.and (ih fun y hy => h y (List.mem_cons_of_mem _ hy)) with ⟨d₀, hd⟩
      refine ⟨d₀, ?_⟩
      intro d hle y hy
      rcases List.mem_cons.mp hy with rfl | hy
      · exact (hd d hle).1
      · exact (hd d hle).2 y hy

theorem forms_index (p : Pos) (n m : Node) (q i : Expr) (s : String) :
    D.forms p (.index n (.member m q s false) i) =
      D.forms .lv (.index n (.member m q s false) i) := by
  cases p <;> rfl

theorem forms_member (p : Pos) (n : Node) (q : Expr) (s : String) :
    D.forms p (.member n q s false) = D.forms .lv (.member n q s false) := by
  cases p <;> rfl

/-- The operators of an assignment whose lvalue is used. -/
theorem forms_assignLV (n : Node) (op : P) (a c : Expr) :
    D.forms .lv (.assign n op a c) = D.forms .rv (.assign n op a c) ++ D.forms .lv a := by
  unfold Decls.forms
  conv_lhs => rw [decisions_assign, if_pos (rfl : Pos.lv = Pos.lv)]
  conv_rhs => rw [decisions_assign, if_neg (nofun : ¬ Pos.rv = Pos.lv), List.append_nil]
  rw [List.filterMap_append]

theorem decisions_unary {p : P} (n : Node) (pre : Bool) (hp : p ∈ [.not, .tilde, .minus, .plus]) :
    decisions .rv (.unary n p pre k) = decisions .rv k := by
  rw [decisions_rv_unary, if_neg]
  simp only [List.mem_cons, List.not_mem_nil, or_false] at hp
  rcases hp with rfl | rfl | rfl | rfl
  all_goals decide

theorem forms_unary {p : P} (n : Node) (pre : Bool) (hp : p ∈ [.not, .tilde, .minus, .plus]) :
    D.forms .rv (.unary n p pre k) = D.forms .rv k := by
  unfold Decls.forms
  rw [decisions_unary n pre hp]

theorem decisions_step {p : P} (n : Node) (pre : Bool) (hp : p ∈ [.plusPlus, .minusMinus]) :
    decisions .rv (.unary n p pre k) = decisions .lv k ∧
      decisions .lv (.unary n p pre k) = decisions .lv k ++ decisions .lv k := by
  have hcases : p = .plusPlus ∨ p = .minusMinus := by simpa using hp
  constructor
  · rw [decisions_rv_unary, if_pos]
    rcases hcases with rfl | rfl
    all_goals decide
  · rw [decisions_lv_unary, if_neg]
    rcases hcases with rfl | rfl
    all_goals decide

theorem forms_step {p : P} (n : Node) (pre : Bool) (hp : p ∈ [.plusPlus, .minusMinus]) :
    D.forms .rv (.unary n p pre k) = D.forms .lv k ∧
      D.forms .lv (.unary n p pre k) = D.forms .lv k ++ D.forms .lv k := by
  unfold Decls.forms
  rw [(decisions_step n pre hp).1, (decisions_step n pre hp).2, List.filterMap_append]
  exact ⟨rfl, rfl⟩

theorem ty_step {p : P} (pos : Pos) (n : Node) (pre : Bool) (hp : p ∈ [.plusPlus, .minusMinus]) :
    D.ty pos (.unary n p pre k) = D.ty .lv k := by
  have hcases : p = .plusPlus ∨ p = .minusMinus := by simpa using hp
  rcases hcases with rfl | rfl
  · cases pos with
    | rv => rfl
    | lv => rw [ty_lv_unary, if_neg nofun]
  · cases pos with
    | rv => rfl
    | lv => rw [ty_lv_unary, if_neg nofun]

/-- `++` and `--`. -/
theorem genUnary_step {R : Rec} {p : P} (cs : List Nat) (n : Node) (pre : Bool)
    (hp : p ∈ [.plusPlus, .minusMinus]) :
    genUnary Γ R cs n p pre k = genStep Γ R cs n p pre k ∧
      genLValueStep Γ R cs (.unary n p pre k) =
        (genUnary Γ R cs n p pre k >>= fun _ => R.genLValue cs k) := by
  have hcases : p = .plusPlus ∨ p = .minusMinus := by simpa using hp
  rcases hcases with rfl | rfl
  · exact ⟨rfl, rfl⟩
  · exact ⟨rfl, rfl⟩

/-- **Lowering.** From some depth on the code of a tree has, in order, the forms of its
operators that the static types of the operands decide. -/
theorem signs_gen (hΓ : Γ.Declares D) (hfuel : 0 < Γ.classFuel) (h : WordTree D p e) :
    Deep Γ fun R => Signs D R p e := by
  have hload : ∀ {e : Expr}, Deep Γ (fun R => Signs D R .lv e) → isWord (D.ty .lv e) = true →
      D.forms .rv e = D.forms .lv e → D.ty .rv e = D.ty .lv e →
      (∀ R cs, genExprStep Γ R cs e = do
        let lv ← R.genLValue cs e
        match lv.addr with
        | none => return RV.zero
        | some a => loadFrom Γ a lv.t) → Deep Γ fun R => Signs D R .rv e := by
    intro e hlv hword hforms hty heq
    refine hlv.step fun R hR cs => ?_
    change Picks (genExprStep Γ R cs e) _ _
    rw [heq, hforms, hty]
    exact (hR cs).before fun lv hlv => picks_loadLV hfuel hlv hword
  have hleaf : Deep Γ fun _ => True := .always fun _ => trivial
  induction h with
  | int n x | char n x | sizeofType n t => exact hleaf.step fun R _ cs => .pure ⟨rfl, rfl, rfl⟩
  | @sizeofVar s t n m h =>
      rcases hΓ _ _ h with ⟨_, a, ha⟩
      have htype : Γ.typeOf (.ident m s) = some t := by
        unfold Env.typeOf
        rw [ha]
      refine hleaf.step fun R _ cs => ?_
      change Picks (do
        return (⟨some (cI64 (Γ.size (← ofOption (Γ.typeOf (.ident m s))))), .i64⟩ : RV)) _ _
      rw [htype]
      exact .pure ⟨rfl, rfl, rfl⟩
  | var p n h =>
      rcases hΓ _ _ h with ⟨hword, a, ha⟩
      cases p with
      | rv =>
          refine hleaf.step fun R _ cs => ?_
          change Picks (genIdent Γ R cs n _) _ _
          unfold genIdent
          rw [ty_ident, h, ha]
          exact picks_load hfuel a hword
      | lv =>
          refine hleaf.step fun R _ cs => ?_
          change Picks (genLValueStep Γ R cs (.ident n _)) _ _
          unfold genLValueStep
          dsimp only
          rw [ty_ident, h, ha]
          exact .pure (is_lv a _)
  | addr n pre h ih =>
      exact ih.step fun R hR cs => picks_addressOf cs hR (h.addressed hΓ)
  | load n pre h ht hword ih =>
      refine ih.step fun R hR cs => ?_
      rw [ty_star, ht]
      exact picks_deref cs hfuel hR ht hword
  | deref n h ht hword ih =>
      refine ih.step fun R hR cs => ?_
      rw [ty_lv_unary, if_pos rfl, pointee_of_derefLV ht]
      exact picks_derefLV (Γ := Γ) cs n hR ht
  | unary n pre hp h ih =>
      refine ih.step fun R hR cs => ?_
      rw [forms_unary n pre hp]
      exact picks_unary (Γ := Γ) cs n pre hp hR (h.isWord hΓ)
  | @step p k pos n pre hp h ih =>
      refine ih.step fun R hR => ?_
      have hunary : ∀ cs, Picks (genUnary Γ R cs n p pre k) (D.forms .lv k)
          fun rv => rv.Is (.of (D.ty .lv k)) := by
        intro cs
        rw [(genUnary_step cs n pre hp).1]
        exact picks_step cs hfuel n pre hR (h.isWord hΓ)
      cases pos with
      | rv =>
          intro cs
          rw [(forms_step n pre hp).1, ty_step .rv n pre hp]
          exact hunary cs
      | lv =>
          intro cs
          change Picks (genLValueStep Γ R cs (.unary n p pre k)) _ _
          rw [(genUnary_step cs n pre hp).2, (forms_step n pre hp).2, ty_step .lv n pre hp]
          exact (hunary cs).bind fun _ _ => hR cs
  | binary n hop ha hc iha ihc =>
      exact (iha.and ihc).step fun R hR cs =>
        picks_binary cs n hop hR.1 hR.2 (ha.isWord hΓ) (hc.isWord hΓ)
  | chain n h hops hrest ih ihrest =>
      refine (ih.and (Deep.list _ ihrest)).step fun R hR cs => ?_
      exact picks_chainCmp cs n hR.1 (h.isWord hΓ) hops hR.2 fun r hr => (hrest r hr).isWord hΓ
  | assign pos n hop ha hc iha ihc =>
      have hrv : Deep Γ fun R => Signs D R .rv (.assign n _ _ _) :=
        (iha.and ihc).step fun R hR cs =>
          picks_assign cs hfuel n hop hR.1 hR.2 (ha.isWord hΓ) (hc.isWord hΓ)
      cases pos with
      | rv => exact hrv
      | lv =>
          refine (hrv.and iha).step fun R hR cs => ?_
          rw [forms_assignLV]
          exact (hR.1 cs).bind fun _ _ => hR.2 cs
  | view pos n m h hint hs hi ih ihi =>
      have hlv : Deep Γ fun R => Signs D R .lv (.index n (.member m _ _ false) _) :=
        (ih.and ihi).step fun R hR cs => picks_view cs m n hR.1 hR.2 hint hs
      cases pos with
      | rv => exact hload hlv (isWord_subIntType hs) (forms_index _ _ _ _ _ _) rfl fun _ _ => rfl
      | lv => exact hlv
  | first pos n h hint hs ih =>
      have hlv : Deep Γ fun R => Signs D R .lv (.member n _ _ false) :=
        ih.step fun R hR cs => picks_first cs n hR hint hs
      cases pos with
      | rv => exact hload hlv (isWord_subIntType hs) (forms_member _ _ _ _) rfl fun _ _ => rfl
      | lv => exact hlv
  | cast pos n h hword ih =>
      cases pos with
      | rv => exact ih.step fun R hR cs => picks_cast (Γ := Γ) cs n hR hword
      | lv => exact ih.step fun R hR cs => picks_castLV (Γ := Γ) cs n hR

end Trees

end Hlang.Codegen
