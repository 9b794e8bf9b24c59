import Hlang.Codegen.Effect

/-!
# Hlang.Codegen.Condition — conditions over operands with effects

A condition is a tree of `&&`, `||`, `^^`, `!` and chained comparisons over opaque operands.
`Condition.eval` is its meaning: its value, what is seen, and the operands it evaluated. The
code that is generated for it evaluates the same operands in the same order
(`genExpr_condition`).
-/

namespace Hlang.Codegen

open Ir Gen Machine

/-! ## Helpers on integers -/

section Helpers

variable {O : Oracle}

/-- An operand that is an integer. -/
theorem evalInt_seen {es : List Event} {ρ : Regs} {v : Value} {i : I64}
    (h : v.eval O.world ρ = .int i) : v.evalInt (O.seen es) ρ = some i := by
  rw [O.evalInt_seen]
  exact evalInt_of_eval h

theorem turns_truthy (t : Ty) (loc : SrcLoc) : Turns O (fun v => truthy ⟨some v, t⟩ loc) id
    (.int 64) (.int 1) fun x => .int (ofBool x.truth) := by
  have hcmp : Turns O (fun v => create (.icmp .ne v (cI64 0))) id (.int 64) (.int 1)
      fun x => .int (ofBool x.truth) := by
    refine .create (fun _ _ => LTy.noConfusion) (fun _ _ => rfl) ?_
    intro es ρ m v x _ hx hv
    rcases fits_int_cases hx with ⟨i, rfl⟩
    change (v.evalInt (O.seen es) ρ).bind _ = _
    rw [evalInt_seen hv]
    rfl
  refine hcmp.congr ?_
  intro v hv
  unfold truthy
  simp [hv, ptrToI64_eq hv]

theorem turns_boolToI64 : Turns O boolToI64 id (.int 1) (.int 64) id := by
  refine .create (fun x hx => ?_) (fun _ _ => rfl) ?_
  · rcases fits_int_cases hx with ⟨i, rfl⟩
    exact LTy.noConfusion
  · intro es ρ m v x _ hx hv
    rcases fits_int_cases hx with ⟨i, rfl⟩
    change (v.evalInt (O.seen es) ρ).bind _ = _
    rw [evalInt_seen hv]
    rfl

/-- A binary operator that is defined everywhere. -/
theorem turns_bin {bits : Nat} {o : BinOp} {F : I64 → I64 → I64}
    (ho : ∀ x y, o.eval x y = some (F x y)) :
    Turns₂ O (fun v w => create (.bin o v w)) id (.int bits) (.int bits) (.int bits)
      fun x y => .int (F (x.int?.getD 0) (y.int?.getD 0)) := by
  refine .create (fun _ _ _ _ => LTy.noConfusion) (fun v _ hv _ => hv) ?_
  intro es ρ m v w x y hx hy hv hw
  rcases fits_int_cases hx with ⟨i, rfl⟩
  rcases fits_int_cases hy with ⟨j, rfl⟩
  change (v.evalInt (O.seen es) ρ).bind _ = _
  rw [evalInt_seen hv]
  change (w.evalInt (O.seen es) ρ).bind _ = _
  rw [evalInt_seen hw]
  change (o.eval i j).bind _ = _
  rw [ho]
  rfl

theorem turns_lnot : Turns O (fun v => create (.bin .xor v (.int 1 1))) id (.int 1) (.int 1)
    fun x => .int (x.int?.getD 0 ^^^ 1) := by
  refine .create (fun _ _ => LTy.noConfusion) (fun v hv => hv) ?_
  intro es ρ m v x _ hx hv
  rcases fits_int_cases hx with ⟨i, rfl⟩
  change (v.evalInt (O.seen es) ρ).bind _ = _
  rw [evalInt_seen hv]
  rfl

/-- `&&` and `||`: the right operand is evaluated if the left one does not decide. -/
theorem Works.shortCircuit (isAnd : Bool) {x y : Gen Value} {t : St → Bool × St}
    {g : St → Val × St} (hx : Works O x id (.int 1) fun st => (.int (ofBool (t st).1), (t st).2))
    (hy : Works O y id (.int 64) g) :
    Works O (shortCircuit isAnd x y) (fun z => ⟨some z, .i64⟩) (.int 64) fun st =>
      if (t st).1 = isAnd then g (t st).2 else (.int (ofBool !isAnd), (t st).2) := by
  refine ⟨fun st => ?_, ?_⟩
  · split_ifs
    · exact hy.fits _
    · exact LTy.noConfusion
  · intro B hB
    rcases hx.runs B hB with ⟨av, B₁, hxeq, hxl, hxrun⟩
    -- the two blocks are the next ones; the right operand is generated in the first
    let rhs := B₁.nextBlk
    let fin := B₁.nextBlk + 1
    let br : Instr := if isAnd then .condBr av rhs fin else .condBr av fin rhs
    let B₂ := B₁.leave br 2 rhs
    have hwf₂ : B₂.Wf := hxl.wf.leave (Nat.lt_add_of_pos_right Nat.two_pos) br
    rcases hy.runs B₂ hwf₂ with ⟨cv, B₃, hyeq, hyl, hyrun⟩
    let B₄ := B₃.leave (.br fin) 0 fin
    let incoming := [(cI64 (if isAnd then 0 else 1), B₁.cur), (cv, B₃.cur)]
    rcases Builder.join_spec hxl.wf hyl.le hyl.wf (.br fin) with ⟨hle, hwf, hempty, hne⟩
    have hle₅ : B₄.Le (B₄.joined incoming) := (Builder.Le.push B₄ _).trans (.bump _)
    refine ⟨.reg (.int 64) B₄.nextReg, B₄.joined incoming, ?_, ?_, ?_⟩
    · unfold Hlang.Codegen.shortCircuit
      rw [Gen.bind_ok hxeq]
      have htail := Gen.bind_ok (f := joinShort isAnd B₁.cur fin) hyeq
      cases isAnd <;> exact htail
    · exact ⟨hxl.le.trans (hle.trans hle₅), hwf.joined incoming, Nat.lt_succ_self _, rfl,
        hyl.errors.trans hxl.errors⟩
    · intro T prev ρ st
      refine (hxrun T prev ρ st).trans hxl.le (hle.trans hle₅) ?_
      intro prev₁ ρ₁ _ hav
      have hlog₂ : B₂.log <+: (B₄.joined incoming).log :=
        hyl.le.log.trans ((List.prefix_append _ _).trans (List.prefix_append _ _))
      -- it is enough to come to the last block from a known one, with the value there
      have hjoin : ∀ (e : Value × Blk) (st' : St) (z : Val), incoming.find? (·.2 = e.2) = some e →
          Flows O T (B₄.joined incoming).log B₁.nextReg B₁.point prev₁ ρ₁ (t st).2 (fin, 0) st'
            (fun prev' ρ' => prev' = e.2 ∧ e.1.eval O.world ρ' = z) →
          Carries O T B₁ (B₄.joined incoming) prev₁ ρ₁ (t st).2 st' fun ρ' =>
            (Value.reg (.int 64) B₄.nextReg).eval O.world ρ' = z := by
        intro e st' z he hflow
        refine hflow.trans hle.reg ?_
        rintro prev' ρ' _ ⟨rfl, hz⟩
        exact flows_phi hempty he hz
      -- where the conditional branch goes
      have hbr : eventStep O T B₂.log (Point.at B₁.point prev₁ ρ₁ (t st).2) =
          some (Point.at (if (t st).1 = isAnd then rhs else fin, 0) B₁.cur ρ₁ (t st).2) := by
        have hcode : (B₂.log.code B₁.point.1)[B₁.point.2]? = some br := code_leave B₁ br 2 rhs
        cases isAnd with
        | true => exact step_condBr hcode _ hav
        | false =>
            refine (step_condBr hcode _ hav).trans ?_
            cases (t st).1 <;> rfl
      by_cases hdec : (t st).1 = isAnd
      · rw [if_pos hdec] at hbr ⊢
        refine hjoin (cv, B₃.cur) _ _ (by simp [incoming, Ne.symm hne]) ?_
        have hstart : B₂.point = (rhs, 0) := point_empty (Builder.code_leave_new hxl.wf br 2)
        have hlog₃ : B₃.log <+: (B₄.joined incoming).log :=
          (List.prefix_append _ _).trans (List.prefix_append _ _)
        have hback : ((B₄.joined incoming).log.code B₃.point.1)[B₃.point.2]? = some (.br fin) :=
          code_extend (code_leave B₃ (.br fin) 0 fin) (List.prefix_append _ _)
        have hjump : Flows O T (B₄.joined incoming).log B₁.nextReg B₁.point prev₁ ρ₁ (t st).2
            B₂.point (t st).2 fun _ ρ' => ρ' = ρ₁ := by
          rw [hstart]
          exact .step (eventStep_extend hlog₂ hbr) (fun _ _ => rfl) rfl
        refine hjump.trans (Nat.le_refl _) ?_
        rintro prev₂ ρ₂ - rfl
        refine ((hyrun T prev₂ ρ₂ (t st).2).extend hlog₃).trans (Nat.le_refl _) ?_
        intro prev₃ ρ₃ _ hz
        exact .step (eventStep_br hback prev₃ ρ₃ _) (fun _ _ => rfl) ⟨rfl, hz⟩
      · rw [if_neg hdec] at hbr ⊢
        refine hjoin (cI64 (if isAnd then 0 else 1), B₁.cur) _ _ (by simp [incoming]) ?_
        refine .step (eventStep_extend hlog₂ hbr) (fun _ _ => rfl) ⟨rfl, ?_⟩
        cases isAnd <;> rfl

/-- An integer compared as one without or with a sign. -/
theorem turns_cmpInt {op : P} {p : ICmp} {uns : Bool}
    (hop : ∀ v w, cmpInt op uns v w = create (.icmp p v w)) (ta tc : Ty)
    (huns : (isU64 ta || isU64 tc) = uns) :
    Turns₂ O (fun v w => cmp op ⟨some v, ta⟩ ⟨some w, tc⟩) id (.int 64) (.int 64) (.int 1)
      fun x y => .int (ofBool (p.eval (x.int?.getD 0) (y.int?.getD 0))) := by
  have hcreate : Turns₂ O (fun v w => create (.icmp p v w)) id (.int 64) (.int 64) (.int 1)
      fun x y => .int (ofBool (p.eval (x.int?.getD 0) (y.int?.getD 0))) := by
    refine .create (fun _ _ _ _ => LTy.noConfusion) (fun _ _ _ _ => rfl) ?_
    intro es ρ m v w x y hx hy hv hw
    rcases fits_int_cases hx with ⟨i, rfl⟩
    rcases fits_int_cases hy with ⟨j, rfl⟩
    change (v.evalInt (O.seen es) ρ).bind _ = _
    rw [evalInt_seen hv]
    change (w.evalInt (O.seen es) ρ).bind _ = _
    rw [evalInt_seen hw]
    rfl
  refine hcreate.congr ?_
  intro v w hv hw
  -- neither operand is converted
  have hconv : ∀ (z : Value) (t : Ty), z.type = .int 64 → convert ⟨some z, t⟩ .i64 false = pure z := by
    intro z t hz
    simp [convert, hz, Ty.isF64, Ty.i64, ptrToI64_eq hz]
  unfold cmp
  rw [hconv v ta hv, hconv w tc hw, huns]
  simp only [RV.isDouble, Option.any_some, hv, hw, pure_bind]
  exact hop v w

end Helpers

/-! ## The meaning of conditions -/

/-- The operators of a chain. -/
inductive Order where
  | lt | gt | le | ge
deriving DecidableEq

def Order.punct : Order → P
  | .lt => .lt
  | .gt => .gt
  | .le => .le
  | .ge => .ge

/-- The order of integers, or of naturals. -/
def Order.on {α : Type} [LT α] [LE α] [DecidableLT α] [DecidableLE α] (a b : α) : Order → Bool
  | .lt => a < b
  | .gt => b < a
  | .le => a ≤ b
  | .ge => b ≤ a

/-- A comparison of words, without a sign when one operand has none. -/
def Order.holds (o : Order) (uns : Bool) (x y : I64) : Bool :=
  if uns then o.on x.toNat y.toNat else o.on x.toInt y.toInt

mutual

/-- A condition over operands. -/
inductive Condition where
  | operand (e : Expr)
  | not (n : Node) (pre : Bool) (c : Condition)
  | and (n : Node) (a c : Condition)
  | or (n : Node) (a c : Condition)
  | xor (n : Node) (a c : Condition)
  | chain (n : Node) (first : Condition) (rest : Comparisons)

/-- The comparisons of a chain, of which there is one at least. -/
inductive Comparisons where
  | last (o : Order) (c : Condition)
  | more (o : Order) (c : Condition) (rest : Comparisons)

end

mutual

/-- The expression. -/
def Condition.toExpr : Condition → Expr
  | .operand e => e
  | .not n pre c => .unary n .not pre c.toExpr
  | .and n a c => .binary n .andAnd a.toExpr c.toExpr
  | .or n a c => .binary n .orOr a.toExpr c.toExpr
  | .xor n a c => .binary n .xorXor a.toExpr c.toExpr
  | .chain n first rest => .chainCmp n first.toExpr rest.toList

def Comparisons.toList : Comparisons → List (P × Expr)
  | .last o c => [(o.punct, c.toExpr)]
  | .more o c rest => (o.punct, c.toExpr) :: rest.toList

end

mutual

/-- The operands, from left to right. -/
def Condition.operands : Condition → List Expr
  | .operand e => [e]
  | .not _ _ c => c.operands
  | .and _ a c | .or _ a c | .xor _ a c => a.operands ++ c.operands
  | .chain _ first rest => first.operands ++ rest.operands

def Comparisons.operands : Comparisons → List Expr
  | .last _ c => c.operands
  | .more _ c rest => c.operands ++ rest.operands

end

mutual

/-- How far the tree reaches above its operands. -/
def Condition.depth : Condition → Nat
  | .operand _ => 0
  | .not _ _ c => c.depth + 1
  | .and _ a c | .or _ a c | .xor _ a c => max a.depth c.depth + 1
  | .chain _ first rest => max first.depth rest.depth + 1

def Comparisons.depth : Comparisons → Nat
  | .last _ c => c.depth
  | .more _ c rest => max c.depth rest.depth

end

/-- What the operands are: their types, and what each does when it is evaluated. -/
structure Operands where
  type : Expr → Ty
  sem : Expr → St → I64 × St

/-- A condition that was evaluated: its value, what is seen, and the operands that were
evaluated on the way. -/
structure Verdict where
  val : I64
  st : St
  evaluated : List Expr

namespace Verdict

/-- The value replaced. -/
def returns (r : Verdict) (x : I64) : Verdict := { r with val := x }

/-- One condition evaluated after another. -/
def andThen (r r' : Verdict) : Verdict := { r' with evaluated := r.evaluated ++ r'.evaluated }

/-- The value is not 0. -/
def truth (r : Verdict) : Bool := r.val ≠ 0

end Verdict

section Meaning

variable (X : Operands)

/-- The type of a condition. -/
def Condition.type : Condition → Ty
  | .operand e => X.type e
  | _ => .i64

/-- Two conditions are compared without a sign when one of them has none. -/
def unsignedPair (ta tc : Ty) : Bool := isU64 ta || isU64 tc

mutual

/-- The meaning of a condition: the right side of `&&` and `||` counts when the left one does
not decide, and a chain goes on while its comparisons hold. -/
def Condition.eval : Condition → St → Verdict
  | .operand e, st => ⟨(X.sem e st).1, (X.sem e st).2, [e]⟩
  | .not _ _ c, st => (c.eval st).returns (ofBool !(c.eval st).truth)
  | .and _ a c, st =>
      if (a.eval st).truth then
        ((a.eval st).andThen (c.eval (a.eval st).st)).returns
          (ofBool (c.eval (a.eval st).st).truth)
      else (a.eval st).returns 0
  | .or _ a c, st =>
      if (a.eval st).truth then (a.eval st).returns 1
      else
        ((a.eval st).andThen (c.eval (a.eval st).st)).returns
          (ofBool (c.eval (a.eval st).st).truth)
  | .xor _ a c, st =>
      ((a.eval st).andThen (c.eval (a.eval st).st)).returns
        (ofBool ((a.eval st).truth != (c.eval (a.eval st).st).truth))
  | .chain _ first rest, st =>
      (first.eval st).andThen (rest.eval (first.type X) (first.eval st).val (first.eval st).st)

/-- The comparisons after an operand of the type `t` and the value `x`. -/
def Comparisons.eval : Comparisons → Ty → I64 → St → Verdict
  | .last o c, t, x, st =>
      (c.eval st).returns (ofBool (o.holds (unsignedPair t (c.type X)) x (c.eval st).val))
  | .more o c rest, t, x, st =>
      if o.holds (unsignedPair t (c.type X)) x (c.eval st).val then
        (c.eval st).andThen (rest.eval (c.type X) (c.eval st).val (c.eval st).st)
      else (c.eval st).returns 0

end

theorem Condition.eval_and (n : Node) (a c : Condition) (st : St) :
    (Condition.and n a c).eval X st = if (a.eval X st).truth then
      ((a.eval X st).andThen (c.eval X (a.eval X st).st)).returns
        (ofBool (c.eval X (a.eval X st).st).truth)
    else (a.eval X st).returns 0 := by rw [Condition.eval]

theorem Condition.eval_or (n : Node) (a c : Condition) (st : St) :
    (Condition.or n a c).eval X st = if (a.eval X st).truth then (a.eval X st).returns 1
    else
      ((a.eval X st).andThen (c.eval X (a.eval X st).st)).returns
        (ofBool (c.eval X (a.eval X st).st).truth) := by rw [Condition.eval]

theorem Comparisons.eval_more (o : Order) (c : Condition) (rest : Comparisons) (t : Ty) (x : I64)
    (st : St) : (Comparisons.more o c rest).eval X t x st =
      if o.holds (unsignedPair t (c.type X)) x (c.eval X st).val then
        (c.eval X st).andThen (rest.eval X (c.type X) (c.eval X st).val (c.eval X st).st)
      else (c.eval X st).returns 0 := by rw [Comparisons.eval]

end Meaning

/-! ## The code of conditions -/

section Code

variable {O : Oracle} {Γ : Env} {X : Operands}

theorem Order.holds_eq (o : Order) (uns : Bool) : ∃ p : ICmp,
    (∀ v w, cmpInt o.punct uns v w = create (.icmp p v w)) ∧ ∀ x y, p.eval x y = o.holds uns x y := by
  cases uns with
  | true =>
      cases o with
      | lt => exact ⟨.ult, fun _ _ => rfl, fun _ _ => rfl⟩
      | gt => exact ⟨.ugt, fun _ _ => rfl, fun _ _ => rfl⟩
      | le => exact ⟨.ule, fun _ _ => rfl, fun _ _ => rfl⟩
      | ge => exact ⟨.uge, fun _ _ => rfl, fun _ _ => rfl⟩
  | false =>
      cases o with
      | lt => exact ⟨.slt, fun _ _ => rfl, fun _ _ => rfl⟩
      | gt => exact ⟨.sgt, fun _ _ => rfl, fun _ _ => rfl⟩
      | le => exact ⟨.sle, fun _ _ => rfl, fun _ _ => rfl⟩
      | ge => exact ⟨.sge, fun _ _ => rfl, fun _ _ => rfl⟩

theorem turns_cmp (o : Order) (ta tc : Ty) :
    Turns₂ O (fun v w => cmp o.punct ⟨some v, ta⟩ ⟨some w, tc⟩) id (.int 64) (.int 64) (.int 1)
      fun x y => .int (ofBool (o.holds (unsignedPair ta tc) (x.int?.getD 0) (y.int?.getD 0))) := by
  rcases o.holds_eq (unsignedPair ta tc) with ⟨p, hop, heval⟩
  have hcmp := turns_cmpInt (O := O) hop ta tc rfl
  simp only [heval] at hcmp
  exact hcmp

/-- The code of `e` works as the operand says, at every depth from `d₀` on. -/
def Operands.Opaque (X : Operands) (O : Oracle) (Γ : Env) (d₀ : Nat) (e : Expr) : Prop :=
  ∀ d, d₀ ≤ d → ∀ cs, Works O ((gen Γ d).genExpr cs e) (fun v => ⟨some v, X.type e⟩) (.int 64)
    fun st => (.int (X.sem e st).1, (X.sem e st).2)

/-- The code `x` works as the condition. -/
def Condition.Coded (O : Oracle) (X : Operands) (c : Condition) (x : Gen RV) : Prop :=
  Works O x (fun v => ⟨some v, c.type X⟩) (.int 64) fun st => (.int (c.eval X st).val, (c.eval X st).st)

theorem truth_int (x : I64) : (Val.int x).truth = decide (x ≠ 0) := rfl

theorem ofBool_xor_one (b : Bool) : ofBool b ^^^ 1 = ofBool !b := by
  cases b <;> rfl

theorem ofBool_xor (b b' : Bool) : ofBool b ^^^ ofBool b' = ofBool (b != b') := by
  cases b <;> cases b' <;> rfl

/-- A condition tested for its truth. -/
theorem Condition.Coded.truthy {c : Condition} {x : Gen RV} (h : c.Coded O X x) (loc : SrcLoc) :
    Works O (x >>= fun rv => Codegen.truthy rv loc) id (.int 1) fun st =>
      (.int (ofBool (c.eval X st).truth), (c.eval X st).st) :=
  (Works.bind h (h := fun rv => Codegen.truthy rv loc) (turns_truthy (c.type X) loc)).congr
    fun _ => rfl

theorem coded_not {c : Condition} {d : Nat} {cs : List Nat} (n : Node) (pre : Bool)
    (h : c.Coded O X ((gen Γ d).genExpr cs c.toExpr)) :
    (Condition.not n pre c).Coded O X ((gen Γ (d + 1)).genExpr cs (Condition.not n pre c).toExpr) := by
  have hturn := (((turns_truthy (O := O) (c.type X) n.loc).bind turns_lnot).bind
    turns_boolToI64).wrap fun z => (⟨some z, .i64⟩ : RV)
  have hworks := Works.bind h (h := fun rv => do
    let z ← Codegen.truthy rv n.loc
    return ⟨some (← boolToI64 (← create (.bin .xor z (.int 1 1)))), .i64⟩) (hturn.congr fun v _ => by
      simp only [bind_assoc])
  refine Works.congr (g := fun st => (.int ((Condition.not n pre c).eval X st).val, _)) hworks ?_
  intro st
  change (Val.int (ofBool !(c.eval X st).truth), (c.eval X st).st) =
    (Val.int (ofBool (Val.int (c.eval X st).val).truth ^^^ 1), (c.eval X st).st)
  rw [ofBool_xor_one]
  rfl

/-- `&&` and `||`. -/
theorem coded_short {a c : Condition} {d : Nat} {cs : List Nat} (isAnd : Bool) (n : Node)
    (ha : a.Coded O X ((gen Γ d).genExpr cs a.toExpr))
    (hc : c.Coded O X ((gen Γ d).genExpr cs c.toExpr)) :
    (if isAnd then Condition.and n a c else .or n a c).Coded O X
      ((gen Γ (d + 1)).genExpr cs (if isAnd then Condition.and n a c else .or n a c).toExpr) := by
  have hy : Works O ((gen Γ d).genExpr cs c.toExpr >>= fun rv =>
      Codegen.truthy rv n.loc >>= boolToI64) id (.int 64) fun st =>
        (.int (ofBool (c.eval X st).truth), (c.eval X st).st) :=
    (Works.bind hc (h := fun rv => Codegen.truthy rv n.loc >>= boolToI64)
      ((turns_truthy (c.type X) n.loc).bind turns_boolToI64)).congr fun _ => rfl
  have hshort := Works.shortCircuit isAnd
    (t := fun st => ((a.eval X st).truth, (a.eval X st).st)) (ha.truthy n.loc) hy
  have hgen : (gen Γ (d + 1)).genExpr cs (if isAnd then Condition.and n a c else .or n a c).toExpr =
      (gen Γ (d + 1)).genExpr cs
        (.binary n (if isAnd then .andAnd else .orOr) a.toExpr c.toExpr) := by
    cases isAnd <;> rfl
  have htype : (if isAnd then Condition.and n a c else .or n a c).type X = .i64 := by
    cases isAnd <;> rfl
  unfold Condition.Coded
  rw [hgen, htype, genBinary_short]
  refine hshort.congr ?_
  intro st
  cases isAnd with
  | true =>
      change (Val.int ((Condition.and n a c).eval X st).val, ((Condition.and n a c).eval X st).st) =
        if (a.eval X st).truth = true then _ else _
      rw [Condition.eval_and]
      split_ifs <;> rfl
  | false =>
      change (Val.int ((Condition.or n a c).eval X st).val, ((Condition.or n a c).eval X st).st) =
        if (a.eval X st).truth = false then _ else _
      rw [Condition.eval_or]
      cases htruth : (a.eval X st).truth <;> rfl

theorem coded_xor {a c : Condition} {d : Nat} {cs : List Nat} (n : Node)
    (ha : a.Coded O X ((gen Γ d).genExpr cs a.toExpr))
    (hc : c.Coded O X ((gen Γ d).genExpr cs c.toExpr)) :
    (Condition.xor n a c).Coded O X ((gen Γ (d + 1)).genExpr cs (Condition.xor n a c).toExpr) := by
  have hturn := ((turns_truthy (O := O) (a.type X) n.loc).bind₂ (turns_truthy (c.type X) n.loc)
    ((turns_bin (o := .xor) fun _ _ => rfl).andThen turns_boolToI64)).wrap fun z =>
      (⟨some z, .i64⟩ : RV)
  have hworks := Works.bind₂ ha hc (h := fun x y => do
    let x ← Codegen.truthy x n.loc
    let y ← Codegen.truthy y n.loc
    return ⟨some (← boolToI64 (← create (.bin .xor x y))), .i64⟩) (hturn.congr fun v w _ _ => by
      simp only [bind_assoc])
  refine Works.congr (g := fun st => (.int ((Condition.xor n a c).eval X st).val, _)) hworks ?_
  intro st
  change (Val.int (ofBool ((a.eval X st).truth != (c.eval X (a.eval X st).st).truth)), _) =
    (Val.int (ofBool (Val.int (a.eval X st).val).truth ^^^
      ofBool (Val.int (c.eval X (a.eval X st).st).val).truth), _)
  rw [ofBool_xor]
  rfl

/-! ### Chains -/

/-- What the loop of `genChainCmp` emits after the operand `v` has the value `x`: the code goes
to the block at the end of the chain, with the result under the block it comes from. -/
def ChainRuns (O : Oracle) (fin : Blk) (v : Value) (r : I64 → St → Verdict)
    (x : Gen (List (Value × Blk))) : Prop :=
  ∀ B : Builder, B.Wf → B.Pending fin → v.Below B.nextReg → v.type = .int 64 →
    ∃ incoming B', x B = .ok (incoming, B'.push (.br fin)) ∧ B.Le B' ∧ B'.Wf ∧
      B'.errors = B.errors ∧ (∀ e ∈ incoming, e.2 = B.cur ∨ B.nextBlk ≤ e.2) ∧
      ∀ T prev ρ st i, v.eval O.world ρ = .int i → ∃ e, incoming.find? (·.2 = e.2) = some e ∧
        Flows O T (B'.push (.br fin)).log B.nextReg B.point prev ρ st (fin, 0) (r i st).st
          fun prev' ρ' => prev' = e.2 ∧ e.1.eval O.world ρ' = .int (r i st).val

/-- The last comparison. -/
theorem chainRuns_last {c : Condition} {d : Nat} {cs : List Nat} {fin : Blk} {v : Value}
    (o : Order) (t : Ty) (hc : c.Coded O X ((gen Γ d).genExpr cs c.toExpr)) :
    ChainRuns O fin v ((Comparisons.last o c).eval X t)
      (genChain (gen Γ d) cs fin ⟨some v, t⟩ (Comparisons.last o c).toList) := by
  intro B hB hfin hv htype
  rcases hc.runs B hB with ⟨w, B₁, hgen, hl, hrun⟩
  rcases (turns_cmp (O := O) o t (c.type X)).runs B₁ v w hl.wf (hv.mono hl.le.reg) htype hl.below
    hl.type with ⟨b, B₂, hcmp, hl', hrun'⟩
  rcases turns_boolToI64.runs B₂ b hl'.wf hl'.below hl'.type with ⟨z, B₃, hbool, hl'', hrun''⟩
  have hcur : B₃.cur = B₂.cur := by
    rcases Prod.mk.inj (Except.ok.inj hbool) with ⟨_, rfl⟩
    rfl
  have hle := hl.le.trans (hl'.le.trans hl''.le)
  refine ⟨[(z, B₃.cur)], B₃, ?_, hle, hl''.wf, hl''.errors.trans (hl'.errors.trans hl.errors),
    ?_, ?_⟩
  · change ((gen Γ d).genExpr cs c.toExpr >>= _) B = _
    rw [Gen.bind_ok hgen]
    rw [Gen.bind_ok hcmp]
    change (insertBlock >>= fun blk => boolToI64 b >>= fun z => emit (.br fin) >>= fun _ =>
      pure [(z, blk)]) B₂ = _
    rw [Gen.bind_ok (show insertBlock B₂ = .ok (B₂.cur, B₂) from rfl), Gen.bind_ok hbool, hcur]
    rfl
  · intro e he
    rcases List.mem_singleton.mp he with rfl
    exact hle.cur
  · intro T prev ρ st i hi
    refine ⟨(z, B₃.cur), by simp, ?_⟩
    have hcode : ((B₃.push (.br fin)).log.code B₃.point.1)[B₃.point.2]? = some (.br fin) :=
      code_leave B₃ (.br fin) 0 fin
    have hlog : B₃.log <+: (B₃.push (.br fin)).log := List.prefix_append _ _
    have hvalue : Carries O T B B₃ prev ρ st (c.eval X st).st fun ρ' => z.eval O.world ρ' =
        .int (ofBool (o.holds (unsignedPair t (c.type X)) i (c.eval X st).val)) := by
      refine (hrun T prev ρ st).trans hl.le (hl'.le.trans hl''.le) ?_
      intro prev₁ ρ₁ hregs hw
      refine (hrun' T prev₁ ρ₁ _ (.int i) _ LTy.noConfusion LTy.noConfusion
        (eval_kept hv hregs hi) hw).trans hl'.le hl''.le ?_
      intro prev₂ ρ₂ _ hb
      exact hrun'' T prev₂ ρ₂ _ _ LTy.noConfusion hb
    refine (Flows.extend hvalue hlog).trans hle.reg ?_
    intro prev' ρ' _ hz
    exact .step (eventStep_br hcode prev' ρ' _) (fun _ _ => rfl) ⟨rfl, hz⟩

/-- A comparison with others behind it. -/
theorem chainRuns_more {c : Condition} {d : Nat} {cs : List Nat} {fin : Blk} {v : Value}
    {rest : Comparisons} (o : Order) (t : Ty) (hc : c.Coded O X ((gen Γ d).genExpr cs c.toExpr))
    (hrest : ∀ w, ChainRuns O fin w (rest.eval X (c.type X))
      (genChain (gen Γ d) cs fin ⟨some w, c.type X⟩ rest.toList)) :
    ChainRuns O fin v ((Comparisons.more o c rest).eval X t)
      (genChain (gen Γ d) cs fin ⟨some v, t⟩ (Comparisons.more o c rest).toList) := by
  intro B hB hfin hv htype
  rcases hc.runs B hB with ⟨w, B₁, hgen, hl, hrun⟩
  rcases (turns_cmp (O := O) o t (c.type X)).runs B₁ v w hl.wf (hv.mono hl.le.reg) htype hl.below
    hl.type with ⟨b, B₂, hcmp, hl', hrun'⟩
  let next := B₂.nextBlk
  let br : Instr := .condBr b next fin
  let B₃ := B₂.leave br 1 next
  have hle₃ : B₂.Le B₃ := (Builder.Le.refl B₂).leave (Nat.le_refl _) br 1
  have hwf₃ : B₃.Wf := hl'.wf.leave (Nat.lt_succ_self _) br
  have hfin₃ : B₃.Pending fin := ((hl.le.trans hl'.le).pending hfin).leave br
  have hw₃ : w.Below B₃.nextReg := hl.below.mono (hl'.le.trans hle₃).reg
  rcases hrest w B₃ hwf₃ hfin₃ hw₃ hl.type with ⟨incoming, B₄, hchain, hle₄, hwf₄, herr, hblks, hflow⟩
  have hle := hl.le.trans hl'.le
  -- the blocks of the rest are new ones
  have hnew : ∀ e ∈ incoming, B₂.nextBlk ≤ e.2 := by
    intro e he
    rcases hblks e he with hb | hb
    · exact Nat.le_of_eq hb.symm
    · exact Nat.le_trans (Nat.le_succ _) hb
  refine ⟨(cI64 0, B₂.cur) :: incoming, B₄, ?_, hle.trans (hle₃.trans hle₄), hwf₄,
    herr.trans (hl'.errors.trans hl.errors), ?_, ?_⟩
  · have hcons : rest.toList.isEmpty = false := by
      cases rest <;> rfl
    change ((gen Γ d).genExpr cs c.toExpr >>= _) B = _
    rw [Gen.bind_ok hgen]
    rw [Gen.bind_ok hcmp, hcons]
    exact Gen.bind_ok (f := fun incoming => pure ((cI64 0, B₂.cur) :: incoming)) hchain
  · intro e he
    rcases List.mem_cons.mp he with rfl | he
    · exact hle.cur
    · exact .inr (Nat.le_trans hle.blk (hnew e he))
  · intro T prev ρ st i hi
    have hlog₃ : B₃.log <+: (B₄.push (.br fin)).log := hle₄.log.trans (List.prefix_append _ _)
    have hcode : (B₃.log.code B₂.point.1)[B₂.point.2]? = some br := code_leave B₂ br 1 next
    have hstart : B₃.point = (next, 0) := point_empty (Builder.code_leave_new hl'.wf br 1)
    let holds := o.holds (unsignedPair t (c.type X)) i (c.eval X st).val
    have hbranch : Flows O T (B₄.push (.br fin)).log B.nextReg B.point prev ρ st
        (if holds then next else fin, 0) (c.eval X st).st fun prev' ρ' => prev' = B₂.cur ∧
          w.eval O.world ρ' = .int (c.eval X st).val := by
      refine (Flows.extend (hrun T prev ρ st) ?_).trans hl.le.reg ?_
      · exact hl'.le.log.trans (hle₃.log.trans hlog₃)
      intro prev₁ ρ₁ hregs hw
      refine ((hrun' T prev₁ ρ₁ _ (.int i) _ LTy.noConfusion LTy.noConfusion
        (eval_kept hv hregs hi) hw).extend (hle₃.log.trans hlog₃)).trans (Nat.le_refl _) ?_
      intro prev₂ ρ₂ hregs' hb
      refine .step (eventStep_extend hlog₃ (step_condBr hcode _ hb)) (fun _ _ => rfl) ⟨rfl, ?_⟩
      exact eval_kept hl.below hregs' hw
    rw [Comparisons.eval_more]
    cases hholds : holds with
    | true =>
        rw [hholds, if_pos rfl] at hbranch
        rw [if_pos hholds]
        rcases hbranch with ⟨k, _, ρ₁, hrun₁, hregs₁, rfl, hw⟩
        rcases hflow T B₂.cur ρ₁ (c.eval X st).st _ hw with ⟨e, he, hgo⟩
        rw [hstart] at hgo
        have hfirst : Flows O T (B₄.push (.br fin)).log B.nextReg B.point prev ρ st (next, 0)
            (c.eval X st).st fun prev' ρ' => prev' = B₂.cur ∧ ρ' = ρ₁ :=
          ⟨k, B₂.cur, ρ₁, hrun₁, hregs₁, rfl, rfl⟩
        refine ⟨e, ?_, hfirst.trans (hle.trans hle₃).reg ?_⟩
        · have hold : B₂.cur ≠ e.2 := Nat.ne_of_lt
            (Nat.lt_of_lt_of_le hl'.wf.cur (hnew e (List.mem_of_find?_eq_some he)))
          rw [List.find?_cons_of_neg (by simpa using hold)]
          exact he
        · rintro _ _ _ ⟨rfl, rfl⟩
          exact hgo
    | false =>
        rw [hholds, if_neg Bool.false_ne_true] at hbranch
        rw [if_neg (ne_true_of_eq_false hholds)]
        refine ⟨(cI64 0, B₂.cur), by simp, hbranch.weaken ?_⟩
        rintro prev' ρ' ⟨rfl, _⟩
        exact ⟨rfl, rfl⟩

/-- The code of a chain, after which the phi takes the value of the block the run comes from. -/
theorem coded_chain {first : Condition} {rest : Comparisons} {d : Nat} {cs : List Nat} (n : Node)
    (hfirst : first.Coded O X ((gen Γ d).genExpr cs first.toExpr))
    (hrest : ∀ fin v, ChainRuns O fin v (rest.eval X (first.type X))
      (genChain (gen Γ d) cs fin ⟨some v, first.type X⟩ rest.toList)) :
    (Condition.chain n first rest).Coded O X
      ((gen Γ (d + 1)).genExpr cs (Condition.chain n first rest).toExpr) := by
  refine ⟨fun _ => LTy.noConfusion, ?_⟩
  intro B hB
  let fin := B.nextBlk
  let B₁ := B.alloc 1
  have hle₁ : B.Le B₁ := ⟨List.prefix_refl _, Nat.le_succ _, Nat.le_refl _, .inl rfl,
    fun _ _ _ => rfl, List.prefix_refl _⟩
  have hfin₁ : B₁.Pending fin := hB.pending (Nat.le_refl _) (Nat.lt_succ_self _)
  rcases hfirst.runs B₁ (hB.alloc 1) with ⟨v, B₂, hgen, hl, hrun⟩
  rcases hrest fin v B₂ hl.wf (hl.le.pending hfin₁) hl.below hl.type with
    ⟨incoming, B₃, hchain, hle₃, hwf₃, herr, _, hflow⟩
  have hfin₃ : B₃.Pending fin := (hl.le.trans hle₃).pending hfin₁
  let B₄ := B₃.leave (.br fin) 0 fin
  have hle₄ : B.Le B₄ := (hle₁.trans (hl.le.trans hle₃)).leave (Nat.le_refl _) (.br fin) 0
  have hwf₄ : B₄.Wf := hwf₃.leave hfin₃.lt (.br fin)
  have hempty : B₄.code B₄.cur = [] := by
    change B₄.code fin = []
    rw [Builder.code_leave_other hfin₃.ne]
    exact hfin₃.code
  have hle₅ : B₄.Le (B₄.joined incoming) := (Builder.Le.push B₄ _).trans (.bump _)
  refine ⟨.reg (.int 64) B₄.nextReg, B₄.joined incoming, ?_, ?_, ?_⟩
  · have hall : genChainCmp (gen Γ d) cs first.toExpr rest.toList B =
        .ok (⟨some (.reg (.int 64) B₄.nextReg), .i64⟩, B₄.joined incoming) := by
      unfold genChainCmp
      rw [Gen.bind_ok (show newBlock B = .ok (fin, B₁) from rfl), Gen.bind_ok hgen,
        Gen.bind_ok hchain]
      rfl
    exact hall
  · exact ⟨hle₄.trans hle₅, hwf₄.joined incoming, Nat.lt_succ_self _, rfl, herr.trans hl.errors⟩
  · intro T prev ρ st
    have hlog : B₂.log <+: (B₄.joined incoming).log :=
      hle₃.log.trans ((List.prefix_append _ _).trans (List.prefix_append _ _))
    refine (Flows.extend (hrun T prev ρ st) hlog).trans (hle₁.trans hl.le).reg ?_
    intro prev₁ ρ₁ _ hv
    rcases hflow T prev₁ ρ₁ (first.eval X st).st _ hv with ⟨e, he, hgo⟩
    refine (hgo.extend (List.prefix_append _ _)).trans (hle₃.trans (.push B₃ (.br fin))).reg ?_
    rintro prev₂ ρ₂ _ ⟨rfl, hval⟩
    exact flows_phi hempty he hval

mutual

/-- The code of a condition whose operands are opaque. -/
theorem coded_condition {d₀ : Nat} (cs : List Nat) : ∀ (c : Condition) (d : Nat),
    d₀ + c.depth ≤ d → (∀ e ∈ c.operands, X.Opaque O Γ d₀ e) →
      c.Coded O X ((gen Γ d).genExpr cs c.toExpr)
  | .operand e, d, hd, he => he e (List.mem_singleton.mpr rfl) d hd cs
  | .not n pre c, d, hd, he => by
      rcases Nat.exists_eq_add_one.mpr (Nat.lt_of_lt_of_le (Nat.succ_pos _) hd) with ⟨d', rfl⟩
      exact coded_not n pre (coded_condition cs c d' (Nat.le_of_succ_le_succ hd) he)
  | .and n a c, d, hd, he => by
      rcases Nat.exists_eq_add_one.mpr (Nat.lt_of_lt_of_le (Nat.succ_pos _) hd) with ⟨d', rfl⟩
      have hmax : d₀ + max a.depth c.depth ≤ d' := Nat.le_of_succ_le_succ hd
      have ha : d₀ + a.depth ≤ d' := by omega
      have hc : d₀ + c.depth ≤ d' := by omega
      refine coded_short true n (coded_condition cs a d' ha ?_)
        (coded_condition cs c d' hc ?_)
      · exact fun e h => he e (List.mem_append_left _ h)
      · exact fun e h => he e (List.mem_append_right _ h)
  | .or n a c, d, hd, he => by
      rcases Nat.exists_eq_add_one.mpr (Nat.lt_of_lt_of_le (Nat.succ_pos _) hd) with ⟨d', rfl⟩
      have hmax : d₀ + max a.depth c.depth ≤ d' := Nat.le_of_succ_le_succ hd
      have ha : d₀ + a.depth ≤ d' := by omega
      have hc : d₀ + c.depth ≤ d' := by omega
      refine coded_short false n (coded_condition cs a d' ha ?_)
        (coded_condition cs c d' hc ?_)
      · exact fun e h => he e (List.mem_append_left _ h)
      · exact fun e h => he e (List.mem_append_right _ h)
  | .xor n a c, d, hd, he => by
      rcases Nat.exists_eq_add_one.mpr (Nat.lt_of_lt_of_le (Nat.succ_pos _) hd) with ⟨d', rfl⟩
      have hmax : d₀ + max a.depth c.depth ≤ d' := Nat.le_of_succ_le_succ hd
      have ha : d₀ + a.depth ≤ d' := by omega
      have hc : d₀ + c.depth ≤ d' := by omega
      refine coded_xor n (coded_condition cs a d' ha ?_)
        (coded_condition cs c d' hc ?_)
      · exact fun e h => he e (List.mem_append_left _ h)
      · exact fun e h => he e (List.mem_append_right _ h)
  | .chain n first rest, d, hd, he => by
      rcases Nat.exists_eq_add_one.mpr (Nat.lt_of_lt_of_le (Nat.succ_pos _) hd) with ⟨d', rfl⟩
      have hmax : d₀ + max first.depth rest.depth ≤ d' := Nat.le_of_succ_le_succ hd
      have hfirst : d₀ + first.depth ≤ d' := by omega
      have hrest : d₀ + rest.depth ≤ d' := by omega
      refine coded_chain n (coded_condition cs first d' hfirst ?_) fun fin v =>
        chainRuns_comparisons cs rest d' hrest ?_ fin v (first.type X)
      · exact fun e h => he e (List.mem_append_left _ h)
      · exact fun e h => he e (List.mem_append_right _ h)

/-- The code of comparisons whose operands are opaque. -/
theorem chainRuns_comparisons {d₀ : Nat} (cs : List Nat) : ∀ (r : Comparisons) (d : Nat),
    d₀ + r.depth ≤ d → (∀ e ∈ r.operands, X.Opaque O Γ d₀ e) → ∀ (fin : Blk) (v : Value) (t : Ty),
      ChainRuns O fin v (r.eval X t) (genChain (gen Γ d) cs fin ⟨some v, t⟩ r.toList)
  | .last o c, d, hd, he, fin, v, t => chainRuns_last o t (coded_condition cs c d hd he)
  | .more o c rest, d, hd, he, fin, v, t => by
      have hmax : d₀ + max c.depth rest.depth ≤ d := hd
      have hc : d₀ + c.depth ≤ d := by omega
      have hrest : d₀ + rest.depth ≤ d := by omega
      refine chainRuns_more o t (coded_condition cs c d hc ?_) fun w =>
        chainRuns_comparisons cs rest d hrest ?_ fin w (c.type X)
      · exact fun e h => he e (List.mem_append_left _ h)
      · exact fun e h => he e (List.mem_append_right _ h)

end

end Code

/-! ## The operands that are evaluated -/

section Evaluated

variable (X : Operands)

/-- Operands evaluated one after the other. -/
def Operands.effects (es : List Expr) (st : St) : St := es.foldl (fun st e => (X.sem e st).2) st

theorem Operands.effects_append (es es' : List Expr) (st : St) :
    X.effects (es ++ es') st = X.effects es' (X.effects es st) := List.foldl_append

/-- The operands of a verdict are from `es`, in order and each once, and what is seen is what
they did. -/
structure Verdict.From (r : Verdict) (es : List Expr) (st : St) : Prop where
  sub : r.evaluated.Sublist es
  seen : r.st = X.effects r.evaluated st

variable {X}

theorem Verdict.From.returns {r : Verdict} {es : List Expr} {st : St} (h : r.From X es st)
    (x : I64) : (r.returns x).From X es st := ⟨h.sub, h.seen⟩

theorem Verdict.From.left {r : Verdict} {es : List Expr} {st : St} (h : r.From X es st)
    (es' : List Expr) : r.From X (es ++ es') st :=
  ⟨h.sub.trans (List.sublist_append_left _ _), h.seen⟩

theorem Verdict.From.andThen {r r' : Verdict} {es es' : List Expr} {st : St} (h : r.From X es st)
    (h' : r'.From X es' r.st) : (r.andThen r').From X (es ++ es') st := by
  constructor
  case sub => exact h.sub.append h'.sub
  case seen =>
    change r'.st = X.effects (r.evaluated ++ r'.evaluated) st
    rw [X.effects_append, ← h.seen]
    exact h'.seen

mutual

theorem Condition.eval_from : ∀ (c : Condition) (st : St), (c.eval X st).From X c.operands st
  | .operand e, st => ⟨List.Sublist.refl _, rfl⟩
  | .not _ _ c, st => (Condition.eval_from c st).returns _
  | .and n a c, st => by
      rw [Condition.eval_and]
      split_ifs
      · exact ((Condition.eval_from a st).andThen (Condition.eval_from c _)).returns _
      · exact ((Condition.eval_from a st).left _).returns _
  | .or n a c, st => by
      rw [Condition.eval_or]
      split_ifs
      · exact ((Condition.eval_from a st).left _).returns _
      · exact ((Condition.eval_from a st).andThen (Condition.eval_from c _)).returns _
  | .xor _ a c, st => ((Condition.eval_from a st).andThen (Condition.eval_from c _)).returns _
  | .chain _ first rest, st => (Condition.eval_from first st).andThen (rest.eval_from _ _ _)

theorem Comparisons.eval_from : ∀ (r : Comparisons) (t : Ty) (x : I64) (st : St),
    (r.eval X t x st).From X r.operands st
  | .last _ c, _, _, st => (Condition.eval_from c st).returns _
  | .more o c rest, t, x, st => by
      rw [Comparisons.eval_more]
      split_ifs
      · exact (Condition.eval_from c st).andThen (rest.eval_from _ _ _)
      · exact ((Condition.eval_from c st).left _).returns _

end

theorem ofBool_cases (b : Bool) : ofBool b = 0 ∨ ofBool b = 1 := by
  cases b with
  | false => exact .inl rfl
  | true => exact .inr rfl

theorem Comparisons.eval_bool : ∀ (r : Comparisons) (t : Ty) (x : I64) (st : St),
    (r.eval X t x st).val = 0 ∨ (r.eval X t x st).val = 1
  | .last _ c, t, x, st => ofBool_cases _
  | .more o c rest, t, x, st => by
      rw [Comparisons.eval_more]
      split_ifs
      · exact rest.eval_bool _ _ _
      · exact .inl rfl

/-- A condition that is no operand is 0 or 1. -/
theorem Condition.eval_bool (c : Condition) (hc : ∀ e, c ≠ .operand e) (st : St) :
    (c.eval X st).val = 0 ∨ (c.eval X st).val = 1 := by
  cases c with
  | operand e => exact absurd rfl (hc e)
  | not n pre c => exact ofBool_cases _
  | and n a c =>
      rw [Condition.eval_and]
      split_ifs
      · exact ofBool_cases _
      · exact .inl rfl
  | or n a c =>
      rw [Condition.eval_or]
      split_ifs
      · exact .inr rfl
      · exact ofBool_cases _
  | xor n a c => exact ofBool_cases _
  | chain n first rest => exact rest.eval_bool _ _ _

/-! ### Every comparison of a chain -/

variable (X) in
/-- The comparisons of a chain when all its operands are evaluated in turn: does it hold, and
the operands that its right side evaluates. -/
def Comparisons.links : Comparisons → Ty → I64 → St → List (Bool × List Expr)
  | .last o c, t, x, st =>
      [(o.holds (unsignedPair t (c.type X)) x (c.eval X st).val, (c.eval X st).evaluated)]
  | .more o c rest, t, x, st =>
      (o.holds (unsignedPair t (c.type X)) x (c.eval X st).val, (c.eval X st).evaluated) ::
        rest.links (c.type X) (c.eval X st).val (c.eval X st).st

/-- A chain is 1 exactly when every comparison holds. -/
theorem Comparisons.eval_links : ∀ (r : Comparisons) (t : Ty) (x : I64) (st : St),
    (r.eval X t x st).val = ofBool ((r.links X t x st).all Prod.fst)
  | .last o c, t, x, st => by
      change ofBool _ = ofBool (_ && true)
      rw [Bool.and_true]
  | .more o c rest, t, x, st => by
      rw [Comparisons.eval_more]
      change _ = ofBool (_ && (rest.links X _ _ _).all Prod.fst)
      split_ifs with h
      · rw [h, Bool.true_and]
        exact rest.eval_links _ _ _
      · rw [Bool.eq_false_iff.mpr h]
        rfl

/-- The operands are evaluated up to the first comparison that does not hold. -/
theorem Comparisons.evaluated_links : ∀ (r : Comparisons) (t : Ty) (x : I64) (st : St),
    (r.eval X t x st).evaluated = ((r.links X t x st).take
      (((r.links X t x st).takeWhile Prod.fst).length + 1)).flatMap Prod.snd
  | .last o c, t, x, st => by
      change _ = List.flatMap Prod.snd (List.take _ [(_, _)])
      rw [List.take_succ_cons, List.take_nil, List.flatMap_singleton]
      rfl
  | .more o c rest, t, x, st => by
      rw [Comparisons.eval_more]
      change _ = List.flatMap Prod.snd (List.take _ ((_, _) :: rest.links X _ _ _))
      rw [List.take_succ_cons, List.flatMap_cons]
      change _ = (c.eval X st).evaluated ++ List.flatMap Prod.snd
        (List.take (List.takeWhile Prod.fst ((_, _) :: rest.links X _ _ _)).length _)
      split_ifs with h
      · rw [List.takeWhile_cons, if_pos h]
        exact congrArg ((c.eval X st).evaluated ++ ·) (rest.evaluated_links _ _ _)
      · rw [List.takeWhile_cons, if_neg h]
        exact (List.append_nil _).symm

theorem ofBool_eq_one (b : Bool) : ofBool b = 1 ↔ b = true := by
  cases b <;> decide

end Evaluated

/-- The code that is generated for a condition does what the condition means: it evaluates the
operands that count, from left to right and each once, and yields 1 or 0; a chain is 1 exactly
when all its comparisons hold. -/
theorem genExpr_condition {O : Oracle} {Γ : Env} {X : Operands} {d₀ : Nat} {c : Condition}
    (he : ∀ e ∈ c.operands, X.Opaque O Γ d₀ e) :
    (∀ d, d₀ + c.depth ≤ d → ∀ cs, Works O ((gen Γ d).genExpr cs c.toExpr)
      (fun v => ⟨some v, c.type X⟩) (.int 64)
      fun st => (.int (c.eval X st).val, X.effects (c.eval X st).evaluated st)) ∧
    ∀ st, (c.eval X st).evaluated.Sublist c.operands ∧
      ((∀ e, c ≠ .operand e) → (c.eval X st).val = 0 ∨ (c.eval X st).val = 1) ∧
      ∀ n first rest, c = .chain n first rest → ∀ r, first.eval X st = r →
        ((c.eval X st).val = 1 ↔ ∀ l ∈ rest.links X (first.type X) r.val r.st, l.1 = true) ∧
        (c.eval X st).evaluated = r.evaluated ++ ((rest.links X (first.type X) r.val r.st).take
          (((rest.links X (first.type X) r.val r.st).takeWhile Prod.fst).length + 1)).flatMap
            Prod.snd := by
  refine ⟨?_, ?_⟩
  · intro d hd cs
    refine (coded_condition cs c d hd he).congr ?_
    intro st
    rw [(c.eval_from st).seen]
  · intro st
    refine ⟨(c.eval_from st).sub, fun hc => c.eval_bool hc st, ?_⟩
    rintro n first rest rfl r rfl
    refine ⟨?_, ?_⟩
    · change (rest.eval X _ _ _).val = 1 ↔ _
      rw [rest.eval_links, ofBool_eq_one, List.all_eq_true]
    · change (first.eval X st).evaluated ++ (rest.eval X _ _ _).evaluated = _
      rw [rest.evaluated_links]

/-! ## Conditions over calls -/

/-- A call by the name of a function without parameters that returns an `I64` is opaque. -/
theorem opaque_call {O : Oracle} {Γ : Env} {X : Operands} {m : Node} {s name : String}
    (hvar : Γ.lookupVar s = none)
    (hfunc : Γ.findFunc s = some ⟨some (.fn name), ⟨.i64, [], false⟩⟩)
    (htype : X.type (.ident m s) = .i64)
    (hans : ∀ st : St, O.answer st.2 (.int (O.world.fnAddr name)) [] st.1 =
      some (some (.int (X.sem (.ident m s) st).1), (X.sem (.ident m s) st).2.1) ∧
        (X.sem (.ident m s) st).2.2 = st.2 ++ [⟨.int (O.world.fnAddr name), []⟩]) :
    X.Opaque O Γ 1 (.ident m s) := by
  intro d hd cs
  rcases Nat.exists_eq_add_one.mpr (Nat.lt_of_lt_of_le Nat.zero_lt_one hd) with ⟨d', rfl⟩
  refine ⟨fun _ => LTy.noConfusion, ?_⟩
  intro B hB
  let B₁ := B.push (.mark ⟨cs, m.addr⟩)
  let B₂ := B₁.push (.call (some B.nextReg) (.fn name) [])
  have hgen : (gen Γ (d' + 1)).genExpr cs (.ident m s) B =
      .ok (⟨some (.reg (.int 64) B.nextReg), .i64⟩, B₂.bump) := by
    change genIdent Γ (gen Γ d') cs m s B = _
    unfold genIdent
    rw [hvar, hfunc]
    rfl
  rw [htype]
  refine ⟨.reg (.int 64) B.nextReg, B₂.bump, hgen, ?_, ?_⟩
  · exact ⟨((Builder.Le.push B _).trans (.push B₁ _)).trans (.bump B₂), ((hB.push _).push _).bump,
      Nat.lt_succ_self _, rfl, rfl⟩
  · intro T prev ρ st
    rcases hans st with ⟨hanswer, hseen⟩
    have hmark : eventStep O T B₁.log (Point.at B.point prev ρ st) =
        some (Point.at B₁.point prev ρ st) := by
      rw [eventStep_push, point_push]
      change some (_, st.2 ++ []) = _
      rw [List.append_nil]
      rfl
    have hcall : ∀ prev, eventStep O T B₂.log (Point.at B₁.point prev ρ st) =
        some (Point.at B₂.point prev
          (Function.update ρ B.nextReg (.int (X.sem (.ident m s) st).1))
          (X.sem (.ident m s) st).2) := by
      intro prev
      have hpoint : B₂.point = (B.cur, (B₁.code B.cur).length + 1) := point_push B₁ _
      rw [eventStep_push, hpoint]
      have hval : callVal (O.seen st.2) st.1 ρ (.fn name) [] =
          some (some (.int (X.sem (.ident m s) st).1), (X.sem (.ident m s) st).2.1) := by
        unfold callVal
        split
        · next h => cases h
        · next h => cases h
        · exact hanswer
      unfold Point.at
      rw [hseen]
      simp only [Instr.runIn, Instr.run, List.map_nil, hval]
      rfl
    have hfirst : Carries O T B B₁ prev ρ st st fun ρ' => ρ' = ρ :=
      .step hmark (fun _ _ => rfl) rfl
    refine hfirst.trans (.push B _) ((Builder.Le.push B₁ _).trans (.bump B₂)) ?_
    rintro prev' ρ' - rfl
    refine ⟨1, _, _, .single (hcall prev'), ?_, Function.update_self ..⟩
    intro r hr
    exact Function.update_of_ne (Nat.ne_of_lt hr) _ _

/-- The operands `c` and `f` of `callsEnv`. -/
def callsOperands : Operands where
  type := fun _ => .i64
  sem e st := ((callsSem e st).1.int?.getD 0, (callsSem e st).2)

theorem opaque_calls {s : String} (hs : s = "c" ∨ s = "f") :
    callsOperands.Opaque callsOracle callsEnv 1 (.ident {} s) := by
  rcases hs with rfl | rfl
  · exact opaque_call rfl rfl rfl fun _ => ⟨rfl, rfl⟩
  · exact opaque_call rfl rfl rfl fun _ => ⟨rfl, rfl⟩

/-- `c < f <= c || !(f ^^ c)` -/
def callsCondition : Condition :=
  .or {} (.chain {} (.operand (.ident {} "c"))
      (.more .lt (.operand (.ident {} "f")) (.last .le (.operand (.ident {} "c")))))
    (.not {} true (.xor {} (.operand (.ident {} "f")) (.operand (.ident {} "c"))))

theorem genExpr_condition_calls : Works callsOracle
    ((gen callsEnv 4).genExpr [] callsCondition.toExpr) (fun v => ⟨some v, .i64⟩) (.int 64)
    fun st => (.int (callsCondition.eval callsOperands st).val,
      callsOperands.effects (callsCondition.eval callsOperands st).evaluated st) := by
  have hops : ∀ e ∈ callsCondition.operands, callsOperands.Opaque callsOracle callsEnv 1 e := by
    intro e he
    have hcall : ∃ s, (s = "c" ∨ s = "f") ∧ e = .ident {} s := by
      simp only [callsCondition, Condition.operands, Comparisons.operands, List.cons_append,
        List.nil_append, List.mem_cons, List.not_mem_nil, or_false] at he
      rcases he with rfl | rfl | rfl | rfl | rfl
      · exact ⟨"c", .inl rfl, rfl⟩
      · exact ⟨"f", .inr rfl, rfl⟩
      · exact ⟨"c", .inl rfl, rfl⟩
      · exact ⟨"f", .inr rfl, rfl⟩
      · exact ⟨"c", .inl rfl, rfl⟩
    rcases hcall with ⟨s, hs, rfl⟩
    exact opaque_calls hs
  exact (genExpr_condition hops).1 4 (by decide) []

end Hlang.Codegen
