import Hlang.Codegen.Visited
import Hlang.Codegen.Lowering

/-!
# Hlang.Codegen.Void — the missing value of a void rvalue

A call to a function that returns nothing has no value. `convert` takes 0 for it, and
`truthy` reports it; what goes through `asPtr`, and an index, uses it without asking. So code
generation asks for a missing value exactly if a step that it reaches needs one (`Safe`).
-/

namespace Hlang.Codegen

open Ir Gen

section Outcomes

variable {α : Type} {x : Gen α} {E S : Prop} {Q : α → Prop}

theorem Outcome.null_iff (h : Outcome x E S Q) (B : Builder) :
    x B = .error .nullValue ↔ ¬ S := by
  have hB := h B
  constructor
  · intro hx
    rw [hx] at hB
    exact hB
  · intro hS
    cases hx : x B with
    | ok p =>
        rw [hx] at hB
        exact (hS hB.2.1).elim
    | error s =>
        rw [hx] at hB
        cases s with
        | fuel => exact (hS hB.2).elim
        | nullValue => rfl
        | undefined => exact hB.elim

theorem Outcome.fuel_iff (h : Outcome x E S Q) (B : Builder) :
    x B = .error .fuel ↔ ¬ E ∧ S := by
  have hB := h B
  constructor
  · intro hx
    rw [hx] at hB
    exact hB
  · rintro ⟨hE, hS⟩
    cases hx : x B with
    | ok p =>
        rw [hx] at hB
        exact (hE hB.1).elim
    | error s =>
        rw [hx] at hB
        cases s with
        | fuel => rfl
        | nullValue => exact (hB hS).elim
        | undefined => exact hB.elim

end Outcomes

/-! ## Initialisers -/

namespace Env

variable (Γ : Env)

/-- `genInit` of storage of type `t` for what is not a list. -/
def initValueSteps (t : Ty) (e : Expr) : List Step :=
  match e with
  | .strLit n s => if isByteArray t then [] else value (.strLit n s)
  | e => value e
where
  /-- the copy of an aggregate, or the store of a scalar -/
  value (e : Expr) : List Step :=
    if isAggregate t then [.visit .rv e, .need (Γ.HasValue e)]
    else [.visit .rv e, .find (Γ.Loads t), .need (∀ t', accessType Γ.heap Γ.classFuel t = some t' →
      isAggregate t' = true → Γ.HasValue e)]

/-- The items of a list. -/
def initItemsSteps : List Expr → List (Ty × I64) → List Step
  | [], _ => []
  | _ :: _, [] => []
  | .initList _ kids :: es, (t, _) :: places =>
      (if isAggregate t then
        match (Γ.initPlaces t kids.length).toOption with
        | some inner => initItemsSteps kids inner
        | none => [.find False]
      else []) ++ initItemsSteps es places
  | e :: es, (t, _) :: places => Γ.initValueSteps t e ++ initItemsSteps es places

/-- `genInit` of storage of type `t`. -/
def initSteps (t : Ty) : Expr → List Step
  | .initList _ kids =>
      if isAggregate t then
        match (Γ.initPlaces t kids.length).toOption with
        | some places => Γ.initItemsSteps kids places
        | none => [.find False]
      else []
  | e => Γ.initValueSteps t e

end Env

section Init

variable {Γ : Env} {R : Rec} {E S : Visit → Prop}

theorem goes_genInitValue (hR : R.Visited Γ E S) (addr : Value) (t : Ty) (e : Expr) :
    Visiting E S (genInitValue Γ R addr t e) (Γ.initValueSteps t e) fun _ => True := by
  have hvalue : ∀ e, Visiting E S (genInitValue.genValue Γ R addr t e)
      (Env.initValueSteps.value Γ t e) fun _ => True := by
    intro e
    unfold genInitValue.genValue Env.initValueSteps.value
    split
    · refine .visit (hR.rv [] e) fun rv hrv => ?_
      rcases hrv with ⟨k, hk, hrv⟩
      exact .need ((outcome_asPtr rv.v).iff Iff.rfl (hasValue_iff hk hrv)) fun src _ =>
        .done (total_emit _)
    · refine .visit (hR.rv [] e) fun rv hrv => ?_
      rcases hrv with ⟨k, hk, hrv⟩
      refine Outcome.iff (outcome_storeTo Γ addr rv t) ?_ ?_
      · simp [EndAll, Env.Loads]
      · simp only [SafeAll, and_true, hasValue_iff hk hrv]
        constructor
        · exact fun h _ => h
        · exact fun h t' ht' => h (Option.isSome_iff_exists.mpr ⟨t', ht'⟩) t' ht'
  unfold genInitValue Env.initValueSteps
  cases e with
  | strLit n s =>
      dsimp only
      split
      · exact .done (total_emit _)
      · exact hvalue _
  | _ => exact hvalue _

/-- The lookup of the places of a list. -/
theorem Visiting.places {t : Ty} {n : Nat} {f : List (Ty × I64) → Gen Unit}
    {g : List (Ty × I64) → List Step} {s : List Step}
    (hf : ∀ places, Visiting E S (f places) (g places ++ s) fun _ => True) :
    Visiting E S (do f (← ofOption (Γ.initPlaces t n).toOption))
      ((match (Γ.initPlaces t n).toOption with
        | some places => g places
        | none => [.find False]) ++ s) fun _ => True := by
  cases (Γ.initPlaces t n).toOption with
  | some places => exact hf places
  | none =>
      refine Visiting.find (Q := fun _ => False) (.stop_fuel id trivial) ?_
      exact fun _ h => h.elim

theorem goes_genInitItems (hR : R.Visited Γ E S) (loc : SrcLoc) (addr : Value) (es : List Expr)
    (places : List (Ty × I64)) : Visiting E S (genInitItems Γ R loc addr es places)
      (Γ.initItemsSteps es places) fun _ => True := by
  induction loc, addr, es, places using genInitItems.induct with
  | case1 loc addr places =>
      rw [genInitItems, Env.initItemsSteps]
      exact .done (.pure trivial)
  | case2 loc addr e es =>
      rw [genInitItems, Env.initItemsSteps]
      exact .done (total_error _ _)
  | case3 loc addr n kids es t off places ih ihInner =>
      rw [genInitItems, Env.initItemsSteps]
      refine .after (total_create _) fun ea _ => ?_
      dsimp only
      split
      · exact Visiting.places fun inner => Visiting.append (ihInner ea inner) fun _ _ => ih
      · exact .after (total_error _ _) fun _ _ => ih
  | case4 loc addr e es t off places he ih =>
      rw [genInitItems, Env.initItemsSteps]
      · refine .after (total_create _) fun ea _ => ?_
        exact Visiting.append (goes_genInitValue hR ea t e) fun _ _ => ih
      · exact he
      · exact he

/-- `genInit` does the steps. -/
theorem goes_genInit (hR : R.Visited Γ E S) (addr : Value) (t : Ty) (e : Expr) :
    Visiting E S (genInit Γ R addr t e) (Γ.initSteps t e) fun _ => True := by
  by_cases hlist : ∃ n kids, e = .initList n kids
  · rcases hlist with ⟨n, kids, rfl⟩
    unfold genInit genInitList Env.initSteps
    refine .after (total_emit _) fun _ _ => ?_
    dsimp only
    split
    · rw [← List.append_nil (match (Γ.initPlaces t kids.length).toOption with
        | some places => Γ.initItemsSteps kids places
        | none => [Step.find False])]
      refine Visiting.places fun places => ?_
      rw [List.append_nil]
      exact goes_genInitItems hR n.loc addr kids places
    · exact Visiting.done (total_error _ _)
  · have hno : ∀ n kids, e = .initList n kids → False := fun n kids h => hlist ⟨n, kids, h⟩
    rw [genInit, Env.initSteps]
    · exact goes_genInitValue hR addr t e
    · exact hno
    · exact hno

end Init

/-! ## Expressions and their consumers -/

/-- An expression that a statement uses, and what is done with its value. -/
inductive Consumer where
  | discard (e : Expr)
  | cond (loc : SrcLoc) (e : Expr)
  /-- the value of a switch, or of a return statement -/
  | convert (t : Ty) (e : Expr)
  | init (addr : Value) (t : Ty) (e : Expr)

namespace Consumer

variable (Γ : Env) (d : Nat)

/-- The code of `genStmt` for it. -/
def gen : Consumer → Cg Unit
  | discard e => do
      let _ ← genExpr Γ d e
  | cond loc e => do
      let _ ← genCond Γ d loc e
  | convert t e => do
      let v ← genExpr Γ d e
      let _ ← ir (Codegen.convert v t false)
  | init addr t e => genInitIn Γ d addr t (some e)

/-- Its steps. -/
def steps : Consumer → List Step
  | discard e | cond _ e | convert _ e => [.visit .rv e]
  | init _ t e => Γ.initSteps t e

/-- Its steps ask for no missing value. -/
def Safe (c : Consumer) : Prop := SafeAll (Ends Γ d) (Codegen.Safe Γ d) (c.steps Γ)

end Consumer

theorem ir_error {α : Type} {x : Gen α} (F : FnCtx) (s : Stop) :
    ir x F = .error s ↔ x F.b = .error s := by
  unfold ir
  cases hx : x F.b with
  | ok p => exact ⟨(fun h => nomatch h), (fun h => nomatch h)⟩
  | error s' =>
      constructor
      · intro h
        rcases Except.error.inj h with rfl
        rfl
      · intro h
        rcases Except.error.inj h with rfl
        rfl

/-- A step of the builder, and nothing that could stop behind it. -/
theorem ir_pure_error {α : Type} {x : Gen α} (F : FnCtx) (s : Stop) :
    (ir x >>= fun _ => pure () : Cg Unit) F = .error s ↔ x F.b = .error s := by
  rw [← ir_error F s]
  change (ir x F >>= fun p => .ok ((), p.2)) = _ ↔ _
  cases ir x F with
  | ok p => exact ⟨(fun h => nomatch h), (fun h => nomatch h)⟩
  | error s' =>
      constructor
      · intro h
        rcases Except.error.inj h with rfl
        rfl
      · intro h
        rcases Except.error.inj h with rfl
        rfl

/-- A consumer stops at a missing value exactly if it is not safe. -/
theorem consumer_null_iff (Γ : Env) (d : Nat) (c : Consumer) (F : FnCtx) :
    c.gen Γ d F = .error .nullValue ↔ ¬ c.Safe { Γ with scopes := F.scopes } d := by
  have hR := gen_visited { Γ with scopes := F.scopes } d
  -- the scope log is not looked at
  let G (e : Expr) : FnCtx := { F with scopeLog := F.scopeLog ++ [.use F.scopes e] }
  cases c with
  | discard e =>
      have hgoes := Visiting.last (hR.rv [] e)
      exact (ir_pure_error (G e) _).trans (hgoes.null_iff F.b)
  | cond loc e =>
      let x := (gen { Γ with scopes := F.scopes } d).genExpr [] e
      have hx : (Consumer.cond loc e).gen Γ d F =
          (ir (x >>= fun v => truthy v loc) >>= fun _ => pure ()) (G e) := by
        rw [ir_bind]
        rfl
      have hgoes := Visiting.visit (hR.rv [] e) fun v _ => Visiting.done (total_truthy v loc)
      rw [hx]
      exact (ir_pure_error (G e) _).trans (hgoes.null_iff F.b)
  | convert t e =>
      let x := (gen { Γ with scopes := F.scopes } d).genExpr [] e
      have hx : (Consumer.convert t e).gen Γ d F =
          (ir (x >>= fun v => convert v t false) >>= fun _ => pure ()) (G e) := by
        rw [ir_bind, bind_assoc]
        rfl
      have hgoes := Visiting.visit (hR.rv [] e) fun v _ => Visiting.done (total_convert v t false)
      rw [hx]
      exact (ir_pure_error (G e) _).trans (hgoes.null_iff F.b)
  | init addr t e =>
      exact (ir_error (G e) _).trans ((goes_genInit hR addr t e).null_iff F.b)

/-- Code generation uses the value of a void rvalue exactly where a step that it reaches needs
one: for a value, for an lvalue, and for what a statement does with an expression. -/
theorem gen_tolerates_void_iff (Γ : Env) (d : Nat) :
    (∀ cs e B, (gen Γ d).genExpr cs e B ≠ .error .nullValue ↔ Safe Γ d (.rv, e)) ∧
    (∀ cs e B, (gen Γ d).genLValue cs e B ≠ .error .nullValue ↔ Safe Γ d (.lv, e)) ∧
    (∀ c F, Consumer.gen Γ d c F ≠ .error .nullValue ↔
      c.Safe { Γ with scopes := F.scopes } d) := by
  have hR := gen_visited Γ d
  constructor
  · intro cs e B
    exact not_iff_comm.mp ((hR.rv cs e).null_iff B).symm
  · constructor
    · intro cs e B
      exact not_iff_comm.mp ((hR.lv cs e).null_iff B).symm
    · intro c F
      exact not_iff_comm.mp (consumer_null_iff Γ d c F).symm

/-- `*F()` for a function `U0 F()`. -/
theorem genExpr_deref_void : (gen { funcs := [("F", ⟨some (.fn "F"), ⟨.void, [], false⟩⟩)] } 3).genExpr
    [] (.unary {} .star true (.call {} (.ident {} "F") [])) {} = .error .nullValue := by
  rfl

end Hlang.Codegen
