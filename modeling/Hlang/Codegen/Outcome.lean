import Hlang.Codegen.Spec

/-!
# Hlang.Codegen.Outcome — how code generation ends

`Outcome x E S Q`: the generator `x` has a result, and then `E`, `S` and `Q` of the result
hold; or it goes on past any depth, and `S` holds but `E` does not; or it dereferences a
missing value, and `S` does not hold. So `E` says that it ends if nothing is missing, and `S`
that it asks for no missing value. Errors are only added. The rules compose; the helpers on
values end, and only `asPtr` asks for a value.
-/

namespace Hlang.Codegen

open Ir Gen

/-- What is known of a run that ended. -/
def EndsAs {α : Type} (E S : Prop) (Q : α → Prop) (B : Builder) :
    Except Stop (α × Builder) → Prop
  | .ok (a, B') => E ∧ S ∧ Q a ∧ B.errors <+: B'.errors
  | .error .fuel => ¬ E ∧ S
  | .error .nullValue => ¬ S
  | .error .undefined => False

/-- The outcome of a generator. -/
def Outcome {α : Type} (x : Gen α) (E S : Prop) (Q : α → Prop) : Prop :=
  ∀ B, EndsAs E S Q B (x B)

/-- A generator that ends and asks for no value. -/
abbrev Total {α : Type} (x : Gen α) (Q : α → Prop) : Prop := Outcome x True True Q

section Rules

variable {α β : Type} {x : Gen α} {f : α → Gen β} {E E' S S' : Prop} {Q Q' : α → Prop}
  {T : β → Prop}

theorem Outcome.mono (h : Outcome x E S Q) (hQ : ∀ a, Q a → Q' a) : Outcome x E S Q' := by
  intro B
  have hB := h B
  unfold EndsAs at hB ⊢
  split at hB
  · exact ⟨hB.1, hB.2.1, hQ _ hB.2.2.1, hB.2.2.2⟩
  · exact hB
  · exact hB
  · exact hB

theorem Outcome.iff (h : Outcome x E S Q) (hE : E ↔ E') (hS : S ↔ S') : Outcome x E' S' Q := by
  rw [← hE, ← hS]
  exact h

theorem Outcome.pure {a : α} (h : Q a) : Total (pure a) Q :=
  fun _ => ⟨trivial, trivial, h, List.prefix_refl _⟩

/-- What comes behind matters only if what is before ends. -/
theorem Outcome.bind (hx : Outcome x E S Q) (hf : ∀ a, Q a → Outcome (f a) E' S' T) :
    Outcome (x >>= f) (E ∧ E') (S ∧ (E → S')) T := by
  intro B
  have hB := hx B
  change EndsAs _ _ _ _ (x B >>= fun p => f p.1 p.2)
  cases hxB : x B with
  | error s =>
      rw [hxB] at hB
      cases s with
      | fuel => exact ⟨fun h => hB.1 h.1, hB.2, fun h => (hB.1 h).elim⟩
      | nullValue => exact fun h => hB h.1
      | undefined => exact hB.elim
  | ok p =>
      rw [hxB] at hB
      rcases p with ⟨a, B₁⟩
      rcases hB with ⟨hE, hS, hQ, herr⟩
      have hB' := hf a hQ B₁
      change EndsAs _ _ _ _ (f a B₁)
      cases hfB : f a B₁ with
      | error s =>
          rw [hfB] at hB'
          cases s with
          | fuel => exact ⟨fun h => hB'.1 h.2, hS, fun _ => hB'.2⟩
          | nullValue => exact fun h => hB' (h.2 hE)
          | undefined => exact hB'.elim
      | ok p =>
          rw [hfB] at hB'
          rcases hB' with ⟨hE', hS', hT, herr'⟩
          exact ⟨⟨hE, hE'⟩, ⟨hS, fun _ => hS'⟩, hT, herr.trans herr'⟩

/-- A step whose result is known. -/
theorem Outcome.bind_eq {b : α} (hx : Outcome x E S fun a => a = b) (hf : Outcome (f b) E' S' T) :
    Outcome (x >>= f) (E ∧ E') (S ∧ (E → S')) T := by
  refine hx.bind ?_
  rintro a rfl
  exact hf

/-- A step before that ends and asks for no value. -/
theorem Outcome.after (hx : Total x Q) (hf : ∀ a, Q a → Outcome (f a) E S T) :
    Outcome (x >>= f) E S T :=
  (Outcome.bind hx hf).iff (by simp) (by simp)

/-- A step behind that ends and asks for no value. -/
theorem Outcome.before (hx : Outcome x E S Q) (hf : ∀ a, Q a → Total (f a) T) :
    Outcome (x >>= f) E S T :=
  (Outcome.bind hx hf).iff (by simp) (by simp)

/-- What ends and asks for no missing value has a result. -/
theorem Outcome.exists_ok (h : Outcome x E S Q) (hE : E) (hS : S) (B : Builder) :
    ∃ a B', x B = .ok (a, B') := by
  have hB := h B
  cases hx : x B with
  | ok p => exact ⟨p.1, p.2, rfl⟩
  | error s =>
      rw [hx] at hB
      cases s with
      | fuel => exact (hB.1 hE).elim
      | nullValue => exact (hB hS).elim
      | undefined => exact hB.elim

theorem Outcome.stop_fuel (hE : ¬ E) (hS : S) : Outcome (stop .fuel : Gen α) E S Q :=
  fun _ => ⟨hE, hS⟩

theorem Outcome.stop_null (hS : ¬ S) : Outcome (stop .nullValue : Gen α) E S Q := fun _ => hS

theorem total_error (loc : SrcLoc) (msg : String) : Total (error loc msg) fun _ => True :=
  fun _ => ⟨trivial, trivial, trivial, List.prefix_append _ _⟩

theorem total_emit (i : Instr) : Total (emit i) fun _ => True :=
  fun _ => ⟨trivial, trivial, trivial, List.prefix_refl _⟩

theorem total_create (o : Op) : Total (create o) fun v => v.type = o.type :=
  fun _ => ⟨trivial, trivial, rfl, List.prefix_refl _⟩

theorem total_createPhi (incoming : List (Value × Blk)) :
    Total (createPhi incoming) fun v => v.type = .int 64 :=
  fun _ => ⟨trivial, trivial, rfl, List.prefix_refl _⟩

theorem total_createCall (ty : LTy) (callee : Value) (args : List Value) :
    Total (createCall ty callee args) fun r => r.isNone = decide (ty = .void) ∧
      r.any (·.type = .double) = decide (ty = .double) := by
  intro B
  unfold createCall
  split
  · next h =>
      refine ⟨trivial, trivial, ⟨(decide_eq_true h).symm, ?_⟩, List.prefix_refl _⟩
      rw [h]
      rfl
  · next h => exact ⟨trivial, trivial, ⟨(decide_eq_false h).symm, rfl⟩, List.prefix_refl _⟩

theorem total_newBlock : Total newBlock fun _ => True :=
  fun _ => ⟨trivial, trivial, trivial, List.prefix_refl _⟩

theorem total_setInsertPoint (b : Blk) : Total (setInsertPoint b) fun _ => True :=
  fun _ => ⟨trivial, trivial, trivial, List.prefix_refl _⟩

theorem total_insertBlock : Total insertBlock fun _ => True :=
  fun _ => ⟨trivial, trivial, trivial, List.prefix_refl _⟩

theorem total_entryAlloca (ty : LTy) : Total (entryAlloca ty) fun _ => True :=
  fun _ => ⟨trivial, trivial, trivial, List.prefix_refl _⟩

theorem outcome_ofOption (o : Option α) :
    Outcome (ofOption o) (o.isSome = true) True fun a => o = some a := by
  cases o with
  | none => exact .stop_fuel Bool.false_ne_true trivial
  | some a => exact fun _ => ⟨rfl, trivial, rfl, List.prefix_refl _⟩

end Rules

/-! ## Kinds of values -/

/-- What is known of an `RV`: its type, whether there is no value, and whether the value is a
double. A double that is cast to a class stays one. -/
structure Kind where
  t : Ty
  isVoid : Bool
  dbl : Bool

/-- The value is of the kind. -/
def RV.Is (rv : RV) (k : Kind) : Prop :=
  rv.t = k.t ∧ rv.v.isNone = k.isVoid ∧ rv.isDouble = k.dbl

/-- The kind of a value that is made at its type. -/
def Kind.of (t : Ty) : Kind := ⟨t, false, t.isF64⟩

def Kind.i64 : Kind := .of .i64
def Kind.f64 : Kind := .of .f64

theorem RV.zero_is : RV.zero.Is .i64 := ⟨rfl, rfl, rfl⟩

/-- A value that is made is of its kind. -/
theorem is_made {v : Value} {t : Ty} (h : isDbl v = t.isF64) : (⟨some v, t⟩ : RV).Is (.of t) :=
  ⟨rfl, rfl, h⟩

/-! ## Helpers on values -/

theorem outcome_asPtr (v : Option Value) :
    Outcome (asPtr v) True (v.isSome = true) fun _ => True := by
  unfold asPtr
  split
  · exact .stop_null Bool.false_ne_true
  · split
    · exact (Outcome.pure trivial).iff Iff.rfl (iff_of_true trivial rfl)
    · exact ((total_create _).mono fun _ _ => trivial).iff Iff.rfl (iff_of_true trivial rfl)

theorem total_created {o : Op} {t : Ty} (h : isDbl (.reg o.type 0) = t.isF64) :
    Total (create o) fun w => isDbl w = t.isF64 := by
  refine (total_create o).mono fun w hw => ?_
  rw [← h]
  unfold isDbl
  rw [hw]
  rfl

theorem total_ptrToI64 (v : Value) : Total (ptrToI64 v) fun w => isDbl w = isDbl v := by
  unfold ptrToI64
  split
  · next h =>
      refine (total_create _).mono fun w hw => ?_
      unfold isDbl
      rw [hw, h]
      rfl
  · exact .pure rfl

theorem total_widen (v : Value) (t : Ty) :
    Total (widen v t) fun w => isDbl v = t.isF64 → isDbl w = t.isF64 := by
  have hmade : ∀ o : Op, o.type = .int 64 → t.isF64 = false →
      Total (create o) fun w => isDbl v = t.isF64 → isDbl w = t.isF64 := by
    intro o ho ht
    refine (total_created (t := t) ?_).mono fun w hw _ => hw
    rw [ho, ht]
    rfl
  unfold widen
  by_cases ht : t.isF64 = true
  · rw [if_pos ht]
    exact .pure id
  · have ht' : t.isF64 = false := Bool.eq_false_iff.mpr ht
    rw [if_neg ht]
    split_ifs
    · exact hmade _ rfl ht'
    · exact .pure id
    · split
      · exact hmade _ rfl ht'
      · exact hmade _ rfl ht'

/-- The end of `convert` to an integer. -/
theorem total_normalize {dst : Ty} (hd : dst.isF64 = false) (norm : Bool) (iv : Value)
    (hiv : isDbl iv = false) : Total (match dst with
      | .int n uns =>
          if norm && decide (0 < n ∧ n < 8) then do
            let tr ← create (.trunc (n * 8) iv)
            if uns then create (.zext tr) else create (.sext tr)
          else pure iv
      | _ => pure iv) fun w => isDbl w = dst.isF64 := by
  split
  · split
    · refine .after (total_create _) fun tr _ => ?_
      split
      · exact total_created rfl
      · exact total_created rfl
    · exact .pure hiv
  · exact .pure (hiv.trans hd.symm)

theorem total_convert (rv : RV) (dst : Ty) (norm : Bool) :
    Total (convert rv dst norm) fun w => isDbl w = dst.isF64 := by
  unfold convert
  cases rv.v with
  | none =>
      refine .pure ?_
      by_cases hd : dst.isF64 = true
      · rw [if_pos hd, hd]
        rfl
      · rw [if_neg hd, Bool.eq_false_iff.mpr hd]
        rfl
  | some v =>
      dsimp only
      by_cases hd : dst.isF64 = true
      · rw [if_pos hd]
        split
        · next hv =>
            refine .pure ?_
            rw [hd]
            exact decide_eq_true hv
        · refine .after (total_ptrToI64 v) fun iv _ => ?_
          split
          · exact total_created hd.symm
          · exact total_created hd.symm
      · have hd' : dst.isF64 = false := Bool.eq_false_iff.mpr hd
        rw [if_neg hd]
        split
        · exact .after (total_created (t := .i64) rfl) fun iv hiv => total_normalize hd' norm iv hiv
        · next hv =>
            refine .after (total_ptrToI64 v) fun iv hiv => total_normalize hd' norm iv ?_
            exact hiv.trans (decide_eq_false hv)

theorem total_truthy (rv : RV) (loc : SrcLoc) : Total (truthy rv loc) fun _ => True := by
  unfold truthy
  split
  · exact .after (total_error _ _) fun _ _ => .pure trivial
  · split
    · exact (total_create _).mono fun _ _ => trivial
    · refine .after (total_ptrToI64 _) fun v _ => ?_
      exact (total_create _).mono fun _ _ => trivial

theorem total_boolToI64 (v : Value) : Total (boolToI64 v) fun w => isDbl w = false :=
  total_created (t := .i64) rfl

theorem total_strRV (s : String) : Total (strRV s) fun rv => rv.Is (.of (.ptr .u8)) :=
  .after (total_created (t := .i64) rfl) fun _ hv => .pure (is_made hv)

/-- The storage of type `t` is accessed at a type that is found; an aggregate is copied from
where the value points to. -/
theorem outcome_storeTo (Γ : Env) (addr : Value) (rv : RV) (t : Ty) :
    Outcome (storeTo Γ addr rv t) ((accessType Γ.heap Γ.classFuel t).isSome = true)
      (∀ t', accessType Γ.heap Γ.classFuel t = some t' → isAggregate t' = true → rv.v.isSome = true)
      fun _ => True := by
  unfold storeTo
  have hbind : ∀ store : Ty → Gen Unit,
      (∀ t', accessType Γ.heap Γ.classFuel t = some t' → Outcome (store t') True
        (∀ t', accessType Γ.heap Γ.classFuel t = some t' → isAggregate t' = true →
          rv.v.isSome = true) fun _ => True) →
      Outcome (ofOption (accessType Γ.heap Γ.classFuel t) >>= store)
        ((accessType Γ.heap Γ.classFuel t).isSome = true)
        (∀ t', accessType Γ.heap Γ.classFuel t = some t' → isAggregate t' = true →
          rv.v.isSome = true) fun _ => True :=
    fun store hstore => (Outcome.bind (outcome_ofOption _) hstore).iff (iff_of_eq (and_true _))
      ⟨fun h t' ht => h.2 (Option.isSome_iff_exists.mpr ⟨t', ht⟩) t' ht,
        fun h => ⟨trivial, fun _ => h⟩⟩
  refine hbind _ ?_
  intro t' ht
  split
  · next hagg =>
      refine Outcome.iff (Outcome.before (outcome_asPtr rv.v) fun src _ => total_emit _) Iff.rfl ?_
      constructor
      · intro h t'' ht'' _
        exact h
      · intro h
        exact h t' ht hagg
  · next hagg =>
      have hS : True ↔ ∀ t', accessType Γ.heap Γ.classFuel t = some t' → isAggregate t' = true →
          rv.v.isSome = true := by
        refine iff_of_true trivial fun t'' ht'' h => ?_
        rw [ht] at ht''
        rcases Option.some.inj ht'' with rfl
        exact absurd h hagg
      refine Outcome.iff ?_ Iff.rfl hS
      dsimp only
      split
      · exact .after (total_convert _ _ _) fun v _ => total_emit _
      · refine .after (total_convert _ _ _) fun iv _ => ?_
        split
        · exact .after (.pure trivial) fun v (_ : True) => total_emit _
        · exact .after (total_create _) fun v _ => total_emit _
        · exact .after (.pure trivial) fun v (_ : True) => total_emit _

/-- The kind of what `loadFrom` gives for storage of type `t`. -/
def Env.loadKind (Γ : Env) (t : Ty) : Option Kind :=
  (accessType Γ.heap Γ.classFuel t).map fun
    | .array elem _ => .of (.ptr elem)
    | .cls c => .of (.ptr (.cls c))
    | t => .of t

theorem outcome_loadFrom (Γ : Env) (addr : Value) (t : Ty) :
    Outcome (loadFrom Γ addr t) ((accessType Γ.heap Γ.classFuel t).isSome = true) True
      fun rv => ∃ k, Γ.loadKind t = some k ∧ rv.Is k := by
  unfold loadFrom Env.loadKind
  refine Outcome.before (outcome_ofOption _) fun t' ht => ?_
  rw [ht]
  have haddr : ∀ elem : Ty, Total (do
      let v ← create (.ptrtoint addr)
      return (⟨some v, .ptr elem⟩ : RV)) fun rv => rv.Is (.of (.ptr elem)) := fun elem =>
    .after (total_created (t := .i64) rfl) fun v hv => .pure (is_made hv)
  split
  · exact (haddr _).mono fun rv h => ⟨_, rfl, h⟩
  · exact (haddr _).mono fun rv h => ⟨_, rfl, h⟩
  · next harr hcls =>
      refine .after (total_created (t := t') (isDbl_memTy Γ t')) fun v hv => ?_
      refine .after (total_widen v t') fun w hw => .pure ?_
      refine ⟨.of t', ?_, is_made (hw hv)⟩
      cases t' with
      | array elem n => exact (harr elem n rfl).elim
      | cls c => exact (hcls c rfl).elim
      | _ => rfl

/-! ## Operators -/

/-- The kind of what `arith` gives. -/
def arithKind (op : P) (a c : Kind) : Kind :=
  if (a.dbl || c.dbl) && !isBitwise op then .f64
  else .of (if op ∈ [.plus, .minus, .star, .slash, .percent, .amp, .pipe, .caret, .shl, .shr] then
    intResult a.t c.t else .i64)

theorem total_arithDouble (op : P) (x y : Value) (loc : SrcLoc) :
    Total (arithDouble op x y loc) fun rv => rv.Is .f64 := by
  have hmade : ∀ o, Total (do
      let v ← create (.fbin o x y)
      return (⟨some v, .f64⟩ : RV)) fun rv => rv.Is .f64 := fun o =>
    .after (total_created (t := .f64) rfl) fun v hv => .pure (is_made hv)
  unfold arithDouble
  split
  · exact hmade _
  · exact hmade _
  · exact hmade _
  · exact hmade _
  · exact hmade _
  · exact .after (total_createCall _ _ _) fun r hr => .pure ⟨rfl, hr.1, hr.2⟩
  · exact .after (total_error _ _) fun _ _ => .pure ⟨rfl, rfl, rfl⟩

theorem isF64_of_isPtr {t : Ty} (h : t.isPtr = true) : t.isF64 = false := by
  cases t <;> first | rfl | cases h

theorem isF64_intResult (t u : Ty) : (intResult t u).isF64 = false := by
  unfold intResult
  split
  · next h => exact isF64_of_isPtr h
  · split
    · next h => exact isF64_of_isPtr h
    · split <;> rfl

theorem total_arithInt (op : P) (uns unsLeft : Bool) (rt : Ty) (x y : Value) (loc : SrcLoc)
    (hrt : rt.isF64 = false) (hx : isDbl x = false) :
    Total (arithInt op uns unsLeft rt x y loc) fun rv => rv.Is
      (.of (if op ∈ [.plus, .minus, .star, .slash, .percent, .amp, .pipe, .caret, .shl, .shr]
        then rt else .i64)) := by
  have hmade : ∀ o z, Total (do
      let v ← create (.bin o x z)
      return (⟨some v, rt⟩ : RV)) fun rv => rv.Is (.of rt) := fun o z =>
    .after (total_created (t := rt) (hx.trans hrt.symm)) fun v hv => .pure (is_made hv)
  have hshift : ∀ o, Total (do
      let z ← create (.bin .and y (cI64 63)) >>= fun c => create (.bin o x c)
      return (⟨some z, rt⟩ : RV)) fun rv => rv.Is (.of rt) := by
    intro o
    refine .after (Q := fun z => isDbl z = rt.isF64) ?_ fun v hv => .pure (is_made hv)
    exact .after (total_create _) fun c _ => total_created (t := rt) (hx.trans hrt.symm)
  unfold arithInt
  split
  case h_11 =>
    exact .after (total_createCall _ _ _) fun r hr => .pure ⟨rfl, hr.1, hr.2⟩
  case h_9 => exact hshift _
  case h_10 => exact hshift _
  case h_12 h₁ h₂ h₃ h₄ h₅ h₆ h₇ h₈ h₉ h₁₀ h₁₁ =>
    refine .after (total_error _ _) fun _ _ => .pure ?_
    rw [if_neg]
    · exact ⟨rfl, rfl, rfl⟩
    · simp only [List.mem_cons, List.not_mem_nil, or_false, not_or]
      exact ⟨h₁, h₂, h₃, h₄, h₅, h₆, h₇, h₈, h₉, h₁₀⟩
  all_goals exact hmade _ _

theorem total_arith (op : P) {a c : RV} {ka kc : Kind} (ha : a.Is ka) (hc : c.Is kc)
    (loc : SrcLoc) : Total (arith op a c loc) fun rv => rv.Is (arithKind op ka kc) := by
  unfold arith arithKind
  rw [ha.2.2, hc.2.2]
  split
  · refine .after (total_convert _ _ _) fun x _ => ?_
    exact .after (total_convert _ _ _) fun y _ => total_arithDouble op x y loc
  · refine .after (total_convert _ _ _) fun x hx => ?_
    refine .after (total_convert _ _ _) fun y _ => ?_
    rw [← ha.1, ← hc.1]
    exact total_arithInt op _ _ _ x y loc (isF64_intResult a.t c.t) hx

theorem total_cmp (op : P) (a c : RV) : Total (cmp op a c) fun _ => True := by
  have hmade : ∀ o, Total (create o) fun _ => True :=
    fun o => (total_create o).mono fun _ _ => trivial
  unfold cmp
  split
  · refine .after (total_convert _ _ _) fun x _ => ?_
    refine .after (total_convert _ _ _) fun y _ => ?_
    unfold cmpDouble
    split
    all_goals first | exact hmade _ | exact .pure trivial
  · refine .after (total_convert _ _ _) fun x _ => ?_
    refine .after (total_convert _ _ _) fun y _ => ?_
    unfold cmpInt
    split
    all_goals first | exact hmade _ | exact .pure trivial

end Hlang.Codegen
