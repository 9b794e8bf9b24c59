import Hlang.Codegen.Stretch
import Hlang.Codegen.Expr

/-!
# Hlang.Codegen.Spec — triples of the generators

`Spec x Q`: the generator `x` appends a stretch of code; if it reports no error,
its result and the marks of the stretch satisfy `Q`. `Silent x P` is a triple
without marks. The helpers on values and the operators are silent; what is kept of
a value is its `Shape`: the type, and whether the `Value*` is a double.
-/

namespace Hlang.Codegen

open Ir Gen

/-- The triple of a generator. -/
def Spec {α : Type} (x : Gen α) (Q : α → List Site → Prop) : Prop :=
  ∀ B : Builder, B.Wf → ∀ a B', x B = .ok (a, B') →
    ∃ ms, Stretch B B' ms ∧ (B'.errors = B.errors → Q a ms)

/-- The triple of a generator without side effects. -/
abbrev Silent {α : Type} (x : Gen α) (P : α → Prop) : Prop := Spec x fun a ms => ms = [] ∧ P a

section Rules

variable {α β : Type} {x : Gen α} {f : α → Gen β} {P Q : α → List Site → Prop}
  {S : β → List Site → Prop}

theorem Spec.mono (h : Spec x P) (hPQ : ∀ a ms, P a ms → Q a ms) : Spec x Q := by
  intro B hB a B' hx
  rcases h B hB a B' hx with ⟨ms, hst, hP⟩
  exact ⟨ms, hst, fun herr => hPQ a ms (hP herr)⟩

theorem Spec.pure {a : α} (h : Q a []) : Spec (pure a) Q := by
  intro B hB a' B' hx
  rcases Prod.mk.inj (Except.ok.inj hx) with ⟨rfl, rfl⟩
  exact ⟨[], .refl hB, fun _ => h⟩

theorem Spec.stop (s : Stop) : Spec (stop s) Q := by
  intro B _ a B' hx
  cases hx

/-- An error leaves nothing to show. -/
theorem Spec.error (loc : SrcLoc) (msg : String) {Q : Unit → List Site → Prop} :
    Spec (error loc msg) Q := by
  intro B hB a B' hx
  rcases Prod.mk.inj (Except.ok.inj hx) with ⟨_, rfl⟩
  refine ⟨[], (Stretch.refl hB).congr rfl rfl rfl (Nat.le_refl _) (List.prefix_append _ _), ?_⟩
  intro herr
  exact absurd (List.append_right_eq_self.mp herr) (List.cons_ne_nil _ _)

theorem Spec.bind (hx : Spec x P)
    (hf : ∀ a, Spec (f a) fun b ms => ∀ ms₀, P a ms₀ → S b (ms₀ ++ ms)) : Spec (x >>= f) S := by
  intro B hB b B'' hxf
  rcases bind_eq_ok.mp hxf with ⟨a, B', hxB, hfB⟩
  rcases hx B hB a B' hxB with ⟨ms₀, hst₀, hP⟩
  rcases hf a B' hst₀.wf b B'' hfB with ⟨ms, hst, hS⟩
  refine ⟨ms₀ ++ ms, hst₀.trans hst, ?_⟩
  intro herr
  -- no error at the end, so none in between
  have hB' : B'.errors = B.errors := by
    apply List.IsPrefix.eq_of_length_le
    · rw [← herr]
      exact hst.le.errors
    · exact hst₀.le.errors.length_le
  exact hS (herr.trans hB'.symm) ms₀ (hP hB')

theorem Spec.silent {P : α → Prop} (hx : Silent x P)
    (hf : ∀ a, Spec (f a) fun b ms => P a → S b ms) : Spec (x >>= f) S := by
  refine hx.bind ?_
  intro a
  refine (hf a).mono ?_
  rintro b ms hS ms₀ ⟨rfl, hP⟩
  exact hS hP

/-- After an error it does not matter what follows, as long as it is a stretch. -/
theorem Spec.after_error {loc : SrcLoc} {msg : String} {f : Unit → Gen β}
    (hf : Spec (f ()) fun _ _ => True) : Spec (Gen.error loc msg >>= f) S := by
  refine Spec.bind (P := fun _ _ => False) (Spec.error loc msg) ?_
  intro a
  refine hf.mono ?_
  intro b ms _ ms₀ h
  exact h.elim

theorem Spec.any (h : Spec x Q) : Spec x fun _ _ => True := h.mono fun _ _ _ => trivial

theorem Spec.emit {i : Instr} (hi : i.isTerminator = false) (hphi : ∀ dst inc, i ≠ .phi dst inc)
    {Q : Unit → List Site → Prop} (h : Q () (marksOf [i])) : Spec (emit i) Q := by
  intro B hB a B' hx
  rcases Prod.mk.inj (Except.ok.inj hx) with ⟨_, rfl⟩
  exact ⟨_, .push hB hi hphi, fun _ => h⟩

theorem Silent.create (o : Op) : Silent (create o) fun v => v.type = o.type := by
  intro B hB v B' hx
  rcases Prod.mk.inj (Except.ok.inj hx) with ⟨rfl, rfl⟩
  have hst : Stretch B (B.push (.op B.nextReg o)) [] := by
    refine .push hB rfl ?_
    intro dst inc h
    cases h
  exact ⟨[], hst.congr rfl rfl rfl (Nat.le_succ _) (List.prefix_refl _), fun _ => ⟨rfl, rfl⟩⟩

theorem Silent.createCall (ty : LTy) (callee : Value) (args : List Value) :
    Silent (createCall ty callee args) fun r =>
      r.any (·.type = .double) = decide (ty = .double) := by
  intro B hB r B' hx
  unfold Gen.createCall at hx
  split_ifs at hx with hty
  · rcases Prod.mk.inj (Except.ok.inj hx) with ⟨rfl, rfl⟩
    have hst : Stretch B (B.push (.call none callee args)) [] := by
      refine .push hB rfl ?_
      intro dst inc h
      cases h
    refine ⟨[], hst, fun _ => ⟨rfl, ?_⟩⟩
    rw [hty]
    rfl
  · rcases Prod.mk.inj (Except.ok.inj hx) with ⟨rfl, rfl⟩
    have hst : Stretch B (B.push (.call (some B.nextReg) callee args)) [] := by
      refine .push hB rfl ?_
      intro dst inc h
      cases h
    exact ⟨[], hst.congr rfl rfl rfl (Nat.le_succ _) (List.prefix_refl _), fun _ => ⟨rfl, rfl⟩⟩

theorem Silent.entryAlloca (ty : LTy) : Silent (entryAlloca ty) fun v => v.type = .ptr := by
  intro B hB v B' hx
  rcases Prod.mk.inj (Except.ok.inj hx) with ⟨rfl, rfl⟩
  exact ⟨[], (Stretch.refl hB).congr rfl rfl rfl (Nat.le_refl _) (List.prefix_refl _),
    fun _ => ⟨rfl, rfl⟩⟩

theorem Silent.ofOption (o : Option α) : Silent (ofOption o) fun a => o = some a := by
  cases o with
  | some a => exact .pure ⟨rfl, rfl⟩
  | none => exact .stop _

theorem Silent.weaken {P P' : α → Prop} (h : Silent x P) (hP : ∀ a, P a → P' a) : Silent x P' :=
  h.mono fun a _ hms => ⟨hms.1, hP a hms.2⟩

theorem Silent.true {P : α → Prop} (h : Silent x P) : Silent x fun _ => True :=
  h.weaken fun _ _ => trivial

theorem Silent.bind {P : α → Prop} {P' : β → Prop} (hx : Silent x P)
    (hf : ∀ a, Silent (f a) fun b => P a → P' b) : Silent (x >>= f) P' := by
  refine Spec.silent hx ?_
  intro a
  exact (hf a).mono fun _ _ h hP => ⟨h.1, h.2 hP⟩

theorem Silent.pure {a : α} {P : α → Prop} (h : P a) : Silent (pure a) P := Spec.pure ⟨rfl, h⟩

end Rules

/-! ## Helpers on values -/

/-- What is kept of a value: its type, and whether the `Value*` is a double. -/
structure Shape where
  t : Ty
  dbl : Bool

def RV.shape (rv : RV) : Shape := ⟨rv.t, rv.isDouble⟩

/-- The `Value*` is a double. -/
def isDbl (v : Value) : Bool := v.type = .double

theorem silent_asPtr (v : Option Value) : Silent (asPtr v) fun _ => True := by
  unfold asPtr
  split
  · exact .stop _
  · split_ifs
    · exact .pure trivial
    · exact (Silent.create _).true

theorem silent_ptrToI64 (v : Value) : Silent (ptrToI64 v) fun w => isDbl w = isDbl v := by
  unfold ptrToI64
  split_ifs with hv
  · refine (Silent.create _).weaken ?_
    intro w hw
    unfold isDbl
    rw [hw, hv]
    rfl
  · exact .pure rfl

theorem silent_widen (v : Value) (t : Ty) :
    Silent (widen v t) fun w => isDbl v = t.isF64 → isDbl w = t.isF64 := by
  have hcreate : ∀ o : Op, o.type = .int 64 → t.isF64 = false →
      Silent (create o) fun w => isDbl v = t.isF64 → isDbl w = t.isF64 := by
    intro o ho ht
    refine (Silent.create o).weaken ?_
    intro w hw _
    unfold isDbl
    rw [hw, ho, ht]
    rfl
  unfold widen
  by_cases ht : t.isF64 = true
  · rw [if_pos ht]
    exact .pure id
  · have ht' : t.isF64 = false := Bool.eq_false_iff.mpr ht
    rw [if_neg ht]
    split_ifs with hp h64
    · exact hcreate _ rfl ht'
    · exact .pure id
    · split
      · exact hcreate _ rfl ht'
      · exact hcreate _ rfl ht'

/-- The load from an lvalue, if there is one. -/
def loadLV (Γ : Env) (lv : LV) : Gen RV :=
  match lv.addr with
  | none => pure RV.zero
  | some a => loadFrom Γ a lv.t

/-- What `convert` does to the integer: a narrow one is extended again. -/
def normalizeNarrow (dst : Ty) (norm : Bool) (iv : Value) : Gen Value :=
  match dst with
  | .int n uns =>
      if norm && decide (0 < n ∧ n < 8) then do
        let tr ← create (.trunc (n * 8) iv)
        if uns then create (.zext tr) else create (.sext tr)
      else pure iv
  | _ => pure iv

theorem silent_convert (rv : RV) (dst : Ty) (norm : Bool) :
    Silent (convert rv dst norm) fun w => isDbl w = dst.isF64 := by
  have hcreate : ∀ o : Op, isDbl (.reg o.type 0) = dst.isF64 →
      Silent (create o) fun w => isDbl w = dst.isF64 := by
    intro o ho
    refine (Silent.create o).weaken ?_
    intro w hw
    rw [← ho]
    unfold isDbl
    rw [hw]
    rfl
  unfold convert
  cases rv.v with
  | none =>
      refine .pure ?_
      by_cases hd : dst.isF64 = true
      · rw [if_pos hd, hd]
        rfl
      · rw [if_neg hd, Bool.eq_false_iff.mpr hd]
        rfl
  | some v =>
      dsimp only
      by_cases hd : dst.isF64 = true
      · rw [if_pos hd]
        split_ifs with hv
        · refine .pure ?_
          rw [hd]
          exact decide_eq_true hv
        · refine (silent_ptrToI64 v).bind ?_
          intro iv
          split
          · exact (hcreate (.uitofp iv) hd.symm).weaken fun _ h _ => h
          · exact (hcreate (.sitofp iv) hd.symm).weaken fun _ h _ => h
      · rw [if_neg hd]
        have hd' : dst.isF64 = false := Bool.eq_false_iff.mpr hd
        have hint : ∀ bits, isDbl (.reg (.int bits) 0) = dst.isF64 := fun _ => hd'.symm
        -- the integer before it is normalised is no double
        have hnorm : ∀ iv, Silent (normalizeNarrow dst norm iv) fun w =>
            isDbl iv = dst.isF64 → isDbl w = dst.isF64 := by
          intro iv
          unfold normalizeNarrow
          split
          · split_ifs
            · refine Silent.bind (hcreate _ (hint _)) ?_
              intro tr
              exact (hcreate (.zext tr) (hint 64)).weaken fun _ h _ _ => h
            · refine Silent.bind (hcreate _ (hint _)) ?_
              intro tr
              exact (hcreate (.sext tr) (hint 64)).weaken fun _ h _ _ => h
            · exact .pure id
          · exact .pure id
        split_ifs with hv
        · exact (hcreate (.fptosi v) (hint 64)).bind hnorm
        · refine ((silent_ptrToI64 v).weaken ?_).bind hnorm
          intro w hw
          rw [hw, hd']
          exact decide_eq_false hv

theorem silent_truthy (rv : RV) (loc : SrcLoc) : Silent (truthy rv loc) fun _ => True := by
  unfold truthy
  split
  · exact Spec.after_error (Spec.pure trivial)
  · split_ifs
    · exact (Silent.create _).true
    · refine (silent_ptrToI64 _).bind ?_
      intro v
      exact (Silent.create _).weaken fun _ _ _ => trivial

theorem silent_boolToI64 (v : Value) : Silent (boolToI64 v) fun w => isDbl w = false := by
  refine (Silent.create _).weaken ?_
  intro w hw
  unfold isDbl
  rw [hw]
  rfl

theorem silent_strRV (s : String) : Silent (strRV s) fun rv => rv.shape = ⟨.ptr .u8, false⟩ := by
  unfold strRV
  refine (Silent.create _).bind ?_
  intro v
  refine .pure ?_
  intro hv
  unfold RV.shape RV.isDouble
  simp only [Option.any_some, hv]
  rfl

theorem silent_storeTo (Γ : Env) (addr : Value) (rv : RV) (t : Ty) :
    Silent (storeTo Γ addr rv t) fun _ => True := by
  have hemit : ∀ i : Instr, i.isTerminator = false → (∀ dst inc, i ≠ .phi dst inc) →
      marksOf [i] = [] → Silent (emit i) fun _ => True :=
    fun i hi hphi hm => Spec.emit hi hphi ⟨hm, trivial⟩
  unfold storeTo
  refine (Silent.ofOption _).true.bind ?_
  intro t
  split_ifs
  · refine (silent_asPtr _).bind ?_
    intro src
    refine (hemit _ rfl ?_ rfl).weaken fun _ _ _ _ => trivial
    intro dst inc h
    cases h
  · have hstore : ∀ mt v, Silent (emit (.store mt v addr)) fun _ => True := by
      intro mt v
      refine hemit _ rfl ?_ rfl
      intro dst inc h
      cases h
    dsimp only
    split_ifs
    · exact (silent_convert _ _ _).bind fun v => (hstore _ v).weaken fun _ _ _ _ => trivial
    · refine (silent_convert _ _ _).bind ?_
      intro iv
      split
      · exact (hstore _ _).weaken fun _ _ _ _ => trivial
      · exact (Silent.create _).bind fun v => (hstore _ v).weaken fun _ _ _ _ _ => trivial
      · exact (hstore _ _).weaken fun _ _ _ _ => trivial

/-- The shape of what `loadFrom` gives for storage of type `t`. -/
def Env.loadShape (Γ : Env) (t : Ty) : Option Shape :=
  (accessType Γ.heap Γ.classFuel t).map fun
    | .array elem _ => ⟨.ptr elem, false⟩
    | .cls c => ⟨.ptr (.cls c), false⟩
    | t => ⟨t, t.isF64⟩

theorem isDbl_memTy (Γ : Env) (t : Ty) : decide (Γ.memTy t = .double) = t.isF64 := by
  cases t <;> rfl

theorem silent_loadFrom (Γ : Env) (addr : Value) (t : Ty) :
    Silent (loadFrom Γ addr t) fun rv => Γ.loadShape t = some rv.shape := by
  unfold loadFrom Env.loadShape
  refine (Silent.ofOption _).bind ?_
  intro t'
  have haddr : ∀ (elem : Ty), Silent (do
      let v ← create (.ptrtoint addr)
      return (⟨some v, .ptr elem⟩ : RV)) fun rv => rv.shape = ⟨.ptr elem, false⟩ := by
    intro elem
    refine (Silent.create _).bind ?_
    intro v
    refine .pure ?_
    intro hv
    unfold RV.shape RV.isDouble
    simp only [Option.any_some, hv]
    rfl
  split
  · refine (haddr _).weaken ?_
    intro rv hrv ht
    rw [ht, hrv]
    rfl
  · refine (haddr _).weaken ?_
    intro rv hrv ht
    rw [ht, hrv]
    rfl
  · refine (Silent.create _).bind ?_
    intro v
    refine (silent_widen v t').bind ?_
    intro w
    refine .pure ?_
    intro hw hv ht
    have hdbl : isDbl w = t'.isF64 := by
      apply hw
      rw [← isDbl_memTy Γ]
      unfold isDbl
      rw [hv]
      rfl
    rw [ht]
    unfold RV.shape RV.isDouble
    simp only [Option.map_some, Option.any_some]
    change some _ = some (Shape.mk t' (isDbl w))
    rw [hdbl]

/-! ## Operators -/

/-- The type of the result of an integer operation. -/
def intResult (t u : Ty) : Ty :=
  if t.isPtr then t else if u.isPtr then u else if isU64 t || isU64 u then .u64 else .i64

/-- The shape of what `arith` gives. -/
def arithShape (op : P) (a c : Shape) : Shape :=
  if (a.dbl || c.dbl) && !isBitwise op then ⟨.f64, true⟩
  else if op = .pow then ⟨.i64, false⟩
  else ⟨intResult a.t c.t, false⟩

theorem silent_arithDouble (op : P) (x y : Value) (loc : SrcLoc) :
    Silent (arithDouble op x y loc) fun rv => rv.shape = ⟨.f64, true⟩ := by
  have hcreate : ∀ o, Silent (do
      let v ← create (.fbin o x y)
      return (⟨some v, .f64⟩ : RV)) fun rv => rv.shape = ⟨.f64, true⟩ := by
    intro o
    refine (Silent.create _).bind ?_
    intro v
    refine .pure ?_
    intro hv
    unfold RV.shape RV.isDouble
    simp only [Option.any_some, hv]
    rfl
  unfold arithDouble
  split
  · exact hcreate _
  · exact hcreate _
  · exact hcreate _
  · exact hcreate _
  · exact hcreate _
  · refine (Silent.createCall _ _ _).bind ?_
    intro r
    refine .pure ?_
    intro hr
    unfold RV.shape RV.isDouble
    rw [hr]
    rfl
  · exact Spec.after_error (Spec.pure trivial)

theorem silent_arithInt (op : P) (uns unsLeft : Bool) (rt : Ty) (x y : Value) (loc : SrcLoc) :
    Silent (arithInt op uns unsLeft rt x y loc) fun rv =>
      isDbl x = false → rv.shape = ⟨if op = .pow then .i64 else rt, false⟩ := by
  have hcreate : ∀ o z, op ≠ .pow → Silent (do
      let v ← create (.bin o x z)
      return (⟨some v, rt⟩ : RV)) fun rv =>
        isDbl x = false → rv.shape = ⟨if op = .pow then .i64 else rt, false⟩ := by
    intro o z hop
    refine (Silent.create _).bind ?_
    intro v
    refine .pure ?_
    intro hv hx
    unfold RV.shape RV.isDouble
    simp only [Option.any_some, hv, if_neg hop]
    exact congrArg (Shape.mk rt) hx
  have hshift : ∀ o, op ≠ .pow → Silent (do
      let z ← create (.bin .and y (cI64 63)) >>= fun c => create (.bin o x c)
      return (⟨some z, rt⟩ : RV)) fun rv =>
        isDbl x = false → rv.shape = ⟨if op = .pow then .i64 else rt, false⟩ := by
    intro o hop
    have hz : Silent (create (.bin .and y (cI64 63)) >>= fun c => create (.bin o x c))
        fun z => isDbl x = false → isDbl z = false := by
      refine (Silent.create _).bind ?_
      intro c
      refine (Silent.create _).weaken ?_
      intro z hz _ hx
      unfold isDbl
      rw [hz]
      exact hx
    refine hz.bind ?_
    intro z
    refine .pure ?_
    intro hz hx
    unfold RV.shape RV.isDouble
    simp only [Option.any_some, if_neg hop]
    exact congrArg (Shape.mk rt) (hz hx)
  unfold arithInt
  split
  case h_11 =>
    refine (Silent.createCall _ _ _).bind ?_
    intro r
    refine .pure ?_
    intro hr _
    unfold RV.shape RV.isDouble
    rw [hr]
    rfl
  case h_9 => exact hshift _ (by decide)
  case h_10 => exact hshift _ (by decide)
  case h_12 => exact Spec.after_error (Spec.pure trivial)
  all_goals exact hcreate _ _ (by decide)

theorem silent_arith (op : P) (a c : RV) (loc : SrcLoc) :
    Silent (arith op a c loc) fun rv => rv.shape = arithShape op a.shape c.shape := by
  unfold arith
  by_cases hd : ((a.isDouble || c.isDouble) && !isBitwise op) = true
  · have hshape : arithShape op a.shape c.shape = ⟨.f64, true⟩ := if_pos hd
    rw [if_pos hd, hshape]
    refine (silent_convert _ _ _).bind ?_
    intro x
    refine (silent_convert _ _ _).bind ?_
    intro y
    exact (silent_arithDouble op x y loc).weaken fun _ h _ _ => h
  · have hshape : arithShape op a.shape c.shape =
        ⟨if op = .pow then .i64 else intResult a.t c.t, false⟩ := by
      have hif : arithShape op a.shape c.shape =
          if op = .pow then ⟨.i64, false⟩ else ⟨intResult a.t c.t, false⟩ := if_neg hd
      rw [hif]
      split_ifs <;> rfl
    rw [if_neg hd, hshape]
    refine (silent_convert _ _ _).bind ?_
    intro x
    refine (silent_convert _ _ _).bind ?_
    intro y
    exact (silent_arithInt _ _ _ _ x y loc).weaken fun _ h _ hx => h hx

theorem silent_cmp (op : P) (a c : RV) : Silent (cmp op a c) fun _ => True := by
  unfold cmp
  split_ifs
  · refine (silent_convert _ _ _).bind ?_
    intro x
    refine (silent_convert _ _ _).bind ?_
    intro y
    unfold cmpDouble
    split
    all_goals first
      | exact (Silent.create _).weaken fun _ _ _ _ => trivial
      | exact .pure fun _ _ => trivial
  · refine (silent_convert _ _ _).bind ?_
    intro x
    refine (silent_convert _ _ _).bind ?_
    intro y
    unfold cmpInt
    split
    all_goals first
      | exact (Silent.create _).weaken fun _ _ _ _ => trivial
      | exact .pure fun _ _ => trivial

end Hlang.Codegen
