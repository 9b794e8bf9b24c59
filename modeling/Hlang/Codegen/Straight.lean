import Hlang.Codegen.Join

/-!
# Hlang.Codegen.Straight — the code of every expression is a stretch

`Makes x P`: the generator `x` appends a stretch of code, and its result satisfies
`P`, also where it reports an error. One rule for each generator, and an induction on
the depth. A chain of comparisons has at least one (`Expr.Chained`): the parser builds
no other, in an expression or in a default argument that a type carries along.
-/

namespace Hlang

mutual

/-- Every chain of comparisons in a default argument of the type has at least one. -/
inductive Ty.Chained : Ty → Prop where
  | void : Ty.Chained .void
  | int (n : Nat) (uns : Bool) : Ty.Chained (.int n uns)
  | f64 : Ty.Chained .f64
  | ptr {t : Ty} (h : Ty.Chained t) : Ty.Chained (.ptr t)
  | array {t : Ty} {n : I64} (h : Ty.Chained t) : Ty.Chained (.array t n)
  | cls (c : ClassId) : Ty.Chained (.cls c)
  | func {ret : Ty} {params : List FuncParam} {variadic : Bool} (hret : Ty.Chained ret)
      (hparams : ∀ p ∈ params, Ty.Chained p.type)
      (hdflt : ∀ p ∈ params, ∀ e, p.dflt = some e → Expr.Chained e) :
      Ty.Chained (.func ret params variadic)

/-- Every chain of comparisons in the expression has at least one. -/
inductive Expr.Chained : Expr → Prop where
  | intLit (n : Node) (v : I64) : Expr.Chained (.intLit n v)
  | floatLit (n : Node) (q : ℚ) : Expr.Chained (.floatLit n q)
  | strLit (n : Node) (s : String) : Expr.Chained (.strLit n s)
  | charLit (n : Node) (v : I64) : Expr.Chained (.charLit n v)
  | ident (n : Node) (s : String) : Expr.Chained (.ident n s)
  | unary {n : Node} {p : P} {pre : Bool} {k : Expr} (h : Expr.Chained k) :
      Expr.Chained (.unary n p pre k)
  | binary {n : Node} {p : P} {a c : Expr} (ha : Expr.Chained a) (hc : Expr.Chained c) :
      Expr.Chained (.binary n p a c)
  | chainCmp {n : Node} {first : Expr} {rest : List (P × Expr)} (hfirst : Expr.Chained first)
      (hne : rest ≠ []) (hrest : ∀ e ∈ rest, Expr.Chained e.2) :
      Expr.Chained (.chainCmp n first rest)
  | assign {n : Node} {p : P} {a c : Expr} (ha : Expr.Chained a) (hc : Expr.Chained c) :
      Expr.Chained (.assign n p a c)
  | call {n : Node} {callee : Expr} {args : List (Option Expr)} (hcallee : Expr.Chained callee)
      (hargs : ∀ e, some e ∈ args → Expr.Chained e) : Expr.Chained (.call n callee args)
  | index {n : Node} {a c : Expr} (ha : Expr.Chained a) (hc : Expr.Chained c) :
      Expr.Chained (.index n a c)
  | member {n : Node} {a : Expr} {s : String} {isArrow : Bool} (ha : Expr.Chained a) :
      Expr.Chained (.member n a s isArrow)
  | cast {n : Node} {k : Expr} {t : Ty} (hk : Expr.Chained k) (ht : Ty.Chained t) :
      Expr.Chained (.cast n k t)
  | sizeofType (n : Node) (t : Ty) : Expr.Chained (.sizeofType n t)
  | sizeofExpr (n : Node) (k : Expr) : Expr.Chained (.sizeofExpr n k)
  | offsetOf (n : Node) (c m : String) (r : Option ClassId) : Expr.Chained (.offsetOf n c m r)
  | lastClass (n : Node) : Expr.Chained (.lastClass n)
  | initList {n : Node} {kids : List Expr} (h : ∀ e ∈ kids, Expr.Chained e) :
      Expr.Chained (.initList n kids)

end

theorem Ty.Chained.elem {t : Ty} (h : (Ty.ptr t).Chained) : t.Chained := by
  cases h with
  | ptr h => exact h

theorem Ty.Chained.item {t : Ty} {n : I64} (h : (Ty.array t n).Chained) : t.Chained := by
  cases h with
  | array h => exact h

theorem chained_i64 : Ty.i64.Chained := .int _ _

theorem chained_u8 : Ty.u8.Chained := .int _ _

namespace Codegen

open Ir Gen

/-- The types of a function are `Chained`. -/
structure FuncType.Chained (f : FuncType) : Prop where
  ret : f.ret.Chained
  params : ∀ p ∈ f.params, p.type.Chained
  dflt : ∀ p ∈ f.params, ∀ e, p.dflt = some e → e.Chained

/-- The types an environment gives to names are `Chained`. -/
structure Env.Chained (Γ : Env) : Prop where
  var : ∀ s v, Γ.lookupVar s = some v → v.type.Chained
  func : ∀ s f, Γ.findFunc s = some f → f.type.Chained
  member : ∀ c, ∀ m ∈ (Γ.heap c).members, m.type.Chained
  whole : ∀ c w, (Γ.heap c).wholeType = some w → w.Chained

theorem FuncType.Chained.mk_of {ret : Ty} {params : List FuncParam} {variadic : Bool}
    (h : (Ty.func ret params variadic).Chained) : FuncType.Chained ⟨ret, params, variadic⟩ := by
  cases h with
  | func hret hparams hdflt => exact ⟨hret, hparams, hdflt⟩

theorem chained_subIntType {s : String} {t : Ty} (h : subIntType s = some t) : t.Chained := by
  unfold subIntType at h
  split at h
  case h_9 => cases h
  all_goals
    rcases Option.some.inj h with rfl
    exact .int _ _

namespace Env.Chained

variable {Γ : Env}

theorem findMember (h : Γ.Chained) {c : ClassId} {s : String} {m : ClassMember}
    (hm : Γ.findMember c s = some (some m)) : m.type.Chained := by
  unfold Env.findMember at hm
  generalize Γ.classFuel = fuel at hm
  induction fuel generalizing c with
  | zero => cases hm
  | succ fuel ih =>
      unfold Hlang.findMember at hm
      split at hm
      · next m' hfind =>
          rcases Option.some.inj (Option.some.inj hm) with rfl
          exact h.member c _ (List.mem_of_find?_eq_some hfind)
      · split at hm
        · exact ih hm
        · cases Option.some.inj hm

theorem accessType (h : Γ.Chained) {t t' : Ty} (ht : t.Chained)
    (hm : accessType Γ.heap Γ.classFuel t = some t') : t'.Chained := by
  generalize Γ.classFuel = fuel at hm
  induction fuel generalizing t with
  | zero => cases hm
  | succ fuel ih =>
      unfold Hlang.accessType at hm
      split at hm
      · next w hw =>
          rcases Option.bind_eq_some_iff.mp hw with ⟨c, _, hc⟩
          exact ih (h.whole c w hc) hm
      · rcases Option.some.inj hm with rfl
        exact ht

theorem memberType (h : Γ.Chained) {bt t : Ty} {s : String}
    (ht : Γ.memberType bt s = some t) : t.Chained := by
  have hother : ((subIntType s).getD .i64).Chained := by
    cases hs : subIntType s with
    | none => exact chained_i64
    | some t => exact chained_subIntType hs
  unfold Env.memberType at ht
  split at ht
  · rcases Option.map_eq_some_iff.mp ht with ⟨m, hm, rfl⟩
    cases m with
    | none => exact hother
    | some m => exact h.findMember hm
  · rcases Option.some.inj ht with rfl
    exact hother

theorem typeOf (h : Γ.Chained) : ∀ (e : Expr) (t : Ty), e.Chained → Γ.typeOf e = some t →
    t.Chained
  | .intLit _ _, t, _, ht | .charLit _ _, t, _, ht | .sizeofType _ _, t, _, ht
  | .sizeofExpr _ _, t, _, ht | .offsetOf _ _ _ _, t, _, ht | .chainCmp _ _ _, t, _, ht
  | .lastClass _, t, _, ht | .initList _ _, t, _, ht => by
      rcases Option.some.inj ht with rfl
      exact chained_i64
  | .floatLit _ _, t, _, ht => by
      rcases Option.some.inj ht with rfl
      exact .f64
  | .strLit _ _, t, _, ht => by
      rcases Option.some.inj ht with rfl
      exact .ptr chained_u8
  | .cast _ _ t', t, he, ht => by
      rcases Option.some.inj ht with rfl
      cases he with
      | cast _ ht => exact ht
  | .ident _ s, t, _, ht => by
      simp only [Env.typeOf] at ht
      split at ht
      · next v hv =>
          rcases Option.some.inj ht with rfl
          exact h.var s v hv
      · split at ht
        · next f hf =>
            rcases Option.some.inj ht with rfl
            exact (h.func s f hf).ret
        · rcases Option.some.inj ht with rfl
          exact chained_i64
  | .unary _ p _ k, t, he, ht => by
      have hk : k.Chained := by
        cases he with
        | unary hk => exact hk
      simp only [Env.typeOf] at ht
      split at ht
      · rcases Option.map_eq_some_iff.mp ht with ⟨t', ht', rfl⟩
        exact .ptr (typeOf h k t' hk ht')
      · rcases Option.map_eq_some_iff.mp ht with ⟨t', ht', rfl⟩
        have hc := typeOf h k t' hk ht'
        split
        · exact hc.elem
        · exact chained_u8
      · rcases Option.some.inj ht with rfl
        exact chained_i64
      · exact typeOf h k t hk ht
  | .binary _ _ a c, t, he, ht => by
      cases he with
      | binary ha hc =>
          simp only [Env.typeOf] at ht
          rcases Option.bind_eq_some_iff.mp ht with ⟨ta, hta, ht⟩
          rcases Option.bind_eq_some_iff.mp ht with ⟨tc, htc, ht⟩
          have hca := typeOf h a ta ha hta
          have hcc := typeOf h c tc hc htc
          split_ifs at ht
          · rcases Option.some.inj ht with rfl
            exact .f64
          · rcases Option.some.inj ht with rfl
            exact hca
          · rcases Option.some.inj ht with rfl
            exact hcc
          · rcases Option.some.inj ht with rfl
            exact chained_i64
  | .assign _ _ a _, t, he, ht => by
      cases he with
      | assign ha _ => exact typeOf h a t ha ht
  | .index _ b _, t, he, ht => by
      cases he with
      | index hb _ =>
          rcases Option.map_eq_some_iff.mp ht with ⟨t', ht', rfl⟩
          have hc := typeOf h b t' hb ht'
          split
          · exact hc.elem
          · exact hc.item
          · exact chained_u8
  | .member _ b s isArrow, t, _, ht => by
      simp only [Env.typeOf] at ht
      rcases Option.bind_eq_some_iff.mp ht with ⟨bt, _, ht⟩
      split at ht
      · split_ifs at ht
        · exact h.memberType ht
        · exact h.memberType ht
      · exact h.memberType ht
  | .call _ callee _, t, he, ht => by
      have hcallee : callee.Chained := by
        cases he with
        | call h _ => exact h
      simp only [Env.typeOf] at ht
      split at ht
      · next t' hknown =>
          rcases Option.some.inj ht with rfl
          split at hknown
          · split at hknown
            · next f hf =>
                rcases Option.some.inj hknown with rfl
                exact (h.func _ f hf).ret
            · split_ifs at hknown
              rcases Option.some.inj hknown with rfl
              exact .f64
          · cases hknown
      · rcases Option.bind_eq_some_iff.mp ht with ⟨tc, htc, ht⟩
        have hc := typeOf h callee tc hcallee htc
        split at ht
        · rcases Option.some.inj ht with rfl
          exact (FuncType.Chained.mk_of hc).ret
        · rcases Option.some.inj ht with rfl
          exact (FuncType.Chained.mk_of hc.elem).ret
        · rcases Option.some.inj ht with rfl
          exact chained_i64

end Env.Chained

/-! ## The triple -/

/-- The generator appends a stretch of code, and its result satisfies `P`. -/
def Makes {α : Type} (x : Gen α) (P : α → Prop) : Prop :=
  ∀ B : Builder, B.Wf → ∀ a B', x B = .ok (a, B') → (∃ ms, Stretch B B' ms) ∧ P a

section Rules

variable {α β : Type} {x : Gen α} {f : α → Gen β} {P Q : α → Prop} {S : β → Prop}

theorem Spec.makes {R : α → List Site → Prop} (h : Spec x R) : Makes x fun _ => True := by
  intro B hB a B' hx
  rcases h B hB a B' hx with ⟨ms, hst, _⟩
  exact ⟨⟨ms, hst⟩, trivial⟩

theorem Makes.mono (h : Makes x P) (hPQ : ∀ a, P a → Q a) : Makes x Q := by
  intro B hB a B' hx
  exact ⟨(h B hB a B' hx).1, hPQ a (h B hB a B' hx).2⟩

theorem Makes.pure {a : α} (h : P a) : Makes (pure a) P := by
  intro B hB a' B' hx
  rcases Prod.mk.inj (Except.ok.inj hx) with ⟨rfl, rfl⟩
  exact ⟨⟨[], .refl hB⟩, h⟩

theorem Makes.any (a : α) : Makes (Pure.pure a) fun _ => True := .pure trivial

theorem Makes.stop (s : Stop) : Makes (stop s) P := by
  intro B _ a B' hx
  cases hx

theorem Makes.bind (hx : Makes x P) (hf : ∀ a, P a → Makes (f a) S) : Makes (x >>= f) S := by
  intro B hB b B'' hxf
  rcases bind_eq_ok.mp hxf with ⟨a, B', hxB, hfB⟩
  rcases hx B hB a B' hxB with ⟨⟨ms, hst⟩, hP⟩
  rcases hf a hP B' hst.wf b B'' hfB with ⟨⟨ms', hst'⟩, hS⟩
  exact ⟨⟨ms ++ ms', hst.trans hst'⟩, hS⟩

/-- What comes before does not matter. -/
theorem Makes.after {R : α → List Site → Prop} (hx : Spec x R) (hf : ∀ a, Makes (f a) S) :
    Makes (x >>= f) S := hx.makes.bind fun a _ => hf a

theorem Makes.error {loc : SrcLoc} {msg : String} {f : Unit → Gen β} (hf : Makes (f ()) S) :
    Makes (Gen.error loc msg >>= f) S :=
  Makes.after (R := fun _ _ => True) (Spec.error loc msg) fun _ => hf

theorem Makes.ofOption {o : Option α} (h : ∀ a, o = some a → P a) : Makes (ofOption o) P := by
  cases o with
  | some a => exact .pure (h a rfl)
  | none => exact .stop _

theorem makes_mark (s : Site) : Makes (emit (.mark s)) fun _ => True := by
  refine (Spec.emit rfl ?_ (Q := fun _ _ => True) trivial).makes
  intro dst inc h
  cases h

end Rules

/-! ## Operators -/

theorem makes_arithInt (op : P) (uns unsLeft : Bool) {rt : Ty} (x y : Value) (loc : SrcLoc)
    (hrt : rt.Chained) : Makes (arithInt op uns unsLeft rt x y loc) fun rv => rv.t.Chained := by
  have hone : ∀ o, Makes (do return (⟨some (← create o), rt⟩ : RV)) fun rv => rv.t.Chained :=
    fun o => .after (Silent.create o) fun _ => .pure hrt
  have htwo : ∀ o : Value → Op, Makes (do
      let z ← create (.bin .and y (cI64 63)) >>= fun c => create (o c)
      return (⟨some z, rt⟩ : RV)) fun rv => rv.t.Chained := by
    intro o
    refine .bind (P := fun _ => True) ?_ fun _ _ => .pure hrt
    exact .after (Silent.create _) fun c => (Silent.create (o c)).makes
  unfold arithInt
  split
  case h_9 | h_10 => exact htwo _
  case h_11 => exact .after (Silent.createCall _ _ _) fun _ => .pure chained_i64
  case h_12 => exact .error (.pure chained_i64)
  all_goals exact hone _

theorem makes_arith (op : P) {a c : RV} (loc : SrcLoc) (ha : a.t.Chained) (hc : c.t.Chained) :
    Makes (arith op a c loc) fun rv => rv.t.Chained := by
  unfold arith
  split
  · refine .after (silent_convert _ _ _) fun x => .after (silent_convert _ _ _) fun y => ?_
    unfold arithDouble
    split
    case h_6 => exact .after (Silent.createCall _ _ _) fun _ => .pure .f64
    case h_7 => exact .error (.pure .f64)
    all_goals exact .after (Silent.create _) fun _ => .pure .f64
  · refine .after (silent_convert _ _ _) fun x => .after (silent_convert _ _ _) fun y => ?_
    refine makes_arithInt op _ _ x y loc ?_
    split_ifs
    · exact ha
    · exact hc
    · exact .int _ _
    · exact chained_i64

theorem makes_loadFrom {Γ : Env} (h : Γ.Chained) (addr : Value) {t : Ty} (ht : t.Chained) :
    Makes (loadFrom Γ addr t) fun rv => rv.t.Chained := by
  unfold loadFrom
  refine .bind (.ofOption fun t' ht' => h.accessType ht ht') ?_
  intro t' ht'
  split
  · exact .after (Silent.create _) fun _ => .pure (.ptr ht'.item)
  · exact .after (Silent.create _) fun _ => .pure (.ptr (.cls _))
  · exact .after (Silent.create _) fun _ => .after (silent_widen _ _) fun _ => .pure ht'

/-! ## Calls -/

/-- The two recursive functions append stretches of code. -/
structure Rec.Straight (R : Rec) : Prop where
  expr : ∀ cs e, e.Chained → Makes (R.genExpr cs e) fun rv => rv.t.Chained
  lvalue : ∀ cs e, e.Chained → Makes (R.genLValue cs e) fun lv => lv.t.Chained

section Nodes

variable {Γ : Env} {R : Rec} {cs : List Nat}

theorem makes_genParam (hR : R.Straight) (n : Node) (i : Nat) {p : FuncParam}
    {arg : Arg} {prev : Option Ty} (hp : ∀ e, p.dflt = some e → e.Chained)
    (harg : ∀ e, arg = some e → e.Chained) :
    Makes (genParam Γ R cs n i p arg prev) fun _ => True := by
  unfold genParam
  extract_lets rest
  have hrest : ∀ a, Makes (rest a) fun _ => True := by
    intro a
    unfold rest
    extract_lets convertTo
    have hconvert : ∀ t, Makes (convertTo t) fun _ => True := by
      intro t
      unfold convertTo
      split_ifs
      · exact .after (silent_convert _ _ _) fun _ => .any _
      · exact .after (silent_convert _ _ _) fun _ => .any _
    split
    · exact .after (Silent.ofOption _) hconvert
    · exact .bind (.any _) fun t _ => hconvert t
  split
  · next e => exact .bind (hR.expr cs e (harg e rfl)) fun a _ => hrest a
  · split
    · exact .after (silent_strRV _) hrest
    · split
      · next e he => exact .bind (hR.expr _ e (hp e he)) fun a _ => hrest a
      · exact .error (.bind (.any _) fun a _ => hrest a)

theorem makes_genParams (hR : R.Straight) (n : Node) {ps : List FuncParam}
    (hps : ∀ p ∈ ps, ∀ e, p.dflt = some e → e.Chained) :
    ∀ {i : Nat} {args : List Arg} {prev : Option Ty}, (∀ e, some e ∈ args → e.Chained) →
    Makes (genParams Γ R cs n i ps args prev) fun _ => True := by
  induction ps with
  | nil => exact fun _ => .pure trivial
  | cons p ps ih =>
      intro i args prev hargs
      unfold genParams
      have harg : ∀ e, args.head?.getD none = some e → e.Chained := by
        intro e he
        cases args with
        | nil => cases he
        | cons a args =>
            have ha : a = some e := he
            exact hargs e (ha ▸ List.mem_cons_self)
      have htail : ∀ e, some e ∈ args.tail → e.Chained :=
        fun e he => hargs e (List.mem_of_mem_tail he)
      refine .bind (makes_genParam hR n i (hps p List.mem_cons_self) harg) ?_
      intro v _
      refine .bind (ih (fun p hp => hps p (List.mem_cons_of_mem _ hp)) htail) ?_
      exact fun _ _ => .pure trivial

theorem makes_genExtra (hR : R.Straight) (n : Node) {args : List Arg}
    (hargs : ∀ e, some e ∈ args → e.Chained) :
    Makes (genExtra R cs n args) fun _ => True := by
  induction args with
  | nil => exact .pure trivial
  | cons a args ih =>
      have ih := ih fun e he => hargs e (List.mem_cons_of_mem _ he)
      cases a with
      | none =>
          unfold genExtra
          exact .error (.bind ih fun _ _ => .pure trivial)
      | some e =>
          unfold genExtra
          refine .bind (hR.expr cs e (hargs e List.mem_cons_self)) ?_
          intro a _
          extract_lets rest
          have hrest : ∀ v, Makes (rest v) fun _ => True :=
            fun v => .bind ih fun _ _ => .any _
          split
          · split_ifs
            · exact .after (Silent.create _) hrest
            · exact .after (silent_convert _ _ _) hrest
          · exact .after (silent_convert _ _ _) hrest

theorem makes_emitStore (ty : LTy) (v addr : Value) :
    Makes (emit (.store ty v addr)) fun _ => True := by
  refine (Spec.emit rfl ?_ (Q := fun _ _ => True) trivial).makes
  intro dst inc h
  cases h

theorem makes_storeExtra (arr : Value) (i : Nat) (vs : List Value) :
    Makes (storeExtra arr i vs) fun _ => True := by
  induction vs generalizing i with
  | nil => exact .pure trivial
  | cons v vs ih =>
      unfold storeExtra
      exact .after (Silent.create _) fun _ => .bind (makes_emitStore _ _ _) fun _ _ => ih _

theorem makes_genCallTo (hR : R.Straight) (n : Node) {sym : FuncSym}
    {args : List Arg} (fnPtr : Option Value) (hsym : sym.type.Chained)
    (hargs : ∀ e, some e ∈ args → e.Chained) :
    Makes (genCallTo Γ R cs n sym args fnPtr) fun rv => rv.t.Chained := by
  unfold genCallTo
  extract_lets np callWith rest
  have hcall : ∀ vs, Makes (callWith vs) fun rv => rv.t.Chained := by
    intro vs
    unfold callWith
    extract_lets emitCall
    have hemit : ∀ callee, Makes (emitCall callee) fun rv => rv.t.Chained := by
      intro callee
      refine .bind (makes_mark _) fun _ _ => .after (Silent.createCall _ _ _) fun r => ?_
      split
      · exact .pure .void
      · exact .pure hsym.ret
    split
    · exact .bind (.any _) fun callee _ => hemit callee
    · exact .after (silent_asPtr _) hemit
  have hrest : ∀ args : List Arg, (∀ e, some e ∈ args → e.Chained) →
      Makes (rest args) fun rv => rv.t.Chained := by
    intro args hargs
    unfold rest
    refine .bind (makes_genParams hR n hsym.dflt hargs) ?_
    intro vs _
    split_ifs
    · refine .bind (makes_genExtra hR n fun e he => hargs e (List.mem_of_mem_drop he)) ?_
      intro extra _
      split_ifs
      · exact .bind (.any _) fun _ _ => .bind (.any _) fun vs _ => hcall vs
      · refine .after (Silent.entryAlloca _) fun al => .bind (makes_storeExtra al 0 extra) ?_
        intro _ _
        exact .after (Silent.create _) fun _ => .bind (.any _) fun vs _ => hcall vs
    · exact .bind (.any _) fun vs _ => hcall vs
  split_ifs
  · refine .error (.bind (P := fun as => as = args.take np) (.pure rfl) ?_)
    rintro _ rfl
    exact hrest _ fun e he => hargs e (List.mem_of_mem_take he)
  · refine .bind (P := fun as => as = args) (.pure rfl) ?_
    rintro _ rfl
    exact hrest _ hargs

theorem makes_genUntypedArgs (hR : R.Straight) (n : Node) {args : List Arg}
    (hargs : ∀ e, some e ∈ args → e.Chained) :
    Makes (genUntypedArgs R cs n args) fun _ => True := by
  induction args with
  | nil => exact .pure trivial
  | cons a args ih =>
      have ih := ih fun e he => hargs e (List.mem_cons_of_mem _ he)
      cases a with
      | none =>
          unfold genUntypedArgs
          exact .error (.bind ih fun _ _ => .pure trivial)
      | some e =>
          unfold genUntypedArgs
          refine .bind (hR.expr cs e (hargs e List.mem_cons_self)) ?_
          intro a _
          extract_lets rest
          have hrest : ∀ v, Makes (rest v) fun _ => True :=
            fun v => .bind ih fun _ _ => .any _
          split
          · split_ifs
            · exact .bind (.any _) fun v _ => hrest v
            · exact .after (silent_convert _ _ _) hrest
          · exact .after (silent_convert _ _ _) hrest

theorem makes_genIntrinsic (hR : R.Straight) (n : Node) (name : String) {args : List Arg}
    (hargs : ∀ e, some e ∈ args → e.Chained) :
    Makes (genIntrinsic R cs n name args) fun rv => rv.t.Chained := by
  unfold genIntrinsic
  split
  · next e =>
      refine .bind (hR.expr cs e (hargs e List.mem_cons_self)) ?_
      intro v _
      split_ifs
      · exact .after (silent_convert _ _ _) fun _ => .pure .f64
      · exact .after (silent_truthy _ _) fun _ => .after (silent_boolToI64 _) fun _ =>
          .pure chained_i64
      · exact .after (silent_convert _ _ _) fun _ => .pure chained_i64
  · exact .error (.pure chained_i64)

theorem chained_calledType {t : Ty} {ft : FuncType} (ht : t.Chained)
    (hft : calledType t = some ft) : ft.Chained := by
  unfold calledType at hft
  split at hft
  · rcases Option.some.inj hft with rfl
    exact .mk_of ht.elem
  · rcases Option.some.inj hft with rfl
    exact .mk_of ht
  · cases hft

theorem makes_genIndirect (hR : R.Straight) (n : Node) {callee : Expr}
    {args : List Arg} (hcallee : callee.Chained) (hargs : ∀ e, some e ∈ args → e.Chained) :
    Makes (genIndirect Γ R cs n callee args) fun rv => rv.t.Chained := by
  unfold genIndirect
  refine .bind (hR.expr cs callee hcallee) ?_
  intro fv hfv
  split
  · next ft hft => exact makes_genCallTo hR n fv.v (chained_calledType hfv hft) hargs
  · refine .bind (makes_genUntypedArgs hR n hargs) fun vs _ => .after (silent_asPtr _) fun fp => ?_
    exact .bind (makes_mark _) fun _ _ => .after (Silent.createCall _ _ _) fun _ =>
      .pure chained_i64

theorem makes_genCall (hΓ : Γ.Chained) (hR : R.Straight) (n : Node) {callee : Expr}
    {args : List Arg} (hcallee : callee.Chained) (hargs : ∀ e, some e ∈ args → e.Chained) :
    Makes (genCall Γ R cs n callee args) fun rv => rv.t.Chained := by
  unfold genCall
  split
  · split
    · exact makes_genIndirect hR n hcallee hargs
    · split_ifs
      · exact makes_genIntrinsic hR n _ hargs
      · split
        · next f hf => exact makes_genCallTo hR n none (hΓ.func _ f hf) hargs
        · exact .error (.pure chained_i64)
  · exact makes_genIndirect hR n hcallee hargs

/-! ## Lvalues -/

theorem makes_genMemberLV (hΓ : Γ.Chained) (hR : R.Straight) (n : Node) {base : Expr} (s : String)
    (isArrow : Bool) (hbase : base.Chained) :
    Makes (genMemberLV Γ R cs n base s isArrow) fun lv => lv.t.Chained := by
  unfold genMemberLV
  extract_lets rest
  have hrest : ∀ b, Makes (rest b) fun lv => lv.t.Chained := by
    intro b
    unfold rest
    split
    · exact .pure .void
    · refine .bind (P := fun m => ∀ m', m = some m' → m'.type.Chained) ?_ ?_
      · refine .ofOption ?_
        rintro m hm m' rfl
        exact hΓ.findMember hm
      · intro m hm
        split
        · next m' => exact .after (Silent.create _) fun _ => .pure (hm m' rfl)
        · exact .error (.pure .void)
    · extract_lets sub
      have hsub : ∀ t, sub = some t → t.Chained := by
        intro t ht
        unfold sub at ht
        split at ht
        · exact chained_subIntType ht
        · exact chained_subIntType ht
        · cases ht
      clear_value sub
      split
      · next t => exact .pure (hsub t rfl)
      · exact .error (.pure .void)
  split
  · refine .bind (hR.expr cs base hbase) fun p _ => .after (silent_asPtr _) fun a => ?_
    split
    · exact .bind (.any _) fun b _ => hrest b
    · exact .bind (.any _) fun b _ => hrest b
  · refine .bind (hR.lvalue cs base hbase) fun lv _ => ?_
    split
    · exact .bind (.any _) fun b _ => hrest b
    · exact .bind (.any _) fun b _ => hrest b

theorem makes_genSubIntLV (hR : R.Straight) {base idx : Expr} (hbase : base.Chained)
    (hidx : idx.Chained) :
    Makes (genSubIntLV Γ R cs base idx) fun r => ∀ lv, r = some lv → lv.t.Chained := by
  have hnone : ∀ lv : LV, none = some lv → lv.t.Chained := fun _ h => by cases h
  unfold genSubIntLV
  split
  · next q s =>
      cases hbase with
      | member hq =>
          split
          · exact .pure hnone
          · next sub hsub =>
              refine .bind (hR.lvalue cs q hq) fun blv _ => ?_
              split
              · exact .pure hnone
              · split_ifs
                · refine .bind (hR.expr cs idx hidx) fun iv _ => ?_
                  refine .after (silent_convert _ _ _) fun _ => .after (Silent.create _) fun _ => ?_
                  refine .after (Silent.create _) fun _ => .pure ?_
                  rintro lv h
                  rcases Option.some.inj h with rfl
                  exact chained_subIntType hsub
                · exact .pure hnone
  · exact .pure hnone

theorem chained_elementTy {t : Ty} (h : t.Chained) : (elementTy t).Chained := by
  unfold elementTy
  split
  · exact chained_u8
  · exact h

theorem makes_genElementLV (hΓ : Γ.Chained) (hR : R.Straight) {base idx : Expr}
    (hbase : base.Chained) (hidx : idx.Chained) :
    Makes (genElementLV Γ R cs base idx) fun lv => lv.t.Chained := by
  unfold genElementLV
  refine .bind (.ofOption fun t ht => hΓ.typeOf base t hbase ht) ?_
  intro t ht
  extract_lets rest
  have hrest : ∀ b, (∀ v elem, b = some (v, elem) → elem.Chained) →
      Makes (rest b) fun lv => lv.t.Chained := by
    intro b hb
    unfold rest
    split
    · exact .pure .void
    · next bv elem =>
        extract_lets elem'
        have helem : elem'.Chained := chained_elementTy (hb _ _ rfl)
        refine .bind (hR.expr cs idx hidx) fun iv _ => .after (silent_convert _ _ _) fun _ => ?_
        refine .after (Silent.create _) fun off => ?_
        split
        · exact .stop _
        · refine .after (silent_ptrToI64 _) fun _ => .after (Silent.create _) fun _ => ?_
          exact .after (silent_asPtr _) fun _ => .pure helem
  have hsome : ∀ (v : Option Value) (elem : Ty), elem.Chained →
      Makes (pure (some (v, elem)) >>= rest) fun lv => lv.t.Chained := by
    intro v elem helem
    refine .bind (P := fun b => b = some (v, elem)) (.pure rfl) ?_
    rintro _ rfl
    refine hrest (some (v, elem)) ?_
    rintro v' elem' h
    rcases Prod.mk.inj (Option.some.inj h) with ⟨_, rfl⟩
    exact helem
  split
  · refine .bind (hR.lvalue cs base hbase) fun blv _ => ?_
    split
    · refine .bind (P := fun b => b = none) (.pure rfl) ?_
      rintro _ rfl
      exact hrest none fun _ _ h => by cases h
    · exact .after (Silent.create _) fun a => hsome _ _ ht.item
  · refine .bind (hR.expr cs base hbase) fun bv hbv => ?_
    split
    · next elem helem =>
        rw [helem] at hbv
        exact hsome _ _ hbv.elem
    · exact hsome _ _ chained_u8

theorem makes_genIndexLV (hΓ : Γ.Chained) (hR : R.Straight) {base idx : Expr}
    (hbase : base.Chained) (hidx : idx.Chained) :
    Makes (genIndexLV Γ R cs base idx) fun lv => lv.t.Chained := by
  unfold genIndexLV
  refine .bind (makes_genSubIntLV hR hbase hidx) fun r hr => ?_
  split
  · exact .pure (hr _ rfl)
  · exact makes_genElementLV hΓ hR hbase hidx

/-! ## Operators on expressions -/

theorem makes_genIdent (hΓ : Γ.Chained) (hR : R.Straight) (n : Node) (s : String) :
    Makes (genIdent Γ R cs n s) fun rv => rv.t.Chained := by
  unfold genIdent
  split
  · next v hv => exact makes_loadFrom hΓ v.addr (hΓ.var s v hv)
  · split
    · next f hf =>
        exact makes_genCallTo hR n none (hΓ.func s f hf) fun e he => absurd he List.not_mem_nil
    · exact .error (.pure chained_i64)

theorem makes_genAddressOf (hΓ : Γ.Chained) (hR : R.Straight) {k : Expr} (hk : k.Chained) :
    Makes (genAddressOf Γ R cs k) fun rv => rv.t.Chained := by
  unfold genAddressOf
  extract_lets f
  have hf : ∀ g, f = some g → g.type.Chained := by
    intro g hg
    unfold f at hg
    split at hg
    · split_ifs at hg
      exact hΓ.func _ g hg
    · cases hg
  clear_value f
  split
  · next f t =>
      have ht : t.Chained := hf ⟨some f, t⟩ rfl
      refine .after (Silent.create _) fun _ => .pure (.ptr (.func ht.ret ht.params ht.dflt))
  · refine .bind (hR.lvalue cs k hk) fun lv hlv => ?_
    split
    · exact .pure chained_i64
    · exact .after (Silent.create _) fun _ => .pure (.ptr hlv)

theorem makes_genDeref (hΓ : Γ.Chained) (hR : R.Straight) {k : Expr} (hk : k.Chained) :
    Makes (genDeref Γ R cs k) fun rv => rv.t.Chained := by
  unfold genDeref
  refine .bind (hR.expr cs k hk) fun p hp => ?_
  split
  · exact .pure hp
  · exact .pure hp
  · refine .after (silent_asPtr _) fun _ => makes_loadFrom hΓ _ ?_
    split
    · exact chained_u8
    · next elem h =>
        rw [h] at hp
        exact hp.elem
    · exact chained_u8

theorem makes_genStep (hΓ : Γ.Chained) (hR : R.Straight) (n : Node) (p : P) (pre : Bool) {k : Expr}
    (hk : k.Chained) : Makes (genStep Γ R cs n p pre k) fun rv => rv.t.Chained := by
  unfold genStep
  refine .bind (hR.lvalue cs k hk) fun lv hlv => ?_
  split
  · exact .pure chained_i64
  · refine .bind (makes_loadFrom hΓ _ hlv) fun old hold => ?_
    split
    · exact .stop _
    · extract_lets rest
      have hrest : ∀ v, Makes (rest v) fun rv => rv.t.Chained := by
        intro v
        refine .bind (makes_mark _) fun _ _ => .after (silent_storeTo _ _ _ _) fun _ => ?_
        exact .pure hold
      split
      · exact .after (Silent.create _) hrest
      · exact .after (Silent.create _) hrest

theorem makes_genUnary (hΓ : Γ.Chained) (hR : R.Straight) (n : Node) (p : P) (pre : Bool)
    {k : Expr} (hk : k.Chained) : Makes (genUnary Γ R cs n p pre k) fun rv => rv.t.Chained := by
  unfold genUnary
  split
  · exact makes_genAddressOf hΓ hR hk
  · exact makes_genDeref hΓ hR hk
  · refine .bind (hR.expr cs k hk) fun v _ => .after (silent_truthy _ _) fun _ => ?_
    exact .after (Silent.create _) fun _ => .after (silent_boolToI64 _) fun _ => .pure chained_i64
  · refine .bind (hR.expr cs k hk) fun v _ => .after (silent_convert _ _ _) fun _ => ?_
    exact .after (Silent.create _) fun _ => .pure chained_i64
  · refine .bind (hR.expr cs k hk) fun v hv => ?_
    split_ifs with _ hint
    · exact .after (silent_convert _ _ _) fun _ => .after (Silent.create _) fun _ => .pure .f64
    · exact .after (silent_convert _ _ _) fun _ => .after (Silent.create _) fun _ => .pure hv
    · exact .after (silent_convert _ _ _) fun _ => .after (Silent.create _) fun _ =>
        .pure chained_i64
  · exact hR.expr cs k hk
  · exact makes_genStep hΓ hR n _ pre hk
  · exact makes_genStep hΓ hR n _ pre hk
  · exact .error (.pure chained_i64)

/-- The first two numbers from `n` on. -/
theorem two_new (n b : Nat) : b = n ∨ b = n + 1 ↔ n ≤ b ∧ b < n + 2 := by omega

/-- The branch that may leave out the right operand, and the join. -/
theorem makes_shortCircuit (isAnd : Bool) {x y : Gen Value} (hx : Makes x fun _ => True)
    (hy : Makes y fun _ => True) : Makes (shortCircuit isAnd x y) fun rv => rv.t.Chained := by
  intro B hB rv B' h
  unfold shortCircuit joinShort at h
  rcases bind_eq_ok.mp h with ⟨av, B₁, hxB, h⟩
  rcases hx B hB av B₁ hxB with ⟨⟨ms, hst⟩, _⟩
  -- the two new blocks are pending while the first of them is filled
  have hwf := hst.wf
  let rhsBB := B₁.nextBlk
  let endBB := B₁.nextBlk + 1
  let i : Instr := if isAnd then .condBr av rhsBB endBB else .condBr av endBB rhsBB
  let B₂ := B₁.alloc 2
  let B₃ := B₂.jump i rhsBB
  have hrhs : B₂.Pending rhsBB := hwf.pending (Nat.le_refl _) (Nat.lt_add_of_pos_right Nat.two_pos)
  have hend : B₂.Pending endBB := hwf.pending (Nat.le_succ _) (Nat.lt_succ_self _)
  have hne : rhsBB ≠ endBB := Nat.ne_of_lt (Nat.lt_succ_self _)
  have hwf₃ : B₃.Wf := (hwf.alloc 2).jump i hrhs.lt
  have hend₃ : B₃.Pending endBB := hend.jump i hne.symm
  have h' : (y >>= fun cv => joinShort isAnd B₁.cur endBB cv) B₃ = .ok (rv, B') := by
    cases isAnd <;> exact h
  rcases bind_eq_ok.mp h' with ⟨cv, B₄, hyB, hjoin⟩
  rcases hy B₃ hwf₃ cv B₄ hyB with ⟨⟨ms', hst'⟩, _⟩
  rcases hst'.seg with ⟨seg, hseg, _⟩
  have hescape : Escape [rhsBB] B₂ (B₄.push (.br endBB)) endBB [B₂.cur, B₄.cur]
      ((B₂.cur, i) :: (seg ++ [(B₄.cur, .br endBB)])) := by
    refine Escape.cond (hwf.alloc 2) hend hrhs hne ?_ ?_ ?_
    · unfold i
      cases isAnd <;> rfl
    · intro t
      unfold i
      cases isAnd <;> simp [Instr.targets, or_comm]
    · exact (Escape.last hst'.wf (hst'.pending hend₃)).after hend₃ hst'.wf hseg hst'.le
  rcases Prod.mk.inj (Except.ok.inj hjoin) with ⟨rfl, rfl⟩
  refine ⟨⟨_, hst.trans (hescape.close hend ?_ ?_ rfl)⟩, chained_i64⟩
  · exact fun hmem => hne (List.mem_singleton.mp hmem).symm
  · intro b
    rw [List.mem_singleton]
    exact two_new B₁.nextBlk b

theorem makes_genBinary (hR : R.Straight) (n : Node) (op : P) {a c : Expr} (ha : a.Chained)
    (hc : c.Chained) : Makes (genBinary R cs n op a c) fun rv => rv.t.Chained := by
  have hshort : ∀ isAnd, Makes (genShortCircuit R cs n isAnd a c) fun rv => rv.t.Chained := by
    intro isAnd
    have heq : genShortCircuit R cs n isAnd a c =
        shortCircuit isAnd (R.genExpr cs a >>= fun rv => truthy rv n.loc)
          (R.genExpr cs c >>= fun rv => truthy rv n.loc >>= boolToI64) := by
      unfold genShortCircuit shortCircuit joinShort
      simp only [bind_assoc]
    rw [heq]
    refine makes_shortCircuit isAnd ?_ ?_
    · exact .bind (hR.expr cs a ha) fun v _ => (silent_truthy v n.loc).makes
    · exact .bind (hR.expr cs c hc) fun v _ => .after (silent_truthy v n.loc) fun z =>
        (silent_boolToI64 z).makes
  unfold genBinary
  split
  · exact hshort true
  · exact hshort false
  · refine .bind (hR.expr cs a ha) fun a _ => .bind (hR.expr cs c hc) fun c _ => ?_
    refine .after (silent_truthy _ _) fun x => .after (silent_truthy _ _) fun y => ?_
    exact .after (Silent.create _) fun _ => .after (silent_boolToI64 _) fun _ => .pure chained_i64
  · refine .bind (hR.expr cs a ha) fun a _ => .bind (hR.expr cs c hc) fun c _ => ?_
    exact .after (silent_cmp _ a c) fun _ => .after (silent_boolToI64 _) fun _ => .pure chained_i64
  · refine .bind (hR.expr cs a ha) fun a _ => .bind (hR.expr cs c hc) fun c _ => ?_
    exact .after (silent_cmp _ a c) fun _ => .after (silent_boolToI64 _) fun _ => .pure chained_i64
  · exact .bind (hR.expr cs a ha) fun a hat => .bind (hR.expr cs c hc) fun c hct =>
      makes_arith op n.loc hat hct

/-- The code of a chain, up to the last branch to its end block. -/
theorem escape_genChain (hR : R.Straight) {endBB : Blk} {rest : List (P × Expr)} (hne : rest ≠ [])
    (hrest : ∀ e ∈ rest, e.2.Chained) {B B' : Builder} {prev : RV} {incoming : List (Value × Blk)}
    (hB : B.Wf) (hend : B.Pending endBB)
    (h : genChain R cs endBB prev rest B = .ok (incoming, B')) :
    ∃ seg, Escape [] B B' endBB (incoming.map Prod.snd) seg := by
  induction rest generalizing B prev incoming with
  | nil => exact absurd rfl hne
  | cons e rest ih =>
      rcases e with ⟨op, e⟩
      have he : e.Chained := hrest (op, e) List.mem_cons_self
      unfold genChain at h
      rcases bind_eq_ok.mp h with ⟨cur, B₀, hexpr, h⟩
      rcases bind_eq_ok.mp h with ⟨c, B₁, hcmp, h⟩
      rcases hR.expr cs e he B hB cur B₀ hexpr with ⟨⟨ms₀, hst₀⟩, _⟩
      rcases (silent_cmp op prev cur).makes B₀ hst₀.wf c B₁ hcmp with ⟨⟨ms₁, hst₁⟩, _⟩
      have hst := hst₀.trans hst₁
      have hwf := hst.wf
      have hend₁ := hst.pending hend
      split_ifs at h with hlast
      · -- the last comparison: its value, and the branch to the end
        rcases Prod.mk.inj (Except.ok.inj h) with ⟨rfl, rfl⟩
        rcases (silent_boolToI64 c).makes B₁ hwf _ _ rfl with ⟨⟨ms₂, hst₂⟩, _⟩
        rcases (hst.trans hst₂).seg with ⟨seg, hseg, _⟩
        exact ⟨_, (Escape.last hst₂.wf (hst₂.pending hend₁)).after hend hst₂.wf hseg
          (hst.trans hst₂).le⟩
      · -- go on in a new block, or leave
        rcases hst.seg with ⟨seg₁, hseg₁, _⟩
        have hne' : rest ≠ [] := fun hnil => hlast (by rw [hnil]; rfl)
        let next := B₁.nextBlk
        let B₂ := B₁.alloc 1
        let i : Instr := .condBr c next endBB
        have hnext : B₂.Pending next := hwf.pending (Nat.le_refl _) (Nat.lt_succ_self _)
        have hend₂ : B₂.Pending endBB := ⟨Nat.lt_succ_of_lt hend₁.lt, hend₁.code, hend₁.ne⟩
        have hnn : next ≠ endBB := Nat.ne_of_gt hend₁.lt
        have h' : (genChain R cs endBB cur rest >>= fun incoming =>
            pure ((cI64 0, B₁.cur) :: incoming)) (B₂.jump i next) = .ok (incoming, B') := h
        rcases bind_eq_ok.mp h' with ⟨inc, B₃, hchain, hret⟩
        rcases Prod.mk.inj (Except.ok.inj hret) with ⟨rfl, rfl⟩
        rcases ih hne' (fun e he => hrest e (List.mem_cons_of_mem _ he))
          ((hwf.alloc 1).jump i hnext.lt) (hend₂.jump i hnn.symm) hchain with ⟨seg, hesc⟩
        refine ⟨_, ((Escape.cond (hwf.alloc 1) hend₂ hnext hnn rfl ?_ hesc).alloc).after hend hwf
          hseg₁ hst.le⟩
        intro t
        simp [i, Instr.targets]

theorem makes_genChainCmp (hR : R.Straight) {first : Expr} {rest : List (P × Expr)}
    (hfirst : first.Chained) (hne : rest ≠ []) (hrest : ∀ e ∈ rest, e.2.Chained) :
    Makes (genChainCmp R cs first rest) fun rv => rv.t.Chained := by
  intro B hB rv B' h
  let endBB := B.nextBlk
  have hend : (B.alloc 1).Pending endBB := hB.pending (Nat.le_refl _) (Nat.lt_succ_self _)
  have h' : (R.genExpr cs first >>= fun prev => genChain R cs endBB prev rest >>= fun incoming => do
      setInsertPoint endBB
      return ⟨some (← createPhi incoming), .i64⟩) (B.alloc 1) = .ok (rv, B') := h
  rcases bind_eq_ok.mp h' with ⟨prev, B₁, hexpr, h'⟩
  rcases bind_eq_ok.mp h' with ⟨incoming, B₂, hchain, h'⟩
  rcases Prod.mk.inj (Except.ok.inj h') with ⟨rfl, rfl⟩
  rcases hR.expr cs first hfirst _ (hB.alloc 1) prev B₁ hexpr with ⟨⟨ms, hst⟩, _⟩
  rcases escape_genChain hR hne hrest hst.wf (hst.pending hend) hchain with ⟨seg, hesc⟩
  rcases hst.seg with ⟨seg₁, hseg₁, _⟩
  refine ⟨⟨_, (hesc.after hend hst.wf hseg₁ hst.le).close hend List.not_mem_nil ?_ rfl⟩,
    chained_i64⟩
  intro b
  rw [or_iff_right List.not_mem_nil]
  exact (Nat.le_antisymm_iff.trans (and_comm.trans
    (and_congr_right fun _ => Nat.lt_succ_iff.symm)))

/-! ## One level, and all of them -/

theorem makes_genStore (n : Node) (lv : LV) {rhs : RV} (hrhs : rhs.t.Chained) :
    Makes (genStore Γ cs n lv rhs) fun rv => rv.t.Chained := by
  unfold genStore
  split
  · exact .bind (makes_mark _) fun _ _ => .after (silent_storeTo _ _ _ _) fun _ => .pure hrhs
  · exact .pure hrhs

theorem makes_genAssign (hΓ : Γ.Chained) (hR : R.Straight) (n : Node) (op : P) {a c : Expr}
    (ha : a.Chained) (hc : c.Chained) :
    Makes (genAssign Γ R cs n op a c) fun rv => rv.t.Chained := by
  unfold genAssign
  refine .bind (hR.lvalue cs a ha) fun lv hlv => ?_
  split_ifs
  · exact .bind (hR.expr cs c hc) fun rv hrv => makes_genStore n lv hrv
  · split
    · exact .bind (hR.expr cs c hc) fun _ _ => .pure chained_i64
    · refine .bind (makes_loadFrom hΓ _ hlv) fun old hold => ?_
      refine .bind (hR.expr cs c hc) fun rv hrv => ?_
      exact .bind (makes_arith _ _ hold hrv) fun rv hrv => makes_genStore n lv hrv

theorem makes_genExprStep (hΓ : Γ.Chained) (hR : R.Straight) {e : Expr} (he : e.Chained) :
    Makes (genExprStep Γ R cs e) fun rv => rv.t.Chained := by
  have hload : ∀ lv : LV, lv.t.Chained → Makes (loadLV Γ lv) fun rv => rv.t.Chained := by
    intro lv hlv
    unfold loadLV
    split
    · exact .pure chained_i64
    · exact makes_loadFrom hΓ _ hlv
  cases he with
  | intLit | charLit | sizeofType => exact .pure chained_i64
  | floatLit => exact .pure .f64
  | strLit => exact .after (Silent.create _) fun _ => .pure (.ptr chained_u8)
  | sizeofExpr => exact .after (Silent.ofOption _) fun _ => .pure chained_i64
  | offsetOf n c m r =>
      simp only [genExprStep]
      split
      · exact .pure chained_i64
      · exact .error (.pure chained_i64)
      · exact .stop _
  | ident n s => exact makes_genIdent hΓ hR n s
  | unary hk => exact makes_genUnary hΓ hR _ _ _ hk
  | binary ha hc => exact makes_genBinary hR _ _ ha hc
  | chainCmp hfirst hne hrest => exact makes_genChainCmp hR hfirst hne hrest
  | assign ha hc => exact makes_genAssign hΓ hR _ _ ha hc
  | call hcallee hargs => exact makes_genCall hΓ hR _ hcallee hargs
  | index ha hc => exact .bind (hR.lvalue cs _ (.index ha hc)) hload
  | member ha => exact .bind (hR.lvalue cs _ (.member ha)) hload
  | @cast _ k t hk ht =>
      simp only [genExprStep]
      refine .bind (hR.expr cs k hk) fun v _ => ?_
      split
      · exact .pure .void
      · split
        · exact .after (silent_ptrToI64 _) fun _ => .pure (.ptr ht)
        · exact .pure (.ptr ht)
      · split
        · exact .after (silent_ptrToI64 _) fun _ => .pure (.ptr ht)
        · exact .pure (.ptr ht)
      · exact .after (silent_convert _ _ _) fun _ => .pure ht
  | lastClass | initList => exact .error (.pure chained_i64)

theorem makes_genLValueStep (hΓ : Γ.Chained) (hR : R.Straight) {e : Expr} (he : e.Chained) :
    Makes (genLValueStep Γ R cs e) fun lv => lv.t.Chained := by
  have hnot : ∀ n, Makes (notLValue n) fun lv => lv.t.Chained := fun n => .error (.pure .void)
  cases he with
  | ident n s =>
      simp only [genLValueStep]
      split
      · next v hv => exact .pure (hΓ.var s v hv)
      · split
        · exact .error (.pure .void)
        · exact .error (.pure .void)
  | @unary n p pre k hk =>
      simp only [genLValueStep]
      split_ifs
      · refine .bind (hR.expr cs k hk) fun p hp => ?_
        split
        · exact hnot n
        · next elem _ h =>
            rw [h] at hp
            exact .after (silent_asPtr _) fun _ => .pure hp.elem
        · exact .after (silent_asPtr _) fun _ => .pure chained_u8
      · exact .bind (makes_genUnary hΓ hR n p pre hk) fun _ _ => hR.lvalue cs k hk
      · exact hnot n
  | index ha hc => exact makes_genIndexLV hΓ hR ha hc
  | member ha => exact makes_genMemberLV hΓ hR _ _ _ ha
  | @cast _ k t hk ht =>
      simp only [genLValueStep]
      refine .bind (hR.lvalue cs k hk) fun lv _ => ?_
      split
      · exact .pure ht
      · exact .pure .void
  | assign ha hc => exact .bind (hR.expr cs _ (.assign ha hc)) fun _ _ => hR.lvalue cs _ ha
  | _ => exact hnot _

/-- Every expression is a stretch of code, to whatever depth it is generated. -/
theorem straight_gen (hΓ : Γ.Chained) (d : Nat) : (gen Γ d).Straight := by
  induction d with
  | zero => exact ⟨fun _ _ _ => .stop _, fun _ _ _ => .stop _⟩
  | succ d ih =>
      exact ⟨fun _ _ he => makes_genExprStep hΓ ih he, fun _ _ he => makes_genLValueStep hΓ ih he⟩

end Nodes

end Codegen

end Hlang
