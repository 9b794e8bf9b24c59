import Hlang.Codegen.Visits

/-!
# Hlang.Codegen.Visited — the generators do what `steps` says

One lemma for each generator, for any recursive functions below it (`Rec.Visited`), and an
induction on the depth (`gen_visited`): code generation of an expression ends at a depth if
and only if its steps do, and it asks for a missing value if and only if a step that is
reached does.
-/

namespace Hlang.Codegen

open Ir Gen

/-- The lvalue is of the type, or there is none. -/
def LV.Is (lv : LV) (o : Option Ty) : Prop :=
  lv.addr.isSome = o.isSome ∧ ∀ t, o = some t → lv.t = t

/-- The generator does the steps, in order. -/
abbrev Visiting {α : Type} (E S : Visit → Prop) (x : Gen α) (ss : List Step) (Q : α → Prop) : Prop :=
  Outcome x (EndAll E ss) (SafeAll E S ss) Q

section Rules

variable {α β : Type} {E S : Visit → Prop} {x : Gen α} {f : α → Gen β} {P : Prop} {pos : Pos}
  {e : Expr} {s s' : List Step} {Q : α → Prop} {T : β → Prop}

theorem Visiting.done (hx : Total x Q) : Visiting E S x [] Q := hx

theorem Visiting.visit (hx : Outcome x (E (pos, e)) (S (pos, e)) Q)
    (hf : ∀ a, Q a → Visiting E S (f a) s T) : Visiting E S (x >>= f) (.visit pos e :: s) T :=
  hx.bind hf

theorem Visiting.dflt (hx : Outcome x (E (.rv, e)) (S (.rv, e)) Q)
    (hf : ∀ a, Q a → Visiting E S (f a) s T) : Visiting E S (x >>= f) (.dflt e :: s) T :=
  hx.bind hf

theorem Visiting.find (hx : Outcome x P True Q) (hf : ∀ a, Q a → Visiting E S (f a) s T) :
    Visiting E S (x >>= f) (.find P :: s) T :=
  (hx.bind hf).iff Iff.rfl (true_and _).to_iff

theorem Visiting.need (hx : Outcome x True P Q) (hf : ∀ a, Q a → Visiting E S (f a) s T) :
    Visiting E S (x >>= f) (.need P :: s) T :=
  (hx.bind hf).iff (true_and _).to_iff (by simp)

theorem Visiting.append (hx : Visiting E S x s Q) (hf : ∀ a, Q a → Visiting E S (f a) s' T) :
    Visiting E S (x >>= f) (s ++ s') T :=
  (Outcome.bind hx hf).iff endAll_append.symm safeAll_append.symm

/-- The generator of an operand, and nothing behind it. -/
theorem Visiting.last (hx : Outcome x (E (pos, e)) (S (pos, e)) Q) : Visiting E S x [.visit pos e] Q :=
  hx.iff (and_true _).to_iff.symm (by simp)

/-- A lookup, and nothing behind it. -/
theorem Visiting.last_find (hx : Outcome x P True Q) : Visiting E S x [.find P] Q :=
  hx.iff (and_true _).to_iff.symm (by simp)

/-- A value that is needed, and nothing behind it. -/
theorem Visiting.last_need (hx : Outcome x True P Q) : Visiting E S x [.need P] Q :=
  hx.iff Iff.rfl (and_true _).to_iff.symm

end Rules

/-- The recursive functions have outcomes `E` and `S`, and results of the kinds of their
expressions. -/
structure Rec.Visited (Γ : Env) (R : Rec) (E S : Visit → Prop) : Prop where
  rv : ∀ l e, Outcome (R.genExpr l e) (E (.rv, e)) (S (.rv, e)) fun rv =>
    ∃ k, Γ.rvKind e = some k ∧ rv.Is k
  lv : ∀ l e, Outcome (R.genLValue l e) (E (.lv, e)) (S (.lv, e)) fun lv =>
    ∃ o, Γ.lvKind e = some o ∧ lv.Is o

section Nodes

variable {Γ : Env} {R : Rec} {E S : Visit → Prop} {l : List Nat}

/-! ## Calls -/

theorem goes_genParam (hR : R.Visited Γ E S) (n : Node) (i : Nat) (p : FuncParam) (arg : Arg)
    (prev : Option Ty) :
    Visiting E S (genParam Γ R l n i p arg prev) (Γ.slotSteps p arg) fun _ => True := by
  unfold genParam
  extract_lets rest
  have hrest : ∀ a, Visiting E S (rest a) (arg.elim [] fun e => [.find ((Γ.typeOf e).isSome = true)])
      fun _ => True := by
    intro a
    unfold rest
    extract_lets convertTo
    have hconvert : ∀ t, Total (convertTo t) fun _ => True := by
      intro t
      unfold convertTo
      split
      · exact .after (total_convert _ _ _) fun _ _ => .pure trivial
      · exact .after (total_convert _ _ _) fun _ _ => .pure trivial
    cases arg with
    | some e => exact .find (outcome_ofOption _) fun t _ => .done (hconvert t)
    | none => exact .done (hconvert _)
  cases arg with
  | some e => exact .visit (hR.rv l e) fun a _ => hrest a
  | none =>
      dsimp only
      unfold Env.slotSteps
      split
      · exact .after (total_strRV _) fun a _ => hrest a
      · split
        · next e he =>
            rw [he]
            exact .dflt (hR.rv _ e) fun a _ => hrest a
        · next he =>
            rw [he]
            exact .after (total_error _ _) fun _ _ => hrest _

theorem goes_genParams (hR : R.Visited Γ E S) (n : Node) (ps : List FuncParam) :
    ∀ (i : Nat) (args : List Arg) (prev : Option Ty),
      Visiting E S (genParams Γ R l n i ps args prev) (Γ.argSteps ps args) fun _ => True := by
  induction ps with
  | nil => exact fun _ _ _ => .done (.pure trivial)
  | cons p ps ih =>
      intro i args prev
      unfold genParams Env.argSteps
      refine .append (goes_genParam hR n i p (args.head?.getD none) prev) fun v _ => ?_
      exact .before (ih (i + 1) args.tail (some v.2)) fun vs _ => .pure trivial

theorem goes_genExtra (hR : R.Visited Γ E S) (n : Node) (args : List Arg) :
    Visiting E S (genExtra R l n args) (written args) fun _ => True := by
  induction args with
  | nil => exact .done (.pure trivial)
  | cons a args ih =>
      cases a with
      | none =>
          unfold genExtra
          exact .after (total_error _ _) fun _ _ => .before ih fun _ _ => .pure trivial
      | some e =>
          unfold genExtra
          refine .visit (s := written args) (hR.rv l e) fun a _ => ?_
          extract_lets rest
          have hrest : ∀ v, Visiting E S (rest v) (written args) fun _ => True :=
            fun v => .before ih fun _ _ => .pure trivial
          split
          · split
            · exact .after (total_create _) fun v _ => hrest v
            · exact .after (total_convert _ _ _) fun v _ => hrest v
          · exact .after (total_convert _ _ _) fun v _ => hrest v

theorem total_storeExtra (arr : Value) (vs : List Value) :
    ∀ i, Total (storeExtra arr i vs) fun _ => True := by
  induction vs with
  | nil => exact fun _ => .pure trivial
  | cons v vs ih =>
      intro i
      unfold storeExtra
      exact .after (total_create _) fun _ _ => .after (total_emit _) fun _ _ => ih _

/-- The result of a call is of the kind of the function's type. -/
theorem total_callResult (ft : FuncType) (callee : Value) (vs : List Value) : Total (do
    let r ← createCall (retTy ft.ret) callee vs
    match ft.ret with
    | .void => return ⟨none, .void⟩
    | rt => return ⟨r, rt⟩) fun rv : RV => rv.Is ft.kind := by
  unfold FuncType.kind
  refine .after (total_createCall _ _ _) fun r hr => ?_
  cases h : ft.ret with
  | void => exact .pure ⟨rfl, rfl, rfl⟩
  | f64 =>
      rw [h] at hr
      exact .pure ⟨rfl, hr.1, hr.2⟩
  | int _ _ | ptr _ | array _ _ | cls _ | func _ _ _ =>
      rw [h] at hr
      exact .pure ⟨rfl, hr.1, hr.2⟩

theorem goes_genCallTo (hR : R.Visited Γ E S) (n : Node) (sym : FuncSym) (args : List Arg)
    (fnPtr : Option Value) {P : Prop} (hP : (sym.fn.isSome = true ∨ fnPtr.isSome = true) ↔ P) :
    Visiting E S (genCallTo Γ R l n sym args fnPtr) (Γ.callSteps sym.type args P)
      fun rv => rv.Is sym.type.kind := by
  unfold genCallTo Env.callSteps
  extract_lets np callWith rest
  have hcall : ∀ vs, Visiting E S (callWith vs) [.need P] fun rv => rv.Is sym.type.kind := by
    intro vs
    unfold callWith
    extract_lets emitCall
    have hemit : ∀ callee, Total (emitCall callee) fun rv => rv.Is sym.type.kind :=
      fun callee => .after (total_emit _) fun _ _ => total_callResult _ _ _
    rw [← hP]
    cases sym.fn with
    | some f => exact .last_need ((hemit f).iff Iff.rfl (by simp))
    | none =>
        refine .need ((outcome_asPtr fnPtr).iff Iff.rfl ?_) fun callee _ => .done (hemit callee)
        simp
  have hrest : ∀ args, Visiting E S (rest args) (Γ.argSteps sym.type.params args ++
      (if sym.type.variadic then written (args.drop np) else []) ++ [.need P])
      fun rv => rv.Is sym.type.kind := by
    intro args
    unfold rest
    rw [List.append_assoc]
    refine .append (goes_genParams hR n _ _ _ _) fun vs _ => ?_
    split
    · refine .append (goes_genExtra hR n (args.drop np)) fun extra _ => ?_
      split
      · exact hcall _
      · refine .after (total_entryAlloca _) fun al _ => ?_
        refine .after (total_storeExtra _ _ _) fun _ _ => .after (total_create _) fun _ _ => ?_
        exact hcall _
    · exact hcall _
  have hused : ∀ as, as = usedArgs sym.type args → Visiting E S (rest as)
      (Γ.argSteps sym.type.params (usedArgs sym.type args) ++
        (if sym.type.variadic then written ((usedArgs sym.type args).drop np) else []) ++
          [.need P]) fun rv => rv.Is sym.type.kind := by
    rintro as rfl
    exact hrest _
  split
  · next h => exact .after (total_error _ _) fun _ _ => hused _ (if_pos h).symm
  · next h => exact hused _ (if_neg h).symm

theorem goes_genUntypedArgs (hR : R.Visited Γ E S) (n : Node) (args : List Arg) :
    Visiting E S (genUntypedArgs R l n args) (written args) fun _ => True := by
  induction args with
  | nil => exact .done (.pure trivial)
  | cons a args ih =>
      cases a with
      | none =>
          unfold genUntypedArgs
          exact .after (total_error _ _) fun _ _ => .before ih fun _ _ => .pure trivial
      | some e =>
          unfold genUntypedArgs
          refine .visit (s := written args) (hR.rv l e) fun a _ => ?_
          extract_lets rest
          have hrest : ∀ v, Visiting E S (rest v) (written args) fun _ => True :=
            fun v => .before ih fun _ _ => .pure trivial
          split
          · split
            · exact hrest _
            · exact .after (total_convert _ _ _) fun v _ => hrest v
          · exact .after (total_convert _ _ _) fun v _ => hrest v

theorem goes_genIntrinsic (hR : R.Visited Γ E S) (n : Node) (name : String) (args : List Arg) :
    Visiting E S (genIntrinsic R l n name args) (intrinsicSteps args)
      fun rv => rv.Is (intrinsicKind name args) := by
  unfold genIntrinsic
  split
  · next e =>
      refine .visit (s := []) (hR.rv l e) fun v _ => .done ?_
      unfold intrinsicKind
      dsimp only
      split
      · exact .after (total_convert _ _ _) fun w hw => .pure (is_made hw)
      · split
        · refine .after (total_truthy _ _) fun z _ => ?_
          exact .after (total_boolToI64 _) fun w hw => .pure (is_made hw)
        · exact .after (total_convert _ _ _) fun w hw => .pure (is_made hw)
  · next h =>
      have hsteps : intrinsicSteps args = [] := by
        unfold intrinsicSteps
        split
        · exact (h _ rfl).elim
        · rfl
      have hkind : intrinsicKind name args = .i64 := by
        unfold intrinsicKind
        split
        · exact (h _ rfl).elim
        · rfl
      rw [hsteps, hkind]
      exact .done (.after (total_error _ _) fun _ _ => .pure RV.zero_is)

/-- The value of a kind that is not void is there. -/
theorem RV.Is.isSome {rv : RV} {k : Kind} (h : rv.Is k) :
    rv.v.isSome = true ↔ k.isVoid = false := by
  rw [← h.2.1]
  cases rv.v <;> simp

/-- The value of an expression is there if its kind is not void. -/
theorem hasValue_iff {rv : RV} {e : Expr} {k : Kind} (hk : Γ.rvKind e = some k) (h : rv.Is k) :
    rv.v.isSome = true ↔ Γ.HasValue e := by
  unfold Env.HasValue
  rw [h.isSome, hk]
  simp

theorem goes_genIndirect (hR : R.Visited Γ E S) (n : Node) (callee : Expr) (args : List Arg) :
    Visiting E S (genIndirect Γ R l n callee args) (Γ.indirectSteps callee args)
      fun rv => ∃ k, ((Γ.rvKind callee).map fun q => (calledType q.t).elim .i64 (·.kind)) =
        some k ∧ rv.Is k := by
  unfold genIndirect Env.indirectSteps
  refine .visit (hR.rv l callee) fun fv hfv => ?_
  rcases hfv with ⟨q, hq, hfv⟩
  have hvalue := hasValue_iff hq hfv
  have hkind : (Γ.rvKind callee).bind (fun q => calledType q.t) = calledType fv.t := by
    rw [hq, hfv.1]
    rfl
  rw [hkind, hq, hfv.1]
  cases hft : calledType q.t with
  | some ft =>
      refine Outcome.mono (goes_genCallTo hR n ⟨none, ft⟩ args fv.v ?_)
        fun rv hrv => ⟨ft.kind, ?_, hrv⟩
      · simp [hvalue]
      · simp [hft]
  | none =>
      refine .append (goes_genUntypedArgs hR n args) fun vs _ =>
        .need ((outcome_asPtr fv.v).iff Iff.rfl hvalue) fun fp _ => .done ?_
      refine .after (total_emit _) fun _ _ => .after (total_createCall _ _ _) fun r hr => ?_
      refine .pure ⟨.i64, ?_, rfl, hr.1, hr.2⟩
      simp [hft]

/-- `genCall`, by the way it takes. -/
theorem genCall_eq (n : Node) (callee : Expr) (args : List Arg) :
    genCall Γ R l n callee args = match Γ.callWay callee with
      | .indirect => genIndirect Γ R l n callee args
      | .intrinsic s => genIntrinsic R l n s args
      | .direct f => genCallTo Γ R l n f args none
      | .undefined s => do
          error n.loc ("undefined function '" ++ s ++ "'")
          return RV.zero := by
  unfold genCall Env.callWay
  cases callee with
  | ident m s =>
      dsimp only
      cases Γ.lookupVar s with
      | some v => rfl
      | none =>
          dsimp only
          split
          · rfl
          · cases Γ.findFunc s with
            | some f => rfl
            | none => rfl
  | _ => rfl

theorem goes_genCall (hR : R.Visited Γ E S) (n : Node) (callee : Expr) (args : List Arg) :
    Visiting E S (genCall Γ R l n callee args) (Γ.genCallSteps callee args)
      fun rv => ∃ k, Γ.rvKind (.call n callee args) = some k ∧ rv.Is k := by
  rw [genCall_eq]
  unfold Env.rvKind Env.genCallSteps
  cases Γ.callWay callee with
  | indirect => exact goes_genIndirect hR n callee args
  | intrinsic s => exact Outcome.mono (goes_genIntrinsic hR n s args) fun rv hrv => ⟨_, rfl, hrv⟩
  | direct f =>
      refine Outcome.mono (goes_genCallTo hR n f args none ?_) fun rv hrv => ⟨_, rfl, hrv⟩
      simp
  | undefined s => exact .done (.after (total_error _ _) fun _ _ => .pure ⟨_, rfl, RV.zero_is⟩)

/-! ## Lvalues -/

theorem is_noLV : LV.none.Is none := ⟨rfl, fun _ h => nomatch h⟩

theorem is_lv (a : Value) (t : Ty) : (⟨some a, t⟩ : LV).Is (some t) :=
  ⟨rfl, fun _ h => Option.some.inj h⟩

/-- An lvalue has an address if it has a type. -/
theorem is_cases {lv : LV} {o : Option Ty} (h : lv.Is o) :
    lv.addr = none ∧ o = none ∨ ∃ a, lv.addr = some a ∧ o = some lv.t := by
  rcases h with ⟨haddr, ht⟩
  cases o with
  | none => exact .inl ⟨Option.not_isSome_iff_eq_none.mp (by rw [haddr]; simp), rfl⟩
  | some t =>
      rcases Option.isSome_iff_exists.mp haddr with ⟨a, ha⟩
      exact .inr ⟨a, ha, congrArg some (ht t rfl).symm⟩

theorem goes_genMemberLV (hR : R.Visited Γ E S) (n : Node) (base : Expr) (s : String)
    (isArrow : Bool) : Visiting E S (genMemberLV Γ R l n base s isArrow)
      (Γ.steps .lv (.member n base s isArrow))
      fun lv => ∃ o, Γ.lvKind (.member n base s isArrow) = some o ∧ lv.Is o := by
  unfold genMemberLV
  extract_lets rest
  have hrest : ∀ b, Outcome (rest b) (∀ t, b.bind (·.2) = some t → Γ.MemberFinds t s) True
      fun lv => ∃ o, (b.elim (some none) fun p => Γ.memberTy p.2 s) = some o ∧ lv.Is o := by
    intro b
    unfold rest
    split
    · exact (Outcome.pure ⟨none, rfl, is_noLV⟩).iff (by simp) Iff.rfl
    · next addr c =>
        refine Outcome.iff (.before (outcome_ofOption (Γ.findMember c s)) fun m hm => ?_) ?_ Iff.rfl
        · cases m with
          | some m =>
              refine .after (total_create _) fun a _ => .pure ⟨_, ?_, is_lv a m.type⟩
              simp [Env.memberTy, hm]
          | none =>
              refine .after (total_error _ _) fun _ _ => .pure ⟨_, ?_, is_noLV⟩
              simp [Env.memberTy, hm]
        · simp [Env.MemberFinds]
    · next addr bt hbt =>
        extract_lets sub
        have hsub : Γ.memberTy bt s = some sub := by
          rcases bt with _ | t
          · rfl
          · cases t with
            | cls c => exact (hbt c rfl).elim
            | _ => rfl
        have hfinds : True ↔ ∀ t, (some (addr, bt)).bind (·.2) = some t → Γ.MemberFinds t s := by
          refine iff_of_true trivial ?_
          rintro t ht c rfl
          exact (hbt c ht).elim
        refine Outcome.iff ?_ hfinds Iff.rfl
        clear_value sub
        cases sub with
        | some t => exact .pure ⟨_, hsub, is_lv addr t⟩
        | none => exact .after (total_error _ _) fun _ _ => .pure ⟨_, hsub, is_noLV⟩
  have hkind : Γ.lvKind (.member n base s isArrow) =
      Γ.memberLV (Γ.rvKind base) (Γ.lvKind base) s isArrow := by
    rw [Env.lvKind]
  rw [hkind]
  unfold Env.steps Env.memberLV
  cases isArrow with
  | true =>
      refine .visit (hR.rv l base) fun p hp => ?_
      rcases hp with ⟨q, hq, hp⟩
      refine .need ((outcome_asPtr p.v).iff Iff.rfl (hasValue_iff hq hp)) fun a _ => ?_
      rw [hq, hp.1]
      refine .last_find ?_
      split
      · next elem helem =>
          refine ((hrest (some (a, some elem))).iff ?_ Iff.rfl).mono ?_
          · simp [helem]
          · intro lv hlv
            simpa [helem] using hlv
      · next helem =>
          refine ((hrest (some (a, none))).iff ?_ Iff.rfl).mono ?_
          · refine iff_of_true (fun t h => absurd h (by simp)) ?_
            rintro q' hq' elem ht
            rcases Option.some.inj hq' with rfl
            exact (helem elem ht).elim
          · intro lv hlv
            cases ht : q.t with
            | ptr elem => exact (helem elem ht).elim
            | _ => simpa [ht, Env.memberTy] using hlv
  | false =>
      refine .visit (hR.lv l base) fun lv hlv => ?_
      rcases hlv with ⟨o, ho, hlv⟩
      rw [ho]
      refine .last_find ?_
      rcases is_cases hlv with ⟨haddr, rfl⟩ | ⟨a, haddr, rfl⟩
      · rw [haddr]
        refine ((hrest none).iff ?_ Iff.rfl).mono fun lv hlv => ?_
        · simp
        · simpa using hlv
      · rw [haddr]
        refine ((hrest (some (a, some lv.t))).iff ?_ Iff.rfl).mono fun lv hlv => ?_
        · simp
        · simpa using hlv

/-- A load gives a value. -/
theorem isVoid_loadKind {t : Ty} {k : Kind} (h : Γ.loadKind t = some k) : k.isVoid = false := by
  unfold Env.loadKind at h
  rcases Option.map_eq_some_iff.mp h with ⟨t', _, rfl⟩
  split <;> rfl

theorem isVoid_loaded {lv : Option (Option Ty)} {k : Kind} (h : Γ.loaded lv = some k) :
    k.isVoid = false := by
  unfold Env.loaded at h
  rcases Option.bind_eq_some_iff.mp h with ⟨o, _, ho⟩
  cases o with
  | none =>
      rcases Option.some.inj ho with rfl
      rfl
  | some t => exact isVoid_loadKind ho

theorem goes_genSubIntLV (hR : R.Visited Γ E S) (m : Node) (q idx : Expr) (s : String)
    {sub : Ty} (hs : subIntType s = some sub) :
    Visiting E S (genSubIntLV Γ R l (.member m q s false) idx) (.visit .lv q ::
        if (subIntLV (Γ.lvKind q) s).isSome then [.visit .rv idx] else [])
      fun r => r.isSome = (subIntLV (Γ.lvKind q) s).isSome ∧
        ∀ lv, r = some lv → lv.Is (subIntLV (Γ.lvKind q) s) := by
  unfold genSubIntLV
  dsimp only
  rw [hs]
  refine .visit (hR.lv l q) fun blv hlv => ?_
  rcases hlv with ⟨o, ho, hlv⟩
  rw [ho]
  unfold subIntLV
  rw [hs]
  have hnone : ∀ (r : Option LV) (o : Option Ty), r = none → o = none → r.isSome = o.isSome ∧
      ∀ lv, r = some lv → lv.Is o := by
    rintro r o rfl rfl
    exact ⟨rfl, fun _ h => nomatch h⟩
  rcases is_cases hlv with ⟨haddr, rfl⟩ | ⟨a, haddr, rfl⟩
  · rw [haddr]
    exact .done (.pure (hnone _ _ rfl rfl))
  · rw [haddr]
    dsimp only
    split
    · refine .visit (hR.rv l idx) fun iv _ => .done ?_
      refine .after (total_convert _ _ _) fun _ _ => .after (total_create _) fun _ _ => ?_
      refine .after (total_create _) fun a' _ => .pure ⟨rfl, ?_⟩
      rintro lv h
      rcases Option.some.inj h with rfl
      exact is_lv a' sub
    · exact .done (.pure (hnone _ _ rfl rfl))

theorem goes_genElementLV (hR : R.Visited Γ E S) (base idx : Expr) :
    Visiting E S (genElementLV Γ R l base idx) (Γ.elementSteps base idx)
      fun lv => ∃ o, elementLV (Γ.typeOf base) (Γ.rvKind base) (Γ.lvKind base) = some o ∧
        lv.Is o := by
  unfold genElementLV Env.elementSteps elementLV
  refine .find (outcome_ofOption (Γ.typeOf base)) fun t ht => ?_
  rw [ht]
  extract_lets rest
  have hsome : ∀ bv elem {P : Prop}, (bv.isSome = true ↔ P) → Visiting E S (rest (some (bv, elem)))
      [.visit .rv idx, .need P] fun lv => lv.Is (some (elementTy elem)) := by
    intro bv elem P hP
    refine .visit (hR.rv l idx) fun iv _ => ?_
    refine .after (total_convert _ _ _) fun _ _ => .after (total_create _) fun off _ => ?_
    refine Visiting.last_need ?_
    rw [← hP]
    cases bv with
    | none => exact .stop_null Bool.false_ne_true
    | some v =>
        refine Outcome.iff (.after (total_ptrToI64 v) fun _ _ => .after (total_create _) fun a _ =>
          .after (Q := fun _ => True) ((outcome_asPtr (some a)).iff Iff.rfl ?_) fun p _ =>
          .pure (is_lv p _)) Iff.rfl ?_
        · simp
        · simp
  by_cases harr : ∃ elem n, t = .array elem n
  · rcases harr with ⟨elem, n, rfl⟩
    refine .visit (hR.lv l base) fun lv hlv => ?_
    rcases hlv with ⟨o, ho, hlv⟩
    rw [ho]
    rcases is_cases hlv with ⟨haddr, rfl⟩ | ⟨a, haddr, rfl⟩
    · rw [haddr]
      exact .done (.pure ⟨none, rfl, is_noLV⟩)
    · rw [haddr]
      refine .after (total_create _) fun p _ => ?_
      refine Outcome.mono (Outcome.iff (hsome (some p) elem (P := True) (by simp)) ?_ ?_) ?_
      · simp
      · simp
      · exact fun lv hlv => ⟨_, rfl, hlv⟩
  · -- any other type is read as a pointer
    cases t with
    | array elem n => exact (harr ⟨elem, n, rfl⟩).elim
    | _ =>
        refine .visit (hR.rv l base) fun bv hbv => ?_
        rcases hbv with ⟨k, hk, hbv⟩
        have hvalue := hasValue_iff hk hbv
        rw [hk, hbv.1]
        split
        · next elem ht =>
            refine Outcome.mono (hsome bv.v elem hvalue) fun lv hlv => ⟨_, ?_, hlv⟩
            simp [ht, pointee]
        · next hptr =>
            refine Outcome.mono (hsome bv.v .u8 hvalue) fun lv hlv => ⟨_, ?_, hlv⟩
            cases ht : k.t with
            | ptr elem => exact (hptr elem ht).elim
            | _ => simp [ht, pointee]

/-- The base is no member access that may be a sub-int access. -/
def NoDot (base : Expr) : Prop := ∀ m q s, base ≠ .member m q s false

theorem noDot_cases (base : Expr) : NoDot base ∨ ∃ m q s, base = .member m q s false := by
  by_cases h : NoDot base
  · exact .inl h
  · unfold NoDot at h
    push Not at h
    exact .inr h

theorem lvKind_index {base : Expr} (h : NoDot base) (n : Node) (idx : Expr) :
    Γ.lvKind (.index n base idx) =
      elementLV (Γ.typeOf base) (Γ.rvKind base) (Γ.lvKind base) := by
  rw [Env.lvKind]
  exact h

theorem indexSteps_eq {base : Expr} (h : NoDot base) (idx : Expr) :
    Γ.indexSteps base idx = Γ.elementSteps base idx := by
  rw [Env.indexSteps]
  exact h

theorem genIndexLV_eq {base : Expr} (h : NoDot base) (idx : Expr) :
    genIndexLV Γ R l base idx = genElementLV Γ R l base idx := by
  unfold genIndexLV genSubIntLV
  split
  · next m q s => exact (h m q s rfl).elim
  · rfl

theorem goes_genIndexLV (hR : R.Visited Γ E S) (n : Node) (base idx : Expr) :
    Visiting E S (genIndexLV Γ R l base idx) (Γ.indexSteps base idx)
      fun lv => ∃ o, Γ.lvKind (.index n base idx) = some o ∧ lv.Is o := by
  have helement := goes_genElementLV (l := l) hR base idx
  rcases noDot_cases base with hdot | ⟨m, q, s, rfl⟩
  · rw [genIndexLV_eq hdot, indexSteps_eq hdot, lvKind_index hdot]
    exact helement
  · -- the node of the base does not matter
    have htype : Γ.typeOf (.member m q s false) = Γ.typeOf (.member {} q s false) := by
      rw [Env.typeOf, Env.typeOf]
    rw [Env.rvKind, Env.lvKind, htype] at helement
    unfold genIndexLV Env.indexSteps
    rw [Env.lvKind]
    dsimp only
    unfold Env.subIndexLV
    cases hs : subIntType s with
    | none =>
        have hsub : subIntLV (Γ.lvKind q) s = none := by
          unfold subIntLV
          rw [hs]
          split <;> first | rfl | contradiction
        have hno : genSubIntLV Γ R l (.member m q s false) idx = pure none := by
          unfold genSubIntLV
          dsimp only
          rw [hs]
        rw [hno, hsub]
        exact helement
    | some sub =>
        have hfound := goes_genSubIntLV (l := l) hR m q idx s hs
        cases hsub : subIntLV (Γ.lvKind q) s with
        | some t =>
            rw [hsub] at hfound
            refine .before hfound fun r hr => ?_
            rcases Option.isSome_iff_exists.mp hr.1 with ⟨lv, rfl⟩
            exact .pure ⟨_, rfl, hr.2 lv rfl⟩
        | none =>
            rw [hsub] at hfound
            have hnone := Outcome.mono hfound fun r hr => Option.not_isSome_iff_eq_none.mp
              (by rw [hr.1]; simp : ¬ r.isSome = true)
            refine Outcome.iff (Outcome.bind_eq hnone helement) ?_ ?_
            · simp
            · simp

/-! ## Expressions -/

/-- The generator of the value of `e` does its steps. -/
abbrev GoesRV (Γ : Env) (E S : Visit → Prop) (x : Gen RV) (e : Expr) : Prop :=
  Visiting E S x (Γ.steps .rv e) fun rv => ∃ k, Γ.rvKind e = some k ∧ rv.Is k

/-- The generator of the lvalue of `e` does its steps. -/
abbrev GoesLV (Γ : Env) (E S : Visit → Prop) (x : Gen LV) (e : Expr) : Prop :=
  Visiting E S x (Γ.steps .lv e) fun lv => ∃ o, Γ.lvKind e = some o ∧ lv.Is o

theorem goes_genIdent (hR : R.Visited Γ E S) (n : Node) (s : String) :
    GoesRV Γ E S (genIdent Γ R l n s) (.ident n s) := by
  unfold GoesRV genIdent Env.steps
  rw [Env.rvKind]
  dsimp only
  cases Γ.lookupVar s with
  | some v => exact .last_find (outcome_loadFrom Γ v.addr v.type)
  | none =>
      cases Γ.findFunc s with
      | some f =>
          refine Outcome.mono (goes_genCallTo hR n f [] none ?_) fun rv hrv => ⟨_, rfl, hrv⟩
          simp
      | none => exact .done (.after (total_error _ _) fun _ _ => .pure ⟨_, rfl, RV.zero_is⟩)

/-- What is loaded from an lvalue. -/
theorem outcome_loadLV {lv : LV} {o : Option Ty} (hlv : lv.Is o) : Outcome (match lv.addr with
    | none => return RV.zero
    | some a => loadFrom Γ a lv.t) (Γ.LoadsLV (some o)) True
      fun rv => ∃ k, Γ.loaded (some o) = some k ∧ rv.Is k := by
  unfold Env.LoadsLV Env.loaded
  rcases is_cases hlv with ⟨haddr, rfl⟩ | ⟨a, haddr, rfl⟩
  · rw [haddr]
    exact (Outcome.pure ⟨_, rfl, RV.zero_is⟩).iff (by simp) Iff.rfl
  · rw [haddr]
    exact (outcome_loadFrom Γ a lv.t).iff (by simp [Env.Loads]) Iff.rfl

/-- `&k` is the address of a function or of an lvalue. -/
theorem genAddressOf_eq (k : Expr) : genAddressOf Γ R l k = match Γ.addressed k with
    | some ⟨some f, t⟩ => do
        return ⟨some (← create (.ptrtoint f)), .ptr (.func t.ret t.params t.variadic)⟩
    | _ => do
        let lv ← R.genLValue l k
        match lv.addr with
        | none => return RV.zero
        | some a => return ⟨some (← create (.ptrtoint a)), .ptr lv.t⟩ := by
  unfold genAddressOf Env.addressed
  cases k <;> rfl

theorem goes_genAddressOf (hR : R.Visited Γ E S) (n : Node) (pre : Bool) (k : Expr) :
    GoesRV Γ E S (genAddressOf Γ R l k) (.unary n .amp pre k) := by
  unfold GoesRV Env.steps
  rw [Env.rvKind, genAddressOf_eq]
  dsimp only
  have hlvalue : Visiting E S (do
      let lv ← R.genLValue l k
      match lv.addr with
      | none => return RV.zero
      | some a => return ⟨some (← create (.ptrtoint a)), .ptr lv.t⟩)
      [.visit .lv k] fun rv => ∃ q, ((Γ.lvKind k).map fun o =>
        o.elim .i64 fun t => .of (.ptr t)) = some q ∧ rv.Is q := by
    refine .visit (hR.lv l k) fun lv hlv => .done ?_
    rcases hlv with ⟨o, ho, hlv⟩
    rw [ho]
    rcases is_cases hlv with ⟨haddr, rfl⟩ | ⟨a, haddr, rfl⟩
    · rw [haddr]
      exact .pure ⟨_, rfl, RV.zero_is⟩
    · rw [haddr]
      exact .after (total_created (t := .i64) rfl) fun v hv => .pure ⟨_, rfl, is_made hv⟩
  cases Γ.addressed k with
  | none => exact hlvalue
  | some f =>
      rcases f with ⟨fn, t⟩
      cases fn with
      | none => exact hlvalue
      | some f =>
          exact .done (.after (total_created (t := .i64) rfl) fun v hv =>
            .pure ⟨_, rfl, is_made hv⟩)

theorem goes_genDeref (hR : R.Visited Γ E S) (n : Node) (pre : Bool) (k : Expr) :
    GoesRV Γ E S (genDeref Γ R l k) (.unary n .star pre k) := by
  unfold GoesRV genDeref Env.steps
  rw [Env.rvKind]
  refine .visit (hR.rv l k) fun p hp => ?_
  rcases hp with ⟨q, hq, hp⟩
  have hload : ∀ elem, derefTy q.t = some elem → Visiting E S (do loadFrom Γ (← asPtr p.v) elem)
      [.need (∀ q', some q = some q' → (derefTy q'.t).isSome = true → q'.isVoid = false),
        .find (∀ q', some q = some q' → ∀ t, derefTy q'.t = some t → Γ.Loads t)]
      fun rv => ∃ k, ((some q).bind fun q => (derefTy q.t).elim (some q) Γ.loadKind) = some k ∧
        rv.Is k := by
    intro elem helem
    refine .need ((outcome_asPtr p.v).iff Iff.rfl ?_) fun a _ => .last_find ?_
    · simp [helem, hp.isSome]
    · refine ((outcome_loadFrom Γ a elem).iff ?_ Iff.rfl).mono fun rv hrv => ?_
      · simp [helem, Env.Loads]
      · simpa [helem] using hrv
  have hself : derefTy q.t = none → Visiting E S (pure p : Gen RV)
      [.need (∀ q', some q = some q' → (derefTy q'.t).isSome = true → q'.isVoid = false),
        .find (∀ q', some q = some q' → ∀ t, derefTy q'.t = some t → Γ.Loads t)]
      fun rv => ∃ k, ((some q).bind fun q => (derefTy q.t).elim (some q) Γ.loadKind) = some k ∧
        rv.Is k := by
    intro hnone
    refine Outcome.iff (Outcome.pure ⟨q, ?_, hp⟩) ?_ ?_
    · simp [hnone]
    · simp [hnone]
    · simp [hnone]
  rw [hq, hp.1]
  split
  · next h =>
      refine hself ?_
      rw [h]
      rfl
  · next h =>
      refine hself ?_
      rw [h]
      rfl
  · next h₁ h₂ =>
      refine hload _ ?_
      cases ht : q.t with
      | ptr elem =>
          cases elem with
          | func r ps v => exact (h₁ _ _ _ ht).elim
          | _ => rfl
      | func r ps v => exact (h₂ _ _ _ ht).elim
      | _ => rfl

theorem loads_of_loadKind {t : Ty} {k : Kind} (h : Γ.loadKind t = some k) : Γ.Loads t := by
  rcases Option.map_eq_some_iff.mp h with ⟨t', ht', _⟩
  exact Option.isSome_iff_exists.mpr ⟨t', ht'⟩

/-- A store to storage that was found to be accessed. -/
theorem total_storeTo {addr : Value} {rv : RV} {t : Ty} (ht : Γ.Loads t)
    (hrv : ∀ t', accessType Γ.heap Γ.classFuel t = some t' → isAggregate t' = true →
      rv.v.isSome = true) : Total (storeTo Γ addr rv t) fun _ => True :=
  (outcome_storeTo Γ addr rv t).iff (iff_true_intro ht) (iff_true_intro hrv)

theorem goes_genStep (hR : R.Visited Γ E S) (n : Node) (p : P) (pre : Bool) (k : Expr) :
    Visiting E S (genStep Γ R l n p pre k) [.visit .lv k, .find (Γ.LoadsLV (Γ.lvKind k))]
      fun rv => ∃ q, Γ.loaded (Γ.lvKind k) = some q ∧ rv.Is q := by
  unfold genStep
  refine .visit (hR.lv l k) fun lv hlv => .last_find ?_
  rcases hlv with ⟨o, ho, hlv⟩
  rw [ho]
  unfold Env.LoadsLV Env.loaded
  rcases is_cases hlv with ⟨haddr, rfl⟩ | ⟨a, haddr, rfl⟩
  · rw [haddr]
    exact (Outcome.pure ⟨_, rfl, RV.zero_is⟩).iff (by simp) Iff.rfl
  · rw [haddr]
    dsimp only
    refine Outcome.iff (.before (outcome_loadFrom Γ a lv.t) fun old hold => ?_)
      (by simp [Env.Loads]) Iff.rfl
    rcases hold with ⟨q, hq, hold⟩
    have hloads := loads_of_loadKind hq
    rcases Option.isSome_iff_exists.mp (hold.isSome.mpr (isVoid_loadKind hq)) with ⟨ov, hov⟩
    have hdbl : isDbl ov = q.dbl := by
      rw [← hold.2.2]
      unfold RV.isDouble isDbl
      rw [hov]
      rfl
    rw [hov]
    have hrest : ∀ nv, isDbl nv = q.dbl → Total (do
        emit (.mark ⟨l, n.addr⟩)
        storeTo Γ a ⟨some nv, old.t⟩ lv.t
        return (⟨some (if pre then nv else ov), old.t⟩ : RV)) fun rv =>
        ∃ q', Γ.loadKind lv.t = some q' ∧ rv.Is q' := by
      intro nv hnv
      refine .after (total_emit _) fun _ _ => ?_
      refine .after (total_storeTo hloads fun _ _ _ => rfl) fun _ _ => .pure ⟨q, hq, ?_⟩
      rw [hold.1]
      split
      · exact ⟨rfl, (isVoid_loadKind hq).symm, hnv⟩
      · exact ⟨rfl, (isVoid_loadKind hq).symm, hdbl⟩
    dsimp only
    split
    · next hdouble =>
        refine .after (total_created (t := .f64) rfl) fun nv hnv => hrest nv ?_
        rw [hnv, ← hdbl]
        exact (decide_eq_true hdouble).symm
    · refine .after (total_create _) fun nv hnv => hrest nv ?_
      rw [← hdbl]
      unfold isDbl
      rw [hnv]
      rfl

/-- An integer type is no `F64`. -/
theorem isF64_of_isInt {t : Ty} (h : t.isInt = true) : t.isF64 = false := by
  cases t <;> first | rfl | cases h

theorem goes_genUnary (hR : R.Visited Γ E S) (n : Node) (p : P) (pre : Bool) (k : Expr) :
    GoesRV Γ E S (genUnary Γ R l n p pre k) (.unary n p pre k) := by
  cases p with
  | amp => exact goes_genAddressOf hR n pre k
  | star => exact goes_genDeref hR n pre k
  | not =>
      have hkind : Γ.rvKind (.unary n .not pre k) = some .i64 := by simp [Env.rvKind]
      refine .visit (s := []) (hR.rv l k) fun v _ => .done ?_
      refine .after (total_truthy _ _) fun z _ => .after (total_create _) fun x _ => .after (total_boolToI64 x) fun w hw => ?_
      exact .pure ⟨_, hkind, is_made hw⟩
  | tilde =>
      have hkind : Γ.rvKind (.unary n .tilde pre k) = some .i64 := by simp [Env.rvKind]
      refine .visit (s := []) (hR.rv l k) fun v _ => .done (.after (total_convert _ _ _) ?_)
      exact fun x hx => .after (total_created (t := .i64) hx) fun w hw =>
        .pure ⟨_, hkind, is_made hw⟩
  | minus =>
      unfold GoesRV genUnary Env.steps
      rw [Env.rvKind]
      refine .visit (hR.rv l k) fun v hv => .done ?_
      rcases hv with ⟨q, hq, hv⟩
      rw [hq, hv.1, hv.2.2, Option.map_some]
      split
      · refine .after (total_convert _ _ _) fun x hx => ?_
        exact .after (total_created (t := .f64) rfl) fun w hw => .pure ⟨_, rfl, is_made hw⟩
      · refine .after (total_convert _ _ _) fun x hx => ?_
        refine .after (total_created (t := .i64) rfl) fun w hw => .pure ⟨_, rfl, ?_⟩
        split
        · next hint => exact is_made (hw.trans (isF64_of_isInt hint).symm)
        · exact is_made hw
  | plus =>
      unfold GoesRV genUnary Env.steps
      rw [Env.rvKind]
      exact .last (hR.rv l k)
  | plusPlus =>
      unfold GoesRV genUnary Env.steps
      rw [Env.rvKind]
      exact goes_genStep hR n .plusPlus pre k
  | minusMinus =>
      unfold GoesRV genUnary Env.steps
      rw [Env.rvKind]
      exact goes_genStep hR n .minusMinus pre k
  | _ =>
      refine Visiting.done (.after (total_error _ _) fun _ _ => .pure ⟨.i64, ?_, RV.zero_is⟩)
      simp [Env.rvKind]

/-- The operands of a binary operator. -/
theorem goes_operands (hR : R.Visited Γ E S) (a c : Expr) {α : Type} {f : RV → RV → Gen α}
    {T : α → Prop} (hf : ∀ av cv ka kc, Γ.rvKind a = some ka → av.Is ka → Γ.rvKind c = some kc →
      cv.Is kc → Total (f av cv) T) :
    Visiting E S (do f (← R.genExpr l a) (← R.genExpr l c)) [.visit .rv a, .visit .rv c] T := by
  refine .visit (hR.rv l a) fun av hav => .visit (hR.rv l c) fun cv hcv => .done ?_
  rcases hav with ⟨ka, hka, hav⟩
  rcases hcv with ⟨kc, hkc, hcv⟩
  exact hf av cv ka kc hka hav hkc hcv

theorem total_createPhiRV (incoming : List (Value × Blk)) : Total (do
    return (⟨some (← createPhi incoming), .i64⟩ : RV)) fun rv => rv.Is .i64 := by
  refine .after (total_createPhi incoming) fun v hv => .pure (is_made ?_)
  unfold isDbl
  rw [hv]
  rfl

theorem goes_genShortCircuit (hR : R.Visited Γ E S) (n : Node) (isAnd : Bool) (a c : Expr) :
    Visiting E S (genShortCircuit R l n isAnd a c) [.visit .rv a, .visit .rv c]
      fun rv => rv.Is .i64 := by
  unfold genShortCircuit
  refine .visit (hR.rv l a) fun av _ => Outcome.after (total_truthy _ _) fun z _ => ?_
  refine .after total_insertBlock fun lhsBB _ => .after total_newBlock fun rhsBB _ => ?_
  refine .after total_newBlock fun endBB _ => ?_
  have hjoin : ∀ (d : I64) (cv : RV), Total (do
      let cv ← boolToI64 (← truthy cv n.loc)
      let rhsEnd ← insertBlock
      emit (.br endBB)
      setInsertPoint endBB
      let phi ← createPhi [(cI64 d, lhsBB), (cv, rhsEnd)]
      return (⟨some phi, .i64⟩ : RV)) fun rv => rv.Is .i64 := by
    intro d cv
    refine .after (total_truthy _ _) fun z _ => .after (total_boolToI64 z) fun w _ => ?_
    refine .after total_insertBlock fun _ _ => .after (total_emit _) fun _ _ => ?_
    exact .after (total_setInsertPoint _) fun _ _ => total_createPhiRV _
  dsimp only
  split
  · refine .after (total_emit _) fun _ _ => .after (total_setInsertPoint _) fun _ _ => ?_
    exact Visiting.visit (hR.rv l c) fun cv _ => .done (hjoin _ cv)
  · refine .after (total_emit _) fun _ _ => .after (total_setInsertPoint _) fun _ _ => ?_
    exact Visiting.visit (hR.rv l c) fun cv _ => .done (hjoin _ cv)

theorem goes_genBinary (hR : R.Visited Γ E S) (n : Node) (op : P) (a c : Expr) :
    GoesRV Γ E S (genBinary R l n op a c) (.binary n op a c) := by
  unfold GoesRV Env.steps
  cases op with
  | andAnd =>
      refine Outcome.mono (goes_genShortCircuit hR n true a c) fun rv hrv => ⟨_, ?_, hrv⟩
      rw [Env.rvKind]
  | orOr =>
      refine Outcome.mono (goes_genShortCircuit hR n false a c) fun rv hrv => ⟨_, ?_, hrv⟩
      rw [Env.rvKind]
  | xorXor =>
      refine goes_operands hR a c fun av cv ka kc _ _ _ _ => ?_
      refine .after (total_truthy _ _) fun x _ => .after (total_truthy _ _) fun y _ => ?_
      refine .after (total_create _) fun z _ => .after (total_boolToI64 z) fun w hw => ?_
      refine .pure ⟨_, ?_, is_made hw⟩
      rw [Env.rvKind]
      rfl
  | eqEq =>
      refine goes_operands hR a c fun av cv ka kc _ _ _ _ => ?_
      refine .after (total_cmp _ av cv) fun z _ => .after (total_boolToI64 z) fun w hw => ?_
      refine .pure ⟨_, ?_, is_made hw⟩
      rw [Env.rvKind]
      rfl
  | ne =>
      refine goes_operands hR a c fun av cv ka kc _ _ _ _ => ?_
      refine .after (total_cmp _ av cv) fun z _ => .after (total_boolToI64 z) fun w hw => ?_
      refine .pure ⟨_, ?_, is_made hw⟩
      rw [Env.rvKind]
      rfl
  | _ =>
      refine goes_operands hR a c fun av cv ka kc hka hav hkc hcv => ?_
      refine (total_arith _ hav hcv n.loc).mono fun rv hrv => ⟨_, ?_, hrv⟩
      simp [Env.rvKind, hka, hkc]

theorem goes_genChain (hR : R.Visited Γ E S) (endBB : Blk) (rest : List (P × Expr)) :
    ∀ prev, Visiting E S (genChain R l endBB prev rest) (rest.map fun r => .visit .rv r.2)
      fun _ => True := by
  induction rest with
  | nil =>
      intro prev
      unfold genChain
      exact .done (.pure trivial)
  | cons r rest ih =>
      intro prev
      rcases r with ⟨op, e⟩
      unfold genChain
      refine .visit (hR.rv l e) fun cur _ => Outcome.after (total_cmp op prev cur) fun c _ => ?_
      cases rest with
      | nil =>
          exact .after total_insertBlock fun blk _ => .after (total_boolToI64 c) fun z _ =>
            .after (total_emit _) fun _ _ => .pure trivial
      | cons r rest =>
          refine .after total_newBlock fun next _ => .after total_insertBlock fun blk _ => ?_
          refine .after (total_emit _) fun _ _ => .after (total_setInsertPoint _) fun _ _ => ?_
          exact .before (ih cur) fun incoming _ => .pure trivial

theorem goes_genChainCmp (hR : R.Visited Γ E S) (n : Node) (first : Expr)
    (rest : List (P × Expr)) :
    GoesRV Γ E S (genChainCmp R l first rest) (.chainCmp n first rest) := by
  unfold GoesRV genChainCmp Env.steps
  rw [Env.rvKind]
  refine .after total_newBlock fun endBB _ => Visiting.visit (hR.rv l first) fun prev _ => ?_
  refine .before (goes_genChain hR endBB rest prev) fun incoming _ => ?_
  refine .after (total_setInsertPoint _) fun _ _ => ?_
  exact (total_createPhiRV incoming).mono fun rv hrv => ⟨_, rfl, hrv⟩

theorem goes_genStore (n : Node) {lv : LV} {o : Option Ty} (hlv : lv.Is o) (rhs : RV) {P : Prop}
    (hP : (∀ t t', o = some t → accessType Γ.heap Γ.classFuel t = some t' →
      isAggregate t' = true → rhs.v.isSome = true) ↔ P) :
    Visiting E S (genStore Γ l n lv rhs) [.find (Γ.LoadsLV (some o)), .need P] fun rv => rv = rhs := by
  rw [← hP]
  unfold genStore Env.LoadsLV
  rcases is_cases hlv with ⟨haddr, rfl⟩ | ⟨a, haddr, rfl⟩
  · rw [haddr]
    exact Outcome.iff (.pure rfl) (by simp) (by simp)
  · rw [haddr]
    refine Outcome.iff (.after (total_emit _) fun _ _ =>
      .before (outcome_storeTo Γ a rhs lv.t) fun _ _ => .pure rfl) ?_ ?_
    · simp [Env.Loads]
    · simp only [safeAll_find, safeAll_need, safeAll_nil, and_true]
      constructor
      · intro h _ t t' ht
        rcases Option.some.inj ht with rfl
        exact h t'
      · intro h t' ht'
        refine h ?_ lv.t t' rfl ht'
        intro t ht
        rcases Option.some.inj (Option.some.inj ht) with rfl
        exact Option.isSome_iff_exists.mpr ⟨t', ht'⟩

theorem goes_genAssign (hR : R.Visited Γ E S) (n : Node) (op : P) (a c : Expr) :
    GoesRV Γ E S (genAssign Γ R l n op a c) (.assign n op a c) := by
  unfold GoesRV genAssign Env.steps
  rw [Env.rvKind]
  dsimp only
  by_cases hop : op = .assign
  · rw [if_pos hop, if_pos hop]
    refine .visit (hR.lv l a) fun lv hlv => ?_
    rcases hlv with ⟨o, ho, hlv⟩
    rw [if_pos hop, ho]
    refine .visit (hR.rv l c) fun rv hrv => ?_
    rcases hrv with ⟨k, hk, hrv⟩
    refine Outcome.mono (goes_genStore n hlv rv ?_) ?_
    · simp [hasValue_iff hk hrv]
    · rintro _ rfl
      exact ⟨k, hk, hrv⟩
  · rw [if_neg hop, if_neg hop]
    refine .visit (hR.lv l a) fun lv hlv => ?_
    rcases hlv with ⟨o, ho, hlv⟩
    rw [if_neg hop, ho]
    rcases is_cases hlv with ⟨haddr, rfl⟩ | ⟨addr, haddr, rfl⟩
    · rw [haddr]
      refine Outcome.iff (.before (hR.rv l c) fun _ _ => .pure ⟨_, rfl, RV.zero_is⟩) ?_ ?_
      · simp [Env.LoadsLV]
      · simp [Env.LoadsLV]
    · rw [haddr]
      have hloads : Γ.Loads lv.t ↔ Γ.LoadsLV (some (some lv.t)) := by simp [Env.LoadsLV]
      refine .find ((outcome_loadFrom Γ addr lv.t).iff hloads Iff.rfl) fun old hold => ?_
      refine .visit (hR.rv l c) fun rv hrv => .done ?_
      rcases hold with ⟨ka, hka, hold⟩
      rcases hrv with ⟨kc, hkc, hrv⟩
      refine .after (total_arith _ hold hrv n.loc) fun w hw => ?_
      have hstore := goes_genStore (Γ := Γ) (l := l) (E := E) (S := S) n hlv w Iff.rfl
      refine (Outcome.iff hstore (iff_true_intro ⟨?_, trivial⟩) 
        (iff_true_intro fun _ => ⟨?_, trivial⟩)).mono ?_
      · intro t ht
        rcases Option.some.inj (Option.some.inj ht) with rfl
        exact loads_of_loadKind hka
      · intro t t' _ _ _
        refine hw.isSome.mpr ?_
        unfold arithKind
        split <;> rfl
      · rintro _ rfl
        refine ⟨_, ?_, hw⟩
        simp [hka, hkc]

theorem rvKind_index (n : Node) (b i : Expr) :
    Γ.rvKind (.index n b i) = Γ.loaded (Γ.lvKind (.index n b i)) := by
  rcases noDot_cases b with hdot | ⟨m, q, s, rfl⟩
  · rw [lvKind_index hdot, Env.rvKind]
    exact hdot
  · rw [Env.rvKind, Env.lvKind]

theorem rvKind_member (n : Node) (b : Expr) (s : String) (isArrow : Bool) :
    Γ.rvKind (.member n b s isArrow) = Γ.loaded (Γ.lvKind (.member n b s isArrow)) := by
  rw [Env.rvKind, Env.lvKind]

/-- A load from the lvalue of an expression. -/
theorem goes_loadOf (hR : R.Visited Γ E S) (e : Expr) : Visiting E S (do
    let lv ← R.genLValue l e
    match lv.addr with
    | none => return RV.zero
    | some a => loadFrom Γ a lv.t) [.visit .lv e, .find (Γ.LoadsLV (Γ.lvKind e))]
      fun rv => ∃ k, Γ.loaded (Γ.lvKind e) = some k ∧ rv.Is k := by
  refine .visit (hR.lv l e) fun lv hlv => .last_find ?_
  rcases hlv with ⟨o, ho, hlv⟩
  rw [ho]
  exact outcome_loadLV hlv

theorem goes_cast (hR : R.Visited Γ E S) (n : Node) (k : Expr) (t : Ty) :
    GoesRV Γ E S (genExprStep Γ R l (.cast n k t)) (.cast n k t) := by
  unfold GoesRV genExprStep Env.steps
  rw [Env.rvKind]
  refine .visit (hR.rv l k) fun v hv => .done ?_
  rcases hv with ⟨q, hq, hv⟩
  rw [hq, Option.map_some]
  have hdbl := hv.2.2
  unfold RV.isDouble at hdbl
  have hconvert : Total (do return ⟨some (← convert v t), t⟩) fun rv : RV => rv.Is (.of t) :=
    .after (total_convert _ _ _) fun x hx => .pure (is_made hx)
  cases t with
  | void => exact .pure ⟨_, rfl, rfl, rfl, rfl⟩
  | array _ _ | cls _ =>
      cases hval : v.v with
      | none =>
          rw [hval] at hdbl
          exact .pure ⟨_, rfl, rfl, rfl, hdbl⟩
      | some w =>
          rw [hval] at hdbl
          exact .after (total_ptrToI64 w) fun x hx => .pure ⟨_, rfl, rfl, rfl, hx.trans hdbl⟩
  | _ => exact hconvert.mono fun rv hrv => ⟨_, rfl, hrv⟩

/-- One level of the generator of a value does the steps. -/
theorem goes_genExprStep (hR : R.Visited Γ E S) (e : Expr) :
    GoesRV Γ E S (genExprStep Γ R l e) e := by
  cases e with
  | ident n s => exact goes_genIdent hR n s
  | unary n p pre k => exact goes_genUnary hR n p pre k
  | binary n op a c => exact goes_genBinary hR n op a c
  | chainCmp n first rest => exact goes_genChainCmp hR n first rest
  | assign n op a c => exact goes_genAssign hR n op a c
  | call n callee args => exact goes_genCall hR n callee args
  | index n b i =>
      unfold GoesRV genExprStep Env.steps
      rw [rvKind_index]
      exact goes_loadOf hR _
  | member n b s isArrow =>
      unfold GoesRV genExprStep Env.steps
      rw [rvKind_member]
      exact goes_loadOf hR _
  | cast n k t => exact goes_cast hR n k t
  | sizeofExpr n k =>
      unfold GoesRV genExprStep Env.steps
      rw [Env.rvKind]
      exact .find (outcome_ofOption (Γ.typeOf k)) fun t _ => .done (.pure ⟨_, rfl, rfl, rfl, rfl⟩)
  | offsetOf n c m r =>
      unfold GoesRV genExprStep Env.steps
      rw [Env.rvKind]
      refine .last_find ?_
      dsimp only
      split
      · next h => exact (Outcome.pure ⟨_, rfl, rfl, rfl, rfl⟩).iff (by simp [h]) Iff.rfl
      · next h =>
          refine Outcome.iff (.after (total_error _ _) fun _ _ => .pure ⟨_, rfl, RV.zero_is⟩) ?_
            Iff.rfl
          simp [h]
      · next h => exact .stop_fuel (by simp [h]) trivial
  | strLit n s =>
      refine Visiting.done ((total_strRV s).mono fun rv hrv => ⟨_, ?_, hrv⟩)
      rw [Env.rvKind]
  | floatLit n d =>
      refine Visiting.done (.pure ⟨.f64, ?_, rfl, rfl, rfl⟩)
      rw [Env.rvKind]
  | lastClass n =>
      refine Visiting.done (.after (total_error _ _) fun _ _ => .pure ⟨.i64, ?_, RV.zero_is⟩)
      rw [Env.rvKind]
  | initList n kids =>
      refine Visiting.done (.after (total_error _ _) fun _ _ => .pure ⟨.i64, ?_, RV.zero_is⟩)
      rw [Env.rvKind]
  | intLit n v | charLit n v | sizeofType n t =>
      refine Visiting.done (.pure ⟨.i64, ?_, rfl, rfl, rfl⟩)
      rw [Env.rvKind]

theorem total_notLValue (n : Node) : Total (notLValue n) fun lv => lv.Is none :=
  .after (total_error _ _) fun _ _ => .pure is_noLV

theorem goes_lvDeref (hR : R.Visited Γ E S) (n : Node) (k : Expr) :
    GoesLV Γ E S (genLValueStep Γ R l (.unary n .star true k)) (.unary n .star true k) := by
  have hkind : Γ.lvKind (.unary n .star true k) = (Γ.rvKind k).map fun q => derefLV q.t := by
    simp [Env.lvKind]
  unfold GoesLV
  rw [hkind]
  refine Visiting.visit (s := [.need (∀ q, Γ.rvKind k = some q → (derefLV q.t).isSome = true →
    q.isVoid = false)]) (hR.rv l k) fun p hp => ?_
  rcases hp with ⟨q, hq, hp⟩
  rw [hq, hp.1, Option.map_some]
  refine Visiting.last_need ?_
  have hpointer : ∀ t, derefLV q.t = some t → Outcome (do return ⟨some (← asPtr p.v), t⟩) True
      (∀ q', some q = some q' → (derefLV q'.t).isSome = true → q'.isVoid = false)
      fun lv : LV => ∃ o, some (derefLV q.t) = some o ∧ lv.Is o := by
    intro t ht
    rw [ht]
    refine Outcome.iff (.before (outcome_asPtr p.v) fun a _ => .pure ⟨_, rfl, is_lv a t⟩) Iff.rfl ?_
    simp [ht, hp.isSome]
  split
  · next r ps v hfunc =>
      have hnone : derefLV q.t = none := by rw [hfunc]; rfl
      refine ((total_notLValue n).iff Iff.rfl ?_).mono fun lv hlv => ⟨none, ?_, hlv⟩
      · simp [hnone]
      · rw [hnone]
  · next elem hfunc helem =>
      refine hpointer elem ?_
      rw [helem]
      cases elem with
      | func r ps v => exact (hfunc r ps v rfl).elim
      | _ => rfl
  · next hptr =>
      refine hpointer .u8 ?_
      cases ht : q.t with
      | ptr elem => exact (hptr elem ht).elim
      | _ => rfl

/-- `++` and `--` as lvalues: the step, and the lvalue again. -/
theorem goes_lvStep (hR : R.Visited Γ E S) (n : Node) (p : P) (pre : Bool) (k : Expr)
    (hp : p = .plusPlus ∨ p = .minusMinus) :
    GoesLV Γ E S (genLValueStep Γ R l (.unary n p pre k)) (.unary n p pre k) := by
  have hstep : Visiting E S (genUnary Γ R l n p pre k)
      [.visit .lv k, .find (Γ.LoadsLV (Γ.lvKind k))] fun _ => True := by
    rcases hp with rfl | rfl
    · exact Outcome.mono (goes_genStep hR n .plusPlus pre k) fun _ _ => trivial
    · exact Outcome.mono (goes_genStep hR n .minusMinus pre k) fun _ _ => trivial
  have hkind : Γ.lvKind (.unary n p pre k) = Γ.lvKind k := by
    rcases hp with rfl | rfl <;> simp [Env.lvKind]
  have hgen : genLValueStep Γ R l (.unary n p pre k) = (do
      let _ ← genUnary Γ R l n p pre k
      R.genLValue l k) := by
    rcases hp with rfl | rfl <;> simp [genLValueStep]
  have hsteps : Γ.steps .lv (.unary n p pre k) =
      [.visit .lv k, .find (Γ.LoadsLV (Γ.lvKind k))] ++ [.visit .lv k] := by
    rcases hp with rfl | rfl <;> simp [Env.steps]
  unfold GoesLV
  rw [hkind, hgen, hsteps]
  exact .append hstep fun _ _ => .last (hR.lv l k)

/-- One level of the generator of an lvalue does the steps. -/
theorem goes_genLValueStep (hR : R.Visited Γ E S) (e : Expr) :
    GoesLV Γ E S (genLValueStep Γ R l e) e := by
  have hother : ∀ n : Node, Γ.lvKind e = some none → Γ.steps .lv e = [] →
      GoesLV Γ E S (notLValue n) e := by
    intro n hkind hsteps
    unfold GoesLV
    rw [hsteps]
    exact .done ((total_notLValue n).mono fun lv hlv => ⟨_, hkind, hlv⟩)
  cases e with
  | ident n s =>
      unfold GoesLV genLValueStep Env.steps
      rw [Env.lvKind]
      dsimp only
      cases Γ.lookupVar s with
      | some v => exact .done (.pure ⟨_, rfl, is_lv v.addr v.type⟩)
      | none =>
          dsimp only
          split
          · exact .done (.after (total_error _ _) fun _ _ => .pure ⟨_, rfl, is_noLV⟩)
          · exact .done (.after (total_error _ _) fun _ _ => .pure ⟨_, rfl, is_noLV⟩)
  | unary n p pre k =>
      by_cases hstar : p = .star ∧ pre = true
      · rcases hstar with ⟨rfl, rfl⟩
        exact goes_lvDeref hR n k
      · by_cases hstep : p = .plusPlus ∨ p = .minusMinus
        · exact goes_lvStep hR n p pre k hstep
        · rcases not_or.mp hstep with ⟨hinc, hdec⟩
          have hgen : genLValueStep Γ R l (.unary n p pre k) = notLValue n := by
            simp [genLValueStep, hstar, hinc, hdec]
          rw [hgen]
          refine hother n ?_ ?_
          · simp [Env.lvKind, hstar, hinc, hdec]
          · simp [Env.steps, hstar, hinc, hdec]
  | index n b i => exact goes_genIndexLV hR n b i
  | member n b s isArrow => exact goes_genMemberLV hR n b s isArrow
  | cast n k t =>
      unfold GoesLV genLValueStep Env.steps
      rw [Env.lvKind]
      refine .visit (hR.lv l k) fun lv hlv => .done ?_
      rcases hlv with ⟨o, ho, hlv⟩
      rw [ho]
      rcases is_cases hlv with ⟨haddr, rfl⟩ | ⟨a, haddr, rfl⟩
      · rw [haddr]
        exact .pure ⟨_, rfl, is_noLV⟩
      · rw [haddr]
        exact .pure ⟨_, rfl, is_lv a t⟩
  | assign n op a c =>
      unfold GoesLV genLValueStep Env.steps
      rw [Env.lvKind]
      exact .visit (hR.rv l _) fun _ _ => .last (hR.lv l a)
  | _ =>
      refine hother _ ?_ rfl
      rw [Env.lvKind]
      all_goals simp

end Nodes

/-! ## Expressions to a depth -/

/-- Code generation of a visit ends at a depth, if nothing is missing. -/
def Ends (Γ : Env) : Nat → Visit → Prop
  | 0, _ => False
  | d + 1, v => EndAll (Ends Γ d) (Γ.steps v.1 v.2)

/-- Code generation of a visit to a depth asks for no missing value. -/
def Safe (Γ : Env) : Nat → Visit → Prop
  | 0, _ => True
  | d + 1, v => SafeAll (Ends Γ d) (Safe Γ d) (Γ.steps v.1 v.2)

/-- The generators to a depth do what `steps` says. -/
theorem gen_visited (Γ : Env) (d : Nat) : (gen Γ d).Visited Γ (Ends Γ d) (Safe Γ d) := by
  induction d with
  | zero => exact ⟨fun _ _ => .stop_fuel id trivial, fun _ _ => .stop_fuel id trivial⟩
  | succ d ih => exact ⟨fun _ e => goes_genExprStep ih e, fun _ e => goes_genLValueStep ih e⟩

end Hlang.Codegen
