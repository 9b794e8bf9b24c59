import Hlang.Codegen.Void

/-!
# Hlang.Codegen.InitAssign — a declaration with a value, and an assignment

`T x=e;` and `T x; x=e;` generate the same code, but for a class with a whole type:
`genInit` copies from where the value points to, `storeTo` accesses the whole type
(`declares_iff`). Marks are no instructions and are left out.
-/

namespace Hlang.Codegen

open Ir Gen Cg

/-! ## Code without its marks -/

/-- The builder, with the marks left out of its log. -/
def Builder.unmarked (B : Builder) : Builder :=
  { B with log := B.log.filter fun e => e.2.site?.isNone }

/-- What a generator gives, but for marks. -/
def view {α : Type} (r : Except Stop (α × Builder)) : Except Stop (α × Builder) :=
  r.map fun p => (p.1, p.2.unmarked)

/-- The generator does not look at marks. -/
def IgnoresMarks {α : Type} (x : Gen α) : Prop :=
  ∀ B C : Builder, B.unmarked = C.unmarked → view (x B) = view (x C)

section Marks

variable {α β : Type} {x : Gen α} {f : α → Gen β}

theorem IgnoresMarks.pure (a : α) : IgnoresMarks (pure a) := by
  intro B C h
  change Except.ok (a, B.unmarked) = .ok (a, C.unmarked)
  rw [h]

theorem IgnoresMarks.stop (s : Stop) : IgnoresMarks (stop s : Gen α) := fun _ _ _ => rfl

theorem IgnoresMarks.bind (hx : IgnoresMarks x) (hf : ∀ a, IgnoresMarks (f a)) : IgnoresMarks (x >>= f) := by
  intro B C h
  have hBC := hx B C h
  change view (x B >>= fun p => f p.1 p.2) = view (x C >>= fun p => f p.1 p.2)
  cases hB : x B with
  | error s =>
      cases hC : x C with
      | error s' =>
          rw [hB, hC] at hBC
          rcases Except.error.inj hBC with rfl
          rfl
      | ok q =>
          rw [hB, hC] at hBC
          exact nomatch hBC
  | ok p =>
      cases hC : x C with
      | error s' =>
          rw [hB, hC] at hBC
          exact nomatch hBC
      | ok q =>
          rw [hB, hC] at hBC
          rcases Prod.mk.inj (Except.ok.inj hBC) with ⟨ha, hun⟩
          change view (f p.1 p.2) = view (f q.1 q.2)
          rw [ha]
          exact hf q.1 p.2 q.2 hun

theorem unmarked_iff {B C : Builder} : B.unmarked = C.unmarked ↔
    (B.log.filter fun e => e.2.site?.isNone) = (C.log.filter fun e => e.2.site?.isNone) ∧
    B.cur = C.cur ∧ B.nextBlk = C.nextBlk ∧ B.nextReg = C.nextReg ∧ B.slots = C.slots ∧
    B.errors = C.errors := by
  unfold Builder.unmarked
  rw [Builder.mk.injEq]

/-- An instruction behind the same code. -/
theorem unmarked_snoc {B C : Builder} (h : B.unmarked = C.unmarked) (i : Instr) :
    ({ B with log := B.log ++ [(B.cur, i)] } : Builder).unmarked =
      ({ C with log := C.log ++ [(C.cur, i)] } : Builder).unmarked := by
  rcases unmarked_iff.mp h with ⟨hlog, hcur, hrest⟩
  rw [unmarked_iff]
  refine ⟨?_, hcur, hrest⟩
  change ((B.log ++ _).filter _) = ((C.log ++ _).filter _)
  rw [List.filter_append, List.filter_append, hlog, hcur]

theorem ignores_emit (i : Instr) : IgnoresMarks (emit i) := by
  intro B C h
  change Except.ok ((), _) = .ok ((), _)
  rw [unmarked_snoc h i]

theorem ignores_create (o : Op) : IgnoresMarks (create o) := by
  intro B C h
  rcases unmarked_iff.mp h with ⟨_, _, _, hreg, _⟩
  have hpush := unmarked_snoc h (.op B.nextReg o)
  rcases unmarked_iff.mp hpush with ⟨hlog, hcur, hblk, _, hrest⟩
  change Except.ok (_, _) = .ok (_, _)
  rw [← hreg]
  refine congrArg _ (congrArg _ (unmarked_iff.mpr ⟨?_, hcur, hblk, ?_, hrest⟩))
  · exact hlog
  · exact congrArg (· + 1) rfl

theorem ignores_asPtr (v : Option Value) : IgnoresMarks (asPtr v) := by
  unfold asPtr
  split
  · exact .stop _
  · split
    · exact .pure _
    · exact ignores_create _

theorem ignores_ptrToI64 (v : Value) : IgnoresMarks (ptrToI64 v) := by
  unfold ptrToI64
  split
  · exact ignores_create _
  · exact .pure _

/-- The end of `convert` to an integer. -/
theorem ignores_normalize (dst : Ty) (norm : Bool) (iv : Value) :
    IgnoresMarks (normalizeNarrow dst norm iv) := by
  unfold normalizeNarrow
  split
  · split
    · refine (ignores_create _).bind fun tr => ?_
      split
      · exact ignores_create _
      · exact ignores_create _
    · exact .pure _
  · exact .pure _

theorem ignores_convert (rv : RV) (dst : Ty) (norm : Bool) : IgnoresMarks (convert rv dst norm) := by
  unfold convert
  cases rv.v with
  | none => exact .pure _
  | some v =>
      dsimp only
      split
      · split
        · exact .pure _
        · refine (ignores_ptrToI64 v).bind fun iv => ?_
          split
          · exact ignores_create _
          · exact ignores_create _
      · split
        · exact (ignores_create _).bind fun iv => ignores_normalize dst norm iv
        · exact (ignores_ptrToI64 v).bind fun iv => ignores_normalize dst norm iv

/-- The copy of an aggregate to `addr`. -/
def copyTo (addr : Value) (rv : RV) (n : I64) : Gen Unit := do
  let src ← asPtr rv.v
  emit (.memcpy addr src n)

/-- The store of a scalar of type `t` to `addr`. -/
def storeScalar (Γ : Env) (addr : Value) (rv : RV) (t : Ty) : Gen Unit := do
  let v ← if Γ.memTy t = .double then convert rv .f64
    else do
      let iv ← convert rv .i64 false
      match Γ.memTy t with
      | .int 64 => pure iv
      | .int bits => create (.trunc bits iv)
      | _ => pure iv
  emit (.store (Γ.memTy t) v addr)

theorem storeTo_eq (Γ : Env) (addr : Value) (rv : RV) (t : Ty) : storeTo Γ addr rv t =
    ofOption (accessType Γ.heap Γ.classFuel t) >>= fun t' =>
      if isAggregate t' then copyTo addr rv (Γ.size t') else storeScalar Γ addr rv t' := rfl

theorem ignores_copyTo (addr : Value) (rv : RV) (n : I64) : IgnoresMarks (copyTo addr rv n) :=
  (ignores_asPtr rv.v).bind fun _ => ignores_emit _

theorem ignores_storeScalar (Γ : Env) (addr : Value) (rv : RV) (t : Ty) :
    IgnoresMarks (storeScalar Γ addr rv t) := by
  unfold storeScalar
  dsimp only
  split
  · exact (ignores_convert rv .f64 true).bind fun v => ignores_emit _
  · refine (ignores_convert rv .i64 false).bind fun iv => ?_
    split
    · exact (IgnoresMarks.pure iv).bind fun v => ignores_emit _
    · exact (ignores_create _).bind fun v => ignores_emit _
    · exact (IgnoresMarks.pure iv).bind fun v => ignores_emit _

theorem ignores_storeTo (Γ : Env) (addr : Value) (rv : RV) (t : Ty) :
    IgnoresMarks (storeTo Γ addr rv t) := by
  have hend : ∀ t', IgnoresMarks (if isAggregate t' then copyTo addr rv (Γ.size t')
      else storeScalar Γ addr rv t') := by
    intro t'
    split
    · exact ignores_copyTo addr rv _
    · exact ignores_storeScalar Γ addr rv t'
  rw [storeTo_eq]
  cases accessType Γ.heap Γ.classFuel t with
  | none => exact (IgnoresMarks.stop _).bind hend
  | some t' => exact (IgnoresMarks.pure t').bind hend

end Marks

/-! ## The last instruction -/

/-- The last instruction of what a generator gives. -/
def lastOf (r : Except Stop (Unit × Builder)) : Option Instr :=
  r.toOption.bind fun p => p.2.unmarked.log.getLast?.map Prod.snd

theorem lastOf_view {r r' : Except Stop (Unit × Builder)} (h : view r = view r') :
    lastOf r = lastOf r' := by
  cases r with
  | error s =>
      cases r' with
      | error s' => rfl
      | ok q => exact nomatch h
  | ok p =>
      cases r' with
      | error s' => exact nomatch h
      | ok q =>
          have hun := (Prod.mk.inj (Except.ok.inj h)).2
          unfold lastOf
          dsimp only [Except.toOption, Option.bind_some]
          rw [hun]

theorem lastOf_bind {α : Type} {x : Gen α} {f : α → Gen Unit} {B B' : Builder} {a : α}
    (hx : x B = .ok (a, B')) : lastOf ((x >>= f) B) = lastOf (f a B') := by
  change lastOf (x B >>= fun p => f p.1 p.2) = _
  rw [hx]
  rfl

theorem lastOf_emit (i : Instr) (hi : i.site? = none) (B : Builder) :
    lastOf (emit i B) = some i := by
  change (((B.log ++ [(B.cur, i)]).filter _).getLast?.map Prod.snd) = _
  rw [List.filter_append]
  simp [hi]

/-! ## The end of both statements -/

/-- The end of `genInit`. -/
def initEnd (Γ : Env) (addr : Value) (t : Ty) (rv : RV) : Gen Unit :=
  if isAggregate t then copyTo addr rv (Γ.size t) else storeTo Γ addr rv t

/-- The end of the assignment at the node `n`. -/
def assignEnd (Γ : Env) (n : Node) (addr : Value) (t : Ty) (rv : RV) : Gen Unit := do
  emit (.mark ⟨[], n.addr⟩)
  storeTo Γ addr rv t

section Ends

variable {Γ : Env} {n : Node} {addr : Value} {t t' : Ty} {rv : RV} {B : Builder}

/-- The mark of an assignment is no instruction. -/
theorem view_assignEnd : view (assignEnd Γ n addr t rv B) = view (storeTo Γ addr rv t B) := by
  refine ignores_storeTo Γ addr rv t { B with log := B.log ++ [(B.cur, .mark ⟨[], n.addr⟩)] } B ?_
  refine unmarked_iff.mpr ⟨?_, rfl, rfl, rfl, rfl, rfl⟩
  rw [List.filter_append]
  exact List.append_nil _

/-- The value of an assignment is not used. -/
theorem map_genStore (rhs : RV) (B : Builder) :
    (genStore Γ [] n ⟨some addr, t⟩ rhs B).map (fun p => p.2.unmarked) =
      (assignEnd Γ n addr t rhs B).map fun p => p.2.unmarked := by
  change Except.map _ (storeTo Γ addr rhs t _ >>= fun p => pure (rhs, p.2)) =
    Except.map _ (storeTo Γ addr rhs t _)
  cases storeTo Γ addr rhs t { B with log := B.log ++ [(B.cur, .mark ⟨[], n.addr⟩)] } with
  | error s => rfl
  | ok p => rfl

theorem storeTo_of_access (ht : accessType Γ.heap Γ.classFuel t = some t') :
    storeTo Γ addr rv t =
      if isAggregate t' then copyTo addr rv (Γ.size t') else storeScalar Γ addr rv t' := by
  rw [storeTo_eq, ht]
  exact pure_bind _ _

theorem copyTo_none {m : I64} (hv : rv.v = none) : copyTo addr rv m B = .error .nullValue := by
  unfold copyTo asPtr
  rw [hv]
  rfl

variable (addr B) in
theorem lastOf_copyTo {v : Value} (m : I64) (hv : rv.v = some v) :
    ∃ src, lastOf (copyTo addr rv m B) = some (.memcpy addr src m) := by
  rcases (outcome_asPtr rv.v).exists_ok trivial (by rw [hv]; rfl) B with ⟨src, B', hsrc⟩
  exact ⟨src, (lastOf_bind hsrc).trans (lastOf_emit _ rfl B')⟩

variable (Γ addr rv t B) in
theorem lastOf_storeScalar : ∃ v, lastOf (storeScalar Γ addr rv t B) =
    some (.store (Γ.memTy t) v addr) := by
  unfold storeScalar
  dsimp only
  generalize Γ.memTy t = mt
  have hstore : ∀ v B', lastOf (emit (.store mt v addr) B') = some (.store mt v addr) :=
    fun v B' => lastOf_emit _ rfl B'
  split
  · rcases (total_convert rv .f64 true).exists_ok trivial trivial B with ⟨v, B', hv⟩
    exact ⟨v, (lastOf_bind hv).trans (hstore v B')⟩
  · rcases (total_convert rv .i64 false).exists_ok trivial trivial B with ⟨iv, B', hiv⟩
    have hpure : lastOf ((pure iv >>= fun v => emit (.store mt v addr)) B') =
        some (.store mt iv addr) := (lastOf_bind rfl).trans (hstore iv B')
    simp only [lastOf_bind hiv]
    split
    · exact ⟨iv, hpure⟩
    · rcases (total_create (.trunc _ iv)).exists_ok trivial trivial B' with ⟨v, B'', hv⟩
      exact ⟨v, (lastOf_bind hv).trans (hstore v B'')⟩
    · exact ⟨iv, hpure⟩

/-- A class that is accessed as a class of its size, or no class. -/
def StoresWhole (Γ : Env) (t : Ty) (hasValue : Prop) : Prop :=
  isAggregate t = true → ∀ t', accessType Γ.heap Γ.classFuel t = some t' →
    isAggregate t' = true ∧ (hasValue → Γ.size t' = Γ.size t)

variable (n addr rv B) in
theorem ends_iff (ht : accessType Γ.heap Γ.classFuel t = some t') :
    view (initEnd Γ addr t rv B) = view (assignEnd Γ n addr t rv B) ↔
      StoresWhole Γ t (rv.v.isSome = true) := by
  rw [view_assignEnd]
  unfold initEnd StoresWhole
  by_cases hagg : isAggregate t = true
  · rw [if_pos hagg, storeTo_of_access ht]
    constructor
    · intro h _ t'' ht''
      rw [ht] at ht''
      rcases Option.some.inj ht'' with rfl
      have hlast := lastOf_view h
      by_cases hagg' : isAggregate t' = true
      · refine ⟨hagg', fun hv => ?_⟩
        rcases Option.isSome_iff_exists.mp hv with ⟨v, hv⟩
        rw [if_pos hagg'] at hlast
        rcases lastOf_copyTo addr B (Γ.size t) hv with ⟨src, hsrc⟩
        rcases lastOf_copyTo addr B (Γ.size t') hv with ⟨src', hsrc'⟩
        rw [hsrc, hsrc'] at hlast
        exact (Instr.memcpy.inj (Option.some.inj hlast)).2.2.symm
      · rw [if_neg hagg'] at hlast
        rcases lastOf_storeScalar Γ addr t' rv B with ⟨w, hw⟩
        rw [hw] at hlast
        cases hv : rv.v with
        | none =>
            rw [copyTo_none hv] at hlast
            exact nomatch hlast
        | some v =>
            rcases lastOf_copyTo addr B (Γ.size t) hv with ⟨src, hsrc⟩
            rw [hsrc] at hlast
            exact nomatch hlast
    · intro h
      rcases h hagg t' ht with ⟨hagg', hsize⟩
      rw [if_pos hagg']
      cases hv : rv.v with
      | none => rw [copyTo_none hv, copyTo_none hv]
      | some v => rw [hsize (by rw [hv]; rfl)]
  · rw [if_neg hagg]
    exact iff_of_true rfl fun h => (hagg h).elim

end Ends

/-! ## The statements -/

section Statements

variable (Γ : Env) (d : Nat) (fnName : String) (breaks : List BreakTarget)

/-- `T x=e;`. -/
def declareWith (loc : SrcLoc) (v : VarDeclarator) (e : Expr) : Cg Unit :=
  genStmts Γ d fnName breaks [.varDecl loc [{ v with init := some e }] false]

/-- `T x; x=e;`. The assignment is one level above its operands. -/
def declareThenAssign (loc loc' : SrcLoc) (v : VarDeclarator) (n m : Node) (e : Expr) : Cg Unit :=
  genStmts Γ (d + 1) fnName breaks [.varDecl loc [{ v with init := none }] false,
    .expr loc' (.assign n .assign (.ident m v.name) e)]

/-- The code in a function, but for marks. -/
def codeOf (r : Except Stop (Unit × FnCtx)) : Except Stop Builder := r.map fun p => p.2.b.unmarked

/-- The context after the declaration of a local variable. -/
def FnCtx.declared (F : FnCtx) (v : VarDeclarator) : FnCtx :=
  let sym : VarSym := ⟨.slot F.b.slots.length, regSlotType v.type⟩
  { F with
    b := { F.b with slots := F.b.slots ++ [Γ.memTy (regSlotType v.type)] }
    localNames := v.name :: F.localNames
    scopes := F.scopes.modifyHead fun s => (v.name, sym) :: s
    scopeLog := F.scopeLog ++ [.bind v.name sym] }

variable {Γ d fnName breaks} {F : FnCtx} {v : VarDeclarator}

theorem genLocal_fresh (hfresh : v.name ∉ F.localNames) (init : Option Expr) :
    genLocal Γ d { v with init := init } F =
      genInitIn Γ d (.slot F.b.slots.length) (regSlotType v.type) init (F.declared Γ v) := by
  unfold genLocal declareLocal
  change (if v.name ∈ F.localNames then _ else _ : Cg Unit) _ >>= _ = _
  rw [if_neg hfresh]
  rfl

/-- The environment after the declaration. -/
abbrev Env.declared (Γ : Env) (F : FnCtx) (v : VarDeclarator) : Env :=
  { Γ with scopes := (F.declared Γ v).scopes }

theorem lookupVar_declared (hscopes : F.scopes ≠ []) :
    (Γ.declared F v).lookupVar v.name =
      some ⟨.slot F.b.slots.length, regSlotType v.type⟩ := by
  rcases List.exists_cons_of_ne_nil hscopes with ⟨s, ss, hs⟩
  unfold Env.lookupVar Env.declared FnCtx.declared
  simp [hs]

theorem codeOf_ir {α : Type} (x : Gen α) (F : FnCtx) :
    codeOf ((ir x >>= fun _ => pure ()) F) = (x F.b).map fun p => p.2.unmarked := by
  change codeOf (ir x F >>= fun p => pure ((), p.2)) = _
  unfold ir
  cases x F.b with
  | error s => rfl
  | ok p => rfl

theorem codeOf_declareWith {loc : SrcLoc} {e : Expr} (hfresh : v.name ∉ F.localNames)
    (hlist : ∀ k es, e ≠ .initList k es) (harr : ∀ elem len, v.type ≠ .array elem len) :
    codeOf (declareWith Γ d fnName breaks loc v e F) =
      (((gen (Γ.declared F v) d).genExpr [] e >>= initEnd (Γ.declared F v)
        (.slot F.b.slots.length) (regSlotType v.type)) (F.declared Γ v).b).map
          fun p => p.2.unmarked := by
  have hbytes : isByteArray (regSlotType v.type) = false := by
    cases ht : v.type with
    | array elem len => exact (harr elem len ht).elim
    | int k uns => 
        unfold regSlotType
        split <;> rfl
    | _ => rfl
  have hinit : ∀ R, genInit (Γ.declared F v) R (.slot F.b.slots.length) (regSlotType v.type) e =
      R.genExpr [] e >>= initEnd (Γ.declared F v) (.slot F.b.slots.length)
        (regSlotType v.type) := by
    intro R
    unfold genInit
    split
    · exact (hlist _ _ rfl).elim
    · unfold genInitValue
      split
      · rw [if_neg (by rw [hbytes]; exact Bool.false_ne_true)]
        rfl
      · rfl
  have hrun : declareWith Γ d fnName breaks loc v e F =
      (ir (genInit (Γ.declared F v) (gen (Γ.declared F v) d) (.slot F.b.slots.length)
        (regSlotType v.type) e) >>= fun _ => pure ())
          { F.declared Γ v with scopeLog := (F.declared Γ v).scopeLog ++
            [.use (F.declared Γ v).scopes e] } := by
    change (genLocal Γ d { v with init := some e } F >>= fun p => pure ((), p.2)) >>=
      (fun p => pure ((), p.2)) = _
    rw [genLocal_fresh hfresh, bind_assoc]
    rfl
  rw [hrun, codeOf_ir, hinit]

theorem codeOf_declareThenAssign {loc loc' : SrcLoc} {n m : Node} {e : Expr}
    (hfresh : v.name ∉ F.localNames) (hscopes : F.scopes ≠ []) :
    codeOf (declareThenAssign Γ d fnName breaks loc loc' v n m e F) =
      (((gen (Γ.declared F v) d).genExpr [] e >>= assignEnd (Γ.declared F v) n
        (.slot F.b.slots.length) (regSlotType v.type)) (F.declared Γ v).b).map
          fun p => p.2.unmarked := by
  have hassign : ∀ B, (genAssign (Γ.declared F v) (gen (Γ.declared F v) d) [] n .assign
      (.ident m v.name) e B).map (fun p => p.2.unmarked) =
      (((gen (Γ.declared F v) d).genExpr [] e >>= assignEnd (Γ.declared F v) n
        (.slot F.b.slots.length) (regSlotType v.type)) B).map fun p => p.2.unmarked := by
    intro B
    cases d with
    | zero => rfl
    | succ d =>
        have hlv : (gen (Γ.declared F v) (d + 1)).genLValue [] (.ident m v.name) =
            pure ⟨some (.slot F.b.slots.length), regSlotType v.type⟩ := by
          change genLValueStep (Γ.declared F v) (gen (Γ.declared F v) d) [] (.ident m v.name) = _
          unfold genLValueStep
          dsimp only
          rw [lookupVar_declared hscopes]
        unfold genAssign
        rw [hlv, pure_bind, if_pos rfl]
        change Except.map _ ((gen (Γ.declared F v) (d + 1)).genExpr [] e B >>= fun p =>
          genStore (Γ.declared F v) [] n ⟨some (.slot F.b.slots.length), regSlotType v.type⟩ p.1 p.2) =
          Except.map _ ((gen (Γ.declared F v) (d + 1)).genExpr [] e B >>= fun p =>
            assignEnd (Γ.declared F v) n (.slot F.b.slots.length) (regSlotType v.type) p.1 p.2)
        cases (gen (Γ.declared F v) (d + 1)).genExpr [] e B with
        | error s => rfl
        | ok p => exact map_genStore p.1 p.2
  have hrun : declareThenAssign Γ d fnName breaks loc loc' v n m e F =
      (ir (genAssign (Γ.declared F v) (gen (Γ.declared F v) d) [] n .assign (.ident m v.name) e) >>=
        fun _ => pure ())
          { F.declared Γ v with scopeLog := (F.declared Γ v).scopeLog ++
            [.use (F.declared Γ v).scopes (.assign n .assign (.ident m v.name) e)] } := by
    change (genLocal Γ (d + 1) { v with init := none } F >>= fun p => pure ((), p.2)) >>=
      (fun p => genStmts Γ (d + 1) fnName breaks
        [.expr loc' (.assign n .assign (.ident m v.name) e)] p.2) = _
    rw [genLocal_fresh hfresh]
    change (Codegen.genExpr Γ (d + 1) (.assign n .assign (.ident m v.name) e) (F.declared Γ v) >>=
      fun p => pure ((), p.2)) >>= (fun p => pure ((), p.2)) = _
    rw [bind_assoc]
    rfl
  rw [hrun, codeOf_ir, hassign]

theorem regSlotType_aggregate {t : Ty} (h : isAggregate t = true) : regSlotType t = t := by
  cases t <;> first | rfl | exact nomatch h

theorem isAggregate_regSlotType (t : Ty) : isAggregate (regSlotType t) = isAggregate t := by
  unfold regSlotType
  split <;> rfl

theorem storesWhole_regSlotType {t : Ty} {P : Prop} :
    StoresWhole Γ (regSlotType t) P ↔ StoresWhole Γ t P := by
  unfold StoresWhole
  rw [isAggregate_regSlotType]
  refine forall_congr' fun hagg => ?_
  rw [regSlotType_aggregate hagg]

theorem loads_regSlotType {t : Ty} (h : Γ.Loads t) : Γ.Loads (regSlotType t) := by
  unfold regSlotType
  split
  · unfold Env.Loads at h ⊢
    cases hf : Γ.classFuel with
    | zero =>
        rw [hf] at h
        exact nomatch h
    | succ k => rfl
  · exact h

theorem map_eq_iff_view {r r' : Except Stop (Unit × Builder)} :
    (r.map fun p => p.2.unmarked) = (r'.map fun p => p.2.unmarked) ↔ view r = view r' := by
  cases r with
  | error s =>
      cases r' with
      | error s' =>
          constructor
          · exact fun h => congrArg Except.error (Except.error.inj h)
          · exact fun h => congrArg Except.error (Except.error.inj h)
      | ok q => exact iff_of_false (fun h => nomatch h) fun h => nomatch h
  | ok p =>
      cases r' with
      | error s' => exact iff_of_false (fun h => nomatch h) fun h => nomatch h
      | ok q =>
          constructor
          · exact fun h => congrArg (fun B => Except.ok ((), B)) (Except.ok.inj h)
          · exact fun h => congrArg Except.ok (Prod.mk.inj (Except.ok.inj h)).2

/-- `T x=e;` is `T x; x=e;`, the same instructions in the same order, exactly if `T` is no class,
or a class that is accessed as a class of its size (itself, where it has no whole type); or the
generator of `e` stops. -/
theorem declareWith_iff (Γ : Env) (d : Nat) (fnName : String) (breaks : List BreakTarget)
    (F : FnCtx) (loc loc' : SrcLoc) (v : VarDeclarator) (n m : Node) (e : Expr)
    (hfresh : v.name ∉ F.localNames) (hscopes : F.scopes ≠ [])
    (hlist : ∀ k es, e ≠ .initList k es) (harr : ∀ elem len, v.type ≠ .array elem len)
    (hloads : Γ.Loads v.type) :
    codeOf (declareWith Γ d fnName breaks loc v e F) =
        codeOf (declareThenAssign Γ d fnName breaks loc loc' v n m e F) ↔
      (Ends (Γ.declared F v) d (.rv, e) → Safe (Γ.declared F v) d (.rv, e) →
        StoresWhole Γ v.type ((Γ.declared F v).HasValue e)) := by
  rw [codeOf_declareWith hfresh hlist harr, codeOf_declareThenAssign hfresh hscopes]
  have hend := (gen_visited (Γ.declared F v) d).rv [] e (F.declared Γ v).b
  have hrun : ∀ f : RV → Gen Unit,
      ((gen (Γ.declared F v) d).genExpr [] e >>= f) (F.declared Γ v).b =
      (gen (Γ.declared F v) d).genExpr [] e (F.declared Γ v).b >>= fun p => f p.1 p.2 :=
    fun _ => rfl
  rw [hrun, hrun]
  cases hx : (gen (Γ.declared F v) d).genExpr [] e (F.declared Γ v).b with
  | error s =>
      rw [hx] at hend
      refine iff_of_true rfl fun hE hS => ?_
      cases s with
      | fuel => exact (hend.1 hE).elim
      | nullValue => exact (hend hS).elim
      | undefined => exact hend.elim
  | ok p =>
      rw [hx] at hend
      rcases hend with ⟨hE, hS, ⟨k, hk, hrv⟩, _⟩
      rcases Option.isSome_iff_exists.mp (loads_regSlotType hloads) with ⟨t', ht'⟩
      have hends := ends_iff (Γ := Γ.declared F v) n (.slot F.b.slots.length) p.1 p.2 ht'
      rw [storesWhole_regSlotType, hasValue_iff hk hrv] at hends
      change (Except.map _ (initEnd _ _ _ p.1 p.2)) = (Except.map _ (assignEnd _ _ _ _ p.1 p.2)) ↔ _
      rw [map_eq_iff_view, hends]
      exact ⟨fun h _ _ => h, fun h => h hE hS⟩

/-- `I64 x=1;`. -/
theorem declareWith_scalar : codeOf (declareWith { classFuel := 1 } 1 "F" [] {}
      { name := "x", type := .i64 } (.intLit {} 1) {}) =
    codeOf (declareThenAssign { classFuel := 1 } 1 "F" [] {} {} { name := "x", type := .i64 } {} {}
      (.intLit {} 1) {}) := by
  refine (declareWith_iff _ _ _ _ _ _ _ _ _ _ _ List.not_mem_nil (List.cons_ne_nil _ _) ?_ ?_
    ?_).mpr fun _ _ hagg => nomatch hagg
  · exact fun _ _ h => nomatch h
  · exact fun _ _ h => nomatch h
  · exact rfl

/-- `M x=1;` after `I64i union M { U8 u8[8]; };`. -/
theorem declareWith_union : codeOf (declareWith
      { heap := fun _ => { name := "M", wholeType := some .i64, size := 8 }, classFuel := 2 } 1 "F"
      [] {} { name := "x", type := .cls 0 } (.intLit {} 1) {}) ≠
    codeOf (declareThenAssign
      { heap := fun _ => { name := "M", wholeType := some .i64, size := 8 }, classFuel := 2 } 1 "F"
      [] {} {} { name := "x", type := .cls 0 } {} {} (.intLit {} 1) {}) := by
  intro h
  have hlog := congrArg (fun r => r.toOption.map fun B => B.log.map Prod.snd) h
  revert hlog
  decide

end Statements

end Hlang.Codegen
