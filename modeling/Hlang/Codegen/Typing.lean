import Hlang.Codegen.Visited

/-!
# Hlang.Codegen.Typing — the type that `typeOf` gives

`typeOf` reads a type off the tree, code generation finds one on its way. `Place` and `Rvalue`
are the typing rules under which the two agree: `typeOf` does not decay arrays and classes,
does not know which operators leave the type of their operands, and takes a sub-int access
for a byte. What the rules type has the type that `genLValue` returns
(`typeOf_genLValue`).
-/

namespace Hlang.Codegen

open Ir Gen

/-- A value of kind `q` serves like one of the type `t`: it is the same pointer, or both are
doubles, or neither is one, and it is called like it. -/
structure Alike (t : Ty) (q : Kind) : Prop where
  ptr : ∀ u, t = .ptr u ↔ q.t = .ptr u
  dbl : t.isF64 = q.dbl
  called : calledType t = calledType q.t
  array : ∀ elem len, t ≠ .array elem len

/-- Neither a pointer nor a double. -/
structure Kind.Plain (q : Kind) : Prop where
  ptr : q.t.isPtr = false
  dbl : q.dbl = false

/-- The sub-int access of an index `b[i]`, where `b` is a member of an integer. -/
def Env.subInt (Γ : Env) : Expr → Option Ty
  | .member _ q s false => subIntLV (Γ.lvKind q) s
  | _ => none

/-- The operators that compare or connect. -/
def isLogical (op : P) : Bool := op ∈ [.andAnd, .orOr, .xorXor, .eqEq, .ne]

/-- The arithmetic operators whose result keeps the type of a pointer. -/
def keepsPtr (op : P) : Bool :=
  op ∈ [.plus, .minus, .star, .slash, .percent, .amp, .pipe, .caret, .shl, .shr]

/-- The expressions whose value is an integer that is made on the spot. -/
def isIntLit : Expr → Bool
  | .intLit _ _ | .charLit _ _ | .sizeofType _ _ | .sizeofExpr _ _ | .offsetOf _ _ _ _
  | .chainCmp _ _ _ | .lastClass _ | .initList _ _ => true
  | _ => false

/-- The unary operators that have rules of their own. -/
def unaryOps : List P := [.amp, .star, .not, .minus, .plus, .plusPlus, .minusMinus]

/-- The result `typeOf` gives to a call by the name of the callee. -/
def Env.knownTy (Γ : Env) : Expr → Option Ty
  | .ident _ s =>
      match Γ.findFunc s with
      | some f => some f.type.ret
      | none => if s = "ToF64" then some .f64 else none
  | _ => none

mutual

/-- `e` is an lvalue of type `t`. -/
inductive Place (Γ : Env) : Expr → Ty → Prop where
  | var {n s v} (h : Γ.lookupVar s = some v) : Place Γ (.ident n s) v.type
  | deref {n k q t} (hk : Rvalue Γ k q) (ht : derefLV q.t = some t) :
      Place Γ (.unary n .star true k) t
  | incr {n p pre k t} (hp : p = .plusPlus ∨ p = .minusMinus) (hk : Place Γ k t) :
      Place Γ (.unary n p pre k) t
  | element {n b i elem len} (hb : Place Γ b (.array elem len)) (helem : elem ≠ .void) :
      Place Γ (.index n b i) elem
  | offset {n b i q} (hb : Rvalue Γ b q) (hsub : Γ.subInt b = none)
      (helem : pointee q.t ≠ .void) : Place Γ (.index n b i) (pointee q.t)
  | byte {n m q i t} (hq : Place Γ q t) (ht : (t.isInt || t.isF64) = true) :
      Place Γ (.index n (.member m q "u8" false) i) .u8
  | member {n b s t u} (hb : Place Γ b t) (hs : Γ.memberTy (some t) s = some (some u)) :
      Place Γ (.member n b s false) u
  | arrow {n b s q elem u} (hb : Rvalue Γ b q) (hq : q.t = .ptr elem)
      (hs : Γ.memberTy (some elem) s = some (some u)) : Place Γ (.member n b s true) u
  | cast {n k t t'} (hk : Γ.lvKind k = some (some t')) : Place Γ (.cast n k t) t
  | assign {n op a c t} (ha : Place Γ a t) : Place Γ (.assign n op a c) t

/-- `e` has a value of kind `q`. -/
inductive Rvalue (Γ : Env) : Expr → Kind → Prop where
  | int {e} (he : isIntLit e = true) : Rvalue Γ e .i64
  | float {n r} : Rvalue Γ (.floatLit n r) .f64
  | str {n s} : Rvalue Γ (.strLit n s) (.of (.ptr .u8))
  /-- an lvalue, if it does not decay, and its value is not that of another operand -/
  | place {e t q} (he : Place Γ e t) (hq : Γ.rvKind e = some q) (ht : Alike t q) : Rvalue Γ e q
  | cast {n k t q} (hq : Γ.rvKind (.cast n k t) = some q) (ht : Alike t q) :
      Rvalue Γ (.cast n k t) q
  | addr {n pre k t} (hk : Place Γ k t) (hfn : Γ.addressed k = none) :
      Rvalue Γ (.unary n .amp pre k) (.of (.ptr t))
  | load {n pre k q q'} (hk : Rvalue Γ k q) (hq : Γ.rvKind (.unary n .star pre k) = some q')
      (ht : Alike (pointee q.t) q') : Rvalue Γ (.unary n .star pre k) q'
  | not {n pre k} : Rvalue Γ (.unary n .not pre k) .i64
  | minus {n pre k q} (hk : Rvalue Γ k q) (hq : q.dbl = true ∨ q.Plain ∧ calledType q.t = none) :
      Rvalue Γ (.unary n .minus pre k) (if q.dbl then .f64 else if q.t.isInt then .of q.t else .i64)
  | plus {n pre k q} (hk : Rvalue Γ k q) : Rvalue Γ (.unary n .plus pre k) q
  /-- `~`, and what is no operator -/
  | tilde {n p pre k q} (hp : p ∉ unaryOps) (hk : Rvalue Γ k q) (hq : q.Plain)
      (hcall : calledType q.t = none) : Rvalue Γ (.unary n p pre k) .i64
  | arith {n op a c ka kc} (ha : Rvalue Γ a ka) (hc : Rvalue Γ c kc) (hop : isLogical op = false)
      (hbits : isBitwise op = true → ka.dbl = false ∧ kc.dbl = false)
      (hptr : keepsPtr op = false → (ka.dbl || kc.dbl) = false →
        ka.t.isPtr = false ∧ kc.t.isPtr = false) :
      Rvalue Γ (.binary n op a c) (arithKind op ka kc)
  | logical {n op a c ka kc} (ha : Rvalue Γ a ka) (hc : Rvalue Γ c kc) (hop : isLogical op = true)
      (hka : ka.Plain) (hkc : kc.Plain) : Rvalue Γ (.binary n op a c) .i64
  | func {n s f} (hvar : Γ.lookupVar s = none) (hf : Γ.findFunc s = some f)
      (hret : Alike f.type.ret f.type.kind) : Rvalue Γ (.ident n s) f.type.kind
  | undefined {n s} (hvar : Γ.lookupVar s = none) (hf : Γ.findFunc s = none) :
      Rvalue Γ (.ident n s) .i64
  /-- `typeOf` knows the callee by its name -/
  | known {n callee args t q} (ht : Γ.knownTy callee = some t)
      (hq : Γ.rvKind (.call n callee args) = some q) (hret : Alike t q) :
      Rvalue Γ (.call n callee args) q
  | call {n callee args q q'} (hname : Γ.knownTy callee = none) (hk : Rvalue Γ callee q)
      (hq : Γ.rvKind (.call n callee args) = some q')
      (hret : Alike ((calledType q.t).elim .i64 (·.ret)) q') : Rvalue Γ (.call n callee args) q'

end

/-! ## Kinds -/

section Alike

variable {t u : Ty} {q ka kc : Kind}

theorem Alike.pointee_eq (h : Alike t q) : pointee t = pointee q.t := by
  by_cases ht : ∃ u, t = .ptr u
  · rcases ht with ⟨u, rfl⟩
    rw [(h.ptr u).mp rfl]
  · have hq : ¬ ∃ u, q.t = .ptr u := fun ⟨u, hu⟩ => ht ⟨u, (h.ptr u).mpr hu⟩
    have hbytes : ∀ {v : Ty}, (¬ ∃ u, v = .ptr u) → pointee v = .u8 := by
      intro v hv
      cases v with
      | ptr u => exact (hv ⟨u, rfl⟩).elim
      | _ => rfl
    rw [hbytes ht, hbytes hq]

theorem Alike.isPtr_eq (h : Alike t q) : t.isPtr = q.t.isPtr := by
  have hiff : ∀ {v : Ty}, v.isPtr = true ↔ ∃ u, v = .ptr u := by
    intro v
    cases v with
    | ptr u => exact iff_of_true rfl ⟨u, rfl⟩
    | _ => exact iff_of_false Bool.false_ne_true fun h => nomatch h
  rw [Bool.eq_iff_iff, hiff, hiff]
  exact exists_congr h.ptr

/-- What is neither pointer, double nor array serves as an integer. -/
theorem alike_int (hptr : t.isPtr = false) (hdbl : t.isF64 = false) (hcall : calledType t = none)
    (harray : ∀ elem len, t ≠ .array elem len) {u : Ty} (hu : u.isInt = true) :
    Alike t (.of u) := by
  have hne : ∀ {v w : Ty}, v.isPtr = false → v ≠ .ptr w := by
    rintro v w hv rfl
    cases hv
  cases u with
  | int n uns =>
      refine ⟨fun w => ?_, hdbl, hcall, harray⟩
      exact iff_of_false (hne hptr) (hne rfl)
  | _ => cases hu

theorem Alike.plain (h : Alike t q) (hq : q.Plain) (hcall : calledType q.t = none)
    (hu : u.isInt = true) : Alike t (.of u) :=
  alike_int (h.isPtr_eq.trans hq.ptr) (h.dbl.trans hq.dbl) (h.called.trans hcall) h.array hu

theorem alike_double (h : t.isF64 = true) : Alike t .f64 := by
  cases t with
  | f64 =>
      refine ⟨fun u => ?_, rfl, rfl, fun _ _ h => nomatch h⟩
      exact iff_of_false (fun h => nomatch h) fun h => nomatch h
  | _ => cases h

theorem Alike.double (h : Alike t q) (hq : q.dbl = true) : Alike t .f64 :=
  alike_double (h.dbl.trans hq)

theorem alike_ptr (u : Ty) : Alike (.ptr u) (.of (.ptr u)) :=
  ⟨fun _ => Iff.rfl, rfl, rfl, fun _ _ h => nomatch h⟩

theorem Alike.of_ptr (h : Alike t q) (ht : t.isPtr = true) : Alike t (.of q.t) := by
  cases t with
  | ptr u =>
      rw [(h.ptr u).mp rfl]
      exact alike_ptr u
  | _ => cases ht

theorem alike_i64 : Alike .i64 .i64 :=
  alike_int rfl rfl rfl (fun _ _ h => Ty.noConfusion h) rfl

/-- `typeOf` of an operation. -/
def binaryTy (t u : Ty) : Ty :=
  if t.isF64 || u.isF64 then .f64 else if t.isPtr then t else if u.isPtr then u else .i64

theorem alike_arith {op : P} (ht : Alike t ka) (hu : Alike u kc)
    (hbits : isBitwise op = true → ka.dbl = false ∧ kc.dbl = false)
    (hptr : keepsPtr op = false → (ka.dbl || kc.dbl) = false →
      ka.t.isPtr = false ∧ kc.t.isPtr = false) :
    Alike (binaryTy t u) (arithKind op ka kc) := by
  unfold binaryTy arithKind
  rw [ht.dbl, hu.dbl]
  by_cases hdbl : (ka.dbl || kc.dbl) = true
  · have hop : isBitwise op = false := by
      by_contra hop
      rcases hbits (Bool.not_eq_false _ ▸ hop) with ⟨ha, hc⟩
      rw [ha, hc] at hdbl
      cases hdbl
    rw [hdbl, hop]
    exact alike_double rfl
  · have hdbl := Bool.eq_false_of_not_eq_true hdbl
    rw [hdbl, Bool.false_and, if_neg Bool.false_ne_true, if_neg Bool.false_ne_true]
    have hint : ∀ {v : Ty}, v.isInt = true → Alike .i64 (.of v) := by
      intro v hv
      refine alike_int rfl rfl rfl ?_ hv
      intro _ _ h
      cases h
    by_cases hkeep : keepsPtr op = true
    · rw [if_pos (of_decide_eq_true hkeep)]
      unfold intResult
      rw [← ht.isPtr_eq, ← hu.isPtr_eq]
      split_ifs
      · exact ht.of_ptr ‹_›
      · exact hu.of_ptr ‹_›
      · exact hint rfl
      · exact hint rfl
    · rcases hptr (Bool.not_eq_true _ ▸ hkeep) hdbl with ⟨ha, hc⟩
      rw [if_neg fun h => hkeep (decide_eq_true h), ht.isPtr_eq, hu.isPtr_eq, ha, hc]
      exact hint rfl

end Alike

/-! ## The rules are sound -/

section Rules

variable {Γ : Env} {n : Node} {e k a b c i : Expr} {s : String} {t u : Ty} {q : Kind} {pre : Bool}

/-- `t` is the type of the lvalue `e`, and the type `typeOf` gives. -/
structure SeenPlace (Γ : Env) (e : Expr) (t : Ty) : Prop where
  lv : Γ.lvKind e = some (some t)
  typeOf : Γ.typeOf e = some t

/-- `q` is the kind of the value of `e`, and serves like the type `typeOf` gives. -/
structure SeenVal (Γ : Env) (e : Expr) (q : Kind) : Prop where
  rv : Γ.rvKind e = some q
  typeOf : ∃ t, Γ.typeOf e = some t ∧ Alike t q

theorem lvKind_element (h : Γ.subInt b = none) :
    Γ.lvKind (.index n b i) = elementLV (Γ.typeOf b) (Γ.rvKind b) (Γ.lvKind b) := by
  rcases noDot_cases b with hdot | ⟨m, q, s, rfl⟩
  · exact lvKind_index hdot n i
  · have hsub : subIntLV (Γ.lvKind q) s = none := h
    rw [Env.lvKind, Env.subIndexLV, hsub, rvKind_member, Env.lvKind]
    rfl

theorem elementTy_of_ne (h : t ≠ .void) : elementTy t = t := by
  cases t with
  | void => exact absurd rfl h
  | _ => rfl

theorem memberType_of_memberTy (h : Γ.memberTy (some t) s = some (some u)) :
    Γ.memberType t s = some u := by
  unfold Env.memberTy at h
  unfold Env.memberType
  cases t with
  | cls c =>
      rcases Option.map_eq_some_iff.mp h with ⟨m, hm, hu⟩
      simp only [hm, Option.map_some, hu, Option.getD_some]
  | int _ _ | f64 =>
      simp only [Option.some.inj h, Option.getD_some]
  | _ => cases Option.some.inj h

theorem SeenVal.deref (h : SeenVal Γ k q) (ht : derefLV q.t = some t) :
    SeenPlace Γ (.unary n .star true k) t := by
  rcases h with ⟨hrv, u, hu, halike⟩
  have hpointee : t = pointee q.t := by
    unfold derefLV at ht
    split at ht
    · cases ht
    · exact (Option.some.inj ht).symm
  constructor
  · rw [Env.lvKind, hrv]
    exact congrArg some ht
  · unfold Env.typeOf
    rw [hu, hpointee, ← halike.pointee_eq]
    rfl

theorem subIntLV_some {sub : Ty} {o : Option (Option Ty)} (h : subIntLV o s = some sub) :
    ∃ t, o = some (some t) ∧ (t.isInt || t.isF64) = true ∧ subIntType s = some sub := by
  unfold subIntLV at h
  split at h
  · next t _ hs =>
      split_ifs at h with hint
      exact ⟨t, rfl, hint, hs.trans h⟩
  · cases h

theorem isInt_subIntType (h : subIntType s = some t) : t.isInt = true := by
  unfold subIntType at h
  split at h
  all_goals first | cases h; done | rcases Option.some.inj h with rfl; rfl

/-- A member of an integer is an integer. -/
theorem isInt_of_subInt {sub : Ty} (h : Γ.subInt b = some sub) (ht : Γ.lvKind b = some (some t)) :
    t.isInt = true := by
  rcases noDot_cases b with hdot | ⟨m, q, s, rfl⟩
  · unfold Env.subInt at h
    split at h
    · exact (hdot _ _ _ rfl).elim
    · cases h
  · have hsub : subIntLV (Γ.lvKind q) s = some sub := h
    rw [Env.lvKind, Env.memberLV] at ht
    rcases subIntLV_some hsub with ⟨u, hu, hint, hs⟩
    rw [hu] at ht
    have hmember : Γ.memberTy (some u) s = some (some sub) := by
      rw [← hs]
      cases u with
      | int _ _ | f64 => rfl
      | _ => cases hint
    rcases Option.some.inj (Option.some.inj (hmember.symm.trans ht)) with rfl
    exact isInt_subIntType hs

theorem SeenPlace.element {elem : Ty} {len : I64} (h : SeenPlace Γ b (.array elem len))
    (helem : elem ≠ .void) : SeenPlace Γ (.index n b i) elem := by
  rcases h with ⟨hlv, htype⟩
  have hsub : Γ.subInt b = none := by
    rw [Option.eq_none_iff_forall_not_mem]
    intro sub hsub
    cases isInt_of_subInt hsub hlv
  constructor
  · rw [lvKind_element hsub, htype, hlv, elementLV]
    exact congrArg (fun t => some (some t)) (elementTy_of_ne helem)
  · unfold Env.typeOf
    rw [htype]
    rfl

theorem SeenVal.offset (h : SeenVal Γ b q) (hsub : Γ.subInt b = none)
    (helem : pointee q.t ≠ .void) : SeenPlace Γ (.index n b i) (pointee q.t) := by
  rcases h with ⟨hrv, t, htype, halike⟩
  constructor
  · rw [lvKind_element hsub, htype, hrv, elementLV]
    cases t with
    | array elem len => exact absurd rfl (halike.array elem len)
    | _ => exact congrArg (fun t => some (some t)) (elementTy_of_ne helem)
  · unfold Env.typeOf
    rw [htype, ← halike.pointee_eq]
    cases t with
    | array elem len => exact absurd rfl (halike.array elem len)
    | _ => rfl

theorem SeenPlace.byte {m : Node} (h : SeenPlace Γ a t) (ht : (t.isInt || t.isF64) = true) :
    SeenPlace Γ (.index n (.member m a "u8" false) i) .u8 := by
  rcases h with ⟨hlv, htype⟩
  have hsub : subIntLV (Γ.lvKind a) "u8" = some .u8 := by
    rw [hlv]
    exact if_pos ht
  constructor
  · rw [Env.lvKind, Env.subIndexLV, hsub]
  · have hmember : Γ.typeOf (.member m a "u8" false) = some .u8 := by
      unfold Env.typeOf
      rw [htype]
      cases t with
      | int _ _ | f64 => rfl
      | _ => cases ht
    unfold Env.typeOf
    rw [hmember]
    rfl

theorem SeenPlace.member (h : SeenPlace Γ b t) (hs : Γ.memberTy (some t) s = some (some u)) :
    SeenPlace Γ (.member n b s false) u := by
  rcases h with ⟨hlv, htype⟩
  constructor
  · rw [Env.lvKind, hlv, Env.memberLV]
    exact hs
  · have hmember := memberType_of_memberTy hs
    unfold Env.typeOf
    rw [htype]
    cases t with
    | ptr elem => exact hmember
    | _ => exact hmember

theorem SeenVal.arrow {elem : Ty} (h : SeenVal Γ b q) (hq : q.t = .ptr elem)
    (hs : Γ.memberTy (some elem) s = some (some u)) : SeenPlace Γ (.member n b s true) u := by
  rcases h with ⟨hrv, t, htype, halike⟩
  rcases (halike.ptr elem).mpr hq with rfl
  constructor
  · rw [Env.lvKind, hrv, Env.memberLV]
    dsimp only [if_pos, Option.bind_some]
    rw [if_pos rfl, hq]
    exact hs
  · unfold Env.typeOf
    rw [htype]
    exact memberType_of_memberTy hs

theorem SeenPlace.val (h : SeenPlace Γ e t) (hq : Γ.rvKind e = some q) (ht : Alike t q) :
    SeenVal Γ e q := ⟨hq, t, h.typeOf, ht⟩

theorem SeenPlace.addr (h : SeenPlace Γ k t) (hfn : Γ.addressed k = none) :
    SeenVal Γ (.unary n .amp pre k) (.of (.ptr t)) := by
  refine ⟨?_, .ptr t, ?_, alike_ptr t⟩
  · unfold Env.rvKind
    simp only [hfn, h.lv]
    rfl
  · unfold Env.typeOf
    simp only [h.typeOf, Option.map_some]

theorem typeOf_unary {p : P} (hp : p ∉ [.amp, .star, .not]) :
    Γ.typeOf (.unary n p pre k) = Γ.typeOf k := by
  conv_lhs => unfold Env.typeOf
  cases p <;> first | rfl | exact absurd (by decide) hp

theorem SeenVal.load {q' : Kind} (h : SeenVal Γ k q) (hq : Γ.rvKind (.unary n .star pre k) = some q')
    (ht : Alike (pointee q.t) q') : SeenVal Γ (.unary n .star pre k) q' := by
  rcases h with ⟨_, t, htype, halike⟩
  refine ⟨hq, pointee t, ?_, halike.pointee_eq ▸ ht⟩
  unfold Env.typeOf
  rw [htype]
  rfl

theorem SeenVal.tilde {p : P} (hp : p ∉ unaryOps) (h : SeenVal Γ k q) (hq : q.Plain)
    (hcall : calledType q.t = none) : SeenVal Γ (.unary n p pre k) .i64 := by
  rcases h with ⟨_, t, htype, halike⟩
  refine ⟨?_, t, ?_, halike.plain hq hcall rfl⟩
  · unfold Env.rvKind
    cases p <;> first | rfl | exact absurd (by decide) hp
  · rw [typeOf_unary fun h => hp (List.mem_of_mem_take (i := 3) h)]
    exact htype

theorem SeenVal.minus (h : SeenVal Γ k q) (hq : q.dbl = true ∨ q.Plain ∧ calledType q.t = none) :
    SeenVal Γ (.unary n .minus pre k)
      (if q.dbl then .f64 else if q.t.isInt then .of q.t else .i64) := by
  rcases h with ⟨hrv, t, htype, halike⟩
  refine ⟨?_, t, (typeOf_unary (by decide)).trans htype, ?_⟩
  · unfold Env.rvKind
    simp only [hrv]
    rfl
  · rcases hq with hdbl | ⟨hplain, hcall⟩
    · rw [if_pos hdbl]
      exact halike.double hdbl
    · rw [if_neg (by rw [hplain.dbl]; exact Bool.false_ne_true)]
      split_ifs with hint
      · exact halike.plain hplain hcall hint
      · exact halike.plain hplain hcall rfl

theorem SeenVal.plus (h : SeenVal Γ k q) : SeenVal Γ (.unary n .plus pre k) q := by
  rcases h with ⟨hrv, t, htype, halike⟩
  refine ⟨?_, t, (typeOf_unary (by decide)).trans htype, halike⟩
  unfold Env.rvKind
  exact hrv

theorem typeOf_binary {op : P} (ha : Γ.typeOf a = some t) (hc : Γ.typeOf c = some u) :
    Γ.typeOf (.binary n op a c) = some (binaryTy t u) := by
  unfold Env.typeOf binaryTy
  rw [ha, hc]
  dsimp only [Option.bind_eq_bind, Option.bind_some]
  split_ifs <;> rfl

theorem SeenVal.arith {op : P} {ka kc : Kind} (ha : SeenVal Γ a ka) (hc : SeenVal Γ c kc)
    (hop : isLogical op = false) (hbits : isBitwise op = true → ka.dbl = false ∧ kc.dbl = false)
    (hptr : keepsPtr op = false → (ka.dbl || kc.dbl) = false →
      ka.t.isPtr = false ∧ kc.t.isPtr = false) :
    SeenVal Γ (.binary n op a c) (arithKind op ka kc) := by
  rcases ha with ⟨hrva, t, hta, hla⟩
  rcases hc with ⟨hrvc, u, htc, hlc⟩
  refine ⟨?_, binaryTy t u, typeOf_binary hta htc, alike_arith hla hlc hbits hptr⟩
  unfold Env.rvKind
  rw [hrva, hrvc]
  cases op <;> first | rfl | cases hop

theorem SeenVal.logical {op : P} {ka kc : Kind} (ha : SeenVal Γ a ka) (hc : SeenVal Γ c kc)
    (hop : isLogical op = true) (hka : ka.Plain) (hkc : kc.Plain) :
    SeenVal Γ (.binary n op a c) .i64 := by
  rcases ha with ⟨hrva, t, hta, hla⟩
  rcases hc with ⟨hrvc, u, htc, hlc⟩
  refine ⟨?_, binaryTy t u, typeOf_binary hta htc, ?_⟩
  · unfold Env.rvKind
    cases op <;> first | rfl | cases hop
  · unfold binaryTy
    rw [hla.dbl, hlc.dbl, hla.isPtr_eq, hlc.isPtr_eq, hka.dbl, hkc.dbl, hka.ptr, hkc.ptr]
    exact alike_i64

theorem seenVal_func {f : FuncSym} (hvar : Γ.lookupVar s = none) (hf : Γ.findFunc s = some f)
    (hret : Alike f.type.ret f.type.kind) : SeenVal Γ (.ident n s) f.type.kind := by
  refine ⟨?_, f.type.ret, ?_, hret⟩
  · unfold Env.rvKind
    simp only [hvar, hf]
    rfl
  · unfold Env.typeOf
    simp only [hvar, hf]

theorem seenVal_undefined (hvar : Γ.lookupVar s = none) (hf : Γ.findFunc s = none) :
    SeenVal Γ (.ident n s) .i64 := by
  refine ⟨?_, .i64, ?_, alike_i64⟩
  · unfold Env.rvKind
    simp only [hvar, hf]
    rfl
  · unfold Env.typeOf
    simp only [hvar, hf]

/-- `typeOf` of a call. -/
theorem typeOf_call {callee : Expr} {args : List Arg} : Γ.typeOf (.call n callee args) =
    match Γ.knownTy callee with
    | some t => some t
    | none => (Γ.typeOf callee).map fun t => (calledType t).elim .i64 (·.ret) := by
  conv_lhs => unfold Env.typeOf
  extract_lets known
  have hknown : known = Γ.knownTy callee := rfl
  clear_value known
  rw [hknown]
  cases Γ.knownTy callee with
  | some t => rfl
  | none =>
      cases Γ.typeOf callee with
      | none => rfl
      | some t =>
          cases t with
          | ptr u => cases u <;> rfl
          | _ => rfl

theorem seenVal_known {callee : Expr} {args : List Arg} (ht : Γ.knownTy callee = some t)
    (hq : Γ.rvKind (.call n callee args) = some q) (hret : Alike t q) :
    SeenVal Γ (.call n callee args) q := by
  refine ⟨hq, t, ?_, hret⟩
  rw [typeOf_call, ht]

theorem SeenVal.call {callee : Expr} {args : List Arg} {q' : Kind} (h : SeenVal Γ callee q)
    (hname : Γ.knownTy callee = none) (hq : Γ.rvKind (.call n callee args) = some q')
    (hret : Alike ((calledType q.t).elim .i64 (·.ret)) q') :
    SeenVal Γ (.call n callee args) q' := by
  rcases h with ⟨_, t, htype, halike⟩
  refine ⟨hq, (calledType t).elim .i64 (·.ret), ?_, halike.called ▸ hret⟩
  rw [typeOf_call, hname, htype]
  rfl

end Rules

/-! ## What the rules type -/

section Typing

variable {Γ : Env}

mutual

theorem Place.seen : ∀ {e : Expr} {t : Ty}, Place Γ e t → SeenPlace Γ e t
  | _, _, .var h => by
      constructor
      · rw [Env.lvKind, h]
        rfl
      · unfold Env.typeOf
        rw [h]
  | _, _, .deref hk ht => hk.seen.deref ht
  | _, _, .incr hp hk => by
      rcases hk.seen with ⟨hlv, htype⟩
      rcases hp with rfl | rfl
      all_goals
        constructor
        · rw [Env.lvKind]
          exact hlv
        · unfold Env.typeOf
          exact htype
  | _, _, .element hb helem => hb.seen.element helem
  | _, _, .offset hb hsub helem => hb.seen.offset hsub helem
  | _, _, .byte hq ht => hq.seen.byte ht
  | _, _, .member hb hs => hb.seen.member hs
  | _, _, .arrow hb hq hs => hb.seen.arrow hq hs
  | _, _, .cast hk => by
      constructor
      · rw [Env.lvKind, hk]
        rfl
      · unfold Env.typeOf
        rfl
  | _, _, .assign ha => by
      rcases ha.seen with ⟨hlv, htype⟩
      constructor
      · rw [Env.lvKind]
        exact hlv
      · unfold Env.typeOf
        exact htype

theorem Rvalue.seen : ∀ {e : Expr} {q : Kind}, Rvalue Γ e q → SeenVal Γ e q
  | e, _, .int he => by
      refine ⟨?_, .i64, ?_, alike_i64⟩
      · cases e <;> first | (unfold Env.rvKind; rfl) | cases he
      · cases e <;> first | (unfold Env.typeOf; rfl) | cases he
  | _, _, .float => by
      refine ⟨?_, .f64, ?_, alike_double rfl⟩
      · unfold Env.rvKind
        rfl
      · unfold Env.typeOf
        rfl
  | _, _, .str => by
      refine ⟨?_, .ptr .u8, ?_, alike_ptr .u8⟩
      · unfold Env.rvKind
        rfl
      · unfold Env.typeOf
        rfl
  | _, _, .place he hq ht => he.seen.val hq ht
  | _, _, .cast hq ht => by
      refine ⟨hq, _, ?_, ht⟩
      unfold Env.typeOf
      rfl
  | _, _, .addr hk hfn => hk.seen.addr hfn
  | _, _, .not => by
      refine ⟨?_, .i64, ?_, alike_i64⟩
      · unfold Env.rvKind
        rfl
      · unfold Env.typeOf
        rfl
  | _, _, .load hk hq ht => hk.seen.load hq ht
  | _, _, .tilde hp hk hq hcall => hk.seen.tilde hp hq hcall
  | _, _, .minus hk hq => hk.seen.minus hq
  | _, _, .plus hk => hk.seen.plus
  | _, _, .arith ha hc hop hbits hptr => ha.seen.arith hc.seen hop hbits hptr
  | _, _, .logical ha hc hop hka hkc => ha.seen.logical hc.seen hop hka hkc
  | _, _, .func hvar hf hret => seenVal_func hvar hf hret
  | _, _, .undefined hvar hf => seenVal_undefined hvar hf
  | _, _, .known ht hq hret => seenVal_known ht hq hret
  | _, _, .call hname hk hq hret => hk.seen.call hname hq hret

end

end Typing

/-! ## What the rules leave out -/

section Complete

variable {Γ : Env} {t u : Ty} {q ka kc : Kind}

/-- `typeOf` gives an array. -/
def isArray : Option Ty → Bool
  | some (.array _ _) => true
  | _ => false

/-- What the base of an index is used as. -/
def Env.basePos (Γ : Env) (b : Expr) : Pos :=
  if (Γ.subInt b).isSome || isArray (Γ.typeOf b) then .lv else .rv

/-- The operands whose types `typeOf` goes by, and what they are used as. -/
def Env.consults (Γ : Env) : Visit → List Visit
  | (.lv, .unary _ p pre k) =>
      if p = .star && pre then [(.rv, k)]
      else if p = .plusPlus || p = .minusMinus then [(.lv, k)]
      else []
  | (.lv, .index _ b _) => [(Γ.basePos b, b)]
  | (.lv, .member _ b _ isArrow) => if isArrow then [(.rv, b)] else [(.lv, b)]
  | (.lv, .assign _ _ a _) => [(.lv, a)]
  | (.rv, .unary n p pre k) =>
      match p with
      | .amp => [(.lv, k)]
      | .not => []
      | .plusPlus | .minusMinus => [(.lv, .unary n p pre k)]
      | _ => [(.rv, k)]
  | (.rv, .binary _ _ a c) => [(.rv, a), (.rv, c)]
  | (.rv, .assign n op a c) => [(.lv, .assign n op a c)]
  | (.rv, .index n b i) => [(.lv, .index n b i)]
  | (.rv, .member n b s isArrow) => [(.lv, .member n b s isArrow)]
  | (.rv, .call _ callee _) => if (Γ.knownTy callee).isSome then [] else [(.rv, callee)]
  | _ => []

/-- `typeOf` gives the type of the lvalue, or a type like that of the value. -/
def Env.Seen (Γ : Env) : Visit → Prop
  | (.lv, e) => ∃ t, SeenPlace Γ e t
  | (.rv, e) => ∃ q, SeenVal Γ e q

/-- `typeOf` is right about an expression and all operands it goes by. -/
inductive Agrees (Γ : Env) : Visit → Prop where
  | mk {v : Visit} (here : Γ.Seen v) (below : ∀ w ∈ Γ.consults v, Agrees Γ w) : Agrees Γ v

/-- The rules type the expression. -/
def Typed (Γ : Env) : Visit → Prop
  | (.lv, e) => ∃ t, Place Γ e t
  | (.rv, e) => ∃ q, Rvalue Γ e q

theorem SeenPlace.unique {e : Expr} (h : SeenPlace Γ e t) (h' : SeenPlace Γ e u) : t = u :=
  Option.some.inj (Option.some.inj (h.lv.symm.trans h'.lv))

theorem Alike.plain_of_int (h : Alike t q) (hi : Alike t (.of u)) (hu : u.isInt = true) :
    q.Plain ∧ calledType q.t = none := by
  cases u with
  | int n uns =>
      refine ⟨⟨?_, ?_⟩, ?_⟩
      · rw [← h.isPtr_eq, hi.isPtr_eq]
        rfl
      · rw [← h.dbl, hi.dbl]
        rfl
      · rw [← h.called, hi.called]
        rfl
  | _ => cases hu

theorem binaryTy_double (h : (t.isF64 || u.isF64) = true) : binaryTy t u = .f64 := if_pos h

theorem binaryTy_ptr (h : (t.isF64 || u.isF64) = false) (hp : t.isPtr = true ∨ u.isPtr = true) :
    (binaryTy t u).isPtr = true := by
  unfold binaryTy
  rw [h, if_neg Bool.false_ne_true]
  split_ifs with ht hu
  · exact ht
  · exact hu
  · rcases hp with hp | hp
    · exact absurd hp ht
    · exact absurd hp hu

theorem arithKind_dbl {op : P} (h : isBitwise op = true ∨ (ka.dbl || kc.dbl) = false) :
    (arithKind op ka kc).dbl = false := by
  have hneg : ((ka.dbl || kc.dbl) && !isBitwise op) = false := by
    rcases h with h | h
    · rw [h, Bool.not_true, Bool.and_false]
    · rw [h, Bool.false_and]
  unfold arithKind
  rw [hneg, if_neg Bool.false_ne_true]
  unfold Kind.of
  dsimp only
  split_ifs
  · exact isF64_intResult _ _
  · rfl

theorem arithKind_other {op : P} (hdbl : (ka.dbl || kc.dbl) = false) (hop : keepsPtr op = false) :
    arithKind op ka kc = .i64 := by
  unfold arithKind
  rw [hdbl, Bool.false_and, if_neg Bool.false_ne_true, if_neg (of_decide_eq_false hop)]
  rfl

/-- Where `typeOf` of an operation is no pointer and no double, the operands are none. -/
theorem plain_of_binaryTy (ht : Alike t ka) (hu : Alike u kc) (hdbl : (binaryTy t u).isF64 = false)
    (hptr : (binaryTy t u).isPtr = false) : ka.Plain ∧ kc.Plain := by
  have hnodbl : (t.isF64 || u.isF64) = false := by
    by_contra h
    rw [binaryTy_double (Bool.not_eq_false _ ▸ h)] at hdbl
    cases hdbl
  have hnoptr : ¬ (t.isPtr = true ∨ u.isPtr = true) := by
    intro h
    rw [binaryTy_ptr hnodbl h] at hptr
    cases hptr
  rcases Bool.or_eq_false_iff.mp hnodbl with ⟨hta, huc⟩
  rcases not_or.mp hnoptr with ⟨hpa, hpc⟩
  rw [ht.isPtr_eq] at hpa
  rw [hu.isPtr_eq] at hpc
  exact ⟨⟨Bool.eq_false_of_not_eq_true hpa, ht.dbl.symm.trans hta⟩,
    ⟨Bool.eq_false_of_not_eq_true hpc, hu.dbl.symm.trans huc⟩⟩

theorem arith_bits {op : P} (ht : Alike t ka) (hu : Alike u kc)
    (h : Alike (binaryTy t u) (arithKind op ka kc)) (hop : isBitwise op = true) :
    ka.dbl = false ∧ kc.dbl = false := by
  have hint : (arithKind op ka kc).dbl = false := arithKind_dbl (.inl hop)
  rw [← h.dbl] at hint
  rw [← ht.dbl, ← hu.dbl]
  by_contra hne
  rw [← Bool.or_eq_false_iff] at hne
  rw [binaryTy_double (Bool.not_eq_false _ ▸ hne)] at hint
  cases hint

theorem arith_ptr {op : P} (ht : Alike t ka) (hu : Alike u kc)
    (h : Alike (binaryTy t u) (arithKind op ka kc)) (hop : keepsPtr op = false)
    (hdbl : (ka.dbl || kc.dbl) = false) : ka.t.isPtr = false ∧ kc.t.isPtr = false := by
  rw [arithKind_other hdbl hop] at h
  rcases plain_of_binaryTy ht hu h.dbl h.isPtr_eq with ⟨ha, hc⟩
  exact ⟨ha.ptr, hc.ptr⟩

theorem u8_of_subIntType {s : String} (h : subIntType s = some .u8) : s = "u8" := by
  unfold subIntType at h
  split at h
  all_goals first | rfl | cases h

/-- `typeOf` takes every sub-int access for a byte. -/
theorem SeenPlace.byte_only {n m : Node} {q i : Expr} {s : String} {v sub : Ty}
    (hq : SeenPlace Γ q v) (hint : (v.isInt || v.isF64) = true) (hs : subIntType s = some sub)
    (h : SeenPlace Γ (.index n (.member m q s false) i) t) : s = "u8" ∧ t = .u8 := by
  rcases h with ⟨hlv, htype⟩
  have hmember : Γ.typeOf (.member m q s false) = some sub := by
    unfold Env.typeOf
    rw [hq.typeOf]
    cases v with
    | int _ _ | f64 => exact congrArg (fun o => some (Option.getD o .i64)) hs
    | _ => cases hint
  have hsub : subIntLV (Γ.lvKind q) s = some sub := by
    rw [hq.lv]
    unfold subIntLV
    rw [hs]
    exact if_pos hint
  have hindex : Γ.typeOf (.index n (.member m q s false) i) = some .u8 := by
    have hsubint := isInt_subIntType hs
    unfold Env.typeOf
    rw [hmember]
    cases sub with
    | int _ _ => rfl
    | _ => cases hsubint
  rcases Option.some.inj (htype.symm.trans hindex) with rfl
  rw [Env.lvKind, Env.subIndexLV, hsub] at hlv
  rcases Option.some.inj (Option.some.inj hlv) with rfl
  exact ⟨u8_of_subIntType hs, rfl⟩

/-- An index that `typeOf` types right. -/
theorem typed_index {n : Node} {b i : Expr} (here : SeenPlace Γ (.index n b i) t)
    (below : ∀ w ∈ Γ.consults (.lv, .index n b i), Typed Γ w) : Place Γ (.index n b i) t := by
  rcases here with ⟨hlv, htype⟩
  have hvoid : ∀ {elem : Ty}, Γ.lvKind (.index n b i) = some (some (elementTy elem)) →
      Γ.typeOf (.index n b i) = some elem → elem = t ∧ elem ≠ .void := by
    intro elem hlv' htype'
    rcases Option.some.inj (htype'.symm.trans htype) with rfl
    refine ⟨rfl, ?_⟩
    rintro rfl
    cases Option.some.inj (Option.some.inj (hlv'.symm.trans hlv))
  have hbase : Typed Γ (Γ.basePos b, b) := below _ (List.mem_singleton_self _)
  unfold Env.basePos at hbase
  cases hsub : Γ.subInt b with
  | some sub =>
      rw [hsub] at hbase
      rcases hbase with ⟨u, hb⟩
      rcases noDot_cases b with hdot | ⟨m, q, s, rfl⟩
      · unfold Env.subInt at hsub
        split at hsub
        · exact (hdot _ _ _ rfl).elim
        · cases hsub
      · have hsub' : subIntLV (Γ.lvKind q) s = some sub := hsub
        rcases subIntLV_some hsub' with ⟨v, hv, hint, hs⟩
        cases hb with
        | member hq _ =>
            rcases Option.some.inj (Option.some.inj (hq.seen.lv.symm.trans hv)) with rfl
            rcases hq.seen.byte_only hint hs ⟨hlv, htype⟩ with ⟨rfl, rfl⟩
            exact .byte hq hint
  | none =>
      rw [hsub] at hbase
      by_cases harray : ∃ elem len, Γ.typeOf b = some (.array elem len)
      · rcases harray with ⟨elem, len, harray⟩
        rw [harray] at hbase
        rcases hbase with ⟨u, hb⟩
        rcases Option.some.inj (hb.seen.typeOf.symm.trans harray) with rfl
        have hne : elem = t ∧ elem ≠ .void := by
          refine hvoid ?_ ?_
          · rw [lvKind_element hsub, harray, hb.seen.lv, elementLV]
            rfl
          · unfold Env.typeOf
            rw [harray]
            rfl
        rcases hne with ⟨rfl, hne⟩
        exact .element hb hne
      · have hnot : isArray (Γ.typeOf b) = false := by
          unfold isArray
          split
          · next elem len h => exact (harray ⟨elem, len, h⟩).elim
          · rfl
        rw [hnot] at hbase
        rcases hbase with ⟨q, hb⟩
        rcases hb.seen with ⟨hrv, u, hu, halike⟩
        have hne : pointee q.t = t ∧ pointee q.t ≠ .void := by
          refine hvoid ?_ ?_
          · rw [lvKind_element hsub, hu, hrv, elementLV]
            cases u with
            | array elem len => exact (harray ⟨elem, len, hu⟩).elim
            | _ => rfl
          · unfold Env.typeOf
            rw [hu, ← halike.pointee_eq]
            cases u with
            | array elem len => exact (harray ⟨elem, len, hu⟩).elim
            | _ => rfl
        rcases hne with ⟨rfl, hne⟩
        exact .offset hb hsub hne

theorem typed_lv : ∀ {e : Expr}, Γ.Seen (.lv, e) →
    (∀ w ∈ Γ.consults (.lv, e), Typed Γ w) → Typed Γ (.lv, e) := by
  rintro e ⟨t, here⟩ below
  have hlv := here.lv
  refine ⟨t, ?_⟩
  cases e with
  | ident n s =>
      rw [Env.lvKind] at hlv
      rcases Option.map_eq_some_iff.mp (Option.some.inj hlv) with ⟨v, hv, rfl⟩
      exact .var hv
  | unary n p pre k =>
      dsimp only [Env.consults] at below
      rw [Env.lvKind] at hlv
      split_ifs at hlv with hstar hincr
      · rw [if_pos hstar] at below
        rcases Bool.and_eq_true_iff.mp hstar with ⟨hp, rfl⟩
        rcases of_decide_eq_true hp with rfl
        rcases below _ (List.mem_singleton_self _) with ⟨q, hk⟩
        rw [hk.seen.rv] at hlv
        exact .deref hk (Option.some.inj hlv)
      · rw [if_neg hstar, if_pos hincr] at below
        rcases below _ (List.mem_singleton_self _) with ⟨u, hk⟩
        rcases Option.some.inj (Option.some.inj (hk.seen.lv.symm.trans hlv)) with rfl
        exact .incr (by simpa using hincr) hk
      · cases Option.some.inj hlv
  | index n b i => exact typed_index here below
  | member n b s isArrow =>
      rw [Env.lvKind, Env.memberLV] at hlv
      cases isArrow with
      | true =>
          rcases below _ (List.mem_singleton_self _) with ⟨q, hb⟩
          rw [hb.seen.rv] at hlv
          rw [if_pos rfl, Option.bind_some] at hlv
          split at hlv
          · next elem hq => exact .arrow hb hq hlv
          · cases Option.some.inj hlv
      | false =>
          rcases below _ (List.mem_singleton_self _) with ⟨u, hb⟩
          rw [hb.seen.lv] at hlv
          exact .member hb hlv
  | cast n k u =>
      rw [Env.lvKind] at hlv
      rcases Option.map_eq_some_iff.mp hlv with ⟨o, ho, hu⟩
      rcases Option.map_eq_some_iff.mp hu with ⟨v, rfl, rfl⟩
      exact .cast ho
  | assign n op a c =>
      rw [Env.lvKind] at hlv
      rcases below _ (List.mem_singleton_self _) with ⟨u, ha⟩
      rcases Option.some.inj (Option.some.inj (ha.seen.lv.symm.trans hlv)) with rfl
      exact .assign ha
  | _ =>
      unfold Env.lvKind at hlv
      cases Option.some.inj hlv

/-- The value of an lvalue that is typed. -/
theorem typed_place {e : Expr} (here : Γ.Seen (.rv, e)) (he : Typed Γ (.lv, e)) :
    Typed Γ (.rv, e) := by
  rcases here with ⟨q, hrv, t, htype, halike⟩
  rcases he with ⟨u, he⟩
  rcases Option.some.inj (he.seen.typeOf.symm.trans htype) with rfl
  exact ⟨q, .place he hrv halike⟩

theorem addressed_eq_none {k : Expr} (h : Γ.lvKind k = some (some u)) : Γ.addressed k = none := by
  cases k with
  | ident n s =>
      rw [Env.lvKind] at h
      rcases Option.map_eq_some_iff.mp (Option.some.inj h) with ⟨v, hv, _⟩
      refine if_pos ?_
      rw [hv]
      rfl
  | _ => rfl

theorem typed_unary {n : Node} {p : P} {pre : Bool} {k : Expr}
    (here : Γ.Seen (.rv, .unary n p pre k))
    (below : ∀ w ∈ Γ.consults (.rv, .unary n p pre k), Typed Γ w) :
    Typed Γ (.rv, .unary n p pre k) := by
  have hplace : Typed Γ (.lv, .unary n p pre k) → Typed Γ (.rv, .unary n p pre k) :=
    typed_place here
  rcases here with ⟨q', hrv, t, htype, halike⟩
  dsimp only [Env.consults] at below
  have hother : p ∉ unaryOps → Typed Γ (.rv, k) → Typed Γ (.rv, .unary n p pre k) := by
    rintro hp ⟨q, hk⟩
    rcases hk.seen with ⟨_, u, hu, hku⟩
    rw [typeOf_unary fun h => hp (List.mem_of_mem_take (i := 3) h)] at htype
    rcases Option.some.inj (hu.symm.trans htype) with rfl
    have hint : q' = .i64 := by
      unfold Env.rvKind at hrv
      cases p <;> first | exact (Option.some.inj hrv).symm | exact absurd (by decide) hp
    rcases hku.plain_of_int (hint ▸ halike) rfl with ⟨hq, hcall⟩
    exact ⟨.i64, .tilde hp hk hq hcall⟩
  cases p with
  | amp =>
      rcases below _ (List.mem_singleton_self _) with ⟨u, hk⟩
      exact ⟨_, .addr hk (addressed_eq_none hk.seen.lv)⟩
  | star =>
      rcases below _ (List.mem_singleton_self _) with ⟨q, hk⟩
      rcases hk.seen with ⟨_, u, hu, hku⟩
      have hderef : Γ.typeOf (.unary n .star pre k) = some (pointee u) := by
        unfold Env.typeOf
        rw [hu]
        rfl
      rcases Option.some.inj (hderef.symm.trans htype) with rfl
      exact ⟨q', .load hk hrv (hku.pointee_eq ▸ halike)⟩
  | not => exact ⟨_, .not⟩
  | plus =>
      rcases below _ (List.mem_singleton_self _) with ⟨q, hk⟩
      exact ⟨q, .plus hk⟩
  | minus =>
      rcases below _ (List.mem_singleton_self _) with ⟨q, hk⟩
      refine ⟨_, .minus hk ?_⟩
      rcases hk.seen with ⟨hq, u, hu, hku⟩
      rw [typeOf_unary (by decide)] at htype
      rcases Option.some.inj (hu.symm.trans htype) with rfl
      by_cases hdbl : q.dbl = true
      · exact .inl hdbl
      · unfold Env.rvKind at hrv
        simp only [hq, Option.map_some, if_neg hdbl] at hrv
        split_ifs at hrv with hint
        · rcases Option.some.inj hrv with rfl
          exact .inr (hku.plain_of_int halike hint)
        · rcases Option.some.inj hrv with rfl
          exact .inr (hku.plain_of_int halike rfl)
  | plusPlus | minusMinus => exact hplace (below _ (List.mem_singleton_self _))
  | _ => exact hother (by decide) (below _ (List.mem_singleton_self _))

theorem typed_binary {n : Node} {op : P} {a c : Expr} (here : Γ.Seen (.rv, .binary n op a c))
    (ha : Typed Γ (.rv, a)) (hc : Typed Γ (.rv, c)) : Typed Γ (.rv, .binary n op a c) := by
  rcases here with ⟨q, hrv, t, htype, halike⟩
  rcases ha with ⟨ka, ha⟩
  rcases hc with ⟨kc, hc⟩
  rcases ha.seen with ⟨hrva, u, hu, hua⟩
  rcases hc.seen with ⟨hrvc, v, hv, hvc⟩
  rcases Option.some.inj ((typeOf_binary hu hv).symm.trans htype) with rfl
  by_cases hop : isLogical op = true
  · have hq : q = .i64 := by
      unfold Env.rvKind at hrv
      cases op <;> first | exact (Option.some.inj hrv).symm | cases hop
    rcases plain_of_binaryTy hua hvc (hq ▸ halike).dbl (hq ▸ halike).isPtr_eq with ⟨hka, hkc⟩
    exact ⟨.i64, .logical ha hc hop hka hkc⟩
  · have hop := Bool.eq_false_of_not_eq_true hop
    have hq : q = arithKind op ka kc := by
      unfold Env.rvKind at hrv
      rw [hrva, hrvc] at hrv
      cases op <;> first | exact (Option.some.inj hrv).symm | cases hop
    refine ⟨_, .arith ha hc hop (fun h => ?_) fun h hdbl => ?_⟩
    · exact arith_bits hua hvc (hq ▸ halike) h
    · exact arith_ptr hua hvc (hq ▸ halike) h hdbl

theorem typed_rv : ∀ {e : Expr}, Γ.Seen (.rv, e) →
    (∀ w ∈ Γ.consults (.rv, e), Typed Γ w) → Typed Γ (.rv, e) := by
  intro e here below
  cases e with
  | ident n s =>
      cases hvar : Γ.lookupVar s with
      | some v => exact typed_place here ⟨v.type, .var hvar⟩
      | none =>
          rcases here with ⟨q, hrv, t, htype, halike⟩
          cases hf : Γ.findFunc s with
          | none => exact ⟨_, .undefined hvar hf⟩
          | some f =>
              unfold Env.rvKind at hrv
              unfold Env.typeOf at htype
              simp only [hvar, hf] at hrv htype
              rcases Option.some.inj hrv with rfl
              rcases Option.some.inj htype with rfl
              exact ⟨_, .func hvar hf halike⟩
  | unary n p pre k => exact typed_unary here below
  | binary n op a c =>
      refine typed_binary here (below _ ?_) (below _ ?_)
      · exact List.mem_cons_self
      · exact List.mem_cons_of_mem _ (List.mem_singleton_self _)
  | index n b i => exact typed_place here (below _ (List.mem_singleton_self _))
  | member n b s isArrow => exact typed_place here (below _ (List.mem_singleton_self _))
  | assign n op a c => exact typed_place here (below _ (List.mem_singleton_self _))
  | cast n k u =>
      rcases here with ⟨q, hrv, t, htype, halike⟩
      unfold Env.typeOf at htype
      rcases Option.some.inj htype with rfl
      exact ⟨q, .cast hrv halike⟩
  | call n callee args =>
      rcases here with ⟨q, hrv, t, htype, halike⟩
      rw [typeOf_call] at htype
      dsimp only [Env.consults] at below
      cases hname : Γ.knownTy callee with
      | some u =>
          rw [hname] at htype
          rcases Option.some.inj htype with rfl
          exact ⟨q, .known hname hrv halike⟩
      | none =>
          rw [hname] at htype below
          rcases below _ (List.mem_singleton_self _) with ⟨q', hk⟩
          rcases hk.seen with ⟨_, u, hu, hku⟩
          rw [hu] at htype
          rcases Option.some.inj htype with rfl
          exact ⟨q, .call hname hk hrv (hku.called ▸ halike)⟩
  | floatLit n r => exact ⟨_, .float⟩
  | strLit n s => exact ⟨_, .str⟩
  | _ => exact ⟨_, .int rfl⟩

/-- What is consulted about the value of an lvalue. -/
theorem Place.consults_rv {e : Expr} (h : Place Γ e t) {w : Visit} (hw : w ∈ Γ.consults (.rv, e)) :
    w = (.lv, e) ∨ w ∈ Γ.consults (.lv, e) := by
  cases h with
  | var _ | cast _ => exact absurd hw List.not_mem_nil
  | deref _ _ => exact .inr hw
  | incr hp _ =>
      rcases hp with rfl | rfl
      · exact .inl (List.mem_singleton.mp hw)
      · exact .inl (List.mem_singleton.mp hw)
  | _ => exact .inl (List.mem_singleton.mp hw)

theorem Agrees.rv {e : Expr} (h : Agrees Γ (.lv, e)) (he : Place Γ e t) (here : Γ.Seen (.rv, e)) :
    Agrees Γ (.rv, e) := by
  refine .mk here fun w hw => ?_
  rcases he.consults_rv hw with rfl | hw
  · exact h
  · cases h with
    | mk _ below => exact below w hw

theorem agrees_one {v w : Visit} (here : Γ.Seen v) (hv : Γ.consults v = [w]) (hw : Agrees Γ w) :
    Agrees Γ v := by
  refine .mk here fun w' hw' => ?_
  rw [hv] at hw'
  rcases List.mem_singleton.mp hw' with rfl
  exact hw

theorem agrees_none {v : Visit} (here : Γ.Seen v) (hv : Γ.consults v = []) : Agrees Γ v := by
  refine .mk here fun w hw => ?_
  rw [hv] at hw
  cases hw

mutual

theorem Place.agrees : ∀ {e : Expr} {t : Ty}, Place Γ e t → Agrees Γ (.lv, e)
  | _, _, .var h => agrees_none ⟨_, (Place.var h).seen⟩ rfl
  | _, _, .deref hk ht => agrees_one ⟨_, (Place.deref hk ht).seen⟩ rfl hk.agrees
  | _, _, .incr hp hk => by
      refine agrees_one ⟨_, (Place.incr hp hk).seen⟩ ?_ hk.agrees
      rcases hp with rfl | rfl <;> rfl
  | _, _, .element (b := b) hb helem => by
      refine agrees_one ⟨_, (Place.element hb helem).seen⟩ (w := (.lv, b)) ?_ hb.agrees
      have hpos : Γ.basePos b = .lv := by
        refine if_pos ?_
        rw [hb.seen.typeOf]
        exact Bool.or_true _
      exact congrArg (fun pos => [(pos, b)]) hpos
  | _, _, .offset (b := b) hb hsub helem => by
      refine agrees_one ⟨_, (Place.offset hb hsub helem).seen⟩ ?_ hb.agrees
      rcases hb.seen with ⟨_, u, hu, halike⟩
      have hpos : Γ.basePos b = .rv := by
        refine if_neg ?_
        rw [hsub, hu]
        cases u with
        | array elem len => exact absurd rfl (halike.array elem len)
        | _ => exact Bool.false_ne_true
      exact congrArg (fun pos => [(pos, b)]) hpos
  | _, _, .byte (m := m) (q := q) (t := t) hq ht => by
      have hmem : Γ.memberTy (some t) "u8" = some (some .u8) := by
        cases t with
        | int _ _ | f64 => rfl
        | _ => cases ht
      have hb : Agrees Γ (.lv, .member m q "u8" false) :=
        agrees_one ⟨_, hq.seen.member hmem⟩ rfl hq.agrees
      refine agrees_one ⟨_, (Place.byte hq ht).seen⟩ ?_ hb
      have hpos : Γ.basePos (.member m q "u8" false) = .lv := by
        refine if_pos ?_
        have hsub : Γ.subInt (.member m q "u8" false) = some .u8 := by
          change subIntLV (Γ.lvKind q) "u8" = some .u8
          rw [hq.seen.lv]
          exact if_pos ht
        rw [hsub]
        rfl
      exact congrArg (fun pos => [(pos, Expr.member m q "u8" false)]) hpos
  | _, _, .member hb hs => agrees_one ⟨_, (Place.member hb hs).seen⟩ rfl hb.agrees
  | _, _, .arrow hb hq hs => agrees_one ⟨_, (Place.arrow hb hq hs).seen⟩ rfl hb.agrees
  | _, _, .cast hk => agrees_none ⟨_, (Place.cast hk).seen⟩ rfl
  | _, _, .assign ha => agrees_one ⟨_, (Place.assign ha).seen⟩ rfl ha.agrees

theorem Rvalue.agrees : ∀ {e : Expr} {q : Kind}, Rvalue Γ e q → Agrees Γ (.rv, e)
  | e, _, .int he => by
      refine agrees_none ⟨_, (Rvalue.int he).seen⟩ ?_
      cases e <;> first | rfl | cases he
  | _, _, .float => agrees_none ⟨_, Rvalue.float.seen⟩ rfl
  | _, _, .str => agrees_none ⟨_, Rvalue.str.seen⟩ rfl
  | _, _, .place he hq ht => he.agrees.rv he ⟨_, (Rvalue.place he hq ht).seen⟩
  | _, _, .cast hq ht => agrees_none ⟨_, (Rvalue.cast hq ht).seen⟩ rfl
  | _, _, .addr hk hfn => agrees_one ⟨_, (Rvalue.addr hk hfn).seen⟩ rfl hk.agrees
  | _, _, .load hk hq ht => agrees_one ⟨_, (Rvalue.load hk hq ht).seen⟩ rfl hk.agrees
  | _, _, .not => agrees_none ⟨_, Rvalue.not.seen⟩ rfl
  | _, _, .minus hk hq => agrees_one ⟨_, (Rvalue.minus hk hq).seen⟩ rfl hk.agrees
  | _, _, .plus hk => agrees_one ⟨_, (Rvalue.plus hk).seen⟩ rfl hk.agrees
  | _, _, .tilde (p := p) hp hk hq hcall => by
      refine agrees_one ⟨_, (Rvalue.tilde hp hk hq hcall).seen⟩ ?_ hk.agrees
      cases p <;> first | rfl | exact absurd (by decide) hp
  | _, _, .arith ha hc hop hbits hptr => by
      refine .mk ⟨_, (Rvalue.arith ha hc hop hbits hptr).seen⟩ fun w hw => ?_
      rcases List.mem_pair.mp hw with rfl | rfl
      · exact ha.agrees
      · exact hc.agrees
  | _, _, .logical ha hc hop hka hkc => by
      refine .mk ⟨_, (Rvalue.logical ha hc hop hka hkc).seen⟩ fun w hw => ?_
      rcases List.mem_pair.mp hw with rfl | rfl
      · exact ha.agrees
      · exact hc.agrees
  | _, _, .func hvar hf hret => agrees_none ⟨_, (Rvalue.func hvar hf hret).seen⟩ rfl
  | _, _, .undefined hvar hf => agrees_none ⟨_, (Rvalue.undefined hvar hf).seen⟩ rfl
  | _, _, .known ht hq hret => by
      refine agrees_none ⟨_, (Rvalue.known ht hq hret).seen⟩ ?_
      exact if_pos (by rw [ht]; rfl)
  | _, _, .call hname hk hq hret => by
      refine agrees_one ⟨_, (Rvalue.call hname hk hq hret).seen⟩ ?_ hk.agrees
      exact if_neg (by rw [hname]; exact Bool.false_ne_true)

end

/-- The rules type what `typeOf` types right, operands included, and nothing else. -/
theorem agrees_iff {v : Visit} : Agrees Γ v ↔ Typed Γ v := by
  constructor
  · intro h
    induction h with
    | @mk v here _ ih =>
        rcases v with ⟨pos, e⟩
        cases pos with
        | lv => exact typed_lv here ih
        | rv => exact typed_rv here ih
  · intro h
    rcases v with ⟨pos, e⟩
    cases pos with
    | lv =>
        rcases h with ⟨t, h⟩
        exact h.agrees
    | rv =>
        rcases h with ⟨q, h⟩
        exact h.agrees

end Complete

section Lvalue

variable {Γ : Env} {d : Nat} {l : List Nat} {e : Expr} {lv : LV} {B B' : Builder}

/-- The type of a generated lvalue can be read off the tree. -/
theorem lvKind_genLValue (hx : (gen Γ d).genLValue l e B = .ok (lv, B'))
    (haddr : lv.addr.isSome = true) : Γ.lvKind e = some (some lv.t) := by
  have hB := (gen_visited Γ d).lv l e B
  rw [hx] at hB
  rcases hB.2.2.1 with ⟨o, ho, hlv⟩
  rcases is_cases hlv with ⟨hnone, _⟩ | ⟨a, _, rfl⟩
  · rw [hnone] at haddr
    cases haddr
  · exact ho

/-- `typeOf` gives the type of the lvalue that is generated, and is right about the operands it
goes by, exactly if the rules type the expression. -/
theorem typeOf_genLValue_iff (hx : (gen Γ d).genLValue l e B = .ok (lv, B'))
    (haddr : lv.addr.isSome = true) :
    (Γ.typeOf e = some lv.t ∧ ∀ w ∈ Γ.consults (.lv, e), Agrees Γ w) ↔ ∃ t, Place Γ e t := by
  have hlv := lvKind_genLValue hx haddr
  constructor
  · intro ⟨htype, hbelow⟩
    exact agrees_iff.mp (.mk (v := (.lv, e)) ⟨lv.t, hlv, htype⟩ hbelow)
  · intro ⟨t, he⟩
    rcases he.seen with ⟨hlv', htype⟩
    rcases Option.some.inj (Option.some.inj (hlv'.symm.trans hlv)) with rfl
    refine ⟨htype, fun w hw => ?_⟩
    cases he.agrees with
    | mk _ below => exact below w hw

end Lvalue

/-- `I64 arr[3]; I64 *p;` -/
def arrayEnv : Env where
  globals := [("arr", ⟨.glob "arr", .array .i64 3⟩), ("p", ⟨.glob "p", .ptr .i64⟩)]
  classFuel := 1

/-- `*p` -/
theorem typeOf_deref_ptr :
    arrayEnv.typeOf (.unary {} .star true (.ident {} "p")) = some .i64 ∧
      ∀ w ∈ arrayEnv.consults (.lv, .unary {} .star true (.ident {} "p")), Agrees arrayEnv w := by
  have hp : Place arrayEnv (.ident {} "p") (.ptr .i64) :=
    .var (v := ⟨.glob "p", .ptr .i64⟩) rfl
  exact (typeOf_genLValue_iff (d := 2) (l := []) (B := {}) rfl rfl).mpr
    ⟨.i64, .deref (.place hp rfl (alike_ptr _)) rfl⟩

/-- `*arr` is an `I64`, and `sizeof(*arr)` is 1. -/
theorem typeOf_deref_array : ∃ lv B',
    (gen arrayEnv 2).genLValue [] (.unary {} .star true (.ident {} "arr")) {} = .ok (lv, B') ∧
      lv.addr.isSome = true ∧ B'.errors = [] ∧ lv.t = .i64 ∧
      arrayEnv.typeOf (.unary {} .star true (.ident {} "arr")) = some .u8 := by
  refine ⟨_, _, rfl, rfl, rfl, rfl, ?_⟩
  unfold Env.typeOf
  rfl

end Hlang.Codegen
