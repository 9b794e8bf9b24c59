import Hlang.Access
import Hlang.Codegen.Operators

/-!
# Hlang.Codegen.Path — the addresses that the code of a path computes

`genLValue` of an access path emits code that computes the address of the
variable plus the offset the path leads to. The code of an index may write to
memory, as long as it keeps what the indices depend on.
-/

namespace Hlang.Codegen

open Ir

/-! ## Code that may write to memory -/

section

variable {α β γ : Type} {W : World} {I : Mem → Prop}

/-- From every state `x` yields `r val`, where the code it appends keeps the
condition `I` on the memory and leaves a value of type `ty` with property `Q`. -/
def Produces (W : World) (I : Mem → Prop) (x : Gen α) (r : Value → α) (ty : LTy)
    (Q : Val → Prop) : Prop :=
  ∀ B : Builder, B.Wf → ∃ val B', x B = .ok (r val, B') ∧ Leaves B B' val ty ∧
    ∀ ρ m, I m → ∃ ρ' m', Emits W B B' ρ m ρ' m' ∧ I m' ∧ Q (val.eval W ρ')

theorem Produces.pure {val : Value} (hbelow : ∀ n, val.Below n) {Q : Val → Prop}
    (hq : ∀ ρ, Q (val.eval W ρ)) (r : Value → α) : Produces W I (pure (r val)) r val.type Q := by
  intro B hB
  refine ⟨val, B, rfl, ⟨.refl B, hB, hbelow _, rfl, rfl⟩, ?_⟩
  intro ρ m hm
  exact ⟨ρ, m, .refl W B ρ m, hm, hq ρ⟩

/-- A helper on the value produced. -/
theorem Produces.step {x : Gen α} {r : Value → α} {ty ty' : LTy} {Q Q' : Val → Prop}
    (hx : Produces W I x r ty Q) {f : Value → Gen β} {r' : Value → β} {F : Val → Option Val}
    (hf : Maps f r' ty ty' F) (hQ : ∀ v, Q v → v.Fits ty ∧ ∃ w, F v = some w ∧ Q' w) {y : Gen β}
    (hy : ∀ B val B₁, x B = .ok (r val, B₁) → val.type = ty → y B = f val B₁) :
    Produces W I y r' ty' Q' := by
  intro B hB
  rcases hx B hB with ⟨val, B₁, heq, hleaves, hrun⟩
  rcases hf.runs B₁ val hleaves.wf hleaves.below hleaves.type with
    ⟨val', B₂, heq', hleaves', hrun'⟩
  refine ⟨val', B₂, (hy B val B₁ heq hleaves.type).trans heq', hleaves.trans hleaves', ?_⟩
  intro ρ m hm
  rcases hrun ρ m hm with ⟨ρ₁, m₁, hemits, hm₁, hq⟩
  rcases hQ _ hq with ⟨hfits, w, hw, hq'⟩
  rcases hrun' W ρ₁ m₁ w hfits hw with ⟨ρ₂, hemits', heval⟩
  refine ⟨ρ₂, m₁, hemits.trans hemits', hm₁, ?_⟩
  rwa [heval]

/-- A helper on two values, one produced after the other. -/
theorem Produces.step₂ {x : Gen α} {r : Value → α} {tx ty ty' : LTy} {Q₁ Q₂ Q' : Val → Prop}
    (hx : Produces W I x r tx Q₁) {y : Gen β} {r₂ : Value → β} (hy : Produces W I y r₂ ty Q₂)
    {f : Value → Value → Gen γ} {r' : Value → γ} {F : Val → Val → Option Val}
    (hf : Maps₂ f r' tx ty ty' F)
    (hQ : ∀ v w, Q₁ v → Q₂ w → v.Fits tx ∧ w.Fits ty ∧ ∃ u, F v w = some u ∧ Q' u) {z : Gen γ}
    (hz : ∀ B a B₁ c B₂, x B = .ok (r a, B₁) → y B₁ = .ok (r₂ c, B₂) → z B = f a c B₂) :
    Produces W I z r' ty' Q' := by
  intro B hB
  rcases hx B hB with ⟨a, B₁, heq, hleaves, hrun⟩
  rcases hy B₁ hleaves.wf with ⟨c, B₂, heq', hleaves', hrun'⟩
  have hbelow := hleaves.below.mono hleaves'.le.reg
  rcases hf.runs B₂ a c hleaves'.wf hbelow hleaves.type hleaves'.below hleaves'.type with
    ⟨val, B₃, heq'', hleaves'', hrun''⟩
  refine ⟨val, B₃, (hz B a B₁ c B₂ heq heq').trans heq'',
    (hleaves.trans hleaves').trans hleaves'', ?_⟩
  intro ρ m hm
  rcases hrun ρ m hm with ⟨ρ₁, m₁, hemits, hm₁, hq₁⟩
  rcases hrun' ρ₁ m₁ hm₁ with ⟨ρ₂, m₂, hemits', hm₂, hq₂⟩
  -- the first value is still there after the second was produced
  rw [← hemits'.eval hleaves.below] at hq₁
  rcases hQ _ _ hq₁ hq₂ with ⟨hfa, hfc, u, hu, hq'⟩
  rcases hrun'' W ρ₂ m₂ u hfa hfc hu with ⟨ρ₃, hemits'', heval⟩
  refine ⟨ρ₃, m₂, (hemits.trans hemits').trans hemits'', hm₂, ?_⟩
  rwa [heval]

/-- A generator that first appends code whose value it does not use. -/
theorem Produces.after {x : Gen α} {r : Value → α} {ty ty' : LTy} {Q Q' : Val → Prop}
    (hx : Produces W I x r ty Q) {y : Gen β} {r' : Value → β} (hy : Produces W I y r' ty' Q')
    {z : Gen β} (hz : ∀ B val B₁, x B = .ok (r val, B₁) → z B = y B₁) :
    Produces W I z r' ty' Q' := by
  intro B hB
  rcases hx B hB with ⟨val, B₁, heq, hleaves, hrun⟩
  rcases hy B₁ hleaves.wf with ⟨val', B₂, heq', hleaves', hrun'⟩
  refine ⟨val', B₂, (hz B val B₁ heq).trans heq', hleaves.trans hleaves', ?_⟩
  intro ρ m hm
  rcases hrun ρ m hm with ⟨ρ₁, m₁, hemits, hm₁, _⟩
  rcases hrun' ρ₁ m₁ hm₁ with ⟨ρ₂, m₂, hemits', hm₂, hq⟩
  exact ⟨ρ₂, m₂, hemits.trans hemits', hm₂, hq⟩

end

/-! ## The instructions of an address -/

theorem int_fits_ptr (i : I64) : (Val.int i).Fits .ptr := fun h => by cases h

theorem int_fits (bits : Nat) (i : I64) : (Val.int i).Fits (.int bits) := fun h => by cases h

theorem fits_ptr_cases {v : Val} (h : v.Fits .ptr) : ∃ i, v = .int i := by
  cases v with
  | int i => exact ⟨i, rfl⟩
  | fp q => cases h

theorem maps_ptrtoint : Maps (fun x => Gen.create (.ptrtoint x)) id .ptr (.int 64) some := by
  refine Maps.create ?_ (fun _ _ => rfl) ?_
  · intro v w hv hw
    rcases fits_ptr_cases hv with ⟨i, rfl⟩
    rcases Option.some.inj hw with rfl
    exact fun h => by cases h
  · intro W ρ m x _ hx
    rcases fits_ptr_cases hx with ⟨i, hi⟩
    rw [hi]
    simp [Op.eval, evalInt_of_eval hi]

theorem maps_inttoptr : Maps (fun x => Gen.create (.inttoptr x)) id (.int 64) .ptr fun v =>
    v.int?.bind fun i => some (.int i) := by
  refine maps_int ?_ (fun _ _ => rfl) ?_
  · intro i w hw
    rcases Option.some.inj hw with rfl
    exact fun h => by cases h
  · intro W ρ m x i _ hi
    simp [Op.eval, hi]

theorem maps_gep : Maps₂ (fun x y => Gen.create (.gep x y)) id .ptr (.int 64) .ptr fun v w =>
    v.int?.bind fun i => w.int?.bind fun j => some (.int (i + j)) := by
  refine Maps₂.create ?_ (fun _ _ _ _ => rfl) ?_
  · intro v w u hv hw hu
    rcases fits_ptr_cases hv with ⟨i, rfl⟩
    rcases fits_int_cases hw with ⟨j, rfl⟩
    rcases Option.some.inj hu with rfl
    exact fun h => by cases h
  · intro W ρ m x y hx hy
    rcases fits_ptr_cases hx with ⟨i, hi⟩
    rcases fits_int_cases hy with ⟨j, hj⟩
    rw [hi, hj]
    simp [Op.eval, evalInt_of_eval hi, evalInt_of_eval hj, Val.int?]

/-- The address of a member. -/
theorem maps_gepConst (off : I64) : Maps (fun x => Gen.create (.gep x (cI64 off))) id .ptr .ptr
    fun v => v.int?.bind fun i => some (.int (i + off)) := by
  refine Maps.create ?_ (fun _ _ => rfl) ?_
  · intro v w hv hw
    rcases fits_ptr_cases hv with ⟨i, rfl⟩
    rcases Option.some.inj hw with rfl
    exact fun h => by cases h
  · intro W ρ m x _ hx
    rcases fits_ptr_cases hx with ⟨i, hi⟩
    rw [hi]
    simp [Op.eval, evalInt_of_eval hi, Val.int?, cI64]

/-- An index scaled by the size of an element. -/
theorem maps_scale (t : Ty) (sz : I64) :
    Maps (fun x => convert ⟨some x, t⟩ .i64 >>= fun iv => Gen.create (.bin .mul iv (cI64 sz))) id
      (valTy t) (.int 64) fun v => (asInt v).bind fun i => some (.int (i * sz)) := by
  have hmul : Maps (fun x => Gen.create (.bin .mul x (cI64 sz))) id (.int 64) (.int 64) fun v =>
      v.int?.bind fun i => some (.int (i * sz)) := by
    refine maps_int_int (fun _ hx => hx) ?_
    intro W ρ m x i _ hi
    simp [Op.eval, hi, cI64, BinOp.eval]
  refine ((convert_int t 8 false).bind hmul).congr (fun _ _ => rfl) ?_
  intro v _
  cases asInt v <;> rfl

theorem maps_asPtr : Maps (fun x => asPtr (some x)) id (.int 64) .ptr fun v =>
    v.int?.bind fun i => some (.int i) := by
  refine maps_inttoptr.congr ?_ fun _ _ => rfl
  intro x hx
  change (if x.type = .ptr then pure x else Gen.create (.inttoptr x)) = _
  rw [hx, if_neg (by decide)]

/-! ## Paths as expressions -/

/-- The variable is stored at the address `a`. -/
structure VarSym.At (W : World) (v : VarSym) (a : I64) : Prop where
  ptr : v.addr.type = .ptr
  below : ∀ n, v.addr.Below n
  eval : ∀ ρ, v.addr.eval W ρ = .int a

/-- The code of `genExpr` for `e`, run where `I` holds, computes the index `k` and
keeps `I`. -/
def Env.Index (Γ : Env) (W : World) (I : Mem → Prop) (e : Expr) (k : ℕ) : Prop :=
  ∃ t d, ∀ d', d ≤ d' → ∀ cs, Produces W I ((gen Γ d').genExpr cs e) (fun z => ⟨some z, t⟩)
    (valTy t) fun v => v.Fits (valTy t) ∧ asInt v = some (BitVec.ofNat 64 k)

/-- The code of `genLValue` for `e` computes the address `a`, as one of type `t`. -/
def Env.Address (Γ : Env) (W : World) (I : Mem → Prop) (e : Expr) (t : Ty) (a : I64) : Prop :=
  ∃ d, ∀ d', d ≤ d' → ∀ cs, Produces W I ((gen Γ d').genLValue cs e) (fun z => ⟨some z, t⟩)
    .ptr fun v => v = .int a

/-- The expression `e` is the access path `p` from the variable `x`. -/
inductive PathExpr (Γ : Env) (W : World) (I : Mem → Prop) (x : String) :
    Expr → List Step → Prop where
  | var (n : Node) : PathExpr Γ W I x (.ident n x) []
  | member (n : Node) {e : Expr} {p : List Step} (s : String) (h : PathExpr Γ W I x e p) :
      PathExpr Γ W I x (.member n e s false) (p ++ [.member s])
  | index (n : Node) {e i : Expr} {p : List Step} {k : ℕ} (h : PathExpr Γ W I x e p)
      (hi : Γ.Index W I i k) : PathExpr Γ W I x (.index n e i) (p ++ [.index k])
  /-- `.u8` alone -/
  | subInt (n : Node) {e : Expr} {p : List Step} (s : String) (h : PathExpr Γ W I x e p) :
      PathExpr Γ W I x (.member n e s false) (p ++ [.subInt s 0])
  /-- `.u8[i]` -/
  | subIntIndex (n n' : Node) {e i : Expr} {p : List Step} {k : ℕ} (s : String)
      (h : PathExpr Γ W I x e p) (hi : Γ.Index W I i k) :
      PathExpr Γ W I x (.index n (.member n' e s false) i) (p ++ [.subInt s k])

section

variable {Γ : Env} {R : Rec} {cs : List Nat} {n : Node} {e i : Expr} {s : String}
  {B B₁ : Builder} {a : Value}

theorem genMemberLV_cls {c : ClassId} {m : ClassMember}
    (h : R.genLValue cs e B = .ok (⟨some a, .cls c⟩, B₁)) (hm : Γ.findMember c s = some (some m)) :
    genMemberLV Γ R cs n e s false B =
      (Gen.create (.gep a (cI64 m.offset)) >>= fun z => pure (⟨some z, m.type⟩ : LV)) B₁ := by
  unfold genMemberLV
  simp only [Bool.false_eq_true, if_false]
  rw [Gen.bind_ok h]
  simp only [pure_bind, hm, Gen.ofOption]

theorem genMemberLV_subInt {t sub : Ty} (h : R.genLValue cs e B = .ok (⟨some a, t⟩, B₁))
    (ht : t.isInt || t.isF64) (hs : subIntType s = some sub) :
    genMemberLV Γ R cs n e s false B = .ok (⟨some a, sub⟩, B₁) := by
  unfold genMemberLV
  simp only [Bool.false_eq_true, if_false]
  rw [Gen.bind_ok h]
  cases t with
  | int k u => simp only [pure_bind, hs, Gen.pure_apply]
  | f64 => simp only [pure_bind, hs, Gen.pure_apply]
  | _ => cases ht

/-- `q.u8[i]` on a number. -/
theorem genIndexLV_subInt {n : Node} {t sub ti : Ty} {B₂ : Builder} {c : Value}
    (h : R.genLValue cs e B = .ok (⟨some a, t⟩, B₁)) (ht : t.isInt || t.isF64)
    (hs : subIntType s = some sub) (hi : R.genExpr cs i B₁ = .ok (⟨some c, ti⟩, B₂)) :
    genIndexLV Γ R cs (.member n e s false) i B =
      ((convert ⟨some c, ti⟩ .i64 >>= fun iv => Gen.create (.bin .mul iv (cI64 (Γ.size sub)))) >>=
        fun off => Gen.create (.gep a off) >>= fun z => pure (⟨some z, sub⟩ : LV)) B₂ := by
  unfold genIndexLV genSubIntLV
  simp only [hs, bind_assoc]
  rw [Gen.bind_ok h]
  simp only [ht, if_true, bind_assoc, pure_bind]
  rw [Gen.bind_ok hi]

/-- What the sub-int part of `genIndexLV` does before an array is indexed: nothing,
or the code of the lvalue of a class. -/
theorem genSubIntLV_other (hsub : ∀ n q s, e = .member n q s false → subIntType s = none) :
    genSubIntLV Γ R cs e i = pure none := by
  unfold genSubIntLV
  split
  · next n q s => rw [hsub n q s rfl]
  · rfl

theorem genSubIntLV_cls {n : Node} {t sub : Ty} (hs : subIntType s = some sub)
    (h : R.genLValue cs e B = .ok (⟨some a, t⟩, B₁)) (ht : (t.isInt || t.isF64) = false) :
    genSubIntLV Γ R cs (.member n e s false) i B = .ok (none, B₁) := by
  unfold genSubIntLV
  simp only [hs]
  rw [Gen.bind_ok h]
  simp only [ht, Bool.false_eq_true, if_false, Gen.pure_apply]

/-- The element of an array. -/
theorem genElementLV_array {elem ti : Ty} {len : I64} {t : Ty} {b : Value} {B₂ B₃ : Builder}
    {c : Value} (ht : Γ.typeOf e = some (.array elem len)) (h : R.genLValue cs e B = .ok (⟨some a, t⟩, B₁))
    (hb : Gen.create (.ptrtoint a) B₁ = .ok (b, B₂)) (hbt : b.type = .int 64)
    (hi : R.genExpr cs i B₂ = .ok (⟨some c, ti⟩, B₃)) :
    genElementLV Γ R cs e i B =
      ((convert ⟨some c, ti⟩ .i64 >>= fun iv =>
        Gen.create (.bin .mul iv (cI64 (Γ.elementSize (elementTy elem))))) >>=
        fun off => Gen.create (.bin .add b off) >>= fun addr => asPtr (some addr) >>= fun z =>
          pure (⟨some z, elementTy elem⟩ : LV)) B₃ := by
  unfold genElementLV
  simp only [ht, Gen.ofOption, pure_bind, bind_assoc]
  rw [Gen.bind_ok h]
  simp only
  rw [Gen.bind_ok hb]
  rw [Gen.bind_ok hi]
  simp only [ptrToI64_eq hbt, pure_bind]

end

/-! ## The address of a path -/

/-- What the code of a path does: its lvalue is at the address `a`, its static type is
the one of the lvalue unless it is a part of a number, and where the path ends in
a name the lvalue before that name has code as well. -/
structure Env.PathCode (Γ : Env) (W : World) (I : Mem → Prop) (e : Expr) (t : Ty) (a : I64) :
    Prop where
  address : Γ.Address W I e t a
  typeOf : Γ.typeOf e = some t ∨ t.isInt = true
  whole : ∀ n q s, e = .member n q s false → ∃ t' a', Γ.Address W I q t' a' ∧
    ((t'.isInt || t'.isF64) = true → t.isInt = true)

section

variable {Γ : Env} {W : World} {I : Mem → Prop} {e i : Expr} {t : Ty} {a : I64}

/-- One level of `genLValue` over addresses that are known below. -/
theorem Env.Address.step {e' : Expr} {t' : Ty} {a' : I64} (h : Γ.Address W I e t a)
    (hstep : ∀ d cs, Produces W I ((gen Γ d).genLValue cs e) (fun z => ⟨some z, t⟩) .ptr
        (fun v => v = .int a) →
      Produces W I ((gen Γ (d + 1)).genLValue cs e') (fun z => ⟨some z, t'⟩) .ptr
        fun v => v = .int a') : Γ.Address W I e' t' a' := by
  rcases h with ⟨d, hd⟩
  refine ⟨d + 1, ?_⟩
  intro d' hd' cs
  rcases Nat.exists_eq_add_one.mpr (Nat.lt_of_lt_of_le (Nat.succ_pos d) hd') with ⟨k, rfl⟩
  exact hstep k cs (hd k (Nat.le_of_succ_le_succ hd') cs)

theorem address_var {x : String} {v : VarSym} (n : Node) (hx : Γ.lookupVar x = some v)
    (hat : v.At W a) : Γ.Address W I (.ident n x) v.type a := by
  refine ⟨1, ?_⟩
  intro d hd cs
  rcases Nat.exists_eq_add_one.mpr hd with ⟨k, rfl⟩
  have hgen : (gen Γ (k + 1)).genLValue cs (.ident n x) = pure ⟨some v.addr, v.type⟩ := by
    change genLValueStep Γ (gen Γ k) cs (.ident n x) = _
    simp only [genLValueStep, hx]
  rw [hgen, ← hat.ptr]
  exact .pure hat.below hat.eval fun z => (⟨some z, v.type⟩ : LV)

/-- An index that is a literal. -/
theorem index_intLit (n : Node) (k : ℕ) : Γ.Index W I (.intLit n (BitVec.ofNat 64 k)) k := by
  refine ⟨.i64, 1, ?_⟩
  intro d hd cs
  rcases Nat.exists_eq_add_one.mpr hd with ⟨d, rfl⟩
  refine .pure ?_ ?_ fun z => (⟨some z, .i64⟩ : RV)
  · intro n
    exact trivial
  · intro ρ
    exact ⟨int_fits 64 _, rfl⟩

theorem address_member {n : Node} {s : String} {c : ClassId} {m : ClassMember}
    (h : Γ.Address W I e (.cls c) a) (hm : Γ.findMember c s = some (some m)) :
    Γ.Address W I (.member n e s false) m.type (a + m.offset) := by
  refine h.step ?_
  intro d cs hd
  refine hd.step ((maps_gepConst m.offset).wrap fun z => (⟨some z, m.type⟩ : LV)) ?_ ?_
  · rintro v rfl
    exact ⟨int_fits_ptr _, _, rfl, rfl⟩
  · intro B val B₁ heq _
    exact genMemberLV_cls heq hm

theorem address_subInt {n : Node} {s : String} {sub : Ty} (h : Γ.Address W I e t a)
    (ht : t.isInt || t.isF64) (hs : subIntType s = some sub) :
    Γ.Address W I (.member n e s false) sub a := by
  refine h.step ?_
  intro d cs hd
  refine hd.step (Maps.pure.wrap fun z => (⟨some z, sub⟩ : LV)) ?_ ?_
  · rintro v rfl
    exact ⟨int_fits_ptr _, _, rfl, rfl⟩
  · intro B val B₁ heq _
    exact genMemberLV_subInt heq ht hs

theorem address_subIntIndex (n n' : Node) {s : String} {sub : Ty} {k : ℕ}
    (h : Γ.Address W I e t a) (ht : t.isInt || t.isF64) (hs : subIntType s = some sub)
    (hi : Γ.Index W I i k) : Γ.Address W I (.index n (.member n' e s false) i) sub
      (a + BitVec.ofNat 64 k * Γ.size sub) := by
  rcases h with ⟨d₁, h₁⟩
  rcases hi with ⟨ti, d₂, h₂⟩
  refine ⟨max d₁ d₂ + 1, ?_⟩
  intro d' hd' cs
  rcases Nat.exists_eq_add_one.mpr (Nat.lt_of_lt_of_le (Nat.succ_pos _) hd') with ⟨d, rfl⟩
  have hle := Nat.le_of_succ_le_succ hd'
  have hf := (Maps.pure.bind₂ (maps_scale ti (Γ.size sub)) maps_gep).wrap fun z =>
    (⟨some z, sub⟩ : LV)
  refine (h₁ d ((Nat.le_max_left _ _).trans hle) cs).step₂
    (h₂ d ((Nat.le_max_right _ _).trans hle) cs) hf ?_ ?_
  · rintro v w rfl ⟨hw, hk⟩
    refine ⟨int_fits_ptr _, hw, ?_⟩
    simp only [Option.bind_some, hk, Val.int?]
    exact ⟨_, rfl, rfl⟩
  · intro B z B₁ c B₂ heq heq'
    change genIndexLV Γ (gen Γ d) cs (.member n' e s false) i B = _
    rw [genIndexLV_subInt heq ht hs heq']
    simp only [pure_bind, bind_assoc]

/-- The address of an lvalue as an integer. -/
def baseAddr (lv : LV) : Gen Value :=
  match lv.addr with
  | some x => Gen.create (.ptrtoint x)
  | none => Gen.stop .nullValue

/-- The element, once the sub-int part of `genIndexLV` has appended what it appends. -/
theorem produces_element {d : Nat} {cs : List Nat} {elem ti : Ty} {len : I64} {k : ℕ}
    (ht : Γ.typeOf e = some (.array elem len))
    (h : Produces W I ((gen Γ d).genLValue cs e) (fun z => ⟨some z, t⟩) .ptr fun v => v = .int a)
    (hi : Produces W I ((gen Γ d).genExpr cs i) (fun z => ⟨some z, ti⟩) (valTy ti) fun v =>
      v.Fits (valTy ti) ∧ asInt v = some (BitVec.ofNat 64 k)) :
    Produces W I (genElementLV Γ (gen Γ d) cs e i) (fun z => ⟨some z, elementTy elem⟩) .ptr
      fun v => v = .int (a + BitVec.ofNat 64 k * Γ.elementSize (elementTy elem)) := by
  have hbase : Produces W I ((gen Γ d).genLValue cs e >>= baseAddr) id (.int 64)
      fun v => v = .int a := by
    refine h.step maps_ptrtoint ?_ ?_
    · rintro v rfl
      exact ⟨int_fits_ptr _, _, rfl, rfl⟩
    · intro B val B₁ heq _
      rw [Gen.bind_ok heq]
      rfl
  have hf := (Maps.pure.bind₂ (maps_scale ti (Γ.elementSize (elementTy elem)))
    ((maps_bin 64 .add).andThen maps_asPtr)).wrap fun z => (⟨some z, elementTy elem⟩ : LV)
  refine hbase.step₂ hi hf ?_ ?_
  · rintro v w rfl ⟨hw, hk⟩
    refine ⟨int_fits 64 _, hw, ?_⟩
    simp only [Option.bind_some, hk, Val.int?, BinOp.eval, Option.map_some]
    exact ⟨_, rfl, rfl⟩
  · intro B b B₁ c B₂ heq heq'
    rcases Gen.bind_eq_ok.mp heq with ⟨lv, B₀, hlv, hb⟩
    rcases lv with ⟨addr, t'⟩
    cases addr with
    | none => cases hb
    | some x =>
        have hbt : (id b : Value).type = .int 64 := by
          cases hb
          rfl
        rw [genElementLV_array ht hlv hb hbt heq']
        simp only [pure_bind, bind_assoc, id]

theorem address_index {n : Node} {elem : Ty} {len : I64} {k : ℕ}
    (h : Γ.PathCode W I e (.array elem len) a) (hi : Γ.Index W I i k) :
    Γ.Address W I (.index n e i) (elementTy elem)
      (a + BitVec.ofNat 64 k * Γ.elementSize (elementTy elem)) := by
  have ht : Γ.typeOf e = some (.array elem len) := by
    rcases h.typeOf with ht | hint
    · exact ht
    · cases hint
  rcases h.address with ⟨d₁, h₁⟩
  rcases hi with ⟨ti, d₂, h₂⟩
  have helement : ∀ d, max d₁ d₂ ≤ d → ∀ cs, Produces W I (genElementLV Γ (gen Γ d) cs e i)
      (fun z => ⟨some z, elementTy elem⟩) .ptr
      fun v => v = .int (a + BitVec.ofNat 64 k * Γ.elementSize (elementTy elem)) := by
    intro d hle cs
    exact produces_element ht (h₁ d ((Nat.le_max_left _ _).trans hle) cs)
      (h₂ d ((Nat.le_max_right _ _).trans hle) cs)
  by_cases hsub : ∃ n q s, e = .member n q s false ∧ (subIntType s).isSome
  · -- the lvalue before the name is generated first, and its type is not a number
    rcases hsub with ⟨n', q, s, rfl, hs⟩
    rcases Option.isSome_iff_exists.mp hs with ⟨sub, hs⟩
    rcases h.whole n' q s rfl with ⟨t', a', ⟨d₃, h₃⟩, hwhole⟩
    have hnum : (t'.isInt || t'.isF64) = false := by
      cases hc : t'.isInt || t'.isF64 with
      | true => cases hwhole hc
      | false => rfl
    refine ⟨max (max d₁ d₂) d₃ + 1, ?_⟩
    intro d' hd' cs
    rcases Nat.exists_eq_add_one.mpr (Nat.lt_of_lt_of_le (Nat.succ_pos _) hd') with ⟨d, rfl⟩
    have hle := Nat.le_of_succ_le_succ hd'
    refine (h₃ d ((Nat.le_max_right _ _).trans hle) cs).after
      (helement d ((Nat.le_max_left _ _).trans hle) cs) ?_
    intro B val B₁ heq
    exact Gen.bind_ok (genSubIntLV_cls hs heq hnum)
  · refine ⟨max d₁ d₂ + 1, ?_⟩
    intro d' hd' cs
    rcases Nat.exists_eq_add_one.mpr (Nat.lt_of_lt_of_le (Nat.succ_pos _) hd') with ⟨d, rfl⟩
    have hother : genSubIntLV Γ (gen Γ d) cs e i = pure none := by
      refine genSubIntLV_other ?_
      intro n q s he
      by_contra hs
      exact hsub ⟨n, q, s, he, Option.isSome_iff_ne_none.mpr hs⟩
    change Produces W I (genIndexLV Γ (gen Γ d) cs e i) _ _ _
    unfold genIndexLV
    rw [hother, pure_bind]
    exact helement d (Nat.le_of_succ_le_succ hd') cs

theorem size_eq_ofNat {H : Heap} {t : Ty} (h : t.extent H < 2 ^ 63) :
    t.size H = BitVec.ofNat 64 (t.extent H) := by
  apply BitVec.eq_of_toNat_eq
  rw [Ty.toNat_size h, BitVec.toNat_ofNat, Nat.mod_eq_of_lt (by omega)]

theorem subIntType_extent {H : Heap} {s : String} {sub : Ty} (h : subIntType s = some sub) :
    sub.extent H < 2 ^ 63 := by
  have hint : ∀ n u, n < 2 ^ 63 → (Ty.int n u).extent H < 2 ^ 63 := by
    intro n u hn
    change (BitVec.ofNat 64 n).toNat < _
    rw [BitVec.toNat_ofNat]
    omega
  unfold subIntType at h
  split at h <;> cases h <;> exact hint _ _ (by decide)

/-- Step by step along a path. -/
theorem PathExpr.code {D : ClassId → Bool → Prop} {x : String} {v : VarSym} {a₀ : I64}
    (hG : ClassGraph Γ.heap D) (hx : Γ.lookupVar x = some v) (hat : v.At W a₀)
    (ht : v.type.Complete Γ.heap) (hfit : v.type.extent Γ.heap < 2 ^ 63) {p : List Step}
    (h : PathExpr Γ W I x e p) {r : ℕ × Ty}
    (hr : follow Γ.heap Γ.classFuel v.type p = some r) :
    Γ.PathCode W I e r.2 (a₀ + BitVec.ofNat 64 r.1) := by
  have hadd : ∀ o o' : ℕ, a₀ + BitVec.ofNat 64 (o + o') =
      a₀ + BitVec.ofNat 64 o + BitVec.ofNat 64 o' := by
    intro o o'
    rw [BitVec.ofNat_add, BitVec.add_assoc]
  induction h generalizing r with
  | var n =>
      rcases Option.some.inj hr with rfl
      have haddr := address_var (I := I) n hx hat
      refine ⟨?_, .inl ?_, fun _ _ _ h => by cases h⟩
      · change Γ.Address W I _ v.type (a₀ + 0#64)
        rwa [BitVec.add_zero]
      · simp only [Env.typeOf, hx]
  | member n s h ih =>
      rcases follow_snoc hr with ⟨r₁, r₂, h₁, h₂, rfl⟩
      have hcode := ih h₁
      cases hr₁ : r₁.2 with
      | cls c =>
          rw [hr₁] at h₂ hcode
          rcases Option.map_eq_some_iff.mp h₂ with ⟨m, hm, rfl⟩
          have hfind : Γ.findMember c s = some (some m) := Option.join_eq_some_iff.mp hm
          refine ⟨?_, .inl ?_, ?_⟩
          · have haddr := address_member (n := n) hcode.address hfind
            rwa [hadd, BitVec.ofNat_toNat, BitVec.setWidth_eq]
          · rcases hcode.typeOf with htype | hint
            · simp only [Env.typeOf, htype, Option.bind_eq_bind, Option.bind_some, Env.memberType,
                hfind, Option.map_some, Option.getD_some]
            · cases hint
          · intro n' q s' he
            cases he
            exact ⟨_, _, hcode.address, fun h => by cases h⟩
      | _ => rw [hr₁] at h₂; cases h₂
  | @index n e i p k h hi ih =>
      rcases follow_snoc hr with ⟨r₁, r₂, h₁, h₂, rfl⟩
      have hcode := ih h₁
      have hinside := (follow_inside hG ht h₁).1.2
      cases hr₁ : r₁.2 with
      | array elem len =>
          rw [hr₁] at h₂ hcode
          rw [Step.from_index] at h₂
          split_ifs at h₂ with hk
          rcases Option.some.inj h₂ with rfl
          have hextent : elem.extent Γ.heap < 2 ^ 63 := by
            have harray : (Ty.array elem len).extent Γ.heap = elem.extent Γ.heap * len.toNat := rfl
            have hle := Nat.le_mul_of_pos_right (elem.extent Γ.heap)
              (Nat.lt_of_le_of_lt (Nat.zero_le k) hk.2)
            change r₁.1 + r₁.2.extent Γ.heap ≤ 0 + v.type.extent Γ.heap at hinside
            rw [hr₁, harray] at hinside
            omega
          have hne : elem ≠ .void := by
            rintro rfl
            exact Nat.lt_irrefl 0 hk.1
          have hslt : (Γ.size elem).slt 1 = false := by
            have hsz : (Γ.size elem).toNat = elem.extent Γ.heap := Ty.toNat_size hextent
            have hiff := slt_iff_of_small (a := Γ.size elem) (b := 1) (by omega) (by decide)
            rw [Bool.eq_false_iff]
            intro hlt
            have := hiff.mp hlt
            change (Γ.size elem).toNat < 1 at this
            omega
          have haddr := address_index (n := n) hcode hi
          have hel : elementTy elem = elem := by
            cases elem <;> first | rfl | exact absurd rfl hne
          have hes : Γ.elementSize elem = Γ.size elem := if_neg (Bool.eq_false_iff.mp hslt)
          rw [hel, hes] at haddr
          refine ⟨?_, .inl ?_, fun _ _ _ h => by cases h⟩
          · rwa [hadd, BitVec.ofNat_mul, ← size_eq_ofNat hextent]
          · rcases hcode.typeOf with htype | hint
            · simp only [Env.typeOf, htype, Option.map_some]
            · cases hint
      | _ => rw [hr₁] at h₂; cases h₂
  | subInt n s h ih =>
      rcases follow_snoc hr with ⟨r₁, r₂, h₁, h₂, rfl⟩
      have hcode := ih h₁
      rw [Step.from_subInt] at h₂
      split_ifs at h₂ with hnum
      rcases Option.bind_eq_some_iff.mp h₂ with ⟨sub, hsub, h₂⟩
      split_ifs at h₂
      rcases Option.some.inj h₂ with rfl
      have hint := subIntType_isInt hsub
      refine ⟨?_, .inr hint, ?_⟩
      · have haddr := address_subInt (n := n) hcode.address hnum hsub
        change Γ.Address W I _ sub (a₀ + BitVec.ofNat 64 (r₁.1 + 0 * sub.extent Γ.heap))
        rwa [Nat.zero_mul, Nat.add_zero]
      · intro n' q s' he
        cases he
        exact ⟨_, _, hcode.address, fun _ => hint⟩
  | subIntIndex n n' s h hi ih =>
      rcases follow_snoc hr with ⟨r₁, r₂, h₁, h₂, rfl⟩
      have hcode := ih h₁
      rw [Step.from_subInt] at h₂
      split_ifs at h₂ with hnum
      rcases Option.bind_eq_some_iff.mp h₂ with ⟨sub, hsub, h₂⟩
      split_ifs at h₂
      rcases Option.some.inj h₂ with rfl
      have haddr := address_subIntIndex n n' hcode.address hnum hsub hi
      refine ⟨?_, .inr (subIntType_isInt hsub), fun _ _ _ h => by cases h⟩
      rwa [hadd, BitVec.ofNat_mul, ← size_eq_ofNat (subIntType_extent hsub)]

end

/-! ## Layout soundness -/

/-- Over the classes of well-formed declarations, the code of an access path computes
an address inside the variable, paths that part have ranges that are apart, and
the own members of a class that is no union stand back to back. -/
theorem paths_sound {hist : List (Lts.Entry Parser.Program Parser.ClassDecl)} {s : Parser.Program}
    (hrun : Parser.declarations.Run hist s) (hord : ∀ p ∈ hist, Parser.Ordered p.1 p.2.1)
    (hfits : ∀ c u, Parser.Defined hist c u → ClassFits s.heap u c) :
    (∃ F, ∀ fuel, F ≤ fuel → ∀ c n, (findMember s.heap fuel c n).isSome = true) ∧
    (∀ (Γ : Env) (W : World) (I : Mem → Prop) (x : String) (v : VarSym) (a : I64),
      Γ.heap = s.heap → Γ.lookupVar x = some v → v.At W a → v.type.Complete s.heap →
      v.type.extent s.heap < 2 ^ 63 →
      (∀ e p r, PathExpr Γ W I x e p → follow s.heap Γ.classFuel v.type p = some r →
        Γ.Address W I e r.2 (a + BitVec.ofNat 64 r.1) ∧
        r.1 + (Γ.size r.2).toNat ≤ (Γ.size v.type).toNat) ∧
      (∀ p s₁ s₂ q₁ q₂ r r₁ r₂, follow s.heap Γ.classFuel v.type p = some r →
        s₁.Part s.heap (Parser.Defined hist) r.2 s₂ →
        follow s.heap Γ.classFuel v.type (p ++ s₁ :: q₁) = some r₁ →
        follow s.heap Γ.classFuel v.type (p ++ s₂ :: q₂) = some r₂ →
        r₁.1 + (Γ.size r₁.2).toNat ≤ r₂.1 ∨ r₂.1 + (Γ.size r₂.2).toNat ≤ r₁.1)) ∧
    ∀ c, Parser.Defined hist c false →
      BackToBack s.heap (Parser.baseSize s.heap (s.heap c).base).toNat (s.heap c).members := by
  have hG := Parser.run_classGraph hrun hord hfits
  refine ⟨findMember_fuel (Parser.run_laid hrun hord).1, ?_, ?_⟩
  · intro Γ W I x v a hheap hx hat ht hfit
    rw [← hheap] at hG ht hfit ⊢
    have hsize : (Γ.size v.type).toNat = v.type.extent Γ.heap := Ty.toNat_size hfit
    -- the recorded size of a part is its extent, since the part lies inside the variable
    have hpart : ∀ {p r}, follow Γ.heap Γ.classFuel v.type p = some r →
        (Γ.size r.2).toNat = r.2.extent Γ.heap ∧
        r.1 + r.2.extent Γ.heap ≤ v.type.extent Γ.heap := by
      intro p r hr
      have hinside := (follow_inside hG ht hr).1.2
      change r.1 + r.2.extent Γ.heap ≤ 0 + v.type.extent Γ.heap at hinside
      rw [Nat.zero_add] at hinside
      exact ⟨Ty.toNat_size (by omega), hinside⟩
    constructor
    · intro e p r he hr
      rcases hpart hr with ⟨hsz, hle⟩
      rw [hsz, hsize]
      exact ⟨(he.code hG hx hat ht hfit hr).address, hle⟩
    · intro p s₁ s₂ q₁ q₂ r r₁ r₂ hr hs h₁ h₂
      rw [(hpart h₁).1, (hpart h₂).1]
      exact follow_apart hG ht hr hs h₁ h₂
  · intro c hc
    exact ((hG.laid c false hc).backToBack (hG.fits c false hc)).1

/-- A variable `d` of the class `Derived`, after the two declarations. -/
def derivedEnv : Env where
  scopes := [[("d", ⟨.slot 0, .cls 1⟩)]]
  heap := (Parser.declare [Parser.baseDecl, Parser.derivedDecl]).2.heap
  classFuel := 2

theorem fits_derived : ∀ c u,
    Parser.Defined (Parser.declare [Parser.baseDecl, Parser.derivedDecl]).1 c u →
    ClassFits derivedEnv.heap u c := by
  rintro c u ⟨p, hp, _, rfl, rfl⟩
  change p ∈ [(({} : Parser.Program), Parser.baseDecl, (Parser.declare [Parser.baseDecl]).2),
    ((Parser.declare [Parser.baseDecl]).2, Parser.derivedDecl,
      (Parser.declare [Parser.baseDecl, Parser.derivedDecl]).2)] at hp
  rcases List.mem_cons.mp hp with rfl | hp
  · refine ⟨by decide, ?_, fun _ => by decide⟩
    intro m hm
    rcases List.mem_singleton.mp hm with rfl
    decide
  · rcases List.mem_singleton.mp hp with rfl
    refine ⟨by decide, ?_, fun _ => by decide⟩
    intro m hm
    rcases List.mem_singleton.mp hm with rfl
    decide

/-- `d.parts[1].a` is 16 bytes behind `d`, and its 8 bytes lie inside the 24 of `d`. -/
theorem paths_sound_derived :
    derivedEnv.Address .still (fun _ => True) (.member {} (.index {} (.member {} (.ident {} "d")
      "parts" false) (.intLit {} 1)) "a" false) .i64 16 ∧
    16 + (derivedEnv.size .i64).toNat ≤ (derivedEnv.size (.cls 1)).toNat := by
  have hat : VarSym.At .still ⟨.slot 0, .cls 1⟩ 0 := ⟨rfl, fun _ => trivial, fun _ => rfl⟩
  have hcomplete : (Ty.cls 1).Complete derivedEnv.heap := by
    intro c hc
    rcases Option.some.inj hc with rfl
    decide
  have hsound := (paths_sound (Parser.run_declare (by decide)) Parser.ordered_derived
    fits_derived).2.1 derivedEnv .still (fun _ => True) "d" ⟨.slot 0, .cls 1⟩ 0 rfl rfl hat
    hcomplete (by decide)
  have hpath : PathExpr derivedEnv .still (fun _ => True) "d" (.member {} (.index {} (.member {}
      (.ident {} "d") "parts" false) (.intLit {} 1)) "a" false)
      [.member "parts", .index 1, .member "a"] :=
    .member {} "a" (.index {} (.member {} "parts" (.var {})) (index_intLit {} 1))
  exact hsound.1 _ _ (16, .i64) hpath rfl

/-- The array `U0 v[5]` has no bytes, but the code of `v[3]` computes the address of a
byte behind it. -/
theorem void_element_outside :
    ({ scopes := [[("v", ⟨.slot 0, .array .void 5⟩)]] } : Env).Address .still (fun _ => True)
      (.index {} (.ident {} "v") (.intLit {} 3)) .u8 3 ∧
    ¬3 + (({} : Env).size .u8).toNat ≤ (({} : Env).size (.array .void 5)).toNat := by
  have hat : VarSym.At .still ⟨.slot 0, .array .void 5⟩ 0 := ⟨rfl, fun _ => trivial, fun _ => rfl⟩
  have haddr := address_var (Γ := { scopes := [[("v", ⟨.slot 0, .array .void 5⟩)]] })
    (I := fun _ => True) (x := "v") {} rfl hat
  refine ⟨?_, by decide⟩
  exact address_index ⟨haddr, .inl rfl, fun _ _ _ h => by cases h⟩ (index_intLit {} 3)

end Hlang.Codegen
