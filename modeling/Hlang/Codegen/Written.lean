import Hlang.Codegen.Spec

/-!
# Hlang.Codegen.Written — what the instructions that are written have in them

`Writes I x Q`: every instruction that the generator `x` appends satisfies `I`, and its result
satisfies `Q`. The rules compose. The helpers on values write only values that `V` allows, where
it allows those they get (`Basic`).
-/

namespace Hlang.Ir

/-- The operands of an operation. -/
def Op.values : Op → List Value
  | .bin _ x y | .fbin _ x y | .icmp _ x y | .fcmp _ x y => [x, y]
  | .fneg x | .trunc _ x | .zext x | .sext x | .fptosi x | .sitofp x | .uitofp x | .ptrtoint x
  | .inttoptr x | .bitcast x => [x]
  | .gep base off => [base, off]
  | .load _ addr => [addr]

/-- The values in an instruction. -/
def Instr.values : Instr → List Value
  | .op _ o => o.values
  | .phi _ incoming => incoming.map Prod.fst
  | .call _ callee args => callee :: args
  | .store _ v addr => [v, addr]
  | .memcpy dst src _ => [dst, src]
  | .memset dst _ _ => [dst]
  | .br _ | .mark _ => []
  | .condBr c _ _ => [c]
  | .switch _ v => [v]
  | .ret v => v.toList

/-- All values in the instruction are allowed. -/
def Instr.Within (V : Value → Prop) (i : Instr) : Prop := ∀ v ∈ i.values, V v

end Hlang.Ir

namespace Hlang.Codegen

open Ir Gen

/-- The triple of a generator. -/
def Writes {α : Type} (I : Instr → Prop) (x : Gen α) (Q : α → Prop) : Prop :=
  ∀ B a B', x B = .ok (a, B') → (∃ seg, B'.log = B.log ++ seg ∧ ∀ e ∈ seg, I e.2) ∧ Q a

section Rules

variable {α β : Type} {I : Instr → Prop} {x : Gen α} {f : α → Gen β} {Q Q' : α → Prop}
  {T : β → Prop}

theorem Writes.mono (h : Writes I x Q) (hQ : ∀ a, Q a → Q' a) : Writes I x Q' := by
  intro B a B' hx
  exact ⟨(h B a B' hx).1, hQ a (h B a B' hx).2⟩

/-- A step that appends nothing. -/
theorem Writes.quiet {g : Builder → Builder} {r : Builder → α} (hlog : ∀ B, (g B).log = B.log)
    (h : ∀ B, Q (r B)) : Writes I (fun B => .ok (r B, g B)) Q := by
  intro B a B' hx
  rcases Prod.mk.inj (Except.ok.inj hx) with ⟨rfl, rfl⟩
  refine ⟨⟨[], ?_, fun e he => absurd he List.not_mem_nil⟩, h B⟩
  rw [hlog, List.append_nil]

/-- A step that appends an instruction. -/
theorem Writes.one {g : Builder → Builder} {r : Builder → α} {i : Builder → Instr}
    (hlog : ∀ B, (g B).log = B.log ++ [(B.cur, i B)]) (hi : ∀ B, I (i B)) (h : ∀ B, Q (r B)) :
    Writes I (fun B => .ok (r B, g B)) Q := by
  intro B a B' hx
  rcases Prod.mk.inj (Except.ok.inj hx) with ⟨rfl, rfl⟩
  refine ⟨⟨_, hlog B, ?_⟩, h B⟩
  intro e he
  rcases List.mem_singleton.mp he with rfl
  exact hi B

theorem Writes.pure {a : α} (h : Q a) : Writes I (pure a) Q :=
  .quiet (g := id) (fun _ => rfl) fun _ => h

theorem Writes.stop (s : Stop) : Writes I (stop s) Q := by
  intro B a B' hx
  cases hx

theorem Writes.bind (hx : Writes I x Q) (hf : ∀ a, Q a → Writes I (f a) T) :
    Writes I (x >>= f) T := by
  intro B b B'' hxf
  rcases bind_eq_ok.mp hxf with ⟨a, B', hxB, hfB⟩
  rcases hx B a B' hxB with ⟨⟨seg, hlog, hI⟩, hQ⟩
  rcases hf a hQ B' b B'' hfB with ⟨⟨seg', hlog', hI'⟩, hT⟩
  refine ⟨⟨seg ++ seg', ?_, ?_⟩, hT⟩
  · rw [hlog', hlog, List.append_assoc]
  · intro e he
    rcases List.mem_append.mp he with he | he
    · exact hI e he
    · exact hI' e he

theorem Writes.error (loc : SrcLoc) (msg : String) : Writes I (error loc msg) fun _ => True :=
  .quiet (fun _ => rfl) fun _ => trivial

/-- A report, and what follows it. -/
theorem Writes.report {loc : SrcLoc} {msg : String} {g : Gen β} (h : Writes I g T) :
    Writes I (Gen.error loc msg >>= fun _ => g) T := (Writes.error loc msg).bind fun _ _ => h

theorem Writes.emit {i : Instr} (h : I i) : Writes I (emit i) fun _ => True :=
  .one (i := fun _ => i) (fun _ => rfl) (fun _ => h) fun _ => trivial

theorem Writes.newBlock : Writes I newBlock fun _ => True := .quiet (fun _ => rfl) fun _ => trivial

theorem Writes.setInsertPoint (b : Blk) : Writes I (setInsertPoint b) fun _ => True :=
  .quiet (fun _ => rfl) fun _ => trivial

theorem Writes.insertBlock : Writes I insertBlock fun _ => True :=
  .quiet (g := id) (fun _ => rfl) fun _ => trivial

theorem Writes.ofOption (o : Option α) : Writes I (ofOption o) fun a => o = some a := by
  cases o with
  | none => exact .stop _
  | some a => exact .pure rfl

end Rules

/-! ## Helpers on values -/

/-- The functions of the runtime that code names by itself. -/
def runtimeFns : List String :=
  ["HC_Pow", "HC_PowI64", "HC_TryPush", "setjmp", "HC_TryPop", "HC_CatchEnter", "HC_CatchDone"]

/-- What every function may name is allowed. -/
structure Basic (V : Value → Prop) : Prop where
  reg : ∀ ty r, V (.reg ty r)
  int : ∀ bits v, V (.int bits v)
  fp : ∀ q, V (.fp q)
  slot : ∀ n, V (.slot n)
  str : ∀ s, V (.str s)
  runtime : ∀ f ∈ runtimeFns, V (.fn f)

/-- The value of an `RV`, if it has one, is allowed. -/
def RV.Ok (V : Value → Prop) (rv : RV) : Prop := ∀ v, rv.v = some v → V v

/-- The address of an lvalue, if it has one, is allowed. -/
def LV.Ok (V : Value → Prop) (lv : LV) : Prop := ∀ v, lv.addr = some v → V v

/-- The generator writes only values that are allowed. -/
abbrev Confined {α : Type} (V : Value → Prop) (x : Gen α) (Q : α → Prop) : Prop :=
  Writes (Instr.Within V) x Q

section Within

variable {V : Value → Prop}

theorem within_nil {i : Instr} (h : i.values = []) : i.Within V := by
  intro v hv
  rw [h] at hv
  cases hv

theorem within_one {i : Instr} {x : Value} (h : i.values = [x]) (hx : V x) : i.Within V := by
  intro v hv
  rw [h] at hv
  rcases List.mem_singleton.mp hv with rfl
  exact hx

theorem within_two {i : Instr} {x y : Value} (h : i.values = [x, y]) (hx : V x) (hy : V y) :
    i.Within V := by
  intro v hv
  rw [h] at hv
  rcases List.mem_cons.mp hv with rfl | hv
  · exact hx
  · rcases List.mem_singleton.mp hv with rfl
    exact hy

end Within

section Helpers

variable {V : Value → Prop}

theorem forall_of_none {α : Type} {P : α → Prop} : ∀ a, none = some a → P a := by
  intro a ha
  cases ha

theorem forall_of_some {α : Type} {P : α → Prop} {b : α} (h : P b) : ∀ a, some b = some a → P a := by
  intro a ha
  rcases Option.some.inj ha with rfl
  exact h

theorem RV.Ok.some {v : Value} {t : Ty} (h : V v) : RV.Ok V ⟨some v, t⟩ := forall_of_some h

theorem RV.Ok.none {t : Ty} : RV.Ok V ⟨.none, t⟩ := forall_of_none

theorem LV.Ok.some {v : Value} {t : Ty} (h : V v) : LV.Ok V ⟨some v, t⟩ := forall_of_some h

theorem LV.Ok.none : LV.none.Ok V := forall_of_none

namespace Basic

variable (h : Basic V)
include h

theorem zero : RV.zero.Ok V := .some (h.int _ _)

theorem create {o : Op} (ho : ∀ r, (Instr.op r o).Within V) : Confined V (create o) V :=
  .one (i := fun B => .op B.nextReg o) (fun _ => rfl) (fun _ => ho _) fun _ => h.reg _ _

theorem create₁ {o : Op} {x : Value} (ho : o.values = [x]) (hx : V x) :
    Confined V (Gen.create o) V := h.create fun _ => within_one ho hx

theorem create₂ {o : Op} {x y : Value} (ho : o.values = [x, y]) (hx : V x) (hy : V y) :
    Confined V (Gen.create o) V := h.create fun _ => within_two ho hx hy

theorem createPhi {inc : List (Value × Blk)} (hinc : ∀ p ∈ inc, V p.1) :
    Confined V (createPhi inc) V := by
  refine .one (i := fun B => .phi B.nextReg inc) (fun _ => rfl) (fun _ => ?_) fun _ => h.reg _ _
  intro v hv
  rcases List.mem_map.mp hv with ⟨p, hp, rfl⟩
  exact hinc p hp

theorem createCall (ty : LTy) {f : Value} {vs : List Value} (hf : V f) (hvs : ∀ v ∈ vs, V v) :
    Confined V (createCall ty f vs) fun r => ∀ v, r = some v → V v := by
  have hcall : ∀ r, (Instr.call r f vs).Within V := by
    intro r v hv
    rcases List.mem_cons.mp hv with rfl | hv
    · exact hf
    · exact hvs v hv
  intro B a B' hx
  unfold Gen.createCall at hx
  split_ifs at hx
  · rcases Prod.mk.inj (Except.ok.inj hx) with ⟨rfl, rfl⟩
    refine ⟨⟨_, rfl, ?_⟩, forall_of_none⟩
    intro e he
    rcases List.mem_singleton.mp he with rfl
    exact hcall none
  · rcases Prod.mk.inj (Except.ok.inj hx) with ⟨rfl, rfl⟩
    refine ⟨⟨_, rfl, ?_⟩, ?_⟩
    · intro e he
      rcases List.mem_singleton.mp he with rfl
      exact hcall _
    · intro v hv
      rcases Option.some.inj hv with rfl
      exact h.reg _ _

theorem entryAlloca (ty : LTy) : Confined V (entryAlloca ty) V :=
  .quiet (fun _ => rfl) fun _ => h.slot _

theorem asPtr {v : Option Value} (hv : ∀ w, v = some w → V w) : Confined V (asPtr v) V := by
  unfold Codegen.asPtr
  split
  · exact .stop _
  · next w =>
      split_ifs
      · exact .pure (hv w rfl)
      · exact h.create₁ rfl (hv w rfl)

theorem ptrToI64 {v : Value} (hv : V v) : Confined V (ptrToI64 v) V := by
  unfold Codegen.ptrToI64
  split_ifs
  · exact h.create₁ rfl hv
  · exact .pure hv

theorem widen {v : Value} (t : Ty) (hv : V v) : Confined V (widen v t) V := by
  unfold Codegen.widen
  split_ifs
  · exact .pure hv
  · exact h.create₁ rfl hv
  · exact .pure hv
  · split
    · exact h.create₁ rfl hv
    · exact h.create₁ rfl hv

theorem convert {rv : RV} (dst : Ty) (norm : Bool) (hrv : rv.Ok V) :
    Confined V (convert rv dst norm) V := by
  unfold Codegen.convert
  split
  · split_ifs
    · exact .pure (h.fp _)
    · exact .pure (h.int _ _)
  · next v hv =>
      have hok : V v := hrv v hv
      have hnorm : ∀ iv, V iv → Confined V (normalizeNarrow dst norm iv) V := by
        intro iv hiv
        unfold normalizeNarrow
        split
        · split_ifs
          · exact (h.create₁ rfl hiv).bind fun tr htr => h.create₁ rfl htr
          · exact (h.create₁ rfl hiv).bind fun tr htr => h.create₁ rfl htr
          · exact .pure hiv
        · exact .pure hiv
      split_ifs
      · exact .pure hok
      · refine (h.ptrToI64 hok).bind fun iv hiv => ?_
        split
        · exact h.create₁ rfl hiv
        · exact h.create₁ rfl hiv
      · exact (h.create₁ rfl hok).bind hnorm
      · exact (h.ptrToI64 hok).bind hnorm

theorem truthy {rv : RV} (loc : SrcLoc) (hrv : rv.Ok V) : Confined V (truthy rv loc) V := by
  unfold Codegen.truthy
  split
  · exact .report (.pure (h.int _ _))
  · next v hv =>
      have hok : V v := hrv v hv
      split_ifs
      · exact h.create₂ rfl hok (h.fp _)
      · exact (h.ptrToI64 hok).bind fun iv hiv => h.create₂ rfl hiv (h.int _ _)

theorem boolToI64 {v : Value} (hv : V v) : Confined V (boolToI64 v) V := h.create₁ rfl hv

theorem strRV (s : String) : Confined V (strRV s) (RV.Ok V) :=
  (h.create₁ rfl (h.str s)).bind fun _ hv => .pure (.some hv)

theorem storeTo (Γ : Env) {addr : Value} {rv : RV} (t : Ty) (haddr : V addr) (hrv : rv.Ok V) :
    Confined V (storeTo Γ addr rv t) fun _ => True := by
  have hstore : ∀ mt {v}, V v → Confined V (Gen.emit (.store mt v addr)) fun _ => True :=
    fun mt v hv => .emit (within_two rfl hv haddr)
  unfold Codegen.storeTo
  refine (Writes.ofOption _).bind fun t' _ => ?_
  split_ifs
  · exact (h.asPtr hrv).bind fun src hsrc => .emit (within_two rfl haddr hsrc)
  · dsimp only
    split_ifs
    · exact (h.convert _ _ hrv).bind fun v hv => hstore _ hv
    · refine (h.convert _ _ hrv).bind fun iv hiv => ?_
      split
      · exact (Writes.pure hiv).bind fun v hv => hstore _ hv
      · exact (h.create₁ rfl hiv).bind fun v hv => hstore _ hv
      · exact (Writes.pure hiv).bind fun v hv => hstore _ hv

theorem loadFrom (Γ : Env) {addr : Value} (t : Ty) (haddr : V addr) :
    Confined V (loadFrom Γ addr t) (RV.Ok V) := by
  unfold Codegen.loadFrom
  refine (Writes.ofOption _).bind fun t' _ => ?_
  split
  · exact (h.create₁ rfl haddr).bind fun v hv => .pure (.some hv)
  · exact (h.create₁ rfl haddr).bind fun v hv => .pure (.some hv)
  · refine (h.create₁ rfl haddr).bind fun v hv => ?_
    exact (h.widen _ hv).bind fun w hw => .pure (.some hw)

theorem arithDouble (op : P) {x y : Value} (loc : SrcLoc) (hx : V x) (hy : V y) :
    Confined V (arithDouble op x y loc) (RV.Ok V) := by
  have hmade : ∀ o, Confined V (do return ⟨some (← Gen.create (.fbin o x y)), .f64⟩) (RV.Ok V) :=
    fun o => (h.create₂ rfl hx hy).bind fun v hv => .pure (.some hv)
  unfold Codegen.arithDouble
  split
  case h_6 =>
    refine (h.createCall _ (h.runtime "HC_Pow" (by decide)) ?_).bind fun r hr => .pure hr
    intro v hv
    rcases List.mem_cons.mp hv with rfl | hv
    · exact hx
    · rcases List.mem_singleton.mp hv with rfl
      exact hy
  case h_7 => exact .report (.pure (.some (h.fp _)))
  all_goals exact hmade _

theorem arithInt (op : P) (uns unsLeft : Bool) (rt : Ty) {x y : Value} (loc : SrcLoc) (hx : V x)
    (hy : V y) : Confined V (arithInt op uns unsLeft rt x y loc) (RV.Ok V) := by
  have hmade : ∀ o, Confined V (do return ⟨some (← Gen.create (.bin o x y)), rt⟩) (RV.Ok V) :=
    fun o => (h.create₂ rfl hx hy).bind fun v hv => .pure (.some hv)
  have hshift : ∀ o, Confined V (do
      let z ← Gen.create (.bin .and y (cI64 63)) >>= fun c => Gen.create (.bin o x c)
      return (⟨some z, rt⟩ : RV)) (RV.Ok V) := by
    intro o
    refine Writes.bind (Q := V) ?_ fun z hz => .pure (.some hz)
    exact (h.create₂ rfl hy (h.int _ _)).bind fun c hc => h.create₂ rfl hx hc
  unfold Codegen.arithInt
  split
  case h_9 | h_10 => exact hshift _
  case h_11 =>
    refine (h.createCall _ (h.runtime "HC_PowI64" (by decide)) ?_).bind fun r hr => .pure hr
    intro v hv
    rcases List.mem_cons.mp hv with rfl | hv
    · exact hx
    · rcases List.mem_singleton.mp hv with rfl
      exact hy
  case h_12 => exact .report (.pure h.zero)
  all_goals exact hmade _

theorem arith (op : P) {a c : RV} (loc : SrcLoc) (ha : a.Ok V) (hc : c.Ok V) :
    Confined V (arith op a c loc) (RV.Ok V) := by
  unfold Codegen.arith
  split
  case isTrue =>
    exact (h.convert _ _ ha).bind fun x hx => (h.convert _ _ hc).bind fun y hy =>
      h.arithDouble op loc hx hy
  case isFalse =>
    exact (h.convert _ _ ha).bind fun x hx => (h.convert _ _ hc).bind fun y hy =>
      h.arithInt op _ _ _ loc hx hy

theorem cmp (op : P) {a c : RV} (ha : a.Ok V) (hc : c.Ok V) : Confined V (cmp op a c) V := by
  unfold Codegen.cmp
  split_ifs
  · refine (h.convert _ _ ha).bind fun x hx => (h.convert _ _ hc).bind fun y hy => ?_
    unfold cmpDouble
    split
    all_goals first
      | exact h.create₂ rfl hx hy
      | exact .pure (h.int _ _)
  · refine (h.convert _ _ ha).bind fun x hx => (h.convert _ _ hc).bind fun y hy => ?_
    unfold cmpInt
    split
    all_goals first
      | exact h.create₂ rfl hx hy
      | exact .pure (h.int _ _)

theorem storeExtra {arr : Value} (harr : V arr) {vs : List Value} (hvs : ∀ v ∈ vs, V v) (i : Nat) :
    Confined V (storeExtra arr i vs) fun _ => True := by
  induction vs generalizing i with
  | nil => exact .pure trivial
  | cons v vs ih =>
      unfold Codegen.storeExtra
      refine (h.create₂ rfl harr (h.int _ _)).bind fun slot hslot => ?_
      refine (Writes.emit (within_two rfl (hvs v List.mem_cons_self) hslot)).bind fun _ _ => ?_
      exact ih (fun w hw => hvs w (List.mem_cons_of_mem _ hw)) _

end Basic

end Helpers

end Hlang.Codegen
