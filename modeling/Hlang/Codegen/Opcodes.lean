import Hlang.Codegen.Visited

/-!
# Hlang.Codegen.Opcodes — the operations that come in a signed and an unsigned form

Division, remainder, the shift to the right and the comparisons. `Picks x l Q`: the
generator `x` ends, `l` are the operations of this kind in the code it appends, in
order, and `Q` holds of its result. The helpers on values emit none; `arith` and `cmp`
emit the one of their operator.
-/

namespace Hlang.Ir

/-- An operation that is signed or unsigned. -/
inductive Opcode where
  | bin (o : BinOp)
  | icmp (p : ICmp)
deriving DecidableEq

/-- The operation, if it is signed or unsigned. -/
def Op.opcode? : Op → Option Opcode
  | .bin o _ _ => if o ∈ [.udiv, .sdiv, .urem, .srem, .lshr, .ashr] then some (.bin o) else none
  | .icmp p _ _ => if p = .eq ∨ p = .ne then none else some (.icmp p)
  | _ => none

/-- The operation of an instruction, if it is signed or unsigned. -/
def Instr.opcode? : Instr → Option Opcode
  | .op _ o => o.opcode?
  | _ => none

end Hlang.Ir

namespace Hlang.Codegen

open Ir Gen

/-- The operations of the code so far. -/
def Builder.opcodes (B : Builder) : List Opcode := B.log.filterMap fun e => e.2.opcode?

/-- What the operator `op` is lowered to. -/
def opcode (op : P) (uns : Bool) : Option Opcode :=
  match op with
  | .slash => some (.bin (if uns then .udiv else .sdiv))
  | .percent => some (.bin (if uns then .urem else .srem))
  | .shr => some (.bin (if uns then .lshr else .ashr))
  | .lt => some (.icmp (if uns then .ult else .slt))
  | .gt => some (.icmp (if uns then .ugt else .sgt))
  | .le => some (.icmp (if uns then .ule else .sle))
  | .ge => some (.icmp (if uns then .uge else .sge))
  | _ => none

/-- The two forms of an operator differ. -/
theorem opcode_inj {op : P} {b b' : Bool} (hop : (opcode op b).isSome = true)
    (h : opcode op b = opcode op b') : b = b' := by
  unfold opcode at h hop
  split at h
  case h_8 h₁ h₂ h₃ h₄ h₅ h₆ h₇ =>
    split at hop
    all_goals contradiction
  all_goals
    cases b <;> cases b' <;> first | rfl | cases h

theorem isSome_opcode (op : P) (b b' : Bool) : (opcode op b).isSome = (opcode op b').isSome := by
  unfold opcode
  split <;> rfl

/-! ## Rules -/

/-- The generator appends code with these operations. -/
def Codes {α : Type} (x : Gen α) (l : List Opcode) : Prop :=
  ∀ B a B', x B = .ok (a, B') → B'.opcodes = B.opcodes ++ l

/-- The generator ends, its code has these operations, and `Q` holds of its result. -/
def Picks {α : Type} (x : Gen α) (l : List Opcode) (Q : α → Prop) : Prop :=
  ∀ B, ∃ a B', x B = .ok (a, B') ∧ B'.opcodes = B.opcodes ++ l ∧ Q a

section Rules

variable {α β : Type} {x : Gen α} {f : α → Gen β} {l l' : List Opcode} {Q Q' : α → Prop}
  {T : β → Prop}

theorem Codes.pure (a : α) : Codes (Pure.pure a : Gen α) [] := by
  intro B b B' h
  cases h
  exact (List.append_nil _).symm

theorem Codes.bind (hx : Codes x l) (hf : ∀ a, Codes (f a) l') : Codes (x >>= f) (l ++ l') := by
  intro B b B' h
  change (x B >>= fun p => f p.1 p.2) = _ at h
  cases hxB : x B with
  | error s =>
      rw [hxB] at h
      cases h
  | ok p =>
      rw [hxB] at h
      rw [hf p.1 p.2 b B' h, hx B p.1 p.2 hxB, List.append_assoc]

/-- A step before that emits none of these operations. -/
theorem Codes.after (hx : Codes x []) (hf : ∀ a, Codes (f a) l) : Codes (x >>= f) l := hx.bind hf

theorem codes_stop (s : Stop) : Codes (stop s : Gen α) l := fun _ _ _ h => nomatch h

theorem codes_error (loc : SrcLoc) (msg : String) : Codes (error loc msg) [] := by
  intro B b B' h
  cases h
  exact (List.append_nil _).symm

theorem opcodes_append (B : Builder) (i : Instr) :
    ({ B with log := B.log ++ [(B.cur, i)] } : Builder).opcodes = B.opcodes ++ i.opcode?.toList := by
  unfold Builder.opcodes
  rw [List.filterMap_append]
  cases h : i.opcode? with
  | none => simp [h]
  | some o => simp [h]

theorem codes_emit {i : Instr} (h : i.opcode? = none) : Codes (emit i) [] := by
  intro B b B' hB
  cases hB
  exact (opcodes_append B i).trans (by rw [h]; rfl)

theorem codes_create (o : Op) : Codes (create o) o.opcode?.toList := by
  intro B b B' hB
  cases hB
  exact opcodes_append B (.op B.nextReg o)

theorem codes_createPhi (incoming : List (Value × Blk)) : Codes (createPhi incoming) [] := by
  intro B b B' hB
  cases hB
  exact opcodes_append B (.phi B.nextReg incoming)

theorem codes_createCall (ty : LTy) (callee : Value) (args : List Value) :
    Codes (createCall ty callee args) [] := by
  intro B b B' hB
  unfold createCall at hB
  split at hB
  · cases hB
    exact opcodes_append B (.call none callee args)
  · cases hB
    exact opcodes_append B (.call (some B.nextReg) callee args)

theorem codes_newBlock : Codes newBlock [] := by
  intro B b B' h
  cases h
  exact (List.append_nil _).symm

theorem codes_setInsertPoint (b : Blk) : Codes (setInsertPoint b) [] := by
  intro B b B' h
  cases h
  exact (List.append_nil _).symm

theorem codes_insertBlock : Codes insertBlock [] := by
  intro B b B' h
  cases h
  exact (List.append_nil _).symm

theorem codes_ofOption (o : Option α) : Codes (ofOption o) [] := by
  cases o with
  | none => exact codes_stop _
  | some a => exact .pure a

theorem Picks.of (h : Total x Q) (hx : Codes x l) : Picks x l Q := by
  intro B
  rcases h.exists_ok trivial trivial B with ⟨a, B', hB⟩
  have hends := h B
  rw [hB] at hends
  exact ⟨a, B', hB, hx B a B' hB, hends.2.2.1⟩

theorem Picks.pure {a : α} (h : Q a) : Picks (Pure.pure a : Gen α) [] Q :=
  fun B => ⟨a, B, rfl, (List.append_nil _).symm, h⟩

theorem Picks.bind (hx : Picks x l Q) (hf : ∀ a, Q a → Picks (f a) l' T) :
    Picks (x >>= f) (l ++ l') T := by
  intro B
  rcases hx B with ⟨a, B₁, hB, hl, hQ⟩
  rcases hf a hQ B₁ with ⟨b, B₂, hB₁, hl', hT⟩
  refine ⟨b, B₂, (Gen.bind_ok hB).trans hB₁, ?_, hT⟩
  rw [hl', hl, List.append_assoc]

/-- A step before that emits none of these operations. -/
theorem Picks.after (hx : Picks x [] Q) (hf : ∀ a, Q a → Picks (f a) l T) :
    Picks (x >>= f) l T :=
  hx.bind hf

/-- A step behind that emits none of these operations. -/
theorem Picks.before (hx : Picks x l Q) (hf : ∀ a, Q a → Picks (f a) [] T) :
    Picks (x >>= f) l T := by
  have h := hx.bind hf
  rw [List.append_nil] at h
  exact h

theorem Picks.mono (h : Picks x l Q) (hQ : ∀ a, Q a → Q' a) : Picks x l Q' := by
  intro B
  rcases h B with ⟨a, B', hB, hl, ha⟩
  exact ⟨a, B', hB, hl, hQ a ha⟩

end Rules

/-! ## Helpers on values -/

theorem codes_asPtr (v : Option Value) : Codes (asPtr v) [] := by
  unfold asPtr
  split
  · exact codes_stop _
  · split
    · exact .pure _
    · exact codes_create _

theorem codes_ptrToI64 (v : Value) : Codes (ptrToI64 v) [] := by
  unfold ptrToI64
  split
  · exact codes_create _
  · exact .pure _

theorem codes_widen (v : Value) (t : Ty) : Codes (widen v t) [] := by
  unfold widen
  split_ifs
  · exact .pure _
  · exact codes_create _
  · exact .pure _
  · split
    · exact codes_create _
    · exact codes_create _

theorem codes_convert (rv : RV) (dst : Ty) (norm : Bool) : Codes (convert rv dst norm) [] := by
  have hnormalize : ∀ iv : Value, Codes (normalizeNarrow dst norm iv) [] := by
    intro iv
    unfold normalizeNarrow
    split
    · split
      · refine .after (codes_create _) fun tr => ?_
        split
        · exact codes_create _
        · exact codes_create _
      · exact .pure _
    · exact .pure _
  unfold convert
  cases rv.v with
  | none => exact .pure _
  | some v =>
      dsimp only
      split
      · split
        · exact .pure _
        · refine .after (codes_ptrToI64 v) fun iv => ?_
          split
          · exact codes_create _
          · exact codes_create _
      · split
        · exact .after (codes_create _) hnormalize
        · exact .after (codes_ptrToI64 v) hnormalize

theorem codes_truthy (rv : RV) (loc : SrcLoc) : Codes (truthy rv loc) [] := by
  unfold truthy
  split
  · exact .after (codes_error _ _) fun _ => .pure _
  · split
    · exact codes_create _
    · exact .after (codes_ptrToI64 _) fun v => codes_create _

theorem codes_storeTo (Γ : Env) (addr : Value) (rv : RV) (t : Ty) :
    Codes (storeTo Γ addr rv t) [] := by
  unfold storeTo
  refine .after (codes_ofOption _) fun t' => ?_
  split
  · exact .after (codes_asPtr _) fun src => codes_emit rfl
  · have hstore : ∀ v, Codes (emit (.store (Γ.memTy t') v addr)) [] := fun v => codes_emit rfl
    dsimp only
    split
    · exact .after (codes_convert _ _ _) hstore
    · refine .after (codes_convert _ _ _) fun iv => ?_
      split
      · exact .after (.pure _) hstore
      · exact .after (codes_create _) hstore
      · exact .after (.pure _) hstore

theorem codes_loadFrom (Γ : Env) (addr : Value) (t : Ty) : Codes (loadFrom Γ addr t) [] := by
  unfold loadFrom
  refine .after (codes_ofOption _) fun t' => ?_
  split
  · exact .after (codes_create _) fun v => .pure _
  · exact .after (codes_create _) fun v => .pure _
  · refine .after (codes_create _) fun v => ?_
    exact .after (codes_widen v _) fun w => .pure _

theorem picks_convert (rv : RV) {dst : Ty} (norm : Bool) :
    Picks (convert rv dst norm) [] fun w => isDbl w = dst.isF64 :=
  .of (total_convert rv dst norm) (codes_convert rv dst norm)

theorem picks_truthy (rv : RV) (loc : SrcLoc) : Picks (truthy rv loc) [] fun _ => True :=
  .of (total_truthy rv loc) (codes_truthy rv loc)

theorem picks_boolToI64 (v : Value) : Picks (boolToI64 v) [] fun w => isDbl w = false :=
  .of (total_boolToI64 v) (codes_create _)

theorem picks_emit {i : Instr} (h : i.opcode? = none) : Picks (emit i) [] fun _ => True :=
  .of (total_emit i) (codes_emit h)

theorem picks_insertBlock : Picks insertBlock [] fun _ => True :=
  .of total_insertBlock codes_insertBlock

theorem picks_newBlock : Picks newBlock [] fun _ => True := .of total_newBlock codes_newBlock

theorem picks_setInsertPoint (b : Blk) : Picks (setInsertPoint b) [] fun _ => True :=
  .of (total_setInsertPoint b) (codes_setInsertPoint b)

/-! ## Operators -/

/-- The sign of an operation is that of the left operand for a shift, of either otherwise. -/
def decided (op : P) (t u : Ty) : Bool := if op = .shr then isU64 t else isU64 t || isU64 u

theorem codes_arithInt (op : P) (t u rt : Ty) (x y : Value) (loc : SrcLoc)
    (hop : op ∉ [.lt, .gt, .le, .ge]) :
    Codes (arithInt op (isU64 t || isU64 u) (isU64 t) rt x y loc)
      (opcode op (decided op t u)).toList := by
  have hmade : ∀ o z, Codes (do
      let v ← create (.bin o x z)
      return (⟨some v, rt⟩ : RV)) (Op.bin o x z).opcode?.toList := by
    intro o z
    have h := (codes_create (.bin o x z)).bind fun v => Codes.pure (⟨some v, rt⟩ : RV)
    rw [List.append_nil] at h
    exact h
  have hshift : ∀ o, Codes (do
      let z ← create (.bin .and y (cI64 63)) >>= fun c => create (.bin o x c)
      return (⟨some z, rt⟩ : RV)) (Op.bin o x x).opcode?.toList := by
    intro o
    have hz : Codes (create (.bin .and y (cI64 63)) >>= fun c => create (.bin o x c))
        (Op.bin o x x).opcode?.toList :=
      .after (codes_create _) fun c => codes_create (.bin o x c)
    have h := hz.bind fun v => Codes.pure (⟨some v, rt⟩ : RV)
    rw [List.append_nil] at h
    exact h
  unfold arithInt
  split
  case h_4 =>
    have h := hmade (if isU64 t || isU64 u then .udiv else .sdiv) y
    cases hu : isU64 t || isU64 u <;> simpa [hu, opcode, decided, Op.opcode?] using h
  case h_5 =>
    have h := hmade (if isU64 t || isU64 u then .urem else .srem) y
    cases hu : isU64 t || isU64 u <;> simpa [hu, opcode, decided, Op.opcode?] using h
  case h_9 => exact hshift .shl
  case h_10 =>
    have h := hshift (if isU64 t then .lshr else .ashr)
    cases hu : isU64 t <;> simpa [hu, opcode, decided, Op.opcode?] using h
  case h_11 => exact .after (codes_createCall _ _ _) fun r => .pure _
  case h_12 h₁ h₂ h₃ h₄ h₅ h₆ h₇ h₈ h₉ h₁₀ h₁₁ =>
    have hnone : opcode op (decided op t u) = none := by
      unfold opcode
      split
      all_goals first | rfl | contradiction
    rw [hnone]
    exact .after (codes_error _ _) fun _ => .pure _
  all_goals exact hmade _ y

/-- `arith` on integers. -/
theorem picks_arith (op : P) {a c : RV} {t u : Ty} (ha : a.Is (.of t)) (hc : c.Is (.of u))
    (ht : t.isF64 = false) (hu : u.isF64 = false) (hop : op ∉ [.lt, .gt, .le, .ge])
    (loc : SrcLoc) : Picks (arith op a c loc) (opcode op (decided op t u)).toList
      fun rv => rv.Is (arithKind op (.of t) (.of u)) := by
  refine .of (total_arith op ha hc loc) ?_
  unfold arith
  rw [ha.2.2, hc.2.2, ha.1, hc.1]
  have hdbl : ((Kind.of t).dbl || (Kind.of u).dbl) = false := by
    change (t.isF64 || u.isF64) = false
    rw [ht, hu]
    rfl
  rw [hdbl, Bool.false_and, if_neg Bool.false_ne_true]
  refine .after (codes_convert _ _ _) fun x => ?_
  refine .after (codes_convert _ _ _) fun y => ?_
  exact codes_arithInt op t u _ x y loc hop

/-- `cmp` on integers. -/
theorem picks_cmp (op : P) {a c : RV} {t u : Ty} (ha : a.Is (.of t)) (hc : c.Is (.of u))
    (ht : t.isF64 = false) (hu : u.isF64 = false) (hop : op ∈ [.lt, .gt, .le, .ge, .eqEq, .ne]) :
    Picks (cmp op a c) (opcode op (decided op t u)).toList fun _ => True := by
  refine .of (total_cmp op a c) ?_
  unfold cmp
  rw [ha.2.2, hc.2.2, ha.1, hc.1]
  have hdbl : ((Kind.of t).dbl || (Kind.of u).dbl) = false := by
    change (t.isF64 || u.isF64) = false
    rw [ht, hu]
    rfl
  rw [hdbl, if_neg Bool.false_ne_true]
  refine .after (codes_convert _ _ _) fun x => ?_
  refine .after (codes_convert _ _ _) fun y => ?_
  have hmade : ∀ p, Codes (create (.icmp p x y)) (Op.icmp p x y).opcode?.toList :=
    fun p => codes_create (.icmp p x y)
  change Codes (cmpInt op (isU64 t || isU64 u) x y) _
  unfold cmpInt
  split
  case h_1 =>
    have h := hmade (if isU64 t || isU64 u then .ult else .slt)
    cases hu : isU64 t || isU64 u <;> simpa [hu, opcode, decided, Op.opcode?] using h
  case h_2 =>
    have h := hmade (if isU64 t || isU64 u then .ugt else .sgt)
    cases hu : isU64 t || isU64 u <;> simpa [hu, opcode, decided, Op.opcode?] using h
  case h_3 =>
    have h := hmade (if isU64 t || isU64 u then .ule else .sle)
    cases hu : isU64 t || isU64 u <;> simpa [hu, opcode, decided, Op.opcode?] using h
  case h_4 =>
    have h := hmade (if isU64 t || isU64 u then .uge else .sge)
    cases hu : isU64 t || isU64 u <;> simpa [hu, opcode, decided, Op.opcode?] using h
  case h_5 => exact hmade .eq
  case h_6 => exact hmade .ne
  case h_7 h₁ h₂ h₃ h₄ h₅ h₆ =>
    simp only [List.mem_cons, List.not_mem_nil, or_false] at hop
    rcases hop with rfl | rfl | rfl | rfl | rfl | rfl <;> contradiction

end Hlang.Codegen
