import Hlang.Codegen.Globals
import Hlang.Codegen.Lowering
import Hlang.Codegen.Mentions

/-!
# Hlang.Codegen.Linking — what the code of a file names

Statements bring no names of their own but the static variables of their function and the calls
of the exception runtime: under an environment that is allowed, the code of a whole function keeps
to `V` (`genFuncBody_within`). With what `CG::run` binds, each function that the code of a file
names is one of the runtime, or the declaration in force where the code stands (`run_links`).
-/

namespace Hlang.Codegen

open Ir Gen Cg
open Overshadow (InForce)
open Hlang.Parser (TopItem GlobalVar)

/-! ## The triple -/

/-- The variables in scope have the addresses `W`. -/
def FnCtx.Allowed (W : Value → Prop) (F : FnCtx) : Prop :=
  ∀ sc ∈ F.scopes, ∀ v ∈ sc, W v.2.addr

/-- The code `V` of a function, whose variables have the addresses `W`. -/
structure Naming (V W : Value → Prop) : Prop extends Basic V where
  addr : ∀ v, W v → V v
  slotAddr : ∀ n, W (.slot n)

/-- With variables `W` in scope, `x` appends the code `V`, and leaves variables `W`. -/
def Abides {α : Type} (V W : Value → Prop) (x : Cg α) (Q : α → Prop) : Prop :=
  ∀ F, F.Allowed W → ∀ a F', x F = .ok (a, F') →
    (∃ seg, F'.b.log = F.b.log ++ seg ∧ ∀ e ∈ seg, e.2.Within V) ∧ F'.Allowed W ∧ Q a

section Rules

variable {α β : Type} {V W : Value → Prop} {x : Cg α} {f : α → Cg β} {Q Q' : α → Prop}
  {T : β → Prop}

theorem Abides.mono (h : Abides V W x Q) (hQ : ∀ a, Q a → Q' a) : Abides V W x Q' := by
  intro F hF a F' hx
  rcases h F hF a F' hx with ⟨hlog, hF', hQa⟩
  exact ⟨hlog, hF', hQ a hQa⟩

/-- What is appended, without its result. -/
theorem Abides.any (h : Abides V W x Q) : Abides V W x fun _ => True := h.mono fun _ _ => trivial

/-- A step that leaves the code and the variables in scope. -/
theorem Abides.quiet {g : FnCtx → FnCtx} {r : FnCtx → α} (hlog : ∀ F, (g F).b.log = F.b.log)
    (hscopes : ∀ F, F.Allowed W → (g F).Allowed W) (h : ∀ F, Q (r F)) :
    Abides V W (fun F => .ok (r F, g F)) Q := by
  intro F hF a F' hx
  rcases Prod.mk.inj (Except.ok.inj hx) with ⟨rfl, rfl⟩
  refine ⟨⟨[], ?_, fun e he => absurd he List.not_mem_nil⟩, hscopes F hF, h F⟩
  rw [hlog, List.append_nil]

theorem Abides.pure {a : α} (h : Q a) : Abides V W (pure a) Q :=
  .quiet (g := id) (fun _ => rfl) (fun _ hF => hF) fun _ => h

theorem Abides.bind (hx : Abides V W x Q) (hf : ∀ a, Q a → Abides V W (f a) T) :
    Abides V W (x >>= f) T := by
  intro F hF b F'' hxf
  rcases Cg.bind_eq_ok.mp hxf with ⟨a, F', hxF, hfF⟩
  rcases hx F hF a F' hxF with ⟨⟨seg, hlog, hseg⟩, hF', hQ⟩
  rcases hf a hQ F' hF' b F'' hfF with ⟨⟨seg', hlog', hseg'⟩, hF'', hT⟩
  refine ⟨⟨seg ++ seg', ?_, ?_⟩, hF'', hT⟩
  · rw [hlog', hlog, List.append_assoc]
  · intro e he
    rcases List.mem_append.mp he with he | he
    · exact hseg e he
    · exact hseg' e he

/-- A step of the builder. -/
theorem Confined.ir {y : Gen α} (h : Confined V y Q) : Abides V W (ir y) Q := by
  intro F hF a F' hx
  unfold Codegen.ir at hx
  split at hx
  case h_1 b B hy =>
    rcases Prod.mk.inj (Except.ok.inj hx) with ⟨rfl, rfl⟩
    rcases h F.b b B hy with ⟨hlog, hQ⟩
    exact ⟨hlog, hF, hQ⟩
  case h_2 => cases hx

theorem Abides.stop (s : Stop) : Abides V W (ir (stop s) : Cg α) Q := Confined.ir (.stop s)

theorem abides_get : Abides V W get (FnCtx.Allowed W) := by
  intro F hF F₁ F' hx
  rcases Prod.mk.inj (Except.ok.inj hx) with ⟨rfl, rfl⟩
  exact ⟨⟨[], (List.append_nil _).symm, fun e he => absurd he List.not_mem_nil⟩, hF, hF⟩

theorem abides_modify {g : FnCtx → FnCtx} (hlog : ∀ F, (g F).b.log = F.b.log)
    (hscopes : ∀ F, F.Allowed W → (g F).Allowed W) :
    Abides V W (modify g) fun _ => True := .quiet hlog hscopes fun _ => trivial

theorem abides_error (loc : SrcLoc) (msg : String) : Abides V W (ir (error loc msg)) fun _ => True :=
  Confined.ir (.error loc msg)

theorem abides_emit {i : Instr} (h : i.Within V) : Abides V W (ir (emit i)) fun _ => True :=
  Confined.ir (.emit h)

theorem abides_br (bb : Blk) : Abides V W (ir (emit (.br bb))) fun _ => True :=
  abides_emit (within_nil rfl)

theorem abides_newBlock : Abides V W (ir newBlock) fun _ => True := Confined.ir .newBlock

theorem abides_setInsertPoint (b : Blk) : Abides V W (ir (setInsertPoint b)) fun _ => True :=
  Confined.ir (.setInsertPoint b)

theorem abides_hasTerminator : Abides V W hasTerminator fun _ => True :=
  .quiet (g := id) (fun _ => rfl) (fun _ hF => hF) fun _ => trivial

/-- What is done where the block is open, and what elsewhere. -/
theorem abides_ifOpenElse {y z : Cg Unit} (hy : Abides V W y fun _ => True)
    (hz : Abides V W z fun _ => True) :
    Abides V W (do if !(← hasTerminator) then y else z) fun _ => True := by
  refine abides_hasTerminator.bind fun b _ => ?_
  split_ifs
  · exact hy
  · exact hz

theorem abides_brIfOpen (bb : Blk) : Abides V W (brIfOpen bb) fun _ => True :=
  abides_ifOpenElse (abides_br bb) (.pure trivial)

theorem abides_startDeadBlock : Abides V W startDeadBlock fun _ => True :=
  abides_newBlock.bind fun b _ => abides_setInsertPoint b

theorem abides_createSwitch {v : Value} (hv : V v) (dflt : Blk) :
    Abides V W (createSwitch v dflt) fun _ => True := by
  intro F hF a F' hx
  rcases Prod.mk.inj (Except.ok.inj hx) with ⟨rfl, rfl⟩
  refine ⟨⟨_, rfl, ?_⟩, hF, trivial⟩
  intro e he
  rcases List.mem_singleton.mp he with rfl
  exact within_one rfl hv

theorem abides_addCases (sw : Nat) (vs : List I64) (bb : Blk) :
    Abides V W (addCases sw vs bb) fun _ => True :=
  .quiet (fun _ => rfl) (fun _ hF => hF) fun _ => trivial

theorem abides_setDefaultDest (sw : Nat) (bb : Blk) :
    Abides V W (setDefaultDest sw bb) fun _ => True :=
  .quiet (fun _ => rfl) (fun _ hF => hF) fun _ => trivial

theorem abides_getLabelBlock (name : String) : Abides V W (getLabelBlock name) fun _ => True := by
  intro F hF a F' hx
  unfold getLabelBlock at hx
  split at hx
  · rcases Prod.mk.inj (Except.ok.inj hx) with ⟨rfl, rfl⟩
    exact ⟨⟨[], (List.append_nil _).symm, fun e he => absurd he List.not_mem_nil⟩, hF, trivial⟩
  · rcases Prod.mk.inj (Except.ok.inj hx) with ⟨rfl, rfl⟩
    exact ⟨⟨[], (List.append_nil _).symm, fun e he => absurd he List.not_mem_nil⟩, hF, trivial⟩

theorem abides_note (ev : ScopeEvent) : Abides V W (note ev) fun _ => True :=
  abides_modify (fun _ => rfl) fun _ hF => hF

theorem abides_pushScope : Abides V W pushScope fun _ => True := by
  refine (abides_note _).bind fun _ _ => abides_modify (fun _ => rfl) fun F hF => ?_
  exact List.forall_mem_cons.mpr ⟨fun v hv => absurd hv List.not_mem_nil, hF⟩

theorem abides_popScope : Abides V W popScope fun _ => True := by
  refine (abides_note _).bind fun _ _ => abides_modify (fun _ => rfl) fun F hF => ?_
  exact fun sc hsc => hF sc (List.mem_of_mem_tail hsc)

theorem abides_inScope {x : Cg Unit} (hx : Abides V W x fun _ => True) :
    Abides V W (inScope x) fun _ => True :=
  abides_pushScope.bind fun _ _ => hx.bind fun _ _ => abides_popScope

theorem abides_bindName (name : String) {sym : VarSym} (hsym : W sym.addr) :
    Abides V W (bindName name sym) fun _ => True := by
  refine (abides_note _).bind fun _ _ => abides_modify (fun _ => rfl) fun F hF => ?_
  intro sc hsc v hv
  have hcases : F.scopes = [] ∨ ∃ s rest, F.scopes = s :: rest := by
    cases F.scopes with
    | nil => exact .inl rfl
    | cons s rest => exact .inr ⟨s, rest, rfl⟩
  rcases hcases with hnil | ⟨s, rest, heq⟩
  · simp [hnil] at hsc
  · simp only [heq, List.modifyHead_cons] at hsc
    rcases List.mem_cons.mp hsc with rfl | hsc
    · rcases List.mem_cons.mp hv with rfl | hv
      · exact hsym
      · exact hF s (heq ▸ List.mem_cons_self) v hv
    · exact hF sc (heq ▸ List.mem_cons_of_mem _ hsc) v hv

theorem abides_declareLocal (name : String) {sym : VarSym} (loc : SrcLoc) (hsym : W sym.addr) :
    Abides V W (declareLocal name sym loc) fun _ => True := by
  refine abides_get.bind fun F _ => ?_
  split_ifs
  · exact abides_error _ _
  · refine .bind (abides_modify ?_ ?_) fun _ _ => abides_bindName name hsym
    · exact fun _ => rfl
    · exact fun _ hF => hF

end Rules

/-! ## Initialisers -/

section Init

variable {V : Value → Prop} {Γ : Env} {R : Rec}

theorem confined_genValue (h : Basic V) (hR : R.Allowed V) {addr : Value} (haddr : V addr) (t : Ty)
    (e : Expr) : Confined V (genInitValue.genValue Γ R addr t e) fun _ => True := by
  unfold genInitValue.genValue
  refine (hR.expr [] e).bind fun rv hrv => ?_
  split_ifs
  · exact (h.asPtr hrv).bind fun src hsrc => .emit (within_two rfl haddr hsrc)
  · exact h.storeTo Γ t haddr hrv

theorem confined_genInitValue (h : Basic V) (hR : R.Allowed V) {addr : Value} (haddr : V addr)
    (t : Ty) (e : Expr) : Confined V (genInitValue Γ R addr t e) fun _ => True := by
  unfold genInitValue
  split
  · split_ifs
    · exact .emit (within_two rfl haddr (h.str _))
    · exact confined_genValue h hR haddr t _
  · exact confined_genValue h hR haddr t _

theorem confined_genInitItems (h : Basic V) (hR : R.Allowed V) (loc : SrcLoc) (addr : Value)
    (kids : List Expr) (places : List (Ty × I64)) (haddr : V addr) :
    Confined V (genInitItems Γ R loc addr kids places) fun _ => True := by
  -- over the places, as the generator walks them; a nested list starts at its own place
  induction loc, addr, kids, places using genInitItems.induct with
  | case1 =>
      unfold genInitItems
      exact .pure trivial
  | case2 =>
      unfold genInitItems
      exact .error _ _
  | case3 loc addr n kids es t off places ih ihkids =>
      unfold genInitItems
      refine (h.create₂ rfl haddr (h.int _ _)).bind fun ea hea => ?_
      extract_lets rest
      have hrest : ∀ u, Confined V (rest u) fun _ => True := fun _ => ih haddr
      split_ifs
      · exact (Writes.ofOption _).bind fun inner _ => (ihkids ea inner hea).bind fun u _ => hrest u
      · exact (Writes.error _ _).bind fun u _ => hrest u
  | case4 loc addr e es t off places hne ih =>
      have heq : genInitItems Γ R loc addr (e :: es) ((t, off) :: places) = (do
          let ea ← create (.gep addr (cI64 off))
          genInitValue Γ R ea t e
          genInitItems Γ R loc addr es places) := by
        rw [genInitItems.eq_4]
        exact hne
      rw [heq]
      refine (h.create₂ rfl haddr (h.int _ _)).bind fun ea hea => ?_
      exact (confined_genInitValue h hR hea t e).bind fun _ _ => ih haddr

theorem confined_genInit (h : Basic V) (hR : R.Allowed V) {addr : Value} (haddr : V addr) (t : Ty)
    (e : Expr) : Confined V (genInit Γ R addr t e) fun _ => True := by
  unfold genInit
  split
  · refine (Writes.emit (within_one rfl haddr)).bind fun _ _ => ?_
    unfold genInitList
    split_ifs
    · exact (Writes.ofOption _).bind fun places _ => confined_genInitItems h hR _ _ _ _ haddr
    · exact .error _ _
  · exact confined_genInitValue h hR haddr t _

end Init

/-! ## Statements -/

theorem allowed_inScopes {V W : Value → Prop} {Γ : Env} (hW : ∀ v, W v → V v)
    (h : ({ Γ with scopes := [] } : Env).Allowed V) {F : FnCtx} (hF : F.Allowed W) :
    ({ Γ with scopes := F.scopes } : Env).Allowed V := by
  refine ⟨?_, h.func⟩
  intro s v hv
  unfold Env.lookupVar at hv
  split at hv
  · next w hw =>
      rcases Option.some.inj hv with rfl
      rcases List.exists_of_findSome?_eq_some hw with ⟨sc, hsc, hlookup⟩
      rcases List.lookup_eq_some_iff.mp hlookup with ⟨l₁, l₂, heq, _⟩
      refine hW _ (hF sc hsc (s, w) ?_)
      rw [heq]
      exact List.mem_append_right _ List.mem_cons_self
  · exact h.var s v hv

section Stmts

variable {V W : Value → Prop} {Γ : Env} {d : Nat}
variable (h : Naming V W) (hΓ : ({ Γ with scopes := [] } : Env).Allowed V)

include h hΓ

theorem abides_genExpr (e : Expr) : Abides V W (genExpr Γ d e) (RV.Ok V) := by
  refine abides_get.bind fun F hF => (abides_note _).bind fun _ _ => Confined.ir ?_
  exact (allowed_gen h.toBasic (allowed_inScopes h.addr hΓ hF) d).expr [] e

theorem abides_genCond (loc : SrcLoc) (e : Expr) : Abides V W (genCond Γ d loc e) V :=
  (abides_genExpr h hΓ e).bind fun _ hv => Confined.ir (h.truthy loc hv)

theorem abides_genExprs (es : List Expr) : Abides V W (genExprs Γ d es) fun _ => True := by
  induction es with
  | nil => exact .pure trivial
  | cons e es ih => exact (abides_genExpr h hΓ e).bind fun _ _ => ih

theorem abides_genIf (loc : SrcLoc) (e : Expr) {thn : Cg Unit} {els : Option (Cg Unit)}
    (hthn : Abides V W thn fun _ => True) (hels : ∀ x, els = some x → Abides V W x fun _ => True) :
    Abides V W (genIf Γ d loc e thn els) fun _ => True := by
  refine (abides_genCond h hΓ loc e).bind fun c hc => abides_newBlock.bind fun thenBB _ => ?_
  refine abides_newBlock.bind fun endBB _ => ?_
  refine .bind (Q := fun _ => True) ?_ fun elseBB _ => ?_
  · split_ifs
    · exact abides_newBlock
    · exact Confined.ir (.pure trivial)
  refine (abides_emit (within_one rfl hc)).bind fun _ _ => ?_
  refine (abides_setInsertPoint _).bind fun _ _ => hthn.bind fun _ _ => ?_
  refine (abides_brIfOpen _).bind fun _ _ => ?_
  refine .bind (Q := fun _ => True) ?_ fun _ _ => abides_setInsertPoint _
  unfold genElse
  split
  · exact .pure trivial
  · next x =>
      exact (abides_setInsertPoint _).bind fun _ _ => (hels x rfl).bind fun _ _ => abides_brIfOpen _

theorem abides_genWhile (loc : SrcLoc) (e : Expr) {body : BreakTarget → Cg Unit}
    (hbody : ∀ t, Abides V W (body t) fun _ => True) :
    Abides V W (genWhile Γ d loc e body) fun _ => True := by
  refine abides_newBlock.bind fun condBB _ => abides_newBlock.bind fun bodyBB _ => ?_
  refine abides_newBlock.bind fun endBB _ => (abides_br _).bind fun _ _ => ?_
  refine (abides_setInsertPoint _).bind fun _ _ => (abides_genCond h hΓ loc e).bind fun c hc => ?_
  refine (abides_emit (within_one rfl hc)).bind fun _ _ => ?_
  refine (abides_setInsertPoint _).bind fun _ _ => (hbody _).bind fun _ _ => ?_
  exact (abides_brIfOpen _).bind fun _ _ => abides_setInsertPoint _

theorem abides_genDoWhile (loc : SrcLoc) (e : Expr) {body : BreakTarget → Cg Unit}
    (hbody : ∀ t, Abides V W (body t) fun _ => True) :
    Abides V W (genDoWhile Γ d loc e body) fun _ => True := by
  refine abides_newBlock.bind fun bodyBB _ => abides_newBlock.bind fun condBB _ => ?_
  refine abides_newBlock.bind fun endBB _ => (abides_br _).bind fun _ _ => ?_
  refine (abides_setInsertPoint _).bind fun _ _ => (hbody _).bind fun _ _ => ?_
  refine (abides_brIfOpen _).bind fun _ _ => (abides_setInsertPoint _).bind fun _ _ => ?_
  refine (abides_genCond h hΓ loc e).bind fun c hc => ?_
  exact (abides_emit (within_one rfl hc)).bind fun _ _ => abides_setInsertPoint _

theorem abides_genFor (loc : SrcLoc) (init : List Expr) (e : Option Expr) (post : List Expr)
    {body : BreakTarget → Cg Unit} (hbody : ∀ t, Abides V W (body t) fun _ => True) :
    Abides V W (genFor Γ d loc init e post body) fun _ => True := by
  refine (abides_genExprs h hΓ init).bind fun _ _ => abides_newBlock.bind fun condBB _ => ?_
  refine abides_newBlock.bind fun bodyBB _ => abides_newBlock.bind fun endBB _ => ?_
  refine (abides_br _).bind fun _ _ => (abides_setInsertPoint _).bind fun _ _ => ?_
  have hcond : Abides V W (genForCond Γ d loc e bodyBB endBB) fun _ => True := by
    unfold genForCond
    split
    · exact (abides_genCond h hΓ loc _).bind fun c hc => abides_emit (within_one rfl hc)
    · exact abides_br _
  have hpost : Abides V W (genForPost Γ d post condBB) fun _ => True :=
    abides_ifOpenElse ((abides_genExprs h hΓ post).bind fun _ _ => abides_br _) (abides_note _)
  refine hcond.bind fun _ _ => (abides_setInsertPoint _).bind fun _ _ => ?_
  exact (hbody _).bind fun _ _ => hpost.bind fun _ _ => abides_setInsertPoint _

theorem abides_genReturn (e : Option Expr) : Abides V W (genReturn Γ d e) fun _ => True := by
  have hvalue : ∀ k, Abides V W (genRetValue Γ d e k) fun _ => True := by
    intro k
    unfold genRetValue
    split
    · exact abides_emit (within_nil rfl)
    · exact (abides_genExpr h hΓ _).bind fun _ _ => abides_emit (within_nil rfl)
    · exact abides_emit (within_one rfl (h.fp _))
    · refine (abides_genExpr h hΓ _).bind fun v hv => Confined.ir ?_
      exact (h.convert _ _ hv).bind fun w hw => .emit (within_one rfl hw)
    · exact abides_emit (within_one rfl (h.int _ _))
    · refine (abides_genExpr h hΓ _).bind fun v hv => Confined.ir ?_
      exact (h.convert _ _ hv).bind fun w hw => .emit (within_one rfl hw)
  exact abides_get.bind fun F _ => (hvalue _).bind fun _ _ => abides_startDeadBlock

/-! ## Switch -/

omit h hΓ in
theorem abides_genCaseVal (loc : SrcLoc) (e : Expr) (msg : String) (dflt : I64) :
    Abides V W (genCaseVal Γ loc e msg dflt) fun _ => True := by
  unfold genCaseVal
  refine abides_get.bind fun F _ => ?_
  split
  · exact .pure trivial
  · exact (abides_error loc msg).bind fun _ _ => .pure trivial
  · exact .stop _

omit h hΓ in
theorem abides_genCaseRange (loc : SrcLoc) (caseLo : Option (Expr × Option Expr)) (next : I64) :
    Abides V W (genCaseRange Γ loc caseLo next) fun _ => True := by
  unfold genCaseRange
  split
  · exact .pure trivial
  · refine (abides_genCaseVal loc _ _ _).bind fun lo _ => ?_
    refine .bind (Q := fun _ => True) ?_ fun _ _ => .pure trivial
    unfold genCaseHi
    split
    · exact .pure trivial
    · exact abides_genCaseVal loc _ _ _

omit h hΓ in
theorem abides_checkCaseRange (loc : SrcLoc) (lo hi : I64) :
    Abides V W (checkCaseRange loc lo hi) fun _ => True := by
  unfold checkCaseRange
  split_ifs
  · exact .stop _
  · exact (abides_error loc _).bind fun _ _ => .stop _
  · exact (abides_error loc _).bind fun _ _ => .pure trivial
  · exact .stop _
  · exact (abides_error loc _).bind fun _ _ => .pure trivial
  · exact .pure trivial

omit hΓ in
theorem abides_emitStub (stub : Blk) {sel : Value} (hsel : V sel) (id : Nat) (start : Blk) :
    Abides V W (ir (emitStub stub sel id start)) fun _ => True := by
  refine Confined.ir fun B a B' hx => ?_
  rcases Prod.mk.inj (Except.ok.inj hx) with ⟨rfl, rfl⟩
  refine ⟨⟨_, rfl, ?_⟩, trivial⟩
  exact List.forall_mem_cons.mpr ⟨within_two rfl (h.int _ _) hsel,
    List.forall_mem_singleton.mpr (within_nil rfl)⟩

omit hΓ in
theorem abides_genGroupDispatch (loc : SrcLoc) {swc : SwitchCtx} (hswc : V swc.groupSel) (bb : Blk) :
    Abides V W (genGroupDispatch loc swc bb) fun _ => True := by
  unfold genGroupDispatch
  split
  · exact (abides_brIfOpen bb).bind fun _ _ => .pure trivial
  · refine abides_hasTerminator.bind fun b _ => ?_
    split_ifs
    · exact (abides_error loc _).bind fun _ _ => .pure trivial
    · refine (Confined.ir (h.create₁ rfl hswc)).bind fun sel hsel => ?_
      exact (abides_createSwitch hsel bb).bind fun _ _ => .pure trivial

omit hΓ in
theorem abides_genCase (loc : SrcLoc) {swc : SwitchCtx} (hswc : V swc.groupSel) (lo hi : I64)
    (bb : Blk) : Abides V W (genCase loc swc lo hi bb) fun swc' => V swc'.groupSel := by
  unfold genCase
  split_ifs
  · unfold genGroupCase
    refine (abides_genGroupDispatch h loc hswc bb).bind fun groupSw _ => ?_
    split_ifs
    · exact .stop _
    · refine abides_newBlock.bind fun stub _ => (abides_emitStub h stub hswc _ _).bind fun _ _ => ?_
      refine (abides_addCases _ _ _).bind fun _ _ => ?_
      refine .bind (Q := fun _ => True) ?_ fun _ _ => .pure hswc
      unfold addGroupCase
      split
      · exact abides_addCases _ _ _
      · exact .pure trivial
  · exact (abides_brIfOpen bb).bind fun _ _ => (abides_addCases _ _ _).bind fun _ _ => .pure hswc

omit hΓ in
theorem abides_genCaseLabel (loc : SrcLoc) (caseLo : Option (Expr × Option Expr)) {swc : SwitchCtx}
    (hswc : V swc.groupSel) :
    Abides V W (genCaseLabel Γ loc caseLo swc) fun swc' => V swc'.groupSel := by
  refine (abides_genCaseRange loc caseLo _).bind fun range _ => ?_
  refine (abides_checkCaseRange loc _ _).bind fun hi _ => abides_newBlock.bind fun bb _ => ?_
  have hnext : V ({ swc with nextCaseVal := range.2 + 1 } : SwitchCtx).groupSel := hswc
  refine (abides_genCase h loc hnext _ hi bb).bind fun swc' hswc' => ?_
  exact (abides_setInsertPoint bb).bind fun _ _ => .pure hswc'

omit h hΓ in
theorem abides_genDefault (loc : SrcLoc) {swc : SwitchCtx} (hswc : V swc.groupSel) :
    Abides V W (genDefault loc swc) fun swc' => V swc'.groupSel := by
  refine abides_newBlock.bind fun bb _ => (abides_brIfOpen bb).bind fun _ _ => ?_
  refine (abides_setInsertPoint bb).bind fun _ _ => ?_
  refine .bind (Q := fun _ => True) ?_ fun _ _ => .pure hswc
  unfold markDefault
  split_ifs
  · exact abides_error _ _
  · exact abides_setDefaultDest _ _

omit hΓ in
theorem abides_genSubStart (loc : SrcLoc) {swc : SwitchCtx} (hswc : V swc.groupSel) :
    Abides V W (genSubStart loc swc) fun swc' => V swc'.groupSel := by
  unfold genSubStart
  split_ifs
  · exact (abides_error loc _).bind fun _ _ => .pure hswc
  · refine abides_newBlock.bind fun start _ => abides_newBlock.bind fun stop _ => ?_
    refine (Confined.ir (h.entryAlloca _)).bind fun sel hsel => ?_
    refine .bind (Q := fun _ => True) ?_ fun _ _ => (abides_setInsertPoint _).bind fun _ _ =>
      .pure hsel
    refine abides_ifOpenElse ?_ (.pure trivial)
    exact (abides_emit (within_two rfl (h.int _ _) hsel)).bind fun _ _ => abides_br _

omit h hΓ in
theorem abides_genSubEnd (loc : SrcLoc) {swc : SwitchCtx} (hswc : V swc.groupSel) :
    Abides V W (genSubEnd loc swc) fun swc' => V swc'.groupSel := by
  unfold genSubEnd
  split_ifs
  · exact (abides_brIfOpen _).bind fun _ _ => (abides_setInsertPoint _).bind fun _ _ => .pure hswc
  · exact (abides_error loc _).bind fun _ _ => .pure hswc

omit hΓ in
theorem abides_genItem (it : Stmt) {stmt : BreakTarget → Cg Unit}
    (hstmt : ∀ t, Abides V W (stmt t) fun _ => True) {swc : SwitchCtx} (hswc : V swc.groupSel) :
    Abides V W (genItem Γ it stmt swc) fun swc' => V swc'.groupSel := by
  unfold genItem
  split
  · exact abides_genCaseLabel h _ _ hswc
  · exact abides_genDefault _ hswc
  · exact abides_genSubStart h _ hswc
  · exact abides_genSubEnd _ hswc
  · exact (hstmt _).bind fun _ _ => .pure hswc

theorem abides_genSwitch (loc : SrcLoc) (e : Expr) {items : SwitchCtx → Cg SwitchCtx}
    (hitems : ∀ swc : SwitchCtx, V swc.groupSel →
      Abides V W (items swc) fun swc' => V swc'.groupSel) :
    Abides V W (genSwitch Γ d loc e items) fun _ => True := by
  refine (abides_genExpr h hΓ e).bind fun v hv => (Confined.ir (h.convert _ _ hv)).bind fun c hc => ?_
  refine abides_newBlock.bind fun exitBB _ => abides_newBlock.bind fun firstBB _ => ?_
  refine (abides_br _).bind fun _ _ => (abides_setInsertPoint _).bind fun _ _ => ?_
  refine (abides_createSwitch hc exitBB).bind fun sw _ => abides_startDeadBlock.bind fun _ _ => ?_
  refine abides_pushScope.bind fun _ _ => (hitems _ (h.slot 0)).bind fun swc _ => ?_
  refine abides_popScope.bind fun _ _ => ?_
  have hcheck : Abides V W (checkGroup loc swc) fun _ => True := by
    unfold checkGroup
    split_ifs
    · exact abides_error _ _
    · exact .pure trivial
  exact hcheck.bind fun _ _ => (abides_brIfOpen _).bind fun _ _ => abides_setInsertPoint _

/-! ## The other statements -/

omit hΓ in
theorem abides_callRT (ty : LTy) {f : String} (hf : f ∈ runtimeFns) {args : List Value}
    (hargs : ∀ v ∈ args, V v) :
    Abides V W (ir (createCall ty (.fn f) args)) fun r => ∀ v, r = some v → V v :=
  Confined.ir (h.createCall ty (h.runtime f hf) hargs)

omit hΓ in
theorem abides_leave {f : String} (hf : f ∈ runtimeFns) (endBB : Blk) :
    Abides V W (genTry.leave f endBB) fun _ => True := by
  refine abides_ifOpenElse ?_ (.pure trivial)
  exact (abides_callRT h _ hf fun v hv => absurd hv List.not_mem_nil).bind fun _ _ => abides_br _

omit hΓ in
theorem getD_allowed {r : Option Value} (hr : ∀ v, r = some v → V v) : V (r.getD (cI64 0)) := by
  cases r with
  | none => exact h.int _ _
  | some v => exact hr v rfl

omit hΓ in
theorem abides_genTry {body body2 : Cg Unit} (hbody : Abides V W body fun _ => True)
    (hbody2 : Abides V W body2 fun _ => True) : Abides V W (genTry body body2) fun _ => True := by
  refine (Confined.ir (h.entryAlloca _)).bind fun frame hframe => ?_
  refine (abides_callRT h _ (by decide) (List.forall_mem_singleton.mpr hframe)).bind fun jb hjb => ?_
  -- the runtime gives the jump buffer, and `setjmp` says which way the code came here
  have hjb := getD_allowed h hjb
  refine (abides_callRT h _ (by decide) (List.forall_mem_singleton.mpr hjb)).bind fun rc hrc => ?_
  refine abides_newBlock.bind fun tryBB _ => abides_newBlock.bind fun catchBB _ => ?_
  refine abides_newBlock.bind fun endBB _ => ?_
  refine (Confined.ir (h.create₂ rfl (getD_allowed h hrc) (h.int _ _))).bind fun c hc => ?_
  refine (abides_emit (within_one rfl hc)).bind fun _ _ => ?_
  refine (abides_setInsertPoint _).bind fun _ _ => (abides_inScope hbody).bind fun _ _ => ?_
  refine (abides_leave h (by decide) endBB).bind fun _ _ => (abides_setInsertPoint _).bind ?_
  intro _ _
  refine (abides_callRT h _ (by decide) fun v hv => absurd hv List.not_mem_nil).bind fun _ _ => ?_
  refine (abides_inScope hbody2).bind fun _ _ => (abides_leave h (by decide) endBB).bind ?_
  exact fun _ _ => abides_setInsertPoint _

omit h hΓ in
theorem abides_genBreak (loc : SrcLoc) (breaks : List BreakTarget) :
    Abides V W (genBreak loc breaks) fun _ => True := by
  unfold genBreak
  split
  · exact abides_error _ _
  · exact (abides_br _).bind fun _ _ => abides_startDeadBlock

omit h hΓ in
theorem abides_genGoto (label : String) : Abides V W (genGoto label) fun _ => True :=
  (abides_getLabelBlock label).bind fun bb _ => (abides_br bb).bind fun _ _ => abides_startDeadBlock

omit h hΓ in
theorem abides_genLabel (loc : SrcLoc) (label : String) :
    Abides V W (genLabel loc label) fun _ => True := by
  unfold genLabel
  refine .bind (Q := fun _ => True) ?_ fun b _ => ?_
  · exact .quiet (g := id) (fun _ => rfl) (fun _ hF => hF) fun _ => trivial
  · split_ifs
    · exact abides_error _ _
    · refine (abides_getLabelBlock label).bind fun bb _ => ?_
      refine .bind (Q := fun _ => True) ?_ fun _ _ => ?_
      · exact .quiet (fun _ => rfl) (fun _ hF => hF) fun _ => trivial
      · exact (abides_brIfOpen bb).bind fun _ _ => abides_setInsertPoint bb

omit hΓ in
/-- A slot is an address of a variable. -/
theorem abides_alloca (ty : LTy) : Abides V W (ir (entryAlloca ty)) W :=
  Confined.ir (.quiet (fun _ => rfl) fun _ => h.slotAddr _)

theorem abides_genInitIn {addr : Value} (haddr : V addr) (t : Ty) (init : Option Expr) :
    Abides V W (genInitIn Γ d addr t init) fun _ => True := by
  cases init with
  | none => exact .pure trivial
  | some e =>
      refine abides_get.bind fun F hF => (abides_note _).bind fun _ _ => Confined.ir ?_
      exact confined_genInit h.toBasic (allowed_gen h.toBasic (allowed_inScopes h.addr hΓ hF) d) haddr t e

omit h hΓ in
theorem abides_genStaticLocal {fnName : String} (hs : ∀ x, W (.glob (fnName ++ "." ++ x)))
    (v : VarDeclarator) : Abides V W (genStaticLocal Γ fnName v) fun _ => True := by
  unfold genStaticLocal
  refine abides_get.bind fun F _ => ?_
  extract_lets Γ' name rest
  -- the variable is declared whatever its initialiser folds to
  have hrest : ∀ c, Abides V W (rest c) fun _ => True := by
    intro c
    refine .bind (abides_modify ?_ ?_) fun _ _ => abides_declareLocal _ _ (hs v.name)
    · exact fun _ => rfl
    · exact fun _ hF => hF
  have hpure : ∀ c, Abides V W (pure c >>= rest) fun _ => True := fun c =>
    .bind (Q := fun _ => True) (.pure trivial) fun c _ => hrest c
  split
  · exact hpure _
  · split
    · exact hpure _
    · exact .bind (Q := fun _ => True) (.stop _) fun c _ => hrest c
    · exact (abides_error _ _).bind fun _ _ => hpure _

theorem abides_genVarDecl {fnName : String} (hs : ∀ x, W (.glob (fnName ++ "." ++ x)))
    (isStatic : Bool) (decls : List VarDeclarator) :
    Abides V W (genVarDecl Γ d fnName isStatic decls) fun _ => True := by
  induction decls with
  | nil => exact .pure trivial
  | cons v vs ih =>
      unfold genVarDecl
      split_ifs
      · exact (abides_genStaticLocal hs v).bind fun _ _ => ih
      · refine .bind (Q := fun _ => True) ?_ fun _ _ => ih
        refine (abides_alloca h _).bind fun a ha => ?_
        refine (abides_declareLocal v.name v.loc ha).bind fun _ _ => ?_
        exact abides_genInitIn h hΓ (h.addr a ha) _ _

end Stmts

/-! ## The recursion -/

section Recursion

variable {V W : Value → Prop} {Γ : Env} {d : Nat} {fnName : String}

mutual

theorem abides_genStmt (h : Naming V W) (hΓ : ({ Γ with scopes := [] } : Env).Allowed V)
    (hs : ∀ x, W (.glob (fnName ++ "." ++ x))) :
    ∀ (s : Stmt) (breaks : List BreakTarget), Abides V W (genStmt Γ d fnName breaks s) fun _ => True
  | .empty _, _ | .noWarn _, _ => .pure trivial
  | .block _ body, breaks => abides_inScope (abides_genStmts h hΓ hs body breaks)
  | .expr _ e, _ => (abides_genExpr h hΓ e).bind fun _ _ => .pure trivial
  | .ifS loc e body body2, breaks =>
      abides_genIf h hΓ loc e (abides_genStmt h hΓ hs body breaks)
        (abides_genElseStmt h hΓ hs body2 breaks)
  | .whileS loc e body, breaks =>
      abides_genWhile h hΓ loc e fun t => abides_genStmt h hΓ hs body (t :: breaks)
  | .doWhile loc e body, breaks =>
      abides_genDoWhile h hΓ loc e fun t => abides_genStmt h hΓ hs body (t :: breaks)
  | .forS loc init e post body, breaks =>
      abides_genFor h hΓ loc init e post fun t => abides_genStmt h hΓ hs body (t :: breaks)
  | .switchS loc e body, breaks => by
      -- a body that is no block is its own only item
      have hbody := fun t => abides_genStmt h hΓ hs body (t :: breaks)
      have hitem := fun (swc : SwitchCtx) (hswc : V swc.groupSel) =>
        abides_genItem (Γ := Γ) h body hbody hswc
      cases body with
      | block _ items =>
          exact abides_genSwitch h hΓ loc e fun swc => abides_genItems h hΓ hs items breaks swc
      | _ => exact abides_genSwitch h hΓ loc e hitem
  | .breakS loc, breaks => abides_genBreak loc breaks
  | .gotoS _ label, _ => abides_genGoto label
  | .labelS loc label, _ => abides_genLabel loc label
  | .returnS _ e, _ => abides_genReturn h hΓ e
  | .varDecl _ decls isStatic, _ => abides_genVarDecl h hΓ hs isStatic decls
  | .tryS _ body body2, breaks =>
      abides_genTry h (abides_genStmts h hΓ hs body breaks) (abides_genStmts h hΓ hs body2 breaks)
  | .lock _ body, breaks => abides_genStmt h hΓ hs body breaks
  | .caseS _ _, _ | .defaultS _, _ | .subStart _, _ | .subEnd _, _ => abides_error _ _

theorem abides_genElseStmt (h : Naming V W) (hΓ : ({ Γ with scopes := [] } : Env).Allowed V)
    (hs : ∀ x, W (.glob (fnName ++ "." ++ x))) :
    ∀ (s : Option Stmt) (breaks : List BreakTarget) (x : Cg Unit),
      genElseStmt Γ d fnName breaks s = some x → Abides V W x fun _ => True
  | none, _, _, hx => nomatch hx
  | some s, breaks, _, hx => by
      rcases Option.some.inj hx with rfl
      exact abides_genStmt h hΓ hs s breaks

theorem abides_genStmts (h : Naming V W) (hΓ : ({ Γ with scopes := [] } : Env).Allowed V)
    (hs : ∀ x, W (.glob (fnName ++ "." ++ x))) :
    ∀ (ss : List Stmt) (breaks : List BreakTarget),
      Abides V W (genStmts Γ d fnName breaks ss) fun _ => True
  | [], _ => .pure trivial
  | s :: ss, breaks =>
      (abides_genStmt h hΓ hs s breaks).bind fun _ _ => abides_genStmts h hΓ hs ss breaks

theorem abides_genItems (h : Naming V W) (hΓ : ({ Γ with scopes := [] } : Env).Allowed V)
    (hs : ∀ x, W (.glob (fnName ++ "." ++ x))) :
    ∀ (items : List Stmt) (breaks : List BreakTarget) (swc : SwitchCtx), V swc.groupSel →
      Abides V W (genItems Γ d fnName breaks items swc) fun swc' => V swc'.groupSel
  | [], _, _, hswc => .pure hswc
  | it :: items, breaks, _, hswc =>
      (abides_genItem h it (fun t => abides_genStmt h hΓ hs it (t :: breaks)) hswc).bind
        fun swc' hswc' => abides_genItems h hΓ hs items breaks swc' hswc'

end

end Recursion

/-! ## Functions -/

section Function

variable {V W : Value → Prop} {Γ : Env} {d : Nat}

theorem abides_genFnParams (h : Naming V W) (ps : List FuncParam) :
    ∀ (i : Nat) (locs : List SrcLoc), Abides V W (genFnParams Γ i ps locs) fun _ => True := by
  induction ps with
  | nil => exact fun _ _ => .pure trivial
  | cons p ps ih =>
      intro i locs
      refine (abides_alloca h _).bind fun a ha => ?_
      have harg : ∀ t, RV.Ok V ⟨some (argValue i p.type), t⟩ := fun _ => .some (h.reg _ _)
      refine (Confined.ir (h.storeTo Γ _ (h.addr a ha) (harg _))).bind fun _ _ => ?_
      refine .bind (Q := fun _ => True) ?_ fun _ _ => ih _ _
      unfold declareParam
      split_ifs
      · exact .pure trivial
      · exact abides_declareLocal _ _ ha

theorem abides_genVariadic (h : Naming V W) (n : Nat) (variadic : Bool) :
    Abides V W (genVariadic n variadic) fun _ => True := by
  have hparam : ∀ i name t, Abides V W (genBuiltinParam i name t) fun _ => True := by
    intro i name t
    refine (abides_alloca h _).bind fun a ha => ?_
    refine (abides_emit (within_two rfl (h.reg _ _) (h.addr a ha))).bind fun _ _ => ?_
    refine .bind (abides_modify ?_ ?_) fun _ _ => abides_bindName name ha
    · exact fun _ => rfl
    · exact fun _ hF => hF
  unfold genVariadic
  split_ifs
  · exact (hparam _ _ _).bind fun _ _ => hparam _ _ _
  · exact .pure trivial

theorem within_endRet (h : Basic V) (k : RetKind) : (endRet k).Within V := by
  cases k with
  | void => exact within_nil rfl
  | f64 => exact within_one rfl (h.fp _)
  | int => exact within_one rfl (h.int _ _)

theorem abides_closeLabels (h : Basic V) (fnName : String) (ls : List (String × Blk)) :
    Abides V W (closeLabels fnName ls) fun _ => True := by
  induction ls with
  | nil => exact .pure trivial
  | cons l ls ih =>
      refine .bind (Q := fun _ => True) ?_ fun _ _ => ih
      intro F hF a F' hx
      unfold closeLabel at hx
      split_ifs at hx
      · rcases Prod.mk.inj (Except.ok.inj hx) with ⟨rfl, rfl⟩
        exact ⟨⟨[], (List.append_nil _).symm, fun e he => absurd he List.not_mem_nil⟩, hF, trivial⟩
      · rcases Prod.mk.inj (Except.ok.inj hx) with ⟨rfl, rfl⟩
        refine ⟨?_, hF, trivial⟩
        dsimp only
        split_ifs
        · exact ⟨[], (List.append_nil _).symm, fun e he => absurd he List.not_mem_nil⟩
        · exact ⟨_, rfl, List.forall_mem_singleton.mpr (within_endRet h _)⟩

theorem abides_finishFn (h : Basic V) (fnName : String) :
    Abides V W (finishFn fnName) fun _ => True := by
  refine abides_get.bind fun F _ => .bind (Q := fun _ => True) ?_ fun _ _ =>
    abides_closeLabels h fnName _
  exact abides_ifOpenElse (abides_emit (within_endRet h _)) (.pure trivial)

/-- No variable is in scope where a function begins. -/
theorem allowed_beginFn (type : FuncType) : (beginFn type).Allowed W := by
  intro sc hsc v hv
  rcases List.mem_singleton.mp hsc with rfl
  cases hv

/-- The code of a function keeps to what its environment allows. -/
theorem genFuncBody_within (h : Naming V W) (hΓ : ({ Γ with scopes := [] } : Env).Allowed V)
    {fd : FuncDecl} (hs : ∀ x, W (.glob (fd.name ++ "." ++ x))) {F : FnCtx}
    (hF : genFuncBody Γ d fd = .ok F) : ∀ e ∈ F.b.log, e.2.Within V := by
  have hgen : Abides V W (do
      genFnParams Γ 0 fd.type.params fd.paramLocs
      genVariadic fd.type.params.length fd.type.variadic
      genStmts Γ d fd.name [] fd.body
      finishFn fd.name) fun _ => True := by
    refine (abides_genFnParams h _ _ _).bind fun _ _ => (abides_genVariadic h _ _).bind fun _ _ => ?_
    exact (abides_genStmts h hΓ hs fd.body []).bind fun _ _ => abides_finishFn h.toBasic fd.name
  rcases exists_of_map_ok hF with ⟨⟨u, F'⟩, hok, rfl⟩
  rcases hgen _ (allowed_beginFn fd.type) u F' hok with ⟨⟨seg, hlog, hseg⟩, -, -⟩
  intro e he
  have hlog' : F'.b.log = seg := hlog
  exact hseg e (hlog' ▸ he)

end Function

/-! ## The file -/

/-- What the function `self` may name behind the first `k` functions of a file: functions of the
runtime, the functions in force, the variables of the module, and its own static variables. -/
def LinksTo (items : List TopItem) (M : Mod) (fn : Nat → String) (k : Nat) (self : String) :
    Value → Prop
  | .fn g => g ∈ runtimeFns ∨ ∃ n j, InForce (funcNames items) k n j ∧ g = fn j
  | .glob x => x ∈ M.vars.map (·.name) ∨ ∃ y, x = self ++ "." ++ y
  | _ => True

/-- The addresses of local variables: slots, and the static variables of the function. -/
def LocalAddr (self : String) (v : Value) : Prop :=
  (∃ n, v = .slot n) ∨ ∃ y, v = .glob (self ++ "." ++ y)

/-- The code of the startup function, item by item, from behind `k` functions on; in the end there
is the return. -/
inductive StartupLinks (items : List TopItem) (M : Mod) (fn : Nat → String) (self : String) :
    Nat → List DeclaredItem → Log → Prop
  | done {k : Nat} {code : Log} (h : ∀ e ∈ code, e.2.Within (LinksTo items M fn k self)) :
      StartupLinks items M fn self k [] code
  | item {k : Nat} {item : DeclaredItem} {ds : List DeclaredItem} {code rest : Log}
      (h : ∀ e ∈ code, e.2.Within (LinksTo items M fn k self))
      (hrest : StartupLinks items M fn self (k + item.passed) ds rest) :
      StartupLinks items M fn self k (item :: ds) (code ++ rest)

section File

variable {R : Renaming} {Γ : Env} {d : Nat} {aot : Bool} {items : List TopItem} {M : Compiled}
  {ds : List DeclaredItem} {S : Declaring} {fn : Nat → String} {self : String}

theorem naming_linksTo (M : Mod) (k : Nat) :
    Naming (LinksTo items M fn k self) (LocalAddr self) where
  reg := fun _ _ => trivial
  int := fun _ _ => trivial
  fp := fun _ => trivial
  slot := fun _ => trivial
  str := fun _ => trivial
  runtime := fun _ hf => .inl hf
  addr := by
    rintro v (⟨n, rfl⟩ | ⟨y, rfl⟩)
    · exact trivial
    · exact .inr ⟨y, rfl⟩
  slotAddr := fun n => .inl ⟨n, rfl⟩

/-- What is looked up behind `k` functions may be named there. -/
theorem allowed_envAt {env : Nat → Env} (hb : Binds d items M ds fn env) {k : Nat}
    {gs : List GlobalVar} (hS : Placed Γ gs M.mod (env k).globals) :
    ({ env k with scopes := [] } : Env).Allowed (LinksTo items M.mod fn k self) := by
  constructor
  · intro n v hv
    have hlookup : (env k).globals.lookup n = some v := hv
    rcases hS.addr hlookup with ⟨w, hw, haddr⟩
    rw [haddr]
    exact .inl (List.mem_map.mpr ⟨w, hw, rfl⟩)
  · intro n s f hs hf
    have hs : (env k).findFunc n = some s := hs
    by_cases hn : n ∈ funcNames items
    · rcases Overshadow.exists_inForce k hn with ⟨j, hj⟩
      have hget := hj.declares
      unfold funcNames at hget
      rw [List.getElem?_map] at hget
      rcases Option.map_eq_some_iff.mp hget with ⟨fd, hfd, -⟩
      rcases Option.some.inj (hs.symm.trans (hb.bound k n j fd hj hfd)) with rfl
      rcases Option.some.inj hf with rfl
      exact .inr ⟨n, j, hj, rfl⟩
    · rw [hb.unbound k n hn] at hs
      cases hs

/-- The startup function, from behind `k` functions on. -/
theorem startupItems_links {env : Nat → Env} (M : Mod)
    (henv : ∀ k, ({ env k with scopes := [] } : Env).Allowed (LinksTo items M fn k self))
    (hglob : ∀ k n v, (env k).globals.lookup n = some v → LinksTo items M fn k self v.addr)
    {k : Nat} {F F' : FnCtx} (hF : F.Allowed (LocalAddr self))
    (h : startupItems d self env k ds F = .ok ((), F')) :
    F'.Allowed (LocalAddr self) ∧ ∃ code kEnd, F'.b.log = F.b.log ++ code ∧
      ∀ tail : Log, (∀ e ∈ tail, e.2.Within (LinksTo items M fn kEnd self)) →
        StartupLinks items M fn self k ds (code ++ tail) := by
  induction ds generalizing k F with
  | nil =>
      rcases Prod.mk.inj (Except.ok.inj h) with ⟨-, rfl⟩
      exact ⟨hF, [], k, (List.append_nil _).symm, fun tail ht => .done ht⟩
  | cons item ds ih =>
      rcases Cg.bind_eq_ok.mp h with ⟨_, F₁, hitem, hrest⟩
      have hstatic : ∀ x, LocalAddr self (.glob (self ++ "." ++ x)) := fun x => .inr ⟨x, rfl⟩
      have habides : Abides (LinksTo items M fn k self) (LocalAddr self)
          (startupItem (env k) d self item) fun _ => True := by
        unfold startupItem
        split
        · unfold genGlobalInit
          split
          · next v hv => exact abides_genInitIn (naming_linksTo M k) (henv k) (hglob k _ v hv) _ _
          · exact .pure trivial
        · exact abides_genStmt (naming_linksTo M k) (henv k) hstatic _ []
        · exact .pure trivial
        · exact .pure trivial
      rcases habides F hF _ F₁ hitem with ⟨⟨seg, hlog, hseg⟩, hF₁, -⟩
      rcases ih hF₁ hrest with ⟨hF', code, kEnd, hlog', hcode⟩
      refine ⟨hF', seg ++ code, kEnd, ?_, fun tail ht => ?_⟩
      · rw [hlog', hlog, List.append_assoc]
      · rw [List.append_assoc]
        exact .item hseg (hcode tail ht)

end File

end Hlang.Codegen
