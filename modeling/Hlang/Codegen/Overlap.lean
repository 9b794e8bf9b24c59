import Hlang.Codegen.CaseRange
import Hlang.Codegen.Switch

/-!
# Hlang.Codegen.Overlap — labels for the same value

A statement leaves the tables of the switches around it alone (`adds_genStmt`). So the table
of a switch has the values of its labels, label after label, and a value is in it twice
exactly if two labels cover it (`genStmt_distinct_iff`).
-/

namespace Hlang.Codegen

open Ir Gen Cg

/-! ## Tables are added -/

/-- Tables are added behind those that are there. -/
def Adds {α : Type} (x : Cg α) : Prop := ∀ F a F', x F = .ok (a, F') → F.tables <+: F'.tables

section Adds

variable {α β : Type} {x : Cg α} {f : α → Cg β} {Γ : Env} {d : Nat}

theorem Adds.bind (hx : Adds x) (hf : ∀ a, Adds (f a)) : Adds (x >>= f) := by
  intro F b F' h
  rcases Cg.bind_eq_ok.mp h with ⟨a, F₁, hxF, hfF⟩
  exact (hx F a F₁ hxF).trans (hf a F₁ b F' hfF)

/-- A change of the other fields. -/
theorem adds_set {g : FnCtx → α × FnCtx} (h : ∀ F, (g F).2.tables = F.tables) :
    Adds fun F => .ok (g F) := by
  intro F a F' hx
  have hF : (g F).2 = F' := congrArg Prod.snd (Except.ok.inj hx)
  rw [← hF, h]

theorem adds_pure (a : α) : Adds (pure a) := adds_set fun _ => rfl

theorem adds_get : Adds get := adds_set fun _ => rfl

theorem adds_note (ev : ScopeEvent) : Adds (note ev) := adds_set fun _ => rfl

theorem adds_hasTerminator : Adds hasTerminator := adds_set fun _ => rfl

theorem tables_ir {x : Gen α} {F F' : FnCtx} {a : α} (h : ir x F = .ok (a, F')) :
    F'.tables = F.tables := by
  unfold ir at h
  split at h
  · rcases Prod.mk.inj (Except.ok.inj h) with ⟨_, rfl⟩
    rfl
  · cases h

theorem adds_ir (x : Gen α) : Adds (ir x) := by
  intro F a F' h
  rw [tables_ir h]

theorem adds_ifOpen {y : Cg Unit} (hy : Adds y) : Adds (do if !(← hasTerminator) then y) := by
  refine adds_hasTerminator.bind fun b => ?_
  split_ifs
  · exact hy
  · exact adds_pure ()

theorem adds_brIfOpen (bb : Blk) : Adds (brIfOpen bb) := adds_ifOpen (adds_ir _)

theorem adds_startDeadBlock : Adds startDeadBlock := (adds_ir _).bind fun _ => adds_ir _

theorem adds_getLabelBlock (name : String) : Adds (getLabelBlock name) := by
  intro F a F' h
  unfold getLabelBlock at h
  split at h
  · rcases Prod.mk.inj (Except.ok.inj h) with ⟨_, rfl⟩
    exact List.prefix_refl _
  · rcases Prod.mk.inj (Except.ok.inj h) with ⟨_, rfl⟩
    exact List.prefix_refl _

theorem adds_inScope {x : Cg Unit} (hx : Adds x) : Adds (inScope x) := by
  have hpush : Adds pushScope := (adds_note _).bind fun _ => adds_set fun _ => rfl
  have hpop : Adds popScope := (adds_note _).bind fun _ => adds_set fun _ => rfl
  exact hpush.bind fun _ => hx.bind fun _ => hpop

theorem adds_declareLocal (name : String) (sym : VarSym) (loc : SrcLoc) :
    Adds (declareLocal name sym loc) := by
  unfold declareLocal
  refine adds_get.bind fun F => ?_
  split_ifs
  · exact adds_ir _
  · refine Adds.bind (adds_set fun _ => rfl) fun _ => ?_
    exact (adds_note _).bind fun _ => adds_set fun _ => rfl

theorem adds_genExpr (e : Expr) : Adds (genExpr Γ d e) :=
  adds_get.bind fun _ => (adds_note _).bind fun _ => adds_ir _

theorem adds_genCond (loc : SrcLoc) (e : Expr) : Adds (genCond Γ d loc e) :=
  (adds_genExpr e).bind fun _ => adds_ir _

/-! ### Statements -/

theorem adds_genIf (loc : SrcLoc) (e : Expr) {thn : Cg Unit} {els : Option (Cg Unit)}
    (hthn : Adds thn) (hels : ∀ x, els = some x → Adds x) : Adds (genIf Γ d loc e thn els) := by
  have helse : ∀ elseBB endBB, Adds (genElse els elseBB endBB) := by
    intro elseBB endBB
    cases els with
    | none => exact adds_pure ()
    | some x => exact (adds_ir _).bind fun _ => (hels x rfl).bind fun _ => adds_brIfOpen _
  unfold genIf
  refine (adds_genCond loc e).bind fun c => (adds_ir _).bind fun thenBB => ?_
  refine (adds_ir _).bind fun endBB => (adds_ir _).bind fun elseBB => (adds_ir _).bind fun _ => ?_
  refine (adds_ir _).bind fun _ => hthn.bind fun _ => (adds_brIfOpen _).bind fun _ => ?_
  exact (helse _ _).bind fun _ => adds_ir _

theorem adds_genWhile (loc : SrcLoc) (e : Expr) {body : BreakTarget → Cg Unit}
    (hbody : ∀ t, Adds (body t)) : Adds (genWhile Γ d loc e body) := by
  unfold genWhile
  refine (adds_ir _).bind fun condBB => (adds_ir _).bind fun bodyBB => (adds_ir _).bind fun _ => ?_
  refine (adds_ir _).bind fun _ => (adds_ir _).bind fun _ => (adds_genCond loc e).bind fun c => ?_
  refine (adds_ir _).bind fun _ => (adds_ir _).bind fun _ => (hbody _).bind fun _ => ?_
  exact (adds_brIfOpen _).bind fun _ => adds_ir _

theorem adds_genDoWhile (loc : SrcLoc) (e : Expr) {body : BreakTarget → Cg Unit}
    (hbody : ∀ t, Adds (body t)) : Adds (genDoWhile Γ d loc e body) := by
  unfold genDoWhile
  refine (adds_ir _).bind fun bodyBB => (adds_ir _).bind fun condBB => (adds_ir _).bind fun _ => ?_
  refine (adds_ir _).bind fun _ => (adds_ir _).bind fun _ => (hbody _).bind fun _ => ?_
  refine (adds_brIfOpen _).bind fun _ => (adds_ir _).bind fun _ => ?_
  exact (adds_genCond loc e).bind fun c => (adds_ir _).bind fun _ => adds_ir _

theorem adds_genExprs (es : List Expr) : Adds (genExprs Γ d es) := by
  induction es with
  | nil => exact adds_pure ()
  | cons e es ih => exact (adds_genExpr e).bind fun _ => ih

theorem adds_genFor (loc : SrcLoc) (init : List Expr) (e : Option Expr) (post : List Expr)
    {body : BreakTarget → Cg Unit} (hbody : ∀ t, Adds (body t)) :
    Adds (genFor Γ d loc init e post body) := by
  have hcond : ∀ bodyBB endBB, Adds (genForCond Γ d loc e bodyBB endBB) := by
    intro bodyBB endBB
    cases e with
    | none => exact adds_ir (emit (.br bodyBB))
    | some e => exact (adds_genCond loc e).bind fun _ => adds_ir _
  have hpost : ∀ condBB, Adds (genForPost Γ d post condBB) := by
    intro condBB
    refine adds_hasTerminator.bind fun b => ?_
    split_ifs
    · exact (adds_genExprs post).bind fun _ => adds_ir _
    · exact adds_note _
  unfold genFor
  refine (adds_genExprs init).bind fun _ => (adds_ir _).bind fun condBB => ?_
  refine (adds_ir _).bind fun bodyBB => (adds_ir _).bind fun endBB => (adds_ir _).bind fun _ => ?_
  refine (adds_ir _).bind fun _ => (hcond _ _).bind fun _ => (adds_ir _).bind fun _ => ?_
  exact (hbody _).bind fun _ => (hpost _).bind fun _ => adds_ir _

theorem adds_genReturn (e : Option Expr) : Adds (genReturn Γ d e) := by
  refine adds_get.bind fun F => Adds.bind ?_ fun _ => adds_startDeadBlock
  unfold genRetValue
  split
  · exact adds_ir _
  · exact (adds_genExpr _).bind fun _ => adds_ir _
  · exact adds_ir _
  · exact (adds_genExpr _).bind fun _ => adds_ir _
  · exact adds_ir _
  · exact (adds_genExpr _).bind fun _ => adds_ir _

theorem adds_genTry {body body2 : Cg Unit} (hbody : Adds body) (hbody2 : Adds body2) :
    Adds (genTry body body2) := by
  have hleave : ∀ f endBB, Adds (genTry.leave f endBB) := fun _ _ =>
    adds_ifOpen ((adds_ir _).bind fun _ => adds_ir _)
  unfold genTry
  refine (adds_ir _).bind fun frame => (adds_ir _).bind fun jb => (adds_ir _).bind fun rc => ?_
  refine (adds_ir _).bind fun tryBB => (adds_ir _).bind fun catchBB => (adds_ir _).bind fun _ => ?_
  refine (adds_ir _).bind fun c => (adds_ir _).bind fun _ => (adds_ir _).bind fun _ => ?_
  refine (adds_inScope hbody).bind fun _ => (hleave _ _).bind fun _ => (adds_ir _).bind fun _ => ?_
  refine (adds_ir _).bind fun _ => (adds_inScope hbody2).bind fun _ => ?_
  exact (hleave _ _).bind fun _ => adds_ir _

theorem adds_genBreak (loc : SrcLoc) (breaks : List BreakTarget) : Adds (genBreak loc breaks) := by
  unfold genBreak
  split
  · exact adds_ir _
  · exact (adds_ir _).bind fun _ => adds_startDeadBlock

theorem adds_genGoto (label : String) : Adds (genGoto label) :=
  (adds_getLabelBlock label).bind fun _ => (adds_ir _).bind fun _ => adds_startDeadBlock

theorem adds_genLabel (loc : SrcLoc) (label : String) : Adds (genLabel loc label) := by
  have hdefined : Adds (isDefined label) := adds_set fun _ => rfl
  refine hdefined.bind fun b => ?_
  split_ifs
  · exact adds_ir _
  · refine (adds_getLabelBlock label).bind fun _ => Adds.bind (adds_set fun _ => rfl) fun _ => ?_
    exact (adds_brIfOpen _).bind fun _ => adds_ir _

theorem adds_genStaticLocal (fnName : String) (v : VarDeclarator) :
    Adds (genStaticLocal Γ fnName v) := by
  unfold genStaticLocal
  refine adds_get.bind fun F => ?_
  extract_lets Γ' name rest
  have hrest : ∀ c, Adds (rest c) := fun c =>
    .bind (adds_set fun _ => rfl) fun _ => adds_declareLocal _ _ _
  split
  · exact (adds_pure _).bind hrest
  · split
    · exact (adds_pure _).bind hrest
    · exact (adds_ir _).bind hrest
    · exact (adds_ir _).bind fun _ => (adds_pure _).bind hrest

theorem adds_genVarDecl (fnName : String) (isStatic : Bool) (decls : List VarDeclarator) :
    Adds (genVarDecl Γ d fnName isStatic decls) := by
  have hinit : ∀ addr t init, Adds (genInitIn Γ d addr t init) := by
    intro addr t init
    cases init with
    | none => exact adds_pure ()
    | some e => exact adds_get.bind fun _ => (adds_note _).bind fun _ => adds_ir _
  have hlocal : ∀ v, Adds (genLocal Γ d v) := fun v =>
    (adds_ir _).bind fun _ => (adds_declareLocal _ _ _).bind fun _ => hinit _ _ _
  induction decls with
  | nil => exact adds_pure ()
  | cons v vs ih =>
      unfold genVarDecl
      split_ifs
      · exact (adds_genStaticLocal fnName v).bind fun _ => ih
      · exact (hlocal v).bind fun _ => ih

/-! ### The items of a switch -/

/-- Of the tables that are there, only that of the switch and that of its group change. -/
structure Apart (swc : SwitchCtx) (F : FnCtx) (swc' : SwitchCtx) (F' : FnCtx) : Prop where
  len : F.tables.length ≤ F'.tables.length
  keep : ∀ n < F.tables.length, n ≠ swc.sw → swc.groupSw ≠ some n → F'.tables[n]? = F.tables[n]?
  group : NewGroup swc swc' F

theorem Apart.trans {swc swc' swc'' : SwitchCtx} {F F' F'' : FnCtx} (h : Apart swc F swc' F')
    (h' : Apart swc' F' swc'' F'') : Apart swc F swc'' F'' where
  len := Nat.le_trans h.len h'.len
  keep := by
    intro n hn hsw hgroup
    rw [h'.keep n (Nat.lt_of_lt_of_le hn h.len), h.keep n hn hsw hgroup]
    · rw [h.group.1]
      exact hsw
    · intro hg
      rcases h.group.2 n hg with hold | hnew
      · exact hgroup hold
      · exact Nat.not_le_of_lt hn hnew
  group := by
    refine ⟨h'.group.1.trans h.group.1, fun n hn => ?_⟩
    rcases h'.group.2 n hn with hold | hnew
    · exact h.group.2 n hold
    · exact .inr (Nat.le_trans h.len hnew)

theorem Onward.apart {S : ScopesIn} {swc swc' : SwitchCtx} {F F' : FnCtx}
    (h : Onward S swc F swc' F') : Apart swc F swc' F' :=
  ⟨h.1.len, h.1.keep, h.2.1⟩

/-- What is behind a list that is kept. -/
theorem Apart.of_added {swc : SwitchCtx} {F F' : FnCtx} (h : F.tables <+: F'.tables) :
    Apart swc F swc F' := by
  refine ⟨h.length_le, fun n hn _ _ => ?_, .refl swc F⟩
  rw [List.prefix_iff_getElem?.mp h n hn, List.getElem?_eq_getElem hn]

/-- The items of a switch leave the tables around it alone. -/
def ApartItems (items : SwitchCtx → Cg SwitchCtx) : Prop :=
  ∀ swc F swc' F', items swc F = .ok (swc', F') → Apart swc F swc' F'

theorem apart_genItem (it : Stmt) {stmt : BreakTarget → Cg Unit} (hstmt : ∀ t, Adds (stmt t)) :
    ApartItems (genItem Γ it stmt) := by
  intro swc F swc' F' hx
  have honward : ∀ {x : Cg SwitchCtx}, Keeps (Onward (fun _ => True) swc F swc) x
      (Onward (fun _ => True) swc F) → x F = .ok (swc', F') → Apart swc F swc' F' :=
    fun hkeeps hx => (hkeeps F (.refl swc F) swc' F' hx).apart
  unfold genItem at hx
  split at hx
  · exact honward (onward_genCaseLabel Γ _ _ swc) hx
  · exact honward (onward_genDefault _ swc) hx
  · exact honward (onward_genSubStart _ swc) hx
  · exact honward (onward_genSubEnd _ swc) hx
  · rcases Cg.bind_eq_ok.mp hx with ⟨_, F₁, hs, hret⟩
    rcases Prod.mk.inj (Except.ok.inj hret) with ⟨rfl, rfl⟩
    exact .of_added (hstmt _ F _ _ hs)

/-- `genSwitch` up to its first item. -/
def beginSwitch (Γ : Env) (d : Nat) (e : Expr) : Cg SwitchCtx := do
  let v ← genExpr Γ d e
  let cond ← ir (convert v .i64 false)
  let exitBB ← ir newBlock
  let firstBB ← ir newBlock
  ir (emit (.br firstBB))
  ir (setInsertPoint firstBB)
  let sw ← createSwitch cond exitBB
  startDeadBlock
  pushScope
  return { sw := sw, exitBB := exitBB }

theorem genSwitch_eq (loc : SrcLoc) (e : Expr) (items : SwitchCtx → Cg SwitchCtx) :
    genSwitch Γ d loc e items = (do
      let swc ← beginSwitch Γ d e
      let swc ← items swc
      popScope
      endSwitch loc swc) := by
  unfold genSwitch beginSwitch
  simp only [bind_assoc, pure_bind]

/-- The switch begins with a table of its own, without values. -/
theorem beginSwitch_eq {e : Expr} {swc : SwitchCtx} {F F₀ : FnCtx}
    (hx : beginSwitch Γ d e F = .ok (swc, F₀)) :
    ∃ exitBB, swc = { sw := F.tables.length, exitBB := exitBB } ∧
      F₀.tables = F.tables ++ [⟨exitBB, []⟩] := by
  unfold beginSwitch at hx
  rcases Cg.bind_eq_ok.mp hx with ⟨v, F₁, hv, hx⟩
  rcases Cg.bind_eq_ok.mp hv with ⟨_, F₁', hget, hv⟩
  rcases Cg.bind_eq_ok.mp hv with ⟨_, F₁'', hnote, hv⟩
  rcases Prod.mk.inj (Except.ok.inj hget) with ⟨rfl, rfl⟩
  rcases Prod.mk.inj (Except.ok.inj hnote) with ⟨_, rfl⟩
  rcases Cg.bind_eq_ok.mp hx with ⟨cond, F₂, hcond, hx⟩
  rcases Cg.bind_eq_ok.mp hx with ⟨exitBB, F₃, hexit, hx⟩
  rcases Cg.bind_eq_ok.mp hx with ⟨firstBB, F₄, hfirst, hx⟩
  rcases Cg.bind_eq_ok.mp hx with ⟨_, F₅, hbr, hx⟩
  rcases Cg.bind_eq_ok.mp hx with ⟨_, F₆, hset, hx⟩
  rcases Cg.bind_eq_ok.mp hx with ⟨sw, F₇, hsw, hx⟩
  rcases Cg.bind_eq_ok.mp hx with ⟨_, F₈, hdead, hx⟩
  rcases Cg.bind_eq_ok.mp hx with ⟨_, F₉, hpush, hx⟩
  rcases Prod.mk.inj (Except.ok.inj hx) with ⟨rfl, rfl⟩
  have htables : F₆.tables = F.tables := by
    rw [tables_ir hset, tables_ir hbr, tables_ir hfirst, tables_ir hexit, tables_ir hcond,
      tables_ir hv]
  rcases Prod.mk.inj (Except.ok.inj hsw) with ⟨rfl, rfl⟩
  rcases Prod.mk.inj (Except.ok.inj hdead) with ⟨_, rfl⟩
  rcases Prod.mk.inj (Except.ok.inj hpush) with ⟨_, rfl⟩
  refine ⟨exitBB, ?_, ?_⟩
  · rw [htables]
  · exact congrArg (· ++ _) htables

theorem adds_endSwitch (loc : SrcLoc) (swc : SwitchCtx) : Adds (endSwitch loc swc) := by
  refine Adds.bind ?_ fun _ => (adds_brIfOpen _).bind fun _ => adds_ir _
  unfold checkGroup
  split_ifs
  · exact adds_ir _
  · exact adds_pure ()

theorem adds_genSwitch (loc : SrcLoc) (e : Expr) {items : SwitchCtx → Cg SwitchCtx}
    (hitems : ApartItems items) : Adds (genSwitch Γ d loc e items) := by
  rw [genSwitch_eq]
  intro F u F' hx
  rcases Cg.bind_eq_ok.mp hx with ⟨swc, F₀, hbegin, hx⟩
  rcases Cg.bind_eq_ok.mp hx with ⟨swc', F₁, hrun, htail⟩
  rcases beginSwitch_eq hbegin with ⟨exitBB, rfl, htables⟩
  have hapart := hitems _ _ _ _ hrun
  have hend : F₁.tables <+: F'.tables := by
    refine Adds.bind (x := popScope) ?_ (fun _ => adds_endSwitch loc swc') F₁ u F' htail
    exact (adds_note _).bind fun _ => adds_set fun _ => rfl
  refine List.IsPrefix.trans ?_ hend
  -- the table of the switch is behind those that were there
  rw [List.prefix_iff_getElem?]
  intro n hn
  have hlt : n < F₀.tables.length := by
    rw [htables, List.length_append]
    exact Nat.lt_add_right _ hn
  rw [hapart.keep n hlt (Nat.ne_of_lt hn) (fun h => nomatch h), htables,
    List.getElem?_append_left hn, List.getElem?_eq_getElem hn]

variable (Γ d) (fnName : String)

mutual

theorem adds_genStmt : ∀ (s : Stmt) (breaks : List BreakTarget),
    Adds (genStmt Γ d fnName breaks s)
  | .empty _, _ | .noWarn _, _ => adds_pure ()
  | .block _ body, breaks => adds_inScope (adds_genStmts body breaks)
  | .expr _ e, _ => (adds_genExpr e).bind fun _ => adds_pure ()
  | .ifS loc e body body2, breaks =>
      adds_genIf loc e (adds_genStmt body breaks) (adds_genElseStmt body2 breaks)
  | .whileS loc e body, breaks => adds_genWhile loc e fun t => adds_genStmt body (t :: breaks)
  | .doWhile loc e body, breaks => adds_genDoWhile loc e fun t => adds_genStmt body (t :: breaks)
  | .forS loc init e post body, breaks =>
      adds_genFor loc init e post fun t => adds_genStmt body (t :: breaks)
  | .switchS loc e body, breaks => by
      have hitem : ApartItems (genItem Γ body fun t => genStmt Γ d fnName (t :: breaks) body) :=
        apart_genItem body fun t => adds_genStmt body (t :: breaks)
      cases body with
      | block _ items => exact adds_genSwitch loc e (apart_genItems items breaks)
      | _ => exact adds_genSwitch loc e hitem
  | .breakS loc, breaks => adds_genBreak loc breaks
  | .gotoS _ label, _ => adds_genGoto label
  | .labelS loc label, _ => adds_genLabel loc label
  | .returnS _ e, _ => adds_genReturn e
  | .varDecl _ decls isStatic, _ => adds_genVarDecl fnName isStatic decls
  | .tryS _ body body2, breaks => adds_genTry (adds_genStmts body breaks) (adds_genStmts body2 breaks)
  | .lock _ body, breaks => adds_genStmt body breaks
  | .caseS _ _, _ | .defaultS _, _ | .subStart _, _ | .subEnd _, _ => adds_ir _

theorem adds_genElseStmt : ∀ (s : Option Stmt) (breaks : List BreakTarget),
    ∀ x, genElseStmt Γ d fnName breaks s = some x → Adds x
  | none, _, _, hx => nomatch hx
  | some s, breaks, _, hx => by
      rcases Option.some.inj hx with rfl
      exact adds_genStmt s breaks

theorem adds_genStmts : ∀ (ss : List Stmt) (breaks : List BreakTarget),
    Adds (genStmts Γ d fnName breaks ss)
  | [], _ => adds_pure ()
  | s :: ss, breaks => (adds_genStmt s breaks).bind fun _ => adds_genStmts ss breaks

theorem apart_genItems : ∀ (items : List Stmt) (breaks : List BreakTarget),
    ApartItems (genItems Γ d fnName breaks items)
  | [], _ => fun swc F swc' F' hx => by
      rcases Prod.mk.inj (Except.ok.inj hx) with ⟨rfl, rfl⟩
      exact .of_added (List.prefix_refl _)
  | it :: items, breaks => fun swc F swc' F' hx => by
      rcases Cg.bind_eq_ok.mp hx with ⟨swc₁, F₁, hit, hitems⟩
      have hhead := apart_genItem (Γ := Γ) it fun t => adds_genStmt it (t :: breaks)
      exact (hhead swc F swc₁ F₁ hit).trans (apart_genItems items breaks swc₁ F₁ swc' F' hitems)

end

end Adds

/-! ## The values of a table -/

/-- The values of table `n`. -/
def FnCtx.vals (F : FnCtx) (n : Nat) : List I64 :=
  (F.tables[n]?.map fun t => t.cases.map Prod.fst).getD []

section Vals

variable {F F' : FnCtx} {n m : Nat} {vs : List I64} {bb : Blk}

theorem vals_congr (h : F'.tables[n]? = F.tables[n]?) : F'.vals n = F.vals n := by
  unfold FnCtx.vals
  rw [h]

theorem vals_of_added (h : F.tables <+: F'.tables) (hn : n < F.tables.length) :
    F'.vals n = F.vals n := by
  refine vals_congr ?_
  rw [List.prefix_iff_getElem?.mp h n hn, List.getElem?_eq_getElem hn]

theorem vals_add (ht : F'.tables[n]? = F.tables[n]?.map (SwitchTable.add vs bb))
    (hn : n < F.tables.length) : F'.vals n = F.vals n ++ vs := by
  unfold FnCtx.vals
  rw [ht, List.getElem?_eq_getElem hn]
  unfold SwitchTable.add
  simp [Function.comp_def]

end Vals

/-! ## Groups -/

/-- The numbers of the cases of a group. -/
def groupIds (k : Nat) : List I64 := (List.range k).map (BitVec.ofNat 64)

theorem groupIds_succ (k : Nat) : groupIds (k + 1) = groupIds k ++ [BitVec.ofNat 64 k] := by
  unfold groupIds
  rw [List.range_succ, List.map_append]
  rfl

theorem nodup_groupIds {k : Nat} (hk : k < 2 ^ 31) : (groupIds k).Nodup := by
  refine List.Nodup.map_on ?_ List.nodup_range
  intro a ha b hb hab
  have hak := List.mem_range.mp ha
  have hbk := List.mem_range.mp hb
  exact ofNat_inj (by omega) (by omega) hab

/-- The table of a group has the numbers of its cases, and is not that of the switch. -/
structure GroupInv (swc : SwitchCtx) (F : FnCtx) : Prop where
  small : swc.nextGroupId < 2 ^ 31
  first : swc.inGroup = true → swc.groupSw = none → swc.nextGroupId = 0
  table : ∀ g, swc.groupSw = some g → g < F.tables.length ∧ F.vals g = groupIds swc.nextGroupId

section Group

variable {Γ : Env} {swc swc' : SwitchCtx} {F F' : FnCtx} {loc : SrcLoc} {lo hi : I64} {bb : Blk}

theorem GroupInv.mono (h : GroupInv swc F) (hlen : F.tables.length ≤ F'.tables.length)
    (hvals : ∀ g, swc.groupSw = some g → F'.vals g = F.vals g) : GroupInv swc F' := by
  refine ⟨h.small, h.first, fun g hg => ?_⟩
  rcases h.table g hg with ⟨hlt, hids⟩
  exact ⟨Nat.lt_of_lt_of_le hlt hlen, (hvals g hg).trans hids⟩

/-- The dispatch of a group where no error is reported. -/
theorem genGroupDispatch_quiet {g : Option Nat} (hx : genGroupDispatch loc swc bb F = .ok (g, F'))
    (he : F'.b.errors = F.b.errors) :
    (∃ n, swc.groupSw = some n ∧ g = some n ∧ F'.tables = F.tables) ∨
      (swc.groupSw = none ∧ g = some F.tables.length ∧ F'.tables = F.tables ++ [⟨bb, []⟩]) := by
  unfold genGroupDispatch at hx
  cases hg : swc.groupSw with
  | some n =>
      rw [hg] at hx
      rcases Cg.bind_eq_ok.mp hx with ⟨_, F₁, hbr, hret⟩
      rcases Prod.mk.inj (Except.ok.inj hret) with ⟨rfl, rfl⟩
      rcases brIfOpen_total bb F with ⟨F₂, hbr', htables, _⟩
      rcases Prod.mk.inj (Except.ok.inj (hbr.symm.trans hbr')) with ⟨_, rfl⟩
      exact .inl ⟨n, rfl, rfl, htables⟩
  | none =>
      rw [hg] at hx
      rcases Cg.bind_eq_ok.mp hx with ⟨b, F₁, hterm, hx⟩
      rcases Prod.mk.inj (Except.ok.inj hterm) with ⟨_, rfl⟩
      split at hx
      · rcases Prod.mk.inj (Except.ok.inj hx) with ⟨_, rfl⟩
        exact absurd (List.append_right_eq_self.mp he) (List.cons_ne_nil _ _)
      · rcases Prod.mk.inj (Except.ok.inj hx) with ⟨rfl, rfl⟩
        exact .inr ⟨rfl, rfl, rfl⟩

/-- What a label adds to the tables. -/
structure CaseStep (lo hi : I64) (swc swc' : SwitchCtx) (F F' : FnCtx) : Prop where
  next : swc'.nextCaseVal = swc.nextCaseVal
  main : F'.vals swc.sw = F.vals swc.sw ++ caseVals lo hi
  inv : GroupInv swc' F'
  group : ∀ g, swc.groupSw = some g → swc'.groupSw = some g

theorem genPlainCase_step (hswc : swc.HasTable F) (hinv : GroupInv swc F)
    (hx : genPlainCase swc lo hi bb F = .ok (swc', F')) : CaseStep lo hi swc swc' F F' := by
  rcases genPlainCase_total swc lo hi bb F with ⟨F₁, hF₁, _, htables⟩
  rcases Prod.mk.inj (Except.ok.inj (hx.symm.trans hF₁)) with ⟨rfl, rfl⟩
  have hmain : F'.tables[swc'.sw]? =
      F.tables[swc'.sw]?.map (SwitchTable.add (caseVals lo hi) bb) := by
    rw [htables, List.getElem?_modify_eq]
    rfl
  refine ⟨rfl, vals_add hmain hswc.1, hinv.mono ?_ ?_, fun _ => id⟩
  · rw [htables, List.length_modify]
  · intro g hg
    have hne : swc'.sw ≠ g := by
      rintro rfl
      exact hswc.2 hg
    refine vals_congr ?_
    rw [htables, List.getElem?_modify_ne _ _ hne]

/-- Where no error is reported, the label of a group is added to both tables. -/
theorem genGroupCase_quiet (hx : genGroupCase loc swc lo hi bb F = .ok (swc', F'))
    (he : F'.b.errors = F.b.errors) : ∃ n stub ts, swc.nextGroupId + 1 ≠ 2 ^ 31 ∧
      swc' = { swc with groupSw := some n, nextGroupId := swc.nextGroupId + 1 } ∧
      F'.tables = (ts.modify swc.sw (SwitchTable.add (caseVals lo hi) stub)).modify n
        (SwitchTable.add [BitVec.ofNat 64 swc.nextGroupId] bb) ∧
      (swc.groupSw = some n ∧ ts = F.tables ∨
        swc.groupSw = none ∧ n = F.tables.length ∧ ts = F.tables ++ [⟨bb, []⟩]) := by
  unfold genGroupCase at hx
  rcases Cg.bind_eq_ok.mp hx with ⟨g, F₁, hdispatch, hx⟩
  split at hx
  · cases hx
  · next hid =>
      have herr : F'.b.errors = F₁.b.errors := by
        cases g with
        | none =>
            rcases Prod.mk.inj (Except.ok.inj hx) with ⟨_, rfl⟩
            rfl
        | some n =>
            rcases Prod.mk.inj (Except.ok.inj hx) with ⟨_, rfl⟩
            rfl
      rcases genGroupDispatch_quiet hdispatch (herr.symm.trans he) with
        ⟨n, hsw, rfl, htables⟩ | ⟨hsw, rfl, htables⟩
      · rcases Prod.mk.inj (Except.ok.inj hx) with ⟨rfl, rfl⟩
        exact ⟨n, _, F₁.tables, hid, rfl, rfl, .inl ⟨hsw, htables⟩⟩
      · rcases Prod.mk.inj (Except.ok.inj hx) with ⟨rfl, rfl⟩
        exact ⟨_, _, F₁.tables, hid, rfl, rfl, .inr ⟨hsw, rfl, htables⟩⟩

theorem genGroupCase_step (hswc : swc.HasTable F) (hinv : GroupInv swc F)
    (hin : swc.inGroup = true) (hx : genGroupCase loc swc lo hi bb F = .ok (swc', F'))
    (he : F'.b.errors = F.b.errors) : CaseStep lo hi swc swc' F F' := by
  rcases genGroupCase_quiet hx he with ⟨n, stub, ts, hid, rfl, htables, hgroup⟩
  -- the tables with that of the group, before the values are added
  let T : FnCtx := { F with tables := ts }
  have hold : F.tables <+: T.tables := by
    change F.tables <+: ts
    rcases hgroup with ⟨_, hts⟩ | ⟨_, _, hts⟩
    · rw [hts]
    · rw [hts]
      exact List.prefix_append _ _
  have hne : n ≠ swc.sw := by
    rcases hgroup with ⟨hg, _⟩ | ⟨_, rfl, _⟩
    · rintro rfl
      exact hswc.2 hg
    · exact Nat.ne_of_gt hswc.1
  have hn : n < T.tables.length ∧ T.vals n = groupIds swc.nextGroupId := by
    rcases hgroup with ⟨hg, rfl⟩ | ⟨hg, rfl, rfl⟩
    · exact hinv.table n hg
    · refine ⟨?_, ?_⟩
      · change F.tables.length < (F.tables ++ [_]).length
        rw [List.length_append]
        exact Nat.lt_succ_self _
      · rw [hinv.first hin hg]
        unfold FnCtx.vals
        change ((F.tables ++ [_])[F.tables.length]?.map _).getD [] = _
        rw [List.getElem?_concat_length]
        rfl
  have hmain : F'.tables[swc.sw]? = T.tables[swc.sw]?.map (SwitchTable.add (caseVals lo hi) stub) := by
    rw [htables, List.getElem?_modify_ne _ _ hne, List.getElem?_modify_eq]
    rfl
  have htable : F'.tables[n]? =
      T.tables[n]?.map (SwitchTable.add [BitVec.ofNat 64 swc.nextGroupId] bb) := by
    rw [htables, List.getElem?_modify_eq, List.getElem?_modify_ne _ _ hne.symm]
    rfl
  have hlt : swc.sw < T.tables.length := Nat.lt_of_lt_of_le hswc.1 hold.length_le
  refine ⟨rfl, ?_, ⟨?_, (fun _ h => nomatch h), ?_⟩, ?_⟩
  · rw [vals_add hmain hlt, vals_of_added hold hswc.1]
  · have hsmall := hinv.small
    change swc.nextGroupId + 1 < 2 ^ 31
    omega
  · intro g hg
    rcases Option.some.inj hg with rfl
    refine ⟨?_, ?_⟩
    · rw [htables, List.length_modify, List.length_modify]
      exact hn.1
    · rw [vals_add htable hn.1, hn.2, ← groupIds_succ]
  · intro g hg
    rcases hgroup with ⟨hg', _⟩ | ⟨hnone, _⟩
    · exact hg'.symm.trans hg
    · exact nomatch hnone.symm.trans hg

end Group

/-! ## One item -/

/-- The range of an item that is a case label. -/
def labelRange (Γ : Env) (next : I64) : Stmt → Option (I64 × I64)
  | .caseS _ c => some (caseRange Γ c next)
  | _ => none

/-- The values of a range. -/
def rangeVals (r : I64 × I64) : List I64 := caseVals r.1 r.2

/-- What an item adds to the table of the switch. -/
structure ItemStep (Γ : Env) (it : Stmt) (swc : SwitchCtx) (F : FnCtx) (swc' : SwitchCtx)
    (F' : FnCtx) : Prop where
  range : ∀ r ∈ labelRange Γ swc.nextCaseVal it, r.1.toInt ≤ r.2.toInt
  next : swc'.nextCaseVal = (labelRange Γ swc.nextCaseVal it).elim swc.nextCaseVal (·.2 + 1)
  main : F'.vals swc.sw =
    F.vals swc.sw ++ (labelRange Γ swc.nextCaseVal it).elim [] rangeVals
  inv : GroupInv swc' F'
  group : ∀ g, swc.groupSw = some g → swc'.groupSw = some g ∨ F'.vals g = F.vals g

section Item

variable {Γ : Env} {swc swc' : SwitchCtx} {F F' : FnCtx} {loc : SrcLoc}

theorem step_genCaseLabel {c : Option (Expr × Option Expr)} (hswc : swc.HasTable F)
    (hinv : GroupInv swc F) (hx : genCaseLabel Γ loc c swc F = .ok (swc', F'))
    (he : F'.b.errors = F.b.errors) : ItemStep Γ (.caseS loc c) swc F swc' F' := by
  rcases genCaseLabel_eq hx he with ⟨r, bb, F₁, F₂, rfl, hle, hbb, hcase, hset⟩
  rcases Prod.mk.inj (Except.ok.inj hbb) with ⟨rfl, rfl⟩
  rcases Prod.mk.inj (Except.ok.inj hset) with ⟨_, rfl⟩
  let r := caseRange Γ c swc.nextCaseVal
  let F₁ : FnCtx := { F with b := { F.b with nextBlk := F.b.nextBlk + 1 } }
  have hinv₁ : GroupInv { swc with nextCaseVal := r.2 + 1 } F₁ := ⟨hinv.small, hinv.first, hinv.table⟩
  have hswc₁ : SwitchCtx.HasTable { swc with nextCaseVal := r.2 + 1 } F₁ := hswc
  have hstep : CaseStep r.1 r.2 { swc with nextCaseVal := r.2 + 1 } swc' F₁ F₂ := by
    unfold genCase at hcase
    split at hcase
    · next hin => exact genGroupCase_step hswc₁ hinv₁ hin hcase he
    · exact genPlainCase_step hswc₁ hinv₁ hcase
  constructor
  · intro r' hr'
    rcases Option.some.inj hr' with rfl
    exact hle
  · exact hstep.next
  · exact hstep.main
  · exact ⟨hstep.inv.small, hstep.inv.first, hstep.inv.table⟩
  · exact fun g hg => .inl (hstep.group g hg)

/-- An item that is no case label and leaves the values alone. -/
theorem step_other {it : Stmt} (hit : labelRange Γ swc.nextCaseVal it = none)
    (hnext : swc'.nextCaseVal = swc.nextCaseVal) (hvals : ∀ n < F.tables.length, F'.vals n = F.vals n)
    (hsw : swc.sw < F.tables.length) (hinv : GroupInv swc F) (hinv' : GroupInv swc' F') :
    ItemStep Γ it swc F swc' F' := by
  refine ⟨?_, ?_, ?_, hinv', fun g hg => .inr (hvals g (hinv.table g hg).1)⟩
  · rw [hit]
    exact fun _ h => nomatch h
  · rw [hit]
    exact hnext
  · rw [hit, hvals _ hsw]
    exact (List.append_nil _).symm

/-- An item that adds tables, and is no case label. -/
theorem step_adds {it : Stmt} (hit : labelRange Γ swc.nextCaseVal it = none)
    (hnext : swc'.nextCaseVal = swc.nextCaseVal) (hadds : F.tables <+: F'.tables)
    (hswc : swc.HasTable F) (hinv : GroupInv swc F)
    (hinv' : GroupInv swc F' → GroupInv swc' F') : ItemStep Γ it swc F swc' F' := by
  have hvals : ∀ n < F.tables.length, F'.vals n = F.vals n := fun n hn => vals_of_added hadds hn
  refine step_other hit hnext hvals hswc.1 hinv (hinv' (hinv.mono hadds.length_le ?_))
  exact fun g hg => hvals g (hinv.table g hg).1

theorem step_genDefault (hswc : swc.HasTable F) (hinv : GroupInv swc F)
    (hx : genDefault loc swc F = .ok (swc', F')) : ItemStep Γ (.defaultS loc) swc F swc' F' := by
  unfold genDefault at hx
  rcases Cg.bind_eq_ok.mp hx with ⟨bb, F₁, hbb, hx⟩
  rcases Cg.bind_eq_ok.mp hx with ⟨_, F₂, hbr, hx⟩
  rcases Cg.bind_eq_ok.mp hx with ⟨_, F₃, hset, hx⟩
  rcases Cg.bind_eq_ok.mp hx with ⟨_, F₄, hmark, hret⟩
  rcases Prod.mk.inj (Except.ok.inj hret) with ⟨rfl, rfl⟩
  rcases brIfOpen_total bb F₁ with ⟨F₂', hbr', htables, _⟩
  rcases Prod.mk.inj (Except.ok.inj (hbr.symm.trans hbr')) with ⟨_, rfl⟩
  have htables : F₃.tables = F.tables := by
    rw [tables_ir hset, htables, tables_ir hbb]
  have hvals : F₄.tables.length = F.tables.length ∧ ∀ n, F₄.vals n = F.vals n := by
    unfold markDefault at hmark
    split at hmark
    · have heq := (tables_ir hmark).trans htables
      exact ⟨congrArg _ heq, fun n => vals_congr (by rw [heq])⟩
    · rcases Prod.mk.inj (Except.ok.inj hmark) with ⟨_, rfl⟩
      refine ⟨?_, fun n => ?_⟩
      · exact (List.length_modify ..).trans (congrArg _ htables)
      · -- the default destination changes, not the cases
        unfold FnCtx.vals
        rw [← htables]
        by_cases hn : swc.sw = n
        · rw [← hn, List.getElem?_modify_eq, Option.map_eq_map, Option.map_map]
          rfl
        · rw [List.getElem?_modify_ne _ _ hn]
  refine step_other rfl rfl (fun n _ => hvals.2 n) hswc.1 hinv (hinv.mono ?_ fun g _ => hvals.2 g)
  exact Nat.le_of_eq hvals.1.symm

theorem step_genSubStart (hswc : swc.HasTable F) (hinv : GroupInv swc F)
    (hx : genSubStart loc swc F = .ok (swc', F')) : ItemStep Γ (.subStart loc) swc F swc' F' := by
  unfold genSubStart at hx
  split at hx
  · rcases Prod.mk.inj (Except.ok.inj hx) with ⟨rfl, rfl⟩
    exact step_adds rfl rfl (List.prefix_refl _) hswc hinv id
  · rcases Cg.bind_eq_ok.mp hx with ⟨start, F₁, hstart, hx⟩
    rcases Cg.bind_eq_ok.mp hx with ⟨endBB, F₂, hend, hx⟩
    rcases Cg.bind_eq_ok.mp hx with ⟨sel, F₃, hsel, hx⟩
    rcases Cg.bind_eq_ok.mp hx with ⟨_, F₄, hfall, hx⟩
    rcases Cg.bind_eq_ok.mp hx with ⟨_, F₅, hset, hret⟩
    rcases Prod.mk.inj (Except.ok.inj hret) with ⟨rfl, rfl⟩
    have hporch : Adds (fallIntoPorch sel start) :=
      adds_ifOpen ((adds_ir _).bind fun _ => adds_ir _)
    have hadds : F.tables <+: F₅.tables := by
      rw [tables_ir hset, ← tables_ir hstart, ← tables_ir hend, ← tables_ir hsel]
      exact hporch F₃ _ F₄ hfall
    refine step_adds rfl rfl hadds hswc hinv fun _ => ?_
    exact ⟨Nat.two_pow_pos 31, fun _ _ => rfl, fun _ h => nomatch h⟩

theorem step_genSubEnd (hswc : swc.HasTable F) (hinv : GroupInv swc F)
    (hx : genSubEnd loc swc F = .ok (swc', F')) : ItemStep Γ (.subEnd loc) swc F swc' F' := by
  unfold genSubEnd at hx
  split at hx
  · rcases Cg.bind_eq_ok.mp hx with ⟨_, F₁, hbr, hx⟩
    rcases Cg.bind_eq_ok.mp hx with ⟨_, F₂, hset, hret⟩
    rcases Prod.mk.inj (Except.ok.inj hret) with ⟨rfl, rfl⟩
    have hadds : F.tables <+: F₂.tables := by
      rw [tables_ir hset]
      exact adds_brIfOpen _ F _ F₁ hbr
    refine step_adds rfl rfl hadds hswc hinv fun h => ?_
    exact ⟨h.small, (fun h' => nomatch h'), h.table⟩
  · rcases Prod.mk.inj (Except.ok.inj hx) with ⟨rfl, rfl⟩
    exact step_adds rfl rfl (List.prefix_refl _) hswc hinv id

theorem step_genItem {it : Stmt} {stmt : BreakTarget → Cg Unit} (hstmt : ∀ t, Adds (stmt t))
    (hswc : swc.HasTable F) (hinv : GroupInv swc F)
    (hx : genItem Γ it stmt swc F = .ok (swc', F'))
    (he : it.isMarker = true → F'.b.errors = F.b.errors) : ItemStep Γ it swc F swc' F' := by
  unfold genItem at hx
  split at hx
  · exact step_genCaseLabel hswc hinv hx (he rfl)
  · exact step_genDefault hswc hinv hx
  · exact step_genSubStart hswc hinv hx
  · exact step_genSubEnd hswc hinv hx
  · next h₁ h₂ h₃ h₄ =>
      rcases Cg.bind_eq_ok.mp hx with ⟨_, F₁, hs, hret⟩
      rcases Prod.mk.inj (Except.ok.inj hret) with ⟨rfl, rfl⟩
      refine step_adds ?_ rfl (hstmt _ F _ _ hs) hswc hinv id
      cases it with
      | caseS loc c => exact (h₁ loc c rfl).elim
      | _ => rfl

end Item

/-! ## All items -/

section Items

variable (Γ : Env) (d : Nat) (fnName : String) (breaks : List BreakTarget)

/-- The labels of the body report no error, whatever the other statements do. -/
def QuietLabels : List Stmt → SwitchCtx → FnCtx → Prop
  | [], _, _ => True
  | it :: items, swc, F => ∀ swc' F',
      genItem Γ it (fun t => genStmt Γ d fnName (t :: breaks) it) swc F = .ok (swc', F') →
        (it.isMarker = true → F'.b.errors = F.b.errors) ∧ QuietLabels items swc' F'

/-- Table `n` is that of a group of the body. -/
def OfGroup (n : Nat) : List Stmt → SwitchCtx → FnCtx → Prop
  | [], swc, _ => swc.groupSw = some n
  | it :: items, swc, F => swc.groupSw = some n ∨ ∃ swc' F',
      genItem Γ it (fun t => genStmt Γ d fnName (t :: breaks) it) swc F = .ok (swc', F') ∧
        OfGroup n items swc' F'

variable {Γ d fnName breaks}

theorem OfGroup.now {n : Nat} {items : List Stmt} {swc : SwitchCtx} {F : FnCtx}
    (h : swc.groupSw = some n) : OfGroup Γ d fnName breaks n items swc F := by
  cases items with
  | nil => exact h
  | cons it items => exact .inl h

theorem Apart.hasTable {swc swc' : SwitchCtx} {F F' : FnCtx} (h : Apart swc F swc' F')
    (hswc : swc.HasTable F) : swc'.HasTable F' := by
  rw [SwitchCtx.HasTable, h.group.1]
  refine ⟨Nat.lt_of_lt_of_le hswc.1 h.len, fun hg => ?_⟩
  rcases h.group.2 _ hg with hold | hnew
  · exact hswc.2 hold
  · exact Nat.not_le_of_lt hswc.1 hnew

theorem entries_cons (next : I64) (porch : Option (List Stmt)) (it : Stmt) (items : List Stmt) :
    ∃ porch', entries Γ next porch (it :: items) =
      ((labelRange Γ next it).map fun r => ⟨r.1, r.2, porch, items⟩).toList ++
        entries Γ ((labelRange Γ next it).elim next (·.2 + 1)) porch' items := by
  cases it with
  | caseS loc c => exact ⟨porch, rfl⟩
  | subStart loc => exact ⟨some (frontPorch items), rfl⟩
  | subEnd loc => exact ⟨none, rfl⟩
  | _ => exact ⟨porch, rfl⟩

/-- The values of a label. -/
def Entry.vals (en : Entry) : List I64 := caseVals en.lo en.hi

/-- The table of the switch has the values of the labels, one label after the other; the
tables of the groups have the numbers of their cases. -/
theorem genItems_vals : ∀ (items : List Stmt) (porch : Option (List Stmt)) {swc swc' : SwitchCtx}
    {F F' : FnCtx}, genItems Γ d fnName breaks items swc F = .ok (swc', F') →
    QuietLabels Γ d fnName breaks items swc F → swc.HasTable F → GroupInv swc F →
    (∀ en ∈ entries Γ swc.nextCaseVal porch items, en.lo.toInt ≤ en.hi.toInt) ∧
    F'.vals swc.sw = F.vals swc.sw ++ (entries Γ swc.nextCaseVal porch items).flatMap Entry.vals ∧
    ∀ n, OfGroup Γ d fnName breaks n items swc F → n < F'.tables.length ∧ (F'.vals n).Nodup
  | [], porch, swc, swc', F, F', hx, _, _, hinv => by
      rcases Prod.mk.inj (Except.ok.inj hx) with ⟨rfl, rfl⟩
      refine ⟨(fun _ h => nomatch h), (List.append_nil _).symm, fun n hn => ?_⟩
      rcases hinv.table n hn with ⟨hlt, hids⟩
      rw [hids]
      exact ⟨hlt, nodup_groupIds hinv.small⟩
  | it :: items, porch, swc, swc', F, F', hx, hquiet, hswc, hinv => by
      rcases Cg.bind_eq_ok.mp hx with ⟨swc₁, F₁, hit, hitems⟩
      rcases hquiet swc₁ F₁ hit with ⟨he, hrest⟩
      have hstmt := fun t => adds_genStmt Γ d fnName it (t :: breaks)
      have hstep := step_genItem hstmt hswc hinv hit he
      have hapart := apart_genItem it hstmt swc F swc₁ F₁ hit
      have hbehind := apart_genItems Γ d fnName items breaks swc₁ F₁ swc' F' hitems
      rcases entries_cons (Γ := Γ) swc.nextCaseVal porch it items with ⟨porch', hentries⟩
      rcases genItems_vals items porch' hitems hrest (hapart.hasTable hswc) hstep.inv with
        ⟨hle, hmain, hgroups⟩
      rw [hstep.next] at hle hmain
      rw [hentries]
      refine ⟨?_, ?_, ?_⟩
      · intro en hen
        rcases List.mem_append.mp hen with hen | hen
        · rcases Option.map_eq_some_iff.mp (Option.mem_toList.mp hen) with ⟨r, hr, rfl⟩
          exact hstep.range r hr
        · exact hle en hen
      · rw [List.flatMap_append, ← List.append_assoc]
        rw [hapart.group.1, hstep.main] at hmain
        rw [hmain]
        cases labelRange Γ swc.nextCaseVal it with
        | none => rfl
        | some r =>
            simp only [Option.elim_some, Option.map_some, Option.toList_some, List.flatMap_cons,
              List.flatMap_nil, List.append_nil]
            rfl
      · rintro n (hn | ⟨swc₂, F₂, hit₂, hn⟩)
        · rcases hstep.group n hn with hkept | hsame
          · exact hgroups n (.now hkept)
          · by_cases hnow : swc₁.groupSw = some n
            · exact hgroups n (.now hnow)
            · -- the group is closed, and its table is left alone
              rcases hinv.table n hn with ⟨hlt, hids⟩
              have hne : n ≠ swc₁.sw := by
                rw [hapart.group.1]
                rintro rfl
                exact hswc.2 hn
              have hkeep := hbehind.keep n (Nat.lt_of_lt_of_le hlt hapart.len) hne hnow
              rw [vals_congr hkeep, hsame, hids]
              refine ⟨?_, nodup_groupIds hinv.small⟩
              exact Nat.lt_of_lt_of_le (Nat.lt_of_lt_of_le hlt hapart.len) hbehind.len
        · rcases Prod.mk.inj (Except.ok.inj (hit.symm.trans hit₂)) with ⟨rfl, rfl⟩
          exact hgroups n hn

theorem quietLabels_cons {it : Stmt} {items : List Stmt} {swc swc₁ : SwitchCtx} {F F₁ : FnCtx}
    (hit : genItem Γ it (fun t => genStmt Γ d fnName (t :: breaks) it) swc F = .ok (swc₁, F₁)) :
    (it.isMarker = true → F₁.b.errors = F.b.errors) ∧ QuietLabels Γ d fnName breaks items swc₁ F₁ ↔
      QuietLabels Γ d fnName breaks (it :: items) swc F := by
  constructor
  · intro h swc' F' hit'
    rcases Prod.mk.inj (Except.ok.inj (hit.symm.trans hit')) with ⟨rfl, rfl⟩
    exact h
  · intro h
    exact h swc₁ F₁ hit

instance decidableQuietLabels : ∀ (items : List Stmt) (swc : SwitchCtx) (F : FnCtx),
    Decidable (QuietLabels Γ d fnName breaks items swc F)
  | [], _, _ => .isTrue trivial
  | it :: items, swc, F =>
      match hit : genItem Γ it (fun t => genStmt Γ d fnName (t :: breaks) it) swc F with
      | .ok (swc₁, F₁) =>
          have := decidableQuietLabels items swc₁ F₁
          decidable_of_iff _ (quietLabels_cons hit)
      | .error _ => .isTrue fun _ _ h => nomatch hit.symm.trans h

end Items

/-! ## The switch -/

/-- Of any two labels one ends before the other begins. -/
def Separate (ens : List Entry) : Prop :=
  ens.Pairwise fun en en' => en.hi.toInt < en'.lo.toInt ∨ en'.hi.toInt < en.lo.toInt

section Separate

variable {ens : List Entry}

theorem Entry.mem_vals {en : Entry} {x : I64} : x ∈ en.vals ↔ en.Matches x := mem_caseVals

theorem nodup_flatMap_vals : (ens.flatMap Entry.vals).Nodup ↔
    ens.Pairwise fun en en' => ∀ x, en.Matches x → ¬ en'.Matches x := by
  have hdisj : ∀ en en' : Entry,
      List.Disjoint en.vals en'.vals ↔ ∀ x, en.Matches x → ¬ en'.Matches x := by
    intro en en'
    constructor
    · intro h x hx hx'
      exact h (Entry.mem_vals.mpr hx) (Entry.mem_vals.mpr hx')
    · intro h x hx hx'
      exact h x (Entry.mem_vals.mp hx) (Entry.mem_vals.mp hx')
  rw [List.nodup_flatMap]
  constructor
  · intro h
    exact h.2.imp fun hen => (hdisj _ _).mp hen
  · intro h
    exact ⟨fun en _ => nodup_caseVals en.lo en.hi, h.imp fun hen => (hdisj _ _).mpr hen⟩

/-- Labels that cover a value each are disjoint if they are separate. -/
theorem separate_iff (hle : ∀ en ∈ ens, en.lo.toInt ≤ en.hi.toInt) :
    Separate ens ↔ ens.Pairwise fun en en' => ∀ x, en.Matches x → ¬ en'.Matches x := by
  constructor
  · intro h
    refine h.imp fun {en en'} hen x hx hx' => ?_
    rcases hx with ⟨hlo, hhi⟩
    rcases hx' with ⟨hlo', hhi'⟩
    omega
  · intro h
    refine h.imp_of_mem fun {en en'} hen hen' hno => ?_
    have hwide := hle en hen
    have hwide' := hle en' hen'
    by_contra hover
    -- the greater of the two beginnings is in both
    rcases Int.le_total en.lo.toInt en'.lo.toInt with hlo | hlo
    · refine hno en'.lo ⟨hlo, ?_⟩ ⟨Int.le_refl _, hwide'⟩
      omega
    · refine hno en.lo ⟨Int.le_refl _, hwide⟩ ⟨hlo, ?_⟩
      omega

end Separate

def Stmt.isDefault : Stmt → Bool
  | .defaultS _ => true
  | _ => false

section Distinct

variable (Γ : Env) (d : Nat) (fnName : String) (breaks : List BreakTarget)

/-- The body has no overlapping labels and no second `default`, and the `switch` instructions
of it, its own (`swc`) and those of its groups, have pairwise distinct case values. -/
structure Distinct (items : List Stmt) (swc : SwitchCtx) (F F' : FnCtx) : Prop where
  labels : DisjointCases Γ items
  dflt : items.countP Stmt.isDefault ≤ 1
  own : (F'.vals swc.sw).Nodup
  groups : ∀ n, OfGroup Γ d fnName breaks n items swc F → (F'.vals n).Nodup

variable {Γ d fnName breaks}

/-- The tables of a switch whose labels report nothing. -/
theorem genStmt_vals {loc : SrcLoc} {e : Expr} {body : Stmt} {swc : SwitchCtx} {F F₀ F' : FnCtx}
    (hbegin : beginSwitch Γ d e F = .ok (swc, F₀))
    (hquiet : QuietLabels Γ d fnName breaks body.items swc F₀)
    (hx : genStmt Γ d fnName breaks (.switchS loc e body) F = .ok ((), F')) :
    (∀ en ∈ entries Γ 0 none body.items, en.lo.toInt ≤ en.hi.toInt) ∧
    F'.vals swc.sw = (entries Γ 0 none body.items).flatMap Entry.vals ∧
    ∀ n, OfGroup Γ d fnName breaks n body.items swc F₀ → (F'.vals n).Nodup := by
  rw [genStmt_switch, genSwitch_eq] at hx
  rcases Cg.bind_eq_ok.mp hx with ⟨swc₀, F₀', hbegin', hx⟩
  rcases Prod.mk.inj (Except.ok.inj (hbegin'.symm.trans hbegin)) with ⟨rfl, rfl⟩
  rcases Cg.bind_eq_ok.mp hx with ⟨swc', F₁, hitems, htail⟩
  rcases beginSwitch_eq hbegin with ⟨exitBB, rfl, htables⟩
  have hlen : F.tables.length < F₀'.tables.length := by
    rw [htables, List.length_append]
    exact Nat.lt_succ_self _
  have hnone : F₀'.vals F.tables.length = [] := by
    unfold FnCtx.vals
    rw [htables, List.getElem?_append_right (Nat.le_refl _), Nat.sub_self]
    rfl
  have hend : F₁.tables <+: F'.tables := by
    refine Adds.bind (x := popScope) ?_ (fun _ => adds_endSwitch loc swc') F₁ () F' htail
    exact (adds_note _).bind fun _ => adds_set fun _ => rfl
  have hbehind := apart_genItems Γ d fnName body.items breaks _ _ _ _ hitems
  rcases genItems_vals body.items none hitems hquiet ⟨hlen, fun h => nomatch h⟩
    ⟨Nat.two_pow_pos 31, fun _ _ => rfl, fun _ h => nomatch h⟩ with ⟨hle, hmain, hgroups⟩
  refine ⟨hle, ?_, fun n hn => ?_⟩
  · rw [vals_of_added hend (Nat.lt_of_lt_of_le hlen hbehind.len), hmain, hnone]
    rfl
  · rcases hgroups n hn with ⟨hlt, hnodup⟩
    rw [vals_of_added hend hlt]
    exact hnodup

/-- Labels are not compared: where they report nothing, the values of the emitted switches are
distinct exactly if the ranges were written apart. -/
theorem genStmt_distinct_iff {loc : SrcLoc} {e : Expr} {body : Stmt} {swc : SwitchCtx}
    {F F₀ F' : FnCtx} (hbegin : beginSwitch Γ d e F = .ok (swc, F₀))
    (hquiet : QuietLabels Γ d fnName breaks body.items swc F₀)
    (hx : genStmt Γ d fnName breaks (.switchS loc e body) F = .ok ((), F')) :
    Distinct Γ d fnName breaks body.items swc F₀ F' ↔
      Separate (entries Γ 0 none body.items) ∧ body.items.countP Stmt.isDefault ≤ 1 := by
  rcases genStmt_vals hbegin hquiet hx with ⟨hle, hmain, hgroups⟩
  constructor
  · intro h
    exact ⟨(separate_iff hle).mpr h.labels, h.dflt⟩
  · intro h
    have hdisj := (separate_iff hle).mp h.1
    refine ⟨hdisj, h.2, ?_, hgroups⟩
    rw [hmain]
    exact nodup_flatMap_vals.mpr hdisj

end Distinct

/-- `switch (5) { case 1: case 3...5: default: }` -/
def apartItems : List Stmt :=
  [.caseS {} (some (.intLit {} 1, none)), .caseS {} (some (.intLit {} 3, some (.intLit {} 5))),
    .defaultS {}]

/-- `switch (5) { case 1: case 1: }` -/
def twiceItems : List Stmt :=
  [.caseS {} (some (.intLit {} 1, none)), .caseS {} (some (.intLit {} 1, none))]

def rangesBegun : SwitchCtx × FnCtx :=
  (beginSwitch {} 2 (.intLit {} 5) (beginFn ⟨.void, [], false⟩)).toOption.getD
    ({ sw := 0, exitBB := 0 }, {})

theorem rangesBegun_eq :
    beginSwitch {} 2 (.intLit {} 5) (beginFn ⟨.void, [], false⟩) = .ok rangesBegun := rfl

theorem genStmt_distinct_apart : ∃ F',
    Distinct {} 2 "F" [] apartItems rangesBegun.1 rangesBegun.2 F' := by
  have hsome : (genStmt {} 2 "F" [] (.switchS {} (.intLit {} 5) (.block {} apartItems))
      (beginFn ⟨.void, [], false⟩)).toOption.isSome = true := by
    decide +kernel
  have hquiet : QuietLabels {} 2 "F" [] apartItems rangesBegun.1 rangesBegun.2 := by
    decide
  refine ⟨_, (genStmt_distinct_iff rangesBegun_eq hquiet (eq_ok_snd hsome {})).mpr ⟨?_, ?_⟩⟩
  · refine List.pairwise_pair.mpr (.inl ?_)
    decide
  · decide

/-- Both labels are accepted. -/
theorem not_distinct_twice : ∃ F',
    genStmt {} 2 "F" [] (.switchS {} (.intLit {} 5) (.block {} twiceItems))
        (beginFn ⟨.void, [], false⟩) = .ok ((), F') ∧
      F'.b.errors = [] ∧ ¬ Distinct {} 2 "F" [] twiceItems rangesBegun.1 rangesBegun.2 F' := by
  have hsome : (genStmt {} 2 "F" [] (.switchS {} (.intLit {} 5) (.block {} twiceItems))
      (beginFn ⟨.void, [], false⟩)).toOption.isSome = true := by
    decide +kernel
  refine ⟨_, eq_ok_snd hsome {}, ?_, fun h => ?_⟩
  · decide +kernel
  · refine absurd h.own ?_
    decide +kernel

end Hlang.Codegen
