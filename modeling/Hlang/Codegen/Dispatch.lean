import Hlang.Codegen.Items

/-!
# Hlang.Codegen.Dispatch — the code of the items of a switch

What the generators of the labels leave: one lemma for each says where the code goes and
what it adds to the tables. `Extends` is what all of them keep.
-/

namespace Hlang.Codegen

open Ir Gen Cg Machine

/-- The switches of a function, by their tables. -/
def FnCtx.switches (F : FnCtx) : Switches := fun n x =>
  F.tables[n]?.map fun t => (t.cases.lookup x).getD t.dflt

/-- Scopes that are left alone. -/
abbrev ScopesIn := List (List (String × VarSym)) → Prop

/-- Code is appended; of the tables only those of the switch and of its group are changed,
and those get more cases. -/
structure Extends (S : ScopesIn) (swc : SwitchCtx) (F F' : FnCtx) : Prop where
  log : F.b.log <+: F'.b.log
  slots : F.b.slots <+: F'.b.slots
  errors : F.b.errors <+: F'.b.errors
  scopes : S F.scopes → S F'.scopes
  len : F.tables.length ≤ F'.tables.length
  keep : ∀ n < F.tables.length, n ≠ swc.sw → swc.groupSw ≠ some n →
    F'.tables[n]? = F.tables[n]?
  cases : ∀ (n : Nat) (t : SwitchTable), F.tables[n]? = some t →
    ∃ t' : SwitchTable, F'.tables[n]? = some t' ∧ t.cases <+: t'.cases

section Extends

variable {S : ScopesIn} {swc swc' : SwitchCtx} {F F' F'' G : FnCtx} {α : Type}

theorem Extends.refl (swc : SwitchCtx) (F : FnCtx) : Extends S swc F F where
  log := List.prefix_refl _
  slots := List.prefix_refl _
  errors := List.prefix_refl _
  scopes := id
  len := Nat.le_refl _
  keep := fun _ _ _ _ => rfl
  cases := fun _ t h => ⟨t, h, List.prefix_refl _⟩

/-- A table that belongs to the group of `swc'` belongs to that of `swc`, or is new. -/
def NewGroup (swc swc' : SwitchCtx) (F : FnCtx) : Prop :=
  swc'.sw = swc.sw ∧ ∀ n, swc'.groupSw = some n → swc.groupSw = some n ∨ F.tables.length ≤ n

theorem Extends.trans (h : Extends S swc F F') (h' : Extends S swc' F' F'')
    (hnew : NewGroup swc swc' F) : Extends S swc F F'' where
  log := h.log.trans h'.log
  slots := h.slots.trans h'.slots
  errors := h.errors.trans h'.errors
  scopes := h'.scopes ∘ h.scopes
  len := Nat.le_trans h.len h'.len
  keep := by
    intro n hn hsw hgroup
    rw [h'.keep n (Nat.lt_of_lt_of_le hn h.len) (hnew.1 ▸ hsw), h.keep n hn hsw hgroup]
    intro hg
    rcases hnew.2 n hg with hg | hg
    · exact hgroup hg
    · exact Nat.not_le_of_lt hn hg
  cases := by
    intro n t ht
    rcases h.cases n t ht with ⟨t', ht', hle⟩
    rcases h'.cases n t' ht' with ⟨t'', ht'', hle'⟩
    exact ⟨t'', ht'', hle.trans hle'⟩

theorem NewGroup.refl (swc : SwitchCtx) (F : FnCtx) : NewGroup swc swc F := ⟨rfl, fun _ => .inl⟩

theorem Extends.clean (h : Extends S swc F F') (he : F'.b.errors = []) : F.b.errors = [] :=
  List.prefix_nil.mp (he ▸ h.errors)

/-- Between two contexts with the same errors none is reported. -/
theorem Extends.quiet (h : Extends S swc F F') (h' : Extends S swc' F' F'')
    (he : F''.b.errors = F.b.errors) : F'.b.errors = F.b.errors := by
  have hle := (he ▸ h'.errors).length_le
  exact (h.errors.eq_of_length_le hle).symm

/-- A step that changes the tables of the switch only by more cases. -/
theorem Extends.modify {f : SwitchTable → SwitchTable} {n : Nat} (h : Extends S swc G F)
    (hn : n = swc.sw ∨ swc.groupSw = some n) (hf : ∀ t, t.cases <+: (f t).cases) :
    Extends S swc G { F with tables := F.tables.modify n f } where
  log := h.log
  slots := h.slots
  errors := h.errors
  scopes := h.scopes
  len := by
    change _ ≤ (F.tables.modify n f).length
    rw [List.length_modify]
    exact h.len
  keep := by
    intro k hk hsw hgroup
    have hne : n ≠ k := by
      rintro rfl
      rcases hn with hn | hn
      · exact hsw hn
      · exact hgroup hn
    change (F.tables.modify n f)[k]? = _
    rw [List.getElem?_modify_ne _ _ hne]
    exact h.keep k hk hsw hgroup
  cases := by
    intro k t ht
    rcases h.cases k t ht with ⟨t', ht', hle⟩
    change ∃ t', (F.tables.modify n f)[k]? = some t' ∧ _
    by_cases hk : n = k
    · subst hk
      refine ⟨f t', ?_, hle.trans (hf t')⟩
      rw [List.getElem?_modify_eq, ht']
      rfl
    · exact ⟨t', by rw [List.getElem?_modify_ne _ _ hk, ht'], hle⟩

/-- A table more. -/
theorem Extends.table {t : SwitchTable} {i : Blk × Instr} (h : Extends S swc G F) :
    Extends S swc G { F with b := { F.b with log := F.b.log ++ [i] }, tables := F.tables ++ [t] } where
  log := h.log.trans (List.prefix_append _ _)
  slots := h.slots
  errors := h.errors
  scopes := h.scopes
  len := by
    change _ ≤ (F.tables ++ [t]).length
    rw [List.length_append]
    exact Nat.le_trans h.len (Nat.le_add_right _ _)
  keep := by
    intro k hk hsw hgroup
    change (F.tables ++ [t])[k]? = _
    rw [List.getElem?_append_left (Nat.lt_of_lt_of_le hk h.len)]
    exact h.keep k hk hsw hgroup
  cases := by
    intro k t' ht
    rcases h.cases k t' ht with ⟨t'', ht'', hle⟩
    refine ⟨t'', ?_, hle⟩
    change (F.tables ++ [t])[k]? = _
    rw [List.getElem?_append_left (List.getElem?_eq_some_iff.mp ht'').1]
    exact ht''

/-! ### The generators -/

/-- A step of the builder. -/
theorem extends_ir {x : Gen α} (hx : ∀ B a B', x B = .ok (a, B') →
    B.log <+: B'.log ∧ B.slots <+: B'.slots ∧ B.errors <+: B'.errors) :
    Keeps (Extends S swc G) (ir x) fun _ => Extends S swc G := by
  intro F h a F' hF
  unfold ir at hF
  split at hF
  · next b B hB =>
      rcases Prod.mk.inj (Except.ok.inj hF) with ⟨_, rfl⟩
      rcases hx _ _ _ hB with ⟨hlog, hslots, herrors⟩
      exact ⟨h.log.trans hlog, h.slots.trans hslots, h.errors.trans herrors, h.scopes, h.len,
        h.keep, h.cases⟩
  · cases hF

theorem extends_newBlock : Keeps (Extends S swc G) (ir newBlock) fun _ => Extends S swc G := by
  refine extends_ir fun B b B' h => ?_
  rcases Prod.mk.inj (Except.ok.inj h) with ⟨_, rfl⟩
  exact ⟨List.prefix_refl _, List.prefix_refl _, List.prefix_refl _⟩

theorem extends_setInsertPoint (b : Blk) :
    Keeps (Extends S swc G) (ir (setInsertPoint b)) fun _ => Extends S swc G := by
  refine extends_ir fun B u B' h => ?_
  rcases Prod.mk.inj (Except.ok.inj h) with ⟨_, rfl⟩
  exact ⟨List.prefix_refl _, List.prefix_refl _, List.prefix_refl _⟩

theorem extends_emit (i : Instr) :
    Keeps (Extends S swc G) (ir (emit i)) fun _ => Extends S swc G := by
  refine extends_ir fun B u B' h => ?_
  rcases Prod.mk.inj (Except.ok.inj h) with ⟨_, rfl⟩
  exact ⟨List.prefix_append _ _, List.prefix_refl _, List.prefix_refl _⟩

theorem extends_create (o : Op) :
    Keeps (Extends S swc G) (ir (create o)) fun _ => Extends S swc G := by
  refine extends_ir fun B u B' h => ?_
  rcases Prod.mk.inj (Except.ok.inj h) with ⟨_, rfl⟩
  exact ⟨List.prefix_append _ _, List.prefix_refl _, List.prefix_refl _⟩

theorem extends_entryAlloca (ty : LTy) :
    Keeps (Extends S swc G) (ir (entryAlloca ty)) fun _ => Extends S swc G := by
  refine extends_ir fun B u B' h => ?_
  rcases Prod.mk.inj (Except.ok.inj h) with ⟨_, rfl⟩
  exact ⟨List.prefix_refl _, List.prefix_append _ _, List.prefix_refl _⟩

theorem extends_error (loc : SrcLoc) (msg : String) :
    Keeps (Extends S swc G) (ir (error loc msg)) fun _ => Extends S swc G := by
  refine extends_ir fun B u B' h => ?_
  rcases Prod.mk.inj (Except.ok.inj h) with ⟨_, rfl⟩
  exact ⟨List.prefix_refl _, List.prefix_refl _, List.prefix_append _ _⟩

theorem extends_emitStub (stub : Blk) (sel : Value) (id' : Nat) (start : Blk) :
    Keeps (Extends S swc G) (ir (emitStub stub sel id' start)) fun _ => Extends S swc G := by
  refine extends_ir fun B u B' h => ?_
  rcases Prod.mk.inj (Except.ok.inj h) with ⟨_, rfl⟩
  exact ⟨List.prefix_append _ _, List.prefix_refl _, List.prefix_refl _⟩

theorem extends_addCases {n : Nat} (vs : List I64) (bb : Blk)
    (hn : n = swc.sw ∨ swc.groupSw = some n) :
    Keeps (Extends S swc G) (addCases n vs bb) fun _ => Extends S swc G := by
  intro F h a F' hF
  rcases Prod.mk.inj (Except.ok.inj hF) with ⟨_, rfl⟩
  exact h.modify hn fun t => List.prefix_append _ _

theorem extends_setDefaultDest (bb : Blk) :
    Keeps (Extends S swc G) (setDefaultDest swc.sw bb) fun _ => Extends S swc G := by
  intro F h a F' hF
  rcases Prod.mk.inj (Except.ok.inj hF) with ⟨_, rfl⟩
  exact h.modify (.inl rfl) fun t => List.prefix_refl _

theorem extends_createSwitch (v : Value) (dflt : Blk) :
    Keeps (Extends S swc G) (createSwitch v dflt) fun n F =>
      Extends S swc G F ∧ G.tables.length ≤ n := by
  intro F h a F' hF
  rcases Prod.mk.inj (Except.ok.inj hF) with ⟨rfl, rfl⟩
  exact ⟨h.table, h.len⟩

theorem extends_hasTerminator :
    Keeps (Extends S swc G) hasTerminator fun _ => Extends S swc G := by
  intro F h a F' hF
  rcases Prod.mk.inj (Except.ok.inj hF) with ⟨_, rfl⟩
  exact h

theorem extends_brIfOpen (bb : Blk) :
    Keeps (Extends S swc G) (brIfOpen bb) fun _ => Extends S swc G := by
  unfold brIfOpen
  refine .bind extends_hasTerminator fun b => ?_
  split_ifs
  · exact extends_emit _
  · exact .pure fun _ => id

theorem extends_startDeadBlock :
    Keeps (Extends S swc G) startDeadBlock fun _ => Extends S swc G :=
  .bind extends_newBlock fun b => extends_setInsertPoint b

theorem extends_genCaseVal (Γ : Env) (loc : SrcLoc) (e : Expr) (msg : String) (dflt : I64) :
    Keeps (Extends S swc G) (genCaseVal Γ loc e msg dflt) fun _ => Extends S swc G := by
  unfold genCaseVal
  refine .bind keeps_get fun F => ?_
  split
  · exact .pure fun _ => id
  · exact .bind (extends_error loc msg) fun _ => .pure fun _ => id
  · exact .stop _

theorem extends_genCaseRange (Γ : Env) (loc : SrcLoc) (c : Option (Expr × Option Expr))
    (next : I64) :
    Keeps (Extends S swc G) (genCaseRange Γ loc c next) fun _ => Extends S swc G := by
  unfold genCaseRange
  split
  · exact .pure fun _ => id
  · refine .bind (extends_genCaseVal Γ loc _ _ _) fun lo => ?_
    unfold genCaseHi
    refine .bind (Q := fun _ => Extends S swc G) ?_ fun _ => .pure fun _ => id
    split
    · exact .pure fun _ => id
    · exact extends_genCaseVal Γ loc _ _ _

theorem extends_checkCaseRange (loc : SrcLoc) (lo hi : I64) :
    Keeps (Extends S swc G) (checkCaseRange loc lo hi) fun _ => Extends S swc G := by
  unfold checkCaseRange
  split_ifs
  · exact .stop _
  · exact .bind (extends_error loc _) fun _ => .stop _
  · exact .bind (extends_error loc _) fun _ => .pure fun _ => id
  · exact .stop _
  · exact .bind (extends_error loc _) fun _ => .pure fun _ => id
  · exact .pure fun _ => id

/-! ### The items -/

/-- What an item of a switch does to the context and to what is known of the switch. -/
def Onward (S : ScopesIn) (swc : SwitchCtx) (F : FnCtx) (swc' : SwitchCtx) (F' : FnCtx) : Prop :=
  Extends S swc F F' ∧ NewGroup swc swc' F ∧ swc'.exitBB = swc.exitBB

theorem Onward.trans {swc'' : SwitchCtx} (h : Onward S swc F swc' F')
    (h' : Onward S swc' F' swc'' F'') : Onward S swc F swc'' F'' := by
  rcases h with ⟨hext, hnew, hexit⟩
  rcases h' with ⟨hext', hnew', hexit'⟩
  refine ⟨hext.trans hext' hnew, ⟨hnew'.1.trans hnew.1, ?_⟩, hexit'.trans hexit⟩
  intro n hn
  rcases hnew'.2 n hn with hn | hn
  · exact hnew.2 n hn
  · exact .inr (Nat.le_trans hext.len hn)

theorem Onward.refl (swc : SwitchCtx) (F : FnCtx) : Onward S swc F swc F :=
  ⟨.refl swc F, .refl swc F, rfl⟩

/-- One more step under the same context of the switch. -/
theorem Keeps.onward {x : Cg α} (hx : ∀ H, Keeps (Extends S swc' H) x fun _ => Extends S swc' H) :
    Keeps (Onward S swc G swc') x fun _ => Onward S swc G swc' := by
  intro F h a F' hF
  rcases h with ⟨hext, hnew, hexit⟩
  exact ⟨hext.trans (hx F F (.refl swc' F) a F' hF) hnew, hnew, hexit⟩

/-- The context of the switch changes, and its tables stay the same. -/
theorem Onward.set {swc'' : SwitchCtx} (h : Onward S swc F swc' F') (hsw : swc''.sw = swc'.sw)
    (hgroup : ∀ n, swc''.groupSw = some n → swc'.groupSw = some n)
    (hexit : swc''.exitBB = swc'.exitBB) : Onward S swc F swc'' F' :=
  ⟨h.1, ⟨hsw.trans h.2.1.1, fun n hn => h.2.1.2 n (hgroup n hn)⟩, hexit.trans h.2.2⟩

theorem onward_genGroupDispatch (loc : SrcLoc) (swc : SwitchCtx) (bb : Blk) :
    Keeps (Onward S swc' G swc) (genGroupDispatch loc swc bb) fun g =>
      Onward S swc' G { swc with groupSw := g } := by
  have hx : ∀ H, Keeps (Extends S swc H) (genGroupDispatch loc swc bb) fun g F =>
      Extends S swc H F ∧ ∀ n, g = some n → swc.groupSw = some n ∨ H.tables.length ≤ n := by
    intro H
    unfold genGroupDispatch
    split
    · next n hn =>
        refine .bind (extends_brIfOpen bb) fun _ => .pure fun F h => ⟨h, ?_⟩
        exact fun k hk => .inl (hn.trans hk)
    · refine .bind extends_hasTerminator fun b => ?_
      split_ifs
      · exact .bind (extends_error loc _) fun _ => .pure fun F h => ⟨h, fun _ hn => nomatch hn⟩
      · refine .bind (extends_create _) fun sel => .bind (extends_createSwitch sel bb) fun n => ?_
        refine .pure fun F h => ⟨h.1, ?_⟩
        intro k hk
        rcases Option.some.inj hk with rfl
        exact .inr h.2
  intro F h g F' hF
  rcases hx F F (.refl swc F) g F' hF with ⟨hext, hg⟩
  exact h.trans ⟨hext, ⟨rfl, hg⟩, rfl⟩

theorem onward_genCase (loc : SrcLoc) (swc : SwitchCtx) (lo hi : I64) (bb : Blk) :
    Keeps (Onward S swc' G swc) (genCase loc swc lo hi bb) (Onward S swc' G) := by
  unfold genCase
  split_ifs
  · refine .bind (onward_genGroupDispatch loc swc bb) fun g => ?_
    split_ifs
    · exact .stop _
    · refine .bind (.onward fun _ => extends_newBlock) fun stub => ?_
      refine .bind (.onward fun _ => extends_emitStub _ _ _ _) fun _ => ?_
      refine .bind (.onward fun _ => extends_addCases _ _ (.inl rfl)) fun _ => ?_
      refine .bind (Q := fun _ => Onward S swc' G { swc with groupSw := g }) ?_ fun _ =>
        .pure fun F h => h.set rfl (fun _ => id) rfl
      unfold addGroupCase
      split
      · exact .onward fun _ => extends_addCases _ _ (.inr rfl)
      · exact .pure fun _ => id
  · refine .bind (.onward fun _ => extends_brIfOpen bb) fun _ => ?_
    exact .bind (.onward fun _ => extends_addCases _ _ (.inl rfl)) fun _ => .pure fun _ => id

theorem onward_genCaseLabel (Γ : Env) (loc : SrcLoc) (c : Option (Expr × Option Expr))
    (swc : SwitchCtx) :
    Keeps (Onward S swc' G swc) (genCaseLabel Γ loc c swc) (Onward S swc' G) := by
  unfold genCaseLabel
  refine .bind (.onward fun _ => extends_genCaseRange Γ loc c _) fun r => ?_
  refine .bind (.onward fun _ => extends_checkCaseRange loc _ _) fun hi => ?_
  refine .bind (.onward fun _ => extends_newBlock) fun bb => ?_
  refine .bind (Q := Onward S swc' G) ((onward_genCase loc _ _ _ bb).pre fun F h => ?_) ?_
  · exact h.set rfl (fun _ => id) rfl
  · intro swc''
    exact .bind (.onward fun _ => extends_setInsertPoint bb) fun _ => .pure fun _ => id

theorem onward_genDefault (loc : SrcLoc) (swc : SwitchCtx) :
    Keeps (Onward S swc' G swc) (genDefault loc swc) (Onward S swc' G) := by
  unfold genDefault
  refine .bind (.onward fun _ => extends_newBlock) fun bb => ?_
  refine .bind (.onward fun _ => extends_brIfOpen bb) fun _ => ?_
  refine .bind (.onward fun _ => extends_setInsertPoint bb) fun _ => ?_
  refine .bind (Q := fun _ => Onward S swc' G swc) ?_ fun _ => .pure fun _ => id
  unfold markDefault
  split_ifs
  · exact .onward fun _ => extends_error loc _
  · exact .onward fun _ => extends_setDefaultDest bb

theorem onward_genSubStart (loc : SrcLoc) (swc : SwitchCtx) :
    Keeps (Onward S swc' G swc) (genSubStart loc swc) (Onward S swc' G) := by
  unfold genSubStart
  split_ifs
  · exact .bind (.onward fun _ => extends_error loc _) fun _ => .pure fun _ => id
  · refine .bind (.onward fun _ => extends_newBlock) fun start => ?_
    refine .bind (.onward fun _ => extends_newBlock) fun endBB => ?_
    refine .bind (.onward fun _ => extends_entryAlloca _) fun sel => ?_
    refine .bind (Q := fun _ => Onward S swc' G swc) ?_ fun _ => ?_
    · unfold fallIntoPorch
      refine .bind (.onward fun _ => extends_hasTerminator) fun b => ?_
      split_ifs
      · exact .bind (.onward fun _ => extends_emit _) fun _ => .onward fun _ => extends_emit _
      · exact .pure fun _ => id
    · refine .bind (.onward fun _ => extends_setInsertPoint start) fun _ => ?_
      exact .pure fun F h => h.set rfl (fun _ hn => nomatch hn) rfl

theorem onward_genSubEnd (loc : SrcLoc) (swc : SwitchCtx) :
    Keeps (Onward S swc' G swc) (genSubEnd loc swc) (Onward S swc' G) := by
  unfold genSubEnd
  split_ifs
  · refine .bind (.onward fun _ => extends_brIfOpen _) fun _ => ?_
    refine .bind (.onward fun _ => extends_setInsertPoint _) fun _ => ?_
    exact .pure fun F h => h.set rfl (fun _ => id) rfl
  · exact .bind (.onward fun _ => extends_error loc _) fun _ => .pure fun _ => id

theorem extends_genBreak (loc : SrcLoc) (breaks : List BreakTarget) :
    Keeps (Extends S swc G) (genBreak loc breaks) fun _ => Extends S swc G := by
  unfold genBreak
  split
  · exact extends_error loc _
  · exact .bind (extends_emit _) fun _ => extends_startDeadBlock

end Extends

/-! ## Case labels -/

section Labels

variable {Γ : Env} {F F' F₁ : FnCtx} {loc : SrcLoc}

/-- Constants do not depend on the scopes. -/
theorem evalConst_scopes (Γ : Env) (scopes : List (List (String × VarSym))) : ∀ e : Expr,
    ({ Γ with scopes := scopes } : Env).evalConst e = Γ.evalConst e
  | .cast _ k _ => by
      simp only [Env.evalConst, evalConst_scopes Γ scopes k]
  | .unary _ _ _ k => by
      simp only [Env.evalConst, evalConst_scopes Γ scopes k]
  | .binary _ _ a c => by
      simp only [Env.evalConst, evalConst_scopes Γ scopes a, evalConst_scopes Γ scopes c]
  | .intLit _ _ | .floatLit _ _ | .strLit _ _ | .charLit _ _ | .ident _ _ | .chainCmp _ _ _
  | .assign _ _ _ _ | .call _ _ _ | .index _ _ _ | .member _ _ _ _ | .sizeofType _ _
  | .sizeofExpr _ _ | .offsetOf _ _ _ _ | .lastClass _ | .initList _ _ => rfl

/-- Where no error is reported, the value of a case label is the constant. -/
theorem genCaseVal_eq {e : Expr} {msg : String} {dflt v : I64}
    (hx : genCaseVal Γ loc e msg dflt F = .ok (v, F')) (he : F'.b.errors = F.b.errors) :
    F' = F ∧ v = caseVal Γ e dflt := by
  unfold genCaseVal at hx
  rcases Cg.bind_eq_ok.mp hx with ⟨_, F₁, hget, hx⟩
  rcases Prod.mk.inj (Except.ok.inj hget) with ⟨rfl, rfl⟩
  rw [evalConst_scopes] at hx
  unfold caseVal
  cases hval : Γ.evalConst e with
  | ok w =>
      rw [hval] at hx
      rcases Prod.mk.inj (Except.ok.inj hx) with ⟨rfl, rfl⟩
      exact ⟨rfl, rfl⟩
  | error err =>
      rw [hval] at hx
      cases err with
      | undefined => cases hx
      | notConst =>
          rcases Cg.bind_eq_ok.mp hx with ⟨_, F₁, herr, hx⟩
          rcases Prod.mk.inj (Except.ok.inj herr) with ⟨_, rfl⟩
          rcases Prod.mk.inj (Except.ok.inj hx) with ⟨_, rfl⟩
          exact absurd (List.append_right_eq_self.mp he) (List.cons_ne_nil _ _)

theorem genCaseRange_eq {c : Option (Expr × Option Expr)} {next : I64} {r : I64 × I64}
    (hx : genCaseRange Γ loc c next F = .ok (r, F')) (he : F'.b.errors = F.b.errors) :
    F' = F ∧ r = caseRange Γ c next := by
  unfold genCaseRange at hx
  cases c with
  | none =>
      rcases Prod.mk.inj (Except.ok.inj hx) with ⟨rfl, rfl⟩
      exact ⟨rfl, rfl⟩
  | some p =>
      rcases p with ⟨e, hi⟩
      rcases Cg.bind_eq_ok.mp hx with ⟨lo, F₁, hlo, hx⟩
      rcases Cg.bind_eq_ok.mp hx with ⟨v, F₂, hhi, hx⟩
      rcases Prod.mk.inj (Except.ok.inj hx) with ⟨rfl, rfl⟩
      cases hi with
      | none =>
          rcases Prod.mk.inj (Except.ok.inj hhi) with ⟨rfl, rfl⟩
          rcases genCaseVal_eq hlo he with ⟨rfl, rfl⟩
          exact ⟨rfl, rfl⟩
      | some e' =>
          have hext := extends_genCaseVal (S := fun _ => True) Γ loc e _ next F
            (.refl { sw := 0, exitBB := 0 } F) lo F₁ hlo
          have hext' := extends_genCaseVal (S := fun _ => True) Γ loc e' _ lo F₁
            (.refl { sw := 0, exitBB := 0 } F₁) v _ hhi
          have he₁ := hext.quiet hext' he
          rcases genCaseVal_eq hhi (he.trans he₁.symm) with ⟨rfl, rfl⟩
          rcases genCaseVal_eq hlo he₁ with ⟨rfl, rfl⟩
          exact ⟨rfl, rfl⟩

/-- Where no error is reported, the range is used as it is, and is not empty. -/
theorem checkCaseRange_eq {lo hi v : I64} (hx : checkCaseRange loc lo hi F = .ok (v, F'))
    (he : F'.b.errors = F.b.errors) : F' = F ∧ v = hi ∧ lo.toInt ≤ hi.toInt := by
  have hreport : (do ir (error loc "case range too large"); return lo : Cg I64) F =
      .ok (v, F') → False := by
    intro h
    rcases Prod.mk.inj (Except.ok.inj h) with ⟨_, rfl⟩
    exact absurd (List.append_right_eq_self.mp he) (List.cons_ne_nil _ _)
  unfold checkCaseRange at hx
  split at hx
  · cases hx
  · split at hx
    · split_ifs at hx
      · cases hx
      · exact (hreport hx).elim
    · next hle =>
        split at hx
        · cases hx
        · split at hx
          · exact (hreport hx).elim
          · rcases Prod.mk.inj (Except.ok.inj hx) with ⟨rfl, rfl⟩
            refine ⟨rfl, rfl, Int.not_lt.mp ?_⟩
            rwa [BitVec.slt_iff_toInt_lt] at hle

/-- The values of the range. -/
theorem mem_caseVals {lo hi x : I64} :
    x ∈ caseVals lo hi ↔ lo.toInt ≤ x.toInt ∧ x.toInt ≤ hi.toInt := by
  unfold caseVals
  rw [List.mem_map]
  have hlo := BitVec.toInt_lt (x := lo)
  have hlo' := BitVec.le_toInt lo
  have hhi := BitVec.toInt_lt (x := hi)
  have hx := BitVec.toInt_lt (x := x)
  have hx' := BitVec.le_toInt x
  constructor
  · rintro ⟨k, hk, rfl⟩
    have hk' := List.mem_range.mp hk
    have hsum : (lo + BitVec.ofNat 64 k).toInt = lo.toInt + k := by
      rw [BitVec.toInt_add, BitVec.toInt_ofNat', Int.add_bmod_bmod]
      exact Int.bmod_eq_of_le (by omega) (by omega)
    omega
  · rintro ⟨hle, hle'⟩
    refine ⟨(x.toInt - lo.toInt).toNat, List.mem_range.mpr (by omega), ?_⟩
    refine BitVec.eq_of_toInt_eq ?_
    rw [BitVec.toInt_add, BitVec.toInt_ofNat', Int.add_bmod_bmod]
    have hsum : lo.toInt + ((x.toInt - lo.toInt).toNat : ℤ) = x.toInt := by omega
    rw [hsum]
    exact Int.bmod_eq_of_le (by omega) (by omega)

theorem lookup_append_none {cs ds : List (I64 × Blk)} {x : I64} (h : cs.lookup x = none) :
    (cs ++ ds).lookup x = ds.lookup x := by
  rw [List.lookup_append, h]
  rfl

/-- The values of a case label are in the table. -/
theorem lookup_caseVals {vs : List I64} {bb : Blk} {x : I64} :
    (vs.map fun v => (v, bb)).lookup x = if x ∈ vs then some bb else none := by
  induction vs with
  | nil => rfl
  | cons v vs ih =>
      rw [List.map_cons, List.lookup_cons, ih]
      by_cases hxv : x = v
      · subst hxv
        simp
      · have hne : (x == v) = false := beq_eq_false_iff_ne.mpr hxv
        simp [hne, hxv]

/-- A table with more cases. -/
def SwitchTable.add (vs : List I64) (bb : Blk) (t : SwitchTable) : SwitchTable :=
  { t with cases := t.cases ++ vs.map fun v => (v, bb) }

/-- A case label where no error is reported: a block for the label, and its range. -/
theorem genCaseLabel_eq {c : Option (Expr × Option Expr)} {swc swc' : SwitchCtx}
    (hx : genCaseLabel Γ loc c swc F = .ok (swc', F')) (he : F'.b.errors = F.b.errors) :
    ∃ r bb F₁ F₂, r = caseRange Γ c swc.nextCaseVal ∧ r.1.toInt ≤ r.2.toInt ∧
      ir newBlock F = .ok (bb, F₁) ∧
      genCase loc { swc with nextCaseVal := r.2 + 1 } r.1 r.2 bb F₁ = .ok (swc', F₂) ∧
      ir (setInsertPoint bb) F₂ = .ok ((), F') := by
  unfold genCaseLabel at hx
  rcases Cg.bind_eq_ok.mp hx with ⟨r, F₁, hrange, hx⟩
  rcases Cg.bind_eq_ok.mp hx with ⟨hi, F₂, hcheck, hx⟩
  rcases Cg.bind_eq_ok.mp hx with ⟨bb, F₃, hbb, hx⟩
  rcases Cg.bind_eq_ok.mp hx with ⟨swc₁, F₄, hcase, hx⟩
  rcases Cg.bind_eq_ok.mp hx with ⟨_, F₅, hset, hx⟩
  rcases Prod.mk.inj (Except.ok.inj hx) with ⟨rfl, rfl⟩
  -- the errors grow from step to step, so none of the steps reports one
  have hext := extends_genCaseRange (S := fun _ => True) Γ loc c _ F (.refl swc F) r F₁ hrange
  have hext₁ := extends_checkCaseRange (S := fun _ => True) loc r.1 r.2 F₁ (.refl swc F₁) hi F₂ hcheck
  have hext₂ := extends_newBlock (S := fun _ => True) F₂ (.refl swc F₂) bb F₃ hbb
  have hext₃ := (onward_genCase (S := fun _ => True) loc _ _ _ bb _ (.refl _ F₃) _ _ hcase).1
  have hext₄ := extends_setInsertPoint (S := fun _ => True) bb F₄ (.refl swc F₄) _ _ hset
  have htail := hext₂.errors.trans (hext₃.errors.trans hext₄.errors)
  have he₂ : F₂.b.errors = F.b.errors := by
    have hle := (he ▸ htail).length_le
    exact ((hext.errors.trans hext₁.errors).eq_of_length_le hle).symm
  have he₁ := hext.quiet hext₁ he₂
  rcases checkCaseRange_eq hcheck (he₂.trans he₁.symm) with ⟨rfl, rfl, hle⟩
  rcases genCaseRange_eq hrange he₁ with ⟨rfl, rfl⟩
  exact ⟨_, bb, F₃, F₄, rfl, hle, hbb, hcase, hset⟩

/-- A case label in a function without errors. -/
theorem genCaseLabel_quiet {c : Option (Expr × Option Expr)} {swc swc' : SwitchCtx}
    (hx : genCaseLabel Γ loc c swc F = .ok (swc', F')) (he : F'.b.errors = []) :
    F'.b.errors = F.b.errors := by
  have hext := onward_genCaseLabel (S := fun _ => True) Γ loc c swc F (.refl swc F) swc' F' hx
  rw [he, hext.1.clean he]

/-- The instruction appended at the end of the code. -/
theorem code_push (B : Builder) (i : Instr) :
    ((B.push i).log.code B.point.1)[B.point.2]? = some i := by
  have hcode : (B.push i).log.code B.cur = B.code B.cur ++ [i] := B.code_push_self i
  unfold Builder.point
  rw [hcode, List.getElem?_append_right (Nat.le_refl _), Nat.sub_self]
  rfl

/-- The block of a case label is the current one behind it. -/
theorem genCase_point {swc swc' : SwitchCtx} {lo hi : I64} {bb : Blk} {ps ts : List Blk}
    {F₂ : FnCtx} {u : Unit} (hF : F.At ps ts true) (hbb : ir newBlock F = .ok (bb, F₁))
    (hcase : genCase loc swc lo hi bb F₁ = .ok (swc', F₂))
    (hset : ir (setInsertPoint bb) F₂ = .ok (u, F'))
    (hstart : swc.inGroup = true → swc.groupStartBB ∈ ts) : F'.b.point = (bb, 0) := by
  have hF₁ := keeps_newBlock F hF _ _ hbb
  have hF₂ := keeps_genCase loc lo hi List.mem_cons_self
    (fun h => List.mem_cons_of_mem _ (hstart h)) F₁ hF₁ swc' F₂ hcase
  exact hF₂.2.point List.mem_cons_self hset

/-- A label outside of groups: the code before falls into its block. -/
theorem genCaseLabel_plain {c : Option (Expr × Option Expr)} {swc swc' : SwitchCtx}
    {ps ts : List Blk} (hF : F.At ps ts true) (hin : swc.inGroup = false)
    (hx : genCaseLabel Γ loc c swc F = .ok (swc', F')) (he : F'.b.errors = []) :
    ∃ r bb, r = caseRange Γ c swc.nextCaseVal ∧ swc' = { swc with nextCaseVal := r.2 + 1 } ∧
      F'.b.point = (bb, 0) ∧
      F'.tables = F.tables.modify swc.sw (SwitchTable.add (caseVals r.1 r.2) bb) ∧
      (F'.b.log.code F.b.point.1)[F.b.point.2]? = some (.br bb) := by
  rcases genCaseLabel_eq hx (genCaseLabel_quiet hx he) with ⟨r, bb, F₁, F₂, hr, _, hbb, hcase, hset⟩
  have hpoint := genCase_point hF hbb hcase hset fun h => Bool.noConfusion (hin.symm.trans h)
  have hF₁ := keeps_newBlock F hF _ _ hbb
  unfold genCase genPlainCase at hcase
  rw [if_neg (by rw [hin]; exact Bool.false_ne_true)] at hcase
  rcases Cg.bind_eq_ok.mp hcase with ⟨_, F₃, hbr, hcase⟩
  rcases Cg.bind_eq_ok.mp hcase with ⟨_, F₄, hadd, hret⟩
  have hcode := code_emit (brIfOpen_eq hF₁ hbr)
  rcases Prod.mk.inj (Except.ok.inj (brIfOpen_eq hF₁ hbr)) with ⟨_, rfl⟩
  rcases Prod.mk.inj (Except.ok.inj hadd) with ⟨_, rfl⟩
  rcases Prod.mk.inj (Except.ok.inj hret) with ⟨rfl, rfl⟩
  rcases Prod.mk.inj (Except.ok.inj hset) with ⟨_, rfl⟩
  rcases Prod.mk.inj (Except.ok.inj hbb) with ⟨rfl, rfl⟩
  exact ⟨r, _, hr, rfl, hpoint, rfl, hcode⟩

/-- The stub of a case in a group. -/
def IsStub (l : Log) (stub : Blk) (swc : SwitchCtx) : Prop :=
  (l.code stub)[0]? = some (.store (.int 32) (.int 32 (BitVec.ofNat 64 swc.nextGroupId)) swc.groupSel) ∧
    (l.code stub)[1]? = some (.br swc.groupStartBB)

/-- What follows the dispatch of a case in a group: the stub of the case, and the two
tables. -/
theorem genGroupCase_eq {swc swc' : SwitchCtx} {lo hi : I64} {bb : Blk} {ps ts : List Blk}
    (hF : F.At ps ts true) (hbb : bb ∈ ts) (hx : genGroupCase loc swc lo hi bb F = .ok (swc', F')) :
    ∃ g F₁, genGroupDispatch loc swc bb F = .ok (g, F₁) ∧ swc.nextGroupId + 1 ≠ 2 ^ 31 ∧
      swc' = { swc with groupSw := g, nextGroupId := swc.nextGroupId + 1 } ∧
      ∀ n, g = some n → ∃ stub, F₁.b.log <+: F'.b.log ∧ IsStub F'.b.log stub swc ∧
        F'.tables = (F₁.tables.modify swc.sw (SwitchTable.add (caseVals lo hi) stub)).modify n
          (SwitchTable.add [BitVec.ofNat 64 swc.nextGroupId] bb) := by
  unfold genGroupCase at hx
  rcases Cg.bind_eq_ok.mp hx with ⟨g, F₁, hdispatch, hx⟩
  split_ifs at hx with hid
  · cases hx
  · rcases Cg.bind_eq_ok.mp hx with ⟨stub, F₂, hstub, hx⟩
    rcases Cg.bind_eq_ok.mp hx with ⟨_, F₃, hemit, hx⟩
    rcases Cg.bind_eq_ok.mp hx with ⟨_, F₄, hadd, hx⟩
    rcases Cg.bind_eq_ok.mp hx with ⟨_, F₅, hgroup, hret⟩
    rcases Prod.mk.inj (Except.ok.inj hret) with ⟨rfl, rfl⟩
    refine ⟨g, F₁, hdispatch, hid, rfl, ?_⟩
    rintro n rfl
    have hfresh : F₁.b.log.code F₁.b.nextBlk = [] := by
      rcases keeps_genGroupDispatch loc swc hbb F hF _ F₁ hdispatch with ⟨_, hg, _⟩
      exact hg.wf.fresh _ (Nat.le_refl _)
    rcases Prod.mk.inj (Except.ok.inj hstub) with ⟨rfl, rfl⟩
    rcases Prod.mk.inj (Except.ok.inj hemit) with ⟨_, rfl⟩
    rcases Prod.mk.inj (Except.ok.inj hadd) with ⟨_, rfl⟩
    rcases Prod.mk.inj (Except.ok.inj hgroup) with ⟨_, rfl⟩
    refine ⟨F₁.b.nextBlk, List.prefix_append _ _, ?_, rfl⟩
    unfold IsStub
    dsimp only
    rw [Log.code_append, hfresh, Log.code_cons_self, Log.code_cons_self]
    exact ⟨rfl, rfl⟩

/-- The first label of a group: its switch ends the front porch. -/
theorem genGroupDispatch_first {swc : SwitchCtx} {bb : Blk} {g : Option Nat} {ps ts : List Blk}
    (hF : F.At ps ts true) (hsw : swc.groupSw = none)
    (hx : genGroupDispatch loc swc bb F = .ok (g, F')) :
    g = some F.tables.length ∧ F'.tables = F.tables ++ [⟨bb, []⟩] ∧
      ∃ r, (F'.b.log.code F.b.point.1)[F.b.point.2]? =
          some (.op r (.load (.int 32) swc.groupSel)) ∧
        (F'.b.log.code F.b.point.1)[F.b.point.2 + 1]? =
          some (.switch F.tables.length (.reg (.int 32) r)) := by
  unfold genGroupDispatch at hx
  rw [hsw] at hx
  rcases Cg.bind_eq_ok.mp hx with ⟨b, F₁, hopen, hx⟩
  rw [hF.open] at hopen
  rcases Prod.mk.inj (Except.ok.inj hopen) with ⟨rfl, rfl⟩
  rcases Cg.bind_eq_ok.mp hx with ⟨sel, F₂, hload, hx⟩
  rcases Cg.bind_eq_ok.mp hx with ⟨n, F₃, hswitch, hret⟩
  rcases Prod.mk.inj (Except.ok.inj hload) with ⟨rfl, rfl⟩
  rcases Prod.mk.inj (Except.ok.inj hswitch) with ⟨rfl, rfl⟩
  rcases Prod.mk.inj (Except.ok.inj hret) with ⟨rfl, rfl⟩
  have hcode := code_push F.b (.op F.b.nextReg (.load (.int 32) swc.groupSel))
  have hcode' := code_push (F.b.created (.load (.int 32) swc.groupSel))
    (.switch F.tables.length (.reg (.int 32) F.b.nextReg))
  have hpoint : (F.b.created (.load (.int 32) swc.groupSel)).point =
      (F.b.point.1, F.b.point.2 + 1) := point_push F.b _
  rw [hpoint] at hcode'
  exact ⟨rfl, rfl, _, code_extend hcode (List.prefix_append _ _), hcode'⟩

/-- A later label of a group: the case before falls into its block. -/
theorem genGroupDispatch_later {swc : SwitchCtx} {bb : Blk} {g : Option Nat} {n : Nat}
    {ps ts : List Blk} (hF : F.At ps ts true) (hsw : swc.groupSw = some n)
    (hx : genGroupDispatch loc swc bb F = .ok (g, F')) :
    g = some n ∧ F'.tables = F.tables ∧
      (F'.b.log.code F.b.point.1)[F.b.point.2]? = some (.br bb) := by
  unfold genGroupDispatch at hx
  rw [hsw] at hx
  rcases Cg.bind_eq_ok.mp hx with ⟨_, F₁, hbr, hret⟩
  have hcode := code_emit (brIfOpen_eq hF hbr)
  rcases Prod.mk.inj (Except.ok.inj (brIfOpen_eq hF hbr)) with ⟨_, rfl⟩
  rcases Prod.mk.inj (Except.ok.inj hret) with ⟨rfl, rfl⟩
  exact ⟨rfl, rfl, hcode⟩

/-- A label in a group. -/
theorem genCaseLabel_group {c : Option (Expr × Option Expr)} {swc swc' : SwitchCtx}
    {ps ts : List Blk} (hF : F.At ps ts true) (hin : swc.inGroup = true)
    (hstart : swc.groupStartBB ∈ ts) (hx : genCaseLabel Γ loc c swc F = .ok (swc', F'))
    (he : F'.b.errors = []) :
    ∃ r bb stub g ts₁, r = caseRange Γ c swc.nextCaseVal ∧ swc' = { swc with
        nextCaseVal := r.2 + 1, groupSw := some g, nextGroupId := swc.nextGroupId + 1 } ∧
      swc.nextGroupId + 1 ≠ 2 ^ 31 ∧ F'.b.point = (bb, 0) ∧ IsStub F'.b.log stub swc ∧
      F'.tables = (ts₁.modify swc.sw (SwitchTable.add (caseVals r.1 r.2) stub)).modify g
        (SwitchTable.add [BitVec.ofNat 64 swc.nextGroupId] bb) ∧
      ((swc.groupSw = some g ∧ ts₁ = F.tables ∧
          (F'.b.log.code F.b.point.1)[F.b.point.2]? = some (.br bb)) ∨
        (swc.groupSw = none ∧ g = F.tables.length ∧ ts₁ = F.tables ++ [⟨bb, []⟩] ∧
          ∃ reg, (F'.b.log.code F.b.point.1)[F.b.point.2]? =
              some (.op reg (.load (.int 32) swc.groupSel)) ∧
            (F'.b.log.code F.b.point.1)[F.b.point.2 + 1]? =
              some (.switch F.tables.length (.reg (.int 32) reg)))) := by
  rcases genCaseLabel_eq hx (genCaseLabel_quiet hx he) with ⟨r, bb, F₁, F₂, hr, _, hbb, hcase, hset⟩
  have hpoint := genCase_point hF hbb hcase hset fun _ => hstart
  have hF₁ := keeps_newBlock F hF _ _ hbb
  have hp₁ := (frame_newBlock hbb).2
  have htables : F₁.tables = F.tables := by
    rcases Prod.mk.inj (Except.ok.inj hbb) with ⟨_, rfl⟩
    rfl
  unfold genCase at hcase
  rw [if_pos hin] at hcase
  rcases genGroupCase_eq hF₁ List.mem_cons_self hcase with ⟨g, F₃, hdispatch, hid, rfl, hcode⟩
  rcases Prod.mk.inj (Except.ok.inj hset) with ⟨_, rfl⟩
  cases hsw : swc.groupSw with
  | some n =>
      rcases genGroupDispatch_later hF₁ hsw hdispatch with ⟨rfl, ht, hbr⟩
      rcases hcode n rfl with ⟨stub, hle, hstub, htab⟩
      rw [hp₁] at hbr
      exact ⟨r, bb, stub, n, F₃.tables, hr, rfl, hid, hpoint, hstub, htab,
        .inl ⟨rfl, ht.trans htables, code_extend hbr hle⟩⟩
  | none =>
      rcases genGroupDispatch_first hF₁ hsw hdispatch with ⟨rfl, ht, reg, hload, hswitch⟩
      rcases hcode _ rfl with ⟨stub, hle, hstub, htab⟩
      rw [hp₁] at hload hswitch
      rw [htables] at hswitch ht htab ⊢
      refine ⟨r, bb, stub, _, F₃.tables, hr, rfl, hid, hpoint, hstub, htab, .inr ⟨rfl, rfl, ht, reg,
        code_extend hload hle, ?_⟩⟩
      exact code_extend (p := (F.b.point.1, F.b.point.2 + 1)) hswitch hle

/-! ## The other labels -/

theorem genDefault_eq {swc swc' : SwitchCtx} {ps ts : List Blk} (hF : F.At ps ts true)
    (hx : genDefault loc swc F = .ok (swc', F')) (he : F'.b.errors = []) :
    swc.inGroup = false ∧ swc' = swc ∧ ∃ bb, F'.b.point = (bb, 0) ∧
      F'.tables = F.tables.modify swc.sw (fun t => { t with dflt := bb }) ∧
      (F'.b.log.code F.b.point.1)[F.b.point.2]? = some (.br bb) := by
  unfold genDefault at hx
  rcases Cg.bind_eq_ok.mp hx with ⟨bb, F₁, hbb, hx⟩
  have hF₁ := keeps_newBlock F hF _ _ hbb
  have hp₁ := (frame_newBlock hbb).2
  rcases Cg.bind_eq_ok.mp hx with ⟨_, F₂, hbr, hx⟩
  rcases Cg.bind_eq_ok.mp hx with ⟨_, F₃, hset, hx⟩
  rcases Cg.bind_eq_ok.mp hx with ⟨_, F₄, hmark, hret⟩
  have hF₂ := keeps_brIfOpen List.mem_cons_self F₁ hF₁ _ F₂ hbr
  have hpoint := hF₂.point List.mem_cons_self hset
  have hcode := code_emit (brIfOpen_eq hF₁ hbr)
  rw [hp₁] at hcode
  have htables : F₃.tables = F.tables := by
    rcases Prod.mk.inj (Except.ok.inj hset) with ⟨_, rfl⟩
    rcases Prod.mk.inj (Except.ok.inj (brIfOpen_eq hF₁ hbr)) with ⟨_, rfl⟩
    rcases Prod.mk.inj (Except.ok.inj hbb) with ⟨_, rfl⟩
    rfl
  rcases Prod.mk.inj (Except.ok.inj hset) with ⟨_, rfl⟩
  rcases Prod.mk.inj (Except.ok.inj hret) with ⟨rfl, rfl⟩
  unfold markDefault at hmark
  split_ifs at hmark with hin
  · rcases Prod.mk.inj (Except.ok.inj hmark) with ⟨_, rfl⟩
    exact absurd (List.append_eq_nil_iff.mp he).2 (List.cons_ne_nil _ _)
  · rcases Prod.mk.inj (Except.ok.inj hmark) with ⟨_, rfl⟩
    rw [← htables]
    exact ⟨Bool.eq_false_iff.mpr hin, rfl, bb, hpoint, rfl, hcode⟩

theorem genSubStart_eq {swc swc' : SwitchCtx} {ps ts : List Blk} (hF : F.At ps ts true)
    (hx : genSubStart loc swc F = .ok (swc', F')) (he : F'.b.errors = []) :
    swc.inGroup = false ∧ ∃ start endBB, swc' = { swc with
        inGroup := true
        groupStartBB := start
        groupEndBB := endBB
        groupSel := .slot F.b.slots.length
        groupSw := none
        nextGroupId := 0 } ∧
      F'.b.point = (start, 0) ∧ F'.tables = F.tables ∧ F'.b.slots = F.b.slots ++ [.int 32] ∧
      (F'.b.log.code F.b.point.1)[F.b.point.2]? =
        some (.store (.int 32) (.int 32 0) (.slot F.b.slots.length)) ∧
      (F'.b.log.code F.b.point.1)[F.b.point.2 + 1]? = some (.br start) := by
  unfold genSubStart at hx
  split_ifs at hx with hin
  · rcases Cg.bind_eq_ok.mp hx with ⟨_, F₁, herr, hret⟩
    rcases Prod.mk.inj (Except.ok.inj herr) with ⟨_, rfl⟩
    rcases Prod.mk.inj (Except.ok.inj hret) with ⟨rfl, rfl⟩
    exact absurd (List.append_eq_nil_iff.mp he).2 (List.cons_ne_nil _ _)
  · rcases Cg.bind_eq_ok.mp hx with ⟨start, F₁, hstart, hx⟩
    rcases Cg.bind_eq_ok.mp hx with ⟨endBB, F₂, hend, hx⟩
    rcases Cg.bind_eq_ok.mp hx with ⟨sel, F₃, hsel, hx⟩
    rcases Cg.bind_eq_ok.mp hx with ⟨_, F₄, hfall, hx⟩
    rcases Cg.bind_eq_ok.mp hx with ⟨_, F₅, hset, hret⟩
    have hF₂ := keeps_newBlock _ (keeps_newBlock F hF _ _ hstart) _ _ hend
    have hF₃ := keeps_spec (Silent.entryAlloca _) _ hF₂ _ _ hsel
    unfold fallIntoPorch at hfall
    rcases Cg.bind_eq_ok.mp hfall with ⟨b, F₃', hopen, hfall⟩
    rw [hF₃.open] at hopen
    rcases Prod.mk.inj (Except.ok.inj hopen) with ⟨rfl, rfl⟩
    rcases Cg.bind_eq_ok.mp hfall with ⟨_, F₆, hstore, hbr⟩
    have hF₆ := keeps_makes (makes_emitStore _ _ _) _ hF₃ _ _ hstore
    have hF₄ := keeps_br (List.mem_cons_of_mem _ List.mem_cons_self) _ hF₆ _ _ hbr
    have hpoint := hF₄.point (List.mem_cons_of_mem _ List.mem_cons_self) hset
    have hcode := code_emit hstore
    have hcode' := code_emit hbr
    have hp₃ : F₃.b.point = F.b.point := by
      rcases Prod.mk.inj (Except.ok.inj hsel) with ⟨_, rfl⟩
      exact (frame_newBlock hend).2.trans (frame_newBlock hstart).2
    have hp₆ : F₆.b.point = (F.b.point.1, F.b.point.2 + 1) := by
      rcases Prod.mk.inj (Except.ok.inj hstore) with ⟨_, rfl⟩
      rw [← hp₃]
      exact point_push F₃.b _
    rw [hp₃] at hcode
    rw [hp₆] at hcode'
    have hle : F₆.b.log <+: F₄.b.log := (frame_emit hbr).log
    rcases Prod.mk.inj (Except.ok.inj hset) with ⟨_, rfl⟩
    rcases Prod.mk.inj (Except.ok.inj hret) with ⟨rfl, rfl⟩
    have hsel' : sel = .slot F.b.slots.length ∧ F₄.tables = F.tables ∧
        F₄.b.slots = F.b.slots ++ [.int 32] := by
      rcases Prod.mk.inj (Except.ok.inj hbr) with ⟨_, rfl⟩
      rcases Prod.mk.inj (Except.ok.inj hstore) with ⟨_, rfl⟩
      rcases Prod.mk.inj (Except.ok.inj hsel) with ⟨rfl, rfl⟩
      rcases Prod.mk.inj (Except.ok.inj hend) with ⟨_, rfl⟩
      rcases Prod.mk.inj (Except.ok.inj hstart) with ⟨_, rfl⟩
      exact ⟨rfl, rfl, rfl⟩
    rcases hsel' with ⟨rfl, htables, hslots⟩
    exact ⟨Bool.eq_false_iff.mpr hin, start, endBB, rfl, hpoint, htables, hslots,
      code_extend hcode hle, hcode'⟩

theorem genSubEnd_eq {swc swc' : SwitchCtx} {ps ts : List Blk}
    (hF : swc.inGroup = true → F.At (swc.groupEndBB :: ps) ts true)
    (hx : genSubEnd loc swc F = .ok (swc', F')) (he : F'.b.errors = []) :
    swc.inGroup = true ∧ swc' = { swc with inGroup := false } ∧
      F'.b.point = (swc.groupEndBB, 0) ∧ F'.tables = F.tables ∧
      (F'.b.log.code F.b.point.1)[F.b.point.2]? = some (.br swc.groupEndBB) := by
  unfold genSubEnd at hx
  split_ifs at hx with hin
  · rcases Cg.bind_eq_ok.mp hx with ⟨_, F₁, hbr, hx⟩
    rcases Cg.bind_eq_ok.mp hx with ⟨_, F₂, hset, hret⟩
    have hbr' := brIfOpen_eq (hF hin) hbr
    have hcode := code_emit hbr'
    rcases hF hin with ⟨stray, hg, _⟩
    have hpending := (hg.pending swc.groupEndBB (.inl List.mem_cons_self))
    rcases Prod.mk.inj (Except.ok.inj hbr') with ⟨_, rfl⟩
    rcases Prod.mk.inj (Except.ok.inj hset) with ⟨_, rfl⟩
    rcases Prod.mk.inj (Except.ok.inj hret) with ⟨rfl, rfl⟩
    refine ⟨hin, rfl, ?_, rfl, hcode⟩
    have hnil : (F.b.push (.br swc.groupEndBB)).code swc.groupEndBB = [] :=
      (Builder.code_push_other hpending.ne _).trans hpending.code
    change (swc.groupEndBB, ((F.b.push (.br swc.groupEndBB)).code swc.groupEndBB).length) = _
    rw [hnil]
    rfl
  · rcases Cg.bind_eq_ok.mp hx with ⟨_, F₁, herr, hret⟩
    rcases Prod.mk.inj (Except.ok.inj herr) with ⟨_, rfl⟩
    rcases Prod.mk.inj (Except.ok.inj hret) with ⟨rfl, rfl⟩
    exact absurd (List.append_eq_nil_iff.mp he).2 (List.cons_ne_nil _ _)

/-- `break` in a switch: to the end porch of the group, or out of the switch. -/
theorem genBreak_eq {swc : SwitchCtx} {u : Unit} {breaks : List BreakTarget}
    (hx : genBreak loc (⟨swc.exitBB, some swc⟩ :: breaks) F = .ok (u, F')) :
    F'.tables = F.tables ∧ (F'.b.log.code F.b.point.1)[F.b.point.2]? =
      some (.br (if swc.inGroup then swc.groupEndBB else swc.exitBB)) := by
  rcases Cg.bind_eq_ok.mp hx with ⟨_, F₁, hbr, hdead⟩
  have hcode := code_emit hbr
  have hle := (frame_startDeadBlock hdead).log
  rcases Cg.bind_eq_ok.mp hdead with ⟨b, F₂, hnew, hset⟩
  refine ⟨?_, code_extend hcode hle⟩
  rcases Prod.mk.inj (Except.ok.inj hset) with ⟨_, rfl⟩
  rcases Prod.mk.inj (Except.ok.inj hnew) with ⟨_, rfl⟩
  rcases Prod.mk.inj (Except.ok.inj hbr) with ⟨_, rfl⟩
  rfl

end Labels

end Hlang.Codegen
