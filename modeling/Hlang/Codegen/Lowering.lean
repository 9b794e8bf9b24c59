import Hlang.Codegen.Blocks

/-!
# Hlang.Codegen.Lowering — the invariant through the statements

`Keeps P x Q` is a triple over the context of the function. Its rules for the generators
carry `FnCtx.At ps ts o`: the invariant with the pending blocks `ps`, and maybe stray
ones where an error has been reported, and with `ts` among the blocks that may be
branched to.
-/

namespace Hlang

/-- Every chain of comparisons in the statement has at least one. -/
inductive Stmt.Chained : Stmt → Prop where
  | block {loc : SrcLoc} {body : List Stmt} (h : ∀ s ∈ body, Stmt.Chained s) :
      Stmt.Chained (.block loc body)
  | expr {loc : SrcLoc} {e : Expr} (h : e.Chained) : Stmt.Chained (.expr loc e)
  | ifS {loc : SrcLoc} {e : Expr} {body : Stmt} {body2 : Option Stmt} (he : e.Chained)
      (h : Stmt.Chained body) (h2 : ∀ s, body2 = some s → Stmt.Chained s) :
      Stmt.Chained (.ifS loc e body body2)
  | whileS {loc : SrcLoc} {e : Expr} {body : Stmt} (he : e.Chained) (h : Stmt.Chained body) :
      Stmt.Chained (.whileS loc e body)
  | doWhile {loc : SrcLoc} {e : Expr} {body : Stmt} (he : e.Chained) (h : Stmt.Chained body) :
      Stmt.Chained (.doWhile loc e body)
  | forS {loc : SrcLoc} {init : List Expr} {e : Option Expr} {post : List Expr} {body : Stmt}
      (hinit : ∀ e ∈ init, e.Chained) (he : ∀ c, e = some c → c.Chained)
      (hpost : ∀ e ∈ post, e.Chained) (h : Stmt.Chained body) :
      Stmt.Chained (.forS loc init e post body)
  | switchS {loc : SrcLoc} {e : Expr} {body : Stmt} (he : e.Chained) (h : Stmt.Chained body) :
      Stmt.Chained (.switchS loc e body)
  | caseS (loc : SrcLoc) (caseLo : Option (Expr × Option Expr)) : Stmt.Chained (.caseS loc caseLo)
  | defaultS (loc : SrcLoc) : Stmt.Chained (.defaultS loc)
  | subStart (loc : SrcLoc) : Stmt.Chained (.subStart loc)
  | subEnd (loc : SrcLoc) : Stmt.Chained (.subEnd loc)
  | breakS (loc : SrcLoc) : Stmt.Chained (.breakS loc)
  | gotoS (loc : SrcLoc) (label : String) : Stmt.Chained (.gotoS loc label)
  | labelS (loc : SrcLoc) (label : String) : Stmt.Chained (.labelS loc label)
  | returnS {loc : SrcLoc} {e : Option Expr} (h : ∀ c, e = some c → c.Chained) :
      Stmt.Chained (.returnS loc e)
  | varDecl {loc : SrcLoc} {decls : List VarDeclarator} {isStatic : Bool}
      (ht : ∀ v ∈ decls, v.type.Chained) (hi : ∀ v ∈ decls, ∀ e, v.init = some e → e.Chained) :
      Stmt.Chained (.varDecl loc decls isStatic)
  | tryS {loc : SrcLoc} {body body2 : List Stmt} (h : ∀ s ∈ body, Stmt.Chained s)
      (h2 : ∀ s ∈ body2, Stmt.Chained s) : Stmt.Chained (.tryS loc body body2)
  | noWarn (loc : SrcLoc) : Stmt.Chained (.noWarn loc)
  | lock {loc : SrcLoc} {body : Stmt} (h : Stmt.Chained body) : Stmt.Chained (.lock loc body)
  | empty (loc : SrcLoc) : Stmt.Chained (.empty loc)

end Hlang

namespace Hlang.Codegen

open Ir Gen Cg

/-! ## The triple -/

/-- From a context that satisfies `P`, `x` leads to a context that satisfies `Q`. -/
def Keeps {α : Type} (P : FnCtx → Prop) (x : Cg α) (Q : α → FnCtx → Prop) : Prop :=
  ∀ F, P F → ∀ a F', x F = .ok (a, F') → Q a F'

/-- The invariant, with stray pending blocks where an error has been reported. -/
def FnCtx.At (ps ts : List Blk) (o : Bool) (F : FnCtx) : Prop :=
  ∃ stray, F.Good (ps ++ stray) ts o ∧ (F.b.errors = [] → stray = [])

theorem Cg.bind_eq_ok {α β : Type} {x : Cg α} {f : α → Cg β} {F : FnCtx} {r : β × FnCtx} :
    (x >>= f) F = .ok r ↔ ∃ a F₁, x F = .ok (a, F₁) ∧ f a F₁ = .ok r := by
  change (x F >>= fun p => f p.1 p.2) = .ok r ↔ _
  cases hx : x F with
  | error e => simp [bind, Except.bind]
  | ok p =>
      rcases p with ⟨a, F₁⟩
      simp [bind, Except.bind]

theorem ir_bind {α β : Type} (x : Gen α) (f : α → Gen β) :
    ir (x >>= f) = ir x >>= fun a => ir (f a) := by
  funext F
  change ir (x >>= f) F = (ir x F >>= fun p => ir (f p.1) p.2)
  cases hx : x F.b with
  | error s =>
      have hir : ir x F = .error s := by
        unfold ir
        rw [hx]
      have hbind : (x >>= f) F.b = .error s := by
        change (x F.b >>= fun p => f p.1 p.2) = _
        rw [hx]
        rfl
      rw [hir]
      unfold ir
      rw [hbind]
      rfl
  | ok p =>
      have hir : ir x F = .ok (p.1, { F with b := p.2 }) := by
        unfold ir
        rw [hx]
      rw [hir]
      unfold ir
      rw [Gen.bind_ok hx]
      rfl

section Rules

variable {α β : Type} {x : Cg α} {f : α → Cg β} {P P' : FnCtx → Prop} {Q Q' : α → FnCtx → Prop}
  {S : β → FnCtx → Prop} {ps ps' ts ts' : List Blk} {o : Bool}

theorem Keeps.mono (h : Keeps P x Q) (hQ : ∀ a F, Q a F → Q' a F) : Keeps P x Q' :=
  fun F hP a F' hx => hQ a F' (h F hP a F' hx)

theorem Keeps.pre (h : Keeps P x Q) (hP : ∀ F, P' F → P F) : Keeps P' x Q :=
  fun F hF => h F (hP F hF)

theorem Keeps.bind (hx : Keeps P x Q) (hf : ∀ a, Keeps (Q a) (f a) S) : Keeps P (x >>= f) S := by
  intro F hP b F'' hxf
  rcases Cg.bind_eq_ok.mp hxf with ⟨a, F', hxF, hfF⟩
  exact hf a F' (hx F hP a F' hxF) b F'' hfF

theorem Keeps.pure {a : α} (h : ∀ F, P F → Q a F) : Keeps P (pure a) Q := by
  intro F hP a' F' hx
  rcases Prod.mk.inj (Except.ok.inj hx) with ⟨rfl, rfl⟩
  exact h F hP

theorem keeps_get : Keeps P get fun _ => P := by
  intro F hP F₁ F' hx
  rcases Prod.mk.inj (Except.ok.inj hx) with ⟨_, rfl⟩
  exact hP

theorem Keeps.stop (s : Stop) : Keeps P (ir (stop s) : Cg α) Q := by
  intro F _ a F' hx
  cases hx

theorem FnCtx.At.step {F F' : FnCtx} {o' : Bool} (h : F.At ps ts o)
    (hgood : ∀ qs, F.Good (ps ++ qs) ts o → F'.Good (ps' ++ qs) ts' o')
    (herr : F'.b.errors = [] → F.b.errors = []) : F'.At ps' ts' o' := by
  rcases h with ⟨stray, hg, hs⟩
  exact ⟨stray, hgood stray hg, fun he => hs (herr he)⟩

theorem FnCtx.At.perm {F : FnCtx} (h : F.At ps ts o) (hp : ps.Perm ps') : F.At ps' ts o :=
  h.step (fun _ hg => hg.perm (hp.append_right _)) id

theorem FnCtx.At.weaken {F : FnCtx} (h : F.At ps ts o) (hts : ts' ⊆ ts) : F.At ps ts' o :=
  h.step (fun _ hg => hg.weaken hts) id

theorem keeps_error (loc : SrcLoc) (msg : String) :
    Keeps (FnCtx.At ps ts o) (ir (error loc msg)) fun _ => FnCtx.At ps ts o := by
  intro F h a F' hx
  rcases Prod.mk.inj (Except.ok.inj hx) with ⟨_, rfl⟩
  refine h.step (fun _ hg => hg.congr rfl rfl rfl rfl rfl rfl hg.scopes hg.live) ?_
  intro he
  exact (List.append_eq_nil_iff.mp he).1

/-- A stretch of code. -/
theorem keeps_makes {x : Gen α} {R : α → Prop} (hx : Makes x R) :
    Keeps (FnCtx.At ps ts true) (ir x) fun _ => FnCtx.At ps ts true := by
  intro F h a F' hF
  unfold ir at hF
  split at hF
  · next b B hB =>
      rcases Prod.mk.inj (Except.ok.inj hF) with ⟨rfl, rfl⟩
      rcases h with ⟨stray, hg, hs⟩
      rcases hx F.b hg.wf _ _ hB with ⟨⟨ms, hst⟩, _⟩
      refine ⟨stray, hg.stretch hst rfl, ?_⟩
      intro he
      exact hs (List.prefix_nil.mp (he ▸ hst.le.errors))
  · cases hF

theorem keeps_spec {x : Gen α} {R : α → List Site → Prop} (hx : Spec x R) :
    Keeps (FnCtx.At ps ts true) (ir x) fun _ => FnCtx.At ps ts true := keeps_makes hx.makes

theorem keeps_newBlock :
    Keeps (FnCtx.At ps ts o) (ir newBlock) fun b => FnCtx.At (b :: ps) (b :: ts) o := by
  intro F h a F' hx
  rcases Prod.mk.inj (Except.ok.inj hx) with ⟨rfl, rfl⟩
  exact h.step (fun _ hg => hg.newBlock rfl) id

/-- A terminator that is no switch. -/
theorem keeps_terminate {i : Instr} (hi : i.isTerminator = true) (hsw : ∀ n v, i ≠ .switch n v)
    (ht : ∀ t ∈ i.targets, t ∈ ts) :
    Keeps (FnCtx.At ps ts true) (ir (emit i)) fun _ => FnCtx.At ps ts false := by
  intro F h a F' hx
  rcases Prod.mk.inj (Except.ok.inj hx) with ⟨_, rfl⟩
  refine h.step (fun _ hg => ?_) id
  refine hg.terminate hi rfl rfl rfl (List.prefix_refl _) rfl rfl ?_ ?_ hg.dests
  · intro n v heq
    exact absurd heq (hsw n v)
  · intro t htm
    refine hg.target t (.inl (ht t ?_))
    cases i with
    | switch n v => exact absurd rfl (hsw n v)
    | _ => exact htm

theorem keeps_br {t : Blk} (ht : t ∈ ts) :
    Keeps (FnCtx.At ps ts true) (ir (emit (.br t))) fun _ => FnCtx.At ps ts false := by
  refine keeps_terminate rfl (fun _ _ => Instr.noConfusion) ?_
  intro t' ht'
  rcases List.mem_singleton.mp ht' with rfl
  exact ht

theorem keeps_condBr {c : Value} {t f : Blk} (ht : t ∈ ts) (hf : f ∈ ts) :
    Keeps (FnCtx.At ps ts true) (ir (emit (.condBr c t f))) fun _ => FnCtx.At ps ts false := by
  refine keeps_terminate rfl (fun _ _ => Instr.noConfusion) ?_
  intro t' ht'
  rcases List.mem_cons.mp ht' with rfl | ht'
  · exact ht
  · rcases List.mem_singleton.mp ht' with rfl
    exact hf

theorem keeps_ret (v : Option Value) :
    Keeps (FnCtx.At ps ts true) (ir (emit (.ret v))) fun _ => FnCtx.At ps ts false :=
  keeps_terminate rfl (fun _ _ => Instr.noConfusion) fun _ ht => absurd ht List.not_mem_nil

theorem keeps_setInsertPoint {b : Blk} (hp : ps.Perm (b :: ps')) :
    Keeps (FnCtx.At ps ts false) (ir (setInsertPoint b)) fun _ => FnCtx.At ps' ts true := by
  intro F h a F' hx
  rcases Prod.mk.inj (Except.ok.inj hx) with ⟨_, rfl⟩
  exact (h.perm hp).step (fun _ hg => hg.setInsertPoint rfl) id

/-- An open block has no terminator. -/
theorem FnCtx.At.open {F : FnCtx} (h : F.At ps ts true) : hasTerminator F = .ok (false, F) := by
  rcases h with ⟨stray, hg, _⟩
  have hun : Unended (F.b.code F.b.cur) := hg.cur
  have hnone : (F.b.log.code F.b.cur).getLast?.any (·.isTerminator) = false := by
    cases hl : (F.b.log.code F.b.cur).getLast? with
    | none => rfl
    | some i => exact hun i (List.mem_of_getLast? hl)
  unfold hasTerminator
  rw [hnone]

/-- What is done where the block is open. -/
theorem keeps_ifOpenElse {y z : Cg Unit} {Q : Unit → FnCtx → Prop}
    (hy : Keeps (FnCtx.At ps ts true) y Q) :
    Keeps (FnCtx.At ps ts true) (do if !(← hasTerminator) then y else z) Q := by
  intro F h a F' hx
  rcases Cg.bind_eq_ok.mp hx with ⟨b, F₁, hb, hx⟩
  rw [h.open] at hb
  rcases Prod.mk.inj (Except.ok.inj hb) with ⟨rfl, rfl⟩
  exact hy F h a F' hx

theorem keeps_ifOpen {y : Cg Unit} {Q : Unit → FnCtx → Prop}
    (hy : Keeps (FnCtx.At ps ts true) y Q) :
    Keeps (FnCtx.At ps ts true) (do if !(← hasTerminator) then y) Q := keeps_ifOpenElse hy

theorem keeps_brIfOpen {t : Blk} (ht : t ∈ ts) :
    Keeps (FnCtx.At ps ts true) (brIfOpen t) fun _ => FnCtx.At ps ts false :=
  keeps_ifOpen (keeps_br ht)

theorem keeps_startDeadBlock :
    Keeps (FnCtx.At ps ts false) startDeadBlock fun _ => FnCtx.At ps ts true :=
  .bind keeps_newBlock fun _ => (keeps_setInsertPoint (List.Perm.refl _)).mono
    fun _ _ h => h.weaken (List.subset_cons_self _ _)

/-- A change of the names that are bound. -/
theorem keeps_modify {f : FnCtx → FnCtx} (hb : ∀ F, (f F).b = F.b)
    (hlabels : ∀ F, (f F).labels = F.labels) (hdefined : ∀ F, (f F).labelsDefined = F.labelsDefined)
    (htables : ∀ F, (f F).tables = F.tables)
    (hscopes : ∀ F : FnCtx, (∀ sc ∈ F.scopes, ∀ v ∈ sc, v.2.type.Chained) →
      ∀ sc ∈ (f F).scopes, ∀ v ∈ sc, v.2.type.Chained)
    (hlive : ∀ F : FnCtx, ScopeEvent.skip ∉ F.scopeLog → ScopeEvent.skip ∉ (f F).scopeLog) :
    Keeps (FnCtx.At ps ts o) (modify f) fun _ => FnCtx.At ps ts o := by
  intro F h a F' hx
  rcases Prod.mk.inj (Except.ok.inj hx) with ⟨_, rfl⟩
  refine h.step (fun _ hg => ?_) ?_
  · exact hg.congr (by rw [hb]) (by rw [hb]) (by rw [hb]) (hlabels F) (hdefined F) (htables F)
      (hscopes F hg.scopes) (hlive F hg.live)
  · rw [hb]
    exact id

theorem keeps_note {ev : ScopeEvent} (hev : ev ≠ .skip) :
    Keeps (FnCtx.At ps ts o) (note ev) fun _ => FnCtx.At ps ts o := by
  refine keeps_modify (fun _ => rfl) (fun _ => rfl) (fun _ => rfl) (fun _ => rfl)
    (fun _ h => h) ?_
  intro F h hmem
  rcases List.mem_append.mp hmem with hmem | hmem
  · exact h hmem
  · exact hev (List.mem_singleton.mp hmem).symm

theorem keeps_pushScope : Keeps (FnCtx.At ps ts o) pushScope fun _ => FnCtx.At ps ts o := by
  refine .bind (keeps_note ScopeEvent.noConfusion) fun _ => ?_
  refine keeps_modify (fun _ => rfl) (fun _ => rfl) (fun _ => rfl) (fun _ => rfl) ?_ fun _ h => h
  intro F h sc hsc
  rcases List.mem_cons.mp hsc with rfl | hsc
  · exact fun v hv => absurd hv List.not_mem_nil
  · exact h sc hsc

theorem keeps_popScope : Keeps (FnCtx.At ps ts o) popScope fun _ => FnCtx.At ps ts o := by
  refine .bind (keeps_note ScopeEvent.noConfusion) fun _ => ?_
  refine keeps_modify (fun _ => rfl) (fun _ => rfl) (fun _ => rfl) (fun _ => rfl) ?_ fun _ h => h
  exact fun F h sc hsc => h sc (List.mem_of_mem_tail hsc)

theorem keeps_inScope {x : Cg Unit}
    (hx : Keeps (FnCtx.At ps ts true) x fun _ => FnCtx.At ps ts true) :
    Keeps (FnCtx.At ps ts true) (inScope x) fun _ => FnCtx.At ps ts true :=
  .bind keeps_pushScope fun _ => .bind hx fun _ => keeps_popScope

theorem keeps_bindName (name : String) {sym : VarSym} (hsym : sym.type.Chained) :
    Keeps (FnCtx.At ps ts o) (bindName name sym) fun _ => FnCtx.At ps ts o := by
  refine .bind (keeps_note ScopeEvent.noConfusion) fun _ => ?_
  refine keeps_modify (fun _ => rfl) (fun _ => rfl) (fun _ => rfl) (fun _ => rfl) ?_ fun _ h => h
  intro F h sc hsc v hv
  cases hs : F.scopes with
  | nil =>
      rw [hs] at hsc
      cases hsc
  | cons s ss =>
      rw [hs] at h hsc
      rcases List.mem_cons.mp hsc with rfl | hsc
      · rcases List.mem_cons.mp hv with rfl | hv
        · exact hsym
        · exact h s List.mem_cons_self v hv
      · exact h sc (List.mem_cons_of_mem _ hsc) v hv

theorem keeps_declareLocal (name : String) (sym : VarSym) (loc : SrcLoc) (hsym : sym.type.Chained) :
    Keeps (FnCtx.At ps ts true) (declareLocal name sym loc) fun _ => FnCtx.At ps ts true := by
  unfold declareLocal
  refine .bind keeps_get fun F => ?_
  split_ifs
  · exact keeps_error loc _
  · refine .bind (keeps_modify (fun _ => rfl) (fun _ => rfl) (fun _ => rfl) (fun _ => rfl) ?_ ?_)
      fun _ => keeps_bindName name hsym
    · exact fun F h => h
    · exact fun F h => h

end Rules

/-! ## Expressions, branches and loops -/

theorem chained_inScopes {Γ : Env} (h : ({ Γ with scopes := [] } : Env).Chained)
    {scopes : List (List (String × VarSym))}
    (hs : ∀ sc ∈ scopes, ∀ v ∈ sc, v.2.type.Chained) :
    ({ Γ with scopes := scopes } : Env).Chained := by
  refine ⟨?_, h.func, h.member, h.whole⟩
  intro s v hv
  unfold Env.lookupVar at hv
  split at hv
  · next w hw =>
      rcases Option.some.inj hv with rfl
      rcases List.exists_of_findSome?_eq_some hw with ⟨sc, hsc, hlookup⟩
      rcases List.lookup_eq_some_iff.mp hlookup with ⟨l₁, l₂, heq, _⟩
      refine hs sc hsc (s, w) ?_
      rw [heq]
      exact List.mem_append_right _ List.mem_cons_self
  · exact h.var s v hv

section Stmts

variable {Γ : Env} {d : Nat} {ps ts : List Blk}

/-- A stretch of code that depends on the scopes. -/
theorem keeps_use {α : Type} (hΓ : ({ Γ with scopes := [] } : Env).Chained) (e : Expr)
    {x : Env → Gen α} {R : α → Prop} (hx : ∀ Γ' : Env, Γ'.Chained → Makes (x Γ') R) :
    Keeps (FnCtx.At ps ts true) (do
      let F ← get
      note (.use F.scopes e)
      ir (x { Γ with scopes := F.scopes })) fun _ => FnCtx.At ps ts true := by
  intro F h a F' hF
  rcases Cg.bind_eq_ok.mp hF with ⟨_, F₁, hget, hF⟩
  rcases Prod.mk.inj (Except.ok.inj hget) with ⟨rfl, rfl⟩
  rcases Cg.bind_eq_ok.mp hF with ⟨_, F₁, hnote, hF⟩
  have hscopes : ({ Γ with scopes := F.scopes } : Env).Chained := by
    rcases h with ⟨stray, hg, _⟩
    exact chained_inScopes hΓ hg.scopes
  exact keeps_makes (hx _ hscopes) F₁ (keeps_note ScopeEvent.noConfusion F h _ F₁ hnote) a F' hF

theorem keeps_genExpr (hΓ : ({ Γ with scopes := [] } : Env).Chained) {e : Expr} (he : e.Chained) :
    Keeps (FnCtx.At ps ts true) (genExpr Γ d e) fun _ => FnCtx.At ps ts true :=
  keeps_use hΓ e (x := fun Γ' => (gen Γ' d).genExpr [] e)
    fun _ hΓ' => (straight_gen hΓ' d).expr [] e he

theorem keeps_genCond (hΓ : ({ Γ with scopes := [] } : Env).Chained) (loc : SrcLoc) {e : Expr}
    (he : e.Chained) :
    Keeps (FnCtx.At ps ts true) (genCond Γ d loc e) fun _ => FnCtx.At ps ts true :=
  .bind (keeps_genExpr hΓ he) fun _ => keeps_spec (silent_truthy _ _)

theorem keeps_genExprs (hΓ : ({ Γ with scopes := [] } : Env).Chained) {es : List Expr}
    (hes : ∀ e ∈ es, e.Chained) :
    Keeps (FnCtx.At ps ts true) (genExprs Γ d es) fun _ => FnCtx.At ps ts true := by
  induction es with
  | nil => exact .pure fun _ => id
  | cons e es ih =>
      exact .bind (keeps_genExpr hΓ (hes e List.mem_cons_self)) fun _ =>
        ih fun e he => hes e (List.mem_cons_of_mem _ he)

/-- What generates statements: the invariant is kept for all pending blocks and targets,
as long as `ts₀` are among them. -/
def KeepsAll (ts₀ : List Blk) (x : Cg Unit) : Prop :=
  ∀ ps ts, ts₀ ⊆ ts → Keeps (FnCtx.At ps ts true) x fun _ => FnCtx.At ps ts true

/-- The else block is a third one, or the end. -/
theorem keeps_elseBlock (els : Option (Cg Unit)) (thenBB endBB : Blk) :
    Keeps (FnCtx.At (endBB :: thenBB :: ps) (endBB :: thenBB :: ts) true)
      (ir (if els.isSome then newBlock else pure endBB)) fun elseBB =>
        FnCtx.At (thenBB :: (if els.isSome then elseBB :: endBB :: ps else endBB :: ps))
          (elseBB :: endBB :: thenBB :: ts) true := by
  cases els with
  | none =>
      intro F h a F' hx
      rcases Prod.mk.inj (Except.ok.inj hx) with ⟨rfl, rfl⟩
      refine (h.perm (List.Perm.swap _ _ _)).weaken ?_
      intro b hb
      rcases List.mem_cons.mp hb with rfl | hb
      · exact List.mem_cons_self
      · exact hb
  | some x =>
      refine keeps_newBlock.mono fun b F h => h.perm ?_
      exact (List.Perm.cons _ (List.Perm.swap _ _ _)).trans (List.Perm.swap _ _ _)

theorem keeps_genElse {els : Option (Cg Unit)} {elseBB endBB : Blk} {ts₀ : List Blk}
    (hels : ∀ x, els = some x → KeepsAll ts₀ x) (hts : ts₀ ⊆ ts) (hend : endBB ∈ ts) :
    Keeps (FnCtx.At (if els.isSome then elseBB :: ps else ps) ts false)
      (genElse els elseBB endBB) fun _ => FnCtx.At ps ts false := by
  cases els with
  | none => exact .pure fun _ => id
  | some x =>
      exact .bind (keeps_setInsertPoint (List.Perm.refl _)) fun _ =>
        .bind (hels x rfl ps ts hts) fun _ => keeps_brIfOpen hend

theorem keeps_genIf (hΓ : ({ Γ with scopes := [] } : Env).Chained) (loc : SrcLoc) {e : Expr}
    (he : e.Chained) {thn : Cg Unit} {els : Option (Cg Unit)} {ts₀ : List Blk}
    (hthn : KeepsAll ts₀ thn) (hels : ∀ x, els = some x → KeepsAll ts₀ x) :
    KeepsAll ts₀ (genIf Γ d loc e thn els) := by
  intro ps ts hts
  unfold genIf
  refine .bind (keeps_genCond hΓ loc he) fun c => .bind keeps_newBlock fun thenBB => ?_
  refine .bind keeps_newBlock fun endBB => ?_
  refine .bind (keeps_elseBlock els thenBB endBB) fun elseBB => .bind (keeps_condBr ?_ ?_) fun _ => ?_
  · exact List.mem_cons_of_mem _ (List.mem_cons_of_mem _ List.mem_cons_self)
  · exact List.mem_cons_self
  have hts' : ts₀ ⊆ elseBB :: endBB :: thenBB :: ts := fun b hb =>
    List.mem_cons_of_mem _ (List.mem_cons_of_mem _ (List.mem_cons_of_mem _ (hts hb)))
  have hend : endBB ∈ elseBB :: endBB :: thenBB :: ts :=
    List.mem_cons_of_mem _ List.mem_cons_self
  refine .bind (keeps_setInsertPoint (List.Perm.refl _)) fun _ => .bind (hthn _ _ hts') fun _ => ?_
  refine .bind (keeps_brIfOpen hend) fun _ => .bind (keeps_genElse hels hts' hend) fun _ => ?_
  refine (keeps_setInsertPoint (List.Perm.refl _)).mono fun _ F h => h.weaken ?_
  exact fun b hb => List.mem_cons_of_mem _ (List.mem_cons_of_mem _ (List.mem_cons_of_mem _ hb))

/-- The three blocks of a loop, in the order in which they are filled. -/
theorem keeps_loopBlocks : Keeps (FnCtx.At ps ts true) (do
      let a ← ir newBlock
      let b ← ir newBlock
      let c ← ir newBlock
      return (a, b, c)) fun r =>
    FnCtx.At (r.1 :: r.2.1 :: r.2.2 :: ps) (r.1 :: r.2.1 :: r.2.2 :: ts) true := by
  refine .bind keeps_newBlock fun a => .bind keeps_newBlock fun b => .bind keeps_newBlock fun c => ?_
  refine .pure fun F h => ?_
  have hperm : ∀ l : List Blk, (c :: b :: a :: l).Perm (a :: b :: c :: l) := fun l =>
    (List.reverse_perm [a, b, c]).append_right l
  exact (h.perm (hperm ps)).weaken (hperm ts).symm.subset

/-- What a loop adds to the targets. -/
theorem sub_loop {ts₀ : List Blk} (h : ts₀ ⊆ ts) (a b c : Blk) : ts₀ ⊆ a :: b :: c :: ts :=
  fun _ hb => List.mem_cons_of_mem _ (List.mem_cons_of_mem _ (List.mem_cons_of_mem _ (h hb)))

/-- The body of a loop, which may break to its end. -/
def KeepsBody (ts₀ : List Blk) (body : BreakTarget → Cg Unit) : Prop :=
  ∀ endBB, KeepsAll (endBB :: ts₀) (body ⟨endBB, none⟩)

theorem keeps_genWhile (hΓ : ({ Γ with scopes := [] } : Env).Chained) (loc : SrcLoc) {e : Expr}
    (he : e.Chained) {body : BreakTarget → Cg Unit} {ts₀ : List Blk}
    (hbody : KeepsBody ts₀ body) : KeepsAll ts₀ (genWhile Γ d loc e body) := by
  intro ps ts hts
  have h : ∀ condBB bodyBB endBB, Keeps
      (FnCtx.At (condBB :: bodyBB :: endBB :: ps) (condBB :: bodyBB :: endBB :: ts) true) (do
        ir (emit (.br condBB))
        ir (setInsertPoint condBB)
        let c ← genCond Γ d loc e
        ir (emit (.condBr c bodyBB endBB))
        ir (setInsertPoint bodyBB)
        body ⟨endBB, none⟩
        brIfOpen condBB
        ir (setInsertPoint endBB)) fun _ => FnCtx.At ps ts true := by
    intro condBB bodyBB endBB
    refine .bind (keeps_br (by simp)) fun _ => ?_
    refine .bind (keeps_setInsertPoint (List.Perm.refl _)) fun _ => ?_
    refine .bind (keeps_genCond hΓ loc he) fun c => .bind (keeps_condBr (by simp) (by simp)) ?_
    intro _
    refine .bind (keeps_setInsertPoint (List.Perm.refl _)) fun _ => .bind (hbody endBB _ _ ?_) ?_
    · exact List.cons_subset.mpr ⟨by simp, sub_loop hts _ _ _⟩
    · intro _
      refine .bind (keeps_brIfOpen (by simp)) fun _ => ?_
      exact (keeps_setInsertPoint (List.Perm.refl _)).mono fun _ F h =>
        h.weaken (sub_loop (List.Subset.refl _) _ _ _)
  exact fun F hF a F' hx => (Keeps.bind keeps_loopBlocks fun r => h r.1 r.2.1 r.2.2) F hF a F' hx

theorem keeps_genDoWhile (hΓ : ({ Γ with scopes := [] } : Env).Chained) (loc : SrcLoc) {e : Expr}
    (he : e.Chained) {body : BreakTarget → Cg Unit} {ts₀ : List Blk}
    (hbody : KeepsBody ts₀ body) : KeepsAll ts₀ (genDoWhile Γ d loc e body) := by
  intro ps ts hts
  have h : ∀ bodyBB condBB endBB, Keeps
      (FnCtx.At (bodyBB :: condBB :: endBB :: ps) (bodyBB :: condBB :: endBB :: ts) true) (do
        ir (emit (.br bodyBB))
        ir (setInsertPoint bodyBB)
        body ⟨endBB, none⟩
        brIfOpen condBB
        ir (setInsertPoint condBB)
        let c ← genCond Γ d loc e
        ir (emit (.condBr c bodyBB endBB))
        ir (setInsertPoint endBB)) fun _ => FnCtx.At ps ts true := by
    intro bodyBB condBB endBB
    refine .bind (keeps_br (by simp)) fun _ => ?_
    refine .bind (keeps_setInsertPoint (List.Perm.refl _)) fun _ => .bind (hbody endBB _ _ ?_) ?_
    · exact List.cons_subset.mpr ⟨by simp, sub_loop hts _ _ _⟩
    · intro _
      refine .bind (keeps_brIfOpen (by simp)) fun _ => ?_
      refine .bind (keeps_setInsertPoint (List.Perm.refl _)) fun _ => ?_
      refine .bind (keeps_genCond hΓ loc he) fun c => .bind (keeps_condBr (by simp) (by simp)) ?_
      intro _
      exact (keeps_setInsertPoint (List.Perm.refl _)).mono fun _ F h =>
        h.weaken (sub_loop (List.Subset.refl _) _ _ _)
  exact fun F hF a F' hx => (Keeps.bind keeps_loopBlocks fun r => h r.1 r.2.1 r.2.2) F hF a F' hx

theorem keeps_genForCond (hΓ : ({ Γ with scopes := [] } : Env).Chained) (loc : SrcLoc)
    {e : Option Expr} (he : ∀ c, e = some c → c.Chained) {bodyBB endBB : Blk} (hb : bodyBB ∈ ts)
    (hend : endBB ∈ ts) : Keeps (FnCtx.At ps ts true) (genForCond Γ d loc e bodyBB endBB)
      fun _ => FnCtx.At ps ts false := by
  cases e with
  | none => exact keeps_br hb
  | some e => exact .bind (keeps_genCond hΓ loc (he e rfl)) fun _ => keeps_condBr hb hend

theorem keeps_genFor (hΓ : ({ Γ with scopes := [] } : Env).Chained) (loc : SrcLoc)
    {init : List Expr} {e : Option Expr} {post : List Expr} (hinit : ∀ e ∈ init, e.Chained)
    (he : ∀ c, e = some c → c.Chained) (hpost : ∀ e ∈ post, e.Chained)
    {body : BreakTarget → Cg Unit} {ts₀ : List Blk} (hbody : KeepsBody ts₀ body) :
    KeepsAll ts₀ (genFor Γ d loc init e post body) := by
  intro ps ts hts
  have h : ∀ condBB bodyBB endBB, Keeps
      (FnCtx.At (condBB :: bodyBB :: endBB :: ps) (condBB :: bodyBB :: endBB :: ts) true) (do
        ir (emit (.br condBB))
        ir (setInsertPoint condBB)
        genForCond Γ d loc e bodyBB endBB
        ir (setInsertPoint bodyBB)
        body ⟨endBB, none⟩
        genForPost Γ d post condBB
        ir (setInsertPoint endBB)) fun _ => FnCtx.At ps ts true := by
    intro condBB bodyBB endBB
    refine .bind (keeps_br (by simp)) fun _ => ?_
    refine .bind (keeps_setInsertPoint (List.Perm.refl _)) fun _ => ?_
    refine .bind (keeps_genForCond hΓ loc he (by simp) (by simp)) fun _ => ?_
    refine .bind (keeps_setInsertPoint (List.Perm.refl _)) fun _ => .bind (hbody endBB _ _ ?_) ?_
    · exact List.cons_subset.mpr ⟨by simp, sub_loop hts _ _ _⟩
    · intro _
      refine .bind (keeps_ifOpenElse (.bind (keeps_genExprs hΓ hpost) fun _ =>
        keeps_br (by simp))) ?_
      intro _
      exact (keeps_setInsertPoint (List.Perm.refl _)).mono fun _ F h =>
        h.weaken (sub_loop (List.Subset.refl _) _ _ _)
  exact .bind (keeps_genExprs hΓ hinit) fun _ F hF a F' hx =>
    (Keeps.bind keeps_loopBlocks fun r => h r.1 r.2.1 r.2.2) F hF a F' hx

theorem keeps_genReturn (hΓ : ({ Γ with scopes := [] } : Env).Chained) {e : Option Expr}
    (he : ∀ c, e = some c → c.Chained) :
    Keeps (FnCtx.At ps ts true) (genReturn Γ d e) fun _ => FnCtx.At ps ts true := by
  have hconv : ∀ (v : RV) (t : Ty) (norm : Bool), Keeps (FnCtx.At ps ts true)
      (ir (do emit (.ret (some (← convert v t norm))))) fun _ => FnCtx.At ps ts false := by
    intro v t norm
    rw [ir_bind]
    exact .bind (keeps_spec (silent_convert v t norm)) fun w => keeps_ret (some w)
  unfold genReturn
  refine .bind keeps_get fun F => .bind (Q := fun _ => FnCtx.At ps ts false) ?_ fun _ =>
    keeps_startDeadBlock
  unfold genRetValue
  split
  · exact keeps_ret none
  · next e _ => exact .bind (keeps_genExpr hΓ (he e rfl)) fun _ => keeps_ret none
  · exact keeps_ret _
  · next e _ => exact .bind (keeps_genExpr hΓ (he e rfl)) fun _ => hconv _ _ _
  · exact keeps_ret _
  · next e _ => exact .bind (keeps_genExpr hΓ (he e rfl)) fun _ => hconv _ _ _

/-! ## Switch -/

/-- The invariant between the items of a switch. -/
def AtItem (exitBB : Blk) (swc : SwitchCtx) (ps ts : List Blk) (F : FnCtx) : Prop :=
  swc.exitBB = exitBB ∧ ∃ ts', ts ⊆ ts' ∧
    (swc.inGroup = true → swc.groupStartBB ∈ ts' ∧ swc.groupEndBB ∈ ts') ∧
    F.At (if swc.inGroup then swc.groupEndBB :: ps else ps) ts' true

/-- A table gets more targets. -/
theorem keeps_addCases {o : Bool} {bb : Blk} (hbb : bb ∈ ts) (sw : Nat) (vs : List I64) :
    Keeps (FnCtx.At ps ts o) (addCases sw vs bb) fun _ => FnCtx.At ps ts o := by
  intro F h a F' hx
  rcases Prod.mk.inj (Except.ok.inj hx) with ⟨_, rfl⟩
  refine h.step (fun _ hg => hg.modifyTable ?_ rfl) id
  intro t b hb
  rcases List.mem_cons.mp hb with rfl | hb
  · exact .inl List.mem_cons_self
  · rw [List.map_append] at hb
    rcases List.mem_append.mp hb with hb | hb
    · exact .inl (List.mem_cons_of_mem _ hb)
    · rw [List.map_map] at hb
      rcases List.mem_map.mp hb with ⟨_, _, rfl⟩
      exact .inr (hg.target bb (.inl hbb))

theorem keeps_setDefaultDest {o : Bool} {bb : Blk} (hbb : bb ∈ ts) (sw : Nat) :
    Keeps (FnCtx.At ps ts o) (setDefaultDest sw bb) fun _ => FnCtx.At ps ts o := by
  intro F h a F' hx
  rcases Prod.mk.inj (Except.ok.inj hx) with ⟨_, rfl⟩
  refine h.step (fun _ hg => hg.modifyTable ?_ rfl) id
  intro t b hb
  rcases List.mem_cons.mp hb with rfl | hb
  · exact .inr (hg.target _ (.inl hbb))
  · exact .inl (List.mem_cons_of_mem _ hb)

theorem keeps_createSwitch (v : Value) {dflt : Blk} (hd : dflt ∈ ts) :
    Keeps (FnCtx.At ps ts true) (createSwitch v dflt) fun _ => FnCtx.At ps ts false := by
  intro F h a F' hx
  rcases Prod.mk.inj (Except.ok.inj hx) with ⟨_, rfl⟩
  refine h.step (fun qs hg => ?_) id
  have hblocks : ∀ b ∈ (⟨dflt, []⟩ : SwitchTable).blocks, F.Target b := by
    intro b hb
    rcases List.mem_singleton.mp hb with rfl
    exact hg.target _ (.inl hd)
  refine hg.terminate (i := .switch F.tables.length v) rfl rfl rfl rfl (List.prefix_append _ _) rfl
    rfl ?_ ?_ ?_
  · intro n w heq
    rcases Instr.switch.inj heq with ⟨rfl, _⟩
    change F.tables.length < (F.tables ++ _).length
    rw [List.length_append]
    exact Nat.lt_succ_self _
  · intro t ht
    dsimp only [FnCtx.targets] at ht
    rw [List.getElem?_append_right (Nat.le_refl _), Nat.sub_self] at ht
    exact hblocks t ht
  · intro t ht b hb
    rcases List.mem_append.mp ht with ht | ht
    · exact hg.dests t ht b hb
    · rcases List.mem_singleton.mp ht with rfl
      exact hblocks b hb

theorem keeps_emitStub {stub start : Blk} {o : Bool} (hstart : start ∈ ts) (groupSel : Value)
    (id' : Nat) : Keeps (FnCtx.At (stub :: ps) ts o) (ir (emitStub stub groupSel id' start))
      fun _ => FnCtx.At ps ts o := by
  intro F h a F' hx
  rcases Prod.mk.inj (Except.ok.inj hx) with ⟨_, rfl⟩
  let store : Instr := .store (.int 32) (.int 32 (BitVec.ofNat 64 id')) groupSel
  refine h.step (fun qs hg => hg.fill [store, .br start] ?_ ?_ ?_ rfl) id
  · refine ⟨[store], .br start, rfl, ?_, rfl⟩
    intro i hi
    rcases List.mem_singleton.mp hi with rfl
    rfl
  · intro i hi
    rcases List.mem_cons.mp hi with rfl | hi
    · exact ⟨fun _ _ => Instr.noConfusion, fun _ _ => Instr.noConfusion⟩
    · rcases List.mem_singleton.mp hi with rfl
      exact ⟨fun _ _ => Instr.noConfusion, fun _ _ => Instr.noConfusion⟩
  · intro i hi t ht
    rcases List.mem_cons.mp hi with rfl | hi
    · cases ht
    · rcases List.mem_singleton.mp hi with rfl
      rcases List.mem_singleton.mp ht with rfl
      exact hg.target _ (.inl hstart)

theorem keeps_genCaseVal (loc : SrcLoc) (e : Expr) (msg : String) (dflt : I64) :
    Keeps (FnCtx.At ps ts true) (genCaseVal Γ loc e msg dflt) fun _ => FnCtx.At ps ts true := by
  unfold genCaseVal
  refine .bind keeps_get fun F => ?_
  split
  · exact .pure fun _ => id
  · exact .bind (keeps_error loc msg) fun _ => .pure fun _ => id
  · exact .stop _

theorem keeps_genCaseRange (loc : SrcLoc) (caseLo : Option (Expr × Option Expr)) (next : I64) :
    Keeps (FnCtx.At ps ts true) (genCaseRange Γ loc caseLo next) fun _ => FnCtx.At ps ts true := by
  unfold genCaseRange
  split
  · exact .pure fun _ => id
  · refine .bind (keeps_genCaseVal loc _ _ _) fun lo => ?_
    unfold genCaseHi
    refine .bind (Q := fun _ => FnCtx.At ps ts true) ?_ fun _ => .pure fun _ => id
    split
    · exact .pure fun _ => id
    · exact keeps_genCaseVal loc _ _ _

theorem keeps_checkCaseRange (loc : SrcLoc) (lo hi : I64) :
    Keeps (FnCtx.At ps ts true) (checkCaseRange loc lo hi) fun _ => FnCtx.At ps ts true := by
  unfold checkCaseRange
  split_ifs
  · exact .stop _
  · exact .bind (keeps_error loc _) fun _ => .stop _
  · exact .bind (keeps_error loc _) fun _ => .pure fun _ => id
  · exact .stop _
  · exact .bind (keeps_error loc _) fun _ => .pure fun _ => id
  · exact .pure fun _ => id

theorem keeps_genGroupDispatch (loc : SrcLoc) (swc : SwitchCtx) {bb : Blk} (hbb : bb ∈ ts) :
    Keeps (FnCtx.At ps ts true) (genGroupDispatch loc swc bb) fun _ => FnCtx.At ps ts false := by
  unfold genGroupDispatch
  split
  · exact .bind (keeps_brIfOpen hbb) fun _ => .pure fun _ => id
  · -- the porch is open: it is ended by the switch of the group
    intro F h a F' hx
    rcases Cg.bind_eq_ok.mp hx with ⟨b, F₁, hb, hx⟩
    rw [h.open] at hb
    rcases Prod.mk.inj (Except.ok.inj hb) with ⟨rfl, rfl⟩
    have hswitch : Keeps (FnCtx.At ps ts true) (do
        let sel ← ir (create (.load (.int 32) swc.groupSel))
        return some (← createSwitch sel bb)) fun _ => FnCtx.At ps ts false :=
      .bind (keeps_spec (Silent.create _)) fun sel => .bind (keeps_createSwitch sel hbb) fun _ =>
        .pure fun _ => id
    exact hswitch F h a F' hx

theorem keeps_genGroupCase (loc : SrcLoc) {swc : SwitchCtx} (lo hi : I64) {bb : Blk}
    (hbb : bb ∈ ts) (hstart : swc.groupStartBB ∈ ts) :
    Keeps (FnCtx.At ps ts true) (genGroupCase loc swc lo hi bb) fun swc' F =>
      (∃ sw id', swc' = { swc with groupSw := sw, nextGroupId := id' }) ∧ F.At ps ts false := by
  unfold genGroupCase
  refine .bind (keeps_genGroupDispatch loc swc hbb) fun groupSw => ?_
  split_ifs
  · exact .stop _
  · refine .bind keeps_newBlock fun stub => ?_
    refine .bind (keeps_emitStub (List.mem_cons_of_mem _ hstart) _ _) fun _ => ?_
    refine .bind (keeps_addCases List.mem_cons_self _ _) fun _ => ?_
    refine .bind (Q := fun _ => FnCtx.At ps (stub :: ts) false) ?_ fun _ =>
      .pure fun F h => ⟨⟨_, _, rfl⟩, h.weaken (List.subset_cons_self _ _)⟩
    unfold addGroupCase
    split
    · exact keeps_addCases (List.mem_cons_of_mem _ hbb) _ _
    · exact .pure fun _ => id

/-- A case label keeps what the switch says about its group. -/
def SameGroup (swc swc' : SwitchCtx) : Prop :=
  swc'.exitBB = swc.exitBB ∧ swc'.inGroup = swc.inGroup ∧
    swc'.groupStartBB = swc.groupStartBB ∧ swc'.groupEndBB = swc.groupEndBB

theorem keeps_genCase (loc : SrcLoc) {swc : SwitchCtx} (lo hi : I64) {bb : Blk} (hbb : bb ∈ ts)
    (hstart : swc.inGroup = true → swc.groupStartBB ∈ ts) :
    Keeps (FnCtx.At ps ts true) (genCase loc swc lo hi bb) fun swc' F =>
      SameGroup swc swc' ∧ F.At ps ts false := by
  unfold genCase
  split_ifs with hin
  · refine (keeps_genGroupCase loc lo hi hbb (hstart hin)).mono ?_
    rintro _ F ⟨⟨sw, n, rfl⟩, h⟩
    exact ⟨⟨rfl, rfl, rfl, rfl⟩, h⟩
  · exact .bind (keeps_brIfOpen hbb) fun _ => .bind (keeps_addCases hbb _ _) fun _ =>
      .pure fun F h => ⟨⟨rfl, rfl, rfl, rfl⟩, h⟩

variable {exitBB : Blk}

theorem keeps_genCaseLabel (loc : SrcLoc) (caseLo : Option (Expr × Option Expr))
    (swc : SwitchCtx) :
    Keeps (AtItem exitBB swc ps ts) (genCaseLabel Γ loc caseLo swc)
      fun swc' => AtItem exitBB swc' ps ts := by
  rintro F ⟨hexit, ts', hts, hgroup, hat⟩
  revert F
  change Keeps (FnCtx.At (if swc.inGroup then swc.groupEndBB :: ps else ps) ts' true) _ _
  unfold genCaseLabel
  refine .bind (keeps_genCaseRange loc caseLo _) fun r => ?_
  refine .bind (keeps_checkCaseRange loc r.1 r.2) fun hi => .bind keeps_newBlock fun bb => ?_
  refine .bind (keeps_genCase loc r.1 hi List.mem_cons_self fun hin =>
    List.mem_cons_of_mem _ (hgroup hin).1) fun swc' => ?_
  rintro F ⟨⟨h₁, h₂, h₃, h₄⟩, hF⟩
  revert F
  change Keeps (FnCtx.At (bb :: if swc.inGroup then swc.groupEndBB :: ps else ps) (bb :: ts') false)
    _ _
  refine .bind (keeps_setInsertPoint (List.Perm.refl _)) fun _ => .pure fun F h => ?_
  refine ⟨h₁.trans hexit, bb :: ts', List.subset_cons_of_subset _ hts, ?_, ?_⟩
  · intro hin
    rw [h₃, h₄]
    have hg := hgroup (h₂ ▸ hin)
    exact ⟨List.mem_cons_of_mem _ hg.1, List.mem_cons_of_mem _ hg.2⟩
  · rw [h₂, h₄]
    exact h

theorem keeps_genDefault (loc : SrcLoc) (swc : SwitchCtx) :
    Keeps (AtItem exitBB swc ps ts) (genDefault loc swc)
      fun swc' => AtItem exitBB swc' ps ts := by
  rintro F ⟨hexit, ts', hts, hgroup, hat⟩
  revert F
  change Keeps (FnCtx.At (if swc.inGroup then swc.groupEndBB :: ps else ps) ts' true) _ _
  unfold genDefault
  refine .bind keeps_newBlock fun bb => .bind (keeps_brIfOpen List.mem_cons_self) fun _ => ?_
  refine .bind (keeps_setInsertPoint (List.Perm.refl _)) fun _ => ?_
  refine .bind (Q := fun _ => FnCtx.At (if swc.inGroup then swc.groupEndBB :: ps else ps)
    (bb :: ts') true) ?_ fun _ => .pure fun F h => ?_
  · unfold markDefault
    split_ifs
    · exact keeps_error loc _
    · exact keeps_setDefaultDest List.mem_cons_self _
  · exact ⟨hexit, ts', hts, hgroup, h.weaken (List.subset_cons_self _ _)⟩

theorem keeps_genSubStart (loc : SrcLoc) (swc : SwitchCtx) :
    Keeps (AtItem exitBB swc ps ts) (genSubStart loc swc)
      fun swc' => AtItem exitBB swc' ps ts := by
  rintro F ⟨hexit, ts', hts, hgroup, hat⟩
  revert F
  change Keeps (FnCtx.At (if swc.inGroup then swc.groupEndBB :: ps else ps) ts' true) _ _
  unfold genSubStart
  by_cases hin : swc.inGroup = true
  · rw [if_pos hin, if_pos hin]
    exact .bind (keeps_error loc _) fun _ => .pure fun F h =>
      ⟨hexit, ts', hts, hgroup, by rw [if_pos hin]; exact h⟩
  · rw [if_neg hin, if_neg hin]
    refine .bind keeps_newBlock fun start => .bind keeps_newBlock fun endBB => ?_
    refine .bind (keeps_spec (Silent.entryAlloca _)) fun sel => ?_
    refine .bind (Q := fun _ => FnCtx.At (endBB :: start :: ps) (endBB :: start :: ts') false) ?_ ?_
    · refine keeps_ifOpen (.bind (keeps_makes (makes_emitStore _ _ _)) fun _ => keeps_br ?_)
      exact List.mem_cons_of_mem _ List.mem_cons_self
    · intro _
      refine .bind (keeps_setInsertPoint (List.Perm.swap _ _ _)) fun _ => .pure fun F h => ?_
      refine ⟨hexit, endBB :: start :: ts', ?_, ?_, h⟩
      · exact List.subset_cons_of_subset _ (List.subset_cons_of_subset _ hts)
      · exact fun _ => ⟨List.mem_cons_of_mem _ List.mem_cons_self, List.mem_cons_self⟩

theorem keeps_genSubEnd (loc : SrcLoc) (swc : SwitchCtx) :
    Keeps (AtItem exitBB swc ps ts) (genSubEnd loc swc)
      fun swc' => AtItem exitBB swc' ps ts := by
  rintro F ⟨hexit, ts', hts, hgroup, hat⟩
  revert F
  change Keeps (FnCtx.At (if swc.inGroup then swc.groupEndBB :: ps else ps) ts' true) _ _
  unfold genSubEnd
  by_cases hin : swc.inGroup = true
  · rw [if_pos hin, if_pos hin]
    refine .bind (keeps_brIfOpen (hgroup hin).2) fun _ => ?_
    refine .bind (keeps_setInsertPoint (List.Perm.refl _)) fun _ => .pure fun F h => ?_
    exact ⟨hexit, ts', hts, fun h => Bool.noConfusion h, h⟩
  · rw [if_neg hin, if_neg hin]
    exact .bind (keeps_error loc _) fun _ => .pure fun F h =>
      ⟨hexit, ts', hts, hgroup, by rw [if_neg hin]; exact h⟩

/-- The break targets are among the blocks of `ts`. -/
def BreakTarget.In (ts : List Blk) (t : BreakTarget) : Prop :=
  t.bb ∈ ts ∧ ∀ swc, t.swc = some swc → swc.inGroup = true → swc.groupEndBB ∈ ts

/-- A statement inside a loop or a switch. -/
def KeepsIn (ts₀ : List Blk) (stmt : BreakTarget → Cg Unit) : Prop :=
  ∀ t ts₁, ts₀ ⊆ ts₁ → t.In ts₁ → KeepsAll ts₁ (stmt t)

theorem KeepsIn.body {ts₀ : List Blk} (stmt : BreakTarget → Cg Unit) (h : KeepsIn ts₀ stmt) :
    KeepsBody ts₀ stmt := by
  intro endBB
  refine h _ _ (List.subset_cons_self _ _) ⟨List.mem_cons_self, ?_⟩
  intro swc hswc
  cases hswc

theorem keeps_genItem (it : Stmt) {stmt : BreakTarget → Cg Unit} {ts₀ : List Blk}
    (hstmt : KeepsIn ts₀ stmt) (hts₀ : ts₀ ⊆ ts) (hexit : exitBB ∈ ts) (swc : SwitchCtx) :
    Keeps (AtItem exitBB swc ps ts) (genItem Γ it stmt swc)
      fun swc' => AtItem exitBB swc' ps ts := by
  unfold genItem
  split
  · exact keeps_genCaseLabel _ _ swc
  · exact keeps_genDefault _ swc
  · exact keeps_genSubStart _ swc
  · exact keeps_genSubEnd _ swc
  · rintro F ⟨hex, ts', hts, hgroup, hat⟩
    revert F
    change Keeps (FnCtx.At (if swc.inGroup then swc.groupEndBB :: ps else ps) ts' true) _ _
    have hin : BreakTarget.In ts' ⟨swc.exitBB, some swc⟩ := by
      refine ⟨hex ▸ hts hexit, ?_⟩
      intro swc' heq hg
      rcases Option.some.inj heq with rfl
      exact (hgroup hg).2
    refine .bind (hstmt _ ts' (List.Subset.trans hts₀ hts) hin _ ts' (List.Subset.refl _)) fun _ => ?_
    exact .pure fun F h => ⟨hex, ts', hts, hgroup, h⟩

/-- The items of the body of a switch. -/
def KeepsItems (ts₀ : List Blk) (items : SwitchCtx → Cg SwitchCtx) : Prop :=
  ∀ exitBB ps ts swc, ts₀ ⊆ ts → exitBB ∈ ts →
    Keeps (AtItem exitBB swc ps ts) (items swc) fun swc' => AtItem exitBB swc' ps ts

theorem keeps_endSwitch (loc : SrcLoc) (swc : SwitchCtx) (hexit : exitBB ∈ ts) :
    Keeps (AtItem exitBB swc (exitBB :: ps) ts) (endSwitch loc swc)
      fun _ => FnCtx.At ps ts true := by
  rintro F ⟨hex, ts', hts, hgroup, hat⟩
  revert F
  change Keeps (FnCtx.At (if swc.inGroup then swc.groupEndBB :: exitBB :: ps else exitBB :: ps)
    ts' true) _ _
  unfold endSwitch
  refine .bind (Q := fun _ => FnCtx.At (exitBB :: ps) ts' true) ?_ fun _ => ?_
  · unfold checkGroup
    split_ifs
    · -- the end porch of the open group is a stray block; the error says so
      intro F h a F' hx
      rcases Prod.mk.inj (Except.ok.inj hx) with ⟨_, rfl⟩
      rcases h with ⟨stray, hg, hs⟩
      refine ⟨swc.groupEndBB :: stray, ?_, ?_⟩
      · exact (hg.perm List.perm_middle.symm).congr rfl rfl rfl rfl rfl rfl hg.scopes hg.live
      · intro he
        exact absurd (List.append_eq_nil_iff.mp he).2 (List.cons_ne_nil _ _)
    · exact .pure fun _ => id
  · rw [hex]
    refine .bind (keeps_brIfOpen (hts hexit)) fun _ => ?_
    exact (keeps_setInsertPoint (List.Perm.refl _)).mono fun _ F h => h.weaken hts

theorem keeps_genSwitch (hΓ : ({ Γ with scopes := [] } : Env).Chained) (loc : SrcLoc) {e : Expr}
    (he : e.Chained) {items : SwitchCtx → Cg SwitchCtx} {ts₀ : List Blk}
    (hitems : KeepsItems ts₀ items) : KeepsAll ts₀ (genSwitch Γ d loc e items) := by
  intro ps ts hts
  unfold genSwitch
  refine .bind (keeps_genExpr hΓ he) fun v => .bind (keeps_spec (silent_convert _ _ _)) fun c => ?_
  refine .bind keeps_newBlock fun exitBB => .bind keeps_newBlock fun firstBB => ?_
  refine .bind (keeps_br List.mem_cons_self) fun _ => ?_
  refine .bind (keeps_setInsertPoint (List.Perm.refl _)) fun _ => ?_
  have hexit : exitBB ∈ firstBB :: exitBB :: ts := List.mem_cons_of_mem _ List.mem_cons_self
  refine .bind (keeps_createSwitch c hexit) fun sw => .bind keeps_startDeadBlock fun _ => ?_
  refine .bind keeps_pushScope fun _ => ?_
  have hts' : ts ⊆ firstBB :: exitBB :: ts :=
    List.subset_cons_of_subset _ (List.subset_cons_self _ _)
  have hstart : ∀ F, FnCtx.At (exitBB :: ps) (firstBB :: exitBB :: ts) true F →
      AtItem exitBB { sw := sw, exitBB := exitBB } (exitBB :: ps) (firstBB :: exitBB :: ts) F :=
    fun F h => ⟨rfl, _, List.Subset.refl _, fun h => Bool.noConfusion h, h⟩
  refine .bind ((hitems exitBB _ _ _ (List.Subset.trans hts hts') hexit).pre hstart) fun swc => ?_
  refine .bind (Q := fun _ => AtItem exitBB swc (exitBB :: ps) (firstBB :: exitBB :: ts)) ?_ ?_
  · rintro F ⟨hex, ts₁, hts₁, hgroup, hat⟩ a F' hx
    exact ⟨hex, ts₁, hts₁, hgroup, keeps_popScope F hat a F' hx⟩
  · exact fun _ => (keeps_endSwitch loc swc hexit).mono fun _ F h => h.weaken hts'

/-! ## The other statements -/

theorem keeps_call (ty : LTy) (f : Value) (args : List Value) :
    Keeps (FnCtx.At ps ts true) (ir (createCall ty f args)) fun _ => FnCtx.At ps ts true :=
  keeps_spec (Silent.createCall ty f args)

theorem keeps_leave (f : String) {endBB : Blk} (hend : endBB ∈ ts) :
    Keeps (FnCtx.At ps ts true) (genTry.leave f endBB) fun _ => FnCtx.At ps ts false :=
  keeps_ifOpen (.bind (keeps_call _ _ _) fun _ => keeps_br hend)

theorem keeps_genTry {body body2 : Cg Unit} {ts₀ : List Blk} (hbody : KeepsAll ts₀ body)
    (hbody2 : KeepsAll ts₀ body2) : KeepsAll ts₀ (genTry body body2) := by
  intro ps ts hts
  have h : ∀ tryBB catchBB endBB (rc : Option Value), Keeps
      (FnCtx.At (tryBB :: catchBB :: endBB :: ps) (tryBB :: catchBB :: endBB :: ts) true) (do
        let c ← ir (create (.icmp .eq (rc.getD (cI64 0)) (.int 32 0)))
        ir (emit (.condBr c tryBB catchBB))
        ir (setInsertPoint tryBB)
        inScope body
        genTry.leave "HC_TryPop" endBB
        ir (setInsertPoint catchBB)
        let _ ← ir (createCall .void (.fn "HC_CatchEnter") [])
        inScope body2
        genTry.leave "HC_CatchDone" endBB
        ir (setInsertPoint endBB)) fun _ => FnCtx.At ps ts true := by
    intro tryBB catchBB endBB rc
    have hts' := sub_loop hts tryBB catchBB endBB
    refine .bind (keeps_spec (Silent.create _)) fun c => ?_
    refine .bind (keeps_condBr (by simp) (by simp)) fun _ => ?_
    refine .bind (keeps_setInsertPoint (List.Perm.refl _)) fun _ => ?_
    refine .bind (keeps_inScope (hbody _ _ hts')) fun _ => .bind (keeps_leave _ (by simp)) ?_
    intro _
    refine .bind (keeps_setInsertPoint (List.Perm.refl _)) fun _ => ?_
    refine .bind (keeps_call _ _ _) fun _ => .bind (keeps_inScope (hbody2 _ _ hts')) fun _ => ?_
    refine .bind (keeps_leave _ (by simp)) fun _ => ?_
    exact (keeps_setInsertPoint (List.Perm.refl _)).mono fun _ F h =>
      h.weaken (sub_loop (List.Subset.refl _) _ _ _)
  unfold genTry
  refine .bind (keeps_spec (Silent.entryAlloca _)) fun frame => .bind (keeps_call _ _ _) fun jb => ?_
  refine .bind (keeps_call _ _ _) fun rc => ?_
  exact fun F hF a F' hx =>
    (Keeps.bind keeps_loopBlocks fun r => h r.1 r.2.1 r.2.2 rc) F hF a F' hx

theorem keeps_genBreak (loc : SrcLoc) {breaks : List BreakTarget} (hb : ∀ t ∈ breaks, t.In ts) :
    Keeps (FnCtx.At ps ts true) (genBreak loc breaks) fun _ => FnCtx.At ps ts true := by
  unfold genBreak
  split
  · exact keeps_error loc _
  · next t _ =>
      have ht := hb t List.mem_cons_self
      refine .bind (keeps_br ?_) fun _ => keeps_startDeadBlock
      split
      · next swc hswc =>
          split_ifs with hin
          · exact ht.2 swc hswc hin
          · exact ht.1
      · exact ht.1

theorem keeps_getLabelBlock (label : String) {o : Bool} :
    Keeps (FnCtx.At ps ts o) (getLabelBlock label) fun b F =>
      F.At ps (b :: ts) o ∧ (label, b) ∈ F.labels := by
  intro F h b F' hx
  rcases h with ⟨stray, hg, hs⟩
  rcases hg.labelBlock hx with ⟨hg', hmem, _, herr⟩
  exact ⟨⟨stray, hg', fun he => hs (herr ▸ he)⟩, hmem⟩

theorem keeps_genGoto (label : String) :
    Keeps (FnCtx.At ps ts true) (genGoto label) fun _ => FnCtx.At ps ts true := by
  unfold genGoto
  refine .bind (keeps_getLabelBlock label) fun b => ?_
  refine .bind ((keeps_br List.mem_cons_self).pre fun F h => h.1) fun _ => ?_
  exact keeps_startDeadBlock.mono fun _ F h => h.weaken (List.subset_cons_self _ _)

theorem keeps_genLabel (loc : SrcLoc) (label : String) :
    Keeps (FnCtx.At ps ts true) (genLabel loc label) fun _ => FnCtx.At ps ts true := by
  intro F h a F' hx
  unfold genLabel at hx
  rcases Cg.bind_eq_ok.mp hx with ⟨b, F₁, hdef, hx⟩
  rcases Prod.mk.inj (Except.ok.inj hdef) with ⟨rfl, rfl⟩
  split_ifs at hx with hD
  · exact keeps_error loc _ F h a F' hx
  · have hD' : label ∉ F.labelsDefined := fun hmem => hD (decide_eq_true hmem)
    rcases Cg.bind_eq_ok.mp hx with ⟨bb, F₂, hbb, hx⟩
    rcases h with ⟨stray, hg, hs⟩
    rcases hg.labelBlock hbb with ⟨hg₂, hmem, hdefined, herr⟩
    -- the label is placed, and its block filled next
    have hplace : Keeps (fun G => G = F₂) (defineLabel label) fun _ =>
        FnCtx.At (bb :: ps) (bb :: ts) true := by
      rintro _ rfl _ F₃ hx₃
      rcases Prod.mk.inj (Except.ok.inj hx₃) with ⟨_, rfl⟩
      refine ⟨stray, hg₂.placeLabel hmem ?_ rfl, fun he => hs (herr ▸ he)⟩
      rw [hdefined]
      exact hD'
    have hrest : Keeps (fun G => G = F₂) (do
        defineLabel label
        brIfOpen bb
        ir (setInsertPoint bb)) fun _ => FnCtx.At ps ts true :=
      .bind hplace fun _ => .bind (keeps_brIfOpen List.mem_cons_self) fun _ =>
        (keeps_setInsertPoint (List.Perm.refl _)).mono fun _ F h =>
          h.weaken (List.subset_cons_self _ _)
    exact hrest F₂ rfl a F' hx

/-! ## Declarations -/

theorem makes_emit {i : Instr} (hi : i.isTerminator = false) (hphi : ∀ dst inc, i ≠ .phi dst inc) :
    Makes (emit i) fun _ => True :=
  (Spec.emit hi hphi (Q := fun _ _ => True) trivial).makes

theorem makes_genValue {Γ : Env} {R : Rec} (hR : R.Straight) (addr : Value) (t : Ty) {e : Expr}
    (he : e.Chained) : Makes (genInitValue.genValue Γ R addr t e) fun _ => True := by
  unfold genInitValue.genValue
  refine .bind (hR.expr [] e he) fun rv _ => ?_
  split_ifs
  · exact .after (silent_asPtr _) fun _ => makes_emit rfl fun _ _ => Instr.noConfusion
  · exact (silent_storeTo _ _ _ _).makes

theorem makes_genInitValue {Γ : Env} {R : Rec} (hR : R.Straight) (addr : Value) (t : Ty) {e : Expr}
    (he : e.Chained) : Makes (genInitValue Γ R addr t e) fun _ => True := by
  unfold genInitValue
  split
  · split_ifs
    · exact makes_emit rfl fun _ _ => Instr.noConfusion
    · exact makes_genValue hR addr t he
  · exact makes_genValue hR addr t he

theorem makes_genInitItems {Γ : Env} {R : Rec} (hR : R.Straight) (loc : SrcLoc) (addr : Value)
    (kids : List Expr) (places : List (Ty × I64)) (hkids : ∀ e ∈ kids, e.Chained) :
    Makes (genInitItems Γ R loc addr kids places) fun _ => True := by
  induction loc, addr, kids, places using genInitItems.induct with
  | case1 =>
      unfold genInitItems
      exact .any _
  | case2 =>
      unfold genInitItems
      exact (Spec.error _ _ (Q := fun _ _ => True)).makes
  | case3 loc addr n kids es t off places ih ihkids =>
      have hlist : ∀ e ∈ kids, e.Chained := by
        have h := hkids _ List.mem_cons_self
        cases h with
        | initList h => exact h
      have hes := ih fun e he => hkids e (List.mem_cons_of_mem _ he)
      unfold genInitItems
      refine .after (Silent.create _) fun ea => ?_
      extract_lets rest
      have hrest : ∀ u, Makes (rest u) fun _ => True := fun _ => hes
      split_ifs
      · exact .after (Silent.ofOption _) fun inner =>
          .bind (ihkids ea inner hlist) fun u _ => hrest u
      · exact .after (Spec.error _ _ (Q := fun _ _ => True)) hrest
  | case4 loc addr e es t off places hne ih =>
      have hes := ih fun e he => hkids e (List.mem_cons_of_mem _ he)
      have heq : genInitItems Γ R loc addr (e :: es) ((t, off) :: places) = (do
          let ea ← create (.gep addr (cI64 off))
          genInitValue Γ R ea t e
          genInitItems Γ R loc addr es places) := by
        rw [genInitItems.eq_4]
        exact hne
      rw [heq]
      exact .after (Silent.create _) fun ea =>
        .bind (makes_genInitValue hR ea t (hkids e List.mem_cons_self)) fun _ _ => hes

theorem makes_genInit {Γ : Env} {R : Rec} (hR : R.Straight) (addr : Value) (t : Ty) {e : Expr}
    (he : e.Chained) : Makes (genInit Γ R addr t e) fun _ => True := by
  unfold genInit
  split
  · next n kids =>
      have hkids : ∀ e ∈ kids, e.Chained := by
        cases he with
        | initList h => exact h
      refine .bind (makes_emit rfl fun _ _ => Instr.noConfusion) fun _ _ => ?_
      unfold genInitList
      split_ifs
      · exact .after (Silent.ofOption _) fun places => makes_genInitItems hR _ _ _ _ hkids
      · exact (Spec.error _ _ (Q := fun _ _ => True)).makes
  · exact makes_genInitValue hR addr t he

theorem keeps_genInitIn (hΓ : ({ Γ with scopes := [] } : Env).Chained) (addr : Value) (t : Ty)
    {init : Option Expr} (hi : ∀ e, init = some e → e.Chained) :
    Keeps (FnCtx.At ps ts true) (genInitIn Γ d addr t init) fun _ => FnCtx.At ps ts true := by
  cases init with
  | none => exact .pure fun _ => id
  | some e =>
      exact keeps_use hΓ e (x := fun Γ' => genInit Γ' (gen Γ' d) addr t e)
        fun _ hΓ' => makes_genInit (straight_gen hΓ' d) addr t (hi e rfl)

theorem chained_regSlotType {t : Ty} (h : t.Chained) : (regSlotType t).Chained := by
  unfold regSlotType
  split
  · exact .int _ _
  · exact h

theorem keeps_genStaticLocal (fnName : String) {v : VarDeclarator} (ht : v.type.Chained) :
    Keeps (FnCtx.At ps ts true) (genStaticLocal Γ fnName v) fun _ => FnCtx.At ps ts true := by
  unfold genStaticLocal
  refine .bind keeps_get fun F => ?_
  extract_lets Γ' name rest
  have hrest : ∀ c, Keeps (FnCtx.At ps ts true) (rest c) fun _ => FnCtx.At ps ts true := by
    intro c
    refine .bind (keeps_modify (fun _ => rfl) (fun _ => rfl) (fun _ => rfl) (fun _ => rfl) ?_ ?_) ?_
    · exact fun F h => h
    · exact fun F h => h
    · exact fun _ => keeps_declareLocal _ _ _ ht
  have hpure : ∀ c, Keeps (FnCtx.At ps ts true) (pure c >>= rest) fun _ => FnCtx.At ps ts true :=
    fun c => .bind (Q := fun _ => FnCtx.At ps ts true) (.pure fun _ => id) hrest
  split
  · exact hpure _
  · split
    · exact hpure _
    · exact .bind (Q := fun _ => FnCtx.At ps ts true) (.stop _) hrest
    · exact .bind (keeps_error _ _) fun _ => hpure _

theorem keeps_genLocal (hΓ : ({ Γ with scopes := [] } : Env).Chained) {v : VarDeclarator}
    (ht : v.type.Chained) (hi : ∀ e, v.init = some e → e.Chained) :
    Keeps (FnCtx.At ps ts true) (genLocal Γ d v) fun _ => FnCtx.At ps ts true := by
  unfold genLocal
  refine .bind (keeps_spec (Silent.entryAlloca _)) fun a => ?_
  refine .bind (keeps_declareLocal v.name ⟨a, regSlotType v.type⟩ v.loc
    (chained_regSlotType ht)) fun _ => ?_
  exact keeps_genInitIn hΓ a _ hi

theorem keeps_genVarDecl (hΓ : ({ Γ with scopes := [] } : Env).Chained) (fnName : String)
    (isStatic : Bool) {decls : List VarDeclarator} (ht : ∀ v ∈ decls, v.type.Chained)
    (hi : ∀ v ∈ decls, ∀ e, v.init = some e → e.Chained) :
    Keeps (FnCtx.At ps ts true) (genVarDecl Γ d fnName isStatic decls)
      fun _ => FnCtx.At ps ts true := by
  induction decls with
  | nil => exact .pure fun _ => id
  | cons v vs ih =>
      have hvs := ih (fun w hw => ht w (List.mem_cons_of_mem _ hw))
        fun w hw => hi w (List.mem_cons_of_mem _ hw)
      have hv := ht v List.mem_cons_self
      unfold genVarDecl
      split_ifs
      · exact .bind (keeps_genStaticLocal fnName hv) fun _ => hvs
      · exact .bind (keeps_genLocal hΓ hv (hi v List.mem_cons_self)) fun _ => hvs

/-! ## The recursion -/

theorem In.mono {ts' : List Blk} {t : BreakTarget} (h : t.In ts) (hts : ts ⊆ ts') : t.In ts' :=
  ⟨hts h.1, fun swc hs hin => hts (h.2 swc hs hin)⟩

/-- Break targets below one more. -/
theorem in_cons {ts' : List Blk} {t : BreakTarget} {breaks : List BreakTarget}
    (hb : ∀ t ∈ breaks, t.In ts) (hts : ts ⊆ ts') (ht : t.In ts') :
    ∀ t' ∈ t :: breaks, t'.In ts' := by
  intro t' ht'
  rcases List.mem_cons.mp ht' with rfl | ht'
  · exact ht
  · exact In.mono (hb t' ht') hts

mutual

theorem keeps_genStmt (hΓ : ({ Γ with scopes := [] } : Env).Chained) (fnName : String) :
    ∀ (s : Stmt) (breaks : List BreakTarget) (ts₀ : List Blk), s.Chained →
    (∀ t ∈ breaks, t.In ts₀) → KeepsAll ts₀ (genStmt Γ d fnName breaks s)
  | .empty _, _, _, _, _ | .noWarn _, _, _, _, _ => fun _ _ _ => .pure fun _ => id
  | .block _ body, breaks, ts₀, hs, hb => by
      cases hs with
      | block h =>
          exact fun ps ts hts => keeps_inScope (keeps_genStmts hΓ fnName body breaks ts₀ h hb _ _ hts)
  | .expr _ e, _, _, hs, _ => by
      cases hs with
      | expr he => exact fun _ _ _ => .bind (keeps_genExpr hΓ he) fun _ => .pure fun _ => id
  | .ifS loc e body body2, breaks, ts₀, hs, hb => by
      cases hs with
      | ifS he h h2 =>
          exact keeps_genIf hΓ loc he (keeps_genStmt hΓ fnName body breaks ts₀ h hb)
            (keeps_genElseStmt hΓ fnName body2 breaks ts₀ h2 hb)
  | .whileS loc e body, breaks, ts₀, hs, hb => by
      cases hs with
      | whileS he h =>
          refine keeps_genWhile hΓ loc he (KeepsIn.body (fun t => genStmt Γ d fnName (t :: breaks)
            body) ?_)
          exact fun t ts₁ hts ht => keeps_genStmt hΓ fnName body _ ts₁ h (in_cons hb hts ht)
  | .doWhile loc e body, breaks, ts₀, hs, hb => by
      cases hs with
      | doWhile he h =>
          refine keeps_genDoWhile hΓ loc he (KeepsIn.body (fun t => genStmt Γ d fnName (t :: breaks)
            body) ?_)
          exact fun t ts₁ hts ht => keeps_genStmt hΓ fnName body _ ts₁ h (in_cons hb hts ht)
  | .forS loc init e post body, breaks, ts₀, hs, hb => by
      cases hs with
      | forS hinit he hpost h =>
          refine keeps_genFor hΓ loc hinit he hpost (KeepsIn.body (fun t => genStmt Γ d fnName (t :: breaks)
            body) ?_)
          exact fun t ts₁ hts ht => keeps_genStmt hΓ fnName body _ ts₁ h (in_cons hb hts ht)
  | .switchS loc e body, breaks, ts₀, hs, hb => by
      have hbody : ∀ ts₁ t, body.Chained → ts₀ ⊆ ts₁ → t.In ts₁ →
          KeepsAll ts₁ (genStmt Γ d fnName (t :: breaks) body) := fun ts₁ t h hts ht =>
        keeps_genStmt hΓ fnName body _ ts₁ h (in_cons hb hts ht)
      cases hs with
      | switchS he h =>
          -- a body that is no block is its own only item
          have hitem : KeepsItems ts₀ (genItem Γ body fun t => genStmt Γ d fnName (t :: breaks) body) :=
            fun exitBB ps ts swc hts hexit =>
              keeps_genItem body (fun t ts₁ hts₁ ht => hbody ts₁ t h hts₁ ht) hts hexit swc
          cases body with
          | block _ items =>
              cases h with
              | block h =>
                  exact keeps_genSwitch hΓ loc he (keeps_genItems hΓ fnName items breaks ts₀ h hb)
          | _ => exact keeps_genSwitch hΓ loc he hitem
  | .breakS loc, breaks, ts₀, _, hb =>
      fun _ _ hts => keeps_genBreak loc fun t ht => In.mono (hb t ht) hts
  | .gotoS _ label, _, _, _, _ => fun _ _ _ => keeps_genGoto label
  | .labelS loc label, _, _, _, _ => fun _ _ _ => keeps_genLabel loc label
  | .returnS _ e, _, _, hs, _ => by
      cases hs with
      | returnS he => exact fun _ _ _ => keeps_genReturn hΓ he
  | .varDecl _ decls isStatic, _, _, hs, _ => by
      cases hs with
      | varDecl ht hi => exact fun _ _ _ => keeps_genVarDecl hΓ fnName isStatic ht hi
  | .tryS _ body body2, breaks, ts₀, hs, hb => by
      cases hs with
      | tryS h h2 =>
          exact keeps_genTry (keeps_genStmts hΓ fnName body breaks ts₀ h hb)
            (keeps_genStmts hΓ fnName body2 breaks ts₀ h2 hb)
  | .lock _ body, breaks, ts₀, hs, hb => by
      cases hs with
      | lock h => exact keeps_genStmt hΓ fnName body breaks ts₀ h hb
  | .caseS _ _, _, _, _, _ | .defaultS _, _, _, _, _ | .subStart _, _, _, _, _
  | .subEnd _, _, _, _, _ => fun _ _ _ => keeps_error _ _

theorem keeps_genElseStmt (hΓ : ({ Γ with scopes := [] } : Env).Chained) (fnName : String) :
    ∀ (s : Option Stmt) (breaks : List BreakTarget) (ts₀ : List Blk),
    (∀ s', s = some s' → s'.Chained) → (∀ t ∈ breaks, t.In ts₀) →
    ∀ x, genElseStmt Γ d fnName breaks s = some x → KeepsAll ts₀ x
  | none, _, _, _, _, _, hx => nomatch hx
  | some s, breaks, ts₀, hs, hb, _, hx => by
      rcases Option.some.inj hx with rfl
      exact keeps_genStmt hΓ fnName s breaks ts₀ (hs s rfl) hb

theorem keeps_genStmts (hΓ : ({ Γ with scopes := [] } : Env).Chained) (fnName : String) :
    ∀ (ss : List Stmt) (breaks : List BreakTarget) (ts₀ : List Blk), (∀ s ∈ ss, s.Chained) →
    (∀ t ∈ breaks, t.In ts₀) → KeepsAll ts₀ (genStmts Γ d fnName breaks ss)
  | [], _, _, _, _ => fun _ _ _ => .pure fun _ => id
  | s :: ss, breaks, ts₀, hs, hb => fun _ _ hts =>
      .bind (keeps_genStmt hΓ fnName s breaks ts₀ (hs s List.mem_cons_self) hb _ _ hts) fun _ =>
        keeps_genStmts hΓ fnName ss breaks ts₀ (fun s hs' => hs s (List.mem_cons_of_mem _ hs')) hb
          _ _ hts

theorem keeps_genItems (hΓ : ({ Γ with scopes := [] } : Env).Chained) (fnName : String) :
    ∀ (items : List Stmt) (breaks : List BreakTarget) (ts₀ : List Blk),
    (∀ s ∈ items, s.Chained) → (∀ t ∈ breaks, t.In ts₀) →
    KeepsItems ts₀ (genItems Γ d fnName breaks items)
  | [], _, _, _, _ => fun _ _ _ _ _ _ => .pure fun _ => id
  | it :: items, breaks, ts₀, hs, hb => fun exitBB ps ts swc hts hexit => by
      have hit : KeepsIn ts₀ fun t => genStmt Γ d fnName (t :: breaks) it := fun t ts₁ hts₁ ht =>
        keeps_genStmt hΓ fnName it _ ts₁ (hs it List.mem_cons_self) (in_cons hb hts₁ ht)
      refine .bind (keeps_genItem it hit hts hexit swc) fun swc' => ?_
      exact keeps_genItems hΓ fnName items breaks ts₀
        (fun s hs' => hs s (List.mem_cons_of_mem _ hs')) hb exitBB ps ts swc' hts hexit

end

end Stmts

end Hlang.Codegen
