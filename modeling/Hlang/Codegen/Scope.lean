import Hlang.Lib.Scopes
import Hlang.Codegen.Func

/-!
# Hlang.Codegen.Scope — what a name stands for

The steps a function takes on its scopes are read off its text (`FuncDecl.steps`). The
generator takes them in that order, so a name that is declared once stands for the local
in every expression it generates until the block of the declaration is left, and not
after that (`resolves_iff`).
-/

namespace Hlang

mutual

/-- The names of an expression. -/
def Expr.idents : Expr → List String
  | .ident _ s => [s]
  | .unary _ _ _ k | .cast _ k _ | .sizeofExpr _ k | .member _ k _ _ => k.idents
  | .binary _ _ l r | .assign _ _ l r | .index _ l r => l.idents ++ r.idents
  | .chainCmp _ first rest => first.idents ++ chainIdents rest
  | .call _ callee args => callee.idents ++ argIdents args
  | .initList _ kids => kidIdents kids
  | .intLit _ _ | .floatLit _ _ | .strLit _ _ | .charLit _ _ | .sizeofType _ _
  | .offsetOf _ _ _ _ | .lastClass _ => []

/-- The names of the later operands of a chain. -/
def chainIdents : List (P × Expr) → List String
  | [] => []
  | (_, e) :: rest => e.idents ++ chainIdents rest

/-- The names of the arguments of a call. -/
def argIdents : List (Option Expr) → List String
  | [] => []
  | none :: args => argIdents args
  | some e :: args => e.idents ++ argIdents args

/-- The names of an initialiser list. -/
def kidIdents : List Expr → List String
  | [] => []
  | e :: kids => e.idents ++ kidIdents kids

end

namespace Codegen

open Ir Gen Cg Scopes

/-! ## The text of a function -/

/-- A step on the scopes. -/
inductive ScopeStep where
  | push
  | pop
  | bind (name : String)
  | use (e : Expr)

/-- Steps with their places in the text; places are ordered lexicographically. -/
abbrev Steps := List (List Nat × ScopeStep)

/-- Steps in part `i` of a text. -/
def inPart (i : Nat) (ps : Steps) : Steps := ps.map fun p => (i :: p.1, p.2)

@[simp] theorem snd_inPart (i : Nat) (ps : Steps) :
    (inPart i ps).map Prod.snd = ps.map Prod.snd := by
  unfold inPart
  rw [List.map_map]
  rfl

/-- Code for an expression. -/
def useStep (e : Expr) : Steps := [([], .use e)]

/-- The expressions of a list. -/
def useSteps : List Expr → Steps
  | [] => []
  | e :: es => inPart 0 (useStep e) ++ inPart 1 (useSteps es)

/-- The declarators of a declaration. The initialiser of a static local is not code. -/
def declSteps (isStatic : Bool) : List VarDeclarator → Steps
  | [] => []
  | v :: vs =>
      ([0], .bind v.name) ::
        (inPart 1 (useSteps (if isStatic then [] else v.init.toList)) ++
          inPart 2 (declSteps isStatic vs))

/-- A scope around steps. -/
def scopeSteps (ps : Steps) : Steps := ([], .push) :: (ps ++ [([], .pop)])

mutual

/-- The steps of a statement, in the order they are taken. The post expressions of a
`for` come before its body in the text, and after it in this order. -/
def stmtSteps : Stmt → Steps
  | .block _ body => scopeSteps (stmtsSteps body)
  | .expr _ e => useStep e
  | .ifS _ e body body2 =>
      inPart 0 (useStep e) ++ (inPart 1 (stmtSteps body) ++ inPart 2 (elseSteps body2))
  | .whileS _ e body => inPart 0 (useStep e) ++ inPart 1 (stmtSteps body)
  | .doWhile _ e body => inPart 0 (stmtSteps body) ++ inPart 1 (useStep e)
  | .forS _ init e post body =>
      inPart 0 (useSteps init) ++ (inPart 1 (useSteps e.toList) ++
        (inPart 3 (stmtSteps body) ++ inPart 2 (useSteps post)))
  | .switchS _ e (.block _ body) => inPart 0 (useStep e) ++ inPart 1 (scopeSteps (stmtsSteps body))
  | .switchS _ e body => inPart 0 (useStep e) ++ inPart 1 (scopeSteps (stmtSteps body))
  | .returnS _ e => useSteps e.toList
  | .varDecl _ decls isStatic => declSteps isStatic decls
  | .tryS _ body body2 => inPart 0 (scopeSteps (stmtsSteps body)) ++ inPart 1 (scopeSteps (stmtsSteps body2))
  | .lock _ body => stmtSteps body
  | .caseS _ _ | .defaultS _ | .subStart _ | .subEnd _ | .breakS _ | .gotoS _ _ | .labelS _ _
  | .noWarn _ | .empty _ => []

/-- The steps of an else branch. -/
def elseSteps : Option Stmt → Steps
  | none => []
  | some s => stmtSteps s

/-- The steps of the statements of a block. -/
def stmtsSteps : List Stmt → Steps
  | [] => []
  | s :: ss => inPart 0 (stmtSteps s) ++ inPart 1 (stmtsSteps ss)

end

/-- The names a function declares before its body. -/
def paramNames (type : FuncType) : List String :=
  (type.params.map FuncParam.name).filter (· ≠ "") ++ if type.variadic then ["argc", "argv"] else []

/-- The steps of a function, in the order they are taken. -/
def FuncDecl.steps (fd : FuncDecl) : Steps :=
  (paramNames fd.type).map (fun n => ([0], .bind n)) ++ inPart 1 (stmtsSteps fd.body)

/-- The name a step declares. -/
def ScopeStep.name? : ScopeStep → Option String
  | .bind n => some n
  | _ => none

/-- The names steps declare. -/
def boundNames (ss : List ScopeStep) : List String := ss.filterMap ScopeStep.name?

/-- No name is declared twice. -/
def FuncDecl.NoDups (fd : FuncDecl) : Prop := (boundNames (fd.steps.map Prod.snd)).Nodup

instance (fd : FuncDecl) : Decidable fd.NoDups := inferInstanceAs (Decidable (List.Nodup _))

/-! ## The steps that are taken -/

/-- What a step does to a stack of scopes. -/
def ScopeStep.op : ScopeStep → Op String Unit
  | .push => .push
  | .pop => .pop
  | .bind n => .bind n ()
  | .use _ => .keep

/-- What an event does to a stack of scopes. -/
def ScopeEvent.op : ScopeEvent → Op String VarSym
  | .push => .push
  | .pop => .pop
  | .bind n v => .bind n v
  | .use _ _ | .skip => .keep

/-- The step an event is. -/
def ScopeEvent.step? : ScopeEvent → Option ScopeStep
  | .push => some .push
  | .pop => some .pop
  | .bind n _ => some (.bind n)
  | .use _ e => some (.use e)
  | .skip => none

/-- Storage of a local variable `name`: a slot, or the variable of a static local. -/
def VarSym.IsLocal (fnName name : String) (v : VarSym) : Prop :=
  (∃ k, v.addr = .slot k) ∨ v.addr = .glob (fnName ++ "." ++ name)

/-- What holds of an event when the scopes are `s`. -/
def ScopeEvent.Fits (fnName : String) (s : Stack String VarSym) : ScopeEvent → Prop
  | .bind n v => s ≠ [] ∧ v.IsLocal fnName n
  | .use scopes _ => scopes = s
  | _ => True

/-- Every event of a log that starts with the scopes `s` fits. -/
def Fit (fnName : String) : Stack String VarSym → List ScopeEvent → Prop
  | _, [] => True
  | s, ev :: evs => ev.Fits fnName s ∧ Fit fnName (ev.op.apply s) evs

theorem fit_append (fnName : String) {evs evs' : List ScopeEvent} : ∀ {s : Stack String VarSym},
    Fit fnName s (evs ++ evs') ↔
      Fit fnName s evs ∧ Fit fnName (run s (evs.map ScopeEvent.op)) evs' := by
  induction evs with
  | nil => exact ⟨fun h => ⟨trivial, h⟩, And.right⟩
  | cons ev evs ih =>
      intro s
      constructor
      · rintro ⟨hev, h⟩
        rcases ih.mp h with ⟨h₁, h₂⟩
        exact ⟨⟨hev, h₁⟩, h₂⟩
      · rintro ⟨⟨hev, h₁⟩, h₂⟩
        exact ⟨hev, ih.mpr ⟨h₁, h₂⟩⟩

/-- The steps `done` have been taken, and `n` scopes are on the stack. -/
structure FnCtx.Logged (fnName : String) (n : Nat) (done : List ScopeStep) (F : FnCtx) : Prop where
  fit : Fit fnName [[]] F.scopeLog
  scopes : F.scopes = run [[]] (F.scopeLog.map ScopeEvent.op)
  depth : F.scopes.length = n
  steps : F.scopeLog.map ScopeEvent.step? = done.map some
  names : F.localNames.Perm (boundNames done)

/-- The same, unless steps have been left out. -/
def FnCtx.Walked (fnName : String) (n : Nat) (done : List ScopeStep) (F : FnCtx) : Prop :=
  .skip ∈ F.scopeLog ∨ F.Logged fnName n done

/-- One more event. -/
theorem FnCtx.Logged.snoc {fnName : String} {n n' : Nat} {done : List ScopeStep} {F F' : FnCtx}
    (h : F.Logged fnName n done) (ev : ScopeEvent) {st : ScopeStep} (hfit : ev.Fits fnName F.scopes)
    (hst : ev.step? = some st) (hlog : F'.scopeLog = F.scopeLog ++ [ev])
    (hscopes : F'.scopes = ev.op.apply F.scopes) (hn : F'.scopes.length = n')
    (hnames : F'.localNames.Perm (boundNames (done ++ [st]))) : F'.Logged fnName n' (done ++ [st]) := by
  constructor
  case fit =>
    rw [hlog, fit_append, ← h.scopes]
    exact ⟨h.fit, hfit, trivial⟩
  case scopes =>
    rw [hlog, hscopes, List.map_append, run_append, ← h.scopes]
    rfl
  case depth => exact hn
  case steps =>
    rw [hlog, List.map_append, List.map_append, h.steps, List.map_singleton, hst]
    rfl
  case names => exact hnames

theorem boundNames_append (ss ss' : List ScopeStep) : boundNames (ss ++ ss') = boundNames ss ++ boundNames ss' :=
  List.filterMap_append

/-- `x` takes the steps `ss`, from `n` scopes to `n'`. -/
def Walks {α : Type} (fnName : String) (n : Nat) (ss : List ScopeStep) (n' : Nat) (x : Cg α) :
    Prop :=
  ∀ done, (boundNames (done ++ ss)).Nodup →
    Keeps (FnCtx.Walked fnName n done) x fun _ => FnCtx.Walked fnName n' (done ++ ss)

section Walks

variable {α β : Type} {Γ : Env} {d : Nat} {fnName : String} {n m n' : Nat}
  {ss ss' : List ScopeStep}

theorem Walks.bind {x : Cg α} {f : α → Cg β} (hx : Walks fnName n ss m x)
    (hf : ∀ a, Walks fnName m ss' n' (f a)) : Walks fnName n (ss ++ ss') n' (x >>= f) := by
  intro done hnd
  rw [← List.append_assoc] at hnd ⊢
  have hnd' : (boundNames (done ++ ss)).Nodup := by
    rw [boundNames_append] at hnd
    exact (List.nodup_append.mp hnd).1
  exact .bind (hx done hnd') fun a => hf a _ hnd

/-- A step that leaves the scopes alone. -/
theorem walks_same {x : Cg α} (h : ∀ F a F', x F = .ok (a, F') →
    F'.scopeLog = F.scopeLog ∧ F'.scopes = F.scopes ∧ F'.localNames = F.localNames) :
    Walks fnName n [] n x := by
  intro done _ F hF a F' hx
  rcases h F a F' hx with ⟨hlog, hscopes, hnames⟩
  rw [List.append_nil]
  rcases hF with hskip | hF
  · exact .inl (hlog ▸ hskip)
  · right
    constructor
    case fit => exact hlog ▸ hF.fit
    case scopes => rw [hscopes, hlog, hF.scopes]
    case depth => rw [hscopes, hF.depth]
    case steps => rw [hlog, hF.steps]
    case names => rw [hnames]; exact hF.names

/-- A step that takes one step on the scopes. -/
theorem walks_one {x : Cg Unit} {st : ScopeStep}
    (hsub : ∀ F F', x F = .ok ((), F') → F.scopeLog ⊆ F'.scopeLog)
    (h : ∀ done F F', (boundNames (done ++ [st])).Nodup → F.Logged fnName n done →
      x F = .ok ((), F') → F'.Logged fnName n' (done ++ [st])) : Walks fnName n [st] n' x := by
  intro done hnd F hF _ F' hx
  rcases hF with hskip | hF
  · exact .inl (hsub F F' hx hskip)
  · exact .inr (h done F F' hnd hF hx)

theorem walks_pure (a : α) : Walks fnName n [] n (pure a) := by
  refine walks_same ?_
  intro F b F' hx
  rcases Prod.mk.inj (Except.ok.inj hx) with ⟨_, rfl⟩
  exact ⟨rfl, rfl, rfl⟩

theorem walks_get : Walks fnName n [] n get := by
  refine walks_same ?_
  intro F b F' hx
  rcases Prod.mk.inj (Except.ok.inj hx) with ⟨_, rfl⟩
  exact ⟨rfl, rfl, rfl⟩

theorem walks_ir (x : Gen α) : Walks fnName n [] n (ir x) := by
  refine walks_same ?_
  intro F a F' hx
  unfold ir at hx
  split at hx
  · rcases Prod.mk.inj (Except.ok.inj hx) with ⟨_, rfl⟩
    exact ⟨rfl, rfl, rfl⟩
  · cases hx

theorem Walks.after {x : Cg α} {f : α → Cg β} (hx : Walks fnName n [] m x)
    (hf : ∀ a, Walks fnName m ss n' (f a)) : Walks fnName n ss n' (x >>= f) := hx.bind hf

theorem Walks.andThen {x : Cg α} {f : α → Cg β} (hx : Walks fnName n ss m x)
    (hf : ∀ a, Walks fnName m [] n' (f a)) : Walks fnName n ss n' (x >>= f) := by
  have h := hx.bind hf
  rw [List.append_nil] at h
  exact h

/-- A step to the same context, changed where there are no scopes. -/
theorem walks_set {g : FnCtx → α} {f : FnCtx → FnCtx} (hlog : ∀ F, (f F).scopeLog = F.scopeLog)
    (hscopes : ∀ F, (f F).scopes = F.scopes) (hnames : ∀ F, (f F).localNames = F.localNames) :
    Walks fnName n [] n (fun F => .ok (g F, f F)) := by
  refine walks_same ?_
  intro F b F' hx
  rcases Prod.mk.inj (Except.ok.inj hx) with ⟨_, rfl⟩
  exact ⟨hlog F, hscopes F, hnames F⟩

theorem walks_hasTerminator : Walks fnName n [] n hasTerminator :=
  walks_set (fun _ => rfl) (fun _ => rfl) fun _ => rfl

theorem walks_ifOpen {x : Cg Unit} (hx : Walks fnName n [] n x) :
    Walks fnName n [] n (do if !(← hasTerminator) then x) := by
  refine walks_hasTerminator.after fun b => ?_
  split
  · exact hx
  · exact walks_pure _

theorem walks_brIfOpen (bb : Blk) : Walks fnName n [] n (brIfOpen bb) := walks_ifOpen (walks_ir _)

theorem walks_startDeadBlock : Walks fnName n [] n startDeadBlock :=
  (walks_ir _).after fun _ => walks_ir _

theorem walks_createSwitch (v : Value) (dflt : Blk) : Walks fnName n [] n (createSwitch v dflt) :=
  walks_set (fun _ => rfl) (fun _ => rfl) fun _ => rfl

theorem walks_addCases (sw : Nat) (vs : List I64) (bb : Blk) :
    Walks fnName n [] n (addCases sw vs bb) :=
  walks_set (fun _ => rfl) (fun _ => rfl) fun _ => rfl

theorem walks_setDefaultDest (sw : Nat) (bb : Blk) : Walks fnName n [] n (setDefaultDest sw bb) :=
  walks_set (fun _ => rfl) (fun _ => rfl) fun _ => rfl

theorem walks_getLabelBlock (name : String) : Walks fnName n [] n (getLabelBlock name) := by
  refine walks_same ?_
  intro F b F' hx
  unfold getLabelBlock at hx
  split at hx
  · rcases Prod.mk.inj (Except.ok.inj hx) with ⟨_, rfl⟩
    exact ⟨rfl, rfl, rfl⟩
  · rcases Prod.mk.inj (Except.ok.inj hx) with ⟨_, rfl⟩
    exact ⟨rfl, rfl, rfl⟩

/-- A scope is pushed. -/
theorem walks_pushScope : Walks fnName n [.push] (n + 1) pushScope := by
  refine walks_one ?_ ?_
  · intro F F' hx
    rcases Prod.mk.inj (Except.ok.inj hx) with ⟨_, rfl⟩
    exact List.subset_append_left _ _
  · intro done F F' _ hF hx
    rcases Prod.mk.inj (Except.ok.inj hx) with ⟨_, rfl⟩
    refine hF.snoc .push trivial rfl rfl rfl (congrArg (· + 1) hF.depth) ?_
    rw [boundNames_append]
    exact (List.append_nil _).symm ▸ hF.names

/-- A scope is popped. -/
theorem walks_popScope : Walks fnName (n + 1) [.pop] n popScope := by
  refine walks_one ?_ ?_
  · intro F F' hx
    rcases Prod.mk.inj (Except.ok.inj hx) with ⟨_, rfl⟩
    exact List.subset_append_left _ _
  · intro done F F' _ hF hx
    rcases Prod.mk.inj (Except.ok.inj hx) with ⟨_, rfl⟩
    refine hF.snoc .pop trivial rfl rfl rfl ?_ ?_
    · change F.scopes.tail.length = n
      rw [List.length_tail, hF.depth]
      rfl
    · rw [boundNames_append]
      exact (List.append_nil _).symm ▸ hF.names

theorem walks_inScope {x : Cg Unit} (hx : Walks fnName (n + 1) ss (n + 1) x) :
    Walks fnName n (.push :: (ss ++ [.pop])) n (inScope x) :=
  walks_pushScope.bind fun _ => hx.bind fun _ => walks_popScope

/-- A name is declared; where no name is declared twice it is new. -/
theorem walks_declareLocal (name : String) {sym : VarSym} (loc : SrcLoc)
    (hsym : sym.IsLocal fnName name) :
    Walks fnName (n + 1) [.bind name] (n + 1) (declareLocal name sym loc) := by
  have hcases : ∀ F F', declareLocal name sym loc F = .ok ((), F') →
      (name ∈ F.localNames ∧ F'.scopeLog = F.scopeLog) ∨ F' = { F with
        localNames := name :: F.localNames
        scopeLog := F.scopeLog ++ [.bind name sym]
        scopes := F.scopes.modifyHead fun s => (name, sym) :: s } := by
    intro F F' hx
    unfold declareLocal at hx
    rcases Cg.bind_eq_ok.mp hx with ⟨G, F₁, hget, hx⟩
    rcases Prod.mk.inj (Except.ok.inj hget) with ⟨rfl, rfl⟩
    split_ifs at hx with hmem
    · rcases Prod.mk.inj (Except.ok.inj hx) with ⟨_, rfl⟩
      exact .inl ⟨hmem, rfl⟩
    · rcases Prod.mk.inj (Except.ok.inj hx) with ⟨_, rfl⟩
      exact .inr rfl
  refine walks_one ?_ ?_
  · intro F F' hx
    rcases hcases F F' hx with ⟨_, hlog⟩ | rfl
    · exact hlog ▸ List.Subset.refl _
    · exact List.subset_append_left _ _
  · intro done F F' hnd hF hx
    rw [boundNames_append] at hnd
    have hperm : (name :: F.localNames).Perm (boundNames (done ++ [.bind name])) := by
      rw [boundNames_append]
      exact (hF.names.cons name).trans (List.perm_append_singleton name _).symm
    rcases hcases F F' hx with ⟨hmem, _⟩ | rfl
    · have hmem' : name ∈ boundNames done := hF.names.mem_iff.mp hmem
      exact absurd rfl ((List.nodup_append.mp hnd).2.2 name hmem' name List.mem_cons_self)
    · refine hF.snoc (.bind name sym) ⟨?_, hsym⟩ rfl rfl rfl ?_ hperm
      · exact List.ne_nil_of_length_pos (by rw [hF.depth]; exact Nat.succ_pos n)
      · exact (List.length_modifyHead ..).trans hF.depth

/-- Code for an expression. -/
theorem walks_use (e : Expr) (x : List (List (String × VarSym)) → Gen α) :
    Walks fnName n [.use e] n (do
      let F ← get
      note (.use F.scopes e)
      ir (x F.scopes)) := by
  intro done hnd F hF a F' hx
  rcases Cg.bind_eq_ok.mp hx with ⟨G, F₁, hget, hx⟩
  rcases Prod.mk.inj (Except.ok.inj hget) with ⟨rfl, rfl⟩
  rcases Cg.bind_eq_ok.mp hx with ⟨_, F₂, hnote, hx⟩
  have huse : Walks fnName n [.use e] n (fun F => note (.use F.scopes e) F) := by
    refine walks_one ?_ ?_
    · intro F F' hx
      rcases Prod.mk.inj (Except.ok.inj hx) with ⟨_, rfl⟩
      exact List.subset_append_left _ _
    · intro done F F' _ hF hx
      rcases Prod.mk.inj (Except.ok.inj hx) with ⟨_, rfl⟩
      refine hF.snoc (.use F.scopes e) rfl rfl rfl rfl hF.depth ?_
      rw [boundNames_append]
      exact (List.append_nil _).symm ▸ hF.names
  have hF₂ := huse done hnd F hF _ F₂ hnote
  have h := walks_ir (x F.scopes) (done ++ [.use e]) (by rwa [List.append_nil]) F₂ hF₂ a F' hx
  rwa [List.append_nil] at h

theorem walks_genExpr (e : Expr) : Walks fnName n [.use e] n (genExpr Γ d e) :=
  walks_use e fun scopes => (gen { Γ with scopes := scopes } d).genExpr [] e

/-! ### The statements -/

theorem walks_genCond (loc : SrcLoc) (e : Expr) : Walks fnName n [.use e] n (genCond Γ d loc e) :=
  (walks_genExpr e).andThen fun _ => walks_ir _

theorem walks_genElse {els : Option (Cg Unit)} (h : ∀ x, els = some x → Walks fnName n ss n x)
    (hnone : els = none → ss = []) (elseBB endBB : Blk) :
    Walks fnName n ss n (genElse els elseBB endBB) := by
  cases els with
  | none =>
      rw [hnone rfl]
      exact walks_pure _
  | some x => exact (walks_ir _).after fun _ => (h x rfl).andThen fun _ => walks_brIfOpen _

theorem walks_genIf (loc : SrcLoc) (e : Expr) {thn : Cg Unit} {els : Option (Cg Unit)}
    (hthn : Walks fnName n ss n thn) (hels : ∀ x, els = some x → Walks fnName n ss' n x)
    (hnone : els = none → ss' = []) :
    Walks fnName n (.use e :: (ss ++ ss')) n (genIf Γ d loc e thn els) := by
  unfold genIf
  refine (walks_genCond loc e).bind fun c => (walks_ir _).after fun thenBB => ?_
  refine (walks_ir _).after fun endBB => (walks_ir _).after fun elseBB => ?_
  refine (walks_ir _).after fun _ => (walks_ir _).after fun _ => hthn.bind fun _ => ?_
  refine (walks_brIfOpen _).after fun _ => ?_
  exact (walks_genElse hels hnone _ _).andThen fun _ => walks_ir _

theorem walks_genWhile (loc : SrcLoc) (e : Expr) {body : BreakTarget → Cg Unit}
    (hbody : ∀ t, Walks fnName n ss n (body t)) :
    Walks fnName n (.use e :: ss) n (genWhile Γ d loc e body) := by
  unfold genWhile
  refine (walks_ir _).after fun condBB => (walks_ir _).after fun bodyBB => ?_
  refine (walks_ir _).after fun endBB => (walks_ir _).after fun _ => (walks_ir _).after fun _ => ?_
  refine (walks_genCond loc e).bind fun c => (walks_ir _).after fun _ => ?_
  refine (walks_ir _).after fun _ => (hbody _).andThen fun _ => ?_
  exact (walks_brIfOpen _).after fun _ => walks_ir _

theorem walks_genDoWhile (loc : SrcLoc) (e : Expr) {body : BreakTarget → Cg Unit}
    (hbody : ∀ t, Walks fnName n ss n (body t)) :
    Walks fnName n (ss ++ [.use e]) n (genDoWhile Γ d loc e body) := by
  unfold genDoWhile
  refine (walks_ir _).after fun bodyBB => (walks_ir _).after fun condBB => ?_
  refine (walks_ir _).after fun endBB => (walks_ir _).after fun _ => (walks_ir _).after fun _ => ?_
  refine (hbody _).bind fun _ => (walks_brIfOpen _).after fun _ => (walks_ir _).after fun _ => ?_
  refine (walks_genCond loc e).andThen fun c => (walks_ir _).after fun _ => walks_ir _

theorem walks_genExprs (es : List Expr) :
    Walks fnName n ((useSteps es).map Prod.snd) n (genExprs Γ d es) := by
  induction es with
  | nil => exact walks_pure _
  | cons e es ih =>
      rw [useSteps, List.map_append, snd_inPart, snd_inPart]
      exact (walks_genExpr e).bind fun _ => ih

theorem walks_genForCond (loc : SrcLoc) (e : Option Expr) (bodyBB endBB : Blk) :
    Walks fnName n ((useSteps e.toList).map Prod.snd) n (genForCond Γ d loc e bodyBB endBB) := by
  cases e with
  | none => exact walks_ir (emit (.br bodyBB))
  | some e => exact (walks_genCond loc e).andThen fun c => walks_ir _

/-- The post expressions, or the note that they are left out. -/
theorem walks_genForPost (post : List Expr) (condBB : Blk) :
    Walks fnName n ((useSteps post).map Prod.snd) n (genForPost Γ d post condBB) := by
  refine walks_hasTerminator.after fun b => ?_
  split
  · exact (walks_genExprs post).andThen fun _ => walks_ir _
  · intro done _ F _ _ F' hx
    rcases Prod.mk.inj (Except.ok.inj hx) with ⟨_, rfl⟩
    exact .inl (List.mem_append_right _ List.mem_cons_self)

theorem walks_genFor (loc : SrcLoc) (init : List Expr) (e : Option Expr) (post : List Expr)
    {body : BreakTarget → Cg Unit} (hbody : ∀ t, Walks fnName n ss n (body t)) :
    Walks fnName n ((useSteps init).map Prod.snd ++ ((useSteps e.toList).map Prod.snd ++
      (ss ++ (useSteps post).map Prod.snd))) n (genFor Γ d loc init e post body) := by
  unfold genFor
  refine (walks_genExprs init).bind fun _ => ?_
  refine (walks_ir _).after fun condBB => (walks_ir _).after fun bodyBB => ?_
  refine (walks_ir _).after fun endBB => (walks_ir _).after fun _ => (walks_ir _).after fun _ => ?_
  refine (walks_genForCond loc e _ _).bind fun _ => (walks_ir _).after fun _ => ?_
  exact (hbody _).bind fun _ => (walks_genForPost post _).andThen fun _ => walks_ir _

theorem walks_genReturn (e : Option Expr) :
    Walks fnName n ((useSteps e.toList).map Prod.snd) n (genReturn Γ d e) := by
  unfold genReturn
  refine walks_get.after fun F => .andThen ?_ fun _ => walks_startDeadBlock
  unfold genRetValue
  split
  · exact walks_ir _
  · exact (walks_genExpr _).andThen fun _ => walks_ir _
  · exact walks_ir _
  · exact (walks_genExpr _).andThen fun _ => walks_ir _
  · exact walks_ir _
  · exact (walks_genExpr _).andThen fun _ => walks_ir _

/-! ### Switch -/

theorem walks_genCaseVal (loc : SrcLoc) (e : Expr) (msg : String) (dflt : I64) :
    Walks fnName n [] n (genCaseVal Γ loc e msg dflt) := by
  refine walks_get.after fun F => ?_
  split
  · exact walks_pure _
  · exact (walks_ir _).after fun _ => walks_pure _
  · exact walks_ir _

theorem walks_genCaseRange (loc : SrcLoc) (caseLo : Option (Expr × Option Expr)) (next : I64) :
    Walks fnName n [] n (genCaseRange Γ loc caseLo next) := by
  unfold genCaseRange
  split
  · exact walks_pure _
  · refine (walks_genCaseVal loc _ _ _).after fun lo => .after (m := n) ?_ fun hi => walks_pure _
    unfold genCaseHi
    split
    · exact walks_pure _
    · exact walks_genCaseVal loc _ _ _

theorem walks_checkCaseRange (loc : SrcLoc) (lo hi : I64) :
    Walks fnName n [] n (checkCaseRange loc lo hi) := by
  unfold checkCaseRange
  split_ifs
  · exact walks_ir _
  · exact (walks_ir _).after fun _ => walks_ir _
  · exact (walks_ir _).after fun _ => walks_pure _
  · exact walks_ir _
  · exact (walks_ir _).after fun _ => walks_pure _
  · exact walks_pure _

theorem walks_genGroupDispatch (loc : SrcLoc) (swc : SwitchCtx) (bb : Blk) :
    Walks fnName n [] n (genGroupDispatch loc swc bb) := by
  unfold genGroupDispatch
  split
  · exact (walks_brIfOpen _).after fun _ => walks_pure _
  · refine walks_hasTerminator.after fun b => ?_
    split
    · exact (walks_ir _).after fun _ => walks_pure _
    · exact (walks_ir _).after fun sel => (walks_createSwitch _ _).after fun _ => walks_pure _

theorem walks_genCase (loc : SrcLoc) (swc : SwitchCtx) (lo hi : I64) (bb : Blk) :
    Walks fnName n [] n (genCase loc swc lo hi bb) := by
  unfold genCase
  split_ifs
  · refine (walks_genGroupDispatch loc swc bb).after fun groupSw => ?_
    split_ifs
    · exact walks_ir _
    · refine (walks_ir _).after fun stub => (walks_ir _).after fun _ => ?_
      refine (walks_addCases _ _ _).after fun _ => .after (m := n) ?_ fun _ => walks_pure _
      unfold addGroupCase
      split
      · exact walks_addCases _ _ _
      · exact walks_pure _
  · exact (walks_brIfOpen _).after fun _ => (walks_addCases _ _ _).after fun _ => walks_pure _

theorem walks_genCaseLabel (loc : SrcLoc) (caseLo : Option (Expr × Option Expr)) (swc : SwitchCtx) :
    Walks fnName n [] n (genCaseLabel Γ loc caseLo swc) := by
  refine (walks_genCaseRange loc caseLo _).after fun range => ?_
  refine (walks_checkCaseRange loc _ _).after fun hi => (walks_ir _).after fun bb => ?_
  exact (walks_genCase loc _ _ _ _).after fun swc => (walks_ir _).after fun _ => walks_pure _

theorem walks_genDefault (loc : SrcLoc) (swc : SwitchCtx) :
    Walks fnName n [] n (genDefault loc swc) := by
  refine (walks_ir _).after fun bb => (walks_brIfOpen _).after fun _ => (walks_ir _).after ?_
  refine fun _ => .after (m := n) ?_ fun _ => walks_pure _
  unfold markDefault
  split_ifs
  · exact walks_ir _
  · exact walks_setDefaultDest _ _

theorem walks_genSubStart (loc : SrcLoc) (swc : SwitchCtx) :
    Walks fnName n [] n (genSubStart loc swc) := by
  unfold genSubStart
  split_ifs
  · exact (walks_ir _).after fun _ => walks_pure _
  · refine (walks_ir _).after fun start => (walks_ir _).after fun endBB => (walks_ir _).after ?_
    refine fun sel => .after (walks_ifOpen ((walks_ir _).after fun _ => walks_ir _)) fun _ => ?_
    exact (walks_ir _).after fun _ => walks_pure _

theorem walks_genSubEnd (loc : SrcLoc) (swc : SwitchCtx) :
    Walks fnName n [] n (genSubEnd loc swc) := by
  unfold genSubEnd
  split_ifs
  · exact (walks_brIfOpen _).after fun _ => (walks_ir _).after fun _ => walks_pure _
  · exact (walks_ir _).after fun _ => walks_pure _

/-- The items of a switch. -/
def WalksItems (fnName : String) (ss : List ScopeStep) (items : SwitchCtx → Cg SwitchCtx) : Prop :=
  ∀ n swc, Walks fnName (n + 1) ss (n + 1) (items swc)

theorem walks_genSwitch (loc : SrcLoc) (e : Expr) {items : SwitchCtx → Cg SwitchCtx}
    (hitems : WalksItems fnName ss items) :
    Walks fnName n (.use e :: .push :: (ss ++ [.pop])) n (genSwitch Γ d loc e items) := by
  unfold genSwitch
  refine (walks_genExpr e).bind fun v => (walks_ir _).after fun cond => ?_
  refine (walks_ir _).after fun exitBB => (walks_ir _).after fun firstBB => ?_
  refine (walks_ir _).after fun _ => (walks_ir _).after fun _ => ?_
  refine (walks_createSwitch _ _).after fun _ => walks_startDeadBlock.after fun _ => ?_
  refine walks_pushScope.bind fun _ => (hitems n _).bind fun swc => walks_popScope.andThen fun _ => ?_
  refine .after (m := n) ?_ fun _ => (walks_brIfOpen _).after fun _ => walks_ir _
  unfold checkGroup
  split_ifs
  · exact walks_ir _
  · exact walks_pure _

theorem walks_genItem (it : Stmt) {stmt : BreakTarget → Cg Unit}
    (hstmt : ∀ n t, Walks fnName (n + 1) ((stmtSteps it).map Prod.snd) (n + 1) (stmt t)) :
    WalksItems fnName ((stmtSteps it).map Prod.snd) (genItem Γ it stmt) := by
  intro n swc
  cases it with
  | caseS loc caseLo => exact walks_genCaseLabel loc caseLo swc
  | defaultS loc => exact walks_genDefault loc swc
  | subStart loc => exact walks_genSubStart loc swc
  | subEnd loc => exact walks_genSubEnd loc swc
  | _ => exact (hstmt n _).andThen fun _ => walks_pure _

/-! ### The other statements -/

theorem walks_leave (f : String) (endBB : Blk) : Walks fnName n [] n (genTry.leave f endBB) :=
  walks_ifOpen ((walks_ir _).after fun _ => walks_ir _)

theorem walks_genTry {body body2 : Cg Unit} (hbody : Walks fnName (n + 1) ss (n + 1) body)
    (hbody2 : Walks fnName (n + 1) ss' (n + 1) body2) :
    Walks fnName n (.push :: (ss ++ [.pop]) ++ .push :: (ss' ++ [.pop])) n (genTry body body2) := by
  unfold genTry
  refine (walks_ir _).after fun frame => (walks_ir _).after fun jb => (walks_ir _).after fun rc => ?_
  refine (walks_ir _).after fun tryBB => (walks_ir _).after fun catchBB => ?_
  refine (walks_ir _).after fun endBB => (walks_ir _).after fun c => (walks_ir _).after fun _ => ?_
  refine (walks_ir _).after fun _ => (walks_inScope hbody).bind fun _ => ?_
  refine (walks_leave _ _).after fun _ => (walks_ir _).after fun _ => (walks_ir _).after fun _ => ?_
  exact (walks_inScope hbody2).andThen fun _ => (walks_leave _ _).after fun _ => walks_ir _

theorem walks_genBreak (loc : SrcLoc) (breaks : List BreakTarget) :
    Walks fnName n [] n (genBreak loc breaks) := by
  unfold genBreak
  split
  · exact walks_ir _
  · exact (walks_ir _).after fun _ => walks_startDeadBlock

theorem walks_genGoto (label : String) : Walks fnName n [] n (genGoto label) :=
  (walks_getLabelBlock label).after fun _ => (walks_ir _).after fun _ => walks_startDeadBlock

theorem walks_genLabel (loc : SrcLoc) (label : String) :
    Walks fnName n [] n (genLabel loc label) := by
  have hdefined : Walks fnName n [] n (isDefined label) :=
    walks_set (fun _ => rfl) (fun _ => rfl) fun _ => rfl
  have hdefine : Walks fnName n [] n (defineLabel label) :=
    walks_set (fun _ => rfl) (fun _ => rfl) fun _ => rfl
  refine hdefined.after fun b => ?_
  split
  · exact walks_ir _
  · refine (walks_getLabelBlock label).after fun _ => hdefine.after fun _ => ?_
    exact (walks_brIfOpen _).after fun _ => walks_ir _

/-! ### Declarations -/

/-- A new slot is storage of a local. -/
theorem walks_entryAlloca (ty : LTy) {f : Value → Cg β}
    (hf : ∀ k, Walks fnName n ss n' (f (.slot k))) :
    Walks fnName n ss n' (ir (entryAlloca ty) >>= f) := by
  intro done hnd F hF b F' hx
  rcases Cg.bind_eq_ok.mp hx with ⟨a, F₁, halloca, hx⟩
  rcases Prod.mk.inj (Except.ok.inj halloca) with ⟨rfl, rfl⟩
  have hwalk := (walks_ir (entryAlloca ty)).after fun _ : Value => hf F.b.slots.length
  exact hwalk done hnd F hF b F' (Cg.bind_eq_ok.mpr ⟨_, _, halloca, hx⟩)

theorem walks_genInitIn (addr : Value) (t : Ty) (init : Option Expr) :
    Walks fnName n ((useSteps init.toList).map Prod.snd) n (genInitIn Γ d addr t init) := by
  cases init with
  | none => exact walks_pure ()
  | some e =>
      exact walks_use e fun scopes =>
        genInit { Γ with scopes := scopes } (gen { Γ with scopes := scopes } d) addr t e

theorem walks_genStaticLocal (v : VarDeclarator) :
    Walks fnName (n + 1) [.bind v.name] (n + 1) (genStaticLocal Γ fnName v) := by
  unfold genStaticLocal
  refine walks_get.after fun F => ?_
  extract_lets Γ' name rest
  have hrest : ∀ c, Walks fnName (n + 1) [.bind v.name] (n + 1) (rest c) := fun c =>
    .after (walks_set (fun _ => rfl) (fun _ => rfl) fun _ => rfl) fun _ =>
      walks_declareLocal v.name v.loc (.inr rfl)
  split
  · exact (walks_pure _).after hrest
  · split
    · exact (walks_pure _).after hrest
    · exact (walks_ir _).after hrest
    · exact (walks_ir _).after fun _ => (walks_pure _).after hrest

theorem walks_genVarDecl (isStatic : Bool) (decls : List VarDeclarator) :
    Walks fnName (n + 1) ((declSteps isStatic decls).map Prod.snd) (n + 1)
      (genVarDecl Γ d fnName isStatic decls) := by
  induction decls with
  | nil => exact walks_pure ()
  | cons v vs ih =>
      rw [declSteps, List.map_cons, List.map_append, snd_inPart, snd_inPart]
      unfold genVarDecl
      cases isStatic with
      | true => exact (walks_genStaticLocal v).bind fun _ => ih
      | false =>
          have hv : Walks fnName (n + 1) (.bind v.name :: (useSteps v.init.toList).map Prod.snd)
              (n + 1) (genLocal Γ d v) :=
            walks_entryAlloca _ fun k =>
              (walks_declareLocal v.name v.loc (.inl ⟨k, rfl⟩)).bind fun _ =>
                walks_genInitIn _ _ v.init
          exact hv.bind fun _ => ih

/-! ### The recursion -/

theorem map_snd_scopeSteps (ps : Steps) :
    (scopeSteps ps).map Prod.snd = .push :: (ps.map Prod.snd ++ [.pop]) := by
  unfold scopeSteps
  rw [List.map_cons, List.map_append]
  rfl

mutual

theorem walks_genStmt : ∀ (s : Stmt) (breaks : List BreakTarget) (n : Nat),
    Walks fnName (n + 1) ((stmtSteps s).map Prod.snd) (n + 1) (genStmt Γ d fnName breaks s)
  | .empty _, _, _ | .noWarn _, _, _ => walks_pure ()
  | .block _ body, breaks, n => by
      rw [stmtSteps, map_snd_scopeSteps]
      exact walks_inScope (walks_genStmts body breaks (n + 1))
  | .expr _ e, _, _ => (walks_genExpr e).andThen fun _ => walks_pure ()
  | .ifS loc e body body2, breaks, n => by
      rw [stmtSteps, List.map_append, List.map_append, snd_inPart, snd_inPart, snd_inPart]
      have hnone : genElseStmt Γ d fnName breaks body2 = none →
          (elseSteps body2).map Prod.snd = [] := by
        intro h
        cases body2 with
        | none => rfl
        | some s => cases h
      have h := walks_genIf (Γ := Γ) (d := d) loc e (walks_genStmt body breaks n)
        (walks_genElseStmt body2 breaks n) hnone
      exact h
  | .whileS loc e body, breaks, n => by
      rw [stmtSteps, List.map_append, snd_inPart, snd_inPart]
      exact walks_genWhile loc e fun t => walks_genStmt body (t :: breaks) n
  | .doWhile loc e body, breaks, n => by
      rw [stmtSteps, List.map_append, snd_inPart, snd_inPart]
      exact walks_genDoWhile loc e fun t => walks_genStmt body (t :: breaks) n
  | .forS loc init e post body, breaks, n => by
      rw [stmtSteps, List.map_append, List.map_append, List.map_append, snd_inPart, snd_inPart,
        snd_inPart, snd_inPart]
      exact walks_genFor loc init e post fun t => walks_genStmt body (t :: breaks) n
  | .switchS loc e body, breaks, n => by
      have hitem : WalksItems fnName ((stmtSteps body).map Prod.snd)
          (genItem Γ body fun t => genStmt Γ d fnName (t :: breaks) body) :=
        walks_genItem body fun n t => walks_genStmt body (t :: breaks) n
      cases body with
      | block _ items =>
          rw [stmtSteps, List.map_append, snd_inPart, snd_inPart, map_snd_scopeSteps]
          exact walks_genSwitch loc e (walks_genItems items breaks)
      | _ =>
          rw [stmtSteps, List.map_append, snd_inPart, snd_inPart, map_snd_scopeSteps]
          · exact walks_genSwitch loc e hitem
          · exact fun _ _ h => nomatch h
  | .breakS loc, breaks, _ => walks_genBreak loc breaks
  | .gotoS _ label, _, _ => walks_genGoto label
  | .labelS loc label, _, _ => walks_genLabel loc label
  | .returnS _ e, _, _ => walks_genReturn e
  | .varDecl _ decls isStatic, _, _ => walks_genVarDecl isStatic decls
  | .tryS _ body body2, breaks, n => by
      rw [stmtSteps, List.map_append, snd_inPart, snd_inPart, map_snd_scopeSteps, map_snd_scopeSteps]
      exact walks_genTry (walks_genStmts body breaks (n + 1)) (walks_genStmts body2 breaks (n + 1))
  | .lock _ body, breaks, n => walks_genStmt body breaks n
  | .caseS _ _, _, _ | .defaultS _, _, _ | .subStart _, _, _ | .subEnd _, _, _ => walks_ir _

theorem walks_genElseStmt : ∀ (s : Option Stmt) (breaks : List BreakTarget) (n : Nat),
    ∀ x, genElseStmt Γ d fnName breaks s = some x →
      Walks fnName (n + 1) ((elseSteps s).map Prod.snd) (n + 1) x
  | none, _, _, _, hx => nomatch hx
  | some s, breaks, n, _, hx => by
      rcases Option.some.inj hx with rfl
      exact walks_genStmt s breaks n

theorem walks_genStmts : ∀ (ss : List Stmt) (breaks : List BreakTarget) (n : Nat),
    Walks fnName (n + 1) ((stmtsSteps ss).map Prod.snd) (n + 1) (genStmts Γ d fnName breaks ss)
  | [], _, _ => walks_pure ()
  | s :: ss, breaks, n => by
      rw [stmtsSteps, List.map_append, snd_inPart, snd_inPart]
      exact (walks_genStmt s breaks n).bind fun _ => walks_genStmts ss breaks n

theorem walks_genItems : ∀ (items : List Stmt) (breaks : List BreakTarget),
    WalksItems fnName ((stmtsSteps items).map Prod.snd) (genItems Γ d fnName breaks items)
  | [], _ => fun _ _ => walks_pure _
  | it :: items, breaks => fun n swc => by
      rw [stmtsSteps, List.map_append, snd_inPart, snd_inPart]
      have hit := walks_genItem (Γ := Γ) it fun n t => walks_genStmt it (t :: breaks) n
      exact (hit n swc).bind fun swc' => walks_genItems items breaks n swc'

end

end Walks

/-! ## The order of the text -/

/-- Code that is generated before a declaration stands before it in the text. -/
def Ordered (ps : Steps) : Prop :=
  ps.Pairwise fun a b => ∀ e n, a.2 = .use e → b.2 = .bind n → a.1 < b.1

/-- The declarations stand behind part `i`. -/
def Later (i : Nat) (ps : Steps) : Prop :=
  ∀ b ∈ ps, ∀ n, b.2 = .bind n → ∃ j p, i < j ∧ b.1 = j :: p

section Order

variable {ps qs : Steps} {i j : Nat}

theorem later_inPart (ps : Steps) (h : i < j) : Later i (inPart j ps) := by
  intro b hb n _
  rcases List.mem_map.mp hb with ⟨a, _, rfl⟩
  exact ⟨j, a.1, h, rfl⟩

theorem Later.append (hp : Later i ps) (hq : Later i qs) : Later i (ps ++ qs) := by
  intro b hb
  rcases List.mem_append.mp hb with hb | hb
  · exact hp b hb
  · exact hq b hb

theorem Ordered.inPart (h : Ordered ps) (i : Nat) : Ordered (inPart i ps) := by
  refine List.pairwise_map.mpr (h.imp ?_)
  intro a b hab e n ha hb
  exact List.cons_lt_cons_iff.mpr (.inr ⟨rfl, hab e n ha hb⟩)

theorem Ordered.part_append (hp : Ordered ps) (hq : Ordered qs) (h : Later i qs) :
    Ordered (Codegen.inPart i ps ++ qs) := by
  refine List.pairwise_append.mpr ⟨hp.inPart i, hq, ?_⟩
  intro a ha b hb e n _ hn
  rcases List.mem_map.mp ha with ⟨a, _, rfl⟩
  rcases h b hb n hn with ⟨j, p, hlt, hj⟩
  rw [hj]
  exact List.cons_lt_cons_iff.mpr (.inl hlt)

/-- Parts in the order of the text. -/
theorem Ordered.parts (hp : Ordered ps) (hq : Ordered qs) (h : i < j) :
    Ordered (Codegen.inPart i ps ++ Codegen.inPart j qs) :=
  hp.part_append (hq.inPart j) (later_inPart qs h)

theorem ordered_useStep (e : Expr) : Ordered (useStep e) := List.pairwise_singleton _ _

theorem ordered_useSteps (es : List Expr) : Ordered (useSteps es) := by
  induction es with
  | nil => exact .nil
  | cons e es ih => exact (ordered_useStep e).parts ih Nat.one_pos

/-- Expressions declare nothing. -/
theorem useSteps_ne_bind (es : List Expr) : ∀ b ∈ useSteps es, ∀ n, b.2 ≠ .bind n := by
  induction es with
  | nil => exact fun _ h => absurd h List.not_mem_nil
  | cons e es ih =>
      intro b hb n
      rcases List.mem_append.mp hb with hb | hb
      · rcases List.mem_singleton.mp hb with rfl
        exact ScopeStep.noConfusion
      · rcases List.mem_map.mp hb with ⟨a, ha, rfl⟩
        exact ih a ha n

theorem Ordered.scopeSteps (h : Ordered ps) : Ordered (scopeSteps ps) := by
  refine List.pairwise_cons.mpr ⟨?_, List.pairwise_append.mpr ⟨h, List.pairwise_singleton _ _, ?_⟩⟩
  · intro b _ e n he
    cases he
  · intro a _ b hb e n _ hn
    rcases List.mem_singleton.mp hb with rfl
    cases hn

theorem ordered_declSteps (isStatic : Bool) (decls : List VarDeclarator) :
    Ordered (declSteps isStatic decls) := by
  induction decls with
  | nil => exact .nil
  | cons v vs ih =>
      refine List.pairwise_cons.mpr ⟨?_, (ordered_useSteps _).parts ih (Nat.lt_succ_self 1)⟩
      intro b _ e n he
      cases he

mutual

theorem ordered_stmtSteps : ∀ s : Stmt, Ordered (stmtSteps s)
  | .block _ body => (ordered_stmtsSteps body).scopeSteps
  | .expr _ e => ordered_useStep e
  | .ifS _ e body body2 => by
      refine (ordered_useStep e).part_append ?_ ?_
      · exact (ordered_stmtSteps body).parts (ordered_elseSteps body2) (Nat.lt_succ_self 1)
      · exact (later_inPart _ Nat.one_pos).append (later_inPart _ Nat.two_pos)
  | .whileS _ e body => (ordered_useStep e).parts (ordered_stmtSteps body) Nat.one_pos
  | .doWhile _ e body => (ordered_stmtSteps body).parts (ordered_useStep e) Nat.one_pos
  | .forS _ init e post body => by
      -- the post expressions are out of order, but declare nothing
      have hpost : ∀ i, Later i (inPart 2 (useSteps post)) := by
        intro i b hb n hn
        rcases List.mem_map.mp hb with ⟨a, ha, rfl⟩
        exact absurd hn (useSteps_ne_bind post a ha n)
      have hbody : Ordered (inPart 3 (stmtSteps body) ++ inPart 2 (useSteps post)) :=
        (ordered_stmtSteps body).part_append ((ordered_useSteps post).inPart 2) (hpost 3)
      have hcond := (ordered_useSteps e.toList).part_append hbody
        ((later_inPart _ (by omega : 1 < 3)).append (hpost 1))
      refine (ordered_useSteps init).part_append hcond ?_
      exact (later_inPart _ Nat.one_pos).append ((later_inPart _ (by omega)).append (hpost 0))
  | .switchS _ e body => by
      have hbody := (ordered_stmtSteps body).scopeSteps
      cases body with
      | block _ items =>
          have hitems := (ordered_stmtsSteps items).scopeSteps
          exact (ordered_useStep e).parts hitems Nat.one_pos
      | _ => exact (ordered_useStep e).parts hbody Nat.one_pos
  | .returnS _ e => ordered_useSteps _
  | .varDecl _ decls isStatic => ordered_declSteps isStatic decls
  | .tryS _ body body2 =>
      (ordered_stmtsSteps body).scopeSteps.parts (ordered_stmtsSteps body2).scopeSteps Nat.one_pos
  | .lock _ body => ordered_stmtSteps body
  | .caseS _ _ | .defaultS _ | .subStart _ | .subEnd _ | .breakS _ | .gotoS _ _ | .labelS _ _
  | .noWarn _ | .empty _ => .nil

theorem ordered_elseSteps : ∀ s : Option Stmt, Ordered (elseSteps s)
  | none => .nil
  | some s => ordered_stmtSteps s

theorem ordered_stmtsSteps : ∀ ss : List Stmt, Ordered (stmtsSteps ss)
  | [] => .nil
  | s :: ss => (ordered_stmtSteps s).parts (ordered_stmtsSteps ss) Nat.one_pos

end

theorem FuncDecl.ordered_steps (fd : FuncDecl) : Ordered fd.steps := by
  refine List.pairwise_append.mpr ⟨?_, (ordered_stmtsSteps fd.body).inPart 1, ?_⟩
  · refine List.pairwise_map.mpr (List.pairwise_of_forall ?_)
    intro a b e n he
    cases he
  · intro a ha b _ e n he
    rcases List.mem_map.mp ha with ⟨_, _, rfl⟩
    cases he

end Order

/-! ## Functions -/

section Func

variable {Γ : Env} {d : Nat}

theorem walks_genFnParams {fnName : String} {n : Nat} (ps : List FuncParam) :
    ∀ (i : Nat) (locs : List SrcLoc), Walks fnName (n + 1)
      (((ps.map FuncParam.name).filter (· ≠ "")).map ScopeStep.bind) (n + 1)
      (genFnParams Γ i ps locs) := by
  induction ps with
  | nil => exact fun _ _ => walks_pure ()
  | cons p ps ih =>
      intro i locs
      rw [List.map_cons]
      refine walks_entryAlloca _ fun k => (walks_ir _).after fun _ => ?_
      unfold declareParam
      by_cases hname : p.name = ""
      · rw [if_pos hname, List.filter_cons_of_neg (by simpa using hname)]
        exact (walks_pure _).after fun _ => ih _ _
      · rw [if_neg hname, List.filter_cons_of_pos (by simpa using hname), List.map_cons]
        exact (walks_declareLocal p.name _ (.inl ⟨k, rfl⟩)).bind fun _ => ih _ _

theorem walks_genBuiltinParam {fnName : String} {n : Nat} (i : Nat) (name : String) (t : Ty) :
    Walks fnName (n + 1) [.bind name] (n + 1) (genBuiltinParam i name t) := by
  refine walks_entryAlloca _ fun k => (walks_ir _).after fun _ => walks_one ?_ ?_
  · intro F F' hx
    rcases Prod.mk.inj (Except.ok.inj hx) with ⟨_, rfl⟩
    exact List.subset_append_left _ _
  · intro done F F' _ hF hx
    rcases Prod.mk.inj (Except.ok.inj hx) with ⟨_, rfl⟩
    refine hF.snoc (.bind name ⟨.slot k, t⟩) ⟨?_, .inl ⟨k, rfl⟩⟩ rfl rfl rfl ?_ ?_
    · exact List.ne_nil_of_length_pos (by rw [hF.depth]; exact Nat.succ_pos n)
    · exact (List.length_modifyHead ..).trans hF.depth
    · rw [boundNames_append]
      exact (hF.names.cons name).trans (List.perm_append_singleton name _).symm

theorem walks_genVariadic {fnName : String} {n : Nat} (i : Nat) (variadic : Bool) :
    Walks fnName (n + 1) ((if variadic then ["argc", "argv"] else []).map ScopeStep.bind) (n + 1)
      (genVariadic i variadic) := by
  cases variadic with
  | true =>
      exact (walks_genBuiltinParam i "argc" .i64).bind fun _ =>
        walks_genBuiltinParam (i + 1) "argv" (.ptr .i64)
  | false => exact walks_pure ()

theorem walks_closeLabels {fnName : String} {n : Nat} (ls : List (String × Blk)) :
    Walks fnName n [] n (closeLabels fnName ls) := by
  induction ls with
  | nil => exact walks_pure ()
  | cons l ls ih =>
      refine .after (walks_same ?_) fun _ => ih
      intro F _ F' hx
      unfold closeLabel at hx
      split_ifs at hx
      · rcases Prod.mk.inj (Except.ok.inj hx) with ⟨_, rfl⟩
        exact ⟨rfl, rfl, rfl⟩
      · rcases Prod.mk.inj (Except.ok.inj hx) with ⟨_, rfl⟩
        exact ⟨rfl, rfl, rfl⟩

/-- The generator takes the steps of the text. -/
theorem genFuncBody_walked {fd : FuncDecl} {F : FnCtx} (hnd : fd.NoDups)
    (h : genFuncBody Γ d fd = .ok F) : F.Walked fd.name 1 (fd.steps.map Prod.snd) := by
  unfold genFuncBody at h
  rcases exists_of_map_ok h with ⟨⟨u, F'⟩, hgen, rfl⟩
  have hsteps : fd.steps.map Prod.snd =
      ((fd.type.params.map FuncParam.name).filter (· ≠ "")).map ScopeStep.bind ++
        ((if fd.type.variadic then ["argc", "argv"] else []).map ScopeStep.bind ++
          (stmtsSteps fd.body).map Prod.snd) := by
    unfold FuncDecl.steps paramNames
    rw [List.map_append, snd_inPart, List.map_map, ← List.append_assoc, ← List.map_append]
    rfl
  have hfinish : Walks fd.name 1 [] 1 (finishFn fd.name) := by
    refine walks_get.after fun F => .after (m := 1) ?_ fun _ => walks_closeLabels _
    exact walks_ifOpen (walks_ir _)
  have hparams : Walks fd.name 1 _ 1 (genFnParams Γ 0 fd.type.params fd.paramLocs) :=
    walks_genFnParams fd.type.params 0 fd.paramLocs
  have hwalk := hparams.bind fun _ =>
    (walks_genVariadic fd.type.params.length fd.type.variadic).bind fun _ =>
      (walks_genStmts (Γ := Γ) (d := d) fd.body [] 0).andThen fun _ => hfinish
  rw [hsteps]
  unfold FuncDecl.NoDups at hnd
  rw [hsteps] at hnd
  refine hwalk [] hnd _ (.inr ?_) u F' hgen
  exact ⟨trivial, rfl, rfl, rfl, List.Perm.refl _⟩

theorem closeLabels_scopeLog (fnName : String) (ls : List (String × Blk)) {F F' : FnCtx} {u : Unit}
    (h : closeLabels fnName ls F = .ok (u, F')) : F'.scopeLog = F.scopeLog := by
  induction ls generalizing F with
  | nil =>
      rcases Prod.mk.inj (Except.ok.inj h) with ⟨_, rfl⟩
      rfl
  | cons l ls ih =>
      rcases Cg.bind_eq_ok.mp h with ⟨_, F₁, hl, hls⟩
      rw [ih hls]
      unfold closeLabel at hl
      split_ifs at hl
      · rcases Prod.mk.inj (Except.ok.inj hl) with ⟨_, rfl⟩
        rfl
      · rcases Prod.mk.inj (Except.ok.inj hl) with ⟨_, rfl⟩
        rfl

/-- All steps of the text are taken: a block is open where post expressions are generated. -/
theorem genFuncBody_logged {fd : FuncDecl} {F : FnCtx}
    (hΓ : ({ Γ with scopes := [] } : Env).Chained) (hfd : fd.Chained) (hnd : fd.NoDups)
    (h : genFuncBody Γ d fd = .ok F) : F.Logged fd.name 1 (fd.steps.map Prod.snd) := by
  rcases genFuncBody_end hΓ hfd h with ⟨F₁, F₂, hat, hend, hclose⟩
  rcases keeps_endOpen _ _ hat _ _ hend with ⟨_, hgood, _⟩
  rcases genFuncBody_walked hnd h with hskip | hlogged
  · rw [closeLabels_scopeLog fd.name _ hclose] at hskip
    exact absurd hskip hgood.live
  · exact hlogged

end Func

/-! ## What a name stands for -/

/-- Step `j` is code for an expression with the name `n` in it, and follows in the text the
declaration of `n` that is step `i`. -/
def Follows (ps : Steps) (i j : Nat) (n : String) : Prop :=
  ∃ p q e, ps[i]? = some (p, .bind n) ∧ ps[j]? = some (q, .use e) ∧ p < q ∧ n ∈ e.idents

/-- In the code of event `j`, `lookupVar` finds for `n` what event `i` declares. -/
def Resolves (Γ : Env) (log : List ScopeEvent) (i j : Nat) (n : String) : Prop :=
  ∃ v scopes e, log[i]? = some (.bind n v) ∧ log[j]? = some (.use scopes e) ∧
    ({ Γ with scopes := scopes } : Env).lookupVar n = some v

/-- The scope of step `i` is not left before step `j`. -/
def InScope (ps : Steps) (i j : Nat) : Prop :=
  Stays 0 (((ps.take j).drop (i + 1)).map fun p => p.2.op)

instance (ps : Steps) (i j : Nat) : Decidable (InScope ps i j) :=
  inferInstanceAs (Decidable (Stays _ _))

section Resolve

variable {Γ : Env} {fnName : String} {ps : Steps} {log : List ScopeEvent} {i j : Nat} {n : String}

/-- What follows in the text is generated later. -/
theorem lt_of_follows (hps : Ordered ps) (h : Follows ps i j n) : i < j := by
  rcases h with ⟨p, q, e, hi, hj, hlt, _⟩
  rcases Nat.lt_trichotomy i j with hij | rfl | hji
  · exact hij
  · have heq := (Prod.mk.inj (Option.some.inj (hi.symm.trans hj))).2
    cases heq
  · -- the declaration would stand behind
    have hpair := List.pairwise_iff_getElem.mp hps j i
      (List.getElem?_eq_some_iff.mp hj).1 (List.getElem?_eq_some_iff.mp hi).1 hji e n
    rw [(List.getElem?_eq_some_iff.mp hj).2, (List.getElem?_eq_some_iff.mp hi).2] at hpair
    exact absurd (hpair rfl rfl) (List.lt_asymm hlt)

/-- A list split before an element. -/
theorem eq_take_cons_drop {α : Type} {l : List α} {a : α} (h : l[i]? = some a) :
    l = l.take i ++ a :: l.drop (i + 1) := by
  rcases List.getElem?_eq_some_iff.mp h with ⟨hlt, rfl⟩
  rw [List.cons_getElem_drop_succ, List.take_append_drop]

/-- The event at a place of the log fits the scopes there. -/
theorem Fit.at {s : Stack String VarSym} (h : Fit fnName s log) {ev : ScopeEvent}
    (hev : log[i]? = some ev) :
    ev.Fits fnName (run s ((log.take i).map ScopeEvent.op)) := by
  rw [eq_take_cons_drop hev, fit_append] at h
  exact h.2.1

/-- A name is declared in one step only. -/
theorem bind_unique {ss : List ScopeStep} (hnd : (boundNames ss).Nodup)
    (hi : ss[i]? = some (.bind n)) (hj : ss[j]? = some (.bind n)) : i = j := by
  have hpair := List.pairwise_iff_getElem.mp (List.pairwise_filterMap.mp hnd)
  rcases List.getElem?_eq_some_iff.mp hi with ⟨hilt, hi⟩
  rcases List.getElem?_eq_some_iff.mp hj with ⟨hjlt, hj⟩
  have hname : ∀ k (hk : k < ss.length), ss[k] = .bind n → ScopeStep.name? ss[k] = some n :=
    fun k hk h => congrArg ScopeStep.name? h
  rcases Nat.lt_trichotomy i j with hij | hij | hji
  · exact absurd rfl (hpair i j hilt hjlt hij n (hname i hilt hi) n (hname j hjlt hj))
  · exact hij
  · exact absurd rfl (hpair j i hjlt hilt hji n (hname j hjlt hj) n (hname i hilt hi))

/-- What binds a name is a declaration of it. -/
theorem mem_of_op_mem {evs : List ScopeEvent} {v : VarSym}
    (h : .bind n v ∈ evs.map ScopeEvent.op) : .bind n v ∈ evs := by
  rcases List.mem_map.mp h with ⟨ev, hmem, hop⟩
  cases ev with
  | bind n' v' =>
      rcases Op.bind.inj hop with ⟨rfl, rfl⟩
      exact hmem
  | _ => exact nomatch hop

section Log

variable {F : FnCtx} {k : Nat}

/-- The event of a step. -/
theorem FnCtx.Logged.event (h : F.Logged fnName k (ps.map Prod.snd)) {p : List Nat} {st : ScopeStep}
    (hi : ps[i]? = some (p, st)) : ∃ ev, F.scopeLog[i]? = some ev ∧ ev.step? = some st := by
  have hmap := congrArg (fun l => l[i]?) h.steps
  simp only [List.getElem?_map, hi, Option.map_some] at hmap
  exact Option.map_eq_some_iff.mp hmap

/-- The step of an event. -/
theorem FnCtx.Logged.step (h : F.Logged fnName k (ps.map Prod.snd)) {ev : ScopeEvent}
    (hi : F.scopeLog[i]? = some ev) :
    ∃ st, (ps.map Prod.snd)[i]? = some st ∧ ev.step? = some st := by
  have hmap := congrArg (fun l => l[i]?) h.steps
  simp only [List.getElem?_map, hi, Option.map_some] at hmap
  rcases Option.map_eq_some_iff.mp hmap.symm with ⟨st, hst, heq⟩
  exact ⟨st, by rw [List.getElem?_map]; exact hst, heq.symm⟩

/-- An event that binds a name is at the place of its declaration. -/
theorem FnCtx.Logged.bind_unique (h : F.Logged fnName k (ps.map Prod.snd))
    (hnd : (boundNames (ps.map Prod.snd)).Nodup) {v v' : VarSym}
    (hi : F.scopeLog[i]? = some (.bind n v)) (hj : F.scopeLog[j]? = some (.bind n v')) : i = j := by
  rcases h.step hi with ⟨st, hsti, heqi⟩
  rcases h.step hj with ⟨st', hstj, heqj⟩
  rcases Option.some.inj heqi with rfl
  rcases Option.some.inj heqj with rfl
  exact Codegen.bind_unique hnd hsti hstj

/-- What is bound is no matter for the steps between two events. -/
theorem FnCtx.Logged.between (h : F.Logged fnName k (ps.map Prod.snd)) :
    Stays 0 (((F.scopeLog.take j).drop (i + 1)).map ScopeEvent.op) ↔ InScope ps i j := by
  have hshape : ∀ (evs : List ScopeEvent) (sts : List ScopeStep),
      evs.map ScopeEvent.step? = sts.map some →
        (evs.map ScopeEvent.op).map Op.shape = (sts.map ScopeStep.op).map Op.shape := by
    intro evs
    induction evs with
    | nil =>
        intro sts hsts
        rw [List.map_eq_nil_iff.mp hsts.symm]
        rfl
    | cons ev evs ih =>
        intro sts hsts
        cases sts with
        | nil => cases hsts
        | cons st sts =>
            rcases List.cons.inj hsts with ⟨hst, hsts⟩
            have hop : ev.op.shape = st.op.shape := by
              cases ev with
              | skip => cases hst
              | _ =>
                  rcases Option.some.inj hst with rfl
                  rfl
            exact congrArg₂ List.cons hop (ih sts hsts)
  have hsteps : ((F.scopeLog.take j).drop (i + 1)).map ScopeEvent.step? =
      (((ps.take j).drop (i + 1)).map Prod.snd).map some := by
    rw [List.map_drop, List.map_take, h.steps, List.map_drop, List.map_drop, List.map_take,
      List.map_take]
  unfold InScope
  rw [← stays_shape, hshape _ _ hsteps, stays_shape, List.map_map]
  rfl

/-- A local is found in code that follows its declaration exactly where its scope has not
been left. -/
theorem resolves_iff (h : F.Logged fnName k (ps.map Prod.snd)) (hps : Ordered ps)
    (hnd : (boundNames (ps.map Prod.snd)).Nodup)
    (hglob : ∀ v, Γ.globals.lookup n = some v → ¬ v.IsLocal fnName n) (hij : Follows ps i j n) :
    Resolves Γ F.scopeLog i j n ↔ InScope ps i j := by
  have hlt := lt_of_follows hps hij
  rcases hij with ⟨p, q, e, hi, hj, _, _⟩
  rcases h.event hi with ⟨ev, hev, hstep⟩
  rcases h.event hj with ⟨ev', hev', hstep'⟩
  cases ev with
  | bind n' v =>
      rcases ScopeStep.bind.inj (Option.some.inj hstep) with rfl
      cases ev' with
      | use scopes e' =>
          have hfit := h.fit.at hev
          have hscopes : scopes = _ := h.fit.at hev'
          -- the log up to the code: before the declaration, the declaration, in between
          have hsplit : F.scopeLog.take j = F.scopeLog.take i ++
              .bind n' v :: (F.scopeLog.take j).drop (i + 1) := by
            have hget : (F.scopeLog.take j)[i]? = some (.bind n' v) := by
              rw [List.getElem?_take_of_lt hlt]
              exact hev
            have heq := eq_take_cons_drop hget
            rwa [List.take_take, Nat.min_eq_left (Nat.le_of_lt hlt)] at heq
          have hother : ∀ v' m, F.scopeLog[m]? = some (.bind n' v') → m = i :=
            fun v' m hmem => h.bind_unique hnd hmem hev
          have hfree : Free n' (run [[]] ((F.scopeLog.take i).map ScopeEvent.op)) := by
            refine Free.run ?_ ?_
            · intro scope hscope
              rcases List.mem_singleton.mp hscope with rfl
              rfl
            · intro v' hmem
              rcases List.getElem?_of_mem (mem_of_op_mem hmem) with ⟨m, hm⟩
              rcases List.getElem?_eq_some_iff.mp hm with ⟨hmlt, hm⟩
              rw [List.getElem_take] at hm
              have heq := hother v' m (List.getElem?_eq_some_iff.mpr ⟨_, hm⟩)
              rw [List.length_take] at hmlt
              omega
          have hbetween : ∀ v', .bind n' v' ∉
              ((F.scopeLog.take j).drop (i + 1)).map ScopeEvent.op := by
            intro v' hmem
            rcases List.getElem?_of_mem (mem_of_op_mem hmem) with ⟨m, hm⟩
            rw [List.getElem?_drop] at hm
            rcases List.getElem?_eq_some_iff.mp hm with ⟨hmlt, hm⟩
            rw [List.getElem_take] at hm
            have heq := hother v' (i + 1 + m) (List.getElem?_eq_some_iff.mpr ⟨_, hm⟩)
            omega
          have hrun : scopes = run (run [[]] ((F.scopeLog.take i).map ScopeEvent.op))
              (.bind n' v :: ((F.scopeLog.take j).drop (i + 1)).map ScopeEvent.op) := by
            rw [hscopes]
            nth_rewrite 1 [hsplit]
            rw [List.map_append, run_append]
            rfl
          have hfind := find_run_bind (v := v) hfit.1 hfree hbetween
          rw [← hrun] at hfind
          rw [← h.between]
          constructor
          · rintro ⟨v', scopes', e₁, hv', hs', hlook⟩
            rcases ScopeEvent.bind.inj (Option.some.inj (hev.symm.trans hv')) with ⟨_, rfl⟩
            rcases ScopeEvent.use.inj (Option.some.inj (hev'.symm.trans hs')) with ⟨rfl, _⟩
            by_contra hleft
            rw [if_neg hleft] at hfind
            -- the search falls through to the globals
            unfold Env.lookupVar at hlook
            unfold find at hfind
            dsimp only at hlook
            rw [hfind] at hlook
            exact hglob v hlook hfit.2
          · intro hstays
            refine ⟨v, scopes, e', hev, hev', ?_⟩
            rw [if_pos hstays] at hfind
            unfold Env.lookupVar
            unfold find at hfind
            dsimp only
            rw [hfind]
      | _ => cases hstep'
  | _ => cases hstep

end Log

/-- After a declaration a name stands for the local in the code of the whole function,
exactly when it does not occur outside of the scope of its declaration. -/
theorem genFuncBody_resolves {d : Nat} {fd : FuncDecl} {F : FnCtx}
    (hΓ : ({ Γ with scopes := [] } : Env).Chained) (hfd : fd.Chained) (hnd : fd.NoDups)
    (hglob : ∀ n v, Γ.globals.lookup n = some v → ¬ v.IsLocal fd.name n)
    (h : genFuncBody Γ d fd = .ok F) :
    (∀ i j n, Follows fd.steps i j n → Resolves Γ F.scopeLog i j n) ↔
      ∀ i j n, Follows fd.steps i j n → InScope fd.steps i j := by
  have hiff : ∀ i j n, Follows fd.steps i j n →
      (Resolves Γ F.scopeLog i j n ↔ InScope fd.steps i j) := fun i j n hij =>
    resolves_iff (genFuncBody_logged hΓ hfd hnd h) fd.ordered_steps hnd (hglob n) hij
  constructor
  · exact fun hall i j n hij => (hiff i j n hij).mp (hall i j n hij)
  · exact fun hall i j n hij => (hiff i j n hij).mpr (hall i j n hij)

/-- `I64 F() { { I64 x; x; } return x; }` -/
def blockFunc : FuncDecl where
  name := "F"
  type := ⟨.i64, [], false⟩
  body := [
    .block {} [.varDecl {} [{ name := "x", type := .i64 }] false, .expr {} (.ident {} "x")],
    .returnS {} (some (.ident {} "x"))]

/-- There is a global `I64 x`. -/
def blockEnv : Env := { globals := [("x", ⟨.glob "x", .i64⟩)], classFuel := 1 }

/-- The code generated for it. -/
def blockCtx : FnCtx := ((genFuncBody blockEnv 5 blockFunc).toOption).getD {}

theorem genFuncBody_blockFunc : genFuncBody blockEnv 5 blockFunc = .ok blockCtx := by
  have hsome : (genFuncBody blockEnv 5 blockFunc).toOption.isSome = true := by decide +kernel
  rw [blockCtx]
  exact eq_ok_of_isSome hsome _

theorem blockEnv_chained : ({ blockEnv with scopes := [] } : Env).Chained where
  var := by
    intro s v h
    change blockEnv.globals.lookup s = some v at h
    rcases List.lookup_eq_some_iff.mp h with ⟨l₁, l₂, heq, _⟩
    have hmem : (s, v) ∈ blockEnv.globals := heq ▸ List.mem_append_right _ List.mem_cons_self
    rcases Prod.mk.inj (List.mem_singleton.mp hmem) with ⟨_, rfl⟩
    exact chained_i64
  func := fun _ _ h => nomatch h
  member := fun _ _ h => absurd h List.not_mem_nil
  whole := fun _ _ h => nomatch h

theorem blockFunc_chained : blockFunc.Chained where
  type := by
    refine ⟨chained_i64, ?_, ?_⟩
    · exact fun _ h => absurd h List.not_mem_nil
    · exact fun _ h => absurd h List.not_mem_nil
  body := by
    have hx : (Expr.ident {} "x").Chained := .ident _ _
    intro s hs
    rcases List.mem_cons.mp hs with rfl | hs
    · refine .block ?_
      intro s hs
      rcases List.mem_cons.mp hs with rfl | hs
      · refine .varDecl ?_ ?_
        · intro v hv
          rcases List.mem_singleton.mp hv with rfl
          exact chained_i64
        · intro v hv e he
          rcases List.mem_singleton.mp hv with rfl
          cases he
      · rcases List.mem_singleton.mp hs with rfl
        exact .expr hx
    · rcases List.mem_singleton.mp hs with rfl
      refine .returnS ?_
      intro e he
      rcases Option.some.inj he with rfl
      exact hx

/-- The global is neither a slot nor a static local. -/
theorem blockEnv_globals (n : String) (v : VarSym) (h : blockEnv.globals.lookup n = some v) :
    ¬ v.IsLocal blockFunc.name n := by
  rcases List.lookup_eq_some_iff.mp h with ⟨l₁, l₂, heq, _⟩
  have hmem : (n, v) ∈ blockEnv.globals := heq ▸ List.mem_append_right _ List.mem_cons_self
  rcases Prod.mk.inj (List.mem_singleton.mp hmem) with ⟨rfl, rfl⟩
  rintro (⟨k, hk⟩ | hk)
  · cases hk
  · exact absurd hk (by decide)

theorem genFuncBody_resolves_block :
    (∀ i j n, Follows blockFunc.steps i j n → Resolves blockEnv blockCtx.scopeLog i j n) ↔
      ∀ i j n, Follows blockFunc.steps i j n → InScope blockFunc.steps i j :=
  genFuncBody_resolves blockEnv_chained blockFunc_chained (by decide) blockEnv_globals
    genFuncBody_blockFunc

/-- The `x` that is returned follows the declaration, and is not the local. -/
theorem blockFunc_not_resolves : genFuncBody blockEnv 5 blockFunc = .ok blockCtx ∧
    blockFunc.NoDups ∧ Follows blockFunc.steps 1 4 "x" ∧
      ¬ Resolves blockEnv blockCtx.scopeLog 1 4 "x" := by
  have hfollows : Follows blockFunc.steps 1 4 "x" :=
    ⟨_, _, _, rfl, rfl, by decide, List.mem_cons_self⟩
  have hlogged := genFuncBody_logged blockEnv_chained blockFunc_chained (by decide)
    genFuncBody_blockFunc
  refine ⟨genFuncBody_blockFunc, by decide, hfollows, ?_⟩
  rw [resolves_iff hlogged blockFunc.ordered_steps (by decide) (blockEnv_globals "x") hfollows]
  decide

end Resolve

end Codegen

end Hlang
