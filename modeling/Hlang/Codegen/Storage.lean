import Hlang.Codegen.Func
import Hlang.Codegen.Hygiene
import Hlang.Codegen.Lowering
import Hlang.Codegen.Signedness

/-!
# Hlang.Codegen.Storage — what the storage of variables changes in the lowering of operators

A parameter or an automatic variable declared `I32` or `U32` is stored with 64 bits of the
same signedness, a global or static one as it is declared. So a tree has two typings, by the
declared types and by those of the storage. `hidden` says where they differ for a variable
declared `U32`: below how many pointers a value is `U64` by the storage only. The operators
of the tree are lowered as the declared types say if and only if no operator is decided there
(`lowered_iff`).
-/

namespace Hlang.Codegen

open Ir Gen Cg

/-- Where a variable is stored. -/
inductive Storage where
  | global
  | staticLocal
  | param
  | auto
deriving DecidableEq

/-- The type a variable declared with type `t` is stored with. -/
def Storage.typeOf : Storage → Ty → Ty
  | .global, t | .staticLocal, t => t
  | .param, t | .auto, t => regSlotType t

/-- The variable is a `U32` stored as a `U64`. -/
def Storage.hides (S : Storage) : Ty → Bool
  | .int 4 true => decide (S = .param ∨ S = .auto)
  | _ => false

/-- The types that variables are stored with. -/
def Decls.stored (D : Decls) (S : String → Storage) : Decls := fun s => (D s).map (S s).typeOf

/-- One pointer less. -/
def unref : Option Nat → Option Nat
  | some (n + 1) => some n
  | _ => none

/-- What `intResult` leaves of it. -/
def hiddenResult (t u : Ty) (o o' : Option Nat) : Option Nat :=
  if t.isPtr then o else if u.isPtr then o'
  else if isU64 t || isU64 u then none
  else if o = some 0 ∨ o' = some 0 then some 0 else none

/-- `some n`: below `n` pointers the type is `U64` for the storage of a variable declared `U32`,
and would not be for its declared type. -/
def Decls.hidden (D : Decls) (S : String → Storage) : Pos → Expr → Option Nat
  | _, .ident _ s => if (D s).any (S s).hides then some 0 else none
  | .rv, .unary _ p _ k =>
      match p with
      | .amp => (D.hidden S .lv k).map (· + 1)
      | .star => unref (D.hidden S .rv k)
      | .minus => if (D.ty .rv k).isInt then D.hidden S .rv k else none
      | .plus => D.hidden S .rv k
      | .plusPlus | .minusMinus => D.hidden S .lv k
      | _ => none
  | .lv, .unary _ p _ k => if p = .star then unref (D.hidden S .rv k) else D.hidden S .lv k
  | .rv, .binary _ op a c =>
      if keepsPtr op then
        hiddenResult (D.ty .rv a) (D.ty .rv c) (D.hidden S .rv a) (D.hidden S .rv c)
      else none
  | .rv, .assign _ op a c =>
      if op = .assign then D.hidden S .rv c
      else hiddenResult (D.ty .lv a) (D.ty .rv c) (D.hidden S .lv a) (D.hidden S .rv c)
  | .lv, .assign _ _ a _ => D.hidden S .lv a
  | _, _ => none

/-- The operator is one that is signed by the declared types of its operands, and it is decided
by a value that the storage makes a `U64`. -/
def Decls.Exposes (D : Decls) (S : String → Storage) (c : Decision) : Prop :=
  (opcode c.1 true).isSome = true ∧
    decided c.1 (D.ty c.2.1.1 c.2.1.2) (D.ty c.2.2.1 c.2.2.2) = false ∧
    (D.hidden S c.2.1.1 c.2.1.2 = some 0 ∨
      c.1 ≠ .shr ∧ D.hidden S c.2.2.1 c.2.2.2 = some 0)

/-! ## The two typings -/

/-- The type by the storage and the type by the declarations, where the first is `U64` below
the pointers of `o` only. -/
inductive Widened : Option Nat → Ty → Ty → Prop where
  | refl (t : Ty) : Widened none t t
  | int {n n' : Nat} {uns uns' : Bool} (h : isU64 (.int n uns) = isU64 (.int n' uns')) :
      Widened none (.int n uns) (.int n' uns')
  | wide {n n' : Nat} {uns uns' : Bool} (h : isU64 (.int n uns) = true)
      (h' : isU64 (.int n' uns') = false) : Widened (some 0) (.int n uns) (.int n' uns')
  | ptr {o : Option Nat} {t t' : Ty} (h : Widened o t t') :
      Widened (o.map (· + 1)) (.ptr t) (.ptr t')

namespace Widened

variable {o o' : Option Nat} {t t' u u' : Ty}

theorem isPtr_eq (h : Widened o t t') : t.isPtr = t'.isPtr := by
  cases h with
  | refl t | int h | wide h h' | ptr h => rfl

theorem isInt_eq (h : Widened o t t') : t.isInt = t'.isInt := by
  cases h with
  | refl t | int h | wide h h' | ptr h => rfl

theorem isWord_eq (h : Widened o t t') : isWord t = isWord t' := by
  unfold isWord
  rw [h.isPtr_eq, h.isInt_eq]

/-- The storage makes a value unsigned exactly where it is hidden. -/
theorem isU64_eq (h : Widened o t t') : isU64 t = (isU64 t' || decide (o = some 0)) := by
  cases h with
  | refl t =>
      rw [decide_eq_false nofun, Bool.or_false]
  | int h =>
      rw [decide_eq_false nofun, Bool.or_false]
      exact h
  | wide h h' =>
      rw [h, h']
      rfl
  | ptr h => rfl

/-- An integer is hidden below no pointer. -/
theorem int_cases (h : Widened o t t') (hint : t'.isInt = true) : o = none ∨ o = some 0 := by
  cases h with
  | refl t => exact .inl rfl
  | int h => exact .inl rfl
  | wide h h' => exact .inr rfl
  | ptr h => cases hint

theorem unref_map (o : Option Nat) : unref (o.map (· + 1)) = o := by
  cases o <;> rfl

/-- What the two load through a pointer. -/
theorem derefTy (h : Widened o t t') (hu : Codegen.derefTy t' = some u') (hword : isWord u' = true) :
    ∃ u, Codegen.derefTy t = some u ∧ Widened (unref o) u u' := by
  cases h with
  | refl t => exact ⟨u', hu, .refl u'⟩
  | int h =>
      cases hu
      exact ⟨_, rfl, .refl _⟩
  | wide h h' =>
      cases hu
      exact ⟨_, rfl, .refl _⟩
  | ptr h =>
      rw [unref_map]
      cases h with
      | refl t => exact ⟨u', hu, .refl u'⟩
      | int h =>
          cases hu
          exact ⟨_, rfl, .int h⟩
      | wide h h' =>
          cases hu
          exact ⟨_, rfl, .wide h h'⟩
      | ptr h =>
          cases hu
          exact ⟨_, rfl, .ptr h⟩

theorem derefLV (h : Widened o t t') (hu : Codegen.derefLV t' = some u') :
    ∃ u, Codegen.derefLV t = some u ∧ Widened (unref o) u u' := by
  cases h with
  | refl t => exact ⟨u', hu, .refl u'⟩
  | int h =>
      cases hu
      exact ⟨_, rfl, .refl _⟩
  | wide h h' =>
      cases hu
      exact ⟨_, rfl, .refl _⟩
  | ptr h =>
      rw [unref_map]
      cases h with
      | refl t => exact ⟨u', hu, .refl u'⟩
      | int h =>
          cases hu
          exact ⟨_, rfl, .int h⟩
      | wide h h' =>
          cases hu
          exact ⟨_, rfl, .wide h h'⟩
      | ptr h =>
          cases hu
          exact ⟨_, rfl, .ptr h⟩

theorem intResult (h : Widened o t t') (h' : Widened o' u u') :
    Widened (hiddenResult t' u' o o') (Codegen.intResult t u) (Codegen.intResult t' u') := by
  unfold hiddenResult Codegen.intResult
  rw [h.isPtr_eq, h'.isPtr_eq, h.isU64_eq, h'.isU64_eq]
  by_cases ht : t'.isPtr = true
  · rw [if_pos ht, if_pos ht, if_pos ht]
    exact h
  · rw [if_neg ht, if_neg ht, if_neg ht]
    by_cases hu : u'.isPtr = true
    · rw [if_pos hu, if_pos hu, if_pos hu]
      exact h'
    · rw [if_neg hu, if_neg hu, if_neg hu]
      by_cases hdecl : (isU64 t' || isU64 u') = true
      · have hstored : (isU64 t' || decide (o = some 0) || (isU64 u' || decide (o' = some 0))) =
            true := by
          simp only [Bool.or_eq_true] at hdecl ⊢
          tauto
        rw [if_pos hdecl, if_pos hdecl, if_pos hstored]
        exact .refl _
      · rw [if_neg hdecl, if_neg hdecl]
        simp only [Bool.not_eq_true, Bool.or_eq_false_iff] at hdecl
        rw [hdecl.1, hdecl.2, Bool.false_or, Bool.false_or]
        by_cases hor : o = some 0 ∨ o' = some 0
        · rw [if_pos hor, if_pos (by simpa using hor)]
          exact .wide rfl rfl
        · rw [if_neg hor, if_neg (by simpa using hor)]
          exact .refl _

end Widened

theorem widened_typeOf (S : Storage) {t : Ty} (ht : t.isInt = true) :
    Widened (if S.hides t then some 0 else none) (S.typeOf t) t := by
  cases t with
  | int n uns =>
      by_cases hn : n = 4
      · subst hn
        cases S with
        | global | staticLocal =>
            cases uns with
            | true => exact .refl _
            | false => exact .refl _
        | param | auto =>
            cases uns with
            | true => exact .wide rfl rfl
            | false => exact .int rfl
      · have hhides : S.hides (.int n uns) = false := by
          unfold Storage.hides
          split
          · next h =>
              cases h
              exact (hn rfl).elim
          · rfl
        have hsame : S.typeOf (.int n uns) = .int n uns := by
          cases S with
          | global | staticLocal => rfl
          | param | auto =>
              change regSlotType (.int n uns) = _
              unfold regSlotType
              split
              · next h =>
                  cases h
                  exact (hn rfl).elim
              · rfl
        rw [hhides, hsame]
        exact .refl _
  | _ => cases ht

/-! ## Declarations -/

section Declarations

variable {Γ : Env} {D : Decls} {S : String → Storage} {ns : List String} {d : Nat}
  {fnName name : String} {t : Ty}

/-- In the scopes of the function the variables are stored with their types; `ns` are the local
names so far. -/
structure FnCtx.Declared (Γ : Env) (D : Decls) (S : String → Storage) (ns : List String)
    (F : FnCtx) : Prop where
  scopes : F.scopes ≠ []
  names : F.localNames = ns
  stored : (Γ.under F.scopes).Declares (D.stored S)

/-- One more variable. -/
def Decls.add (D : Decls) (name : String) (t : Ty) : Decls := Function.update D name (some t)

theorem isWord_typeOf (S : Storage) (ht : isWord t = true) : isWord (S.typeOf t) = true := by
  cases S with
  | global | staticLocal => exact ht
  | param | auto =>
      change isWord (regSlotType t) = true
      unfold regSlotType
      split
      · rfl
      · exact ht

theorem keeps_ir_declared {α : Type} (x : Gen α) :
    Keeps (FnCtx.Declared Γ D S ns) (ir x) fun _ => FnCtx.Declared Γ D S ns := by
  intro F hF a F' hx
  unfold ir at hx
  split at hx
  · cases hx
    exact ⟨hF.scopes, hF.names, hF.stored⟩
  · cases hx

theorem keeps_declareLocal_declared (a : Value) (loc : SrcLoc) (hfresh : name ∉ ns)
    (ht : isWord t = true) : Keeps (FnCtx.Declared Γ D S ns)
      (declareLocal name ⟨a, (S name).typeOf t⟩ loc)
      fun _ => FnCtx.Declared Γ (D.add name t) S (name :: ns) := by
  intro F hF u F' hx
  have hnew : name ∉ F.localNames := by
    rw [hF.names]
    exact hfresh
  unfold declareLocal at hx
  change (if name ∈ F.localNames then _ else _ : Cg Unit) _ = _ at hx
  rw [if_neg hnew] at hx
  cases hx
  rcases List.exists_cons_of_ne_nil hF.scopes with ⟨sc, scs, hsc⟩
  refine ⟨?_, congrArg (name :: ·) hF.names, ?_⟩
  · change F.scopes.modifyHead _ ≠ []
    rw [hsc]
    exact List.cons_ne_nil _ _
  · intro s u hs
    change isWord u = true ∧ ∃ a', (Γ.under (F.scopes.modifyHead _)).lookupVar s = some ⟨a', u⟩
    unfold Decls.stored Decls.add at hs
    rw [hsc]
    by_cases hname : s = name
    · subst hname
      rw [Function.update_self] at hs
      rcases Option.some.inj hs with rfl
      refine ⟨isWord_typeOf _ ht, a, ?_⟩
      simp [Env.lookupVar]
    · rw [Function.update_of_ne hname] at hs
      rcases hF.stored s u hs with ⟨hword, a', ha'⟩
      refine ⟨hword, a', ?_⟩
      rw [hsc] at ha'
      have hbeq : (s == name) = false := beq_eq_false_iff_ne.mpr hname
      unfold Env.lookupVar at ha' ⊢
      simpa [List.findSome?_cons, List.lookup_cons, hbeq] using ha'

theorem keeps_genLocal_declared {v : VarDeclarator} (hauto : S v.name = .auto)
    (hfresh : v.name ∉ ns) (ht : isWord v.type = true) :
    Keeps (FnCtx.Declared Γ D S ns) (genLocal Γ d v)
      fun _ => FnCtx.Declared Γ (D.add v.name v.type) S (v.name :: ns) := by
  unfold genLocal
  refine .bind (keeps_ir_declared _) fun a => ?_
  have hdeclare := keeps_declareLocal_declared (Γ := Γ) (D := D) (S := S) a v.loc hfresh ht
  rw [hauto] at hdeclare
  refine .bind hdeclare fun _ => ?_
  unfold genInitIn
  cases v.init with
  | none => exact .pure fun _ h => h
  | some e =>
      refine .bind keeps_get fun F => .bind ?_ fun _ => keeps_ir_declared _
      intro F₁ hF₁ u F₂ hx
      cases hx
      exact ⟨hF₁.scopes, hF₁.names, hF₁.stored⟩

theorem keeps_genStaticLocal_declared {v : VarDeclarator} (hstatic : S v.name = .staticLocal)
    (hfresh : v.name ∉ ns) (ht : isWord v.type = true) :
    Keeps (FnCtx.Declared Γ D S ns) (genStaticLocal Γ fnName v)
      fun _ => FnCtx.Declared Γ (D.add v.name v.type) S (v.name :: ns) := by
  unfold genStaticLocal
  refine .bind keeps_get fun F => ?_
  extract_lets Γ' name rest
  have hrest : ∀ c, Keeps (FnCtx.Declared Γ D S ns) (rest c)
      fun _ => FnCtx.Declared Γ (D.add v.name v.type) S (v.name :: ns) := by
    intro c
    refine .bind (Q := fun _ => FnCtx.Declared Γ D S ns) ?_ fun _ => ?_
    · intro F₁ hF₁ u F₂ hx
      cases hx
      exact ⟨hF₁.scopes, hF₁.names, hF₁.stored⟩
    · have hdeclare := keeps_declareLocal_declared (Γ := Γ) (D := D) (S := S) (.glob name) v.loc
        hfresh ht
      rw [hstatic] at hdeclare
      exact hdeclare
  have hpure : ∀ c, Keeps (FnCtx.Declared Γ D S ns) (pure c >>= rest)
      fun _ => FnCtx.Declared Γ (D.add v.name v.type) S (v.name :: ns) :=
    fun c => .bind (Q := fun _ => FnCtx.Declared Γ D S ns) (.pure fun _ h => h) hrest
  split
  · exact hpure _
  · split
    · exact hpure _
    · exact .bind (Q := fun _ => FnCtx.Declared Γ D S ns) (.stop _) hrest
    · exact .bind (keeps_ir_declared _) fun _ => hpure _

/-- The declarations of a statement. -/
theorem keeps_genVarDecl_declared (isStatic : Bool) (vs : List VarDeclarator)
    (hstorage : ∀ v ∈ vs, S v.name = if isStatic then .staticLocal else .auto)
    (ht : ∀ v ∈ vs, isWord v.type = true) : ∀ (D : Decls) (ns : List String),
    (vs.map (·.name)).Nodup → (∀ v ∈ vs, v.name ∉ ns) →
    Keeps (FnCtx.Declared Γ D S ns) (genVarDecl Γ d fnName isStatic vs) fun _ =>
      FnCtx.Declared Γ (vs.foldl (fun D v => D.add v.name v.type) D) S
        ((vs.map (·.name)).reverse ++ ns) := by
  induction vs with
  | nil =>
      intro D ns hnodup hfresh
      exact .pure fun _ h => h
  | cons v vs ih =>
      intro D ns hnodup hfresh
      have hv := hstorage v List.mem_cons_self
      have hword := ht v List.mem_cons_self
      rw [List.map_cons, List.nodup_cons] at hnodup
      have hrest := ih (fun w hw => hstorage w (List.mem_cons_of_mem _ hw))
        (fun w hw => ht w (List.mem_cons_of_mem _ hw)) (D.add v.name v.type) (v.name :: ns)
        hnodup.2 fun w hw hmem => by
          rcases List.mem_cons.mp hmem with heq | hmem
          · exact hnodup.1 (List.mem_map.mpr ⟨w, hw, heq⟩)
          · exact hfresh w (List.mem_cons_of_mem _ hw) hmem
      have hlist : ((v :: vs).map (·.name)).reverse ++ ns =
          (vs.map (·.name)).reverse ++ v.name :: ns := by simp
      rw [hlist]
      unfold genVarDecl
      cases isStatic with
      | true =>
          exact .bind (keeps_genStaticLocal_declared hv (hfresh v List.mem_cons_self) hword)
            fun _ => hrest
      | false =>
          exact .bind (keeps_genLocal_declared hv (hfresh v List.mem_cons_self) hword)
            fun _ => hrest

/-- The parameters of a function. -/
theorem keeps_genFnParams_declared (ps : List FuncParam) (hstorage : ∀ p ∈ ps, S p.name = .param)
    (ht : ∀ p ∈ ps, isWord p.type = true) (hnamed : ∀ p ∈ ps, p.name ≠ "") :
    ∀ (i : Nat) (locs : List SrcLoc) (D : Decls) (ns : List String),
    (ps.map (·.name)).Nodup → (∀ p ∈ ps, p.name ∉ ns) →
    Keeps (FnCtx.Declared Γ D S ns) (genFnParams Γ i ps locs) fun _ =>
      FnCtx.Declared Γ (ps.foldl (fun D p => D.add p.name p.type) D) S
        ((ps.map (·.name)).reverse ++ ns) := by
  induction ps with
  | nil =>
      intro i locs D ns hnodup hfresh
      exact .pure fun _ h => h
  | cons p ps ih =>
      intro i locs D ns hnodup hfresh
      have hp := hstorage p List.mem_cons_self
      have hword := ht p List.mem_cons_self
      rw [List.map_cons, List.nodup_cons] at hnodup
      have hrest := ih (fun q hq => hstorage q (List.mem_cons_of_mem _ hq))
        (fun q hq => ht q (List.mem_cons_of_mem _ hq))
        (fun q hq => hnamed q (List.mem_cons_of_mem _ hq)) (i + 1) locs.tail
        (D.add p.name p.type) (p.name :: ns) hnodup.2 fun q hq hmem => by
          rcases List.mem_cons.mp hmem with heq | hmem
          · exact hnodup.1 (List.mem_map.mpr ⟨q, hq, heq⟩)
          · exact hfresh q (List.mem_cons_of_mem _ hq) hmem
      have hlist : ((p :: ps).map (·.name)).reverse ++ ns =
          (ps.map (·.name)).reverse ++ p.name :: ns := by simp
      rw [hlist]
      unfold genFnParams
      refine .bind (keeps_ir_declared _) fun a => .bind (keeps_ir_declared _) fun _ => ?_
      have hdeclare := keeps_declareLocal_declared (Γ := Γ) (D := D) (S := S) a (locs.headD {})
        (hfresh p List.mem_cons_self) hword
      rw [hp] at hdeclare
      unfold declareParam
      rw [if_neg (hnamed p List.mem_cons_self)]
      exact .bind hdeclare fun _ => hrest

end Declarations

section Trees

variable {D : Decls} {S : String → Storage} {p : Pos} {e : Expr}

theorem hidden_step {p : P} {k : Expr} (pos : Pos) (n : Node) (pre : Bool)
    (hp : p ∈ [.plusPlus, .minusMinus]) :
    D.hidden S pos (.unary n p pre k) = D.hidden S .lv k := by
  have hcases : p = .plusPlus ∨ p = .minusMinus := by simpa using hp
  rcases hcases with rfl | rfl
  · cases pos with
    | rv => conv_lhs => rw [Decls.hidden]
    | lv => conv_lhs => rw [Decls.hidden, if_neg nofun]
  · cases pos with
    | rv => conv_lhs => rw [Decls.hidden]
    | lv => conv_lhs => rw [Decls.hidden, if_neg nofun]

/-- **The two typings.** A tree is one for the types of the storage too, and the two types of it
differ where `hidden` says. -/
theorem widened_tree (hD : ∀ s t, D s = some t → t.isInt = true) (h : WordTree D p e) :
    WordTree (D.stored S) p e ∧
      Widened (D.hidden S p e) ((D.stored S).ty p e) (D.ty p e) := by
  have hvar : ∀ {s t}, D s = some t → D.stored S s = some ((S s).typeOf t) := by
    intro s t hs
    unfold Decls.stored
    rw [hs]
    rfl
  induction h with
  | int n x => exact ⟨.int n x, .refl _⟩
  | char n x => exact ⟨.char n x, .refl _⟩
  | sizeofType n t => exact ⟨.sizeofType n t, .refl _⟩
  | sizeofVar n m h => exact ⟨.sizeofVar n m (hvar h), .refl _⟩
  | @var s t p n h =>
      refine ⟨.var p n (hvar h), ?_⟩
      rw [Decls.ty, Decls.ty, Decls.hidden, hvar h, h]
      exact widened_typeOf (S s) (hD s t h)
  | addr n pre h ih =>
      refine ⟨.addr n pre ih.1, ?_⟩
      rw [Decls.ty, Decls.ty, Decls.hidden]
      exact .ptr ih.2
  | load n pre h ht hword ih =>
      rcases ih.2.derefTy ht hword with ⟨u, hu, hwide⟩
      refine ⟨.load n pre ih.1 hu (hwide.isWord_eq.trans hword), ?_⟩
      rw [Decls.ty, Decls.ty, Decls.hidden]
      rw [ht, hu]
      exact hwide
  | deref n h ht hword ih =>
      rcases ih.2.derefLV ht with ⟨u, hu, hwide⟩
      refine ⟨.deref n ih.1 hu (hwide.isWord_eq.trans hword), ?_⟩
      rw [Decls.ty, Decls.ty, Decls.hidden, if_pos rfl, if_pos rfl, if_pos rfl,
        pointee_of_derefLV ht, pointee_of_derefLV hu]
      exact hwide
  | unary n pre hp h ih =>
      refine ⟨.unary n pre hp ih.1, ?_⟩
      simp only [List.mem_cons, List.not_mem_nil, or_false] at hp
      rcases hp with rfl | rfl | rfl | rfl
      · exact .refl _
      · exact .refl _
      · rw [Decls.ty, Decls.ty, Decls.hidden, ih.2.isInt_eq]
        split_ifs
        · exact ih.2
        · exact .refl _
      · rw [Decls.ty, Decls.ty, Decls.hidden]
        exact ih.2
  | step pos n pre hp h ih =>
      refine ⟨.step pos n pre hp ih.1, ?_⟩
      rw [ty_step pos n pre hp, ty_step pos n pre hp, hidden_step pos n pre hp]
      exact ih.2
  | binary n hop ha hc iha ihc =>
      refine ⟨.binary n hop iha.1 ihc.1, ?_⟩
      rw [Decls.ty, Decls.ty, Decls.hidden]
      split_ifs
      · exact iha.2.intResult ihc.2
      · exact .refl _
  | chain n h hops hrest ih ihrest =>
      exact ⟨.chain n ih.1 hops fun r hr => (ihrest r hr).1, .refl _⟩
  | assign pos n hop ha hc iha ihc =>
      refine ⟨.assign pos n hop iha.1 ihc.1, ?_⟩
      cases pos with
      | rv =>
          rw [Decls.ty, Decls.ty, Decls.hidden]
          split_ifs
          · exact ihc.2
          · exact iha.2.intResult ihc.2
      | lv =>
          rw [Decls.ty, Decls.ty, Decls.hidden]
          exact iha.2
  | view pos n m h hint hs hi ih ihi =>
      refine ⟨.view pos n m ih.1 (ih.2.isInt_eq.trans hint) hs ihi.1, ?_⟩
      cases pos with
      | rv => exact .refl _
      | lv => exact .refl _
  | first pos n h hint hs ih =>
      refine ⟨.first pos n ih.1 (ih.2.isInt_eq.trans hint) hs, ?_⟩
      cases pos with
      | rv => exact .refl _
      | lv => exact .refl _
  | cast pos n h hword ih =>
      refine ⟨.cast pos n ih.1 hword, ?_⟩
      cases pos with
      | rv => exact .refl _
      | lv => exact .refl _

/-- The operands of the operators of a tree are trees. -/
theorem WordTree.operands (h : WordTree D p e) : ∀ c ∈ decisions p e,
    WordTree D c.2.1.1 c.2.1.2 ∧ WordTree D c.2.2.1 c.2.2.2 := by
  induction h with
  | int n x | char n x | sizeofType n t | sizeofVar n m h =>
      intro c hc
      cases hc
  | var p n h =>
      intro c hc
      cases p with
      | rv => cases hc
      | lv => cases hc
  | addr n pre h ih => exact ih
  | load n pre h ht hword ih => exact ih
  | deref n h ht hword ih => exact ih
  | unary n pre hp h ih =>
      rw [decisions_unary n pre hp]
      exact ih
  | @step op k pos n pre hp h ih =>
      intro c hc
      have hdec := decisions_step (k := k) n pre hp
      cases pos with
      | rv =>
          rw [hdec.1] at hc
          exact ih c hc
      | lv =>
          rw [hdec.2] at hc
          rcases List.mem_append.mp hc with hc | hc
          · exact ih c hc
          · exact ih c hc
  | binary n hop ha hc iha ihc =>
      intro c hmem
      rw [decisions, List.mem_append, List.mem_append, List.mem_singleton] at hmem
      rcases hmem with (hmem | hmem) | rfl
      · exact iha c hmem
      · exact ihc c hmem
      · exact ⟨ha, hc⟩
  | @chain first rest n h hops hrest ih ihrest =>
      intro c hmem
      rw [decisions, List.mem_append] at hmem
      rcases hmem with hmem | hmem
      · exact ih c hmem
      · clear ih hops
        induction rest generalizing first with
        | nil =>
            rw [chainDecisions_nil] at hmem
            cases hmem
        | cons r rest ihr =>
            rcases r with ⟨op, e⟩
            have he : WordTree D .rv e := hrest (op, e) List.mem_cons_self
            rw [chainDecisions_cons, List.mem_append, List.mem_cons] at hmem
            rcases hmem with hmem | rfl | hmem
            · exact ihrest (op, e) List.mem_cons_self c hmem
            · exact ⟨h, he⟩
            · exact ihr he (fun r hr => hrest r (List.mem_cons_of_mem _ hr))
                (fun r hr => ihrest r (List.mem_cons_of_mem _ hr)) hmem
  | assign pos n hop ha hc iha ihc =>
      intro c hmem
      rw [decisions, List.mem_append, List.mem_append, List.mem_append] at hmem
      rcases hmem with ((hmem | hmem) | hmem) | hmem
      · exact iha c hmem
      · exact ihc c hmem
      · split_ifs at hmem
        · cases hmem
        · rw [List.mem_singleton] at hmem
          rw [hmem]
          exact ⟨ha, hc⟩
      · split_ifs at hmem
        · exact iha c hmem
        · cases hmem
  | @view q i s pos n m h hint hs hi ih ihi =>
      intro c hmem
      have hmem : c ∈ decisions .lv q ++ decisions .rv i := by
        cases pos with
        | rv => exact hmem
        | lv => exact hmem
      rcases List.mem_append.mp hmem with hmem | hmem
      · exact ih c hmem
      · exact ihi c hmem
  | first pos n h hint hs ih =>
      cases pos with
      | rv => exact ih
      | lv => exact ih
  | cast pos n h hword ih =>
      cases pos with
      | rv => exact ih
      | lv => exact ih

/-- An operator has the form that the declared types decide unless it is exposed. -/
theorem form_stored_iff (hD : ∀ s t, D s = some t → t.isInt = true) {c : Decision}
    (hl : WordTree D c.2.1.1 c.2.1.2) (hr : WordTree D c.2.2.1 c.2.2.2) :
    (D.stored S).form c = D.form c ↔ ¬ D.Exposes S c := by
  have hu := (widened_tree (S := S) hD hl).2.isU64_eq
  have hv := (widened_tree (S := S) hD hr).2.isU64_eq
  unfold Decls.form Decls.Exposes
  by_cases hop : (opcode c.1 true).isSome = true
  · -- the two forms differ, so the signs have to agree
    have hinj : ∀ b b', opcode c.1 b = opcode c.1 b' ↔ b = b' := by
      intro b b'
      refine ⟨opcode_inj ((isSome_opcode c.1 b true).trans hop), ?_⟩
      rintro rfl
      rfl
    rw [hinj]
    unfold decided
    by_cases hshr : c.1 = .shr
    · rw [if_pos hshr, if_pos hshr, hu]
      cases hdecl : isU64 (D.ty c.2.1.1 c.2.1.2) with
      | true => simp [hshr]
      | false => simp [hshr, opcode]
    · rw [if_neg hshr, if_neg hshr, hu, hv]
      cases hdecl : isU64 (D.ty c.2.1.1 c.2.1.2) with
      | true => simp
      | false =>
          cases hdecl' : isU64 (D.ty c.2.2.1 c.2.2.2) with
          | true => simp
          | false => simp [hop, hshr]
  · have hnone : ∀ b, opcode c.1 b = none := by
      intro b
      rw [← Option.not_isSome_iff_eq_none, isSome_opcode c.1 b true]
      exact hop
    rw [hnone, hnone]
    exact iff_of_true rfl fun h => hop h.1

theorem filterMap_inj {β : Type} {f g : β → Option Opcode} (l : List β)
    (hsome : ∀ x ∈ l, (f x).isSome = (g x).isSome) :
    l.filterMap f = l.filterMap g ↔ ∀ x ∈ l, f x = g x := by
  induction l with
  | nil => exact iff_of_true rfl nofun
  | cons x l ih =>
      have ih := ih fun y hy => hsome y (List.mem_cons_of_mem _ hy)
      have hx := hsome x List.mem_cons_self
      rw [List.forall_mem_cons, ← ih, List.filterMap_cons, List.filterMap_cons]
      cases hf : f x with
      | none =>
          cases hg : g x with
          | none => simp
          | some o =>
              rw [hf, hg] at hx
              cases hx
      | some o =>
          cases hg : g x with
          | none =>
              rw [hf, hg] at hx
              cases hx
          | some o' => simp

/-- **Signedness and storage.** The code of a tree has, from some depth on, the operations that
the declared types of the operands decide if and only if no operator of the tree is exposed. -/
theorem lowered_iff {Γ : Env} (hD : ∀ s t, D s = some t → t.isInt = true)
    (hΓ : Γ.Declares (D.stored S)) (hfuel : 0 < Γ.classFuel) (h : WordTree D .rv e) :
    (∃ d₀, ∀ d, d₀ ≤ d → ∀ cs B, ∃ rv B', (gen Γ d).genExpr cs e B = .ok (rv, B') ∧
      B'.opcodes = B.opcodes ++ D.forms .rv e) ↔
    ∀ c ∈ decisions .rv e, ¬ D.Exposes S c := by
  rcases signs_gen hΓ hfuel (widened_tree hD h).1 with ⟨d₀, hgen⟩
  have hforms : (D.stored S).forms .rv e = D.forms .rv e ↔
      ∀ c ∈ decisions .rv e, ¬ D.Exposes S c := by
    have hinj : (D.stored S).forms .rv e = D.forms .rv e ↔
        ∀ c ∈ decisions .rv e, (D.stored S).form c = D.form c :=
      filterMap_inj _ fun c _ => isSome_opcode c.1 _ _
    rw [hinj]
    exact forall₂_congr fun c hc => form_stored_iff hD (h.operands c hc).1 (h.operands c hc).2
  rw [← hforms]
  constructor
  · rintro ⟨d₁, hlow⟩
    -- both lists are what one run appends
    rcases hlow (max d₀ d₁) (Nat.le_max_right _ _) [] {} with ⟨rv, B', hB, hl⟩
    rcases hgen (max d₀ d₁) (Nat.le_max_left _ _) [] {} with ⟨rv', B'', hB', hl', _⟩
    rw [hB] at hB'
    cases hB'
    exact List.append_cancel_left (hl'.symm.trans hl)
  · intro heq
    refine ⟨d₀, ?_⟩
    intro d hd cs B
    rcases hgen d hd cs B with ⟨rv, B', hB, hl, _⟩
    rw [heq] at hl
    exact ⟨rv, B', hB, hl⟩

end Trees

/-- `a` declared `U32`, `b` declared `I64`. -/
def halfDecls : Decls := fun s =>
  if s = "a" then some (.int 4 true) else if s = "b" then some .i64 else none

/-- The variables in slots of the function, stored with these types. -/
def slotsEnv (t u : Ty) : Env :=
  { scopes := [[("a", ⟨.slot 0, t⟩), ("b", ⟨.slot 1, u⟩)]], classFuel := 1 }

theorem slotsEnv_declares (S : String → Storage) :
    (slotsEnv ((S "a").typeOf (.int 4 true)) ((S "b").typeOf .i64)).Declares
      (halfDecls.stored S) := by
  intro s t hs
  rcases Option.map_eq_some_iff.mp hs with ⟨u, hu, rfl⟩
  unfold halfDecls at hu
  split_ifs at hu with ha hb
  · rcases Option.some.inj hu with rfl
    subst ha
    refine ⟨?_, _, rfl⟩
    cases S "a" <;> rfl
  · rcases Option.some.inj hu with rfl
    subst hb
    refine ⟨?_, _, rfl⟩
    cases S "b" <;> rfl

/-- `a / b` for an automatic `U32 a`: a division of unsigned numbers, and a signed one for a
global `a`. -/
theorem auto_u32_unsigned :
    ((gen (slotsEnv (Storage.auto.typeOf (.int 4 true)) .i64) 2).genExpr []
      (.binary {} .slash (.ident {} "a") (.ident {} "b")) {}).map (fun r => r.2.opcodes) =
        .ok [.bin .udiv] ∧
    ((gen (slotsEnv (Storage.global.typeOf (.int 4 true)) .i64) 2).genExpr []
      (.binary {} .slash (.ident {} "a") (.ident {} "b")) {}).map (fun r => r.2.opcodes) =
        .ok [.bin .sdiv] ∧
    halfDecls.forms .rv (.binary {} .slash (.ident {} "a") (.ident {} "b")) = [.bin .sdiv] := by
  refine ⟨rfl, rfl, rfl⟩

/-- `(a >> 1) + (b % a)` for a static `a` and an automatic `b`. -/
theorem lowered_static_u32 : ∃ d₀, ∀ d, d₀ ≤ d → ∀ cs B, ∃ rv B',
    (gen (slotsEnv (.int 4 true) .i64) d).genExpr cs (.binary {} .plus
      (.binary {} .shr (.ident {} "a") (.intLit {} 1))
      (.binary {} .percent (.ident {} "b") (.ident {} "a"))) B = .ok (rv, B') ∧
      B'.opcodes = B.opcodes ++ [.bin .ashr, .bin .srem] := by
  have hD : ∀ s t, halfDecls s = some t → t.isInt = true := by
    intro s t hs
    unfold halfDecls at hs
    split_ifs at hs
    · rcases Option.some.inj hs with rfl
      rfl
    · rcases Option.some.inj hs with rfl
      rfl
  have ha : WordTree halfDecls .rv (.ident {} "a") := .var _ _ rfl
  have hb : WordTree halfDecls .rv (.ident {} "b") := .var _ _ rfl
  have hplus : P.plus ∈ binaryOps := by decide
  have hshr : P.shr ∈ binaryOps := by decide
  have hrem : P.percent ∈ binaryOps := by decide
  have htree : WordTree halfDecls .rv (.binary {} .plus
      (.binary {} .shr (.ident {} "a") (.intLit {} 1))
      (.binary {} .percent (.ident {} "b") (.ident {} "a"))) :=
    .binary {} hplus (.binary {} hshr ha (.int {} 1)) (.binary {} hrem hb ha)
  refine (lowered_iff hD (slotsEnv_declares fun s => if s = "a" then .staticLocal else .auto)
    (by decide) htree).mpr ?_
  intro c hc
  have hc : c ∈ [(P.shr, (Pos.rv, Expr.ident {} "a"), (Pos.rv, Expr.intLit {} 1)),
      (P.percent, (Pos.rv, Expr.ident {} "b"), (Pos.rv, Expr.ident {} "a")),
      (P.plus, (Pos.rv, Expr.binary {} .shr (.ident {} "a") (.intLit {} 1)),
        (Pos.rv, Expr.binary {} .percent (.ident {} "b") (.ident {} "a")))] := hc
  simp only [List.mem_cons, List.not_mem_nil, or_false] at hc
  rintro ⟨hop, _, hhidden⟩
  rcases hc with rfl | rfl | rfl
  · rcases hhidden with h | h
    · cases h
    · exact h.1 rfl
  · rcases hhidden with h | h
    · cases h
    · cases h.2
  · cases hop

end Hlang.Codegen
