import Hlang.Ir.Events
import Hlang.Codegen.Func

/-!
# Hlang.Codegen.Control — structured control

`exec` gives statements their meaning by the recursion over the tree; an expression does
what `E` says. The code `genStmt` emits for a statement goes from its beginning to where
`exec` ends, and runs on where `exec` runs out of fuel (`lowers_genStmt`). So both show the
same calls and end alike (`genStmt_behaves`).
-/

namespace Hlang.Codegen

open Ir Gen Cg Machine

/-! ## The meaning of statements -/

/-- How a statement ends; `timeout` when its fuel is spent. -/
inductive Res where
  | normal (st : St)
  | brk (st : St)
  | ret (st : St)
  | timeout (st : St)

/-- What is seen at the end. -/
def Res.st : Res → St
  | .normal st | .brk st | .ret st | .timeout st => st

/-- One statement after another. -/
def Res.andThen (r : Res) (f : St → Res) : Res :=
  match r with
  | .normal st => f st
  | r => r

/-- A `break` ends the loop. -/
def Res.unbreak : Res → Res
  | .brk st => .normal st
  | r => r

/-- What an expression does: its value, and what is seen afterwards. -/
abbrev Sem := Expr → St → Val × St

/-- A loop that tests, runs its body and goes on: `n` times at most. -/
def loop (test : St → Bool × St) (body : St → Res) (post : St → St) : Nat → St → Res
  | 0, st => .timeout st
  | n + 1, st =>
      if (test st).1 then
        ((body (test st).2).andThen fun st => loop test body post n (post st)).unbreak
      else .normal (test st).2

section Exec

variable (E : Sem)

/-- An expression tested for its truth. -/
def test (e : Expr) (st : St) : Bool × St := ((E e st).1.truth, (E e st).2)

/-- The condition of a `for`, which holds when it is missing. -/
def testFor : Option Expr → St → Bool × St
  | some e, st => test E e st
  | none, st => (true, st)

/-- Expressions for their effects. -/
def effects : List Expr → St → St
  | [], st => st
  | e :: es, st => effects es (E e st).2

variable (n : Nat)

mutual

/-- The meaning of a statement, with `n` rounds for each of its loops. -/
def exec : Stmt → St → Res
  | .block _ body, st => execs body st
  | .expr _ e, st => .normal (E e st).2
  | .ifS _ e body body2, st =>
      if (test E e st).1 then exec body (test E e st).2 else execElse body2 (test E e st).2
  | .whileS _ e body, st => loop (test E e) (exec body) id n st
  | .doWhile _ e body, st =>
      ((exec body st).andThen fun st => loop (test E e) (exec body) id n st).unbreak
  | .forS _ init e post body, st =>
      loop (testFor E e) (exec body) (effects E post) n (effects E init st)
  | .breakS _, st => .brk st
  | .returnS _ e, st => .ret (effects E e.toList st)
  | _, st => .normal st

/-- The meaning of an else branch. -/
def execElse : Option Stmt → St → Res
  | none, st => .normal st
  | some s, st => exec s st

/-- The meaning of statements one after the other. -/
def execs : List Stmt → St → Res
  | [], st => .normal st
  | s :: ss, st => (exec s st).andThen fun st => execs ss st

end

end Exec

/-! ## Code that means the same -/

/-- There is a `ret` at the point. -/
def IsRet (l : Log) (p : Point) : Prop := ∃ v, (l.code p.1)[p.2]? = some (.ret v)

section Met

variable (O : Oracle) (T : Switches) (l : Log)

/-- The run of the code from `p` with `st` seen meets a result: it goes to `q`, to the target
of breaks or to a `ret`, or it takes `n` steps at least. -/
def Res.Met (n : Nat) (brk : Option Blk) (p q : Point) (st : St) : Res → Prop
  | .normal st' => Goes O T l 0 p st q st'
  | .brk st' => ∃ b, brk = some b ∧ Goes O T l 0 p st (b, 0) st'
  | .ret st' => ∃ r, IsRet l r ∧ Goes O T l 0 p st r st'
  | .timeout st' => ∃ r, Goes O T l n p st r st'

/-- The code from `p` to `q` means `sem`. -/
def Means (n : Nat) (sem : St → Res) (brk : Option Blk) (p q : Point) : Prop :=
  ∀ st, (sem st).Met O T l n brk p q st

end Met

section Means

variable {O : Oracle} {T : Switches} {l l' : Log} {m n : Nat} {brk : Option Blk} {p q r : Point}
  {st st' : St} {sem sem' : St → Res} {res : Res}

theorem code_extend {i : Instr} (h : (l.code p.1)[p.2]? = some i) (hl : l <+: l') :
    (l'.code p.1)[p.2]? = some i := by
  rcases hl with ⟨t, rfl⟩
  rw [Log.code_append, List.getElem?_append_left (List.getElem?_eq_some_iff.mp h).1]
  exact h

theorem IsRet.extend (h : IsRet l p) (hl : l <+: l') : IsRet l' p := by
  rcases h with ⟨v, hv⟩
  exact ⟨v, code_extend hv hl⟩

theorem Res.Met.weaken (h : res.Met O T l m brk p q st) (hn : n ≤ m) :
    res.Met O T l n brk p q st := by
  cases res with
  | timeout st' =>
      rcases h with ⟨r, hr⟩
      exact ⟨r, hr.weaken hn⟩
  | _ => exact h

/-- Steps before the beginning. -/
theorem Res.Met.after (hg : Goes O T l m p st q st') (h : res.Met O T l n brk q r st') :
    res.Met O T l (m + n) brk p r st := by
  have h0 : ∀ {r st''}, Goes O T l 0 q st' r st'' → Goes O T l 0 p st r st'' := fun h =>
    (hg.trans h).weaken (Nat.zero_le _)
  cases res with
  | normal _ => exact h0 h
  | brk _ =>
      rcases h with ⟨b, hb, h⟩
      exact ⟨b, hb, h0 h⟩
  | ret _ =>
      rcases h with ⟨r, hr, h⟩
      exact ⟨r, hr, h0 h⟩
  | timeout _ =>
      rcases h with ⟨r, h⟩
      exact ⟨r, hg.trans h⟩

theorem Res.Met.extend (h : res.Met O T l n brk p q st) (hl : l <+: l') :
    res.Met O T l' n brk p q st := by
  cases res with
  | normal _ => exact Goes.extend h hl
  | brk _ =>
      rcases h with ⟨b, hb, h⟩
      exact ⟨b, hb, h.extend hl⟩
  | ret _ =>
      rcases h with ⟨r, hr, h⟩
      exact ⟨r, hr.extend hl, h.extend hl⟩
  | timeout _ =>
      rcases h with ⟨r, h⟩
      exact ⟨r, h.extend hl⟩

/-- Steps after a normal end. -/
theorem Res.Met.andThen {f : St → Res} (h : res.Met O T l n brk p q st)
    (hf : ∀ st', (f st').Met O T l n brk q r st') : (res.andThen f).Met O T l n brk p r st := by
  cases res with
  | normal st' => exact ((hf st').after h).weaken (Nat.le_add_left _ _)
  | _ => exact h

/-- A `break` goes where the loop ends. -/
theorem Res.Met.unbreak {b : Blk} (h : res.Met O T l n (some b) p (b, 0) st) (brk : Option Blk) :
    res.unbreak.Met O T l n brk p (b, 0) st := by
  cases res with
  | brk st' =>
      rcases h with ⟨b', hb, h⟩
      rcases Option.some.inj hb with rfl
      exact h
  | _ => exact h

theorem Means.extend (h : Means O T l n sem brk p q) (hl : l <+: l') : Means O T l' n sem brk p q :=
  fun st => (h st).extend hl

theorem Means.seq (h : Means O T l n sem brk p q) (h' : Means O T l n sem' brk q r) :
    Means O T l n (fun st => (sem st).andThen sem') brk p r := fun st => (h st).andThen h'

theorem Means.effect {f : St → St} (h : ∀ st, Goes O T l 0 p st q (f st)) :
    Means O T l n (fun st => .normal (f st)) brk p q := h

/-- Effects first. -/
theorem Means.effect_seq {f : St → St} (h : ∀ st, Goes O T l 0 p st q (f st))
    (h' : Means O T l n sem brk q r) : Means O T l n (fun st => sem (f st)) brk p r :=
  fun st => ((h' (f st)).after (h st)).weaken (Nat.le_add_left _ _)

/-- The code at `p` tests and goes to `t` or to `f`. -/
def Tests (O : Oracle) (T : Switches) (l : Log) (test : St → Bool × St) (p : Point) (t f : Blk) :
    Prop :=
  ∀ st, Goes O T l 1 p st (if (test st).1 then t else f, 0) (test st).2

theorem Tests.extend {test : St → Bool × St} {t f : Blk} (h : Tests O T l test p t f)
    (hl : l <+: l') : Tests O T l' test p t f := fun st => (h st).extend hl

theorem Means.ite {test : St → Bool × St} {t f : Blk} (h : Tests O T l test p t f)
    (ht : Means O T l n sem brk (t, 0) q) (hf : Means O T l n sem' brk (f, 0) q) :
    Means O T l n (fun st => if (test st).1 then sem (test st).2 else sem' (test st).2) brk p q := by
  intro st
  have hround := h st
  change (if (test st).1 then sem (test st).2 else sem' (test st).2).Met O T l n brk p q st
  split_ifs with hb
  · rw [if_pos hb] at hround
    exact ((ht _).after hround).weaken (Nat.le_add_left _ _)
  · rw [if_neg hb] at hround
    exact ((hf _).after hround).weaken (Nat.le_add_left _ _)

theorem Means.unbreak {b : Blk} (h : Means O T l n sem (some b) p (b, 0)) (brk : Option Blk) :
    Means O T l n (fun st => (sem st).unbreak) brk p (b, 0) := fun st => (h st).unbreak brk

/-- Steps behind a normal end. -/
theorem Means.goes (h : Means O T l n sem brk p q) (hg : ∀ st, Goes O T l m q st r st) :
    Means O T l n sem brk p r := by
  intro st
  have hres := h st
  cases hr : sem st with
  | normal st' =>
      rw [hr] at hres
      exact (Goes.trans hres (hg st')).weaken (Nat.zero_le _)
  | _ =>
      rw [hr] at hres
      exact hres

/-- A loop: from `p` the code tests, runs the body in front of `q` and comes back. Each
round takes a step. -/
theorem means_loop {test : St → Bool × St} {body : St → Res} {post : St → St} {t f : Blk}
    (htest : Tests O T l test p t f) (hbody : Means O T l n body (some f) (t, 0) q)
    (hback : ∀ st, Goes O T l 0 q st p (post st)) :
    ∀ m ≤ n, ∀ brk, Means O T l m (loop test body post m) brk p (f, 0) := by
  intro m
  induction m with
  | zero => exact fun _ _ st => ⟨p, .refl p st⟩
  | succ m ih =>
      intro hm brk st
      have hround := htest st
      unfold loop
      split_ifs with h
      · rw [if_pos h] at hround
        have hm' := Nat.le_of_succ_le hm
        have hnext : ∀ st', (loop test body post m (post st')).Met O T l m (some f) q (f, 0) st' := by
          intro st'
          exact ((ih hm' _ (post st')).after (hback st')).weaken (Nat.le_add_left _ _)
        have hround' := ((((hbody (test st).2).weaken hm').andThen hnext).unbreak brk).after hround
        rwa [Nat.add_comm] at hround'
      · rw [if_neg h] at hround
        exact hround.weaken (Nat.zero_le _)

end Means

/-! ## Expressions -/

/-- The code of `e`, wherever it is generated, does what `E` says. -/
def Acts (O : Oracle) (Γ : Env) (d : Nat) (E : Sem) (e : Expr) : Prop :=
  ∀ T B rv B', B.Wf → (gen Γ d).genExpr [] e B = .ok (rv, B') →
    ∀ st, Goes O T B'.log 0 B.point st B'.point (E e st).2

/-- It also computes the value. -/
def Yields (O : Oracle) (Γ : Env) (d : Nat) (E : Sem) (e : Expr) : Prop :=
  ∀ T B rv B', B.Wf → (gen Γ d).genExpr [] e B = .ok (rv, B') →
    ∃ v, rv.v = some v ∧ ∀ st, (E e st).1.Fits v.type ∧ ∀ prev ρ, ∃ k prev' ρ',
      After (eventStep O T B'.log) k (Point.at B.point prev ρ st)
        (Point.at B'.point prev' ρ' (E e st).2) ∧ v.eval O.world ρ' = (E e st).1

theorem Yields.acts {O : Oracle} {Γ : Env} {d : Nat} {E : Sem} {e : Expr} (h : Yields O Γ d E e) :
    Acts O Γ d E e := by
  intro T B rv B' hwf hgen st prev ρ
  rcases h T B rv B' hwf hgen with ⟨v, _, hv⟩
  rcases (hv st).2 prev ρ with ⟨k, prev', ρ', hrun, _⟩
  exact ⟨k, prev', ρ', Nat.zero_le k, hrun⟩

/-- Code without effects: from registers of `P` it computes registers and a result of `Q`. -/
def Calc {α : Type} (O : Oracle) (P : Regs → Prop) (x : Gen α) (Q : α → Regs → Prop) : Prop :=
  ∀ B a B', x B = .ok (a, B') → B.log <+: B'.log ∧ ∀ T prev ρ st, P ρ → ∃ k ρ',
    After (eventStep O T B'.log) k (Point.at B.point prev ρ st) (Point.at B'.point prev ρ' st) ∧
      Q a ρ'

/-- The step at the end of the code is that of the instruction appended there. -/
theorem eventStep_push {O : Oracle} {T : Switches} (B : Builder) (i : Instr) (prev : Blk) (ρ : Regs)
    (st : St) : eventStep O T (B.push i).log (Point.at B.point prev ρ st) =
      Instr.runIn O T (Point.at B.point prev ρ st) i := by
  have hcode : (B.push i).log.code B.cur = B.code B.cur ++ [i] := B.code_push_self i
  unfold eventStep
  change ((B.push i).log.code B.cur)[(B.code B.cur).length]?.bind _ = _
  rw [hcode, List.getElem?_append_right (Nat.le_refl _), Nat.sub_self]
  rfl

theorem point_push (B : Builder) (i : Instr) :
    (B.push i).point = (B.cur, (B.code B.cur).length + 1) := by
  have hcode : (B.push i).code B.cur = B.code B.cur ++ [i] := B.code_push_self i
  unfold Builder.point
  change (B.cur, ((B.push i).code B.cur).length) = _
  rw [hcode, List.length_append]
  rfl

section Calc

variable {O : Oracle} {α β : Type} {P : Regs → Prop} {Q : α → Regs → Prop} {S : β → Regs → Prop}

theorem Calc.pure {a : α} (h : ∀ ρ, P ρ → Q a ρ) : Calc O P (pure a) Q := by
  intro B b B' hx
  rcases Prod.mk.inj (Except.ok.inj hx) with ⟨rfl, rfl⟩
  exact ⟨List.prefix_refl _, fun T prev ρ st hρ => ⟨0, ρ, .zero _, h ρ hρ⟩⟩

theorem Calc.bind {x : Gen α} {f : α → Gen β} (hx : Calc O P x Q) (hf : ∀ a, Calc O (Q a) (f a) S) :
    Calc O P (x >>= f) S := by
  intro B b B'' hxf
  rcases Gen.bind_eq_ok.mp hxf with ⟨a, B', hxB, hfB⟩
  rcases hx B a B' hxB with ⟨hle, hrun⟩
  rcases hf a B' b B'' hfB with ⟨hle', hrun'⟩
  refine ⟨hle.trans hle', ?_⟩
  intro T prev ρ st hρ
  rcases hrun T prev ρ st hρ with ⟨k, ρ', hk, hQ⟩
  rcases hrun' T prev ρ' st hQ with ⟨k', ρ'', hk', hS⟩
  exact ⟨k + k', ρ'', (hk.mono fun _ _ => eventStep_extend hle').trans hk', hS⟩

/-- An instruction that computes a value from registers. -/
theorem Calc.create {o : Op} {x : Val} (ho : ∀ es ρ m, P ρ → o.eval (O.seen es) ρ m = some x) :
    Calc O P (create o) fun v ρ => v.eval O.world ρ = x := by
  intro B v B' hx
  rcases Prod.mk.inj (Except.ok.inj hx) with ⟨rfl, rfl⟩
  refine ⟨List.prefix_append _ _, ?_⟩
  intro T prev ρ st hρ
  refine ⟨1, Function.update ρ B.nextReg x, .single ?_, Function.update_self ..⟩
  have hpoint : (B.created o).point = (B.cur, (B.code B.cur).length + 1) := point_push B _
  change eventStep O T (B.push (.op B.nextReg o)).log _ = some (Point.at (B.created o).point _ _ _)
  rw [eventStep_push, hpoint]
  change ((o.eval (O.seen st.2) ρ st.1).map _).map _ = _
  rw [ho st.2 ρ st.1 hρ]
  change some (_, st.2 ++ []) = _
  rw [List.append_nil]
  rfl

theorem calc_ptrToI64 {v : Value} {x : I64} :
    Calc O (fun ρ => v.eval O.world ρ = .int x) (ptrToI64 v)
      fun w ρ => w.eval O.world ρ = .int x := by
  unfold ptrToI64
  split_ifs
  · refine .create ?_
    intro es ρ m hρ
    change (v.evalInt (O.seen es) ρ).bind _ = _
    rw [O.evalInt_seen]
    unfold Value.evalInt
    rw [hρ]
    rfl
  · exact .pure fun ρ => id

theorem calc_truthy {rv : RV} {v : Value} {x : Val} (hv : rv.v = some v) (hx : x.Fits v.type)
    (loc : SrcLoc) : Calc O (fun ρ => v.eval O.world ρ = x) (truthy rv loc)
      fun c ρ => c.eval O.world ρ = .int (ofBool x.truth) := by
  unfold truthy
  rw [hv]
  cases x with
  | int i =>
      change Calc O _ (if v.type = .double then _ else _) _
      rw [if_neg hx]
      refine calc_ptrToI64.bind fun w => .create ?_
      intro es ρ m hρ
      change (w.evalInt (O.seen es) ρ).bind _ = _
      rw [O.evalInt_seen]
      unfold Value.evalInt
      rw [hρ]
      rfl
  | fp q =>
      change Calc O _ (if v.type = .double then _ else _) _
      have htype : v.type = .double := hx
      rw [if_pos htype]
      refine .create ?_
      intro es ρ m hρ
      have heval : v.evalFp (O.seen es) ρ = some q := by
        unfold Value.evalFp
        rw [O.eval_seen, hρ]
        rfl
      change (v.evalFp (O.seen es) ρ).bind _ = _
      rw [heval]
      rfl

end Calc

/-- What a function of kind `k` can return. -/
def RetKind.Takes (k : RetKind) (x : Val) : Prop := k = .int → ∃ i, x = .int i

theorem Calc.pre {O : Oracle} {α : Type} {P P' : Regs → Prop} {x : Gen α} {Q : α → Regs → Prop}
    (h : Calc O P x Q) (hP : ∀ ρ, P' ρ → P ρ) : Calc O P' x Q := by
  intro B a B' hx
  rcases h B a B' hx with ⟨hle, hrun⟩
  exact ⟨hle, fun T prev ρ st hρ => hrun T prev ρ st (hP ρ hρ)⟩

theorem Calc.post {O : Oracle} {α : Type} {P : Regs → Prop} {x : Gen α} {Q Q' : α → Regs → Prop}
    (h : Calc O P x Q) (hQ : ∀ a ρ, Q a ρ → Q' a ρ) : Calc O P x Q' := by
  intro B a B' hx
  rcases h B a B' hx with ⟨hle, hrun⟩
  refine ⟨hle, fun T prev ρ st hρ => ?_⟩
  rcases hrun T prev ρ st hρ with ⟨k, ρ', hk, hval⟩
  exact ⟨k, ρ', hk, hQ a ρ' hval⟩

theorem calc_toI64 {O : Oracle} {rv : RV} {v : Value} {i : I64} (hv : rv.v = some v)
    (hx : v.type ≠ .double) : Calc O (fun ρ => v.eval O.world ρ = .int i) (convert rv .i64 false)
      fun w ρ => w.eval O.world ρ = .int i := by
  unfold convert
  rw [hv]
  change Calc O _ (do
    let iv ← if v.type = .double then create (.fptosi v) else ptrToI64 v
    pure iv) _
  rw [if_neg hx]
  exact calc_ptrToI64.bind fun _ => .pure fun _ => id

theorem calc_toF64 {O : Oracle} {rv : RV} {v : Value} {x : Val} (hv : rv.v = some v)
    (hx : x.Fits v.type) : Calc O (fun ρ => v.eval O.world ρ = x) (convert rv .f64)
      fun _ _ => True := by
  unfold convert
  rw [hv]
  change Calc O _ (if v.type = .double then pure v else _) _
  split_ifs with hdouble
  · exact .pure fun _ _ => trivial
  · cases x with
    | fp q => exact absurd hx hdouble
    | int i =>
        refine calc_ptrToI64.bind fun w => ?_
        have hw : ∀ es ρ, w.eval O.world ρ = .int i → w.evalInt (O.seen es) ρ = some i := by
          intro es ρ hρ
          rw [O.evalInt_seen]
          unfold Value.evalInt
          rw [hρ]
          rfl
        have hdone : ∀ {o : Op} {y : Val}, (∀ es ρ m, w.evalInt (O.seen es) ρ = some i →
            o.eval (O.seen es) ρ m = some y) → Calc O (fun ρ => w.eval O.world ρ = .int i) (create o)
              fun _ _ => True := by
          intro o y ho
          exact (Calc.create fun es ρ m hρ => ho es ρ m (hw es ρ hρ)).post fun _ _ _ => trivial
        split
        · refine hdone (y := .fp i.toNat) ?_
          intro es ρ m h
          change (w.evalInt (O.seen es) ρ).bind _ = _
          rw [h]
          rfl
        · refine hdone (y := .fp i.toInt) ?_
          intro es ρ m h
          change (w.evalInt (O.seen es) ρ).bind _ = _
          rw [h]
          rfl

/-! ## The contexts of a statement -/

/-- What the code of a statement leaves alone. -/
structure FnCtx.Frame (F F' : FnCtx) : Prop where
  log : F.b.log <+: F'.b.log
  scopes : F'.scopes = F.scopes
  ret : F'.retIsF64 = F.retIsF64

theorem FnCtx.Frame.refl (F : FnCtx) : F.Frame F := ⟨List.prefix_refl _, rfl, rfl⟩

theorem FnCtx.Frame.trans {F F' F'' : FnCtx} (h : F.Frame F') (h' : F'.Frame F'') : F.Frame F'' :=
  ⟨h.log.trans h'.log, h'.scopes.trans h.scopes, h'.ret.trans h.ret⟩

/-- The scopes are those of `base` below empty ones, in a function of kind `k`. -/
def FnCtx.Under (base : List (List (String × VarSym))) (k : RetKind) (F : FnCtx) : Prop :=
  F.retIsF64 = k ∧ ∃ j, F.scopes = List.replicate j [] ++ base

theorem FnCtx.Under.frame {base : List (List (String × VarSym))} {k : RetKind} {F F' : FnCtx}
    (h : F.Under base k) (hf : F.Frame F') : F'.Under base k := by
  rcases h with ⟨hk, j, hj⟩
  exact ⟨hf.ret.trans hk, j, hf.scopes.trans hj⟩

section Frame

variable {F F' : FnCtx} {ps ts : List Blk} {u : Unit}

theorem frame_ir {α : Type} {x : Gen α} {a : α} (hx : ir x F = .ok (a, F'))
    (hlog : ∀ B a B', x B = .ok (a, B') → B.log <+: B'.log) : F.Frame F' := by
  unfold ir at hx
  split at hx
  · next b B hB =>
      rcases Prod.mk.inj (Except.ok.inj hx) with ⟨_, rfl⟩
      exact ⟨hlog _ _ _ hB, rfl, rfl⟩
  · cases hx

theorem frame_newBlock {b : Blk} (hx : ir newBlock F = .ok (b, F')) :
    F.Frame F' ∧ F'.b.point = F.b.point := by
  rcases Prod.mk.inj (Except.ok.inj hx) with ⟨_, rfl⟩
  exact ⟨⟨List.prefix_refl _, rfl, rfl⟩, rfl⟩

theorem frame_elseBlock {els : Option (Cg Unit)} {endBB b : Blk}
    (hx : ir (if els.isSome then newBlock else pure endBB) F = .ok (b, F')) :
    F.Frame F' ∧ F'.b.point = F.b.point ∧ (els = none → b = endBB) := by
  cases els with
  | none =>
      rcases Prod.mk.inj (Except.ok.inj hx) with ⟨rfl, rfl⟩
      exact ⟨.refl F, rfl, fun _ => rfl⟩
  | some x =>
      rcases frame_newBlock hx with ⟨hf, hp⟩
      exact ⟨hf, hp, fun h => nomatch h⟩

theorem frame_setInsertPoint {b : Blk} (hx : ir (setInsertPoint b) F = .ok (u, F')) :
    F.Frame F' := by
  refine frame_ir hx ?_
  intro B a B' h
  rcases Prod.mk.inj (Except.ok.inj h) with ⟨_, rfl⟩
  exact List.prefix_refl _

theorem frame_emit {i : Instr} (hx : ir (emit i) F = .ok (u, F')) : F.Frame F' := by
  refine frame_ir hx ?_
  intro B a B' h
  rcases Prod.mk.inj (Except.ok.inj h) with ⟨_, rfl⟩
  exact List.prefix_append _ _

/-- Code goes on at the beginning of a pending block. -/
theorem FnCtx.At.point {b : Blk} {o : Bool} (h : F.At ps ts o) (hb : b ∈ ps)
    (hx : ir (setInsertPoint b) F = .ok (u, F')) : F'.b.point = (b, 0) := by
  rcases Prod.mk.inj (Except.ok.inj hx) with ⟨_, rfl⟩
  rcases h with ⟨stray, hg, _⟩
  have hpending := (hg.pending b (.inl (List.mem_append_left _ hb))).code
  unfold Builder.point
  change (b, (F.b.code b).length) = (b, 0)
  rw [hpending]
  rfl

/-- The instruction that is appended is the one at the end of the code before. -/
theorem code_emit {i : Instr} (hx : ir (emit i) F = .ok (u, F')) :
    (F'.b.log.code F.b.point.1)[F.b.point.2]? = some i := by
  rcases Prod.mk.inj (Except.ok.inj hx) with ⟨_, rfl⟩
  have hcode : Log.code (F.b.log ++ [(F.b.cur, i)]) F.b.cur = F.b.code F.b.cur ++ [i] :=
    F.b.code_push_self i
  change (Log.code (F.b.log ++ [(F.b.cur, i)]) F.b.cur)[(F.b.code F.b.cur).length]? = some i
  rw [hcode, List.getElem?_append_right (Nat.le_refl _), Nat.sub_self]
  rfl

theorem brIfOpen_eq {t : Blk} (h : F.At ps ts true) (hx : brIfOpen t F = .ok (u, F')) :
    ir (emit (.br t)) F = .ok (u, F') := by
  rcases Cg.bind_eq_ok.mp hx with ⟨b, F₁, hb, hx⟩
  rw [h.open] at hb
  rcases Prod.mk.inj (Except.ok.inj hb) with ⟨rfl, rfl⟩
  exact hx

end Frame

section Lowering

variable (O : Oracle) (Γ : Env) (d : Nat) (base : List (List (String × VarSym))) (E : Sem)
  (k : RetKind)

/-- The expression does what `E` says, in every block of the function. -/
def Does (e : Expr) : Prop := ∀ j, Acts O { Γ with scopes := List.replicate j [] ++ base } d E e

/-- It also computes the value. -/
def Gives (e : Expr) : Prop := ∀ j, Yields O { Γ with scopes := List.replicate j [] ++ base } d E e

/-- A statement of structured control, in a loop or not. What its expressions do is given
by `E`. -/
inductive Structured : Bool → Stmt → Prop where
  | block {loc : SrcLoc} {body : List Stmt} {inLoop : Bool}
      (h : ∀ s ∈ body, Structured inLoop s) : Structured inLoop (.block loc body)
  | expr {loc : SrcLoc} {e : Expr} {inLoop : Bool} (he : Does O Γ d base E e) :
      Structured inLoop (.expr loc e)
  | ifS {loc : SrcLoc} {e : Expr} {body : Stmt} {body2 : Option Stmt} {inLoop : Bool}
      (he : Gives O Γ d base E e) (h : Structured inLoop body)
      (h2 : ∀ s, body2 = some s → Structured inLoop s) : Structured inLoop (.ifS loc e body body2)
  | whileS {loc : SrcLoc} {e : Expr} {body : Stmt} {inLoop : Bool} (he : Gives O Γ d base E e)
      (h : Structured true body) : Structured inLoop (.whileS loc e body)
  | doWhile {loc : SrcLoc} {e : Expr} {body : Stmt} {inLoop : Bool} (he : Gives O Γ d base E e)
      (h : Structured true body) : Structured inLoop (.doWhile loc e body)
  | forS {loc : SrcLoc} {init : List Expr} {e : Option Expr} {post : List Expr} {body : Stmt}
      {inLoop : Bool} (hinit : ∀ c ∈ init, Does O Γ d base E c)
      (he : ∀ c, e = some c → Gives O Γ d base E c) (hpost : ∀ c ∈ post, Does O Γ d base E c)
      (h : Structured true body) : Structured inLoop (.forS loc init e post body)
  | breakS (loc : SrcLoc) : Structured true (.breakS loc)
  | returnS {loc : SrcLoc} {e : Option Expr} {inLoop : Bool}
      (he : ∀ c, e = some c → Does O Γ d base E c)
      (hval : ∀ c, e = some c → k ≠ .void → Gives O Γ d base E c ∧ ∀ st, k.Takes (E c st).1) :
      Structured inLoop (.returnS loc e)
  | empty (loc : SrcLoc) (inLoop : Bool) : Structured inLoop (.empty loc)

/-- The code that `x` emits means `sem`. -/
def Lowers (ts₀ : List Blk) (n : Nat) (sem : St → Res) (brk : Option Blk) (x : Cg Unit) : Prop :=
  ∀ ps ts F F', ts₀ ⊆ ts → F.At ps ts true → F.Under base k → x F = .ok ((), F') →
    F.Frame F' ∧ ∀ T, Means O T F'.b.log n sem brk F.b.point F'.b.point

end Lowering

section Rules

variable {O : Oracle} {Γ : Env} {d : Nat} {base : List (List (String × VarSym))} {E : Sem}
  {k : RetKind} {n : Nat} {ps ts ts₀ : List Blk} {F F' F₁ F₂ : FnCtx} {u : Unit} {rv : RV}
  {e : Expr} {brk : Option Blk}

/-- The generator of an expression, run on the builder. -/
theorem genExpr_eq (hx : genExpr Γ d e F = .ok (rv, F')) : ∃ B,
    (gen { Γ with scopes := F.scopes } d).genExpr [] e F.b = .ok (rv, B) ∧
      F' = { F with scopeLog := F.scopeLog ++ [.use F.scopes e], b := B } := by
  rcases Cg.bind_eq_ok.mp hx with ⟨_, F₁, hget, hx⟩
  rcases Prod.mk.inj (Except.ok.inj hget) with ⟨rfl, rfl⟩
  rcases Cg.bind_eq_ok.mp hx with ⟨_, F₂, hnote, hx⟩
  rcases Prod.mk.inj (Except.ok.inj hnote) with ⟨_, rfl⟩
  unfold ir at hx
  split at hx
  · next a B hB =>
      rcases Prod.mk.inj (Except.ok.inj hx) with ⟨rfl, rfl⟩
      exact ⟨B, hB, rfl⟩
  · cases hx

theorem frame_genExpr (hΓ : ({ Γ with scopes := [] } : Env).Chained) (hc : e.Chained)
    (hF : F.At ps ts true) (hx : genExpr Γ d e F = .ok (rv, F')) : F.Frame F' := by
  rcases genExpr_eq hx with ⟨B, hB, rfl⟩
  rcases hF with ⟨stray, hg, _⟩
  have hstraight := (straight_gen (chained_inScopes hΓ hg.scopes) d).expr [] e hc
  rcases hstraight F.b hg.wf _ _ hB with ⟨⟨ms, hst⟩, _⟩
  exact ⟨hst.le.log, rfl, rfl⟩

/-- The code of an expression does what `E` says. -/
theorem goes_genExpr (he : Does O Γ d base E e) (hF : F.At ps ts true) (hU : F.Under base k)
    (hx : genExpr Γ d e F = .ok (rv, F')) (T : Switches) (st : St) :
    Goes O T F'.b.log 0 F.b.point st F'.b.point (E e st).2 := by
  rcases genExpr_eq hx with ⟨B, hB, rfl⟩
  rcases hF with ⟨stray, hg, _⟩
  rcases hU with ⟨_, j, hj⟩
  rw [hj] at hB
  exact he j T F.b rv B hg.wf hB st

/-- The code of an expression, and its value. -/
theorem yields_genExpr (he : Gives O Γ d base E e) (hF : F.At ps ts true) (hU : F.Under base k)
    (hx : genExpr Γ d e F = .ok (rv, F')) (T : Switches) :
    ∃ v, rv.v = some v ∧ ∀ st, (E e st).1.Fits v.type ∧ ∀ prev ρ, ∃ k prev' ρ',
      After (eventStep O T F'.b.log) k (Point.at F.b.point prev ρ st)
        (Point.at F'.b.point prev' ρ' (E e st).2) ∧ v.eval O.world ρ' = (E e st).1 := by
  rcases genExpr_eq hx with ⟨B, hB, rfl⟩
  rcases hF with ⟨stray, hg, _⟩
  rcases hU with ⟨_, j, hj⟩
  rw [hj] at hB
  exact he j T F.b rv B hg.wf hB

/-- Code without effects behind the code of an expression. -/
theorem yields_calc {α : Type} {v : Value} {x : Gen α} {a : α} {Q : Val → α → Regs → Prop}
    (T : Switches) {st : St} {p : Point}
    (hrun : ∀ prev ρ, ∃ k prev' ρ', After (eventStep O T F₁.b.log) k (Point.at p prev ρ st)
      (Point.at F₁.b.point prev' ρ' (E e st).2) ∧ v.eval O.world ρ' = (E e st).1)
    (hcalc : Calc O (fun ρ => v.eval O.world ρ = (E e st).1) x (Q (E e st).1))
    (hx : ir x F₁ = .ok (a, F₂)) : ∀ prev ρ, ∃ k prev' ρ',
      After (eventStep O T F₂.b.log) k (Point.at p prev ρ st)
        (Point.at F₂.b.point prev' ρ' (E e st).2) ∧ Q (E e st).1 a ρ' := by
  intro prev ρ
  rcases hrun prev ρ with ⟨m, prev', ρ', hm, hv⟩
  unfold ir at hx
  split at hx
  · next b B hB =>
      rcases Prod.mk.inj (Except.ok.inj hx) with ⟨rfl, rfl⟩
      rcases hcalc F₁.b b B hB with ⟨hle, hcalc⟩
      rcases hcalc T prev' ρ' (E e st).2 hv with ⟨m', ρ'', hm', hQ⟩
      exact ⟨m + m', prev', ρ'', (hm.mono fun _ _ => eventStep_extend hle).trans hm', hQ⟩
  · cases hx

theorem frame_makes {α : Type} {x : Gen α} {R : α → Prop} {a : α} (hF : F.At ps ts true)
    (hm : Makes x R) (hx : ir x F = .ok (a, F')) : F.Frame F' := by
  rcases hF with ⟨stray, hg, _⟩
  unfold ir at hx
  split at hx
  · next b B hB =>
      rcases Prod.mk.inj (Except.ok.inj hx) with ⟨_, rfl⟩
      rcases hm F.b hg.wf _ _ hB with ⟨⟨ms, hst⟩, _⟩
      exact ⟨hst.le.log, rfl, rfl⟩
  · cases hx

/-- The branch on a truth value. -/
theorem step_condBr {l : Log} {T : Switches} {p : Point} {c : Value} {t f : Blk} {b : Bool}
    (hbr : (l.code p.1)[p.2]? = some (.condBr c t f)) {prev : Blk} {ρ : Regs} (st : St)
    (hc : c.eval O.world ρ = .int (ofBool b)) :
    eventStep O T l (Point.at p prev ρ st) = some (Point.at (if b then t else f, 0) p.1 ρ st) := by
  unfold eventStep Point.at
  rw [hbr]
  change ((c.evalInt (O.seen st.2) ρ).map _).map _ = _
  rw [O.evalInt_seen]
  unfold Value.evalInt
  rw [hc]
  cases b with
  | true =>
      change some (_, st.2 ++ []) = _
      rw [List.append_nil]
      rfl
  | false =>
      change some (_, st.2 ++ []) = _
      rw [List.append_nil]
      rfl

/-- A condition is tested by the branch on it. -/
theorem tests_genCond {loc : SrcLoc} {c : Value}
    (hΓ : ({ Γ with scopes := [] } : Env).Chained) (hc : e.Chained) (he : Gives O Γ d base E e)
    (hF : F.At ps ts true) (hU : F.Under base k) (hx : genCond Γ d loc e F = .ok (c, F₁)) :
    F.Frame F₁ ∧ ∀ (l : Log) (T : Switches) (t f : Blk), F₁.b.log <+: l →
      (l.code F₁.b.point.1)[F₁.b.point.2]? = some (.condBr c t f) →
        Tests O T l (test E e) F.b.point t f := by
  rcases Cg.bind_eq_ok.mp hx with ⟨rv, F₂, hgen, htruthy⟩
  have hF₂ := keeps_genExpr hΓ hc F hF rv F₂ hgen
  refine ⟨(frame_genExpr hΓ hc hF hgen).trans
    (frame_makes hF₂ (silent_truthy rv loc).makes htruthy), ?_⟩
  intro l T t f hl hbr st prev ρ
  rcases yields_genExpr he hF hU hgen T with ⟨v, hv, hrun⟩
  rcases yields_calc (Q := fun x c ρ => c.eval O.world ρ = .int (ofBool x.truth)) T (hrun st).2
    (calc_truthy hv (hrun st).1 loc) htruthy prev ρ with ⟨m, prev', ρ', hm, hval⟩
  refine ⟨m + 1, F₁.b.point.1, ρ', Nat.le_add_left _ _, ?_⟩
  exact (hm.mono fun _ _ => eventStep_extend hl).trans (.single (step_condBr hbr _ hval))

/-! ## Statements -/

theorem lowers_pure (n : Nat) (brk : Option Blk) :
    Lowers O base k ts₀ n .normal brk (pure ()) := by
  intro ps ts F F' _ _ _ hx
  rcases Prod.mk.inj (Except.ok.inj hx) with ⟨_, rfl⟩
  exact ⟨.refl F, fun T st => .refl _ st⟩

theorem Lowers.seq {x y : Cg Unit} {sem sem' : St → Res} (hkeeps : KeepsAll ts₀ x)
    (hx : Lowers O base k ts₀ n sem brk x) (hy : Lowers O base k ts₀ n sem' brk y) :
    Lowers O base k ts₀ n (fun st => (sem st).andThen sem') brk (x >>= fun _ => y) := by
  intro ps ts F F' hts hF hU hxy
  rcases Cg.bind_eq_ok.mp hxy with ⟨_, F₁, hxF, hyF⟩
  have hF₁ := hkeeps ps ts hts F hF _ F₁ hxF
  rcases hx ps ts F F₁ hts hF hU hxF with ⟨hf, hm⟩
  rcases hy ps ts F₁ F' hts hF₁ (hU.frame hf) hyF with ⟨hf', hm'⟩
  exact ⟨hf.trans hf', fun T => ((hm T).extend hf'.log).seq (hm' T)⟩

/-- A scope changes nothing. -/
theorem lowers_inScope {x : Cg Unit} {sem : St → Res} (hx : Lowers O base k ts₀ n sem brk x) :
    Lowers O base k ts₀ n sem brk (inScope x) := by
  intro ps ts F F' hts hF hU hxF
  rcases Cg.bind_eq_ok.mp hxF with ⟨_, F₁, hpush, hxF⟩
  have hF₁ := keeps_pushScope F hF _ F₁ hpush
  rcases Prod.mk.inj (Except.ok.inj hpush) with ⟨_, rfl⟩
  rcases Cg.bind_eq_ok.mp hxF with ⟨_, F₂, hbody, hpop⟩
  rcases Prod.mk.inj (Except.ok.inj hpop) with ⟨_, rfl⟩
  have hU₁ : FnCtx.Under base k { F with
      scopeLog := F.scopeLog ++ [.push], scopes := [] :: F.scopes } := by
    rcases hU with ⟨hk, j, hj⟩
    exact ⟨hk, j + 1, congrArg (List.cons []) hj⟩
  rcases hx ps ts _ F₂ hts hF₁ hU₁ hbody with ⟨hf, hm⟩
  refine ⟨⟨hf.log, ?_, hf.ret⟩, hm⟩
  change F₂.scopes.tail = F.scopes
  rw [hf.scopes]
  rfl

theorem lowers_genExpr (hΓ : ({ Γ with scopes := [] } : Env).Chained) (hc : e.Chained)
    (he : Does O Γ d base E e) : Lowers O base k ts₀ n (fun st => .normal (E e st).2) brk
      (genExpr Γ d e >>= fun _ => pure ()) := by
  intro ps ts F F' _ hF hU hx
  rcases Cg.bind_eq_ok.mp hx with ⟨rv, F₁, hgen, hx⟩
  rcases Prod.mk.inj (Except.ok.inj hx) with ⟨_, rfl⟩
  exact ⟨frame_genExpr hΓ hc hF hgen, fun T => .effect (goes_genExpr he hF hU hgen T)⟩

/-! ### Branches -/

theorem goes_br {t : Blk} (hx : ir (emit (.br t)) F = .ok (u, F')) :
    F.Frame F' ∧ ∀ (l : Log) (T : Switches), F'.b.log <+: l →
      ∀ st, Goes O T l 1 F.b.point st (t, 0) st := by
  refine ⟨frame_emit hx, ?_⟩
  intro l T hl st
  exact (Goes.br (code_emit hx) st).extend hl

theorem goes_brIfOpen {t : Blk} (hF : F.At ps ts true) (hx : brIfOpen t F = .ok (u, F')) :
    F.Frame F' ∧ ∀ (l : Log) (T : Switches), F'.b.log <+: l →
      ∀ st, Goes O T l 1 F.b.point st (t, 0) st := goes_br (brIfOpen_eq hF hx)

theorem means_genElse {els : Option (Cg Unit)} {elseBB endBB : Blk} {sem : St → Res}
    (hels : ∀ x, els = some x → KeepsAll ts₀ x ∧ Lowers O base k ts₀ n sem brk x)
    (hnone : els = none → elseBB = endBB ∧ sem = .normal) (hts : ts₀ ⊆ ts)
    (hF : F.At (if els.isSome then elseBB :: ps else ps) ts false) (hU : F.Under base k)
    (hx : genElse els elseBB endBB F = .ok (u, F')) : F.Frame F' ∧
      ∀ (l : Log) (T : Switches), F'.b.log <+: l → Means O T l n sem brk (elseBB, 0) (endBB, 0) := by
  cases els with
  | none =>
      rcases Prod.mk.inj (Except.ok.inj hx) with ⟨_, rfl⟩
      rcases hnone rfl with ⟨rfl, rfl⟩
      exact ⟨.refl F, fun l T _ st => .refl _ st⟩
  | some x =>
      rcases hels x rfl with ⟨hkeeps, hlow⟩
      rcases Cg.bind_eq_ok.mp hx with ⟨_, F₁, hset, hx⟩
      rcases Cg.bind_eq_ok.mp hx with ⟨_, F₂, hxF, hbr⟩
      have hF₁ := keeps_setInsertPoint (List.Perm.refl _) F hF _ F₁ hset
      have hF₂ := hkeeps ps ts hts F₁ hF₁ _ F₂ hxF
      have hf₁ := frame_setInsertPoint hset
      rcases hlow ps ts F₁ F₂ hts hF₁ (hU.frame hf₁) hxF with ⟨hf₂, hm⟩
      rcases goes_brIfOpen (O := O) hF₂ hbr with ⟨hf', hg⟩
      refine ⟨(hf₁.trans hf₂).trans hf', ?_⟩
      intro l T hl
      have hm' := (hm T).extend (hf'.log.trans hl)
      rw [hF.point List.mem_cons_self hset] at hm'
      exact hm'.goes (hg l T hl)

theorem lowers_genIf (hΓ : ({ Γ with scopes := [] } : Env).Chained) (loc : SrcLoc)
    (hc : e.Chained) (he : Gives O Γ d base E e) {thn : Cg Unit} {els : Option (Cg Unit)}
    {sem sem' : St → Res} (hthn : KeepsAll ts₀ thn) (hthn' : Lowers O base k ts₀ n sem brk thn)
    (hels : ∀ x, els = some x → KeepsAll ts₀ x ∧ Lowers O base k ts₀ n sem' brk x)
    (hnone : els = none → sem' = .normal) :
    Lowers O base k ts₀ n (fun st => if (test E e st).1 then sem (test E e st).2
      else sem' (test E e st).2) brk (genIf Γ d loc e thn els) := by
  intro ps ts F F' hts hF hU hx
  unfold genIf at hx
  rcases Cg.bind_eq_ok.mp hx with ⟨c, F₁, hcond, hx⟩
  rcases Cg.bind_eq_ok.mp hx with ⟨thenBB, F₂, hthenBB, hx⟩
  rcases Cg.bind_eq_ok.mp hx with ⟨endBB, F₃, hendBB, hx⟩
  rcases Cg.bind_eq_ok.mp hx with ⟨elseBB, F₄, helseBB, hx⟩
  rcases Cg.bind_eq_ok.mp hx with ⟨_, F₅, hcondBr, hx⟩
  rcases Cg.bind_eq_ok.mp hx with ⟨_, F₆, hset, hx⟩
  rcases Cg.bind_eq_ok.mp hx with ⟨_, F₇, hthnF, hx⟩
  rcases Cg.bind_eq_ok.mp hx with ⟨_, F₈, hbr, hx⟩
  rcases Cg.bind_eq_ok.mp hx with ⟨_, F₉, helsF, hend⟩
  have hF₁ := keeps_genCond hΓ loc hc F hF _ _ hcond
  have hF₂ := keeps_newBlock _ hF₁ _ _ hthenBB
  have hF₃ := keeps_newBlock _ hF₂ _ _ hendBB
  have hF₄ := keeps_elseBlock els thenBB endBB _ hF₃ _ _ helseBB
  have hF₅ := keeps_condBr (by simp) (by simp) _ hF₄ _ _ hcondBr
  have hF₆ := keeps_setInsertPoint (List.Perm.refl _) _ hF₅ _ _ hset
  have hts' : ts₀ ⊆ elseBB :: endBB :: thenBB :: ts := sub_loop hts _ _ _
  have hendT : endBB ∈ elseBB :: endBB :: thenBB :: ts := by simp
  have hF₇ := hthn _ _ hts' _ hF₆ _ _ hthnF
  have hF₈ := keeps_brIfOpen hendT _ hF₇ _ _ hbr
  have hF₉ := keeps_genElse (fun x hx => (hels x hx).1) hts' hendT _ hF₈ _ _ helsF
  rcases tests_genCond hΓ hc he hF hU hcond with ⟨hf₁, htests⟩
  rcases frame_newBlock hthenBB with ⟨hf₂, hp₂⟩
  rcases frame_newBlock hendBB with ⟨hf₃, hp₃⟩
  rcases frame_elseBlock helseBB with ⟨hf₄, hp₄, helseEnd⟩
  have hf₅ := frame_emit hcondBr
  have hf₆ := frame_setInsertPoint hset
  have hstart := (((hf₁.trans hf₂).trans hf₃).trans hf₄).trans (hf₅.trans hf₆)
  rcases hthn' _ _ _ _ hts' hF₆ (hU.frame hstart) hthnF with ⟨hf₇, hmthn⟩
  rcases goes_brIfOpen (O := O) hF₇ hbr with ⟨hf₈, hgthn⟩
  have hU₈ := hU.frame ((hstart.trans hf₇).trans hf₈)
  rcases means_genElse hels (fun h => ⟨helseEnd h, hnone h⟩) hts' hF₈ hU₈ helsF with ⟨hf₉, hmels⟩
  have hf' := frame_setInsertPoint hend
  refine ⟨(((hstart.trans hf₇).trans hf₈).trans hf₉).trans hf', ?_⟩
  intro T
  have hlog₈ := (hf₈.trans hf₉).trans hf'
  rw [hF₉.point List.mem_cons_self hend]
  have hcode := code_extend (code_emit hcondBr) ((hf₆.trans hf₇).trans hlog₈).log
  rw [hp₄, hp₃, hp₂] at hcode
  have hlog₁ := ((hf₂.trans hf₃).trans hf₄).trans ((hf₅.trans hf₆).trans (hf₇.trans hlog₈))
  have hthen := ((hmthn T).extend hlog₈.log).goes (hgthn _ T (hf₉.trans hf').log)
  rw [hF₅.point List.mem_cons_self hset] at hthen
  exact .ite (htests _ T _ _ hlog₁.log hcode) hthen (hmels _ T hf'.log)

/-! ### Loops -/

/-- The three blocks of a loop. -/
theorem at_loopBlocks {a b c : Blk} {F₃ : FnCtx} (hF : F.At ps ts true)
    (ha : ir newBlock F = .ok (a, F₁)) (hb : ir newBlock F₁ = .ok (b, F₂))
    (hc : ir newBlock F₂ = .ok (c, F₃)) : F₃.At (a :: b :: c :: ps) (a :: b :: c :: ts) true ∧
      F.Frame F₃ ∧ F₃.b.point = F.b.point := by
  rcases frame_newBlock ha with ⟨hf₁, hp₁⟩
  rcases frame_newBlock hb with ⟨hf₂, hp₂⟩
  rcases frame_newBlock hc with ⟨hf₃, hp₃⟩
  refine ⟨?_, (hf₁.trans hf₂).trans hf₃, hp₃.trans (hp₂.trans hp₁)⟩
  refine keeps_loopBlocks F hF (a, b, c) F₃ ?_
  exact Cg.bind_eq_ok.mpr ⟨a, F₁, ha, Cg.bind_eq_ok.mpr ⟨b, F₂, hb, Cg.bind_eq_ok.mpr ⟨c, F₃, hc, rfl⟩⟩⟩

/-- A body that may break to the end of its loop. -/
def LowersBody (O : Oracle) (base : List (List (String × VarSym))) (k : RetKind) (ts₀ : List Blk)
    (n : Nat) (sem : St → Res) (body : BreakTarget → Cg Unit) : Prop :=
  ∀ endBB, Lowers O base k (endBB :: ts₀) n sem (some endBB) (body ⟨endBB, none⟩)

theorem lowers_genWhile (hΓ : ({ Γ with scopes := [] } : Env).Chained) (loc : SrcLoc)
    (hc : e.Chained) (he : Gives O Γ d base E e) {body : BreakTarget → Cg Unit} {sem : St → Res}
    (hbody : KeepsBody ts₀ body) (hbody' : LowersBody O base k ts₀ n sem body) :
    Lowers O base k ts₀ n (loop (test E e) sem id n) brk (genWhile Γ d loc e body) := by
  intro ps ts F F' hts hF hU hx
  unfold genWhile at hx
  rcases Cg.bind_eq_ok.mp hx with ⟨condBB, F₁, hcondBB, hx⟩
  rcases Cg.bind_eq_ok.mp hx with ⟨bodyBB, F₂, hbodyBB, hx⟩
  rcases Cg.bind_eq_ok.mp hx with ⟨endBB, F₃, hendBB, hx⟩
  rcases Cg.bind_eq_ok.mp hx with ⟨_, F₄, hbr, hx⟩
  rcases Cg.bind_eq_ok.mp hx with ⟨_, F₅, hset, hx⟩
  rcases Cg.bind_eq_ok.mp hx with ⟨c, F₆, hcond, hx⟩
  rcases Cg.bind_eq_ok.mp hx with ⟨_, F₇, hcondBr, hx⟩
  rcases Cg.bind_eq_ok.mp hx with ⟨_, F₈, hset', hx⟩
  rcases Cg.bind_eq_ok.mp hx with ⟨_, F₉, hbodyF, hx⟩
  rcases Cg.bind_eq_ok.mp hx with ⟨_, F₁₀, hback, hend⟩
  rcases at_loopBlocks hF hcondBB hbodyBB hendBB with ⟨hF₃, hf₃, hp₃⟩
  have hF₄ := keeps_br (by simp) _ hF₃ _ _ hbr
  have hF₅ := keeps_setInsertPoint (List.Perm.refl _) _ hF₄ _ _ hset
  have hF₆ := keeps_genCond hΓ loc hc _ hF₅ _ _ hcond
  have hF₇ := keeps_condBr (by simp) (by simp) _ hF₆ _ _ hcondBr
  have hF₈ := keeps_setInsertPoint (List.Perm.refl _) _ hF₇ _ _ hset'
  have hts' : endBB :: ts₀ ⊆ condBB :: bodyBB :: endBB :: ts :=
    List.cons_subset.mpr ⟨by simp, sub_loop hts _ _ _⟩
  have hF₉ := hbody endBB _ _ hts' _ hF₈ _ _ hbodyF
  have hF₁₀ := keeps_brIfOpen (by simp) _ hF₉ _ _ hback
  rcases goes_br (O := O) hbr with ⟨hf₄, hgo⟩
  have hstart := (hf₃.trans hf₄).trans (frame_setInsertPoint hset)
  rcases tests_genCond hΓ hc he hF₅ (hU.frame hstart) hcond with ⟨hf₆, htests⟩
  have hf₈ := (frame_emit hcondBr).trans (frame_setInsertPoint hset')
  have hround := (hstart.trans hf₆).trans hf₈
  rcases hbody' endBB _ _ _ _ hts' hF₈ (hU.frame hround) hbodyF with ⟨hf₉, hm⟩
  rcases goes_brIfOpen (O := O) hF₉ hback with ⟨hf₁₀, hgback⟩
  have hf' := frame_setInsertPoint hend
  refine ⟨((hround.trans hf₉).trans hf₁₀).trans hf', ?_⟩
  intro T
  rw [hF₁₀.point List.mem_cons_self hend]
  have hrest := hf₉.trans (hf₁₀.trans hf')
  have hcode := code_extend (code_emit hcondBr) ((frame_setInsertPoint hset').trans hrest).log
  have htest := htests _ T _ _ (hf₈.trans hrest).log hcode
  have hmbody := (hm T).extend (hf₁₀.trans hf').log
  rw [hF₄.point List.mem_cons_self hset] at htest
  rw [hF₇.point List.mem_cons_self hset'] at hmbody
  have hloop := means_loop htest hmbody (fun st => (hgback _ T hf'.log st).weaken (Nat.zero_le _))
    n (Nat.le_refl n) brk
  have hgo' := hgo F'.b.log T
    ((frame_setInsertPoint hset).trans (hf₆.trans (hf₈.trans hrest))).log
  rw [hp₃] at hgo'
  exact .effect_seq (fun st => (hgo' st).weaken (Nat.zero_le _)) hloop

theorem lowers_genDoWhile (hΓ : ({ Γ with scopes := [] } : Env).Chained) (loc : SrcLoc)
    (hc : e.Chained) (he : Gives O Γ d base E e) {body : BreakTarget → Cg Unit} {sem : St → Res}
    (hbody : KeepsBody ts₀ body) (hbody' : LowersBody O base k ts₀ n sem body) :
    Lowers O base k ts₀ n
      (fun st => ((sem st).andThen fun st => loop (test E e) sem id n st).unbreak) brk
      (genDoWhile Γ d loc e body) := by
  intro ps ts F F' hts hF hU hx
  unfold genDoWhile at hx
  rcases Cg.bind_eq_ok.mp hx with ⟨bodyBB, F₁, hbodyBB, hx⟩
  rcases Cg.bind_eq_ok.mp hx with ⟨condBB, F₂, hcondBB, hx⟩
  rcases Cg.bind_eq_ok.mp hx with ⟨endBB, F₃, hendBB, hx⟩
  rcases Cg.bind_eq_ok.mp hx with ⟨_, F₄, hbr, hx⟩
  rcases Cg.bind_eq_ok.mp hx with ⟨_, F₅, hset, hx⟩
  rcases Cg.bind_eq_ok.mp hx with ⟨_, F₆, hbodyF, hx⟩
  rcases Cg.bind_eq_ok.mp hx with ⟨_, F₇, hback, hx⟩
  rcases Cg.bind_eq_ok.mp hx with ⟨_, F₈, hset', hx⟩
  rcases Cg.bind_eq_ok.mp hx with ⟨c, F₉, hcond, hx⟩
  rcases Cg.bind_eq_ok.mp hx with ⟨_, F₁₀, hcondBr, hend⟩
  rcases at_loopBlocks hF hbodyBB hcondBB hendBB with ⟨hF₃, hf₃, hp₃⟩
  have hF₄ := keeps_br (by simp) _ hF₃ _ _ hbr
  have hF₅ := keeps_setInsertPoint (List.Perm.refl _) _ hF₄ _ _ hset
  have hts' : endBB :: ts₀ ⊆ bodyBB :: condBB :: endBB :: ts :=
    List.cons_subset.mpr ⟨by simp, sub_loop hts _ _ _⟩
  have hF₆ := hbody endBB _ _ hts' _ hF₅ _ _ hbodyF
  have hF₇ := keeps_brIfOpen (by simp) _ hF₆ _ _ hback
  have hF₈ := keeps_setInsertPoint (List.Perm.refl _) _ hF₇ _ _ hset'
  have hF₉ := keeps_genCond hΓ loc hc _ hF₈ _ _ hcond
  have hF₁₀ := keeps_condBr (by simp) (by simp) _ hF₉ _ _ hcondBr
  rcases goes_br (O := O) hbr with ⟨hf₄, hgo⟩
  have hf₅ := frame_setInsertPoint hset
  have hstart := (hf₃.trans hf₄).trans hf₅
  rcases hbody' endBB _ _ _ _ hts' hF₅ (hU.frame hstart) hbodyF with ⟨hf₆, hm⟩
  rcases goes_brIfOpen (O := O) hF₆ hback with ⟨hf₇, hgback⟩
  have hf₈ := frame_setInsertPoint hset'
  have hround := ((hstart.trans hf₆).trans hf₇).trans hf₈
  rcases tests_genCond hΓ hc he hF₈ (hU.frame hround) hcond with ⟨hf₉, htests⟩
  have hf₁₀ := frame_emit hcondBr
  have hf' := frame_setInsertPoint hend
  refine ⟨((hround.trans hf₉).trans hf₁₀).trans hf', ?_⟩
  intro T
  rw [hF₁₀.point List.mem_cons_self hend]
  have hrest := hf₈.trans (hf₉.trans (hf₁₀.trans hf'))
  have htest := htests _ T _ _ (hf₁₀.trans hf').log (code_extend (code_emit hcondBr) hf'.log)
  have hmbody := (hm T).extend (hf₇.trans hrest).log
  rw [hF₇.point List.mem_cons_self hset'] at htest
  rw [hF₄.point List.mem_cons_self hset] at hmbody
  have hgback' : ∀ st, Goes O T F'.b.log 0 F₆.b.point st (condBB, 0) st :=
    fun st => (hgback _ T hrest.log st).weaken (Nat.zero_le _)
  have hloop := means_loop htest hmbody hgback' n (Nat.le_refl n) (some endBB)
  have hgo' := hgo F'.b.log T (hf₅.trans (hf₆.trans (hf₇.trans hrest))).log
  rw [hp₃] at hgo'
  have hall := ((hmbody.goes hgback').seq hloop).unbreak brk
  exact .effect_seq (fun st => (hgo' st).weaken (Nat.zero_le _)) hall

theorem goes_genExprs (hΓ : ({ Γ with scopes := [] } : Env).Chained) {es : List Expr}
    (hc : ∀ e ∈ es, e.Chained) (he : ∀ e ∈ es, Does O Γ d base E e) :
    ∀ {F : FnCtx}, F.At ps ts true → F.Under base k → genExprs Γ d es F = .ok (u, F') →
      F.Frame F' ∧ ∀ T st, Goes O T F'.b.log 0 F.b.point st F'.b.point (effects E es st) := by
  induction es with
  | nil =>
      intro F _ _ hx
      rcases Prod.mk.inj (Except.ok.inj hx) with ⟨_, rfl⟩
      exact ⟨.refl F, fun T st => .refl _ st⟩
  | cons e es ih =>
      intro F hF hU hx
      rcases Cg.bind_eq_ok.mp hx with ⟨rv, F₁, hgen, hx⟩
      have hce := hc e List.mem_cons_self
      have hF₁ := keeps_genExpr hΓ hce F hF _ _ hgen
      have hf := frame_genExpr hΓ hce hF hgen
      rcases ih (fun e he => hc e (List.mem_cons_of_mem _ he))
        (fun c hc => he c (List.mem_cons_of_mem _ hc)) hF₁ (hU.frame hf) hx with ⟨hf', hg'⟩
      refine ⟨hf.trans hf', ?_⟩
      intro T st
      have hg := (goes_genExpr (he e List.mem_cons_self) hF hU hgen T st).extend hf'.log
      exact hg.trans (hg' T (E e st).2)

theorem tests_genForCond (hΓ : ({ Γ with scopes := [] } : Env).Chained) (loc : SrcLoc)
    {e : Option Expr} (hc : ∀ c, e = some c → c.Chained)
    (he : ∀ c, e = some c → Gives O Γ d base E c) {t f : Blk} (hF : F.At ps ts true)
    (hU : F.Under base k) (hx : genForCond Γ d loc e t f F = .ok (u, F')) :
    F.Frame F' ∧ ∀ (l : Log) (T : Switches), F'.b.log <+: l →
      Tests O T l (testFor E e) F.b.point t f := by
  cases e with
  | none =>
      rcases goes_br (O := O) hx with ⟨hf, hg⟩
      exact ⟨hf, fun l T hl => hg l T hl⟩
  | some e =>
      rcases Cg.bind_eq_ok.mp hx with ⟨c, F₁, hcond, hbr⟩
      rcases tests_genCond hΓ (hc e rfl) (he e rfl) hF hU hcond with ⟨hf, htests⟩
      have hf' := frame_emit hbr
      refine ⟨hf.trans hf', ?_⟩
      intro l T hl
      exact htests l T t f (hf'.log.trans hl) (code_extend (code_emit hbr) hl)

theorem lowers_genFor (hΓ : ({ Γ with scopes := [] } : Env).Chained) (loc : SrcLoc)
    {init : List Expr} {e : Option Expr} {post : List Expr} (hcinit : ∀ c ∈ init, c.Chained)
    (hc : ∀ c, e = some c → c.Chained) (hcpost : ∀ c ∈ post, c.Chained)
    (hinit : ∀ c ∈ init, Does O Γ d base E c) (he : ∀ c, e = some c → Gives O Γ d base E c)
    (hpost : ∀ c ∈ post, Does O Γ d base E c) {body : BreakTarget → Cg Unit} {sem : St → Res}
    (hbody : KeepsBody ts₀ body) (hbody' : LowersBody O base k ts₀ n sem body) :
    Lowers O base k ts₀ n
      (fun st => loop (testFor E e) sem (effects E post) n (effects E init st)) brk
      (genFor Γ d loc init e post body) := by
  intro ps ts F F' hts hF hU hx
  unfold genFor at hx
  rcases Cg.bind_eq_ok.mp hx with ⟨_, F₀, hinitF, hx⟩
  rcases Cg.bind_eq_ok.mp hx with ⟨condBB, F₁, hcondBB, hx⟩
  rcases Cg.bind_eq_ok.mp hx with ⟨bodyBB, F₂, hbodyBB, hx⟩
  rcases Cg.bind_eq_ok.mp hx with ⟨endBB, F₃, hendBB, hx⟩
  rcases Cg.bind_eq_ok.mp hx with ⟨_, F₄, hbr, hx⟩
  rcases Cg.bind_eq_ok.mp hx with ⟨_, F₅, hset, hx⟩
  rcases Cg.bind_eq_ok.mp hx with ⟨_, F₆, hcond, hx⟩
  rcases Cg.bind_eq_ok.mp hx with ⟨_, F₇, hset', hx⟩
  rcases Cg.bind_eq_ok.mp hx with ⟨_, F₈, hbodyF, hx⟩
  rcases Cg.bind_eq_ok.mp hx with ⟨_, F₉, hpostF, hend⟩
  have hF₀ := keeps_genExprs hΓ hcinit _ hF _ _ hinitF
  rcases goes_genExprs hΓ hcinit hinit hF hU hinitF with ⟨hf₀, hg₀⟩
  rcases at_loopBlocks hF₀ hcondBB hbodyBB hendBB with ⟨hF₃, hf₃, hp₃⟩
  have hF₄ := keeps_br (by simp) _ hF₃ _ _ hbr
  have hF₅ := keeps_setInsertPoint (List.Perm.refl _) _ hF₄ _ _ hset
  have hF₆ := keeps_genForCond hΓ loc hc (by simp) (by simp) _ hF₅ _ _ hcond
  have hF₇ := keeps_setInsertPoint (List.Perm.refl _) _ hF₆ _ _ hset'
  have hts' : endBB :: ts₀ ⊆ condBB :: bodyBB :: endBB :: ts :=
    List.cons_subset.mpr ⟨by simp, sub_loop hts _ _ _⟩
  have hF₈ := hbody endBB _ _ hts' _ hF₇ _ _ hbodyF
  -- the block is open where the post expressions are generated
  rcases Cg.bind_eq_ok.mp hpostF with ⟨b, F₈', hopen, hpostF⟩
  rw [hF₈.open] at hopen
  rcases Prod.mk.inj (Except.ok.inj hopen) with ⟨rfl, rfl⟩
  rcases Cg.bind_eq_ok.mp hpostF with ⟨_, F₈', hpostF, hback⟩
  have hF₈' := keeps_genExprs hΓ hcpost _ hF₈ _ _ hpostF
  have hF₉ := keeps_br (by simp) _ hF₈' _ _ hback
  rcases goes_br (O := O) hbr with ⟨hf₄, hgo⟩
  have hf₅ := frame_setInsertPoint hset
  have hstart := ((hf₀.trans hf₃).trans hf₄).trans hf₅
  rcases tests_genForCond hΓ loc hc he hF₅ (hU.frame hstart) hcond with ⟨hf₆, htests⟩
  have hf₇ := frame_setInsertPoint hset'
  have hround := (hstart.trans hf₆).trans hf₇
  rcases hbody' endBB _ _ _ _ hts' hF₇ (hU.frame hround) hbodyF with ⟨hf₈, hm⟩
  rcases goes_genExprs hΓ hcpost hpost hF₈ (hU.frame (hround.trans hf₈)) hpostF with ⟨hf₈', hgpost⟩
  rcases goes_br (O := O) hback with ⟨hf₉, hgback⟩
  have hf' := frame_setInsertPoint hend
  refine ⟨(((hround.trans hf₈).trans hf₈').trans hf₉).trans hf', ?_⟩
  intro T
  rw [hF₉.point List.mem_cons_self hend]
  have hrest := hf₈'.trans (hf₉.trans hf')
  have htest := htests F'.b.log T (hf₇.trans (hf₈.trans hrest)).log
  have hmbody := (hm T).extend hrest.log
  rw [hF₄.point List.mem_cons_self hset] at htest
  rw [hF₆.point List.mem_cons_self hset'] at hmbody
  have hgback' : ∀ st, Goes O T F'.b.log 0 F₈.b.point st (condBB, 0) (effects E post st) := by
    intro st
    have hg := (hgpost T st).extend (hf₉.trans hf').log
    exact (hg.trans (hgback _ T hf'.log _)).weaken (Nat.zero_le _)
  have hloop := means_loop htest hmbody hgback' n (Nat.le_refl n) brk
  have hentry := hf₅.trans (hf₆.trans (hf₇.trans (hf₈.trans hrest)))
  have hgo' := hgo F'.b.log T hentry.log
  rw [hp₃] at hgo'
  refine .effect_seq (fun st => ?_) hloop
  have hg := (hg₀ T st).extend (hf₃.trans (hf₄.trans hentry)).log
  exact (hg.trans (hgo' _)).weaken (Nat.zero_le _)

/-! ### Jumps -/

theorem frame_startDeadBlock (hx : startDeadBlock F = .ok (u, F')) : F.Frame F' := by
  rcases Cg.bind_eq_ok.mp hx with ⟨b, F₁, hnew, hset⟩
  exact (frame_newBlock hnew).1.trans (frame_setInsertPoint hset)

/-- A `ret` that is appended is where the code before ends. -/
theorem isRet_emit {v : Option Value} (hx : ir (emit (.ret v)) F = .ok (u, F')) :
    IsRet F'.b.log F.b.point := ⟨v, code_emit hx⟩

/-- The value of a `return` is computed, and converted. -/
theorem goes_genRetConv {t : Ty} {norm : Bool} (hΓ : ({ Γ with scopes := [] } : Env).Chained)
    (hc : e.Chained) (he : Gives O Γ d base E e) (hF : F.At ps ts true) (hU : F.Under base k)
    (hcalc : ∀ (rv : RV) (v : Value) (st : St), rv.v = some v → (E e st).1.Fits v.type →
      Calc O (fun ρ => v.eval O.world ρ = (E e st).1) (convert rv t norm) fun _ _ => True)
    (hx : (do
      let v ← genExpr Γ d e
      ir (do emit (.ret (some (← convert v t norm))))) F = .ok (u, F')) :
    F.Frame F' ∧ ∃ p, IsRet F'.b.log p ∧
      ∀ T st, Goes O T F'.b.log 0 F.b.point st p (E e st).2 := by
  rcases Cg.bind_eq_ok.mp hx with ⟨rv, F₁, hgen, hx⟩
  rw [ir_bind] at hx
  rcases Cg.bind_eq_ok.mp hx with ⟨w, F₂, hconv, hret⟩
  have hF₁ := keeps_genExpr hΓ hc F hF _ _ hgen
  have hf₂ := frame_makes hF₁ (silent_convert rv t norm).makes hconv
  have hf' := frame_emit hret
  refine ⟨((frame_genExpr hΓ hc hF hgen).trans hf₂).trans hf', F₂.b.point, isRet_emit hret, ?_⟩
  intro T st prev ρ
  rcases yields_genExpr he hF hU hgen T with ⟨v, hv, hrun⟩
  rcases yields_calc (Q := fun _ _ _ => True) T (hrun st).2 (hcalc rv v st hv (hrun st).1) hconv
    prev ρ with ⟨m, prev', ρ', hm, _⟩
  exact ⟨m, prev', ρ', Nat.zero_le m, hm.mono fun _ _ => eventStep_extend hf'.log⟩

theorem goes_genRetValue (hΓ : ({ Γ with scopes := [] } : Env).Chained) {e : Option Expr}
    (hc : ∀ c, e = some c → c.Chained) (he : ∀ c, e = some c → Does O Γ d base E c)
    (hval : ∀ c, e = some c → k ≠ .void → Gives O Γ d base E c ∧ ∀ st, k.Takes (E c st).1)
    (hF : F.At ps ts true) (hU : F.Under base k) (hx : genRetValue Γ d e k F = .ok (u, F')) :
    F.Frame F' ∧ ∃ p, IsRet F'.b.log p ∧
      ∀ T st, Goes O T F'.b.log 0 F.b.point st p (effects E e.toList st) := by
  have hnone : ∀ v, ir (emit (.ret v)) F = .ok (u, F') → F.Frame F' ∧ ∃ p, IsRet F'.b.log p ∧
      ∀ T st, Goes O T F'.b.log 0 F.b.point st p st := fun v h =>
    ⟨frame_emit h, F.b.point, isRet_emit h, fun T st => .refl _ st⟩
  cases e with
  | none =>
      cases k with
      | void => exact hnone _ hx
      | f64 => exact hnone _ hx
      | int => exact hnone _ hx
  | some e =>
      have hce := hc e rfl
      cases k with
      | void =>
          rcases Cg.bind_eq_ok.mp hx with ⟨rv, F₁, hgen, hret⟩
          have hf' := frame_emit hret
          refine ⟨(frame_genExpr hΓ hce hF hgen).trans hf', F₁.b.point, isRet_emit hret, ?_⟩
          exact fun T st => (goes_genExpr (he e rfl) hF hU hgen T st).extend hf'.log
      | f64 =>
          rcases hval e rfl RetKind.noConfusion with ⟨hgives, _⟩
          exact goes_genRetConv hΓ hce hgives hF hU (fun rv v st hv hfits => calc_toF64 hv hfits) hx
      | int =>
          rcases hval e rfl RetKind.noConfusion with ⟨hgives, htakes⟩
          refine goes_genRetConv hΓ hce hgives hF hU (fun rv v st hv hfits => ?_) hx
          rcases htakes st rfl with ⟨i, hi⟩
          rw [hi] at hfits ⊢
          exact (calc_toI64 hv hfits).post fun _ _ _ => trivial

theorem lowers_genReturn (hΓ : ({ Γ with scopes := [] } : Env).Chained) {e : Option Expr}
    (hc : ∀ c, e = some c → c.Chained) (he : ∀ c, e = some c → Does O Γ d base E c)
    (hval : ∀ c, e = some c → k ≠ .void → Gives O Γ d base E c ∧ ∀ st, k.Takes (E c st).1) :
    Lowers O base k ts₀ n (fun st => .ret (effects E e.toList st)) brk (genReturn Γ d e) := by
  intro ps ts F F' _ hF hU hx
  rcases Cg.bind_eq_ok.mp hx with ⟨_, F₁, hget, hx⟩
  rcases Prod.mk.inj (Except.ok.inj hget) with ⟨rfl, rfl⟩
  rcases Cg.bind_eq_ok.mp hx with ⟨_, F₂, hvalue, hdead⟩
  rw [hU.1] at hvalue
  rcases goes_genRetValue hΓ hc he hval hF hU hvalue with ⟨hf, p, hret, hg⟩
  have hf' := frame_startDeadBlock hdead
  refine ⟨hf.trans hf', ?_⟩
  exact fun T st => ⟨p, hret.extend hf'.log, (hg T st).extend hf'.log⟩

theorem lowers_genBreak (loc : SrcLoc) (b : Blk) (breaks : List BreakTarget) :
    Lowers O base k ts₀ n .brk (some b) (genBreak loc (⟨b, none⟩ :: breaks)) := by
  intro ps ts F F' _ _ _ hx
  rcases Cg.bind_eq_ok.mp hx with ⟨_, F₁, hbr, hdead⟩
  rcases goes_br (O := O) hbr with ⟨hf, hg⟩
  have hf' := frame_startDeadBlock hdead
  refine ⟨hf.trans hf', ?_⟩
  exact fun T st => ⟨b, rfl, (hg _ T hf'.log st).weaken (Nat.zero_le _)⟩

/-! ### The recursion -/

/-- The target of breaks is that of the innermost loop. -/
def Innermost (breaks : List BreakTarget) (brk : Option Blk) (inLoop : Bool) : Prop :=
  inLoop = true → ∃ b rest, breaks = ⟨b, none⟩ :: rest ∧ brk = some b

theorem innermost_cons (b : Blk) (breaks : List BreakTarget) :
    Innermost (⟨b, none⟩ :: breaks) (some b) true := fun _ => ⟨b, breaks, rfl, rfl⟩

/-- The break target of a loop is one of its blocks. -/
theorem in_loop {endBB : Blk} {breaks : List BreakTarget} (hb : ∀ t ∈ breaks, t.In ts₀) :
    ∀ t ∈ ⟨endBB, none⟩ :: breaks, BreakTarget.In (endBB :: ts₀) t :=
  in_cons hb (List.subset_cons_self _ _) ⟨List.mem_cons_self, fun _ h => nomatch h⟩

theorem keepsBody_genStmt (hΓ : ({ Γ with scopes := [] } : Env).Chained) (fnName : String)
    {body : Stmt} {breaks : List BreakTarget} (hc : body.Chained) (hb : ∀ t ∈ breaks, t.In ts₀) :
    KeepsBody ts₀ fun t => genStmt Γ d fnName (t :: breaks) body := fun _ =>
  keeps_genStmt hΓ fnName body _ _ hc (in_loop hb)

mutual

theorem lowers_genStmt (hΓ : ({ Γ with scopes := [] } : Env).Chained) (fnName : String) :
    ∀ (s : Stmt) (breaks : List BreakTarget) (ts₀ : List Blk) (brk : Option Blk) (inLoop : Bool),
      s.Chained → (∀ t ∈ breaks, t.In ts₀) → Innermost breaks brk inLoop →
        Structured O Γ d base E k inLoop s →
          Lowers O base k ts₀ n (exec E n s) brk (genStmt Γ d fnName breaks s)
  | .block _ body, breaks, ts₀, brk, inLoop, hc, hb, hin, hs => by
      cases hc with
      | block hc =>
          cases hs with
          | block h =>
              exact lowers_inScope (lowers_genStmts hΓ fnName body breaks ts₀ brk inLoop hc hb hin h)
  | .expr _ e, _, _, _, _, hc, _, _, hs => by
      cases hc with
      | expr hc =>
          cases hs with
          | expr he => exact lowers_genExpr hΓ hc he
  | .ifS loc e body body2, breaks, ts₀, brk, inLoop, hc, hb, hin, hs => by
      cases hc with
      | ifS hce hc hc2 =>
          cases hs with
          | ifS he h h2 =>
              refine lowers_genIf hΓ loc hce he (keeps_genStmt hΓ fnName body breaks ts₀ hc hb)
                (lowers_genStmt hΓ fnName body breaks ts₀ brk inLoop hc hb hin h) ?_ ?_
              · intro x hx
                exact ⟨keeps_genElseStmt hΓ fnName body2 breaks ts₀ hc2 hb x hx,
                  lowers_genElseStmt hΓ fnName body2 breaks ts₀ brk inLoop hc2 hb hin h2 x hx⟩
              · intro hnone
                cases body2 with
                | none => rfl
                | some s => cases hnone
  | .whileS loc e body, breaks, ts₀, brk, inLoop, hc, hb, _, hs => by
      cases hc with
      | whileS hce hc =>
          cases hs with
          | whileS he h =>
              refine lowers_genWhile hΓ loc hce he (keepsBody_genStmt hΓ fnName hc hb) ?_
              exact fun endBB => lowers_genStmt hΓ fnName body _ _ _ true hc (in_loop hb)
                (innermost_cons endBB breaks) h
  | .doWhile loc e body, breaks, ts₀, brk, inLoop, hc, hb, _, hs => by
      cases hc with
      | doWhile hce hc =>
          cases hs with
          | doWhile he h =>
              refine lowers_genDoWhile hΓ loc hce he (keepsBody_genStmt hΓ fnName hc hb) ?_
              exact fun endBB => lowers_genStmt hΓ fnName body _ _ _ true hc (in_loop hb)
                (innermost_cons endBB breaks) h
  | .forS loc init e post body, breaks, ts₀, brk, inLoop, hc, hb, _, hs => by
      cases hc with
      | forS hcinit hce hcpost hc =>
          cases hs with
          | forS hinit he hpost h =>
              refine lowers_genFor hΓ loc hcinit hce hcpost hinit he hpost
                (keepsBody_genStmt hΓ fnName hc hb) ?_
              exact fun endBB => lowers_genStmt hΓ fnName body _ _ _ true hc (in_loop hb)
                (innermost_cons endBB breaks) h
  | .breakS loc, breaks, _, brk, inLoop, _, _, hin, hs => by
      cases hs with
      | breakS =>
          rcases hin rfl with ⟨b, rest, rfl, rfl⟩
          exact lowers_genBreak loc b rest
  | .returnS _ e, _, _, _, _, hc, _, _, hs => by
      cases hc with
      | returnS hc =>
          cases hs with
          | returnS he hval => exact lowers_genReturn hΓ hc he hval
  | .empty _, _, _, _, _, _, _, _, _ => lowers_pure _ _
  | .noWarn _, _, _, _, _, _, _, _, hs | .lock _ _, _, _, _, _, _, _, _, hs
  | .switchS _ _ _, _, _, _, _, _, _, _, hs | .caseS _ _, _, _, _, _, _, _, _, hs
  | .defaultS _, _, _, _, _, _, _, _, hs | .subStart _, _, _, _, _, _, _, _, hs
  | .subEnd _, _, _, _, _, _, _, _, hs | .gotoS _ _, _, _, _, _, _, _, _, hs
  | .labelS _ _, _, _, _, _, _, _, _, hs | .varDecl _ _ _, _, _, _, _, _, _, _, hs
  | .tryS _ _ _, _, _, _, _, _, _, _, hs => nomatch hs

theorem lowers_genElseStmt (hΓ : ({ Γ with scopes := [] } : Env).Chained) (fnName : String) :
    ∀ (s : Option Stmt) (breaks : List BreakTarget) (ts₀ : List Blk) (brk : Option Blk)
      (inLoop : Bool), (∀ s', s = some s' → s'.Chained) → (∀ t ∈ breaks, t.In ts₀) →
        Innermost breaks brk inLoop → (∀ s', s = some s' → Structured O Γ d base E k inLoop s') →
          ∀ x, genElseStmt Γ d fnName breaks s = some x →
            Lowers O base k ts₀ n (execElse E n s) brk x
  | none, _, _, _, _, _, _, _, _, _, hx => nomatch hx
  | some s, breaks, ts₀, brk, inLoop, hc, hb, hin, hs, _, hx => by
      rcases Option.some.inj hx with rfl
      exact lowers_genStmt hΓ fnName s breaks ts₀ brk inLoop (hc s rfl) hb hin (hs s rfl)

theorem lowers_genStmts (hΓ : ({ Γ with scopes := [] } : Env).Chained) (fnName : String) :
    ∀ (ss : List Stmt) (breaks : List BreakTarget) (ts₀ : List Blk) (brk : Option Blk)
      (inLoop : Bool), (∀ s ∈ ss, s.Chained) → (∀ t ∈ breaks, t.In ts₀) →
        Innermost breaks brk inLoop → (∀ s ∈ ss, Structured O Γ d base E k inLoop s) →
          Lowers O base k ts₀ n (execs E n ss) brk (genStmts Γ d fnName breaks ss)
  | [], _, _, _, _, _, _, _, _ => lowers_pure _ _
  | s :: ss, breaks, ts₀, brk, inLoop, hc, hb, hin, hs => by
      have hcs := hc s List.mem_cons_self
      refine .seq (keeps_genStmt hΓ fnName s breaks ts₀ hcs hb)
        (lowers_genStmt hΓ fnName s breaks ts₀ brk inLoop hcs hb hin (hs s List.mem_cons_self)) ?_
      exact lowers_genStmts hΓ fnName ss breaks ts₀ brk inLoop
        (fun s h => hc s (List.mem_cons_of_mem _ h)) hb hin fun s h => hs s (List.mem_cons_of_mem _ h)

end

end Rules

/-! ## Behaviour -/

/-- How a statement that is in no loop ends. -/
inductive Ending where
  | fall
  | ret

/-- How the meaning of a statement ends, if it does, and what is seen. -/
def Res.outcome : Res → Option Ending × St
  | .normal st => (some .fall, st)
  | .ret st => (some .ret, st)
  | .brk st | .timeout st => (none, st)

/-- How a run of the code ends: behind it, at `q`, or at a `ret`. -/
def EndsAt (l : Log) (q : Point) : Ending → EConfig → Prop
  | .fall, c => (c.1.blk, c.1.pos) = q
  | .ret, c => IsRet l (c.1.blk, c.1.pos)

/-- The code from `p` to `q` behaves as the statement: started with `st` seen, it ends as
`sem` does with some fuel, it stops nowhere else, and its calls are those of `sem`. -/
structure Behaves (O : Oracle) (T : Switches) (l : Log) (p q : Point) (sem : Nat → St → Res) :
    Prop where
  ends : ∀ prev ρ st r st', (∃ k c, After (eventStep O T l) k (Point.at p prev ρ st) c ∧
    EndsAt l q r c ∧ c.st = st') ↔ ∃ n, (sem n st).outcome = (some r, st')
  stops : ∀ prev ρ st k c, After (eventStep O T l) k (Point.at p prev ρ st) c →
    eventStep O T l c = none → ∃ r, EndsAt l q r c
  trace : ∀ prev ρ st es, (∃ k c, After (eventStep O T l) k (Point.at p prev ρ st) c ∧
    es <+: c.2) ↔ ∃ n, es <+: (sem n st).outcome.2.2

theorem ends_endsAt {O : Oracle} {T : Switches} {l : Log} {q : Point}
    (hq : (l.code q.1)[q.2]? = none) : Machine.Ends (eventStep O T l) (EndsAt l q) := by
  constructor
  case stop =>
    rintro (_ | _) c h
    · rcases h with rfl
      exact eventStep_end hq c.1.prev c.1.regs c.st
    · rcases h with ⟨v, hv⟩
      exact eventStep_ret hv c.1.prev c.1.regs c.st
  case unique =>
    have hne : ∀ c, EndsAt l q .fall c → EndsAt l q .ret c → False := by
      rintro c rfl ⟨v, hv⟩
      rw [hq] at hv
      cases hv
    rintro (_ | _) (_ | _) c h h'
    · rfl
    · exact (hne c h h').elim
    · exact (hne c h' h).elim
    · rfl

/-- Code that means a statement behaves as it. -/
theorem Means.behaves {O : Oracle} {T : Switches} {l : Log} {p q : Point} {sem : Nat → St → Res}
    (h : ∀ n, Means O T l n (sem n) none p q) (hq : (l.code q.1)[q.2]? = none) :
    Behaves O T l p q sem := by
  have hagrees : ∀ prev ρ st, Machine.Agrees (eventStep O T l) (EndsAt l q) EConfig.st
      (Point.at p prev ρ st) fun n => (sem n st).outcome := by
    intro prev ρ st n
    have hmet := h n st
    beta_reduce
    cases hres : sem n st with
    | normal st' =>
        rw [hres] at hmet
        rcases hmet prev ρ with ⟨k, prev', ρ', _, hrun⟩
        exact ⟨k, _, hrun, rfl, rfl⟩
    | brk st' =>
        rw [hres] at hmet
        rcases hmet with ⟨b, hb, _⟩
        cases hb
    | ret st' =>
        rw [hres] at hmet
        rcases hmet with ⟨r, hr, hg⟩
        rcases hg prev ρ with ⟨k, prev', ρ', _, hrun⟩
        exact ⟨k, _, hrun, rfl, hr⟩
    | timeout st' =>
        rw [hres] at hmet
        rcases hmet with ⟨r, hg⟩
        rcases hg prev ρ with ⟨k, prev', ρ', hk, hrun⟩
        exact ⟨k, _, hrun, rfl, hk⟩
  have hends := ends_endsAt (O := O) (T := T) hq
  constructor
  case ends => exact fun prev ρ st r st' => (hagrees prev ρ st).ends_iff hends r st'
  case stops =>
    intro prev ρ st k c hrun hstop
    rcases (hagrees prev ρ st).of_stop hends hrun hstop with ⟨r, _, hr⟩
    exact ⟨r, hr⟩
  case trace =>
    intro prev ρ st es
    exact (hagrees prev ρ st).trace_iff hends Prod.snd (fun _ _ => eventStep_events) es

/-- The code that is emitted for a statement of structured control behaves as the
statement. -/
theorem genStmt_behaves {O : Oracle} {Γ : Env} {d : Nat} {E : Sem} {fnName : String} {s : Stmt}
    {F F' : FnCtx} {ps ts : List Blk} (hΓ : ({ Γ with scopes := [] } : Env).Chained)
    (hc : s.Chained) (hs : Structured O Γ d F.scopes E F.retIsF64 false s)
    (hF : F.At ps ts true) (hx : genStmt Γ d fnName [] s F = .ok ((), F')) (T : Switches) :
    Behaves O T F'.b.log F.b.point F'.b.point fun n => exec E n s := by
  have hnil : ∀ t ∈ ([] : List BreakTarget), t.In [] := fun _ h => absurd h List.not_mem_nil
  refine Means.behaves (fun n => ?_) ?_
  · have hlow := lowers_genStmt (n := n) hΓ fnName s [] [] none false hc hnil
      (fun h => nomatch h) hs
    exact (hlow ps ts F F' (List.nil_subset _) hF ⟨rfl, 0, rfl⟩ hx).2 T
  · -- the code ends where the block is open
    exact List.getElem?_eq_none (Nat.le_refl _)

/-! ## Calls -/

/-- The code of a call by the name of a function without parameters. -/
theorem genExpr_call {Γ : Env} {d : Nat} {m : Node} {s name : String} {B : Builder}
    (hvar : Γ.lookupVar s = none)
    (hfunc : Γ.findFunc s = some ⟨some (.fn name), ⟨.i64, [], false⟩⟩) :
    (gen Γ (d + 1)).genExpr [] (.ident m s) B = .ok (⟨some (.reg (.int 64) B.nextReg), .i64⟩,
      ((B.push (.mark ⟨[], m.addr⟩)).push (.call (some B.nextReg) (.fn name) [])).bump) := by
  change genIdent Γ (gen Γ d) [] m s B = _
  unfold genIdent
  rw [hvar, hfunc]
  rfl

/-- A function without parameters that returns an `I64`, called by its name: what is seen is
the call, and the value is the answer. -/
theorem yields_call {O : Oracle} {Γ : Env} {d : Nat} {E : Sem} {m : Node} {s name : String}
    (hvar : Γ.lookupVar s = none)
    (hfunc : Γ.findFunc s = some ⟨some (.fn name), ⟨.i64, [], false⟩⟩)
    (hans : ∀ st : St, ∃ i M, O.answer st.2 (.int (O.world.fnAddr name)) [] st.1 =
      some (some (.int i), M) ∧
        E (.ident m s) st = (.int i, (M, st.2 ++ [⟨.int (O.world.fnAddr name), []⟩]))) :
    Yields O Γ (d + 1) E (.ident m s) := by
  intro T B rv B' _ hgen
  rcases Prod.mk.inj (Except.ok.inj (hgen.symm.trans (genExpr_call hvar hfunc))) with ⟨rfl, rfl⟩
  refine ⟨.reg (.int 64) B.nextReg, rfl, ?_⟩
  intro st
  rcases hans st with ⟨i, M, hanswer, hE⟩
  rw [hE]
  refine ⟨LTy.noConfusion, ?_⟩
  intro prev ρ
  let B₁ := B.push (.mark ⟨[], m.addr⟩)
  let B₂ := B₁.push (.call (some B.nextReg) (.fn name) [])
  have hmark : eventStep O T B₁.log (Point.at B.point prev ρ st) =
      some (Point.at B₁.point prev ρ st) := by
    rw [eventStep_push, point_push]
    change some (_, st.2 ++ []) = _
    rw [List.append_nil]
    rfl
  have hstep : eventStep O T B₂.log (Point.at B₁.point prev ρ st) =
      some (Point.at B₂.point prev (Function.update ρ B.nextReg (.int i))
        (M, st.2 ++ [⟨.int (O.world.fnAddr name), []⟩])) := by
    have hpoint : B₂.point = (B.cur, (B₁.code B.cur).length + 1) := point_push B₁ _
    rw [eventStep_push, hpoint]
    have hval : callVal (O.seen st.2) st.1 ρ (.fn name) [] = some (some (.int i), M) := by
      unfold callVal
      split
      · next h => cases h
      · next h => cases h
      · exact hanswer
    simp only [Instr.runIn, Instr.run, Point.at, List.map_nil, hval]
    rfl
  refine ⟨2, prev, Function.update ρ B.nextReg (.int i), ?_, Function.update_self ..⟩
  exact .succ (eventStep_extend (List.prefix_append _ _) hmark) (.single hstep)

/-- Functions `c` and `f` that answer with the number of earlier calls, modulo 3. -/
def callsOracle : Oracle where
  world := { World.still with fnAddr := fun s => if s = "f" then 8 else 16 }
  answer := fun es _ _ M => some (some (.int (BitVec.ofNat 64 (es.length % 3))), M)

def callsEnv : Env where
  funcs := [("c", ⟨some (.fn "c"), ⟨.i64, [], false⟩⟩), ("f", ⟨some (.fn "f"), ⟨.i64, [], false⟩⟩)]
  classFuel := 1

/-- What a call does. -/
def callsSem : Sem
  | .ident _ s, st => (.int (BitVec.ofNat 64 (st.2.length % 3)),
      (st.1, st.2 ++ [⟨.int (callsOracle.world.fnAddr s), []⟩]))
  | _, st => (.int 0, st)

/-- `while (c) { f; if (c) break; }` -/
def callsStmt : Stmt :=
  .whileS {} (.ident {} "c")
    (.block {} [.expr {} (.ident {} "f"), .ifS {} (.ident {} "c") (.breakS {}) none])

/-- Where its code begins, and where it ends. -/
def callsStart : FnCtx := beginFn ⟨.void, [], false⟩

/-- What a generator leaves, where it succeeds. -/
theorem eq_ok_snd {α ε : Type} {x : Except ε (Unit × α)} (h : x.toOption.isSome = true) (a : α) :
    x = .ok ((), (x.toOption.getD ((), a)).2) := by
  cases x with
  | error e => cases h
  | ok b => rfl

def callsEnd : FnCtx := ((genStmt callsEnv 3 "F" [] callsStmt callsStart).toOption.getD ((), {})).2

theorem callsEnv_chained : ({ callsEnv with scopes := [] } : Env).Chained where
  var := fun _ _ h => nomatch h
  func := by
    intro s f h
    rcases List.lookup_eq_some_iff.mp h with ⟨l₁, l₂, heq, _⟩
    have hmem : (s, f) ∈ callsEnv.funcs := heq ▸ List.mem_append_right _ List.mem_cons_self
    have hf : f.type = ⟨.i64, [], false⟩ := by
      rcases List.mem_cons.mp hmem with heq | hmem
      · rw [(Prod.mk.inj heq).2]
      · rw [(Prod.mk.inj (List.mem_singleton.mp hmem)).2]
    rw [hf]
    exact ⟨chained_i64, fun _ h => absurd h List.not_mem_nil, fun _ h => absurd h List.not_mem_nil⟩
  member := fun _ _ h => absurd h List.not_mem_nil
  whole := fun _ _ h => nomatch h

/-- No variable is in scope. -/
theorem callsEnv_lookupVar {scopes : List (List (String × VarSym))}
    (h : ∃ j, scopes = List.replicate j [] ++ callsStart.scopes) (s : String) :
    ({ callsEnv with scopes := scopes } : Env).lookupVar s = none := by
  rcases h with ⟨j, rfl⟩
  have hnone : (List.replicate j [] ++ callsStart.scopes).findSome?
      (fun sc : List (String × VarSym) => sc.lookup s) = none := by
    refine List.findSome?_eq_none_iff.mpr ?_
    intro sc hsc
    rcases List.mem_append.mp hsc with hsc | hsc
    · rw [List.eq_of_mem_replicate hsc]
      rfl
    · rw [List.mem_singleton.mp hsc]
      rfl
  unfold Env.lookupVar
  rw [hnone]
  rfl

theorem callsStmt_gives {s : String} (hs : s = "c" ∨ s = "f") :
    Gives callsOracle callsEnv 3 callsStart.scopes callsSem (.ident {} s) := by
  intro j
  have hans : ∀ st : St, ∃ i M, callsOracle.answer st.2 (.int (callsOracle.world.fnAddr s)) []
      st.1 = some (some (.int i), M) ∧ callsSem (.ident {} s) st =
        (.int i, (M, st.2 ++ [⟨.int (callsOracle.world.fnAddr s), []⟩])) :=
    fun st => ⟨_, st.1, rfl, rfl⟩
  rcases hs with rfl | rfl
  · exact yields_call (callsEnv_lookupVar ⟨j, rfl⟩ _) rfl hans
  · exact yields_call (callsEnv_lookupVar ⟨j, rfl⟩ _) rfl hans

theorem callsStmt_structured : Structured callsOracle callsEnv 3 callsStart.scopes callsSem
    callsStart.retIsF64 false callsStmt := by
  refine .whileS (callsStmt_gives (.inl rfl)) (.block ?_)
  intro s hs
  rcases List.mem_cons.mp hs with rfl | hs
  · exact .expr fun j => (callsStmt_gives (.inr rfl) j).acts
  · rcases List.mem_singleton.mp hs with rfl
    exact .ifS (callsStmt_gives (.inl rfl)) (.breakS _) fun _ h => nomatch h

theorem callsStmt_chained : callsStmt.Chained := by
  refine .whileS (.ident _ _) (.block ?_)
  intro s hs
  rcases List.mem_cons.mp hs with rfl | hs
  · exact .expr (.ident _ _)
  · rcases List.mem_singleton.mp hs with rfl
    exact .ifS (.ident _ _) (.breakS _) fun _ h => nomatch h

theorem genStmt_behaves_calls :
    Behaves callsOracle (fun _ _ => none) callsEnd.b.log callsStart.b.point callsEnd.b.point
      fun n => exec callsSem n callsStmt := by
  have hsome : (genStmt callsEnv 3 "F" [] callsStmt callsStart).toOption.isSome = true := by
    decide +kernel
  have hgen : genStmt callsEnv 3 "F" [] callsStmt callsStart = .ok ((), callsEnd) := by
    rw [callsEnd]
    exact eq_ok_snd hsome _
  exact genStmt_behaves callsEnv_chained callsStmt_chained callsStmt_structured
    (at_beginFn _) hgen _

end Hlang.Codegen
