import Hlang.Codegen.Control
import Hlang.Codegen.Constant

/-!
# Hlang.Codegen.Effect — generators of code with effects

`Flows` is a run between two points that keeps the results known where it begins. A generator
works (`Works`) when it yields a value in every state of the builder, without a diagnostic,
and its code does to what is seen what a function says. `Turns` and `Turns₂` say of helpers
that take values that their code has no effects; they compose.
-/

namespace Hlang.Codegen

open Ir Gen Machine

section Flows

variable (O : Oracle) (T : Switches) (l : Log)

/-- From `p`, with the registers `ρ` and `st` seen, the code goes to `p'`, where `st'` is
seen. It keeps the results below `n`, and `Q` holds of the block it comes from and of the
registers. -/
def Flows (n : Reg) (p : Point) (prev : Blk) (ρ : Regs) (st : St) (p' : Point) (st' : St)
    (Q : Blk → Regs → Prop) : Prop :=
  ∃ k prev' ρ', After (eventStep O T l) k (Point.at p prev ρ st) (Point.at p' prev' ρ' st') ∧
    (∀ r, r < n → ρ' r = ρ r) ∧ Q prev' ρ'

variable {O : Oracle} {T : Switches} {l l' : Log} {n n' : Reg} {p q r : Point} {prev prev' : Blk}
  {ρ ρ' : Regs} {st st' st'' : St} {Q S : Blk → Regs → Prop}

theorem Flows.refl (p : Point) (st : St) (h : Q prev ρ) : Flows O T l n p prev ρ st p st Q :=
  ⟨0, prev, ρ, .zero _, fun _ _ => rfl, h⟩

theorem Flows.step (hstep : eventStep O T l (Point.at p prev ρ st) =
    some (Point.at q prev' ρ' st')) (hregs : ∀ r, r < n → ρ' r = ρ r) (h : Q prev' ρ') :
    Flows O T l n p prev ρ st q st' Q := ⟨1, prev', ρ', .single hstep, hregs, h⟩

theorem Flows.trans (h : Flows O T l n p prev ρ st q st' Q) (hn : n ≤ n')
    (h' : ∀ prev' ρ', (∀ r, r < n → ρ' r = ρ r) → Q prev' ρ' →
      Flows O T l n' q prev' ρ' st' r st'' S) : Flows O T l n p prev ρ st r st'' S := by
  rcases h with ⟨k, prev', ρ', hrun, hregs, hQ⟩
  rcases h' prev' ρ' hregs hQ with ⟨k', prev'', ρ'', hrun', hregs', hS⟩
  refine ⟨k + k', prev'', ρ'', hrun.trans hrun', ?_, hS⟩
  intro r hr
  exact (hregs' r (Nat.lt_of_lt_of_le hr hn)).trans (hregs r hr)

theorem Flows.extend (h : Flows O T l n p prev ρ st q st' Q) (hl : l <+: l') :
    Flows O T l' n p prev ρ st q st' Q := by
  rcases h with ⟨k, prev', ρ', hrun, hregs, hQ⟩
  exact ⟨k, prev', ρ', hrun.mono fun _ _ => eventStep_extend hl, hregs, hQ⟩

theorem Flows.weaken (h : Flows O T l n p prev ρ st q st' Q) (hQ : ∀ prev ρ, Q prev ρ → S prev ρ) :
    Flows O T l n p prev ρ st q st' S := by
  rcases h with ⟨k, prev', ρ', hrun, hregs, h⟩
  exact ⟨k, prev', ρ', hrun, hregs, hQ _ _ h⟩

end Flows

/-- A run of what was appended from `B` to `B'`. -/
def Carries (O : Oracle) (T : Switches) (B B' : Builder) (prev : Blk) (ρ : Regs) (st st' : St)
    (Q : Regs → Prop) : Prop :=
  Flows O T B'.log B.nextReg B.point prev ρ st B'.point st' fun _ => Q

section Carries

variable {O : Oracle} {T : Switches} {B B' B'' : Builder} {prev : Blk} {ρ : Regs}
  {st st' st'' : St} {Q S : Regs → Prop}

theorem Carries.trans (h : Carries O T B B' prev ρ st st' Q) (hle : B.Le B') (hle' : B'.Le B'')
    (h' : ∀ prev' ρ', (∀ r, r < B.nextReg → ρ' r = ρ r) → Q ρ' →
      Carries O T B' B'' prev' ρ' st' st'' S) : Carries O T B B'' prev ρ st st'' S :=
  Flows.trans (Flows.extend h hle'.log) hle.reg h'

/-- An instruction that computes a value from registers. -/
theorem Carries.created {o : Op} {x : Val} (ho : o.eval (O.seen st.2) ρ st.1 = some x) :
    Carries O T B (B.created o) prev ρ st st
      fun ρ' => (Value.reg o.type B.nextReg).eval O.world ρ' = x := by
  refine ⟨1, prev, Function.update ρ B.nextReg x, .single ?_, ?_, ?_⟩
  · have hpoint : (B.created o).point = (B.cur, (B.code B.cur).length + 1) := point_push B _
    change eventStep O T (B.push (.op B.nextReg o)).log _ = _
    rw [eventStep_push, hpoint]
    change ((o.eval (O.seen st.2) ρ st.1).map _).map _ = _
    rw [ho]
    change some (_, st.2 ++ []) = _
    rw [List.append_nil]
    rfl
  · intro r hr
    exact Function.update_of_ne (Nat.ne_of_lt hr) _ _
  · exact Function.update_self ..

/-- The instruction that ends a block stands where its code ended. -/
theorem code_leave (B : Builder) (i : Instr) (n : Nat) (b : Blk) :
    ((B.leave i n b).log.code B.point.1)[B.point.2]? = some i := by
  have hcode : (B.leave i n b).log.code B.cur = B.code B.cur ++ [i] := B.code_push_self i
  change ((B.leave i n b).log.code B.cur)[(B.code B.cur).length]? = some i
  rw [hcode, List.getElem?_append_right (Nat.le_refl _), Nat.sub_self]
  rfl

/-- The insertion point in a block without code. -/
theorem point_empty (hempty : B.code B.cur = []) : B.point = (B.cur, 0) := by
  unfold Builder.point
  rw [hempty]
  rfl

/-- A phi, at the beginning of its block, takes the value of the block the run comes from. -/
theorem flows_phi {incoming : List (Value × Blk)} {e : Value × Blk} (hempty : B.code B.cur = [])
    (he : incoming.find? (·.2 = e.2) = some e) {x : Val} (hx : e.1.eval O.world ρ = x) :
    Flows O T (B.joined incoming).log B.nextReg (B.cur, 0) e.2 ρ st (B.joined incoming).point st
      fun _ ρ' => (Value.reg (.int 64) B.nextReg).eval O.world ρ' = x := by
  refine ⟨1, e.2, Function.update ρ B.nextReg x, .single ?_, ?_, Function.update_self ..⟩
  · have hpoint : B.point = (B.cur, 0) := point_empty hempty
    have hpoint' : (B.joined incoming).point = (B.cur, 1) := by
      have hpush : (B.push (.phi B.nextReg incoming)).point = _ := point_push B _
      rw [hempty] at hpush
      exact hpush
    have hstep := eventStep_push (O := O) (T := T) B (.phi B.nextReg incoming) e.2 ρ st
    rw [hpoint] at hstep
    change eventStep O T (B.push (.phi B.nextReg incoming)).log _ = _
    rw [hstep, hpoint']
    change ((incoming.find? (·.2 = e.2)).map _).map _ = _
    rw [he]
    change some (_, st.2 ++ []) = _
    rw [List.append_nil]
    change some ((⟨B.cur, 1, e.2, Function.update ρ B.nextReg (e.1.eval (O.seen st.2) ρ), st.1⟩ :
      Config), st.2) = _
    rw [O.eval_seen, hx]
    rfl
  · intro r hr
    exact Function.update_of_ne (Nat.ne_of_lt hr) _ _

/-- A pending block stays pending. -/
theorem Builder.Le.pending (h : B.Le B') {b : Blk} (hb : B.Pending b) : B'.Pending b := by
  constructor
  case lt => exact Nat.lt_of_lt_of_le hb.lt h.blk
  case code =>
    rw [h.kept b hb.lt hb.ne]
    exact hb.code
  case ne =>
    rcases h.cur with hcur | hcur
    · rw [hcur]
      exact hb.ne
    · exact Nat.ne_of_lt (Nat.lt_of_lt_of_le hb.lt hcur)

/-- So it does when the code goes on in a new block. -/
theorem Builder.Pending.leave {b : Blk} (hb : B.Pending b) (i : Instr) :
    (B.leave i 1 B.nextBlk).Pending b := by
  constructor
  case lt => exact Nat.lt_succ_of_lt hb.lt
  case code =>
    rw [Builder.code_leave_other hb.ne]
    exact hb.code
  case ne => exact Nat.ne_of_lt hb.lt

/-- A value the builder knows is the same behind the run. -/
theorem eval_kept {n : Reg} {ρ ρ' : Regs} {v : Value} {x : Val} (hv : v.Below n)
    (hregs : ∀ r, r < n → ρ' r = ρ r) (hx : v.eval O.world ρ = x) : v.eval O.world ρ' = x :=
  (Value.eval_congr hv hregs).trans hx

end Carries

/-! ## Generators -/

section Works

variable {α β : Type}

/-- In every state `x` yields `r v`, where `v` is a value of the type `ty`, and its code does
what `f` says: the value, and what is seen afterwards. -/
structure Works (O : Oracle) (x : Gen α) (r : Value → α) (ty : LTy) (f : St → Val × St) :
    Prop where
  fits : ∀ st, (f st).1.Fits ty
  runs : ∀ B : Builder, B.Wf → ∃ v B', x B = .ok (r v, B') ∧ Leaves B B' v ty ∧
    ∀ T prev ρ st, Carries O T B B' prev ρ st (f st).2 fun ρ' => v.eval O.world ρ' = (f st).1

/-- `f` takes a value and yields one, its value under `F`, without effects. -/
structure Turns (O : Oracle) (f : Value → Gen α) (r : Value → α) (ty ty' : LTy) (F : Val → Val) :
    Prop where
  fits : ∀ x, x.Fits ty → (F x).Fits ty'
  runs : ∀ (B : Builder) (v : Value), B.Wf → v.Below B.nextReg → v.type = ty →
    ∃ w B', f v B = .ok (r w, B') ∧ Leaves B B' w ty' ∧
      ∀ T prev ρ st x, x.Fits ty → v.eval O.world ρ = x →
        Carries O T B B' prev ρ st st fun ρ' => w.eval O.world ρ' = F x

/-- `f` takes two values and yields one, their value under `F`, without effects. -/
structure Turns₂ (O : Oracle) (f : Value → Value → Gen α) (r : Value → α) (tx ty ty' : LTy)
    (F : Val → Val → Val) : Prop where
  fits : ∀ x y, x.Fits tx → y.Fits ty → (F x y).Fits ty'
  runs : ∀ (B : Builder) (v w : Value), B.Wf → v.Below B.nextReg → v.type = tx →
    w.Below B.nextReg → w.type = ty → ∃ z B', f v w B = .ok (r z, B') ∧ Leaves B B' z ty' ∧
      ∀ T prev ρ st x y, x.Fits tx → y.Fits ty → v.eval O.world ρ = x → w.eval O.world ρ = y →
        Carries O T B B' prev ρ st st fun ρ' => z.eval O.world ρ' = F x y

variable {O : Oracle} {r : Value → α} {r' : Value → β} {tx ty ty' ty'' : LTy}
  {f g : St → Val × St} {F G : Val → Val}

theorem Works.congr {x : Gen α} (h : Works O x r ty f) (hfg : ∀ st, g st = f st) :
    Works O x r ty g := by
  rcases funext hfg with rfl
  exact h

theorem Turns.create {mk : Value → Op} (hfits : ∀ x, x.Fits ty → (F x).Fits ty')
    (htype : ∀ v, v.type = ty → (mk v).type = ty')
    (hF : ∀ es ρ m v x, v.type = ty → x.Fits ty → v.eval O.world ρ = x →
      (mk v).eval (O.seen es) ρ m = some (F x)) :
    Turns O (fun v => Gen.create (mk v)) id ty ty' F := by
  refine ⟨hfits, ?_⟩
  intro B v hB _ hv
  have hleaves := Leaves.created hB (mk v)
  rw [htype v hv] at hleaves
  refine ⟨_, _, rfl, ?_, ?_⟩
  · rw [htype v hv]
    exact hleaves
  · intro T prev ρ st x hx heval
    exact .created (hF st.2 ρ st.1 v x hv hx heval)

theorem Turns₂.create {mk : Value → Value → Op} {F : Val → Val → Val}
    (hfits : ∀ x y, x.Fits tx → y.Fits ty → (F x y).Fits ty')
    (htype : ∀ v w, v.type = tx → w.type = ty → (mk v w).type = ty')
    (hF : ∀ es ρ m v w x y, x.Fits tx → y.Fits ty → v.eval O.world ρ = x →
      w.eval O.world ρ = y → (mk v w).eval (O.seen es) ρ m = some (F x y)) :
    Turns₂ O (fun v w => Gen.create (mk v w)) id tx ty ty' F := by
  refine ⟨hfits, ?_⟩
  intro B v w hB _ hv _ hw
  have hleaves := Leaves.created hB (mk v w)
  rw [htype v w hv hw] at hleaves
  refine ⟨_, _, rfl, ?_, ?_⟩
  · rw [htype v w hv hw]
    exact hleaves
  · intro T prev ρ st x y hx hy heval heval'
    exact .created (hF st.2 ρ st.1 v w x y hx hy heval heval')

theorem Turns.pure : Turns O pure id ty ty id := by
  refine ⟨fun _ => id, ?_⟩
  intro B v hB hv htype
  exact ⟨v, B, rfl, ⟨.refl B, hB, hv, htype, rfl⟩, fun T prev ρ st x _ heval => .refl _ st heval⟩

/-- A helper may be replaced by one that does the same on values of the type. -/
theorem Turns.congr {x y : Value → Gen α} (h : Turns O x r ty ty' F)
    (hxy : ∀ v, v.type = ty → y v = x v) : Turns O y r ty ty' F := by
  refine ⟨h.fits, ?_⟩
  intro B v hB hv htype
  rw [hxy v htype]
  exact h.runs B v hB hv htype

theorem Turns₂.congr {x y : Value → Value → Gen α} {F : Val → Val → Val}
    (h : Turns₂ O x r tx ty ty' F)
    (hxy : ∀ v w, v.type = tx → w.type = ty → y v w = x v w) : Turns₂ O y r tx ty ty' F := by
  refine ⟨h.fits, ?_⟩
  intro B v w hB hv htx hw hty
  rw [hxy v w htx hty]
  exact h.runs B v w hB hv htx hw hty

/-- A helper applied to a value that was computed. -/
theorem Works.bind {x : Gen α} {h : α → Gen β} (hx : Works O x r ty f)
    (hh : Turns O (fun v => h (r v)) r' ty ty' F) :
    Works O (x >>= h) r' ty' fun st => (F (f st).1, (f st).2) := by
  refine ⟨fun st => hh.fits _ (hx.fits st), ?_⟩
  intro B hB
  rcases hx.runs B hB with ⟨v, B₁, heq, hl, hrun⟩
  rcases hh.runs B₁ v hl.wf hl.below hl.type with ⟨w, B₂, heq', hl', hrun'⟩
  refine ⟨w, B₂, (Gen.bind_ok heq).trans heq', hl.trans hl', ?_⟩
  intro T prev ρ st
  refine (hrun T prev ρ st).trans hl.le hl'.le ?_
  intro prev' ρ' _ hv
  exact hrun' T prev' ρ' _ _ (hx.fits st) hv

theorem Turns.bind {x : Value → Gen Value} {y : Value → Gen β} (hx : Turns O x id ty ty' F)
    (hy : Turns O y r' ty' ty'' G) : Turns O (fun v => x v >>= y) r' ty ty'' fun v => G (F v) := by
  refine ⟨fun v hv => hy.fits _ (hx.fits v hv), ?_⟩
  intro B v hB hv htype
  rcases hx.runs B v hB hv htype with ⟨w, B₁, heq, hl, hrun⟩
  rcases hy.runs B₁ w hl.wf hl.below hl.type with ⟨z, B₂, heq', hl', hrun'⟩
  refine ⟨z, B₂, (Gen.bind_ok heq).trans heq', hl.trans hl', ?_⟩
  intro T prev ρ st a ha heval
  refine (hrun T prev ρ st a ha heval).trans hl.le hl'.le ?_
  intro prev' ρ' _ hw
  exact hrun' T prev' ρ' st _ (hx.fits a ha) hw

/-- One computation after the other; the first value is kept while the second one is
computed. -/
theorem Works.bind₂ {x y : Gen α} {s : Value → α} {h : α → α → Gen β} {F : Val → Val → Val}
    (hx : Works O x r tx f) (hy : Works O y s ty g)
    (hh : Turns₂ O (fun v w => h (r v) (s w)) r' tx ty ty' F) :
    Works O (x >>= fun a => y >>= fun c => h a c) r' ty' fun st =>
      (F (f st).1 (g (f st).2).1, (g (f st).2).2) := by
  refine ⟨fun st => hh.fits _ _ (hx.fits st) (hy.fits _), ?_⟩
  intro B hB
  rcases hx.runs B hB with ⟨v, B₁, heq, hl, hrun⟩
  rcases hy.runs B₁ hl.wf with ⟨w, B₂, heq', hl', hrun'⟩
  have hbelow := hl.below.mono hl'.le.reg
  rcases hh.runs B₂ v w hl'.wf hbelow hl.type hl'.below hl'.type with ⟨z, B₃, heq'', hl'', hrun''⟩
  refine ⟨z, B₃, (Gen.bind_ok heq).trans ((Gen.bind_ok heq').trans heq''),
    (hl.trans hl').trans hl'', ?_⟩
  intro T prev ρ st
  refine (hrun T prev ρ st).trans hl.le (hl'.trans hl'').le ?_
  intro prev₁ ρ₁ _ hv
  refine (hrun' T prev₁ ρ₁ (f st).2).trans hl'.le hl''.le ?_
  intro prev₂ ρ₂ hregs hw
  exact hrun'' T prev₂ ρ₂ _ _ _ (hx.fits st) (hy.fits _) (eval_kept hl.below hregs hv) hw

/-- A helper applied to two values, each of which is turned first. -/
theorem Turns.bind₂ {x y : Value → Gen Value} {h : Value → Value → Gen β} {tx' : LTy}
    {F' : Val → Val → Val} (hx : Turns O x id tx tx' F) (hy : Turns O y id ty ty' G)
    (hh : Turns₂ O h r' tx' ty' ty'' F') :
    Turns₂ O (fun v w => x v >>= fun a => y w >>= fun c => h a c) r' tx ty ty''
      fun v w => F' (F v) (G w) := by
  refine ⟨fun v w hv hw => hh.fits _ _ (hx.fits v hv) (hy.fits w hw), ?_⟩
  intro B v w hB hv htv hw htw
  rcases hx.runs B v hB hv htv with ⟨a, B₁, heq, hl, hrun⟩
  rcases hy.runs B₁ w hl.wf (hw.mono hl.le.reg) htw with ⟨c, B₂, heq', hl', hrun'⟩
  have hbelow := hl.below.mono hl'.le.reg
  rcases hh.runs B₂ a c hl'.wf hbelow hl.type hl'.below hl'.type with ⟨z, B₃, heq'', hl'', hrun''⟩
  refine ⟨z, B₃, (Gen.bind_ok heq).trans ((Gen.bind_ok heq').trans heq''),
    (hl.trans hl').trans hl'', ?_⟩
  intro T prev ρ st i j hi hj hiv hjw
  refine (hrun T prev ρ st i hi hiv).trans hl.le (hl'.trans hl'').le ?_
  intro prev₁ ρ₁ hregs ha
  refine (hrun' T prev₁ ρ₁ st j hj (eval_kept hw hregs hjw)).trans hl'.le hl''.le ?_
  intro prev₂ ρ₂ hregs' hc
  exact hrun'' T prev₂ ρ₂ st _ _ (hx.fits i hi) (hy.fits j hj) (eval_kept hl.below hregs' ha) hc

theorem Turns₂.andThen {x : Value → Value → Gen Value} {y : Value → Gen β} {F : Val → Val → Val}
    (hx : Turns₂ O x id tx ty ty' F) (hy : Turns O y r' ty' ty'' G) :
    Turns₂ O (fun v w => x v w >>= y) r' tx ty ty'' fun v w => G (F v w) := by
  refine ⟨fun v w hv hw => hy.fits _ (hx.fits v w hv hw), ?_⟩
  intro B v w hB hv htv hw htw
  rcases hx.runs B v w hB hv htv hw htw with ⟨z, B₁, heq, hl, hrun⟩
  rcases hy.runs B₁ z hl.wf hl.below hl.type with ⟨u, B₂, heq', hl', hrun'⟩
  refine ⟨u, B₂, (Gen.bind_ok heq).trans heq', hl.trans hl', ?_⟩
  intro T prev ρ st i j hi hj hiv hjw
  refine (hrun T prev ρ st i j hi hj hiv hjw).trans hl.le hl'.le ?_
  intro prev' ρ' _ hz
  exact hrun' T prev' ρ' st _ (hx.fits i j hi hj) hz

/-- A result that is wrapped. -/
theorem Turns.wrap {x : Value → Gen Value} (h : Turns O x id ty ty' F) (s : Value → β) :
    Turns O (fun v => x v >>= fun w => Pure.pure (s w)) s ty ty' F := by
  refine ⟨h.fits, ?_⟩
  intro B v hB hv htype
  rcases h.runs B v hB hv htype with ⟨w, B', heq, hl, hrun⟩
  exact ⟨w, B', Gen.bind_ok heq, hl, hrun⟩

theorem Turns₂.wrap {x : Value → Value → Gen Value} {F : Val → Val → Val}
    (h : Turns₂ O x id tx ty ty' F) (s : Value → β) :
    Turns₂ O (fun v w => x v w >>= fun z => Pure.pure (s z)) s tx ty ty' F := by
  refine ⟨h.fits, ?_⟩
  intro B v w hB hv htv hw htw
  rcases h.runs B v w hB hv htv hw htw with ⟨z, B', heq, hl, hrun⟩
  exact ⟨z, B', Gen.bind_ok heq, hl, hrun⟩

end Works

end Hlang.Codegen
