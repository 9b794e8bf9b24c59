import Hlang.Codegen.Effect

/-!
# Hlang.Codegen.Stores — generators that load and store

`Alters` and `Alters₂` say of helpers that take values what their code does to what is seen; with
`Turns` and `Turns₂` they compose to generators that work.
-/

namespace Hlang.Codegen

open Ir Gen Machine

section Alters

variable {α β : Type}

/-- `f` takes a value and yields one; its code does what `F` says of the value. -/
structure Alters (O : Oracle) (f : Value → Gen α) (r : Value → α) (ty ty' : LTy)
    (F : Val → St → Val × St) : Prop where
  fits : ∀ x st, x.Fits ty → (F x st).1.Fits ty'
  runs : ∀ (B : Builder) (v : Value), B.Wf → v.Below B.nextReg → v.type = ty →
    ∃ w B', f v B = .ok (r w, B') ∧ Leaves B B' w ty' ∧
      ∀ T prev ρ st x, x.Fits ty → v.eval O.world ρ = x →
        Carries O T B B' prev ρ st (F x st).2 fun ρ' => w.eval O.world ρ' = (F x st).1

/-- `f` takes two values and yields one; its code does what `F` says of them. -/
structure Alters₂ (O : Oracle) (f : Value → Value → Gen α) (r : Value → α) (tx ty ty' : LTy)
    (F : Val → Val → St → Val × St) : Prop where
  fits : ∀ x y st, x.Fits tx → y.Fits ty → (F x y st).1.Fits ty'
  runs : ∀ (B : Builder) (v w : Value), B.Wf → v.Below B.nextReg → v.type = tx →
    w.Below B.nextReg → w.type = ty → ∃ z B', f v w B = .ok (r z, B') ∧ Leaves B B' z ty' ∧
      ∀ T prev ρ st x y, x.Fits tx → y.Fits ty → v.eval O.world ρ = x → w.eval O.world ρ = y →
        Carries O T B B' prev ρ st (F x y st).2 fun ρ' => z.eval O.world ρ' = (F x y st).1

variable {O : Oracle} {r : Value → α} {r' : Value → β} {tx ty ty' ty'' : LTy}
  {f g : St → Val × St} {F G : Val → St → Val × St}

/-- A generator whose value is used. -/
theorem Works.act {x : Gen α} {h : α → Gen β} (hx : Works O x r ty f)
    (hh : Alters O (fun v => h (r v)) r' ty ty' F) :
    Works O (x >>= h) r' ty' fun st => F (f st).1 (f st).2 := by
  refine ⟨fun st => hh.fits _ _ (hx.fits st), ?_⟩
  intro B hB
  rcases hx.runs B hB with ⟨v, B₁, heq, hl, hrun⟩
  rcases hh.runs B₁ v hl.wf hl.below hl.type with ⟨w, B₂, heq', hl', hrun'⟩
  refine ⟨w, B₂, (Gen.bind_ok heq).trans heq', hl.trans hl', ?_⟩
  intro T prev ρ st
  refine (hrun T prev ρ st).trans hl.le hl'.le ?_
  intro prev' ρ' _ hv
  exact hrun' T prev' ρ' _ _ (hx.fits st) hv

/-- Two generators, one after the other, whose values are used. -/
theorem Works.act₂ {x : Gen α} {γ : Type} {y : Gen γ} {s : Value → γ} {h : α → γ → Gen β}
    {F : Val → Val → St → Val × St} (hx : Works O x r tx f) (hy : Works O y s ty g)
    (hh : Alters₂ O (fun v w => h (r v) (s w)) r' tx ty ty' F) :
    Works O (x >>= fun a => y >>= fun c => h a c) r' ty' fun st =>
      F (f st).1 (g (f st).2).1 (g (f st).2).2 := by
  refine ⟨fun st => hh.fits _ _ _ (hx.fits st) (hy.fits _), ?_⟩
  intro B hB
  rcases hx.runs B hB with ⟨v, B₁, heq, hl, hrun⟩
  rcases hy.runs B₁ hl.wf with ⟨w, B₂, heq', hl', hrun'⟩
  have hbelow := hl.below.mono hl'.le.reg
  rcases hh.runs B₂ v w hl'.wf hbelow hl.type hl'.below hl'.type with ⟨z, B₃, heq'', hl'', hrun''⟩
  refine ⟨z, B₃, (Gen.bind_ok heq).trans ((Gen.bind_ok heq').trans heq''),
    (hl.trans hl').trans hl'', ?_⟩
  intro T prev ρ st
  refine (hrun T prev ρ st).trans hl.le (hl'.trans hl'').le ?_
  intro prev₁ ρ₁ _ hv
  refine (hrun' T prev₁ ρ₁ (f st).2).trans hl'.le hl''.le ?_
  intro prev₂ ρ₂ hregs hw
  exact hrun'' T prev₂ ρ₂ _ _ _ (hx.fits st) (hy.fits _) (eval_kept hl.below hregs hv) hw

/-- A helper without effects after one with effects. -/
theorem Alters.turn {x : Value → Gen Value} {y : Value → Gen β} {G : Val → Val}
    (hx : Alters O x id ty ty' F) (hy : Turns O y r' ty' ty'' G) :
    Alters O (fun v => x v >>= y) r' ty ty'' fun v st => (G (F v st).1, (F v st).2) := by
  refine ⟨fun v st hv => hy.fits _ (hx.fits v st hv), ?_⟩
  intro B v hB hv htype
  rcases hx.runs B v hB hv htype with ⟨w, B₁, heq, hl, hrun⟩
  rcases hy.runs B₁ w hl.wf hl.below hl.type with ⟨z, B₂, heq', hl', hrun'⟩
  refine ⟨z, B₂, (Gen.bind_ok heq).trans heq', hl.trans hl', ?_⟩
  intro T prev ρ st a ha heval
  refine (hrun T prev ρ st a ha heval).trans hl.le hl'.le ?_
  intro prev' ρ' _ hw
  exact hrun' T prev' ρ' _ _ (hx.fits a st ha) hw

theorem Alters.congr {x y : Value → Gen α} (h : Alters O x r ty ty' F)
    (hxy : ∀ v, v.type = ty → y v = x v) : Alters O y r ty ty' F := by
  refine ⟨h.fits, ?_⟩
  intro B v hB hv htype
  rw [hxy v htype]
  exact h.runs B v hB hv htype

/-- A helper without effects. -/
theorem Turns₂.alters {x : Value → Value → Gen α} {F : Val → Val → Val}
    (h : Turns₂ O x r tx ty ty' F) : Alters₂ O x r tx ty ty' fun v w st => (F v w, st) := by
  refine ⟨fun v w _ hv hw => h.fits v w hv hw, ?_⟩
  intro B v w hB hv htv hw htw
  rcases h.runs B v w hB hv htv hw htw with ⟨z, B', heq, hl, hrun⟩
  exact ⟨z, B', heq, hl, hrun⟩

/-- A value that the builder knows without code. -/
theorem Works.pure {v : Value} {x : Val} (hbelow : ∀ n, v.Below n) (htype : v.type = ty)
    (hfits : x.Fits ty) (hx : ∀ ρ, v.eval O.world ρ = x) :
    Works O (Pure.pure (r v)) r ty fun st => (x, st) := by
  refine ⟨fun _ => hfits, ?_⟩
  intro B hB
  exact ⟨v, B, rfl, ⟨.refl B, hB, hbelow _, htype, rfl⟩, fun T prev ρ st => .refl _ st (hx ρ)⟩

end Alters

/-! ## Instructions -/

section Instructions

variable {O : Oracle} {T : Switches} {B : Builder} {prev : Blk} {ρ : Regs} {st st' : St}
  {Q : Regs → Prop}

/-- An instruction without a result. -/
theorem Carries.pushed {i : Instr} {m : Mem}
    (hrun : i.run (O.seen st.2) ⟨B.cur, (B.code B.cur).length, prev, ρ, st.1⟩ =
      some ⟨B.cur, (B.code B.cur).length + 1, prev, ρ, m⟩)
    (hevent : i.event? O.world ρ = none) (hswitch : ∀ n v, i ≠ .switch n v) (h : Q ρ) :
    Carries O T B (B.push i) prev ρ st (m, st.2) Q := by
  refine ⟨1, prev, ρ, .single ?_, fun _ _ => rfl, h⟩
  rw [eventStep_push, point_push]
  have hmap : Instr.runIn O T (Point.at B.point prev ρ st) i =
      (i.run (O.seen st.2) ⟨B.cur, (B.code B.cur).length, prev, ρ, st.1⟩).map fun c =>
        (c, st.2 ++ (i.event? O.world ρ).toList) := by
    cases i with
    | switch n v => exact absurd rfl (hswitch n v)
    | _ => rfl
  rw [hmap, hrun, hevent]
  change some (_, st.2 ++ []) = _
  rw [List.append_nil]
  rfl

/-- A mark. -/
theorem Carries.marked {n : Site} (h : Q ρ) : Carries O T B (B.push (.mark n)) prev ρ st st Q :=
  Carries.pushed rfl rfl (fun _ _ h => nomatch h) h

/-- A store of an integer. -/
theorem Carries.stored {ty : LTy} {v addr : Value} {a x : I64}
    (ha : addr.eval O.world ρ = .int a) (hv : v.eval O.world ρ = .int x) (h : Q ρ) :
    Carries O T B (B.push (.store ty v addr)) prev ρ st
      (st.1.write a ty.bytesOf (byteOf x), st.2) Q := by
  refine Carries.pushed ?_ rfl (fun _ _ h => nomatch h) h
  change (addr.evalInt (O.seen st.2) ρ).map _ = _
  rw [O.evalInt_seen]
  unfold Value.evalInt
  rw [ha]
  change some (⟨_, _, _, _, storeVal (O.seen st.2) st.1 ty a (v.eval (O.seen st.2) ρ)⟩ : Config) = _
  rw [O.eval_seen, hv]
  rfl

end Instructions

end Hlang.Codegen
