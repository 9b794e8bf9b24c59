import Hlang.Codegen.Region

/-!
# Hlang.Codegen.Compute — generators that compute a value

A generator computes a value when it succeeds without a diagnostic in every
state of the builder and the code it appends runs to its end with that value,
leaving memory alone. `Maps` and `Maps₂` say the same of the helpers that take
one or two computed values; they compose.
-/

namespace Hlang.Codegen

open Ir

/-- What a generator that yields the value `val` leaves in the builder. -/
structure Leaves (B B' : Builder) (val : Value) (ty : LTy) : Prop where
  le : B.Le B'
  wf : B'.Wf
  below : val.Below B'.nextReg
  type : val.type = ty
  errors : B'.errors = B.errors

theorem Leaves.trans {B B₁ B₂ : Builder} {x y : Value} {ty ty' : LTy} (h : Leaves B B₁ x ty)
    (h' : Leaves B₁ B₂ y ty') : Leaves B B₂ y ty' :=
  ⟨h.le.trans h'.le, h'.wf, h'.below, h'.type, h'.errors.trans h.errors⟩

theorem Leaves.created {B : Builder} (hB : B.Wf) (o : Op) :
    Leaves B (B.created o) (.reg o.type B.nextReg) o.type :=
  ⟨.created B o, hB.created o, Nat.lt_succ_self _, rfl, rfl⟩

section

variable {α β : Type}

/-- From every state `x` yields `r val`, where the code it appends computes the
value `v` if there is one, a value of the type `ty`. -/
structure Computes (x : Gen α) (r : Value → α) (ty : LTy) (v : Option Val) : Prop where
  fits : ∀ w, v = some w → w.Fits ty
  runs : ∀ B : Builder, B.Wf → ∃ val B', x B = .ok (r val, B') ∧ Leaves B B' val ty ∧
    ∀ W ρ m w, v = some w → ∃ ρ', Emits W B B' ρ m ρ' m ∧ val.eval W ρ' = w

/-- `f` takes a computed value and yields one, its value under `F`. -/
structure Maps (f : Value → Gen α) (r : Value → α) (ty ty' : LTy) (F : Val → Option Val) :
    Prop where
  fits : ∀ v w, v.Fits ty → F v = some w → w.Fits ty'
  runs : ∀ (B : Builder) (x : Value), B.Wf → x.Below B.nextReg → x.type = ty →
    ∃ val B', f x B = .ok (r val, B') ∧ Leaves B B' val ty' ∧
      ∀ W ρ m w, (x.eval W ρ).Fits ty → F (x.eval W ρ) = some w →
        ∃ ρ', Emits W B B' ρ m ρ' m ∧ val.eval W ρ' = w

/-- `f` takes two computed values and yields one, their value under `F`. -/
structure Maps₂ (f : Value → Value → Gen α) (r : Value → α) (tx ty ty' : LTy)
    (F : Val → Val → Option Val) : Prop where
  fits : ∀ v v' w, v.Fits tx → v'.Fits ty → F v v' = some w → w.Fits ty'
  runs : ∀ (B : Builder) (x y : Value), B.Wf → x.Below B.nextReg → x.type = tx →
    y.Below B.nextReg → y.type = ty →
    ∃ val B', f x y B = .ok (r val, B') ∧ Leaves B B' val ty' ∧
      ∀ W ρ m w, (x.eval W ρ).Fits tx → (y.eval W ρ).Fits ty →
        F (x.eval W ρ) (y.eval W ρ) = some w → ∃ ρ', Emits W B B' ρ m ρ' m ∧ val.eval W ρ' = w

theorem Computes.pure {val : Value} {v : Val} (hval : ∀ n, val.Below n)
    (hv : ∀ W ρ, val.eval W ρ = v) (hfits : v.Fits val.type) (r : Value → α) :
    Computes (pure (r val)) r val.type (some v) := by
  refine ⟨fun w hw => Option.some.inj hw ▸ hfits, ?_⟩
  intro B hB
  refine ⟨val, B, rfl, ⟨.refl B, hB, hval _, rfl, rfl⟩, ?_⟩
  intro W ρ m w hw
  refine ⟨ρ, .refl W B ρ m, ?_⟩
  rw [hv, Option.some.inj hw]

theorem Maps.create {mk : Value → Op} {ty ty' : LTy} {F : Val → Option Val}
    (hfits : ∀ v w, v.Fits ty → F v = some w → w.Fits ty')
    (htype : ∀ x, x.type = ty → (mk x).type = ty')
    (hF : ∀ W ρ m x, x.type = ty → (x.eval W ρ).Fits ty → (mk x).eval W ρ m = F (x.eval W ρ)) :
    Maps (fun x => Gen.create (mk x)) id ty ty' F := by
  refine ⟨hfits, ?_⟩
  intro B x hB _ htx
  have hleaves := Leaves.created hB (mk x)
  rw [htype x htx] at hleaves
  refine ⟨_, _, rfl, ?_, ?_⟩
  · rw [htype x htx]
    exact hleaves
  · intro W ρ m w hx hw
    rw [← hF W ρ m x htx hx] at hw
    exact ⟨_, .created hw, Function.update_self _ _ _⟩

theorem Maps₂.create {mk : Value → Value → Op} {tx ty ty' : LTy} {F : Val → Val → Option Val}
    (hfits : ∀ v v' w, v.Fits tx → v'.Fits ty → F v v' = some w → w.Fits ty')
    (htype : ∀ x y, x.type = tx → y.type = ty → (mk x y).type = ty')
    (hF : ∀ W ρ m x y, (x.eval W ρ).Fits tx → (y.eval W ρ).Fits ty →
      (mk x y).eval W ρ m = F (x.eval W ρ) (y.eval W ρ)) :
    Maps₂ (fun x y => Gen.create (mk x y)) id tx ty ty' F := by
  refine ⟨hfits, ?_⟩
  intro B x y hB _ htx _ hty
  have hleaves := Leaves.created hB (mk x y)
  rw [htype x y htx hty] at hleaves
  refine ⟨_, _, rfl, ?_, ?_⟩
  · rw [htype x y htx hty]
    exact hleaves
  · intro W ρ m w hx hy hw
    rw [← hF W ρ m x y hx hy] at hw
    exact ⟨_, .created hw, Function.update_self _ _ _⟩

theorem Maps.pure {ty : LTy} : Maps pure id ty ty some := by
  refine ⟨fun v w hv hw => Option.some.inj hw ▸ hv, ?_⟩
  intro B x hB hx htx
  refine ⟨x, B, rfl, ⟨.refl B, hB, hx, htx, rfl⟩, ?_⟩
  intro W ρ m w _ hw
  exact ⟨ρ, .refl W B ρ m, Option.some.inj hw⟩

/-- A helper may be replaced by one that does the same on values of the type, and
its meaning by one that is the same on them. -/
theorem Maps.congr {f g : Value → Gen α} {r : Value → α} {ty ty' : LTy}
    {F G : Val → Option Val} (hf : Maps f r ty ty' F) (hfg : ∀ x, x.type = ty → g x = f x)
    (hFG : ∀ v, v.Fits ty → G v = F v) : Maps g r ty ty' G := by
  refine ⟨fun v w hv hw => hf.fits v w hv (hFG v hv ▸ hw), ?_⟩
  intro B x hB hx htx
  rcases hf.runs B x hB hx htx with ⟨val, B', heq, hleaves, hrun⟩
  refine ⟨val, B', by rw [hfg x htx, heq], hleaves, ?_⟩
  intro W ρ m w hv hw
  exact hrun W ρ m w hv (hFG _ hv ▸ hw)

theorem Maps₂.congr {f g : Value → Value → Gen α} {r : Value → α} {tx ty ty' : LTy}
    {F G : Val → Val → Option Val} (hf : Maps₂ f r tx ty ty' F)
    (hfg : ∀ x y, x.type = tx → y.type = ty → g x y = f x y)
    (hFG : ∀ v w, v.Fits tx → w.Fits ty → G v w = F v w) : Maps₂ g r tx ty ty' G := by
  refine ⟨fun v v' w hv hv' hw => hf.fits v v' w hv hv' (hFG v v' hv hv' ▸ hw), ?_⟩
  intro B x y hB hx htx hy hty
  rcases hf.runs B x y hB hx htx hy hty with ⟨val, B', heq, hleaves, hrun⟩
  refine ⟨val, B', by rw [hfg x y htx hty, heq], hleaves, ?_⟩
  intro W ρ m w hv hv' hw
  exact hrun W ρ m w hv hv' (hFG _ _ hv hv' ▸ hw)

/-- A helper applied to a computed value. -/
theorem Computes.bind {x : Gen α} {r : Value → α} {ty ty' : LTy} {v : Option Val}
    {f : α → Gen β} {r' : Value → β} {F : Val → Option Val} (hx : Computes x r ty v)
    (hf : Maps (fun val => f (r val)) r' ty ty' F) :
    Computes (x >>= f) r' ty' (v.bind F) := by
  refine ⟨?_, ?_⟩
  · intro w hw
    rcases Option.bind_eq_some_iff.mp hw with ⟨w₁, hw₁, hw₂⟩
    exact hf.fits w₁ w (hx.fits w₁ hw₁) hw₂
  · intro B hB
    rcases hx.runs B hB with ⟨val, B₁, heq, hleaves, hrun⟩
    rcases hf.runs B₁ val hleaves.wf hleaves.below hleaves.type with
      ⟨val', B₂, heq', hleaves', hrun'⟩
    refine ⟨val', B₂, (Gen.bind_ok heq).trans heq', hleaves.trans hleaves', ?_⟩
    intro W ρ m w hw
    rcases Option.bind_eq_some_iff.mp hw with ⟨w₁, hw₁, hw₂⟩
    rcases hrun W ρ m w₁ hw₁ with ⟨ρ₁, hemits, heval⟩
    have hfits := hx.fits w₁ hw₁
    rw [← heval] at hw₂ hfits
    rcases hrun' W ρ₁ m w hfits hw₂ with ⟨ρ₂, hemits', heval'⟩
    exact ⟨ρ₂, hemits.trans hemits', heval'⟩

theorem Maps.bind {f : Value → Gen Value} {g : Value → Gen β} {r : Value → β} {ty ty' ty'' : LTy}
    {F G : Val → Option Val} (hf : Maps f id ty ty' F) (hg : Maps g r ty' ty'' G) :
    Maps (fun x => f x >>= g) r ty ty'' fun v => (F v).bind G := by
  refine ⟨?_, ?_⟩
  · intro v w hv hw
    rcases Option.bind_eq_some_iff.mp hw with ⟨w₁, hw₁, hw₂⟩
    exact hg.fits w₁ w (hf.fits v w₁ hv hw₁) hw₂
  · intro B x hB hx htx
    rcases hf.runs B x hB hx htx with ⟨val, B₁, heq, hleaves, hrun⟩
    rcases hg.runs B₁ val hleaves.wf hleaves.below hleaves.type with
      ⟨val', B₂, heq', hleaves', hrun'⟩
    refine ⟨val', B₂, (Gen.bind_ok heq).trans heq', hleaves.trans hleaves', ?_⟩
    intro W ρ m w hv hw
    rcases Option.bind_eq_some_iff.mp hw with ⟨w₁, hw₁, hw₂⟩
    rcases hrun W ρ m w₁ hv hw₁ with ⟨ρ₁, hemits, heval⟩
    have hfits := hf.fits _ w₁ hv hw₁
    rw [← heval] at hw₂ hfits
    rcases hrun' W ρ₁ m w hfits hw₂ with ⟨ρ₂, hemits', heval'⟩
    exact ⟨ρ₂, hemits.trans hemits', heval'⟩

/-- A helper applied to two values, one computed after the other. -/
theorem Computes.bind₂ {x y : Gen α} {r : Value → α} {tx ty ty' : LTy} {v w : Option Val}
    {r₂ : Value → α} {f : α → α → Gen β} {r' : Value → β} {F : Val → Val → Option Val}
    (hx : Computes x r tx v) (hy : Computes y r₂ ty w)
    (hf : Maps₂ (fun a c => f (r a) (r₂ c)) r' tx ty ty' F) :
    Computes (x >>= fun a => y >>= fun c => f a c) r' ty' (v.bind fun a => w.bind (F a)) := by
  refine ⟨?_, ?_⟩
  · intro u hu
    rcases Option.bind_eq_some_iff.mp hu with ⟨va, hva, hu⟩
    rcases Option.bind_eq_some_iff.mp hu with ⟨vc, hvc, hu⟩
    exact hf.fits va vc u (hx.fits va hva) (hy.fits vc hvc) hu
  · intro B hB
    rcases hx.runs B hB with ⟨a, B₁, heq, hleaves, hrun⟩
    rcases hy.runs B₁ hleaves.wf with ⟨c, B₂, heq', hleaves', hrun'⟩
    have hbelow := hleaves.below.mono hleaves'.le.reg
    rcases hf.runs B₂ a c hleaves'.wf hbelow hleaves.type hleaves'.below hleaves'.type with
      ⟨val, B₃, heq'', hleaves'', hrun''⟩
    refine ⟨val, B₃, (Gen.bind_ok heq).trans ((Gen.bind_ok heq').trans heq''),
      (hleaves.trans hleaves').trans hleaves'', ?_⟩
    intro W ρ m u hu
    rcases Option.bind_eq_some_iff.mp hu with ⟨va, hva, hu⟩
    rcases Option.bind_eq_some_iff.mp hu with ⟨vc, hvc, hu⟩
    rcases hrun W ρ m va hva with ⟨ρ₁, hemits, heval⟩
    rcases hrun' W ρ₁ m vc hvc with ⟨ρ₂, hemits', heval'⟩
    have hfx := hx.fits va hva
    have hfy := hy.fits vc hvc
    -- the first value is still there after the second was computed
    have hkept := hemits'.eval hleaves.below
    rw [← heval, ← hkept] at hfx
    rw [← heval'] at hfy
    rw [← heval, ← heval', ← hkept] at hu
    rcases hrun'' W ρ₂ m u hfx hfy hu with ⟨ρ₃, hemits'', heval''⟩
    exact ⟨ρ₃, (hemits.trans hemits').trans hemits'', heval''⟩

/-- A helper that first maps each of its two values. -/
theorem Maps.bind₂ {f g : Value → Gen Value} {h : Value → Value → Gen β} {r : Value → β}
    {tx ty tx' ty' ty'' : LTy} {F G : Val → Option Val} {H : Val → Val → Option Val}
    (hf : Maps f id tx tx' F) (hg : Maps g id ty ty' G) (hh : Maps₂ h r tx' ty' ty'' H) :
    Maps₂ (fun x y => f x >>= fun a => g y >>= fun c => h a c) r tx ty ty''
      fun v w => (F v).bind fun a => (G w).bind (H a) := by
  refine ⟨?_, ?_⟩
  · intro v w u hv hw hu
    rcases Option.bind_eq_some_iff.mp hu with ⟨va, hva, hu⟩
    rcases Option.bind_eq_some_iff.mp hu with ⟨vc, hvc, hu⟩
    exact hh.fits va vc u (hf.fits v va hv hva) (hg.fits w vc hw hvc) hu
  · intro B x y hB hx htx hy hty
    rcases hf.runs B x hB hx htx with ⟨a, B₁, heq, hleaves, hrun⟩
    rcases hg.runs B₁ y hleaves.wf (hy.mono hleaves.le.reg) hty with
      ⟨c, B₂, heq', hleaves', hrun'⟩
    have hbelow := hleaves.below.mono hleaves'.le.reg
    rcases hh.runs B₂ a c hleaves'.wf hbelow hleaves.type hleaves'.below hleaves'.type with
      ⟨val, B₃, heq'', hleaves'', hrun''⟩
    refine ⟨val, B₃, (Gen.bind_ok heq).trans ((Gen.bind_ok heq').trans heq''),
      (hleaves.trans hleaves').trans hleaves'', ?_⟩
    intro W ρ m u hv hw hu
    rcases Option.bind_eq_some_iff.mp hu with ⟨va, hva, hu⟩
    rcases Option.bind_eq_some_iff.mp hu with ⟨vc, hvc, hu⟩
    have hfx := hf.fits _ va hv hva
    have hfy := hg.fits _ vc hw hvc
    rcases hrun W ρ m va hv hva with ⟨ρ₁, hemits, heval⟩
    rw [← hemits.eval hy] at hvc hw
    rcases hrun' W ρ₁ m vc hw hvc with ⟨ρ₂, hemits', heval'⟩
    have hkept := hemits'.eval hleaves.below
    rw [← heval, ← hkept] at hfx
    rw [← heval'] at hfy
    rw [← heval, ← heval', ← hkept] at hu
    rcases hrun'' W ρ₂ m u hfx hfy hu with ⟨ρ₃, hemits'', heval''⟩
    exact ⟨ρ₃, (hemits.trans hemits').trans hemits'', heval''⟩

/-- The result may be wrapped. -/
theorem Maps.wrap {f : Value → Gen α} {r : Value → α} {ty ty' : LTy} {F : Val → Option Val}
    (hf : Maps f r ty ty' F) (g : α → β) :
    Maps (fun x => f x >>= fun y => (Pure.pure (g y) : Gen β)) (fun y => g (r y)) ty ty' F := by
  refine ⟨hf.fits, ?_⟩
  intro B x hB hx htx
  rcases hf.runs B x hB hx htx with ⟨val, B', heq, hleaves, hrun⟩
  exact ⟨val, B', Gen.bind_ok heq, hleaves, hrun⟩

theorem Maps₂.wrap {f : Value → Value → Gen α} {r : Value → α} {tx ty ty' : LTy}
    {F : Val → Val → Option Val} (hf : Maps₂ f r tx ty ty' F) (g : α → β) :
    Maps₂ (fun x y => f x y >>= fun z => (Pure.pure (g z) : Gen β)) (fun z => g (r z)) tx ty ty'
      F := by
  refine ⟨hf.fits, ?_⟩
  intro B x y hB hx htx hy hty
  rcases hf.runs B x y hB hx htx hy hty with ⟨val, B', heq, hleaves, hrun⟩
  exact ⟨val, B', Gen.bind_ok heq, hleaves, hrun⟩

/-- A helper that maps the value computed from two. -/
theorem Maps₂.andThen {f : Value → Value → Gen Value} {g : Value → Gen β} {r : Value → β}
    {tx ty ty' ty'' : LTy} {F : Val → Val → Option Val} {G : Val → Option Val}
    (hf : Maps₂ f id tx ty ty' F) (hg : Maps g r ty' ty'' G) :
    Maps₂ (fun x y => f x y >>= g) r tx ty ty'' fun v w => (F v w).bind G := by
  refine ⟨?_, ?_⟩
  · intro v v' w hv hv' hw
    rcases Option.bind_eq_some_iff.mp hw with ⟨w₁, hw₁, hw₂⟩
    exact hg.fits w₁ w (hf.fits v v' w₁ hv hv' hw₁) hw₂
  · intro B x y hB hx htx hy hty
    rcases hf.runs B x y hB hx htx hy hty with ⟨val, B₁, heq, hleaves, hrun⟩
    rcases hg.runs B₁ val hleaves.wf hleaves.below hleaves.type with
      ⟨val', B₂, heq', hleaves', hrun'⟩
    refine ⟨val', B₂, (Gen.bind_ok heq).trans heq', hleaves.trans hleaves', ?_⟩
    intro W ρ m w hv hv' hw
    rcases Option.bind_eq_some_iff.mp hw with ⟨w₁, hw₁, hw₂⟩
    rcases hrun W ρ m w₁ hv hv' hw₁ with ⟨ρ₁, hemits, heval⟩
    have hfits := hf.fits _ _ w₁ hv hv' hw₁
    rw [← heval] at hw₂ hfits
    rcases hrun' W ρ₁ m w hfits hw₂ with ⟨ρ₂, hemits', heval'⟩
    exact ⟨ρ₂, hemits.trans hemits', heval'⟩

end

end Hlang.Codegen
