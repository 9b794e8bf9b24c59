import Hlang.Codegen.Stores
import Hlang.Codegen.Operators

/-!
# Hlang.Codegen.Supplies — generators that use the values of operands

Where the operands `ops` are known, a generator supplies (`Supplies`) a result with the operands
`ws`. It may report diagnostics, and its code does to what is seen what a partial function of the
operands' values says: where the function is not defined, the run is not. Such generators compose.
-/

namespace Hlang.Codegen

open Ir Gen Machine

/-- What a generator leaves in the builder that yields the operands `ws` and reports `rs`. -/
structure Grows (B B' : Builder) (ws : List Value) (rs : List (SrcLoc × String)) : Prop where
  le : B.Le B'
  wf : B'.Wf
  below : ∀ w ∈ ws, w.Below B'.nextReg
  errors : B'.errors = B.errors ++ rs

/-- From the values of operands and what is seen: the values of the result's operands, and what
is seen next. -/
abbrev Effect := List Val → St → Option (List Val × St)

variable {α β : Type}

/-- At `B`, where `ops` are known, `x` yields a result with the operands `ws`, of which `ok`
holds, and reports `rs`. Where `F` is defined its code does what `F` says. -/
def Supplies (O : Oracle) (B : Builder) (ops : List Value) (x : Gen α) (ws : α → List Value)
    (ok : α → Prop) (rs : List (SrcLoc × String)) (F : Effect) : Prop :=
  B.Wf → (∀ w ∈ ops, w.Below B.nextReg) → ∃ a B', x B = .ok (a, B') ∧ ok a ∧
    Grows B B' (ws a) rs ∧ ∀ T prev ρ st ys st',
      F (ops.map (·.eval O.world ρ)) st = some (ys, st') →
        Carries O T B B' prev ρ st st' fun ρ' => (ws a).map (·.eval O.world ρ') = ys

section Rules

variable {O : Oracle} {B : Builder} {ops ops' : List Value} {x : Gen α} {ws : α → List Value}
  {us : β → List Value} {ok ok₂ : α → Prop} {ok' : β → Prop} {rs rs' : List (SrcLoc × String)}
  {F G : Effect}

theorem Grows.trans {B₁ B₂ : Builder} {ws us : List Value} (h : Grows B B₁ ws rs)
    (h' : Grows B₁ B₂ us rs') : Grows B B₂ us (rs ++ rs') := by
  constructor
  case le => exact h.le.trans h'.le
  case wf => exact h'.wf
  case below => exact h'.below
  case errors => rw [h'.errors, h.errors, List.append_assoc]

/-- Operands have the values they had. -/
theorem map_eval_kept {n : Reg} {ρ ρ' : Regs} (hops : ∀ w ∈ ops, w.Below n)
    (hregs : ∀ r, r < n → ρ' r = ρ r) :
    ops.map (·.eval O.world ρ') = ops.map (·.eval O.world ρ) := by
  refine List.map_congr_left ?_
  intro w hw
  exact Value.eval_congr (hops w hw) hregs

/-- One after the other: the second uses the operands of the first, and those before. -/
theorem Supplies.bind {y : α → Gen β} (hx : Supplies O B ops x ws ok rs F)
    (hy : ∀ a B', x B = .ok (a, B') → ok a → Supplies O B' (ops ++ ws a) (y a) us ok' rs' G) :
    Supplies O B ops (x >>= y) us ok' (rs ++ rs') fun xs st =>
      (F xs st).bind fun z => G (xs ++ z.1) z.2 := by
  intro hB hops
  rcases hx hB hops with ⟨a, B₁, heq, hok, hgrows, hrun⟩
  have hbelow : ∀ w ∈ ops ++ ws a, w.Below B₁.nextReg := by
    intro w hw
    rcases List.mem_append.mp hw with hw | hw
    · exact (hops w hw).mono hgrows.le.reg
    · exact hgrows.below w hw
  rcases hy a B₁ heq hok hgrows.wf hbelow with ⟨b, B₂, heq', hok', hgrows', hrun'⟩
  refine ⟨b, B₂, (Gen.bind_ok heq).trans heq', hok', hgrows.trans hgrows', ?_⟩
  intro T prev ρ st zs st' hF
  rcases Option.bind_eq_some_iff.mp hF with ⟨⟨ys, st₁⟩, hys, hzs⟩
  refine (hrun T prev ρ st ys st₁ hys).trans hgrows.le hgrows'.le ?_
  intro prev' ρ' hregs hval
  refine hrun' T prev' ρ' st₁ zs st' ?_
  rw [List.map_append, map_eval_kept hops hregs, hval]
  exact hzs

/-- What the second does may depend on where it begins. -/
theorem Supplies.bind_at {ι : Type} [Inhabited ι] {y : α → Gen β} {H : ι → Effect}
    (hx : Supplies O B ops x ws ok rs F)
    (hy : ∀ a B', ok a → ∃ i, Supplies O B' (ops ++ ws a) (y a) us ok' rs' (H i)) :
    ∃ i, Supplies O B ops (x >>= y) us ok' (rs ++ rs') fun xs st =>
      (F xs st).bind fun z => H i (xs ++ z.1) z.2 := by
  by_cases h : B.Wf ∧ ∀ w ∈ ops, w.Below B.nextReg
  · rcases hx h.1 h.2 with ⟨a, B₁, heq, hok, -, -⟩
    rcases hy a B₁ hok with ⟨i, hi⟩
    refine ⟨i, hx.bind ?_⟩
    intro a' B' heq' _
    rcases Prod.mk.inj (Except.ok.inj (heq.symm.trans heq')) with ⟨rfl, rfl⟩
    exact hi
  · exact ⟨default, fun hB hops => absurd ⟨hB, hops⟩ h⟩

/-- A value that is known already. -/
theorem Supplies.pure {a : α} {g : List Val → List Val} (hok : ok a)
    (hbelow : ∀ n, (∀ w ∈ ops, w.Below n) → ∀ w ∈ ws a, w.Below n)
    (hval : ∀ ρ, (ws a).map (·.eval O.world ρ) = g (ops.map (·.eval O.world ρ))) :
    Supplies O B ops (Pure.pure a) ws ok [] fun xs st => some (g xs, st) := by
  intro hB hops
  refine ⟨a, B, rfl, hok, ⟨.refl B, hB, hbelow _ hops, (List.append_nil _).symm⟩, ?_⟩
  intro T prev ρ st ys st' hF
  rcases Prod.mk.inj (Option.some.inj hF) with ⟨hys, rfl⟩
  exact .refl _ st ((hval ρ).trans hys)

/-- Of the operands that are known, some are used, and constants. -/
theorem Supplies.using {g : List Val → List Val} (h : Supplies O B ops x ws ok rs F)
    (hbelow : ∀ n, (∀ w ∈ ops', w.Below n) → ∀ w ∈ ops, w.Below n)
    (hval : ∀ ρ, g (ops'.map (·.eval O.world ρ)) = ops.map (·.eval O.world ρ)) :
    Supplies O B ops' x ws ok rs fun xs st => F (g xs) st := by
  intro hB hops
  rcases h hB (hbelow _ hops) with ⟨a, B', heq, hok, hgrows, hrun⟩
  refine ⟨a, B', heq, hok, hgrows, ?_⟩
  intro T prev ρ st ys st' hF
  refine hrun T prev ρ st ys st' ?_
  rw [← hval]
  exact hF

/-- Where no operands are used. -/
theorem Supplies.frame (h : Supplies O B [] x ws ok rs F) :
    Supplies O B ops x ws ok rs fun _ st => F [] st :=
  h.using (g := fun _ => []) (fun _ _ _ hw => absurd hw List.not_mem_nil) fun _ => rfl

theorem Supplies.congr (h : Supplies O B ops x ws ok rs F)
    (hFG : ∀ ρ st z, G (ops.map (·.eval O.world ρ)) st = some z →
      F (ops.map (·.eval O.world ρ)) st = some z) : Supplies O B ops x ws ok rs G := by
  intro hB hops
  rcases h hB hops with ⟨a, B', heq, hok, hgrows, hrun⟩
  refine ⟨a, B', heq, hok, hgrows, ?_⟩
  intro T prev ρ st ys st' hG
  exact hrun T prev ρ st ys st' (hFG ρ st _ hG)

theorem Supplies.weaken (h : Supplies O B ops x ws ok rs F) (hok : ∀ a, ok a → ok₂ a) :
    Supplies O B ops x ws ok₂ rs F := by
  intro hB hops
  rcases h hB hops with ⟨a, B', heq, ha, hgrows, hrun⟩
  exact ⟨a, B', heq, hok a ha, hgrows, hrun⟩

/-- The result may be wrapped. -/
theorem Supplies.wrap {g : α → β} (h : Supplies O B ops x ws ok rs F)
    (hws : ∀ a, ok a → us (g a) = ws a) (hok : ∀ a, ok a → ok' (g a)) :
    Supplies O B ops (x >>= fun a => Pure.pure (g a)) us ok' rs F := by
  intro hB hops
  rcases h hB hops with ⟨a, B', heq, ha, hgrows, hrun⟩
  rw [← hws a ha] at hgrows hrun
  exact ⟨g a, B', Gen.bind_ok heq, hok a ha, hgrows, hrun⟩

/-! ### Instructions and diagnostics -/

theorem Supplies.error (loc : SrcLoc) (msg : String) :
    Supplies O B ops (Gen.error loc msg) (fun _ => []) (fun _ => True) [(loc, msg)]
      fun _ st => some ([], st) := by
  intro hB hops
  refine ⟨(), { B with errors := B.errors ++ [(loc, msg)] }, rfl, trivial, ?_, ?_⟩
  · constructor
    case le => exact ⟨List.prefix_refl _, Nat.le_refl _, Nat.le_refl _, .inl rfl, fun _ _ _ => rfl,
      List.prefix_append _ _⟩
    case wf => exact ⟨hB.cur, hB.fresh⟩
    case below => exact fun _ hw => absurd hw List.not_mem_nil
    case errors => rfl
  · intro T prev ρ st ys st' hF
    rcases Prod.mk.inj (Option.some.inj hF) with ⟨rfl, rfl⟩
    exact Flows.refl _ st rfl

/-- An instruction that computes a value from the operands. -/
theorem Supplies.create {o : Op} {g : List Val → Option Val}
    (ho : ∀ es ρ m y, g (ops.map (·.eval O.world ρ)) = some y → o.eval (O.seen es) ρ m = some y) :
    Supplies O B ops (Gen.create o) (fun w => [w]) (fun w => ∃ r, w = .reg o.type r) []
      fun xs st => (g xs).map fun y => ([y], st) := by
  intro hB hops
  refine ⟨.reg o.type B.nextReg, B.created o, rfl, ⟨_, rfl⟩, ?_, ?_⟩
  · have hleaves := Leaves.created hB o
    constructor
    case le => exact hleaves.le
    case wf => exact hleaves.wf
    case below =>
      intro w hw
      rcases List.mem_singleton.mp hw with rfl
      exact hleaves.below
    case errors => exact (List.append_nil _).symm
  · intro T prev ρ st ys st' hF
    rcases Option.map_eq_some_iff.mp hF with ⟨y, hy, hz⟩
    rcases Prod.mk.inj hz with ⟨rfl, rfl⟩
    refine (Carries.created (ho st.2 ρ st.1 y hy)).weaken ?_
    intro _ ρ' hval
    exact congrArg (fun x => [x]) hval

/-- An instruction without a result. -/
theorem Supplies.emit {i : Instr} {g : List Val → Mem → Option Mem}
    (hrun : ∀ es ρ m m' (c : Config), c.regs = ρ → c.mem = m →
      g (ops.map (·.eval O.world ρ)) m = some m' →
        i.run (O.seen es) c = some { c.next with mem := m' })
    (hevent : ∀ ρ, i.event? O.world ρ = none) (hswitch : ∀ n v, i ≠ .switch n v) :
    Supplies O B ops (Gen.emit i) (fun _ => []) (fun _ => True) []
      fun xs st => (g xs st.1).map fun m => ([], (m, st.2)) := by
  intro hB hops
  refine ⟨(), B.push i, rfl, trivial, ⟨.push B i, hB.push i, fun _ hw => absurd hw List.not_mem_nil,
    (List.append_nil _).symm⟩, ?_⟩
  intro T prev ρ st ys st' hF
  rcases Option.map_eq_some_iff.mp hF with ⟨m, hm, hz⟩
  rcases Prod.mk.inj hz with ⟨rfl, rfl⟩
  exact Carries.pushed (hrun st.2 ρ st.1 m _ rfl rfl hm) (hevent ρ) hswitch rfl

end Rules

end Hlang.Codegen
