import Hlang.Codegen.Operators

/-!
# Hlang.Codegen.Branch — code that branches and joins

The region of `&&` and `||`: a conditional branch over the code of the right
operand, and a phi where the two paths meet.
-/

namespace Hlang.Codegen

open Ir

namespace Builder

/-- The state after ending the current block with `i` and moving on to block `b`,
with `n` more blocks created. -/
def leave (B : Builder) (i : Instr) (n : Nat) (b : Blk) : Builder :=
  { B.push i with nextBlk := B.nextBlk + n, cur := b }

theorem code_leave_other {B : Builder} {b b' : Blk} (h : b' ≠ B.cur) (i : Instr) (n : Nat) :
    (B.leave i n b).code b' = B.code b' := code_push_other h i

/-- The blocks that `B` may append to are its current one and later ones, so the
run may leave any of them for a block that `B` does not know. -/
theorem Le.leave {B B' : Builder} (h : B.Le B') {b : Blk} (hb : B.nextBlk ≤ b) (i : Instr)
    (n : Nat) : B.Le (B'.leave i n b) := by
  refine ⟨h.log.trans (List.prefix_append _ _), Nat.le_trans h.blk (Nat.le_add_right _ _), h.reg,
    .inr hb, ?_, h.errors⟩
  intro b' hb' hne
  have hcur : b' ≠ B'.cur := by
    rcases h.cur with hcur | hcur
    · rwa [hcur]
    · exact Nat.ne_of_lt (Nat.lt_of_lt_of_le hb' hcur)
  rw [code_leave_other hcur]
  exact h.kept b' hb' hne

theorem Wf.leave {B : Builder} (h : B.Wf) {n : Nat} {b : Blk} (hb : b < B.nextBlk + n)
    (i : Instr) : (B.leave i n b).Wf := by
  refine ⟨hb, ?_⟩
  intro b' hb'
  have hle : B.nextBlk ≤ b' := Nat.le_trans (Nat.le_add_right _ _) hb'
  rw [code_leave_other (Nat.ne_of_gt (Nat.lt_of_lt_of_le h.cur hle))]
  exact h.fresh b' hle

/-- The run moves to the start of the block the last instruction chose. -/
theorem reaches_leave {W : World} {B : Builder} {i : Instr} {n : Nat} {b b' : Blk} {prev : Blk}
    {ρ : Regs} {m : Mem}
    (hrun : i.run W (B.here prev ρ m) = some ((B.here prev ρ m).jump b)) :
    Reaches W (B.leave i n b').log (B.here prev ρ m)
      { blk := b, pos := 0, prev := B.cur, regs := ρ, mem := m } := by
  refine .single ?_
  change step W (B.push i).log _ = _
  rw [step_push, hrun]
  rfl

/-- At the start of an empty block. -/
theorem here_empty {B : Builder} (h : B.code B.cur = []) (prev : Blk) (ρ : Regs) (m : Mem) :
    B.here prev ρ m = { blk := B.cur, pos := 0, prev := prev, regs := ρ, mem := m } := by
  unfold here
  rw [h]
  rfl

/-- A branch with two new blocks from `B₁`, code that starts in the first of them
and ends at `B₃`, and the jump `j` from there to the second. -/
theorem join_spec {B₁ B₃ : Builder} (h : B₁.Wf) {i : Instr}
    (hle : (B₁.leave i 2 B₁.nextBlk).Le B₃) (h₃ : B₃.Wf) (j : Instr) :
    B₁.Le (B₃.leave j 0 (B₁.nextBlk + 1)) ∧ (B₃.leave j 0 (B₁.nextBlk + 1)).Wf ∧
      (B₃.leave j 0 (B₁.nextBlk + 1)).code (B₁.nextBlk + 1) = [] ∧ B₃.cur ≠ B₁.cur := by
  have hlt : B₁.nextBlk + 1 < B₁.nextBlk + 2 := Nat.lt_succ_self _
  have hcur : B₃.cur = B₁.nextBlk ∨ B₁.nextBlk + 2 ≤ B₃.cur := hle.cur
  have hnew : B₁.nextBlk ≤ B₃.cur := by
    rcases hcur with hcur | hcur
    · exact Nat.le_of_eq hcur.symm
    · exact Nat.le_trans (Nat.le_add_right _ 2) hcur
  have hend : B₁.nextBlk + 1 ≠ B₃.cur := by
    rcases hcur with hcur | hcur
    · rw [hcur]
      exact Nat.succ_ne_self _
    · exact Nat.ne_of_lt (Nat.lt_of_lt_of_le hlt hcur)
  have hne : B₁.nextBlk + 1 ≠ B₁.cur := Nat.ne_of_gt (Nat.lt_succ_of_lt h.cur)
  refine ⟨?_, ?_, ?_, Nat.ne_of_gt (Nat.lt_of_lt_of_le h.cur hnew)⟩
  · exact (((Le.refl B₁).leave (Nat.le_refl _) i 2).trans hle).leave (Nat.le_succ _) j 0
  · exact h₃.leave (Nat.lt_of_lt_of_le hlt hle.blk) j
  · rw [code_leave_other hend, hle.kept _ hlt (Nat.succ_ne_self _), code_leave_other hne]
    exact h.fresh _ (Nat.le_succ _)

/-- The first of the new blocks is empty. -/
theorem code_leave_new {B : Builder} (h : B.Wf) (i : Instr) (n : Nat) :
    (B.leave i n B.nextBlk).code B.nextBlk = [] := by
  rw [code_leave_other (Nat.ne_of_gt h.cur)]
  exact h.fresh _ (Nat.le_refl _)

end Builder

/-- The state after `createPhi`. -/
def Builder.joined (B : Builder) (incoming : List (Value × Blk)) : Builder :=
  (B.push (.phi B.nextReg incoming)).bump

theorem Builder.Wf.joined {B : Builder} (h : B.Wf) (incoming : List (Value × Blk)) :
    (B.joined incoming).Wf := (h.push _).bump

/-- A phi takes the value of the block the run comes from. -/
theorem reaches_phi {W : World} {B : Builder} {incoming : List (Value × Blk)} {prev : Blk}
    {ρ : Regs} {m : Mem} {p : Value × Blk} (hp : incoming.find? (·.2 = prev) = some p) :
    Reaches W (B.joined incoming).log (B.here prev ρ m)
      ((B.joined incoming).here prev (Function.update ρ B.nextReg (p.1.eval W ρ)) m) := by
  have hrun : (Instr.phi B.nextReg incoming).run W (B.here prev ρ m) = some
      { (B.here prev ρ m) with
        pos := (B.code B.cur).length + 1
        regs := Function.update ρ B.nextReg (p.1.eval W ρ) } := by
    change (incoming.find? (·.2 = prev)).map _ = _
    rw [hp]
    rfl
  exact Builder.reaches_push hrun

/-- The end of `genShortCircuit`, after the right operand. -/
def joinShort (isAnd : Bool) (lhsBB endBB : Blk) (cv : Value) : Gen RV := do
  let rhsEnd ← Gen.insertBlock
  Gen.emit (.br endBB)
  Gen.setInsertPoint endBB
  let phi ← Gen.createPhi [(cI64 (if isAnd then 0 else 1), lhsBB), (cv, rhsEnd)]
  return ⟨some phi, .i64⟩

/-- `genShortCircuit` for generated operands: `x` as an `i1`, `y` as an `i64`. -/
def shortCircuit (isAnd : Bool) (x y : Gen Value) : Gen RV := do
  let av ← x
  let lhsBB ← Gen.insertBlock
  let rhsBB ← Gen.newBlock
  let endBB ← Gen.newBlock
  if isAnd then Gen.emit (.condBr av rhsBB endBB) else Gen.emit (.condBr av endBB rhsBB)
  Gen.setInsertPoint rhsBB
  y >>= joinShort isAnd lhsBB endBB

/-- The value of `&&` or `||`: the right operand counts only if the left one does
not decide. -/
def shortVal (isAnd : Bool) (va vc : Option Val) : Option Val :=
  va.bind fun v => v.int?.bind fun i =>
    if decide (i ≠ 0) = isAnd then vc else some (.int (if isAnd then 0 else 1))

theorem Computes.shortCircuit (isAnd : Bool) {x y : Gen Value} {va vc : Option Val}
    (hx : Computes x id (.int 1) va) (hy : Computes y id (.int 64) vc) :
    Computes (shortCircuit isAnd x y) (fun z => ⟨some z, .i64⟩) (.int 64)
      (shortVal isAnd va vc) := by
  refine ⟨?_, ?_⟩
  · intro w hw
    rcases Option.bind_eq_some_iff.mp hw with ⟨v, hv, hw⟩
    rcases Option.bind_eq_some_iff.mp hw with ⟨i, _, hw⟩
    split_ifs at hw with hdec
    · exact hy.fits w hw
    all_goals
      rcases Option.some.inj hw with rfl
      exact fun h => by cases h
  · intro B hB
    rcases hx.runs B hB with ⟨av, B₁, hxeq, hxl, hxrun⟩
    -- the two blocks are the next ones; the right operand is generated in the first
    let rhs := B₁.nextBlk
    let fin := B₁.nextBlk + 1
    let br : Instr := if isAnd then .condBr av rhs fin else .condBr av fin rhs
    let B₂ := B₁.leave br 2 rhs
    have hwf₂ : B₂.Wf := hxl.wf.leave (Nat.lt_add_of_pos_right Nat.two_pos) br
    rcases hy.runs B₂ hwf₂ with ⟨cv, B₃, hyeq, hyl, hyrun⟩
    let B₄ := B₃.leave (.br fin) 0 fin
    let incoming := [(cI64 (if isAnd then 0 else 1), B₁.cur), (cv, B₃.cur)]
    rcases Builder.join_spec hxl.wf hyl.le hyl.wf (.br fin) with ⟨hle, hwf, hempty, hne⟩
    have hle₅ : B₁.Le (B₄.joined incoming) := hle.trans ((Builder.Le.push B₄ _).trans (.bump _))
    refine ⟨.reg (.int 64) B₄.nextReg, B₄.joined incoming, ?_, ?_, ?_⟩
    · unfold Hlang.Codegen.shortCircuit
      rw [Gen.bind_ok hxeq]
      have htail := Gen.bind_ok (f := joinShort isAnd B₁.cur fin) hyeq
      cases isAnd <;> exact htail
    · exact ⟨hxl.le.trans hle₅, hwf.joined incoming, Nat.lt_succ_self _, rfl,
        hyl.errors.trans hxl.errors⟩
    · intro W ρ m w hw
      rcases Option.bind_eq_some_iff.mp hw with ⟨v, hv, hw⟩
      rcases Option.bind_eq_some_iff.mp hw with ⟨i, hi, hw⟩
      rcases hxrun W ρ m v hv with ⟨ρ₁, hemits, heval⟩
      have hlog₂ : B₂.log <+: (B₄.joined incoming).log :=
        hyl.le.log.trans ((List.prefix_append _ _).trans (List.prefix_append _ _))
      -- it is enough to reach the last block from a known one, with the value there
      have hjoin : ∀ (p : Value × Blk) (ρ' : Regs), incoming.find? (·.2 = p.2) = some p →
          (∀ r, r < B₁.nextReg → ρ' r = ρ₁ r) → p.1.eval W ρ' = w →
          (∀ prev, Reaches W (B₄.joined incoming).log (B₁.here prev ρ₁ m)
            { blk := fin, pos := 0, prev := p.2, regs := ρ', mem := m }) →
          ∃ ρ', Emits W B (B₄.joined incoming) ρ m ρ' m ∧
            (Value.reg (.int 64) B₄.nextReg).eval W ρ' = w := by
        intro p ρ' hp hregs hw hreach
        have hphi : Reaches W _ (B₄.here p.2 ρ' m) _ := reaches_phi hp
        rw [Builder.here_empty hempty] at hphi
        refine ⟨Function.update ρ' B₄.nextReg (p.1.eval W ρ'), hemits.trans ⟨hle₅, ?_, ?_⟩,
          (Function.update_self _ _ _).trans hw⟩
        · intro r hr
          rw [Function.update_of_ne (Nat.ne_of_lt (Nat.lt_of_lt_of_le hr hle.reg))]
          exact hregs r hr
        · intro prev
          exact ⟨_, (hreach prev).trans hphi⟩
      -- where the conditional branch goes
      have hbr : ∀ prev, br.run W (B₁.here prev ρ₁ m) =
          some ((B₁.here prev ρ₁ m).jump (if decide (i ≠ 0) = isAnd then rhs else fin)) := by
        intro prev
        have hcond : av.evalInt W (B₁.here prev ρ₁ m).regs = some i := by
          change (av.eval W ρ₁).int? = some i
          rw [heval, hi]
        cases isAnd <;> by_cases h0 : i = 0 <;> simp [br, Instr.run, hcond, h0]
      by_cases hdec : decide (i ≠ 0) = isAnd
      · rw [if_pos hdec] at hw
        rcases hyrun W ρ₁ m w hw with ⟨ρ₃, hemits', heval'⟩
        refine hjoin (cv, B₃.cur) ρ₃ ?_ hemits'.regs heval' ?_
        · simp [incoming, Ne.symm hne]
        · intro prev
          have hjump : Reaches W B₂.log _ _ := Builder.reaches_leave (hbr prev)
          rw [if_pos hdec] at hjump
          have hstart := Builder.here_empty (Builder.code_leave_new hxl.wf br 2) B₁.cur ρ₁ m
          rcases hemits'.runs B₁.cur with ⟨prev', hrun⟩
          have hback : Reaches W B₄.log (B₃.here prev' ρ₃ m) _ := Builder.reaches_leave rfl
          rw [hstart] at hrun
          refine (hjump.extend hlog₂).trans ((hrun.extend ?_).trans (hback.extend ?_))
          · exact (List.prefix_append _ _).trans (List.prefix_append _ _)
          · exact List.prefix_append _ _
      · rw [if_neg hdec] at hw
        refine hjoin (cI64 (if isAnd then 0 else 1), B₁.cur) ρ₁ ?_ (fun _ _ => rfl)
          (Option.some.inj hw) ?_
        · simp [incoming]
        · intro prev
          have hjump : Reaches W B₂.log _ _ := Builder.reaches_leave (hbr prev)
          rw [if_neg hdec] at hjump
          exact hjump.extend hlog₂

end Hlang.Codegen
