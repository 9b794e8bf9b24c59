import Hlang.Codegen.Spec

/-!
# Hlang.Codegen.Join — stretches that join at a block

The code of `&&`, `||` and of chained comparisons leaves for one block from several
others. While it is generated the block is pending: created, and without code
(`Escape`). The rules follow the generators: a stretch before, a conditional branch
that may leave, the last branch, and the phi that closes.
-/

namespace Hlang.Codegen

open Ir Gen

/-- The block is created, has no code, and is not the current one. -/
structure Builder.Pending (B : Builder) (b : Blk) : Prop where
  lt : b < B.nextBlk
  code : B.code b = []
  ne : b ≠ B.cur

theorem Stretch.pending {B B' : Builder} {ms : List Site} (h : Stretch B B' ms) {b : Blk}
    (hb : B.Pending b) : B'.Pending b := by
  constructor
  · exact Nat.lt_of_lt_of_le hb.lt h.le.blk
  · rw [h.le.kept b hb.lt hb.ne]
    exact hb.code
  · rcases h.le.cur with hcur | hcur
    · rw [hcur]
      exact hb.ne
    · exact Nat.ne_of_lt (Nat.lt_of_lt_of_le hb.lt hcur)

/-- The state with `n` more blocks created. -/
def Builder.alloc (B : Builder) (n : Nat) : Builder := { B with nextBlk := B.nextBlk + n }

/-- The state with the current block ended by `i`, at block `b`. -/
def Builder.jump (B : Builder) (i : Instr) (b : Blk) : Builder := { B.push i with cur := b }

theorem Builder.Wf.alloc {B : Builder} (h : B.Wf) (n : Nat) : (B.alloc n).Wf :=
  ⟨Nat.lt_of_lt_of_le h.cur (Nat.le_add_right _ _),
    fun b hb => h.fresh b (Nat.le_trans (Nat.le_add_right _ _) hb)⟩

theorem Builder.Wf.pending {B : Builder} (h : B.Wf) {n : Nat} {b : Blk} (hb : B.nextBlk ≤ b)
    (hlt : b < B.nextBlk + n) : (B.alloc n).Pending b :=
  ⟨hlt, h.fresh b hb, Nat.ne_of_gt (Nat.lt_of_lt_of_le h.cur hb)⟩

theorem Builder.Wf.jump {B : Builder} (h : B.Wf) (i : Instr) {b : Blk} (hb : b < B.nextBlk) :
    (B.jump i b).Wf := ⟨hb, (h.push i).fresh⟩

theorem Builder.Pending.jump {B : Builder} {b b' : Blk} (h : B.Pending b) (i : Instr)
    (hne : b ≠ b') : (B.jump i b').Pending b := by
  refine ⟨h.lt, ?_, hne⟩
  change (B.push i).code b = []
  rw [Builder.code_push_other h.ne]
  exact h.code

/-- What is appended from `B` on, up to the last branch to the pending block `e`:
`ps` are other pending blocks that it uses, `preds` the blocks that branch to `e`. -/
structure Escape (ps : List Blk) (B B' : Builder) (e : Blk) (preds : List Blk)
    (seg : Log) : Prop where
  log : B'.log = B.log ++ seg
  blk : B.nextBlk ≤ B'.nextBlk
  reg : B.nextReg ≤ B'.nextReg
  errors : B.errors <+: B'.errors
  fresh : ∀ b, B'.nextBlk ≤ b → B'.code b = []
  kept : ∀ b, b < B.nextBlk → b ≠ B.cur → b ∉ ps → seg.code b = []
  plain : ∀ p ∈ seg, (∀ n v, p.2 ≠ .switch n v) ∧ ∀ v, p.2 ≠ .ret v
  targets : ∀ p ∈ seg, ∀ t ∈ p.2.targets,
    (B.nextBlk ≤ t ∧ t < B'.nextBlk) ∨ t ∈ ps ∨ t = e
  ended : ∀ b, b = B.cur ∨ B.nextBlk ≤ b ∨ b ∈ ps → b < B'.nextBlk → Ended (seg.code b)
  phis : ∀ b dst inc, (b, .phi dst inc) ∈ seg → B.nextBlk ≤ b ∧ (inc.map Prod.snd).Nodup ∧
    ∀ p, p ∈ inc.map Prod.snd ↔ seg.Pred p b
  nodup : preds.Nodup
  preds : ∀ p, p ∈ preds ↔ seg.Pred p e
  forward : Forward B.log seg
  main : Trace B'.log B.point seg.instrs (e, 0)

section Escape

variable {ps : List Blk} {B B₁ B' : Builder} {e : Blk} {preds : List Blk} {seg : Log}

/-- The last branch. -/
theorem Escape.last (h : B.Wf) (he : B.Pending e) :
    Escape [] B (B.push (.br e)) e [B.cur] [(B.cur, .br e)] := by
  constructor
  case log => rfl
  case blk => exact Nat.le_refl _
  case reg => exact Nat.le_refl _
  case errors => exact List.prefix_refl _
  case fresh => exact (h.push _).fresh
  case kept =>
    intro b _ hne _
    exact Log.code_cons_other (Ne.symm hne) _ _
  case plain =>
    intro p hp
    rcases List.mem_singleton.mp hp with rfl
    exact ⟨fun _ _ => Instr.noConfusion, fun _ => Instr.noConfusion⟩
  case targets =>
    intro p hp t ht
    rcases List.mem_singleton.mp hp with rfl
    exact .inr (.inr (List.mem_singleton.mp ht))
  case ended =>
    intro b hb hlt
    have hcur : b = B.cur := by
      rcases hb with hb | hb | hb
      · exact hb
      · exact absurd hlt (Nat.not_lt_of_le hb)
      · cases hb
    rw [hcur, Log.code_cons_self]
    exact ⟨[], .br e, rfl, unended_nil, rfl⟩
  case phis =>
    intro b dst inc hphi
    cases List.mem_singleton.mp hphi
  case nodup => exact List.nodup_singleton _
  case preds =>
    intro p
    constructor
    · intro hp
      rcases List.mem_singleton.mp hp with rfl
      exact ⟨.br e, List.mem_singleton.mpr rfl, List.mem_singleton.mpr rfl⟩
    · rintro ⟨i, hi, _⟩
      rcases Prod.mk.inj (List.mem_singleton.mp hi) with ⟨rfl, _⟩
      exact List.mem_singleton.mpr rfl
  case forward =>
    refine ⟨?_, trivial⟩
    intro t ht
    rcases List.mem_singleton.mp ht with rfl
    change (B.push (.br t)).code t = []
    rw [Builder.code_push_other he.ne]
    exact he.code
  case main =>
    refine .single ?_ (List.mem_singleton.mpr rfl)
    change ((B.push (.br e)).code B.cur)[(B.code B.cur).length]? = _
    rw [B.code_push_self, List.getElem?_append_right (Nat.le_refl _), Nat.sub_self]
    rfl

/-- A stretch before. -/
theorem Escape.after (h : Escape [] B₁ B' e preds seg) (he : B.Pending e) (hwf : B₁.Wf)
    {seg₀ : Log} (h₀ : Segment B B₁ seg₀) (hle : B.Le B₁) :
    Escape [] B B' e preds (seg₀ ++ seg) := by
  have hold : ∀ t, t < B.nextBlk → ¬ ∃ p ∈ seg₀, t ∈ p.2.targets := by
    rintro t ht ⟨p, hp, hmem⟩
    exact absurd ht (Nat.not_lt_of_le (h₀.targets p hp t hmem).1)
  constructor
  case log => rw [h.log, h₀.log, List.append_assoc]
  case blk => exact Nat.le_trans hle.blk h.blk
  case reg => exact Nat.le_trans hle.reg h.reg
  case errors => exact hle.errors.trans h.errors
  case fresh => exact h.fresh
  case kept =>
    intro b hb hne _
    have hne' : b ≠ B₁.cur := by
      rcases hle.cur with hcur | hcur
      · rwa [hcur]
      · exact Nat.ne_of_lt (Nat.lt_of_lt_of_le hb hcur)
    rw [Log.code_append, h₀.code_old hle hb hne,
      h.kept b (Nat.lt_of_lt_of_le hb hle.blk) hne' List.not_mem_nil]
    rfl
  case plain =>
    intro p hp
    rcases List.mem_append.mp hp with hp | hp
    · exact h₀.plain p hp
    · exact h.plain p hp
  case targets =>
    intro p hp t ht
    rcases List.mem_append.mp hp with hp | hp
    · have hlt := h₀.targets p hp t ht
      exact .inl ⟨hlt.1, Nat.lt_of_lt_of_le hlt.2 h.blk⟩
    · rcases h.targets p hp t ht with hlt | hmem | heq
      · exact .inl ⟨Nat.le_trans hle.blk hlt.1, hlt.2⟩
      · cases hmem
      · exact .inr (.inr heq)
  case ended =>
    intro b hb hlt
    rw [Log.code_append]
    by_cases hnew : B₁.nextBlk ≤ b
    · rw [h₀.code_fresh hwf hnew, List.nil_append]
      exact h.ended b (.inr (.inl hnew)) hlt
    · have hb₁ := Nat.lt_of_not_le hnew
      by_cases hcur : b = B₁.cur
      · rw [hcur]
        rw [hcur] at hlt
        exact h₀.unended.ended (h.ended B₁.cur (.inl rfl) hlt)
      · rw [h.kept b hb₁ hcur List.not_mem_nil, List.append_nil]
        refine h₀.ended b ?_ hb₁ hcur
        rcases hb with hb | hb | hb
        · exact .inl hb
        · exact .inr hb
        · cases hb
  case phis =>
    intro b dst inc hphi
    rcases List.mem_append.mp hphi with hphi | hphi
    · rcases h₀.phis b dst inc hphi with ⟨hb, hnd, hpred⟩
      refine ⟨hb, hnd, ?_⟩
      intro p
      rw [hpred, Log.pred_append, or_iff_left]
      rintro ⟨i, hi, ht⟩
      have hmem := Log.mem_code.mpr hphi
      rcases h.targets _ hi b ht with hlt | hmem' | heq
      · rw [h₀.code_fresh hwf hlt.1] at hmem
        cases hmem
      · cases hmem'
      · rw [heq] at hb
        exact absurd he.lt (Nat.not_lt_of_le hb)
    · rcases h.phis b dst inc hphi with ⟨hb, hnd, hpred⟩
      refine ⟨Nat.le_trans hle.blk hb, hnd, ?_⟩
      intro p
      rw [hpred, Log.pred_append, or_iff_right]
      rintro ⟨i, hi, ht⟩
      exact absurd (h₀.targets _ hi b ht).2 (Nat.not_lt_of_le hb)
  case nodup => exact h.nodup
  case preds =>
    intro p
    rw [h.preds, Log.pred_append, or_iff_right]
    rintro ⟨i, hi, ht⟩
    exact hold e he.lt ⟨_, hi, ht⟩
  case forward =>
    rw [forward_append, ← h₀.log]
    exact ⟨h₀.forward, h.forward⟩
  case main =>
    rw [Log.instrs_append]
    have hlog : B₁.log <+: B'.log := by
      rw [h.log]
      exact List.prefix_append _ _
    exact (h₀.main.extend hlog).append h.main

/-- A branch to `e` or on to the pending block `b`. -/
theorem Escape.cond {b : Blk} (hwf : B.Wf) (he : B.Pending e) (hb : B.Pending b)
    (hne : b ≠ e) {i : Instr} (hi : i.isTerminator = true)
    (ht : ∀ t, t ∈ i.targets ↔ t = b ∨ t = e)
    (h : Escape [] (B.jump i b) B' e preds seg) :
    Escape [b] B B' e (B.cur :: preds) ((B.cur, i) :: seg) := by
  have hplain : (∀ n v, i ≠ .switch n v) ∧ ∀ v, i ≠ .ret v := by
    have hmem := (ht b).mpr (.inl rfl)
    constructor
    · rintro n v rfl
      cases hmem
    · rintro v rfl
      cases hmem
  have hcur : seg.code B.cur = [] := h.kept B.cur hwf.cur (Ne.symm hb.ne) List.not_mem_nil
  constructor
  case log =>
    rw [h.log]
    change B.log ++ [(B.cur, i)] ++ seg = _
    rw [List.append_assoc]
    rfl
  case blk => exact h.blk
  case reg => exact h.reg
  case errors => exact h.errors
  case fresh => exact h.fresh
  case kept =>
    intro b' hlt hne' hps
    have hb' : b' ≠ b := fun h => hps (List.mem_singleton.mpr h)
    rw [Log.code_cons_other (Ne.symm hne')]
    exact h.kept b' hlt hb' List.not_mem_nil
  case plain =>
    intro p hp
    rcases List.mem_cons.mp hp with rfl | hp
    · exact hplain
    · exact h.plain p hp
  case targets =>
    intro p hp t htm
    rcases List.mem_cons.mp hp with rfl | hp
    · rcases (ht t).mp htm with rfl | rfl
      · exact .inr (.inl List.mem_cons_self)
      · exact .inr (.inr rfl)
    · rcases h.targets p hp t htm with hlt | hmem | heq
      · exact .inl hlt
      · cases hmem
      · exact .inr (.inr heq)
  case ended =>
    intro b' hb' hlt
    by_cases hc : b' = B.cur
    · rw [hc, Log.code_cons_self, hcur]
      exact ⟨[], i, rfl, unended_nil, hi⟩
    · rw [Log.code_cons_other (Ne.symm hc)]
      refine h.ended b' ?_ hlt
      rcases hb' with hb' | hb' | hb'
      · exact absurd hb' hc
      · exact .inr (.inl hb')
      · exact .inl (List.mem_singleton.mp hb')
  case phis =>
    intro b' dst inc hphi
    rcases List.mem_cons.mp hphi with heq | hphi
    · rcases Prod.mk.inj heq with ⟨_, rfl⟩
      cases hi
    · rcases h.phis b' dst inc hphi with ⟨hb', hnd, hpred⟩
      refine ⟨hb', hnd, ?_⟩
      intro p
      rw [hpred]
      constructor
      · rintro ⟨j, hj, hjt⟩
        exact ⟨j, List.mem_cons_of_mem _ hj, hjt⟩
      · rintro ⟨j, hj, hjt⟩
        rcases List.mem_cons.mp hj with heq | hj
        · rcases Prod.mk.inj heq with ⟨_, rfl⟩
          have hlt : b' < B.nextBlk := by
            rcases (ht b').mp hjt with rfl | rfl
            · exact hb.lt
            · exact he.lt
          exact absurd hlt (Nat.not_lt_of_le hb')
        · exact ⟨j, hj, hjt⟩
  case nodup =>
    rw [List.nodup_cons]
    refine ⟨?_, h.nodup⟩
    intro hmem
    rcases (h.preds _).mp hmem with ⟨j, hj, _⟩
    have hcode := Log.mem_code.mpr hj
    rw [hcur] at hcode
    cases hcode
  case preds =>
    intro p
    rw [List.mem_cons, h.preds]
    constructor
    · rintro (rfl | ⟨j, hj, hjt⟩)
      · exact ⟨i, List.mem_cons_self, (ht e).mpr (.inr rfl)⟩
      · exact ⟨j, List.mem_cons_of_mem _ hj, hjt⟩
    · rintro ⟨j, hj, hjt⟩
      rcases List.mem_cons.mp hj with heq | hj
      · exact .inl (Prod.mk.inj heq).1
      · exact .inr ⟨j, hj, hjt⟩
  case forward =>
    rw [forward_cons]
    refine ⟨?_, h.forward⟩
    intro t htm
    change (B.push i).code t = []
    rcases (ht t).mp htm with rfl | rfl
    · rw [Builder.code_push_other hb.ne]
      exact hb.code
    · rw [Builder.code_push_other he.ne]
      exact he.code
  case main =>
    have hlog : (B.push i).log <+: B'.log := by
      rw [h.log]
      exact List.prefix_append _ _
    have hstep : Trace (B.push i).log B.point [i] (b, 0) := by
      refine .single ?_ ?_
      · change ((B.push i).code B.cur)[(B.code B.cur).length]? = _
        rw [B.code_push_self, List.getElem?_append_right (Nat.le_refl _), Nat.sub_self]
        rfl
      · unfold Instr.next
        rw [if_pos hi]
        exact List.mem_map.mpr ⟨b, (ht b).mpr (.inl rfl), rfl⟩
    have hpoint : (B.jump i b).point = (b, 0) := by
      change (b, ((B.push i).code b).length) = _
      rw [Builder.code_push_other hb.ne, hb.code]
      rfl
    have hmain := h.main
    rw [hpoint] at hmain
    exact (hstep.extend hlog).append hmain

/-- The pending block that is used is a new one. -/
theorem Escape.alloc (h : Escape [B.nextBlk] (B.alloc 1) B' e preds seg) :
    Escape [] B B' e preds seg := by
  have hblk : B.nextBlk + 1 ≤ B'.nextBlk := h.blk
  constructor
  case log => exact h.log
  case blk => exact Nat.le_of_succ_le hblk
  case reg => exact h.reg
  case errors => exact h.errors
  case fresh => exact h.fresh
  case kept =>
    intro b hlt hne _
    refine h.kept b (Nat.lt_succ_of_lt hlt) hne ?_
    intro hmem
    exact absurd (List.mem_singleton.mp hmem) (Nat.ne_of_lt hlt)
  case plain => exact h.plain
  case targets =>
    intro p hp t ht
    rcases h.targets p hp t ht with hlt | hmem | heq
    · exact .inl ⟨Nat.le_of_succ_le hlt.1, hlt.2⟩
    · rcases List.mem_singleton.mp hmem with rfl
      exact .inl ⟨Nat.le_refl _, hblk⟩
    · exact .inr (.inr heq)
  case ended =>
    intro b hb hlt
    refine h.ended b ?_ hlt
    rcases hb with hb | hb | hb
    · exact .inl hb
    · rcases Nat.eq_or_lt_of_le hb with heq | hgt
      · exact .inr (.inr (List.mem_singleton.mpr heq.symm))
      · exact .inr (.inl hgt)
    · cases hb
  case phis =>
    intro b dst inc hphi
    rcases h.phis b dst inc hphi with ⟨hb, hrest⟩
    exact ⟨Nat.le_of_succ_le hb, hrest⟩
  case nodup => exact h.nodup
  case preds => exact h.preds
  case forward => exact h.forward
  case main => exact h.main

/-- The phi closes: the pending blocks, among them `e`, are the first new ones. -/
theorem Escape.close {n : Nat} (h : Escape ps (B.alloc n) B' e preds seg)
    (he : (B.alloc n).Pending e) (heps : e ∉ ps)
    (hnew : ∀ b, b ∈ ps ∨ b = e ↔ B.nextBlk ≤ b ∧ b < B.nextBlk + n)
    {incoming : List (Value × Blk)} (hinc : incoming.map Prod.snd = preds) :
    Stretch B ({ B' with cur := e }.joined incoming) (marksOf seg.instrs) := by
  have hblk : B.nextBlk + n ≤ B'.nextBlk := h.blk
  have he' := (hnew e).mp (.inr rfl)
  have helt : e < B'.nextBlk := Nat.lt_of_lt_of_le he'.2 hblk
  have hecode : seg.code e = [] := h.kept e he.lt he.ne heps
  have heB' : B'.code e = [] := by
    rw [code_of_log h.log, hecode, List.append_nil]
    exact he.code
  let phi : Instr := .phi B'.nextReg incoming
  let C : Builder := { B' with cur := e }
  have hclog : (C.joined incoming).log = B.log ++ (seg ++ [(e, phi)]) := by
    change B'.log ++ [(e, phi)] = _
    rw [h.log, List.append_assoc]
    rfl
  have hCcode : ∀ b, (C.joined incoming).code b = B'.code b ++ Log.code [(e, phi)] b := by
    intro b
    change Log.code (B'.log ++ [(e, phi)]) b = _
    rw [Log.code_append]
    rfl
  have hother : ∀ b, b ≠ e → Log.code [(e, phi)] b = [] := by
    intro b hb
    exact Log.code_cons_other (Ne.symm hb) _ _
  refine ⟨?_, ?_, seg ++ [(e, phi)], ?_, ?_⟩
  · -- the old blocks are kept
    constructor
    case log => rw [hclog]; exact List.prefix_append _ _
    case blk => exact Nat.le_trans (Nat.le_add_right _ _) hblk
    case reg => exact Nat.le_trans h.reg (Nat.le_succ _)
    case cur => exact .inr he'.1
    case kept =>
      intro b hb hne
      have hbe : b ≠ e := Nat.ne_of_lt (Nat.lt_of_lt_of_le hb he'.1)
      have hbps : b ∉ ps := by
        intro hmem
        exact absurd ((hnew b).mp (.inl hmem)).1 (Nat.not_le_of_lt hb)
      rw [hCcode, hother b hbe, List.append_nil, code_of_log h.log,
        h.kept b (Nat.lt_of_lt_of_le hb (Nat.le_add_right _ _)) hne hbps, List.append_nil]
      rfl
    case errors => exact h.errors
  · constructor
    · exact helt
    · intro b hb
      have hbe : b ≠ e := Nat.ne_of_gt (Nat.lt_of_lt_of_le helt hb)
      rw [hCcode, hother b hbe, List.append_nil]
      exact h.fresh b hb
  · constructor
    case log => exact hclog
    case plain =>
      intro p hp
      rcases List.mem_append.mp hp with hp | hp
      · exact h.plain p hp
      · rcases List.mem_singleton.mp hp with rfl
        exact ⟨fun _ _ => Instr.noConfusion, fun _ => Instr.noConfusion⟩
    case targets =>
      intro p hp t ht
      rcases List.mem_append.mp hp with hp | hp
      · rcases h.targets p hp t ht with hlt | hmem | heq
        · exact ⟨Nat.le_trans (Nat.le_add_right _ _) hlt.1, hlt.2⟩
        · have hb := (hnew t).mp (.inl hmem)
          exact ⟨hb.1, Nat.lt_of_lt_of_le hb.2 hblk⟩
        · rw [heq]
          exact ⟨he'.1, helt⟩
      · rcases List.mem_singleton.mp hp with rfl
        cases ht
    case ended =>
      intro b hb hlt hne
      have hbe : b ≠ e := hne
      rw [Log.code_append, hother b hbe, List.append_nil]
      refine h.ended b ?_ hlt
      rcases hb with hb | hb
      · exact .inl hb
      · by_cases hold : b < B.nextBlk + n
        · rcases (hnew b).mpr ⟨hb, hold⟩ with hmem | heq
          · exact .inr (.inr hmem)
          · exact absurd heq hbe
        · exact .inr (.inl (Nat.le_of_not_lt hold))
    case unended =>
      change Unended (Log.code (seg ++ [(e, phi)]) e)
      rw [Log.code_append, hecode, Log.code_cons_self]
      intro j hj
      rcases List.mem_singleton.mp hj with rfl
      rfl
    case phis =>
      intro b dst inc hphi
      have hpred : ∀ p, Log.Pred (seg ++ [(e, phi)]) p b ↔ seg.Pred p b := by
        intro p
        rw [Log.pred_append, or_iff_left]
        rintro ⟨i, hi, ht⟩
        rcases Prod.mk.inj (List.mem_singleton.mp hi) with ⟨_, rfl⟩
        cases ht
      rcases List.mem_append.mp hphi with hphi | hphi
      · rcases h.phis b dst inc hphi with ⟨hb, hnd, hp⟩
        refine ⟨Nat.le_trans (Nat.le_add_right _ _) hb, hnd, ?_⟩
        intro p
        rw [hp, hpred]
      · rcases Prod.mk.inj (List.mem_singleton.mp hphi) with ⟨rfl, heq⟩
        rcases Instr.phi.inj heq with ⟨_, rfl⟩
        rw [hinc]
        refine ⟨he'.1, h.nodup, ?_⟩
        intro p
        rw [h.preds, hpred]
    case forward =>
      rw [forward_append]
      refine ⟨h.forward, ?_, trivial⟩
      intro t ht
      cases ht
    case main =>
      rw [Log.instrs_append]
      have hlog : B'.log <+: (C.joined incoming).log := List.prefix_append _ _
      refine (h.main.extend hlog).append (.single ?_ ?_)
      · change ((C.joined incoming).code e)[0]? = _
        rw [hCcode, heB', Log.code_cons_self]
        rfl
      · have hlen : ((C.joined incoming).code e).length = 1 := by
          rw [hCcode, heB', Log.code_cons_self]
          rfl
        change (e, ((C.joined incoming).code e).length) ∈ _
        rw [hlen]
        exact List.mem_singleton.mpr rfl
  · rw [Log.instrs_append, marksOf_append]
    exact List.append_nil _

end Escape

end Hlang.Codegen
