import Hlang.Codegen.Branch
import Hlang.Ir.Flow

/-!
# Hlang.Codegen.Stretch — the shape of the code of an expression

Between the states of the builder before and after an expression lies a stretch
of code with one way in and one way out: it branches only to blocks it created
itself, and only forward; every block it leaves is ended by one terminator; a phi
has an entry for each predecessor; and there is a path through all of it
(`Stretch`). `Spec` is the triple of a generator for stretches; its rules compose.
-/

namespace Hlang.Codegen

open Ir Gen

/-- Where control stands at the end of the code so far. -/
def Builder.point (B : Builder) : Point := (B.cur, (B.code B.cur).length)

/-- What is appended between `B` and `B'`. -/
structure Segment (B B' : Builder) (seg : Log) : Prop where
  log : B'.log = B.log ++ seg
  plain : ∀ e ∈ seg, (∀ n v, e.2 ≠ .switch n v) ∧ ∀ v, e.2 ≠ .ret v
  targets : ∀ e ∈ seg, ∀ t ∈ e.2.targets, B.nextBlk ≤ t ∧ t < B'.nextBlk
  ended : ∀ b, b = B.cur ∨ B.nextBlk ≤ b → b < B'.nextBlk → b ≠ B'.cur → Ended (seg.code b)
  unended : Unended (seg.code B'.cur)
  phis : ∀ b dst inc, (b, .phi dst inc) ∈ seg → B.nextBlk ≤ b ∧ (inc.map Prod.snd).Nodup ∧
    ∀ p, p ∈ inc.map Prod.snd ↔ seg.Pred p b
  forward : Forward B.log seg
  main : Trace B'.log B.point seg.instrs B'.point

/-- A stretch of code, with the marks in it. -/
structure Stretch (B B' : Builder) (ms : List Site) : Prop where
  le : B.Le B'
  wf : B'.Wf
  seg : ∃ seg, Segment B B' seg ∧ marksOf seg.instrs = ms

theorem code_of_log {B B' : Builder} {seg : Log} (h : B'.log = B.log ++ seg) (b : Blk) :
    B'.code b = B.code b ++ seg.code b := by
  unfold Builder.code
  rw [h, Log.code_append]

section Segment

variable {B B' B'' : Builder} {seg seg' : Log}

/-- The segment has code in the block that was current and in new blocks only. -/
theorem Segment.code_old (h : Segment B B' seg) (hle : B.Le B') {b : Blk} (hb : b < B.nextBlk)
    (hne : b ≠ B.cur) : seg.code b = [] := by
  have hkept := hle.kept b hb hne
  rw [code_of_log h.log] at hkept
  exact List.append_right_eq_self.mp hkept

theorem Segment.code_fresh (h : Segment B B' seg) (hwf : B'.Wf) {b : Blk}
    (hb : B'.nextBlk ≤ b) : seg.code b = [] := by
  have hfresh := hwf.fresh b hb
  rw [code_of_log h.log] at hfresh
  exact (List.append_eq_nil_iff.mp hfresh).2

theorem Segment.trans (h : Segment B B' seg) (h' : Segment B' B'' seg') (hle : B.Le B')
    (hle' : B'.Le B'') (hwf : B'.Wf) : Segment B B'' (seg ++ seg') := by
  constructor
  case log => rw [h'.log, h.log, List.append_assoc]
  case plain =>
    intro e he
    rcases List.mem_append.mp he with he | he
    · exact h.plain e he
    · exact h'.plain e he
  case targets =>
    intro e he t ht
    rcases List.mem_append.mp he with he | he
    · have hlt := h.targets e he t ht
      exact ⟨hlt.1, Nat.lt_of_lt_of_le hlt.2 hle'.blk⟩
    · have hlt := h'.targets e he t ht
      exact ⟨Nat.le_trans hle.blk hlt.1, hlt.2⟩
  case ended =>
    intro b hb hlt hne
    rw [Log.code_append]
    by_cases hnew : B'.nextBlk ≤ b
    · rw [h.code_fresh hwf hnew, List.nil_append]
      exact h'.ended b (.inr hnew) hlt hne
    · have hold := Nat.lt_of_not_le hnew
      by_cases hcur : b = B'.cur
      · rw [hcur]
        rw [hcur] at hlt hne
        exact h.unended.ended (h'.ended B'.cur (.inl rfl) hlt hne)
      · rw [h'.code_old hle' hold hcur, List.append_nil]
        exact h.ended b hb hold hcur
  case unended =>
    rw [Log.code_append]
    rcases hle'.cur with hcur | hcur
    · rw [hcur]
      have hun := h'.unended
      rw [hcur] at hun
      exact h.unended.append hun
    · rw [h.code_fresh hwf hcur, List.nil_append]
      exact h'.unended
  case phis =>
    intro b dst inc hphi
    rcases List.mem_append.mp hphi with hphi | hphi
    · rcases h.phis b dst inc hphi with ⟨hb, hnd, hpred⟩
      refine ⟨hb, hnd, ?_⟩
      intro p
      rw [hpred, Log.pred_append, or_iff_left]
      -- the second stretch branches to its own blocks
      rintro ⟨i, hi, ht⟩
      have hge := (h'.targets _ hi b ht).1
      have hmem := Log.mem_code.mpr hphi
      rw [h.code_fresh hwf hge] at hmem
      cases hmem
    · rcases h'.phis b dst inc hphi with ⟨hb, hnd, hpred⟩
      refine ⟨Nat.le_trans hle.blk hb, hnd, ?_⟩
      intro p
      rw [hpred, Log.pred_append, or_iff_right]
      rintro ⟨i, hi, ht⟩
      exact absurd (h.targets _ hi b ht).2 (Nat.not_lt_of_le hb)
  case forward =>
    rw [forward_append, ← h.log]
    exact ⟨h.forward, h'.forward⟩
  case main =>
    rw [Log.instrs_append]
    exact (h.main.extend hle'.log).append h'.main

end Segment

theorem Stretch.refl {B : Builder} (h : B.Wf) : Stretch B B [] := by
  refine ⟨.refl B, h, [], ?_, rfl⟩
  constructor
  case log => rw [List.append_nil]
  case plain => exact fun _ he => absurd he List.not_mem_nil
  case targets => exact fun _ he => absurd he List.not_mem_nil
  case ended =>
    intro b hb hlt hne
    rcases hb with hb | hb
    · exact absurd hb hne
    · exact absurd hlt (Nat.not_lt_of_le hb)
  case unended => exact unended_nil
  case phis => exact fun _ _ _ he => absurd he List.not_mem_nil
  case forward => trivial
  case main => exact .nil _

theorem Stretch.trans {B B' B'' : Builder} {ms ms' : List Site} (h : Stretch B B' ms)
    (h' : Stretch B' B'' ms') : Stretch B B'' (ms ++ ms') := by
  rcases h.seg with ⟨seg, hseg, rfl⟩
  rcases h'.seg with ⟨seg', hseg', rfl⟩
  refine ⟨h.le.trans h'.le, h'.wf, seg ++ seg', hseg.trans hseg' h.le h'.le h.wf, ?_⟩
  rw [Log.instrs_append, marksOf_append]

/-- An instruction in the middle of a block. -/
theorem Stretch.push {B : Builder} (h : B.Wf) {i : Instr} (hi : i.isTerminator = false)
    (hphi : ∀ dst inc, i ≠ .phi dst inc) : Stretch B (B.push i) (marksOf [i]) := by
  have htargets : i.targets = [] := by
    cases i with
    | br => cases hi
    | condBr => cases hi
    | _ => rfl
  refine ⟨.push B i, h.push i, [(B.cur, i)], ?_, rfl⟩
  constructor
  case log => rfl
  case plain =>
    intro e he
    rcases List.mem_singleton.mp he with rfl
    constructor
    · rintro n v rfl
      cases hi
    · rintro v rfl
      cases hi
  case targets =>
    intro e he t ht
    rcases List.mem_singleton.mp he with rfl
    rw [htargets] at ht
    cases ht
  case ended =>
    intro b hb hlt hne
    rcases hb with hb | hb
    · exact absurd hb hne
    · exact absurd hlt (Nat.not_lt_of_le hb)
  case unended =>
    intro j hj
    have hj' : (B.cur, j) = (B.cur, i) := List.mem_singleton.mp (Log.mem_code.mp hj)
    rcases Prod.mk.inj hj' with ⟨_, rfl⟩
    exact hi
  case phis =>
    intro b dst inc he
    rcases Prod.mk.inj (List.mem_singleton.mp he) with ⟨_, he⟩
    exact absurd he.symm (hphi dst inc)
  case forward =>
    refine ⟨?_, trivial⟩
    intro t ht
    rw [htargets] at ht
    cases ht
  case main =>
    refine .single ?_ ?_
    · change ((B.push i).code B.cur)[(B.code B.cur).length]? = some i
      rw [B.code_push_self, List.getElem?_append_right (Nat.le_refl _), Nat.sub_self]
      rfl
    · unfold Instr.next Builder.point
      rw [hi, show (B.push i).cur = B.cur from rfl, B.code_push_self, List.length_append]
      exact List.mem_singleton.mpr rfl

theorem Stretch.congr {B B' C' : Builder} {ms : List Site} (h : Stretch B B' ms)
    (hlog : C'.log = B'.log) (hcur : C'.cur = B'.cur) (hblk : C'.nextBlk = B'.nextBlk)
    (hreg : B'.nextReg ≤ C'.nextReg) (herr : B'.errors <+: C'.errors) : Stretch B C' ms := by
  have hcode : ∀ b, C'.code b = B'.code b := by
    intro b
    unfold Builder.code
    rw [hlog]
  rcases h with ⟨hle, hwf, seg, hseg, hms⟩
  refine ⟨?_, ?_, seg, ?_, hms⟩
  · constructor
    case log => rw [hlog]; exact hle.log
    case blk => rw [hblk]; exact hle.blk
    case reg => exact Nat.le_trans hle.reg hreg
    case cur => rw [hcur]; exact hle.cur
    case kept =>
      intro b hb hne
      rw [hcode]
      exact hle.kept b hb hne
    case errors => exact hle.errors.trans herr
  · constructor
    · rw [hcur, hblk]
      exact hwf.cur
    · intro b hb
      rw [hcode]
      rw [hblk] at hb
      exact hwf.fresh b hb
  · constructor
    case log => rw [hlog]; exact hseg.log
    case plain => exact hseg.plain
    case targets => rw [hblk]; exact hseg.targets
    case ended => rw [hblk, hcur]; exact hseg.ended
    case unended => rw [hcur]; exact hseg.unended
    case phis => exact hseg.phis
    case forward => exact hseg.forward
    case main =>
      have hpoint : C'.point = B'.point := by
        unfold Builder.point
        rw [hcur, hcode]
      rw [hlog, hpoint]
      exact hseg.main

end Hlang.Codegen
