import Hlang.Lib.Signed
import Hlang.Codegen.Dispatch

/-!
# Hlang.Codegen.CaseRange — the arithmetic of case labels

`labelArith` is what `genCaseLabel` computes on the bounds of a label, with every signed
operation checked. It has a result exactly where `checkCaseRange` does, and then the loop
adds the values from one bound to the other.
-/

namespace Hlang.Codegen

open Ir Gen Cg Signed

/-- `hi < lo || hi - lo > 100000` -/
def rangeTooLarge (lo hi : I64) : Option Bool :=
  if hi.slt lo then some true else (sub? hi lo).map fun n => (100000 : I64).slt n

/-- The value of the next null case, whether the range is too large, and the values of the
loop. -/
def labelArith (lo hi : I64) : Option (I64 × Bool × List I64) := do
  let next ← succ? hi
  let large ← rangeTooLarge lo hi
  let vs ← upto lo (if large then lo else hi)
  return (next, large, vs)

section Arith

variable {lo hi next : I64} {large : Bool} {vs : List I64}

theorem toInt_intMax64 : (BitVec.intMax 64).toInt = 2 ^ 63 - 1 := by decide

theorem ne_intMax_iff {x : I64} : x ≠ BitVec.intMax 64 ↔ x.toInt < 2 ^ 63 - 1 := by
  have hle := toInt_le_intMax x
  rw [toInt_intMax64] at hle
  rw [Ne, ← BitVec.toInt_inj, toInt_intMax64]
  omega

/-- The width overflows from 2^63 on. -/
theorem sub?_width (h : lo.toInt ≤ hi.toInt) :
    sub? hi lo = if 2 ^ 63 ≤ hi.toInt - lo.toInt then none else some (hi - lo) := by
  unfold sub? BitVec.ssubOverflow
  refine if_congr ?_ rfl rfl
  rw [Bool.or_eq_true, decide_eq_true_iff, decide_eq_true_iff]
  constructor
  · rintro (h' | h')
    · exact h'
    · omega
  · exact .inl

theorem toInt_width (h : lo.toInt ≤ hi.toInt) (hlt : hi.toInt - lo.toInt < 2 ^ 63) :
    (hi - lo).toInt = hi.toInt - lo.toInt := by
  rw [BitVec.toInt_sub]
  exact Int.bmod_eq_of_le (by omega) (by omega)

theorem caseVals_toInt (lo hi : I64) : (caseVals lo hi).map BitVec.toInt =
    (List.range (hi.toInt + 1 - lo.toInt).toNat).map fun k : Nat => lo.toInt + k := by
  have hlen : hi.toInt - lo.toInt + 1 = hi.toInt + 1 - lo.toInt := by omega
  unfold caseVals
  rw [List.map_map, hlen]
  refine List.map_congr_left fun k hk => ?_
  have hk' := List.mem_range.mp hk
  have hlo := BitVec.le_toInt lo
  have hhi := BitVec.toInt_lt (x := hi)
  change (lo + BitVec.ofNat 64 k).toInt = lo.toInt + k
  rw [BitVec.toInt_add, BitVec.toInt_ofNat', Int.add_bmod_bmod]
  exact Int.bmod_eq_of_le (by omega) (by omega)

theorem upto_caseVals (h : hi ≠ BitVec.intMax 64) : upto lo hi = some (caseVals lo hi) := by
  rcases upto_eq h lo with ⟨vs, hvs, hmap⟩
  rw [hvs]
  rw [← caseVals_toInt] at hmap
  exact congrArg some ((List.map_injective_iff.mpr fun _ _ => BitVec.eq_of_toInt_eq) hmap)

theorem nodup_caseVals (lo hi : I64) : (caseVals lo hi).Nodup := by
  refine List.Nodup.of_map BitVec.toInt ?_
  rw [caseVals_toInt]
  refine List.nodup_range.map ?_
  intro k k' h
  have h' : lo.toInt + (k : ℤ) = lo.toInt + k' := h
  omega

theorem length_caseVals (lo hi : I64) :
    (caseVals lo hi).length = (hi.toInt - lo.toInt + 1).toNat := by
  unfold caseVals
  rw [List.length_map, List.length_range]

/-- The bounds have a successor, and the width is in range. -/
def RangeFits (lo hi : I64) : Prop :=
  lo ≠ BitVec.intMax 64 ∧ hi ≠ BitVec.intMax 64 ∧ hi.toInt - lo.toInt < 2 ^ 63

instance (lo hi : I64) : Decidable (RangeFits lo hi) := inferInstanceAs (Decidable (_ ∧ _ ∧ _))

/-- The range is empty or has more than 100001 values. -/
def RangeLarge (lo hi : I64) : Prop := hi.toInt < lo.toInt ∨ 100000 < hi.toInt - lo.toInt

instance (lo hi : I64) : Decidable (RangeLarge lo hi) := inferInstanceAs (Decidable (_ ∨ _))

theorem rangeTooLarge_eq (h : hi.toInt - lo.toInt < 2 ^ 63) :
    rangeTooLarge lo hi = some (decide (RangeLarge lo hi)) := by
  unfold rangeTooLarge
  by_cases hlt : hi.toInt < lo.toInt
  · have hlarge : RangeLarge lo hi := .inl hlt
    rw [if_pos (BitVec.slt_iff_toInt_lt.mpr hlt), decide_eq_true hlarge]
  · have hle := Int.not_lt.mp hlt
    rw [if_neg (fun hs => hlt (BitVec.slt_iff_toInt_lt.mp hs)), sub?_width hle,
      if_neg (Int.not_le.mpr h)]
    refine congrArg some (Bool.eq_iff_iff.mpr ?_)
    rw [BitVec.slt_iff_toInt_lt, toInt_width hle h, decide_eq_true_iff]
    constructor
    · exact fun h' => .inr h'
    · rintro (h' | h')
      · exact absurd h' hlt
      · exact h'

theorem rangeTooLarge_none (h : 2 ^ 63 ≤ hi.toInt - lo.toInt) : rangeTooLarge lo hi = none := by
  have hle : lo.toInt ≤ hi.toInt := by omega
  unfold rangeTooLarge
  rw [if_neg (fun hs => Int.not_lt.mpr hle (BitVec.slt_iff_toInt_lt.mp hs)), sub?_width hle, if_pos h]
  rfl

/-- The arithmetic of a label has a result exactly where its bounds fit. -/
theorem labelArith_eq (lo hi : I64) : labelArith lo hi =
    if RangeFits lo hi then
      some (hi + 1, decide (RangeLarge lo hi), caseVals lo (if RangeLarge lo hi then lo else hi))
    else none := by
  unfold labelArith
  by_cases hhi : hi = BitVec.intMax 64
  · have hno : ¬ RangeFits lo hi := fun h => h.2.1 hhi
    rw [if_neg hno, hhi]
    rfl
  · have hsucc : succ? hi = some (hi + 1) := succ?_eq_some.mpr ⟨hhi, rfl⟩
    rw [hsucc]
    by_cases hw : hi.toInt - lo.toInt < 2 ^ 63
    · rw [rangeTooLarge_eq hw]
      change (upto lo (if decide (RangeLarge lo hi) = true then lo else hi)).bind _ = _
      simp only [decide_eq_true_iff]
      by_cases hlo : lo = BitVec.intMax 64
      · -- the range is empty: the loop counts past the lower bound
        have hlarge : RangeLarge lo hi := by
          left
          rw [hlo]
          have hlt := ne_intMax_iff.mp hhi
          rw [toInt_intMax64]
          omega
        rw [if_pos hlarge, if_neg (fun h => h.1 hlo), hlo, upto_intMax]
        rfl
      · have hfits : RangeFits lo hi := ⟨hlo, hhi, hw⟩
        have hend : (if RangeLarge lo hi then lo else hi) ≠ BitVec.intMax 64 := by
          split
          · exact hlo
          · exact hhi
        rw [if_pos hfits, upto_caseVals hend]
        rfl
    · rw [if_neg (fun h => hw h.2.2), rangeTooLarge_none (Int.not_lt.mp hw)]
      rfl

end Arith

/-! ## The range of a label -/

section Range

variable {Γ : Env} {loc : SrcLoc} {lo hi : I64} {F : FnCtx}

/-- `checkCaseRange` has no result where the arithmetic of the label overflows, and reports
a range that is too large. -/
theorem checkCaseRange_arith : checkCaseRange loc lo hi F =
    if RangeFits lo hi then
      if RangeLarge lo hi then
        .ok (lo, { F with b := { F.b with errors := F.b.errors ++ [(loc, "case range too large")] } })
      else .ok (hi, F)
    else .error .undefined := by
  unfold checkCaseRange
  by_cases hhi : hi = BitVec.intMax 64
  · have hno : ¬ RangeFits lo hi := fun h => h.2.1 hhi
    rw [if_pos hhi, if_neg hno]
    rfl
  rw [if_neg hhi]
  by_cases hlt : hi.toInt < lo.toInt
  · have hlarge : RangeLarge lo hi := .inl hlt
    rw [if_pos (BitVec.slt_iff_toInt_lt.mpr hlt), if_pos hlarge]
    by_cases hlo : lo = BitVec.intMax 64
    · have hno : ¬ RangeFits lo hi := fun h => h.1 hlo
      rw [if_pos hlo, if_neg hno]
      rfl
    · have hfits : RangeFits lo hi := ⟨hlo, hhi, by omega⟩
      rw [if_neg hlo, if_pos hfits]
      rfl
  · have hle := Int.not_lt.mp hlt
    rw [if_neg (fun hs => hlt (BitVec.slt_iff_toInt_lt.mp hs))]
    by_cases hw : hi.toInt - lo.toInt < 2 ^ 63
    · have hlo : lo ≠ BitVec.intMax 64 := by
        have hmax := ne_intMax_iff.mp hhi
        rw [ne_intMax_iff]
        omega
      have hfits : RangeFits lo hi := ⟨hlo, hhi, hw⟩
      rw [if_neg (Int.not_le.mpr hw), if_pos hfits]
      by_cases hmany : 100000 < hi.toInt - lo.toInt
      · have hlarge : RangeLarge lo hi := .inr hmany
        rw [if_pos hmany, if_pos hlarge]
        rfl
      · have hsmall : ¬ RangeLarge lo hi := by
          rintro (h | h)
          · exact hlt h
          · exact hmany h
        rw [if_neg hmany, if_neg hsmall]
        rfl
    · have hno : ¬ RangeFits lo hi := fun h => hw h.2.2
      rw [if_pos (Int.not_lt.mp hw), if_neg hno]
      rfl

/-- The bounds of a label, where its expressions are constant; a null case has those of the
next value. -/
inductive LabelBounds (Γ : Env) (next : I64) : Option (Expr × Option Expr) → I64 → I64 → Prop where
  | null : LabelBounds Γ next none next next
  | value {e : Expr} {v : I64} (h : Γ.evalConst e = .ok v) : LabelBounds Γ next (some (e, none)) v v
  | range {e e' : Expr} {lo hi : I64} (h : Γ.evalConst e = .ok lo) (h' : Γ.evalConst e' = .ok hi) :
      LabelBounds Γ next (some (e, some e')) lo hi

theorem genCaseVal_const {e : Expr} {v : I64} (h : Γ.evalConst e = .ok v) (msg : String)
    (dflt : I64) : genCaseVal Γ loc e msg dflt F = .ok (v, F) := by
  have heval : ({ Γ with scopes := F.scopes } : Env).evalConst e = .ok v := by
    rw [evalConst_scopes, h]
  unfold genCaseVal
  refine Cg.bind_eq_ok.mpr ⟨F, F, rfl, ?_⟩
  rw [heval]
  rfl

theorem genCaseRange_bounds {next : I64} {c : Option (Expr × Option Expr)}
    (h : LabelBounds Γ next c lo hi) : genCaseRange Γ loc c next F = .ok ((lo, hi), F) := by
  unfold genCaseRange
  cases h with
  | null => rfl
  | value h =>
      refine Cg.bind_eq_ok.mpr ⟨lo, F, genCaseVal_const h _ _, ?_⟩
      rfl
  | range h h' =>
      refine Cg.bind_eq_ok.mpr ⟨lo, F, genCaseVal_const h _ _, ?_⟩
      refine Cg.bind_eq_ok.mpr ⟨hi, F, genCaseVal_const h' _ _, ?_⟩
      rfl

end Range

/-! ## What a label adds to the table -/

/-- The switch has a table, and a group that is open has another one. -/
def SwitchCtx.HasTable (swc : SwitchCtx) (F : FnCtx) : Prop :=
  swc.sw < F.tables.length ∧ swc.groupSw ≠ some swc.sw

/-- The items of a switch keep its table apart from those of its groups. -/
theorem Onward.hasTable {S : ScopesIn} {swc swc' : SwitchCtx} {F F' : FnCtx}
    (h : Onward S swc F swc' F') (hswc : swc.HasTable F) : swc'.HasTable F' := by
  rcases h with ⟨hext, ⟨hsw, hgroup⟩, _⟩
  rw [SwitchCtx.HasTable, hsw]
  refine ⟨Nat.lt_of_lt_of_le hswc.1 hext.len, ?_⟩
  intro hg
  rcases hgroup _ hg with hold | hnew
  · exact hswc.2 hold
  · exact Nat.not_le_of_lt hswc.1 hnew

/-- The values from `lo` to `hi`, each of them once. -/
structure EachOnce (lo hi : I64) (vs : List I64) : Prop where
  nodup : vs.Nodup
  mem : ∀ x, x ∈ vs ↔ lo.toInt ≤ x.toInt ∧ x.toInt ≤ hi.toInt
  length : (vs.length : ℤ) = hi.toInt - lo.toInt + 1

/-- A label for the values from `lo` to `hi`, or a report; the next null case is one past
`hi`. -/
structure Labels (loc : SrcLoc) (lo hi : I64) (swc swc' : SwitchCtx) (F F' : FnCtx) : Prop where
  next : swc'.nextCaseVal.toInt = hi.toInt + 1
  values : (∃ es, F'.b.errors = F.b.errors ++ (loc, "case range too large") :: es) ∨
    ∃ t vs bb, EachOnce lo hi vs ∧ F.tables[swc.sw]? = some t ∧
      F'.tables[swc.sw]? = some (SwitchTable.add vs bb t)

section Labels

variable {Γ : Env} {loc : SrcLoc} {lo hi : I64} {F : FnCtx} {swc : SwitchCtx} {bb : Blk}

theorem bindOk {α β : Type} {x : Cg α} {f : α → Cg β} {F F₁ : FnCtx} {a : α}
    (h : x F = .ok (a, F₁)) : (x >>= f) F = f a F₁ := by
  change (x F >>= fun p => f p.1 p.2) = _
  rw [h]
  rfl

theorem eachOnce_caseVals (h : lo.toInt ≤ hi.toInt) : EachOnce lo hi (caseVals lo hi) where
  nodup := nodup_caseVals lo hi
  mem := fun _ => mem_caseVals
  length := by
    rw [length_caseVals]
    omega

theorem brIfOpen_total (bb : Blk) (F : FnCtx) : ∃ F', brIfOpen bb F = .ok ((), F') ∧
    F'.tables = F.tables ∧ F'.b.errors = F.b.errors := by
  by_cases hopen : ((F.b.log.code F.b.cur).getLast?.any (·.isTerminator)) = true
  · refine ⟨F, Cg.bind_eq_ok.mpr ⟨true, F, ?_, rfl⟩, rfl, rfl⟩
    exact congrArg (fun b => Except.ok (b, F)) hopen
  · refine ⟨_, Cg.bind_eq_ok.mpr ⟨false, F, ?_, rfl⟩, rfl, rfl⟩
    exact congrArg (fun b => Except.ok (b, F)) (Bool.eq_false_iff.mpr hopen)

theorem genGroupDispatch_total (loc : SrcLoc) (swc : SwitchCtx) (bb : Blk) (F : FnCtx) :
    ∃ g F', genGroupDispatch loc swc bb F = .ok (g, F') ∧ F.tables <+: F'.tables ∧
      F.b.errors <+: F'.b.errors ∧ ∀ n, g = some n → swc.groupSw = some n ∨ F.tables.length ≤ n := by
  unfold genGroupDispatch
  cases hg : swc.groupSw with
  | some n =>
      rcases brIfOpen_total bb F with ⟨F', hbr, htables, herrors⟩
      refine ⟨some n, F', Cg.bind_eq_ok.mpr ⟨_, F', hbr, rfl⟩, ?_, ?_, fun _ => .inl⟩
      · rw [htables]
      · rw [herrors]
  | none =>
      by_cases hopen : ((F.b.log.code F.b.cur).getLast?.any (·.isTerminator)) = true
      · have hterm : hasTerminator F = .ok (true, F) :=
          congrArg (fun b => Except.ok (b, F)) hopen
        refine ⟨none, _, Cg.bind_eq_ok.mpr ⟨true, F, hterm, rfl⟩, ?_, ?_, fun _ h => nomatch h⟩
        · exact List.prefix_refl _
        · exact List.prefix_append _ _
      · have hterm : hasTerminator F = .ok (false, F) :=
          congrArg (fun b => Except.ok (b, F)) (Bool.eq_false_iff.mpr hopen)
        refine ⟨some F.tables.length, _, Cg.bind_eq_ok.mpr ⟨false, F, hterm, rfl⟩, ?_, ?_, ?_⟩
        · exact List.prefix_append _ _
        · exact List.prefix_refl _
        · rintro n h
          exact .inr (Nat.le_of_eq (Option.some.inj h))

/-- A label outside of groups adds its values. -/
theorem genPlainCase_total (swc : SwitchCtx) (lo hi : I64) (bb : Blk) (F : FnCtx) :
    ∃ F', genPlainCase swc lo hi bb F = .ok (swc, F') ∧ F'.b.errors = F.b.errors ∧
      F'.tables = F.tables.modify swc.sw (SwitchTable.add (caseVals lo hi) bb) := by
  rcases brIfOpen_total bb F with ⟨F', hbr, htables, herrors⟩
  refine ⟨_, Cg.bind_eq_ok.mpr ⟨_, F', hbr, rfl⟩, herrors, ?_⟩
  rw [← htables]
  rfl

theorem getElem?_modify_prefix {α : Type} {l l' : List α} (h : l <+: l') {n : Nat} (hn : n < l.length)
    (f : α → α) : (l'.modify n f)[n]? = l[n]?.map f := by
  rw [List.getElem?_modify_eq, List.prefix_iff_getElem?.mp h n hn, List.getElem?_eq_getElem hn]
  rfl

/-- A label in a group adds its values, except where the number of the label overflows. -/
theorem genGroupCase_total (hswc : swc.HasTable F) (hid : swc.nextGroupId + 1 ≠ 2 ^ 31) :
    ∃ swc' F' b, genGroupCase loc swc lo hi bb F = .ok (swc', F') ∧
      swc'.nextCaseVal = swc.nextCaseVal ∧ F.b.errors <+: F'.b.errors ∧
      F'.tables[swc.sw]? = (F.tables[swc.sw]?).map (SwitchTable.add (caseVals lo hi) b) := by
  rcases genGroupDispatch_total loc swc bb F with ⟨g, F₁, hdispatch, htables, herrors, hg⟩
  have hx : genGroupCase loc swc lo hi bb F = _ := bindOk hdispatch
  rw [if_neg hid] at hx
  have hmain := getElem?_modify_prefix htables hswc.1
    (SwitchTable.add (caseVals lo hi) F₁.b.nextBlk)
  cases g with
  | none => exact ⟨_, _, F₁.b.nextBlk, hx, rfl, herrors, hmain⟩
  | some n =>
      have hne : n ≠ swc.sw := by
        rintro rfl
        rcases hg _ rfl with hold | hnew
        · exact hswc.2 hold
        · exact Nat.not_le_of_lt hswc.1 hnew
      refine ⟨_, _, F₁.b.nextBlk, hx, rfl, herrors, ?_⟩
      change ((F₁.tables.modify swc.sw _).modify n _)[swc.sw]? = _
      rw [List.getElem?_modify_ne _ _ hne]
      exact hmain

theorem genCase_total (loc : SrcLoc) (lo hi : I64) (bb : Blk) (hswc : swc.HasTable F)
    (hid : swc.inGroup = true → swc.nextGroupId + 1 ≠ 2 ^ 31) :
    ∃ swc' F' b, genCase loc swc lo hi bb F = .ok (swc', F') ∧
      swc'.nextCaseVal = swc.nextCaseVal ∧ F.b.errors <+: F'.b.errors ∧
      F'.tables[swc.sw]? = (F.tables[swc.sw]?).map (SwitchTable.add (caseVals lo hi) b) := by
  unfold genCase
  split
  · next hin => exact genGroupCase_total hswc (hid hin)
  · rcases genPlainCase_total swc lo hi bb F with ⟨F', hF', herrors, htables⟩
    refine ⟨swc, F', bb, hF', rfl, ?_, ?_⟩
    · rw [herrors]
    · rw [htables, List.getElem?_modify_eq]
      rfl

/-- `genCaseLabel` once its range is checked. -/
theorem genCaseLabel_of_range {c : Option (Expr × Option Expr)} {v : I64} {F₁ : FnCtx}
    (hb : LabelBounds Γ swc.nextCaseVal c lo hi) (hcheck : checkCaseRange loc lo hi F = .ok (v, F₁)) :
    genCaseLabel Γ loc c swc F = (do
      let bb ← ir newBlock
      let swc ← genCase loc { swc with nextCaseVal := hi + 1 } lo v bb
      ir (setInsertPoint bb)
      return swc) F₁ := by
  have hrange : genCaseRange Γ loc c swc.nextCaseVal F = _ := genCaseRange_bounds hb
  unfold genCaseLabel
  refine (bindOk hrange).trans ?_
  exact bindOk hcheck

/-- The label ends with a result where its bounds fit, unless the number of labels of its
group overflows. -/
theorem genCaseLabel_total {c : Option (Expr × Option Expr)} (hswc : swc.HasTable F)
    (hb : LabelBounds Γ swc.nextCaseVal c lo hi) (hfits : RangeFits lo hi)
    (hid : swc.inGroup = true → swc.nextGroupId + 1 ≠ 2 ^ 31) :
    ∃ swc' F', genCaseLabel Γ loc c swc F = .ok (swc', F') ∧ Labels loc lo hi swc swc' F F' := by
  have hnext : ∀ {swc' : SwitchCtx}, swc'.nextCaseVal = hi + 1 →
      swc'.nextCaseVal.toInt = hi.toInt + 1 := by
    intro swc' h
    rw [h]
    exact toInt_succ hfits.2.1
  have hcheck : checkCaseRange loc lo hi F = _ := checkCaseRange_arith
  rw [if_pos hfits] at hcheck
  split at hcheck
  · -- the range is reported, and its first value is used
    rw [genCaseLabel_of_range hb hcheck]
    let F₁ : FnCtx :=
      { F with b := { F.b with errors := F.b.errors ++ [(loc, "case range too large")] } }
    have hswc₁ : SwitchCtx.HasTable { swc with nextCaseVal := hi + 1 }
      { F₁ with b := { F₁.b with nextBlk := F₁.b.nextBlk + 1 } } := hswc
    rcases genCase_total loc lo lo F.b.nextBlk hswc₁ hid with
      ⟨swc', F', b, hcase, hval, herrors, _⟩
    refine ⟨swc', _, Cg.bind_eq_ok.mpr ⟨F.b.nextBlk, _, rfl, Cg.bind_eq_ok.mpr ⟨swc', F', hcase,
      Cg.bind_eq_ok.mpr ⟨(), _, rfl, rfl⟩⟩⟩, hnext hval, .inl ?_⟩
    rcases herrors with ⟨es, hes⟩
    refine ⟨es, ?_⟩
    rw [← List.singleton_append, ← List.append_assoc]
    exact hes.symm
  · next hsmall =>
      have hle : lo.toInt ≤ hi.toInt := Int.not_lt.mp fun h => hsmall (.inl h)
      rw [genCaseLabel_of_range hb hcheck]
      have hswc₁ : SwitchCtx.HasTable { swc with nextCaseVal := hi + 1 }
        { F with b := { F.b with nextBlk := F.b.nextBlk + 1 } } := hswc
      rcases genCase_total loc lo hi F.b.nextBlk hswc₁ hid with
        ⟨swc', F', b, hcase, hval, _, htable⟩
      refine ⟨swc', _, Cg.bind_eq_ok.mpr ⟨F.b.nextBlk, _, rfl, Cg.bind_eq_ok.mpr ⟨swc', F', hcase,
        Cg.bind_eq_ok.mpr ⟨(), _, rfl, rfl⟩⟩⟩, hnext hval, .inr ?_⟩
      have ht : F.tables[swc.sw]? = some (F.tables.get ⟨swc.sw, hswc.1⟩) := List.getElem?_eq_getElem hswc.1
      refine ⟨_, caseVals lo hi, b, eachOnce_caseVals hle, ht, ?_⟩
      exact htable.trans (congrArg (Option.map _) ht)

/-- A label covers its range if and only if the bounds have successors and the width does
not overflow. -/
theorem genCaseLabel_labels_iff {c : Option (Expr × Option Expr)} (hswc : swc.HasTable F)
    (hb : LabelBounds Γ swc.nextCaseVal c lo hi) :
    (∃ swc' F', genCaseLabel Γ loc c swc F = .ok (swc', F') ∧ Labels loc lo hi swc swc' F F') ↔
      RangeFits lo hi ∧ (swc.inGroup = true → swc.nextGroupId + 1 ≠ 2 ^ 31) := by
  constructor
  · rintro ⟨swc', F', hx, _⟩
    unfold genCaseLabel at hx
    rcases Cg.bind_eq_ok.mp hx with ⟨r, F₁, hrange, hx⟩
    rcases Cg.bind_eq_ok.mp hx with ⟨v, F₂, hcheck, hx⟩
    rcases Cg.bind_eq_ok.mp hx with ⟨bb, F₃, hbb, hx⟩
    rcases Cg.bind_eq_ok.mp hx with ⟨swc₁, F₄, hcase, hret⟩
    rcases Prod.mk.inj (Except.ok.inj (hrange.symm.trans (genCaseRange_bounds hb))) with ⟨rfl, rfl⟩
    constructor
    · by_contra hno
      rw [checkCaseRange_arith, if_neg hno] at hcheck
      cases hcheck
    · intro hin hid
      unfold genCase at hcase
      rw [if_pos hin] at hcase
      unfold genGroupCase at hcase
      rcases Cg.bind_eq_ok.mp hcase with ⟨g, F₅, _, hcase⟩
      rw [if_pos hid] at hcase
      cases hcase
  · rintro ⟨hfits, hid⟩
    exact genCaseLabel_total hswc hb hfits hid

end Labels

/-- A switch before its first label. -/
def labelCtx : FnCtx := { tables := [⟨0, []⟩] }

/-- `case 3...5:` -/
theorem genCaseLabel_labels_three : ∃ swc' F', genCaseLabel {} {} (some (.intLit {} 3, some (.intLit {} 5)))
    { sw := 0, exitBB := 0 } labelCtx = .ok (swc', F') ∧
      Labels {} 3 5 { sw := 0, exitBB := 0 } swc' labelCtx F' :=
  (genCaseLabel_labels_iff ⟨by decide, by decide⟩ (.range rfl rfl)).mpr
    ⟨by decide, fun h => absurd h (by decide)⟩

/-- `case 0x7FFFFFFFFFFFFFFF:` has no next value. -/
theorem genCaseLabel_intMax : ¬ ∃ swc' F', genCaseLabel {} {}
    (some (.intLit {} (BitVec.intMax 64), none)) { sw := 0, exitBB := 0 } labelCtx = .ok (swc', F') ∧
      Labels {} (BitVec.intMax 64) (BitVec.intMax 64) { sw := 0, exitBB := 0 } swc' labelCtx F' := by
  rintro ⟨swc', F', hx, _⟩
  have hstop : genCaseLabel {} {} (some (.intLit {} (BitVec.intMax 64), none))
      { sw := 0, exitBB := 0 } labelCtx = .error .undefined := rfl
  rw [hstop] at hx
  cases hx

end Hlang.Codegen
