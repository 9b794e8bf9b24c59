import Hlang.Codegen.Env
import Hlang.Lib.Span
import Hlang.Parser.Layout

/-!
# Hlang.Access — access paths and their byte ranges

A path goes from a variable to a part of it by member names, array indices and
sub-int steps. Over a class graph the range of a path lies inside the variable,
and paths that part at a member of a class without unions, or at an index, have
ranges that are apart.
-/

namespace Hlang

open Codegen

/-- A step of an access path. -/
inductive Step where
  | member (name : String)
  | index (k : ℕ)
  /-- `.u8[k]` and the like; `.u8` alone is `.u8[0]` -/
  | subInt (name : String) (k : ℕ)
deriving DecidableEq

/-- Where a step leads from a value of type `t`: an offset in it and the type of
the part. An index is in range, and the elements have a size. -/
def Step.from (H : Heap) (fuel : Nat) (t : Ty) : Step → Option (ℕ × Ty)
  | .member n =>
      match t with
      | .cls c => (findMember H fuel c n).join.map fun m => (m.offset.toNat, m.type)
      | _ => none
  | .index k =>
      match t with
      | .array elem len =>
          if 0 < elem.extent H ∧ k < len.toNat then some (k * elem.extent H, elem) else none
      | _ => none
  | .subInt n k =>
      if t.isInt || t.isF64 then
        (subIntType n).bind fun sub =>
          if (k + 1) * sub.extent H ≤ t.extent H then some (k * sub.extent H, sub) else none
      else none

/-- Where a path leads. -/
def follow (H : Heap) (fuel : Nat) : Ty → List Step → Option (ℕ × Ty)
  | t, [] => some (0, t)
  | t, s :: ss => (s.from H fuel t).bind fun r => (follow H fuel r.2 ss).map fun r' =>
      (r.1 + r'.1, r'.2)

theorem Step.from_index (H : Heap) (fuel : Nat) (elem : Ty) (len : I64) (k : ℕ) :
    (Step.index k).from H fuel (.array elem len) =
      if 0 < elem.extent H ∧ k < len.toNat then some (k * elem.extent H, elem) else none := rfl

theorem Step.from_subInt (H : Heap) (fuel : Nat) (t : Ty) (n : String) (k : ℕ) :
    (Step.subInt n k).from H fuel t =
      if t.isInt || t.isF64 then
        (subIntType n).bind fun sub =>
          if (k + 1) * sub.extent H ≤ t.extent H then some (k * sub.extent H, sub) else none
      else none := rfl

/-- The classes a value of type `t` holds are complete. -/
def Ty.Complete (H : Heap) (t : Ty) : Prop := ∀ c, t.byValue = some c → (H c).complete = true

/-- `c` and its bases are classes that were not defined as unions. -/
inductive Packed (H : Heap) (D : ClassId → Bool → Prop) : ClassId → Prop where
  | mk {c : ClassId} (own : D c false) (bases : ∀ b, HasBase H c b → Packed H D b) : Packed H D c

/-- Two steps from a value of type `t` that part at a member of a class without
unions or at an index. -/
def Step.Part (H : Heap) (D : ClassId → Bool → Prop) (t : Ty) : Step → Step → Prop
  | .member n, .member n' => n ≠ n' ∧ ∀ c, t = .cls c → Packed H D c
  | .index k, .index k' => k ≠ k'
  | .subInt n k, .subInt n' k' => n = n' ∧ k ≠ k'
  | _, _ => False

section

variable {H : Heap} {D : ClassId → Bool → Prop} {fuel : Nat} {t t' : Ty} {c : ClassId}

theorem follow_cons (t : Ty) (s : Step) (ss : List Step) :
    follow H fuel t (s :: ss) = (s.from H fuel t).bind fun r => (follow H fuel r.2 ss).map fun r' =>
      (r.1 + r'.1, r'.2) := rfl

theorem follow_append (t : Ty) (p q : List Step) :
    follow H fuel t (p ++ q) = (follow H fuel t p).bind fun r => (follow H fuel r.2 q).map fun r' =>
      (r.1 + r'.1, r'.2) := by
  induction p generalizing t with
  | nil =>
      rw [List.nil_append]
      change _ = (follow H fuel t q).map fun r' => (0 + r'.1, r'.2)
      cases follow H fuel t q <;> simp
  | cons s p ih =>
      rw [List.cons_append, follow_cons, follow_cons]
      cases s.from H fuel t with
      | none => rfl
      | some r =>
          simp only [Option.bind_some, ih r.2]
          cases hp : follow H fuel r.2 p with
          | none => rfl
          | some r' => simp [Nat.add_assoc, Function.comp_def]

theorem follow_snoc {t : Ty} {p : List Step} {s : Step} {r : ℕ × Ty}
    (h : follow H fuel t (p ++ [s]) = some r) : ∃ r₁ r₂, follow H fuel t p = some r₁ ∧
      s.from H fuel r₁.2 = some r₂ ∧ r = (r₁.1 + r₂.1, r₂.2) := by
  rw [follow_append] at h
  rcases Option.bind_eq_some_iff.mp h with ⟨r₁, h₁, h⟩
  rcases Option.map_eq_some_iff.mp h with ⟨r₂, h₂, rfl⟩
  rcases Option.bind_eq_some_iff.mp h₂ with ⟨r₃, h₃, h₂⟩
  rcases Option.some.inj h₂ with rfl
  exact ⟨r₁, r₃, h₁, h₃, by simp⟩

/-! ## Members -/

/-- The range of a value of type `t`. -/
def Ty.span (H : Heap) (t : Ty) : Span := ⟨0, t.extent H⟩

/-- The range of a member. -/
def ClassMember.span (H : Heap) (m : ClassMember) : Span := ⟨m.offset.toNat, m.type.extent H⟩

/-- A member found is an own one, or one of the base. -/
theorem findMember_cases {n : String} {m : ClassMember}
    (h : findMember H (fuel + 1) c n = some (some m)) :
    (m ∈ (H c).members ∧ m.name = n) ∨
      ∃ b, HasBase H c b ∧ findMember H fuel b n = some (some m) := by
  unfold findMember at h
  split at h
  · next m' hm =>
      rcases Option.some.inj (Option.some.inj h) with rfl
      exact .inl ⟨List.mem_of_find?_eq_some hm, by simpa using List.find?_some hm⟩
  · split at h
    · next b hb => exact .inr ⟨b, hb, h⟩
    · cases h

theorem baseSize_eq {b : ClassId} (hb : HasBase H c b) :
    Parser.baseSize H (H c).base = (H b).size := by
  unfold Parser.baseSize
  rw [hb]

/-- A member, own or inherited, lies inside its class and holds complete classes. -/
theorem ClassGraph.member_inside (hG : ClassGraph H D) (hc : (H c).complete = true) {n : String}
    {m : ClassMember} (h : findMember H fuel c n = some (some m)) :
    (m.span H).Inside ((Ty.cls c).span H) ∧ m.type.Complete H := by
  induction fuel generalizing c with
  | zero => cases h
  | succ fuel ih =>
      rcases hG.defined c hc with ⟨u, hu⟩
      have hlaid := hG.laid c u hu
      have hfits := hG.fits c u hu
      rcases findMember_cases h with ⟨hm, _⟩ | ⟨b, hb, hfind⟩
      · refine ⟨⟨Nat.zero_le _, ?_⟩, ?_⟩
        · have hle := hlaid.member_le hfits hm
          change _ ≤ 0 + (H c).size.toNat
          rwa [Nat.zero_add]
        · intro d hd
          exact hG.member c d hc ⟨m, hm, hd⟩
      · rcases ih (hG.base c b hc hb) hfind with ⟨hinside, hcomplete⟩
        refine ⟨hinside.trans ⟨Nat.zero_le _, ?_⟩, hcomplete⟩
        have hle := hlaid.base_le hfits
        rw [baseSize_eq hb] at hle
        exact Nat.add_le_add_left hle 0

/-- Members of different names are apart in a class without unions. -/
theorem ClassGraph.member_apart (hG : ClassGraph H D) (hc : (H c).complete = true)
    (hpacked : Packed H D c) {n n' : String} (hne : n ≠ n') {m m' : ClassMember}
    (h : findMember H fuel c n = some (some m)) (h' : findMember H fuel c n' = some (some m')) :
    (m.span H).Apart (m'.span H) := by
  induction fuel generalizing c with
  | zero => cases h
  | succ fuel ih =>
      rcases hpacked with ⟨hown, hbases⟩
      have hpack := ((hG.laid c false hown).backToBack (hG.fits c false hown)).1
      -- an own member stands behind the base, where an inherited one is
      have hbehind : ∀ {m m' : ClassMember} {n' : String} {b : ClassId}, m ∈ (H c).members →
          HasBase H c b → findMember H fuel b n' = some (some m') → (m'.span H).Apart (m.span H) := by
        intro m m' n' b hm hb hfind
        left
        have hin := (hG.member_inside (hG.base c b hc hb) hfind).1.2
        have hstart := hpack.start_le hm
        rw [baseSize_eq hb] at hstart
        change m'.offset.toNat + m'.type.extent H ≤ 0 + (H b).size.toNat at hin
        change m'.offset.toNat + m'.type.extent H ≤ m.offset.toNat
        omega
      rcases findMember_cases h with ⟨hm, hname⟩ | ⟨b, hb, hfind⟩ <;>
        rcases findMember_cases h' with ⟨hm', hname'⟩ | ⟨b', hb', hfind'⟩
      · refine hpack.disjoint hm hm' ?_
        rintro rfl
        exact hne (hname.symm.trans hname')
      · exact (hbehind hm hb' hfind').symm
      · exact hbehind hm' hb hfind
      · have hbb : b = b' := Option.some.inj (hb.symm.trans hb')
        subst hbb
        exact ih (hG.base c b hc hb) (hbases b hb) hfind hfind'

/-- A recursion bound that is enough for every class of a run and every member name. -/
theorem findMember_fuel {s : Parser.Program} (hinv : s.Inv) :
    ∃ F, ∀ fuel, F ≤ fuel → ∀ c n, (findMember s.heap fuel c n).isSome = true := by
  have hclass : ∀ c, ∃ F, ∀ fuel, F ≤ fuel → ∀ n, (findMember s.heap fuel c n).isSome = true := by
    intro c
    induction c using hinv.grounded.induction with
    | _ c ih =>
        have hbase : ∃ F, ∀ fuel, F ≤ fuel → ∀ b, HasBase s.heap c b → ∀ n,
            (findMember s.heap fuel b n).isSome = true := by
          cases hb : (s.heap c).base.bind Ty.cls? with
          | none => exact ⟨0, fun _ _ b hb' => by cases hb.symm.trans hb'⟩
          | some b =>
              rcases ih b (.inl hb) with ⟨F, hF⟩
              refine ⟨F, ?_⟩
              intro fuel hfuel b' hb' n
              rcases Option.some.inj (hb.symm.trans hb') with rfl
              exact hF fuel hfuel n
        rcases hbase with ⟨F, hF⟩
        refine ⟨F + 1, ?_⟩
        intro fuel hfuel n
        rcases Nat.exists_eq_add_one.mpr (Nat.lt_of_lt_of_le (Nat.succ_pos F) hfuel) with ⟨k, rfl⟩
        unfold findMember
        split
        · rfl
        · split
          · next b hb => exact hF k (Nat.le_of_succ_le_succ hfuel) b hb n
          · rfl
  -- the classes below `next` are finitely many, and the others are empty
  have hbelow : ∀ k, ∃ F, ∀ fuel, F ≤ fuel → ∀ c, c < k → ∀ n,
      (findMember s.heap fuel c n).isSome = true := by
    intro k
    induction k with
    | zero => exact ⟨0, fun _ _ c hc => absurd hc (Nat.not_lt_zero c)⟩
    | succ k ih =>
        rcases ih with ⟨F, hF⟩
        rcases hclass k with ⟨F', hF'⟩
        refine ⟨max F F', ?_⟩
        intro fuel hfuel c hc n
        rcases Nat.lt_succ_iff_lt_or_eq.mp hc with hlt | rfl
        · exact hF fuel ((Nat.le_max_left _ _).trans hfuel) c hlt n
        · exact hF' fuel ((Nat.le_max_right _ _).trans hfuel) n
  rcases hbelow s.next with ⟨F, hF⟩
  refine ⟨F + 1, ?_⟩
  intro fuel hfuel c n
  by_cases hc : c < s.next
  · exact hF fuel (Nat.le_of_succ_le hfuel) c hc n
  · rcases Nat.exists_eq_add_one.mpr (Nat.lt_of_lt_of_le (Nat.succ_pos F) hfuel) with ⟨k, rfl⟩
    unfold findMember
    rw [hinv.fresh c (Nat.le_of_not_lt hc)]
    rfl

/-! ## Paths -/

/-- The range that a step or a path leads to. -/
def spanOf (H : Heap) (r : ℕ × Ty) : Span := ⟨r.1, r.2.extent H⟩

theorem subIntType_isInt {n : String} {sub : Ty} (h : subIntType n = some sub) :
    sub.isInt = true := by
  unfold subIntType at h
  split at h <;> cases h <;> rfl

theorem complete_of_isInt (h : t.isInt = true) : t.Complete H := by
  intro c hc
  cases t with
  | int n uns => cases hc
  | _ => cases h

/-- Step lemma: a step stays inside the value and on complete classes. -/
theorem Step.inside (hG : ClassGraph H D) (ht : t.Complete H) {s : Step} {r : ℕ × Ty}
    (h : s.from H fuel t = some r) : (spanOf H r).Inside (t.span H) ∧ r.2.Complete H := by
  cases s with
  | member n =>
      cases t with
      | cls c =>
          rcases Option.map_eq_some_iff.mp h with ⟨m, hm, rfl⟩
          exact hG.member_inside (ht c rfl) (Option.join_eq_some_iff.mp hm)
      | _ => cases h
  | index k =>
      cases t with
      | array elem len =>
          rw [Step.from_index] at h
          split_ifs at h with hk
          rcases Option.some.inj h with rfl
          refine ⟨Span.block_inside ?_, ht⟩
          change (k + 1) * elem.extent H ≤ elem.extent H * len.toNat
          rw [Nat.mul_comm]
          exact Nat.mul_le_mul_left _ hk.2
      | _ => cases h
  | subInt n k =>
      rw [Step.from_subInt] at h
      split_ifs at h
      rcases Option.bind_eq_some_iff.mp h with ⟨sub, hsub, h⟩
      split_ifs at h with hk
      rcases Option.some.inj h with rfl
      exact ⟨Span.block_inside hk, complete_of_isInt (subIntType_isInt hsub)⟩

/-- A path stays inside the value it starts from. -/
theorem follow_inside (hG : ClassGraph H D) (ht : t.Complete H) {p : List Step} {r : ℕ × Ty}
    (h : follow H fuel t p = some r) : (spanOf H r).Inside (t.span H) ∧ r.2.Complete H := by
  induction p generalizing t r with
  | nil =>
      rcases Option.some.inj h with rfl
      exact ⟨Span.Inside.refl _, ht⟩
  | cons s p ih =>
      rw [follow_cons] at h
      rcases Option.bind_eq_some_iff.mp h with ⟨r₁, h₁, h⟩
      rcases Option.map_eq_some_iff.mp h with ⟨r₂, h₂, rfl⟩
      rcases Step.inside hG ht h₁ with ⟨hin₁, ht₁⟩
      rcases ih ht₁ h₂ with ⟨hin₂, ht₂⟩
      exact ⟨(hin₂.shift r₁.1).trans hin₁, ht₂⟩

/-- Step lemma: where two paths part their ranges are apart. -/
theorem Step.apart (hG : ClassGraph H D) (ht : t.Complete H) {s₁ s₂ : Step}
    (hpart : s₁.Part H D t s₂) {r₁ r₂ : ℕ × Ty} (h₁ : s₁.from H fuel t = some r₁)
    (h₂ : s₂.from H fuel t = some r₂) : (spanOf H r₁).Apart (spanOf H r₂) := by
  cases s₁ with
  | member n =>
      cases s₂ with
      | member n' =>
          rcases hpart with ⟨hne, hpacked⟩
          cases t with
          | cls c =>
              rcases Option.map_eq_some_iff.mp h₁ with ⟨m, hm, rfl⟩
              rcases Option.map_eq_some_iff.mp h₂ with ⟨m', hm', rfl⟩
              exact hG.member_apart (ht c rfl) (hpacked c rfl) hne (Option.join_eq_some_iff.mp hm)
                (Option.join_eq_some_iff.mp hm')
          | _ => cases h₁
      | _ => cases hpart
  | index k =>
      cases s₂ with
      | index k' =>
          cases t with
          | array elem len =>
              rw [Step.from_index] at h₁ h₂
              split_ifs at h₁ h₂
              rcases Option.some.inj h₁ with rfl
              rcases Option.some.inj h₂ with rfl
              exact Span.block_apart hpart
          | _ => cases h₁
      | _ => cases hpart
  | subInt n k =>
      cases s₂ with
      | subInt n' k' =>
          rcases hpart with ⟨rfl, hne⟩
          rw [Step.from_subInt] at h₁ h₂
          split_ifs at h₁ h₂
          rcases Option.bind_eq_some_iff.mp h₁ with ⟨sub, hsub, h₁⟩
          rcases Option.bind_eq_some_iff.mp h₂ with ⟨sub', hsub', h₂⟩
          rcases Option.some.inj (hsub.symm.trans hsub') with rfl
          split_ifs at h₁ h₂
          rcases Option.some.inj h₁ with rfl
          rcases Option.some.inj h₂ with rfl
          exact Span.block_apart hne
      | _ => cases hpart

/-- Paths that part have ranges that are apart. -/
theorem follow_apart (hG : ClassGraph H D) (ht : t.Complete H) {p q₁ q₂ : List Step}
    {s₁ s₂ : Step} {r r₁ r₂ : ℕ × Ty} (hp : follow H fuel t p = some r)
    (hpart : s₁.Part H D r.2 s₂) (h₁ : follow H fuel t (p ++ s₁ :: q₁) = some r₁)
    (h₂ : follow H fuel t (p ++ s₂ :: q₂) = some r₂) : (spanOf H r₁).Apart (spanOf H r₂) := by
  have hsplit : ∀ {s : Step} {q : List Step} {r' : ℕ × Ty},
      follow H fuel t (p ++ s :: q) = some r' → ∃ a b, s.from H fuel r.2 = some a ∧
        (spanOf H b).Inside (a.2.span H) ∧ r' = (r.1 + (a.1 + b.1), b.2) := by
    intro s q r' h
    rw [follow_append, hp, Option.bind_some, follow_cons] at h
    rcases Option.map_eq_some_iff.mp h with ⟨x, hx, rfl⟩
    rcases Option.bind_eq_some_iff.mp hx with ⟨a, ha, hx⟩
    rcases Option.map_eq_some_iff.mp hx with ⟨b, hb, rfl⟩
    have hcomplete := (Step.inside hG (follow_inside hG ht hp).2 ha).2
    exact ⟨a, b, ha, (follow_inside hG hcomplete hb).1, rfl⟩
  rcases hsplit h₁ with ⟨a₁, b₁, ha₁, hin₁, rfl⟩
  rcases hsplit h₂ with ⟨a₂, b₂, ha₂, hin₂, rfl⟩
  have hapart := Step.apart hG (follow_inside hG ht hp).2 hpart ha₁ ha₂
  exact (hapart.mono (hin₁.shift a₁.1) (hin₂.shift a₂.1)).shift r.1

end

end Hlang
