import Hlang.Parser.ClassGraph
import Mathlib.Algebra.GroupWithZero.Nat

/-!
# Hlang.Parser.Layout — what the layout loop leaves in a complete class

A complete class keeps the base, the members and the size its layout gave it.
Over a run of well-formed declarations, and when the sizes fit in an `I64`, the
own members of a class stand back to back from the size of its base on, and
those of a union all start at 0.
-/

namespace Hlang

/-! ## Exact sizes -/

/-- The size of a type without overflow, over the recorded sizes of classes. -/
def Ty.extent (H : Heap) : Ty → ℕ
  | .array elem arrayLen => elem.extent H * arrayLen.toNat
  | t => (t.size H).toNat

theorem Ty.toNat_size {H : Heap} {t : Ty} (h : t.extent H < 2 ^ 63) :
    (t.size H).toNat = t.extent H := by
  induction t using Ty.extent.induct with
  | case1 elem arrayLen ih =>
      unfold Ty.extent at h ⊢
      unfold Ty.size
      rw [BitVec.toNat_mul]
      rcases Nat.eq_zero_or_pos arrayLen.toNat with hlen | hlen
      · rw [hlen]
        simp
      · have helem : elem.extent H < 2 ^ 63 :=
          Nat.lt_of_le_of_lt (Nat.le_mul_of_pos_right _ hlen) h
        rw [ih helem]
        exact Nat.mod_eq_of_lt (by omega)
  | case2 t hne =>
      unfold Ty.extent
      split
      · exact absurd rfl (hne _ _)
      · rfl

/-- Sizes depend only on the sizes of the class held by value. -/
theorem Ty.size_congr {H H' : Heap} {t : Ty}
    (h : ∀ c, t.byValue = some c → (H' c).size = (H c).size) : t.size H' = t.size H := by
  induction t using Ty.byValue.induct with
  | case1 c => exact h c rfl
  | case2 elem n ih =>
      unfold Ty.size
      rw [ih h]
  | case3 t hcls harr =>
      cases t with
      | cls c => exact absurd rfl (hcls c)
      | array elem n => exact absurd rfl (harr elem n)
      | _ => rfl

/-! ## The layout loop over types -/

/-- The offsets and the size the layout loop computes for members of the given
types, from the offset `o` and the size `mx` on. -/
def layoutTypes (H : Heap) (u : Bool) : I64 → I64 → List Ty → List I64 × I64
  | _, mx, [] => ([], mx)
  | o, mx, t :: ts =>
      let sz := t.size H
      if u then
        let r := layoutTypes H u o (if mx.slt sz then sz else mx) ts
        (0 :: r.1, r.2)
      else
        let o' := o + sz
        let r := layoutTypes H u o' (if mx.slt o' then o' else mx) ts
        (o :: r.1, r.2)

theorem layoutTypes_congr {H H' : Heap} {ts : List Ty} (h : ∀ t ∈ ts, t.size H' = t.size H)
    (u : Bool) (o mx : I64) : layoutTypes H' u o mx ts = layoutTypes H u o mx ts := by
  induction ts generalizing o mx with
  | nil => rfl
  | cons t ts ih =>
      have hts : ∀ t ∈ ts, t.size H' = t.size H := fun t ht => h t (List.mem_cons_of_mem _ ht)
      unfold layoutTypes
      rw [h t List.mem_cons_self]
      simp only [ih hts]

theorem Parser.foldlM_layoutMember {H : Heap} {cname : String} {u : Bool} {L L' : Parser.Layout}
    {ms : List (String × Ty)} (h : ms.foldlM (Parser.layoutMember H cname u) L = .ok L') :
    L'.members.map (·.offset) =
      L.members.map (·.offset) ++ (layoutTypes H u L.offset L.maxSize (ms.map (·.2))).1 ∧
    L'.maxSize = (layoutTypes H u L.offset L.maxSize (ms.map (·.2))).2 := by
  induction ms generalizing L with
  | nil =>
      rw [List.foldlM_nil, Fallible.pure_eq_ok] at h
      subst h
      simp [layoutTypes]
  | cons m ms ih =>
      rw [List.foldlM_cons, Fallible.bind_eq_ok] at h
      rcases h with ⟨L₁, h₁, h⟩
      rcases ih h with ⟨hoff, hmax⟩
      unfold Parser.layoutMember at h₁
      rw [List.map_cons]
      unfold layoutTypes
      cases u with
      | true =>
          simp only [if_true] at h₁ ⊢
          split at h₁
          · cases h₁
          · cases h₁
            rw [hoff, hmax]
            simp
      | false =>
          simp only [Bool.false_eq_true, if_false] at h₁ ⊢
          split at h₁
          · cases h₁
          · cases h₁
            rw [hoff, hmax]
            simp

/-! ## Laid out classes -/

/-- `c` has the offsets and the size that the layout loop computes for its
members, as a union (`u`) or not. -/
structure LaidOut (H : Heap) (u : Bool) (c : ClassId) : Prop where
  offsets : (H c).members.map (·.offset) =
    (layoutTypes H u (Parser.baseSize H (H c).base) (Parser.baseSize H (H c).base)
      ((H c).members.map (·.type))).1
  size : (H c).size =
    (layoutTypes H u (Parser.baseSize H (H c).base) (Parser.baseSize H (H c).base)
      ((H c).members.map (·.type))).2

/-- The sizes the layout of `c` deals with fit in an `I64`. -/
structure ClassFits (H : Heap) (u : Bool) (c : ClassId) : Prop where
  base : (Parser.baseSize H (H c).base).toNat < 2 ^ 63
  members : ∀ m ∈ (H c).members, m.type.extent H < 2 ^ 63
  sum : u = false → (Parser.baseSize H (H c).base).toNat +
    ((H c).members.map fun m => m.type.extent H).sum < 2 ^ 63

/-- The members stand back to back from `start` on. -/
def BackToBack (H : Heap) : ℕ → List ClassMember → Prop
  | _, [] => True
  | start, m :: ms =>
      m.offset.toNat = start ∧ BackToBack H (start + m.type.extent H) ms

theorem slt_iff_of_small {a b : I64} (ha : a.toNat < 2 ^ 63) (hb : b.toNat < 2 ^ 63) :
    a.slt b = true ↔ a.toNat < b.toNat := by
  rw [BitVec.slt_iff_toInt_lt, BitVec.toInt_eq_toNat_of_lt (by omega),
    BitVec.toInt_eq_toNat_of_lt (by omega)]
  omega

theorem toNat_max_of_small {a b : I64} (ha : a.toNat < 2 ^ 63) (hb : b.toNat < 2 ^ 63) :
    (if a.slt b then b else a).toNat = max a.toNat b.toNat := by
  have hiff := slt_iff_of_small ha hb
  split
  · next h => exact (Nat.max_eq_right (Nat.le_of_lt (hiff.mp h))).symm
  · next h => exact (Nat.max_eq_left (Nat.le_of_not_lt fun hlt => h (hiff.mpr hlt))).symm

/-- Outside a union the loop packs the members. -/
theorem layoutTypes_packed {H : Heap} {o : I64} {ms : List ClassMember}
    (hsum : o.toNat + (ms.map fun m => m.type.extent H).sum < 2 ^ 63)
    (hoff : ms.map (·.offset) = (layoutTypes H false o o (ms.map (·.type))).1) :
    BackToBack H o.toNat ms ∧ (layoutTypes H false o o (ms.map (·.type))).2.toNat =
      o.toNat + (ms.map fun m => m.type.extent H).sum := by
  induction ms generalizing o with
  | nil => simp [BackToBack, layoutTypes]
  | cons m ms ih =>
      simp only [List.map_cons, List.sum_cons] at hsum hoff ⊢
      have hsz : (m.type.size H).toNat = m.type.extent H := Ty.toNat_size (by omega)
      have hnext : (o + m.type.size H).toNat = o.toNat + m.type.extent H := by
        rw [BitVec.toNat_add, hsz]
        exact Nat.mod_eq_of_lt (by omega)
      have hmax : (if o.slt (o + m.type.size H) then o + m.type.size H else o) =
          o + m.type.size H := by
        apply BitVec.eq_of_toNat_eq
        rw [toNat_max_of_small (by omega) (by omega)]
        omega
      unfold layoutTypes at hoff ⊢
      simp only [Bool.false_eq_true, if_false, hmax] at hoff ⊢
      rcases List.cons.inj hoff with ⟨hm, hrest⟩
      rcases ih (by omega) hrest with ⟨hpacked, hsize⟩
      rw [hnext] at hpacked hsize
      refine ⟨⟨by rw [hm], hpacked⟩, ?_⟩
      rw [hsize]
      omega

/-- In a union every member starts at 0 and the size is at least each size. -/
theorem layoutTypes_overlaid {H : Heap} {o mx : I64} {ms : List ClassMember}
    (hmx : mx.toNat < 2 ^ 63) (hfit : ∀ m ∈ ms, m.type.extent H < 2 ^ 63)
    (hoff : ms.map (·.offset) = (layoutTypes H true o mx (ms.map (·.type))).1) :
    (∀ m ∈ ms, m.offset = 0 ∧
      m.type.extent H ≤ (layoutTypes H true o mx (ms.map (·.type))).2.toNat) ∧
    mx.toNat ≤ (layoutTypes H true o mx (ms.map (·.type))).2.toNat ∧
    (layoutTypes H true o mx (ms.map (·.type))).2.toNat < 2 ^ 63 := by
  induction ms generalizing mx with
  | nil => simpa [layoutTypes] using hmx
  | cons m ms ih =>
      have hm := hfit m List.mem_cons_self
      have hsz : (m.type.size H).toNat = m.type.extent H := Ty.toNat_size hm
      have hmax := toNat_max_of_small hmx (b := m.type.size H) (by omega)
      simp only [List.map_cons] at hoff ⊢
      unfold layoutTypes at hoff ⊢
      simp only [if_true] at hoff ⊢
      rcases List.cons.inj hoff with ⟨hzero, hrest⟩
      rcases ih (by omega) (fun m hm => hfit m (List.mem_cons_of_mem _ hm)) hrest
        with ⟨hall, hle, hlt⟩
      refine ⟨?_, by omega, hlt⟩
      intro m' hm'
      rcases List.mem_cons.mp hm' with rfl | hm'
      · exact ⟨hzero, by omega⟩
      · exact hall m' hm'

section Bounds

variable {H : Heap} {u : Bool} {c : ClassId}

/-- The own members of a class that is not a union are back to back from the
size of the base on, and the class ends where the last one does. -/
theorem LaidOut.backToBack (h : LaidOut H false c) (hfits : ClassFits H false c) :
    BackToBack H (Parser.baseSize H (H c).base).toNat (H c).members ∧
    (H c).size.toNat = (Parser.baseSize H (H c).base).toNat +
      ((H c).members.map fun m => m.type.extent H).sum := by
  rw [h.size]
  exact layoutTypes_packed (hfits.sum rfl) h.offsets

theorem BackToBack.start_le {start : ℕ} {ms : List ClassMember} (h : BackToBack H start ms)
    {m : ClassMember} (hm : m ∈ ms) : start ≤ m.offset.toNat := by
  induction ms generalizing start with
  | nil => cases hm
  | cons m' ms ih =>
      rcases h with ⟨hfirst, hrest⟩
      rcases List.mem_cons.mp hm with rfl | hm
      · omega
      · have hle := ih hrest hm
        omega

theorem BackToBack.le_end {start : ℕ} {ms : List ClassMember} (h : BackToBack H start ms)
    {m : ClassMember} (hm : m ∈ ms) :
    m.offset.toNat + m.type.extent H ≤ start + (ms.map fun m => m.type.extent H).sum := by
  induction ms generalizing start with
  | nil => cases hm
  | cons m' ms ih =>
      rcases h with ⟨hfirst, hrest⟩
      rw [List.map_cons, List.sum_cons]
      rcases List.mem_cons.mp hm with rfl | hm
      · omega
      · have hle := ih hrest hm
        omega

/-- Different members that stand back to back do not overlap. -/
theorem BackToBack.disjoint {start : ℕ} {ms : List ClassMember} (h : BackToBack H start ms)
    {m m' : ClassMember} (hm : m ∈ ms) (hm' : m' ∈ ms) (hne : m ≠ m') :
    m.offset.toNat + m.type.extent H ≤ m'.offset.toNat ∨
    m'.offset.toNat + m'.type.extent H ≤ m.offset.toNat := by
  induction ms generalizing start with
  | nil => cases hm
  | cons m₀ ms ih =>
      rcases h with ⟨hfirst, hrest⟩
      rcases List.mem_cons.mp hm with hfst | hin <;> rcases List.mem_cons.mp hm' with hfst' | hin'
      · exact absurd (hfst.trans hfst'.symm) hne
      · have hle := hrest.start_le hin'
        subst hfst
        omega
      · have hle := hrest.start_le hin
        subst hfst'
        omega
      · exact ih hrest hin hin'

/-- A member lies inside its class. -/
theorem LaidOut.member_le (h : LaidOut H u c) (hfits : ClassFits H u c) {m : ClassMember}
    (hm : m ∈ (H c).members) : m.offset.toNat + m.type.extent H ≤ (H c).size.toNat := by
  cases u with
  | false =>
      rcases h.backToBack hfits with ⟨hpacked, hsize⟩
      rw [hsize]
      exact hpacked.le_end hm
  | true =>
      rcases layoutTypes_overlaid hfits.base hfits.members h.offsets with ⟨hall, _⟩
      rcases hall m hm with ⟨hzero, hle⟩
      rw [h.size, hzero]
      simpa using hle

/-- The base lies inside its class. -/
theorem LaidOut.base_le (h : LaidOut H u c) (hfits : ClassFits H u c) :
    (Parser.baseSize H (H c).base).toNat ≤ (H c).size.toNat := by
  cases u with
  | false =>
      have hsize := (h.backToBack hfits).2
      omega
  | true =>
      rw [h.size]
      exact (layoutTypes_overlaid hfits.base hfits.members h.offsets).2.1

theorem LaidOut.size_lt (h : LaidOut H u c) (hfits : ClassFits H u c) :
    (H c).size.toNat < 2 ^ 63 := by
  cases u with
  | false =>
      have hsize := (h.backToBack hfits).2
      have hsum := hfits.sum rfl
      omega
  | true =>
      rw [h.size]
      exact (layoutTypes_overlaid hfits.base hfits.members h.offsets).2.2

end Bounds

theorem LaidOut.congr {H H' : Heap} {u : Bool} {c : ClassId} (h : LaidOut H u c)
    (hbase : (H' c).base = (H c).base) (hmembers : (H' c).members = (H c).members)
    (hsize : (H' c).size = (H c).size)
    (hsizes : ∀ d, HasBase H c d ∨ HasMember H c d → (H' d).size = (H d).size) :
    LaidOut H' u c := by
  have hb : Parser.baseSize H' (H' c).base = Parser.baseSize H (H c).base := by
    rw [hbase]
    unfold Parser.baseSize
    cases hd : (H c).base.bind Ty.cls? with
    | none => rfl
    | some d => exact hsizes d (.inl hd)
  have ht : ∀ t ∈ (H c).members.map (·.type), t.size H' = t.size H := by
    intro t ht
    rcases List.mem_map.mp ht with ⟨m, hm, rfl⟩
    refine Ty.size_congr ?_
    intro d hd
    exact hsizes d (.inr ⟨m, hm, hd⟩)
  constructor
  · rw [hb, hmembers, layoutTypes_congr ht]
    exact h.offsets
  · rw [hb, hmembers, layoutTypes_congr ht, hsize]
    exact h.size

/-! ## Class graphs -/

/-- A class graph whose complete classes are laid out over complete classes,
with sizes that fit: `D c u` says that `c` was defined, as a union or not. -/
structure ClassGraph (H : Heap) (D : ClassId → Bool → Prop) : Prop where
  defined : ∀ c, (H c).complete → ∃ u, D c u
  laid : ∀ c u, D c u → LaidOut H u c
  fits : ∀ c u, D c u → ClassFits H u c
  base : ∀ c d, (H c).complete → HasBase H c d → (H d).complete
  member : ∀ c d, (H c).complete → HasMember H c d → (H d).complete

namespace Parser

/-- `c` was defined in the history, as a union or not. -/
def Defined (hist : List (Lts.Entry Program ClassDecl)) (c : ClassId) (u : Bool) : Prop :=
  ∃ p ∈ hist, p.2.1.body.isSome ∧ (p.1.enter p.2.1).1 = c ∧ p.2.1.isUnion = u

section Step

variable {s s' : Program} {d : ClassDecl}

/-- A complete class keeps what its layout gave it. -/
theorem Effect.complete_kept (h : Effect s d s') (hs : s.Tidy) {c : ClassId}
    (hc : (s.heap c).complete = true) :
    (s'.heap c).base = (s.heap c).base ∧ (s'.heap c).members = (s.heap c).members ∧
    (s'.heap c).size = (s.heap c).size ∧ (s'.heap c).complete = true := by
  by_cases hci : c = (s.enter d).1
  · rcases s.enter_cases d with ⟨hsame, _, hforward⟩ | hfresh
    · subst hci
      rcases hforward hc with ⟨hbase, hbody⟩
      rcases h.forward hbody with ⟨hmembers, hsize, hcomplete⟩
      have hb := h.base
      unfold Program.baseOf at hb
      rw [hbase, hsame] at hb
      rw [hmembers, hsize, hcomplete, hsame]
      exact ⟨(Except.ok.inj hb).symm, rfl, rfl, hc⟩
    · -- a new object is not complete
      have hnew : (s.heap c).complete = false := by
        rw [hci, hfresh]
        change (s.heap s.next).complete = false
        rw [hs.fresh s.next (Nat.le_refl _)]
      rw [hnew] at hc
      cases hc
  · rw [h.other c hci, s.enter_other d hci]
    exact ⟨rfl, rfl, rfl, hc⟩

/-- A class that gets a body is not complete before. -/
theorem Program.Tidy.enter_incomplete (hs : s.Tidy) (hbody : d.body.isSome) :
    (s.heap (s.enter d).1).complete = false := by
  rcases s.enter_cases d with ⟨_, _, hforward⟩ | hfresh
  · by_contra hc
    have hnone := (hforward (by simpa using hc)).2
    rw [hnone] at hbody
    cases hbody
  · rw [hfresh]
    change (s.heap s.next).complete = false
    rw [hs.fresh s.next (Nat.le_refl _)]

/-- A body over complete classes is laid out with the sizes its base and its by-value member
classes keep. -/
theorem Effect.laidOut (h : Effect s d s') (hs : s.Tidy) (hbody : d.body.isSome)
    (hcomplete : ∀ c, HasBase s'.heap (s.enter d).1 c ∨ HasMember s'.heap (s.enter d).1 c →
      (s.heap c).complete = true) : LaidOut s'.heap d.isUnion (s.enter d).1 := by
  rcases Option.isSome_iff_exists.mp hbody with ⟨body, hd⟩
  rcases h.laid body hd with
    ⟨_, s₁, L, hL, hclasses, hbase, hempty, hsizes, hmembers, hsize⟩
  have hloop := Program.layoutLoop_members hL
  have htypes := foldlM_layoutMember_types hloop
  rcases foldlM_layoutMember hloop with ⟨hoff, hmax⟩
  simp only [hempty, hs.enter_members hbody, List.map_nil, List.nil_append] at htypes hoff
  rw [← htypes] at hoff hmax
  -- the classes held by value have their final size already
  have hkept : ∀ c, HasBase s'.heap (s.enter d).1 c ∨ HasMember s'.heap (s.enter d).1 c →
      (s'.heap c).size = (s₁.heap c).size := by
    intro c hc
    have hcomplete := hcomplete c hc
    have hne : c ≠ (s.enter d).1 := by
      rintro rfl
      rw [hs.enter_incomplete hbody] at hcomplete
      cases hcomplete
    rw [hsizes c, h.other c hne]
  have hb : baseSize s'.heap (s'.heap (s.enter d).1).base =
      baseSize s₁.heap (s₁.heap (s.enter d).1).base := by
    rw [hbase]
    unfold baseSize
    cases hcls : (s'.heap (s.enter d).1).base.bind Ty.cls? with
    | none => rfl
    | some c => exact hkept c (.inl hcls)
  have ht : ∀ t ∈ L.members.map (·.type), t.size s'.heap = t.size s₁.heap := by
    intro t ht
    rcases List.mem_map.mp ht with ⟨m, hm, rfl⟩
    refine Ty.size_congr ?_
    intro c hc
    refine hkept c (.inr ⟨m, ?_, hc⟩)
    rw [hmembers]
    exact hm
  constructor
  · rw [hb, hmembers, layoutTypes_congr ht]
    exact hoff
  · rw [hb, hmembers, hsize, layoutTypes_congr ht]
    exact hmax

/-- What a history of well-formed declarations says about the complete classes. -/
structure Program.Laid (s : Program) (hist : List (Lts.Entry Program ClassDecl)) : Prop where
  defined : ∀ c, (s.heap c).complete → ∃ u, Defined hist c u
  complete : ∀ c u, Defined hist c u → (s.heap c).complete
  laid : ∀ c u, Defined hist c u → LaidOut s.heap u c
  closed : ∀ c d, (s.heap c).complete → HasBase s.heap c d ∨ HasMember s.heap c d →
    (s.heap d).complete

theorem defined_append {hist : List (Lts.Entry Program ClassDecl)} {c : ClassId} {u : Bool} :
    Defined (hist ++ [(s, d, s')]) c u ↔
      Defined hist c u ∨ (d.body.isSome ∧ (s.enter d).1 = c ∧ d.isUnion = u) := by
  unfold Defined
  constructor
  · rintro ⟨p, hp, hc⟩
    rcases List.mem_append.mp hp with hp | hp
    · exact .inl ⟨p, hp, hc⟩
    · rcases List.mem_singleton.mp hp with rfl
      exact .inr hc
  · rintro (⟨p, hp, hc⟩ | hc)
    · exact ⟨p, List.mem_append_left _ hp, hc⟩
    · exact ⟨_, List.mem_append_right _ (List.mem_singleton.mpr rfl), hc⟩

/-- Step lemma: a well-formed declaration keeps what is said about the complete
classes, and says it of the class it defines. -/
theorem Effect.laid_step (h : Effect s d s') (hinv : s.Inv) (hord : Ordered s d)
    {hist : List (Lts.Entry Program ClassDecl)} (hlaid : s.Laid hist) :
    s'.Laid (hist ++ [(s, d, s')]) := by
  have hedges : ∀ c, (s.heap c).complete = true → ∀ e,
      (HasBase s'.heap c e ∨ HasMember s'.heap c e) ↔ (HasBase s.heap c e ∨ HasMember s.heap c e) := by
    intro c hc e
    rcases h.complete_kept hinv.tidy hc with ⟨hbase, hmembers, _, _⟩
    unfold HasBase HasMember
    rw [hbase, hmembers]
  have hkeep : ∀ c, (s.heap c).complete = true → (s'.heap c).complete = true :=
    fun c hc => (h.complete_kept hinv.tidy hc).2.2.2
  -- a class that is complete only afterwards is the one that got its body
  have hnew : ∀ c, (s'.heap c).complete = true → (s.heap c).complete = true ∨
      (d.body.isSome ∧ (s.enter d).1 = c) := by
    intro c hc
    by_cases hci : c = (s.enter d).1
    · cases hd : d.body with
      | some body => exact .inr ⟨rfl, hci.symm⟩
      | none =>
          left
          subst hci
          rw [(h.forward hd).2.2] at hc
          rcases s.enter_self d with hsame | hfresh
          · rwa [hsame] at hc
          · rw [hfresh] at hc
            cases hc
    · left
      rwa [h.other c hci, s.enter_other d hci] at hc
  constructor
  · intro c hc
    rcases hnew c hc with hold | hdef
    · rcases hlaid.defined c hold with ⟨u, hu⟩
      exact ⟨u, defined_append.mpr (.inl hu)⟩
    · exact ⟨d.isUnion, defined_append.mpr (.inr ⟨hdef.1, hdef.2, rfl⟩)⟩
  · intro c u hu
    rcases defined_append.mp hu with hold | ⟨hbody, rfl, _⟩
    · exact hkeep c (hlaid.complete c u hold)
    · rcases Option.isSome_iff_exists.mp hbody with ⟨body, hd⟩
      exact (h.laid body hd).1
  · intro c u hu
    rcases defined_append.mp hu with hold | ⟨hbody, rfl, rfl⟩
    · have hc := hlaid.complete c u hold
      rcases h.complete_kept hinv.tidy hc with ⟨hbase, hmembers, hsize, _⟩
      refine (hlaid.laid c u hold).congr hbase hmembers hsize ?_
      intro e he
      exact (h.complete_kept hinv.tidy (hlaid.closed c e hc he)).2.2.1
    · apply h.laidOut hinv.tidy hbody
      intro c hc
      rw [h.hasBase_iff c, h.hasMember_iff hinv hbody c] at hc
      exact hord.complete hbody c hc
  · intro c e hc he
    rcases hnew c hc with hold | ⟨hbody, rfl⟩
    · exact hkeep e (hlaid.closed c e hold ((hedges c hold e).mp he))
    · rw [h.hasBase_iff e, h.hasMember_iff hinv hbody e] at he
      exact hkeep e (hord.complete hbody e he)

end Step

/-- Run lemma: after a run of well-formed declarations the invariant holds and
the complete classes are laid out as they were defined. -/
theorem run_laid {hist : List (Lts.Entry Program ClassDecl)} {s : Program}
    (h : declarations.Run hist s) (hord : ∀ p ∈ hist, Ordered p.1 p.2.1) :
    s.Inv ∧ s.Laid hist := by
  induction h with
  | start h =>
      cases h
      refine ⟨inv_start, ?_, ?_, ?_, ?_⟩
      · intro c hc
        cases hc
      · rintro c u ⟨p, hp, _⟩
        cases hp
      · rintro c u ⟨p, hp, _⟩
        cases hp
      · intro c e hc
        cases hc
  | @step hist s s' d hrun hs ih =>
      rcases ih (fun p hp => hord p (List.mem_append_left _ hp)) with ⟨hinv, hlaid⟩
      have hd : Ordered s d := hord _ (List.mem_append_right _ (List.mem_singleton.mpr rfl))
      have heff := effect_of_step hs
      exact ⟨heff.inv hinv hd, heff.laid_step hinv hd hlaid⟩

/-- The classes of a run of well-formed declarations, with sizes that fit, are
a class graph. -/
theorem run_classGraph {hist : List (Lts.Entry Program ClassDecl)} {s : Program}
    (h : declarations.Run hist s) (hord : ∀ p ∈ hist, Ordered p.1 p.2.1)
    (hfits : ∀ c u, Defined hist c u → ClassFits s.heap u c) :
    ClassGraph s.heap (Defined hist) := by
  rcases run_laid h hord with ⟨_, hlaid⟩
  exact ⟨hlaid.defined, hlaid.laid, hfits, fun c d hc hb => hlaid.closed c d hc (.inl hb),
    fun c d hc hm => hlaid.closed c d hc (.inr hm)⟩

end Parser

end Hlang
