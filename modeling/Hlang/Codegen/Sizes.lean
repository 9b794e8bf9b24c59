import Hlang.Codegen.Expr
import Hlang.Parser.Layout

/-!
# Hlang.Codegen.Sizes — sizes without overflow

The exact size of a type is a product of its dimensions and of the size of a
scalar or a class; the exact size of a class is a sum (or, of a union, the
greatest) of those of its base and members. A table of the exact class sizes is
kept beside the class table while the declarations of a program are parsed.

`Type::size` and the layout loop compute in 64 bits, and the only check is on
the sign of each dimension. They agree with the exact sizes as long as these are
below 2^63, in every part of every declared type.
-/

namespace Hlang

open Ir

/-- The exact sizes of the classes that are complete. -/
abbrev ClassSizes := ClassId → Option ℕ

/-- The exact size of a type. -/
def Ty.exact (E : ClassSizes) : Ty → Option ℕ
  | .void => some 0
  | .int intSize _ => some intSize
  | .f64 | .ptr _ | .func _ _ _ => some 8
  | .array elem arrayLen => (elem.exact E).map (· * arrayLen.toNat)
  | .cls c => E c

/-- The type and, of an array, the types of its elements down to the last. -/
def Ty.parts : Ty → List Ty
  | .array elem arrayLen => .array elem arrayLen :: elem.parts
  | t => [t]

/-- The bytes an allocation of the type takes. -/
def Ir.LTy.storage : LTy → ℕ
  | .bytes n => n.toNat
  | t => t.bytesOf

/-- What the code uses of the size of `t` is exact: the size itself, the distance of two elements
of this type, and the storage of a variable. -/
def Ty.Sized (H : Heap) (E : ClassSizes) (t : Ty) : Prop :=
  ∃ k, t.exact E = some k ∧ (t.size H).toInt = k ∧
    ∀ Γ : Codegen.Env, Γ.heap = H →
      (Γ.elementSize t).toInt = max 1 (k : ℤ) ∧ k ≤ (Γ.memTy t).storage

/-- `t` has an exact size, which fits in an `I64`. -/
def Ty.Small (E : ClassSizes) (t : Ty) : Prop := ∃ k, t.exact E = some k ∧ k < 2 ^ 63

/-- The recorded sizes of the classes are exact. -/
def SizesExact (H : Heap) (E : ClassSizes) : Prop :=
  ∀ c k, E c = some k → (H c).size.toNat = k ∧ k < 2 ^ 63

section Types

variable {H : Heap} {E : ClassSizes} {t : Ty}

theorem Ty.mem_parts_self (t : Ty) : t ∈ t.parts := by
  cases t with
  | array elem n => exact List.mem_cons_self
  | _ => exact List.mem_singleton.mpr rfl

/-- The parts of a part. -/
theorem Ty.parts_trans {p q : Ty} (hp : p ∈ t.parts) (hq : q ∈ p.parts) : q ∈ t.parts := by
  induction t using Ty.parts.induct with
  | case1 elem n ih =>
      rcases List.mem_cons.mp hp with rfl | hp
      · exact hq
      · exact List.mem_cons_of_mem _ (ih hp)
  | case2 t hne =>
      have hself : t.parts = [t] := by
        cases t with
        | array elem n => exact absurd rfl (hne elem n)
        | _ => rfl
      rw [hself, List.mem_singleton] at hp
      subst hp
      exact hq

theorem toInt_of_small {x : I64} {k : ℕ} (hx : x.toNat = k) (hk : k < 2 ^ 63) : x.toInt = k := by
  rw [BitVec.toInt_eq_toNat_of_lt (by omega), hx]

theorem lt_of_toInt {x : I64} {k : ℕ} (h : x.toInt = k) : x.toNat = k ∧ k < 2 ^ 63 := by
  have hlt := x.isLt
  rw [BitVec.toInt_eq_toNat_cond] at h
  split at h <;> omega

/-- A size whose parts fit is computed exactly. -/
theorem Ty.toNat_size_exact (hE : SizesExact H E) {k : ℕ} (hexact : t.exact E = some k)
    (hsmall : ∀ p ∈ t.parts, p.Small E) : (t.size H).toNat = k := by
  induction t using Ty.parts.induct generalizing k with
  | case1 elem n ih =>
      rcases Option.map_eq_some_iff.mp hexact with ⟨k', hk', rfl⟩
      rcases hsmall _ List.mem_cons_self with ⟨k₀, hk₀, hlt⟩
      have hsame : k' * n.toNat = k₀ := Option.some.inj (hexact.symm.trans hk₀)
      have helem := ih hk' fun p hp => hsmall p (List.mem_cons_of_mem _ hp)
      unfold Ty.size
      rw [BitVec.toNat_mul, helem]
      exact Nat.mod_eq_of_lt (by omega)
  | case2 t hne =>
      rcases hsmall t t.mem_parts_self with ⟨k₀, hk₀, hlt⟩
      have hsame : k = k₀ := Option.some.inj (hexact.symm.trans hk₀)
      subst hsame
      cases t with
      | array elem n => exact absurd rfl (hne elem n)
      | cls c => exact (hE c k hexact).1
      | int n u =>
          have hval : n = k := Option.some.inj hexact
          subst hval
          exact Nat.mod_eq_of_lt (by omega)
      | void | f64 | ptr _ | func _ _ _ =>
          rw [← Option.some.inj hexact]
          rfl

/-- `std::max<int64_t>(size, 1)` of an exact size. -/
theorem toNat_atLeastOne {x : I64} {k : ℕ} (hx : x.toNat = k) (hk : k < 2 ^ 63) :
    (if x.slt 1 then 1 else x).toNat = max k 1 := by
  have hone : (1 : I64).toNat = 1 := rfl
  rw [toNat_max_of_small (by omega) (by rw [hone]; decide), hx, hone]

/-- The storage of a variable whose size is exact. -/
theorem Ty.storage_of_exact {Γ : Codegen.Env} {k : ℕ} (hexact : t.exact E = some k)
    (hsize : (t.size Γ.heap).toNat = k) (hk : k < 2 ^ 63) : k ≤ (Γ.memTy t).storage := by
  have hbytes : k ≤ (if (t.size Γ.heap).slt 1 then 1 else t.size Γ.heap).toNat := by
    rw [toNat_atLeastOne hsize hk]
    exact Nat.le_max_left k 1
  cases t with
  | array elem n => exact hbytes
  | cls c => exact hbytes
  | void =>
      rw [← Option.some.inj hexact]
      exact Nat.zero_le _
  | f64 => exact Nat.le_of_eq (Option.some.inj hexact).symm
  | ptr _ => exact Nat.le_of_eq (Option.some.inj hexact).symm
  | func _ _ _ => exact Nat.le_of_eq (Option.some.inj hexact).symm
  | int n u =>
      have hval : n = k := Option.some.inj hexact
      subst hval
      change n ≤ (if n = 0 then 8 else n * 8) / 8
      split
      · omega
      · omega

/-- The distance of two elements whose size is exact. -/
theorem Ty.elementSize_of_exact {Γ : Codegen.Env} {k : ℕ} (hsize : (t.size Γ.heap).toNat = k)
    (hk : k < 2 ^ 63) : (Γ.elementSize t).toInt = max 1 (k : ℤ) := by
  have hmax := toInt_of_small (toNat_atLeastOne hsize hk) (by omega)
  change (if (t.size Γ.heap).slt 1 then 1 else t.size Γ.heap).toInt = _
  rw [hmax]
  omega

/-- The sizes of a type and of its elements are exact where they fit, and nowhere else. -/
theorem Ty.sized_iff_small (hE : SizesExact H E) :
    (∀ p ∈ t.parts, p.Sized H E) ↔ ∀ p ∈ t.parts, p.Small E := by
  constructor
  · intro h p hp
    rcases h p hp with ⟨k, hexact, hsize, _⟩
    exact ⟨k, hexact, (lt_of_toInt hsize).2⟩
  · intro h p hp
    rcases h p hp with ⟨k, hexact, hk⟩
    have hparts : ∀ q ∈ p.parts, q.Small E := fun q hq => h q (Ty.parts_trans hp hq)
    have hsize := Ty.toNat_size_exact hE hexact hparts
    refine ⟨k, hexact, toInt_of_small hsize hk, ?_⟩
    intro Γ hΓ
    subst hΓ
    exact ⟨Ty.elementSize_of_exact hsize hk, Ty.storage_of_exact hexact hsize hk⟩

end Types

/-! ## Exact layouts -/

/-- The offsets of parts of the given sizes that stand back to back from `o` on. -/
def offsetsFrom : ℕ → List ℕ → List ℕ
  | _, [] => []
  | o, k :: ks => o :: offsetsFrom (o + k) ks

/-- The exact offsets of the members of a class, where `start` is the size of the base. -/
def exactOffsets (u : Bool) (start : ℕ) (ks : List ℕ) : List ℕ :=
  if u then ks.map fun _ => 0 else offsetsFrom start ks

/-- The exact size of a class. -/
def exactExtent (u : Bool) (start : ℕ) (ks : List ℕ) : ℕ :=
  if u then ks.foldl max start else start + ks.sum

/-- The exact size of the base. -/
def exactBase (E : ClassSizes) (base : Option Ty) : Option ℕ :=
  match base.bind Ty.cls? with
  | some b => E b
  | none => some 0

/-- The base of `c` and its members have the exact sizes `start` and `ks`. -/
structure MemberSizes (H : Heap) (E : ClassSizes) (c : ClassId) (start : ℕ) (ks : List ℕ) :
    Prop where
  base : exactBase E (H c).base = some start
  members : (H c).members.mapM (fun m => m.type.exact E) = some ks

/-- The class `c` has the exact offsets and the exact size, and so have the types of its members. -/
def ClassExact (H : Heap) (E : ClassSizes) (u : Bool) (c : ClassId) : Prop :=
  ∃ start ks, MemberSizes H E c start ks ∧
    (∀ m ∈ (H c).members, ∀ p ∈ m.type.parts, p.Sized H E) ∧
    (H c).members.map (·.offset.toInt) = (exactOffsets u start ks).map Int.ofNat ∧
    (H c).size.toInt = exactExtent u start ks

/-- The class `c` and the types of its members have exact sizes, and these fit. -/
def ClassSmall (H : Heap) (E : ClassSizes) (u : Bool) (c : ClassId) : Prop :=
  ∃ start ks, MemberSizes H E c start ks ∧
    (∀ m ∈ (H c).members, ∀ p ∈ m.type.parts, p.Small E) ∧ exactExtent u start ks < 2 ^ 63

section Layouts

variable {H : Heap} {E : ClassSizes}

/-- The exact sizes of the members. -/
theorem mapM_cons_some {m : ClassMember} {ms : List ClassMember} {ks : List ℕ}
    (h : (m :: ms).mapM (fun m => m.type.exact E) = some ks) :
    ∃ k ks', m.type.exact E = some k ∧ ms.mapM (fun m => m.type.exact E) = some ks' ∧
      ks = k :: ks' := by
  rw [List.mapM_cons] at h
  rcases Option.bind_eq_some_iff.mp h with ⟨k, hk, h⟩
  rcases Option.bind_eq_some_iff.mp h with ⟨ks', hks, h⟩
  exact ⟨k, ks', hk, hks, (Option.some.inj h).symm⟩

theorem toNat_add_small {a b : I64} {x y : ℕ} (ha : a.toNat = x) (hb : b.toNat = y)
    (h : x + y < 2 ^ 63) : (a + b).toNat = x + y := by
  rw [BitVec.toNat_add, ha, hb]
  exact Nat.mod_eq_of_lt (by omega)

/-- The loop packs members whose sizes fit. -/
theorem layoutTypes_offsets (hE : SizesExact H E) {ms : List ClassMember} {ks : List ℕ}
    (hks : ms.mapM (fun m => m.type.exact E) = some ks)
    (hsmall : ∀ m ∈ ms, ∀ p ∈ m.type.parts, p.Small E) {o : I64} {start : ℕ}
    (ho : o.toNat = start) (hsum : start + ks.sum < 2 ^ 63) :
    (layoutTypes H false o o (ms.map (·.type))).1.map (·.toInt) =
      (offsetsFrom start ks).map Int.ofNat ∧
    (layoutTypes H false o o (ms.map (·.type))).2.toNat = start + ks.sum := by
  induction ms generalizing ks o start with
  | nil =>
      have hnil : ks = [] := (Option.some.inj hks).symm
      subst hnil
      exact ⟨rfl, ho⟩
  | cons m ms ih =>
      rcases mapM_cons_some hks with ⟨k, ks, hk, hrest, rfl⟩
      rw [List.sum_cons] at hsum ⊢
      have hm := hsmall m List.mem_cons_self
      have hsz := Ty.toNat_size_exact hE hk hm
      have hnext := toNat_add_small ho hsz (by omega)
      have hmax : (if o.slt (o + m.type.size H) then o + m.type.size H else o) =
          o + m.type.size H := by
        apply BitVec.eq_of_toNat_eq
        rw [toNat_max_of_small (by omega) (by omega)]
        omega
      rcases ih hrest (fun m hm => hsmall m (List.mem_cons_of_mem _ hm)) hnext (by omega)
        with ⟨hoff, hsize⟩
      rw [List.map_cons]
      unfold layoutTypes
      simp only [Bool.false_eq_true, if_false, hmax]
      constructor
      · rw [List.map_cons, hoff, toInt_of_small ho (by omega)]
        rfl
      · rw [hsize]
        omega

/-- The loop over the members of a union. -/
theorem layoutTypes_union (hE : SizesExact H E) {ms : List ClassMember} {ks : List ℕ}
    (hks : ms.mapM (fun m => m.type.exact E) = some ks)
    (hsmall : ∀ m ∈ ms, ∀ p ∈ m.type.parts, p.Small E) {o mx : I64} {n : ℕ}
    (hmx : mx.toNat = n) (hn : n < 2 ^ 63) :
    (layoutTypes H true o mx (ms.map (·.type))).1.map (·.toInt) =
      (ks.map fun _ => 0).map Int.ofNat ∧
    (layoutTypes H true o mx (ms.map (·.type))).2.toNat = ks.foldl max n := by
  induction ms generalizing ks mx n with
  | nil =>
      have hnil : ks = [] := (Option.some.inj hks).symm
      subst hnil
      exact ⟨rfl, hmx⟩
  | cons m ms ih =>
      rcases mapM_cons_some hks with ⟨k, ks, hk, hrest, rfl⟩
      have hm := hsmall m List.mem_cons_self
      have hsz := Ty.toNat_size_exact hE hk hm
      rcases hm m.type m.type.mem_parts_self with ⟨k₀, hk₀, hlt⟩
      have hsame : k = k₀ := Option.some.inj (hk.symm.trans hk₀)
      subst hsame
      have hmax := toNat_max_of_small (a := mx) (b := m.type.size H) (by omega) (by omega)
      rw [hmx, hsz] at hmax
      rcases ih hrest (fun m hm => hsmall m (List.mem_cons_of_mem _ hm)) hmax
        (Nat.max_lt.mpr ⟨hn, hlt⟩) with ⟨hoff, hsize⟩
      rw [List.map_cons]
      unfold layoutTypes
      simp only [if_true]
      constructor
      · rw [List.map_cons, hoff]
        rfl
      · exact hsize

theorem le_foldl_max (ks : List ℕ) (n : ℕ) : n ≤ ks.foldl max n := by
  induction ks generalizing n with
  | nil => exact Nat.le_refl n
  | cons k ks ih => exact Nat.le_trans (Nat.le_max_left n k) (ih (max n k))

/-- A laid out class is exact where its sizes fit, and nowhere else. -/
theorem LaidOut.exact_iff {u : Bool} {c : ClassId} (h : LaidOut H u c) (hE : SizesExact H E) :
    ClassExact H E u c ↔ ClassSmall H E u c := by
  constructor
  · rintro ⟨start, ks, hsizes, hparts, _, hsize⟩
    refine ⟨start, ks, hsizes, ?_, (lt_of_toInt hsize).2⟩
    intro m hm
    exact (Ty.sized_iff_small hE).mp (hparts m hm)
  · rintro ⟨start, ks, hsizes, hsmall, hlt⟩
    have hbase : (Parser.baseSize H (H c).base).toNat = start := by
      have hb := hsizes.base
      unfold exactBase at hb
      unfold Parser.baseSize
      cases hcls : (H c).base.bind Ty.cls? with
      | none =>
          rw [hcls] at hb
          rw [← Option.some.inj hb]
          rfl
      | some b =>
          rw [hcls] at hb
          exact (hE b start hb).1
    have hoff := h.offsets
    have hsize := h.size
    have hlayout : (layoutTypes H u (Parser.baseSize H (H c).base) (Parser.baseSize H (H c).base)
          ((H c).members.map (·.type))).1.map (·.toInt) =
          (exactOffsets u start ks).map Int.ofNat ∧
        (layoutTypes H u (Parser.baseSize H (H c).base) (Parser.baseSize H (H c).base)
          ((H c).members.map (·.type))).2.toNat = exactExtent u start ks := by
      cases u with
      | false => exact layoutTypes_offsets hE hsizes.members hsmall hbase hlt
      | true =>
          have hstart : start < 2 ^ 63 := Nat.lt_of_le_of_lt (le_foldl_max ks start) hlt
          exact layoutTypes_union hE hsizes.members hsmall hbase hstart
    refine ⟨start, ks, hsizes, ?_, ?_, ?_⟩
    · intro m hm
      exact (Ty.sized_iff_small hE).mpr (hsmall m hm)
    · rw [← hlayout.1, ← hoff, List.map_map]
      rfl
    · rw [hsize]
      exact toInt_of_small hlayout.2 hlt

end Layouts

/-! ## The declarations of a program -/

open Hlang.Parser

/-- The exact size of the class `c`, if those of its base and members are known. -/
def exactClass (H : Heap) (E : ClassSizes) (u : Bool) (c : ClassId) : Option ℕ := do
  let start ← exactBase E (H c).base
  let ks ← (H c).members.mapM fun m => m.type.exact E
  return exactExtent u start ks

/-- What has been declared: the class table, the exact sizes of the complete classes, and the types
of the variables. -/
structure Declared where
  prog : Program := {}
  exact : ClassSizes := fun _ => none
  vars : List Ty := []

inductive Decl where
  | cls (d : ClassDecl)
  /-- a variable, parameter or instance over the type `typeName` -/
  | var (typeName : String) (d : Declarator)

/-- The exact sizes after a class declaration. -/
def Declared.exactAfter (s : Declared) (d : ClassDecl) (prog : Program) : ClassSizes :=
  if d.body.isSome then
    Function.update s.exact (s.prog.enter d).1
      (exactClass prog.heap s.exact d.isUnion (s.prog.enter d).1)
  else s.exact

/-- The declarations that are accepted without a diagnostic. -/
def programs : Lts Declared Decl where
  init s := s = {}
  step s e s' :=
    match e with
    | .cls d => parseClassDef s.prog d = .ok s'.prog ∧ s'.exact = s.exactAfter d s'.prog ∧
        s'.vars = s.vars
    | .var n d => ∃ base name t, s.prog.baseTypeFor n = some base ∧
        d.declare base = .ok (name, t) ∧ s' = { s with vars := s.vars ++ [t] }

/-- A class that is defined has its exact offsets and size. -/
def EntryExact : Lts.Entry Declared Decl → Prop
  | (s, .cls d, s') => d.body.isSome →
      ClassExact s'.prog.heap s.exact d.isUnion (s.prog.enter d).1
  | (_, .var _ _, _) => True

/-- The sizes a class definition deals with fit. -/
def EntrySmall : Lts.Entry Declared Decl → Prop
  | (s, .cls d, s') => d.body.isSome →
      ClassSmall s'.prog.heap s.exact d.isUnion (s.prog.enter d).1
  | (_, .var _ _, _) => True

/-- The sizes of the complete classes are exact, also as the targets of pointers, and so are those
of the parts of the types of the variables. -/
structure Declared.Exact (s : Declared) : Prop where
  classes : ∀ c k, s.exact c = some k → (Ty.cls c).Sized s.prog.heap s.exact
  vars : ∀ t ∈ s.vars, ∀ p ∈ t.parts, p.Sized s.prog.heap s.exact

/-- The recorded sizes are exact. -/
structure Declared.Tracked (s : Declared) : Prop where
  tidy : s.prog.Tidy
  complete : ∀ c k, s.exact c = some k → (s.prog.heap c).complete = true
  sized : SizesExact s.prog.heap s.exact

section Runs

variable {s s' : Declared} {d : ClassDecl}

/-- A class held by value in a type of known size has a known size. -/
theorem Ty.exact_byValue {E : ClassSizes} {t : Ty} {k : ℕ} {c : ClassId}
    (hk : t.exact E = some k) (hc : t.byValue = some c) : ∃ k', E c = some k' := by
  induction t using Ty.byValue.induct generalizing k with
  | case1 c' =>
      rcases Option.some.inj hc with rfl
      exact ⟨k, hk⟩
  | case2 elem n ih =>
      rcases Option.map_eq_some_iff.mp hk with ⟨k', hk', _⟩
      exact ih hk' hc
  | case3 t hcls harr => simp [Ty.byValue] at hc

theorem mapM_exact_mem {E : ClassSizes} {ms : List ClassMember} {ks : List ℕ}
    (h : ms.mapM (fun m => m.type.exact E) = some ks) {m : ClassMember} (hm : m ∈ ms) :
    ∃ k, m.type.exact E = some k := by
  induction ms generalizing ks with
  | nil => exact absurd hm List.not_mem_nil
  | cons m' ms ih =>
      rcases mapM_cons_some h with ⟨k, ks', hk, hrest, _⟩
      rcases List.mem_cons.mp hm with rfl | hm
      · exact ⟨k, hk⟩
      · exact ih hrest hm

/-- A class over classes of known sizes is laid out over complete classes. -/
theorem Declared.Tracked.laidOut (hs : s.Tracked) (heff : Effect s.prog d s'.prog)
    (hbody : d.body.isSome) {start : ℕ} {ks : List ℕ}
    (hsizes : MemberSizes s'.prog.heap s.exact (s.prog.enter d).1 start ks) :
    LaidOut s'.prog.heap d.isUnion (s.prog.enter d).1 := by
  apply heff.laidOut hs.tidy hbody
  rintro c (hbase | ⟨m, hm, hc⟩)
  · have hb := hsizes.base
    unfold exactBase at hb
    rw [show ((s'.prog.heap (s.prog.enter d).1).base.bind Ty.cls?) = some c from hbase] at hb
    exact hs.complete c start hb
  · rcases mapM_exact_mem hsizes.members hm with ⟨k, hk⟩
    rcases Ty.exact_byValue hk hc with ⟨k', hk'⟩
    exact hs.complete c k' hk'

/-- The sizes that were exact are still so. -/
theorem Declared.Tracked.sized_after (hs : s.Tracked) (heff : Effect s.prog d s'.prog) :
    SizesExact s'.prog.heap s.exact := by
  intro c k hk
  rw [(heff.complete_kept hs.tidy (hs.complete c k hk)).2.2.1]
  exact hs.sized c k hk

/-- Step lemma: a class definition is exact where its sizes fit. -/
theorem Declared.Tracked.exact_iff (hs : s.Tracked) (heff : Effect s.prog d s'.prog)
    (hbody : d.body.isSome) :
    ClassExact s'.prog.heap s.exact d.isUnion (s.prog.enter d).1 ↔
      ClassSmall s'.prog.heap s.exact d.isUnion (s.prog.enter d).1 := by
  constructor
  · intro h
    have hsizes := h
    rcases hsizes with ⟨start, ks, hsizes, _⟩
    exact ((hs.laidOut heff hbody hsizes).exact_iff (hs.sized_after heff)).mp h
  · intro h
    have hsizes := h
    rcases hsizes with ⟨start, ks, hsizes, _⟩
    exact ((hs.laidOut heff hbody hsizes).exact_iff (hs.sized_after heff)).mpr h

/-- Step lemma: an exact class definition keeps the table of sizes. -/
theorem Declared.Tracked.cls (hs : s.Tracked) (heff : Effect s.prog d s'.prog)
    (hexact : s'.exact = s.exactAfter d s'.prog)
    (hdef : d.body.isSome → ClassExact s'.prog.heap s.exact d.isUnion (s.prog.enter d).1) :
    s'.Tracked := by
  have hold : ∀ c k, s.exact c = some k →
      (s'.prog.heap c).complete = true ∧ (s'.prog.heap c).size.toNat = k ∧ k < 2 ^ 63 := by
    intro c k hk
    exact ⟨(heff.complete_kept hs.tidy (hs.complete c k hk)).2.2.2, hs.sized_after heff c k hk⟩
  have hnew : ∀ c k, s'.exact c = some k →
      (s'.prog.heap c).complete = true ∧ (s'.prog.heap c).size.toNat = k ∧ k < 2 ^ 63 := by
    intro c k hk
    rw [hexact] at hk
    unfold Declared.exactAfter at hk
    split at hk
    · next hbody =>
      by_cases hc : c = (s.prog.enter d).1
      · subst hc
        rw [Function.update_self] at hk
        rcases hdef hbody with ⟨start, ks, hsizes, _, _, hsize⟩
        unfold exactClass at hk
        rw [hsizes.base, hsizes.members] at hk
        rcases Option.some.inj hk with rfl
        rcases Option.isSome_iff_exists.mp hbody with ⟨body, hd⟩
        exact ⟨(heff.laid body hd).1, lt_of_toInt hsize⟩
      · rw [Function.update_of_ne hc] at hk
        exact hold c k hk
    · exact hold c k hk
  exact ⟨heff.tidy hs.tidy, fun c k hk => (hnew c k hk).1, fun c k hk => (hnew c k hk).2⟩

/-- **Sizes.** Over every accepted sequence of declarations: the classes have exact offsets and
sizes, and the parts of the types of variables have exact sizes, if and only if all these sizes fit
in an `I64`. -/
theorem sizes_exact_iff {hist : List (Lts.Entry Declared Decl)} (hrun : programs.Run hist s) :
    ((∀ e ∈ hist, EntryExact e) ∧ s.Exact) ↔
      (∀ e ∈ hist, EntrySmall e) ∧ ∀ t ∈ s.vars, ∀ p ∈ t.parts, p.Small s.exact := by
  have hinit : ∀ s, programs.init s → s.Tracked := by
    rintro s rfl
    exact ⟨inv_start.tidy, fun c k hk => (nomatch hk), fun c k hk => (nomatch hk)⟩
  have hkeep : ∀ s e s', s.Tracked → programs.step s e s' → EntryExact (s, e, s') → s'.Tracked := by
    rintro s (d | ⟨n, d⟩) s' hs hstep hdef
    · rcases hstep with ⟨hparse, hexact, _⟩
      exact hs.cls (parseClassDef_effect hparse) hexact hdef
    · rcases hstep with ⟨base, name, t, _, _, rfl⟩
      exact ⟨hs.tidy, hs.complete, hs.sized⟩
  have hentries : (∀ e ∈ hist, EntryExact e) ↔ ∀ e ∈ hist, EntrySmall e := by
    apply hrun.forall_iff hinit _ hkeep
    rintro s (d | ⟨n, d⟩) s' hs hstep
    · exact forall_congr' fun hbody => hs.exact_iff (parseClassDef_effect hstep.1) hbody
    · exact Iff.rfl
  rw [← hentries]
  refine and_congr_right fun hexact => ?_
  have hs := hrun.keeps hinit hkeep hexact
  constructor
  · intro h t ht
    exact (Ty.sized_iff_small hs.sized).mp (h.vars t ht)
  · intro h
    constructor
    · intro c k hk
      have hsmall : ∀ p ∈ (Ty.cls c).parts, p.Small s.exact := by
        intro p hp
        rcases List.mem_singleton.mp hp with rfl
        exact ⟨k, hk, (hs.sized c k hk).2⟩
      exact (Ty.sized_iff_small hs.sized).mpr hsmall (.cls c) (Ty.mem_parts_self (.cls c))
    · intro t ht
      exact (Ty.sized_iff_small hs.sized).mpr (h t ht)

end Runs

/-- `class Base {I64 a;};`, declared. -/
def afterBase : Declared :=
  let prog := (parseClassDef {} baseDecl).toOption.getD {}
  { prog := prog, exact := ({} : Declared).exactAfter baseDecl prog }

/-- `Base x[10];` after that. -/
def afterInstances : Declared := { afterBase with vars := [.array (.cls 0) 10] }

/-- The run of the two declarations. -/
def instancesHist : List (Lts.Entry Declared Decl) :=
  [({}, .cls baseDecl, afterBase), (afterBase, .var "Base" (.plain 0 "x" [some 10]), afterInstances)]

theorem run_instances : programs.Run instancesHist afterInstances := by
  have hstart : programs.Run [] {} := .start rfl
  have hbase : programs.Run [({}, .cls baseDecl, afterBase)] afterBase :=
    hstart.step ⟨rfl, rfl, rfl⟩
  exact hbase.step ⟨.cls 0, "x", .array (.cls 0) 10, rfl, rfl, rfl⟩

/-- Ten objects of eight bytes. -/
theorem instances_exact : (∀ e ∈ instancesHist, EntryExact e) ∧ afterInstances.Exact := by
  apply (sizes_exact_iff run_instances).mpr
  have hclass : afterInstances.exact 0 = some 8 := rfl
  constructor
  · intro e he
    rcases List.mem_cons.mp he with rfl | he
    · intro _
      refine ⟨0, [8], ⟨rfl, rfl⟩, ?_, by decide⟩
      intro m hm p hp
      have hm' := List.mem_singleton.mp hm
      subst hm'
      have hp' := List.mem_singleton.mp hp
      subst hp'
      exact ⟨8, rfl, by decide⟩
    · rcases List.mem_singleton.mp he with rfl
      exact trivial
  · intro t ht p hp
    rcases List.mem_singleton.mp ht with rfl
    rcases List.mem_cons.mp hp with rfl | hp
    · exact ⟨80, rfl, by decide⟩
    · rcases List.mem_singleton.mp hp with rfl
      exact ⟨8, hclass, by decide⟩

/-- The state after `U8 a[4294967296][4294967296];`. -/
def afterWrapped : Declared := { vars := [.array (.array .u8 4294967296) 4294967296] }

/-- The size of an array of 2^64 bytes is computed as 0. -/
theorem wrapped_not_exact :
    ¬ ∀ hist s, programs.Run hist s → (∀ e ∈ hist, EntryExact e) ∧ s.Exact := by
  intro h
  have hstart : programs.Run [] {} := .start rfl
  have hrun : programs.Run
      [({}, .var "U8" (.plain 0 "a" [some 4294967296, some 4294967296]), afterWrapped)]
      afterWrapped :=
    hstart.step ⟨.u8, "a", .array (.array .u8 4294967296) 4294967296, rfl, rfl, rfl⟩
  have hsized := (h _ _ hrun).2.vars _ (List.mem_singleton.mpr rfl) _ (Ty.mem_parts_self _)
  rcases hsized with ⟨k, hexact, hsize, _⟩
  have hk : 18446744073709551616 = k := Option.some.inj hexact
  have hzero : Ty.size afterWrapped.prog.heap (.array (.array .u8 4294967296) 4294967296) = 0 := by
    decide
  rw [hzero] at hsize
  have hzero' : (0 : ℤ) = k := hsize
  omega

end Hlang
