import Hlang.Parser.ClassGraph

/-!
# Hlang.Parser.Frozen — complete classes do not change

A declaration without a body is a mere forward declaration. `parseClassDef` writes the
keyword and the whole type before it knows that, and a base clause makes it enter a new
object. So a complete class is left alone exactly when a forward declaration of its name
says the same as the definition did, and names no base (`kept_iff_repeats`).
-/

namespace Hlang.Parser

open Dag

/-- A complete class as it was: its members with their offsets, its size, keyword, base and
whole type. -/
structure ClassInfo.Same (c c' : ClassInfo) : Prop where
  members : c'.members = c.members
  size : c'.size = c.size
  isUnion : c'.isUnion = c.isUnion
  base : c'.base = c.base
  wholeType : c'.wholeType = c.wholeType
  complete : c'.complete = c.complete

theorem ClassInfo.Same.refl (c : ClassInfo) : ClassInfo.Same c c := ⟨rfl, rfl, rfl, rfl, rfl, rfl⟩

theorem ClassInfo.Same.trans {a b c : ClassInfo} (h : ClassInfo.Same a b)
    (h' : ClassInfo.Same b c) : ClassInfo.Same a c :=
  ⟨h'.members.trans h.members, h'.size.trans h.size, h'.isUnion.trans h.isUnion,
    h'.base.trans h.base, h'.wholeType.trans h.wholeType, h'.complete.trans h.complete⟩

/-- What a declaration must keep: the complete objects, and, where it is a forward
declaration of a complete class, what the names stand for. -/
structure Kept (s : Program) (d : ClassDecl) (s' : Program) : Prop where
  objects : ∀ c, (s.heap c).complete = true → ClassInfo.Same (s.heap c) (s'.heap c)
  names : d.body = none → ∀ c, s.classes d.name = some c → (s.heap c).complete = true →
    s'.classes = s.classes

/-- A forward declaration of a complete class repeats its keyword and its whole type, and
has no base clause. -/
def Repeats (s : Program) (d : ClassDecl) : Prop :=
  d.body = none → ∀ c, s.classes d.name = some c → (s.heap c).complete = true →
    d.base = none ∧ d.isUnion = (s.heap c).isUnion ∧ s.wholeOf d = .ok (s.heap c).wholeType

section Step

variable {s s' : Program} {d : ClassDecl}

theorem Program.Numbered.incomplete_next (hs : s.Numbered) : (s.heap s.next).complete = false := by
  rw [hs.fresh s.next (Nat.le_refl _)]

/-- A complete object other than the one that is entered is left alone. -/
theorem Effect.kept_other (h : Effect s d s') {c : ClassId} (hc : c ≠ (s.enter d).1) :
    s'.heap c = s.heap c := (h.other c hc).trans (s.enter_other d hc)

/-- Where a complete object is entered again, this is a forward declaration without a base. -/
theorem Program.Numbered.enter_complete (hs : s.Numbered) {c : ClassId}
    (hc : (s.heap c).complete = true) (hcur : c = (s.enter d).1) :
    (s.enter d).2 = s ∧ s.classes d.name = some c ∧ d.base = none ∧ d.body = none := by
  subst hcur
  rcases s.enter_cases d with ⟨hsame, hname, hforward⟩ | hfresh
  · exact ⟨hsame, hname, hforward hc⟩
  · have hnew := hs.incomplete_next
    rw [hfresh] at hc
    change (s.heap s.next).complete = true at hc
    rw [hnew] at hc
    cases hc

theorem Effect.kept_of_repeats (h : Effect s d s') (hs : s.Numbered) (hr : Repeats s d) :
    Kept s d s' := by
  constructor
  case objects =>
    intro c hc
    by_cases hcur : c = (s.enter d).1
    · rcases hs.enter_complete hc hcur with ⟨hsame, hname, hbase, hbody⟩
      rcases hr hbody c hname hc with ⟨_, hunion, hwhole⟩
      rcases h.forward hbody with ⟨hmembers, hsize, hcomplete⟩
      have hb := h.base
      have hw := h.whole
      have hu := h.isUnion
      unfold Program.baseOf at hb
      rw [hbase, hsame, ← hcur] at hb
      rw [← hcur, hsame] at hmembers hsize hcomplete
      rw [← hcur] at hw hu
      rw [hwhole] at hw
      exact ⟨hmembers, hsize, hu.trans hunion, (Except.ok.inj hb).symm, (Except.ok.inj hw).symm,
        hcomplete⟩
    · rw [h.kept_other hcur]
      exact .refl _
  case names =>
    intro hbody c hname hc
    rw [h.classes]
    rcases hr hbody c hname hc with ⟨hbase, _⟩
    unfold Program.enter
    rw [hname]
    simp [hbase, hbody]

theorem Effect.repeats_of_kept (h : Effect s d s') (hs : s.Numbered) (hk : Kept s d s') :
    Repeats s d := by
  intro hbody c hname hc
  have hclasses := hk.names hbody c hname hc
  rw [h.classes] at hclasses
  -- a base clause would enter a new object under the name
  have hbase : d.base = none := by
    cases hb : d.base with
    | none => rfl
    | some b =>
        have henter : s.enter d = s.fresh d.name := by
          unfold Program.enter
          rw [hname]
          simp [hc, hb]
        rw [henter] at hclasses
        have hnew : (s.fresh d.name).2.classes d.name = some s.next := Function.update_self ..
        rw [hclasses, hname] at hnew
        rcases Option.some.inj hnew with rfl
        rw [hs.incomplete_next] at hc
        cases hc
  have henter : s.enter d = (c, s) := by
    unfold Program.enter
    rw [hname]
    simp [hbase, hbody]
  have hsame := hk.objects c hc
  have hu := h.isUnion
  have hw := h.whole
  rw [henter] at hu hw
  exact ⟨hbase, hu.symm.trans hsame.isUnion, hw.trans (congrArg Except.ok hsame.wholeType)⟩

end Step

theorem numbered_start : ({} : Program).Numbered := by
  constructor
  case fresh => exact fun _ _ => rfl
  case named =>
    intro n c hn
    cases hn

theorem numbered_run : declarations.Invariant Program.Numbered := by
  constructor
  case init =>
    rintro s rfl
    exact numbered_start
  case step =>
    intro s d s' hs hstep
    exact (effect_of_step hstep).numbered hs

/-- Over every accepted sequence of declarations: complete classes stay as they are, and
forward declarations of them change nothing, if and only if every forward declaration of a
complete class repeats its keyword and its whole type and has no base clause. -/
theorem kept_iff_repeats {hist : List (Lts.Entry Program ClassDecl)} {s : Program}
    (h : declarations.Run hist s) :
    (∀ p ∈ hist, Kept p.1 p.2.1 p.2.2) ↔ ∀ p ∈ hist, Repeats p.1 p.2.1 := by
  refine numbered_run.forall_iff ?_ h
  intro s d s' hs hstep
  have heff := effect_of_step hstep
  exact ⟨heff.repeats_of_kept hs, heff.kept_of_repeats hs⟩

/-- Where every step keeps the complete classes, they are at the end what they were. -/
theorem same_at_end {hist : List (Lts.Entry Program ClassDecl)} {s : Program}
    (h : declarations.Run hist s) (hk : ∀ p ∈ hist, Kept p.1 p.2.1 p.2.2) :
    ∀ p ∈ hist, ∀ c, (p.1.heap c).complete = true → ClassInfo.Same (p.1.heap c) (s.heap c) := by
  induction h with
  | start => exact fun p hp => absurd hp List.not_mem_nil
  | @step hist s s' d _ _ ih =>
      intro p hp c hc
      have hlast := (hk (s, d, s') (List.mem_append_right _ List.mem_cons_self)).objects
      rcases List.mem_append.mp hp with hp | hp
      · have hold := ih (fun q hq => hk q (List.mem_append_left _ hq)) p hp c hc
        exact hold.trans (hlast c (hold.complete.trans hc))
      · rcases List.mem_singleton.mp hp with rfl
        exact hlast c hc

/-- `union U {I64 a; U8 b;};` -/
def unionDecl : ClassDecl :=
  { name := "U", isUnion := true, body := some [⟨"I64", [.plain 0 "a" []]⟩, ⟨"U8", [.plain 0 "b" []]⟩] }

/-- `union U;` -/
def unionForward : ClassDecl := { name := "U", isUnion := true }

/-- `class U;` -/
def classForward : ClassDecl := { name := "U" }

theorem kept_iff_repeats_union :
    (∀ p ∈ (declare [unionDecl, unionForward]).1, Kept p.1 p.2.1 p.2.2) ↔
      ∀ p ∈ (declare [unionDecl, unionForward]).1, Repeats p.1 p.2.1 :=
  kept_iff_repeats (run_declare (by decide))

/-- `union U {I64 a; U8 b;}; class U;`: the complete class is no union any more. -/
theorem class_forward_not_kept :
    declarations.Run (declare [unionDecl, classForward]).1 (declare [unionDecl, classForward]).2 ∧
    ((declare [unionDecl]).2.heap 0).complete = true ∧
    ((declare [unionDecl]).2.heap 0).isUnion = true ∧
    ((declare [unionDecl, classForward]).2.heap 0).isUnion = false ∧
    ¬ ∀ p ∈ (declare [unionDecl, classForward]).1, Kept p.1 p.2.1 p.2.2 := by
  refine ⟨run_declare (by decide), by decide, by decide, by decide, ?_⟩
  intro hk
  have hmem : ((declare [unionDecl]).2, classForward, (declare [unionDecl, classForward]).2) ∈
      (declare [unionDecl, classForward]).1 := List.mem_cons_of_mem _ List.mem_cons_self
  exact absurd ((hk _ hmem).objects 0 (by decide)).isUnion (by decide)

end Hlang.Parser
