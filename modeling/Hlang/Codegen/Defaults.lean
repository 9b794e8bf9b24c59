import Hlang.Codegen.Void
import Hlang.Lib.Dag

/-!
# Hlang.Codegen.Defaults — the default arguments of calls

An argument that is omitted is generated from the default of its parameter, at the call.
That expression is not below the call in the tree, so code generation comes to an end only if
no default is opened again and again in the course of its own expansion, directly or through
others (`halts_iff`).
-/

namespace Hlang.Codegen

open Ir Gen Relation

/-! ## More depth -/

/-- What ended, or stopped at a missing value, still does. -/
structure Deeper (E S E' S' : Visit → Prop) : Prop where
  ended : ∀ v, E v → S v → E' v ∧ S' v
  missing : ∀ v, ¬ S v → ¬ S' v

section Deeper

variable {E S E' S' : Visit → Prop}

theorem Deeper.missing_all (h : Deeper E S E' S') {ss : List Step} (hs : ¬ SafeAll E S ss) :
    ¬ SafeAll E' S' ss := by
  induction ss with
  | nil => exact hs
  | cons s ss ih =>
      have hvisit : ∀ v, ¬ (S v ∧ (E v → SafeAll E S ss)) →
          ¬ (S' v ∧ (E' v → SafeAll E' S' ss)) := by
        intro v hno
        by_cases hS : S v
        · have hrest : ¬ (E v → SafeAll E S ss) := fun hr => hno ⟨hS, hr⟩
          rcases Classical.not_imp.mp hrest with ⟨hE, hsafe⟩
          exact fun h' => ih hsafe (h'.2 (h.ended v hE hS).1)
        · exact fun h' => h.missing v hS h'.1
      cases s with
      | visit p e => exact hvisit (p, e) hs
      | dflt e => exact hvisit (.rv, e) hs
      | find P =>
          rcases Classical.not_imp.mp hs with ⟨hP, hsafe⟩
          exact fun h' => ih hsafe (h' hP)
      | need P => exact fun h' => hs ⟨h'.1, Classical.not_not.mp fun hsafe => ih hsafe h'.2⟩

theorem Deeper.ended_all (h : Deeper E S E' S') {ss : List Step} (he : EndAll E ss)
    (hs : SafeAll E S ss) : EndAll E' ss ∧ SafeAll E' S' ss := by
  induction ss with
  | nil => exact ⟨trivial, trivial⟩
  | cons s ss ih =>
      have hvisit : ∀ v, E v ∧ EndAll E ss → S v ∧ (E v → SafeAll E S ss) →
          (E' v ∧ EndAll E' ss) ∧ S' v ∧ (E' v → SafeAll E' S' ss) := by
        intro v he hs
        rcases h.ended v he.1 hs.1 with ⟨hE, hS⟩
        rcases ih he.2 (hs.2 he.1) with ⟨hends, hsafe⟩
        exact ⟨⟨hE, hends⟩, hS, fun _ => hsafe⟩
      cases s with
      | visit p e => exact hvisit (p, e) he hs
      | dflt e => exact hvisit (.rv, e) he hs
      | find P =>
          rcases ih he.2 (hs he.1) with ⟨hends, hsafe⟩
          exact ⟨⟨he.1, hends⟩, fun _ => hsafe⟩
      | need P =>
          rcases ih he hs.2 with ⟨hends, hsafe⟩
          exact ⟨hends, hs.1, hsafe⟩

end Deeper

section Halts

variable {Γ : Env} {d d' : Nat} {v w : Visit} {s : Step} {ss ss' : List Step}

theorem deeper_succ (Γ : Env) (d : Nat) :
    Deeper (Ends Γ d) (Safe Γ d) (Ends Γ (d + 1)) (Safe Γ (d + 1)) := by
  induction d with
  | zero => exact ⟨fun _ h => h.elim, fun _ h => (h trivial).elim⟩
  | succ d ih => exact ⟨fun _ he hs => ih.ended_all he hs, fun _ hs => ih.missing_all hs⟩

theorem deeper_le (Γ : Env) (h : d ≤ d') :
    Deeper (Ends Γ d) (Safe Γ d) (Ends Γ d') (Safe Γ d') := by
  induction h with
  | refl => exact ⟨fun _ he hs => ⟨he, hs⟩, fun _ hs => hs⟩
  | @step m _ ih =>
      have hnext := deeper_succ Γ m
      constructor
      · intro v he hs
        rcases ih.ended v he hs with ⟨hends, hsafe⟩
        exact hnext.ended v hends hsafe
      · exact fun v hs => hnext.missing v (ih.missing v hs)

/-- Code generation to a depth ends: with a result, or at a missing value. -/
def HaltsAt (Γ : Env) (d : Nat) (v : Visit) : Prop := Ends Γ d v ∨ ¬ Safe Γ d v

/-- The steps end, to a depth. -/
def AllHaltAt (Γ : Env) (d : Nat) (ss : List Step) : Prop :=
  EndAll (Ends Γ d) ss ∨ ¬ SafeAll (Ends Γ d) (Safe Γ d) ss

/-- The steps end with results. -/
def Done (Γ : Env) (ss : List Step) : Prop :=
  ∃ d, EndAll (Ends Γ d) ss ∧ SafeAll (Ends Γ d) (Safe Γ d) ss

theorem AllHaltAt.mono (h : AllHaltAt Γ d ss) (hle : d ≤ d') : AllHaltAt Γ d' ss := by
  by_cases hs : SafeAll (Ends Γ d) (Safe Γ d) ss
  · exact .inl ((deeper_le Γ hle).ended_all (h.resolve_right (not_not_intro hs)) hs).1
  · exact .inr ((deeper_le Γ hle).missing_all hs)

/-- A step ends with a result. -/
def Step.DoneAt (Γ : Env) (d : Nat) : Step → Prop
  | .visit p e => Ends Γ d (p, e) ∧ Safe Γ d (p, e)
  | .dflt e => Ends Γ d (.rv, e) ∧ Safe Γ d (.rv, e)
  | .find P | .need P => P

/-- A step ends. -/
def Step.HaltsAt (Γ : Env) (d : Nat) : Step → Prop
  | .visit p e => Codegen.HaltsAt Γ d (p, e)
  | .dflt e => Codegen.HaltsAt Γ d (.rv, e)
  | .find P => P
  | .need _ => True

theorem Step.DoneAt.mono (h : s.DoneAt Γ d) (hle : d ≤ d') : s.DoneAt Γ d' := by
  cases s with
  | visit p e => exact (deeper_le Γ hle).ended _ h.1 h.2
  | dflt e => exact (deeper_le Γ hle).ended _ h.1 h.2
  | find P => exact h
  | need P => exact h

/-- The first step, and the rest. -/
theorem done_cons : Done Γ (s :: ss) ↔ (∃ d, s.DoneAt Γ d) ∧ Done Γ ss := by
  constructor
  · rintro ⟨d, he, hs⟩
    cases s with
    | visit p e => exact ⟨⟨d, he.1, hs.1⟩, d, he.2, hs.2 he.1⟩
    | dflt e => exact ⟨⟨d, he.1, hs.1⟩, d, he.2, hs.2 he.1⟩
    | find P => exact ⟨⟨d, he.1⟩, d, he.2, hs he.1⟩
    | need P => exact ⟨⟨d, hs.1⟩, d, he, hs.2⟩
  · rintro ⟨⟨d, hd⟩, d', he, hs⟩
    have hd := hd.mono (Nat.le_max_left d d')
    rcases (deeper_le Γ (Nat.le_max_right d d')).ended_all he hs with ⟨he, hs⟩
    refine ⟨max d d', ?_⟩
    cases s with
    | visit p e => exact ⟨⟨hd.1, he⟩, hd.2, fun _ => hs⟩
    | dflt e => exact ⟨⟨hd.1, he⟩, hd.2, fun _ => hs⟩
    | find P => exact ⟨⟨hd, he⟩, fun _ => hs⟩
    | need P => exact ⟨he, hd, hs⟩

/-- Where the steps end, the first of them does. -/
theorem AllHaltAt.head (h : AllHaltAt Γ d (s :: ss)) : s.HaltsAt Γ d := by
  have hvisit : ∀ v, (Ends Γ d v ∧ EndAll (Ends Γ d) ss) ∨
      ¬ (Safe Γ d v ∧ (Ends Γ d v → SafeAll (Ends Γ d) (Safe Γ d) ss)) → HaltsAt Γ d v := by
    rintro v (h | h)
    · exact .inl h.1
    · by_cases hS : Safe Γ d v
      · have hrest := fun hr => h ⟨hS, hr⟩
        exact .inl (Classical.not_imp.mp hrest).1
      · exact .inr hS
  cases s with
  | visit p e => exact hvisit (p, e) h
  | dflt e => exact hvisit (.rv, e) h
  | find P =>
      rcases h with h | h
      · exact h.1
      · exact (Classical.not_imp.mp h).1
  | need P => exact trivial

/-- Behind a step that ends with a result, the rest ends. -/
theorem AllHaltAt.tail (h : AllHaltAt Γ d (s :: ss)) (hs : s.DoneAt Γ d') : AllHaltAt Γ d ss := by
  have hvisit : ∀ v, (Ends Γ d v ∧ EndAll (Ends Γ d) ss) ∨
      ¬ (Safe Γ d v ∧ (Ends Γ d v → SafeAll (Ends Γ d) (Safe Γ d) ss)) →
      Ends Γ d' v ∧ Safe Γ d' v → AllHaltAt Γ d ss := by
    rintro v (h | h) hdone
    · exact .inl h.2
    · by_cases hS : Safe Γ d v
      · have hrest := fun hr => h ⟨hS, hr⟩
        exact .inr (Classical.not_imp.mp hrest).2
      · -- it would be missing at a depth beyond both
        have hmiss := (deeper_le Γ (Nat.le_max_left d d')).missing v hS
        have hok := (deeper_le Γ (Nat.le_max_right d d')).ended v hdone.1 hdone.2
        exact (hmiss hok.2).elim
  cases s with
  | visit p e => exact hvisit (p, e) h hs
  | dflt e => exact hvisit (.rv, e) h hs
  | find P =>
      rcases h with h | h
      · exact .inl h.2
      · exact .inr (Classical.not_imp.mp h).2
  | need P =>
      rcases h with h | h
      · exact .inl h
      · exact .inr fun hsafe => h ⟨hs, hsafe⟩

/-- Where the steps end, each that is reached does. -/
theorem AllHaltAt.reached (h : AllHaltAt Γ d (ss ++ s :: ss')) (hss : Done Γ ss) :
    s.HaltsAt Γ d := by
  induction ss with
  | nil => exact h.head
  | cons t ss ih =>
      rcases done_cons.mp hss with ⟨⟨d', ht⟩, hss⟩
      exact ih (h.tail ht) hss

/-- If each step that is reached ends, they all do. -/
theorem allHalt_of_reached (h : ∀ pre s post, ss = pre ++ s :: post → Done Γ pre →
    ∃ d, s.HaltsAt Γ d) : ∃ d, AllHaltAt Γ d ss := by
  induction ss with
  | nil => exact ⟨0, .inl trivial⟩
  | cons s ss ih =>
      rcases h [] s ss rfl ⟨0, trivial, trivial⟩ with ⟨d, hs⟩
      have hrest : s.DoneAt Γ d → ∃ d', AllHaltAt Γ d' ss := by
        intro hdone
        refine ih fun pre t post hpre hpost => ?_
        exact h (s :: pre) t post (by rw [hpre]; rfl) (done_cons.mpr ⟨⟨d, hdone⟩, hpost⟩)
      have hcons : s.DoneAt Γ d → ∃ d', AllHaltAt Γ d' (s :: ss) := by
        intro hdone
        rcases hrest hdone with ⟨d', hd'⟩
        have hdone := hdone.mono (Nat.le_max_left d d')
        have hd' := hd'.mono (Nat.le_max_right d d')
        refine ⟨max d d', ?_⟩
        cases s with
        | visit p e =>
            rcases hd' with h | h
            · exact .inl ⟨hdone.1, h⟩
            · exact .inr fun hsafe => h (hsafe.2 hdone.1)
        | dflt e =>
            rcases hd' with h | h
            · exact .inl ⟨hdone.1, h⟩
            · exact .inr fun hsafe => h (hsafe.2 hdone.1)
        | find P =>
            rcases hd' with h | h
            · exact .inl ⟨hdone, h⟩
            · exact .inr fun hsafe => h (hsafe hdone)
        | need P =>
            rcases hd' with h | h
            · exact .inl h
            · exact .inr fun hsafe => h hsafe.2
      have hvisit : ∀ v, HaltsAt Γ d v → (¬ Safe Γ d v → ∃ d', AllHaltAt Γ d' (s :: ss)) →
          (Ends Γ d v ∧ Safe Γ d v → ∃ d', AllHaltAt Γ d' (s :: ss)) →
          ∃ d', AllHaltAt Γ d' (s :: ss) := by
        intro v hv hmiss hdone
        by_cases hS : Safe Γ d v
        · exact hdone ⟨hv.resolve_right (not_not_intro hS), hS⟩
        · exact hmiss hS
      cases s with
      | visit p e => exact hvisit (p, e) hs (fun hS => ⟨d, .inr fun h => hS h.1⟩) hcons
      | dflt e => exact hvisit (.rv, e) hs (fun hS => ⟨d, .inr fun h => hS h.1⟩) hcons
      | find P => exact hcons hs
      | need P =>
          by_cases hP : P
          · exact hcons hP
          · exact ⟨d, .inr fun h => hP h.1⟩

/-- Step `s` of `v` is reached. -/
def Reached (Γ : Env) (v : Visit) (s : Step) : Prop :=
  ∃ pre post, Γ.steps v.1 v.2 = pre ++ s :: post ∧ Done Γ pre

/-- From `v` code generation goes on to the operand `w`. -/
def GoesOn (Γ : Env) (v w : Visit) : Prop := Reached Γ v (.visit w.1 w.2)

/-- From `v` code generation goes on to the default argument `w`. -/
def Opens (Γ : Env) (v w : Visit) : Prop := w.1 = .rv ∧ Reached Γ v (.dflt w.2)

/-- The lookups in classes of `v` that are reached return. -/
def LooksUp (Γ : Env) (v : Visit) : Prop := ∀ P, Reached Γ v (.find P) → P

/-- Code generation comes to an end. -/
def Halts (Γ : Env) (v : Visit) : Prop := ∃ d, HaltsAt Γ d v

/-- Code generation of `v` goes on to `w`. -/
abbrev Next (Γ : Env) (v w : Visit) : Prop := GoesOn Γ v w ∨ Opens Γ v w

theorem HaltsAt.next (h : HaltsAt Γ (d + 1) v) : (∀ w, Next Γ v w → HaltsAt Γ d w) ∧
    LooksUp Γ v := by
  have hreached : ∀ s, Reached Γ v s → s.HaltsAt Γ d := by
    rintro s ⟨pre, post, hsteps, hpre⟩
    have hall : AllHaltAt Γ d (Γ.steps v.1 v.2) := h
    rw [hsteps] at hall
    exact hall.reached hpre
  constructor
  · rintro ⟨p, e⟩ (hw | ⟨rfl, hw⟩)
    · exact hreached _ hw
    · exact hreached _ hw
  · exact fun P hP => hreached _ hP

theorem halts_of_next (hnext : ∀ w, Next Γ v w → Halts Γ w) (hfind : LooksUp Γ v) :
    Halts Γ v := by
  have hall : ∃ d, AllHaltAt Γ d (Γ.steps v.1 v.2) := by
    refine allHalt_of_reached fun pre s post hsteps hpre => ?_
    have hs : Reached Γ v s := ⟨pre, post, hsteps, hpre⟩
    cases s with
    | visit p e => exact hnext (p, e) (.inl hs)
    | dflt e => exact hnext (.rv, e) (.inr ⟨rfl, hs⟩)
    | find P => exact ⟨0, hfind P hs⟩
    | need P => exact ⟨0, trivial⟩
  rcases hall with ⟨d, hd⟩
  exact ⟨d + 1, hd⟩

/-- Code generation comes to an end exactly if it does not go on for ever, and the lookups in
classes return. -/
theorem halts_iff_acc : Halts Γ v ↔ Acc (fun w v => Next Γ v w) v ∧
    ∀ w, ReflTransGen (Next Γ) v w → LooksUp Γ w := by
  constructor
  · rintro ⟨d, hd⟩
    induction d generalizing v with
    | zero =>
        rcases hd with hd | hd
        · exact hd.elim
        · exact (hd trivial).elim
    | succ d ih =>
        rcases hd.next with ⟨hnext, hfind⟩
        constructor
        · exact Acc.intro v fun w hw => (ih (hnext w hw)).1
        · intro w hw
          rcases hw.cases_head with rfl | ⟨u, hvu, huw⟩
          · exact hfind
          · exact (ih (hnext u hvu)).2 w huw
  · rintro ⟨hacc, hfind⟩
    induction hacc with
    | intro v _ ih =>
        refine halts_of_next (fun w hw => ?_) (hfind v .refl)
        exact ih w hw fun u hu => hfind u (.head hw hu)

/-! ## Operands are smaller -/

/-- Of the two generators of an expression, which one calls the other. -/
def Pos.rank : Pos → Expr → Nat
  | .lv, .assign _ _ _ _ => 1
  | .rv, .index _ _ _ | .rv, .member _ _ _ _ => 1
  | _, _ => 0

/-- The size of an expression, with its rank. -/
noncomputable def Visit.size (v : Visit) : Nat := 2 * sizeOf v.2 + v.1.rank v.2

theorem rank_le (p : Pos) (e : Expr) : p.rank e ≤ 1 := by
  unfold Pos.rank
  split <;> omega

theorem size_of_lt {p p' : Pos} {e e' : Expr} (h : sizeOf e < sizeOf e') :
    Visit.size (p, e) < Visit.size (p', e') := by
  have hp := rank_le p e
  unfold Visit.size
  dsimp only
  omega

theorem mem_written {p : Pos} {e : Expr} {args : List Arg} (h : Step.visit p e ∈ written args) :
    some e ∈ args := by
  unfold written at h
  rcases List.mem_filterMap.mp h with ⟨a, ha, hstep⟩
  rcases Option.map_eq_some_iff.mp hstep with ⟨e', rfl, heq⟩
  rcases (Step.visit.inj heq).2 with rfl
  exact ha

theorem mem_usedArgs {ft : FuncType} {args : List Arg} {a : Arg} (h : a ∈ usedArgs ft args) :
    a ∈ args := by
  unfold usedArgs at h
  split at h
  · exact List.mem_of_mem_take h
  · exact h

theorem mem_argSteps {p : Pos} {e : Expr} {ps : List FuncParam} :
    ∀ {args : List Arg}, Step.visit p e ∈ Γ.argSteps ps args → some e ∈ args := by
  induction ps with
  | nil => exact fun h => by cases h
  | cons q ps ih =>
      intro args h
      unfold Env.argSteps at h
      rcases List.mem_append.mp h with h | h
      · unfold Env.slotSteps at h
        cases args with
        | nil =>
            dsimp only [List.head?_nil, Option.getD_none] at h
            split at h
            · cases h
            · simp at h
        | cons a args =>
            cases a with
            | none =>
                dsimp only [List.head?_cons, Option.getD_some] at h
                split at h
                · cases h
                · simp at h
            | some e' =>
                rcases List.mem_cons.mp h with h | h
                · rcases (Step.visit.inj h).2 with rfl
                  exact List.mem_cons_self
                · simp at h
      · exact List.mem_of_mem_tail (ih h)

theorem mem_callSteps {p : Pos} {e : Expr} {ft : FuncType} {args : List Arg} {P : Prop}
    (h : Step.visit p e ∈ Γ.callSteps ft args P) : some e ∈ args := by
  unfold Env.callSteps at h
  rcases List.mem_append.mp h with h | h
  · rcases List.mem_append.mp h with h | h
    · exact mem_usedArgs (mem_argSteps h)
    · split at h
      · exact mem_usedArgs (List.mem_of_mem_drop (mem_written h))
      · exact nomatch h
  · simp at h

theorem sizeOf_arg {n : Node} {callee e : Expr} {args : List Arg} (h : some e ∈ args) :
    sizeOf e < sizeOf (Expr.call n callee args) := by
  have hlist := List.sizeOf_lt_of_mem h
  simp only [Option.some.sizeOf_spec] at hlist
  simp only [Expr.call.sizeOf_spec]
  omega

theorem mem_elementSteps {p : Pos} {e b i : Expr}
    (h : Step.visit p e ∈ Γ.elementSteps b i) : e = b ∨ e = i := by
  unfold Env.elementSteps at h
  rcases List.mem_cons.mp h with h | h
  · exact nomatch h
  · split at h
    · rcases List.mem_cons.mp h with h | h
      · exact .inl (Step.visit.inj h).2
      · split at h
        · exact nomatch h
        · exact .inr (Step.visit.inj (List.mem_singleton.mp h)).2
    · simp only [List.mem_cons, Step.visit.injEq, List.not_mem_nil, or_false, reduceCtorEq] at h
      rcases h with ⟨_, rfl⟩ | ⟨_, rfl⟩
      · exact .inl rfl
      · exact .inr rfl

/-- An index goes on to its base, the base of its member, or the subscript. -/
theorem mem_indexSteps {p : Pos} {e b i : Expr} (h : Step.visit p e ∈ Γ.indexSteps b i) :
    e = b ∨ e = i ∨ ∃ n q s, b = .member n q s false ∧ e = q := by
  rcases noDot_cases b with hdot | ⟨n, q, s, rfl⟩
  · rw [indexSteps_eq hdot] at h
    rcases mem_elementSteps h with h | h
    · exact .inl h
    · exact .inr (.inl h)
  · have helement : Step.visit p e ∈ Γ.elementSteps (.member n q s false) i →
        e = .member n q s false ∨ e = i ∨ ∃ n' q' s', Expr.member n q s false =
          .member n' q' s' false ∧ e = q' := by
      intro h
      rcases mem_elementSteps h with h | h
      · exact .inl h
      · exact .inr (.inl h)
    unfold Env.indexSteps at h
    dsimp only at h
    split at h
    · rcases List.mem_cons.mp h with h | h
      · exact .inr (.inr ⟨n, q, s, rfl, (Step.visit.inj h).2⟩)
      · split at h
        · exact .inr (.inl (Step.visit.inj (List.mem_singleton.mp h)).2)
        · exact helement h
    · exact helement h

/-- A call goes on to its callee or its arguments. -/
theorem mem_genCallSteps {p : Pos} {e callee : Expr} {args : List Arg}
    (h : Step.visit p e ∈ Γ.genCallSteps callee args) : e = callee ∨ some e ∈ args := by
  unfold Env.genCallSteps at h
  split at h
  · unfold Env.indirectSteps at h
    rcases List.mem_cons.mp h with h | h
    · exact .inl (Step.visit.inj h).2
    · split at h
      · exact .inr (mem_callSteps h)
      · rcases List.mem_append.mp h with h | h
        · exact .inr (mem_written h)
        · cases List.mem_singleton.mp h
  · unfold intrinsicSteps at h
    split at h
    · rcases (Step.visit.inj (List.mem_singleton.mp h)).2 with rfl
      exact .inr List.mem_cons_self
    · cases h
  · exact .inr (mem_callSteps h)
  · cases h

/-- The operands that code generation goes on to are smaller. -/
theorem size_lt {p pos : Pos} {e x : Expr} (h : Step.visit p e ∈ Γ.steps pos x) :
    Visit.size (p, e) < Visit.size (pos, x) := by
  cases x with
  | ident n s =>
      cases pos with
      | lv => cases h
      | rv =>
          unfold Env.steps at h
          dsimp only at h
          split at h
          · cases List.mem_singleton.mp h
          · cases hf : Γ.findFunc s with
            | none =>
                rw [hf] at h
                cases h
            | some f =>
                rw [hf] at h
                cases mem_callSteps h
  | unary n q pre k =>
      have hkid : e = k → Visit.size (p, e) < Visit.size (pos, .unary n q pre k) := by
        rintro rfl
        refine size_of_lt ?_
        simp only [Expr.unary.sizeOf_spec]
        omega
      refine hkid ?_
      unfold Env.steps at h
      cases pos with
      | rv =>
          dsimp only at h
          split at h
          · split at h
            · cases h
            · exact (Step.visit.inj (List.mem_singleton.mp h)).2
          all_goals simp at h
          all_goals exact h.2
      | lv =>
          dsimp only at h
          split at h
          · simp at h
            exact h.2
          · split at h
            · simp at h
              exact h.2
            · cases h
  | binary n op a c =>
      have hkid : e = a ∨ e = c := by
        cases pos with
        | lv => cases h
        | rv =>
            simp only [Env.steps, List.mem_cons, Step.visit.injEq, List.not_mem_nil, or_false] at h
            rcases h with ⟨_, rfl⟩ | ⟨_, rfl⟩
            · exact .inl rfl
            · exact .inr rfl
      refine size_of_lt ?_
      simp only [Expr.binary.sizeOf_spec]
      rcases hkid with rfl | rfl <;> omega
  | chainCmp n first rest =>
      cases pos with
      | lv => cases h
      | rv =>
          refine size_of_lt ?_
          simp only [Expr.chainCmp.sizeOf_spec]
          unfold Env.steps at h
          rcases List.mem_cons.mp h with h | h
          · rcases (Step.visit.inj h).2 with rfl
            omega
          · rcases List.mem_map.mp h with ⟨r, hr, heq⟩
            rcases (Step.visit.inj heq).2 with rfl
            have hlist := List.sizeOf_lt_of_mem hr
            rcases r with ⟨op, e⟩
            simp only [Prod.mk.sizeOf_spec] at hlist
            dsimp only
            omega
  | assign n op a c =>
      have hkid : ∀ e', e = e' → e' = a ∨ e' = c →
          Visit.size (p, e) < Visit.size (pos, .assign n op a c) := by
        rintro _ rfl hkid
        refine size_of_lt ?_
        simp only [Expr.assign.sizeOf_spec]
        rcases hkid with rfl | rfl <;> omega
      cases pos with
      | lv =>
          simp only [Env.steps, List.mem_cons, Step.visit.injEq, List.not_mem_nil, or_false] at h
          rcases h with ⟨rfl, rfl⟩ | ⟨_, rfl⟩
          · exact Nat.lt_succ_self _
          · exact hkid _ rfl (.inl rfl)
      | rv =>
          unfold Env.steps at h
          dsimp only at h
          split at h
          · simp only [List.mem_cons, Step.visit.injEq, List.not_mem_nil, or_false,
              reduceCtorEq] at h
            rcases h with ⟨_, rfl⟩ | ⟨_, rfl⟩
            · exact hkid _ rfl (.inl rfl)
            · exact hkid _ rfl (.inr rfl)
          · simp only [List.mem_cons, Step.visit.injEq, List.not_mem_nil, or_false,
              reduceCtorEq, false_or] at h
            rcases h with ⟨_, rfl⟩ | ⟨_, rfl⟩
            · exact hkid _ rfl (.inl rfl)
            · exact hkid _ rfl (.inr rfl)
  | call n callee args =>
      cases pos with
      | lv => cases h
      | rv =>
          refine size_of_lt ?_
          rcases mem_genCallSteps h with rfl | harg
          · simp only [Expr.call.sizeOf_spec]
            omega
          · exact sizeOf_arg harg
  | index n b i =>
      cases pos with
      | rv =>
          simp only [Env.steps, List.mem_cons, Step.visit.injEq, List.not_mem_nil, or_false,
            reduceCtorEq] at h
          rcases h with ⟨rfl, rfl⟩
          exact Nat.lt_succ_self _
      | lv =>
          refine size_of_lt ?_
          simp only [Expr.index.sizeOf_spec]
          rcases mem_indexSteps h with rfl | rfl | ⟨n', q, s, rfl, rfl⟩
          · omega
          · omega
          · simp only [Expr.member.sizeOf_spec]
            omega
  | member n b s isArrow =>
      cases pos with
      | rv =>
          simp only [Env.steps, List.mem_cons, Step.visit.injEq, List.not_mem_nil, or_false,
            reduceCtorEq] at h
          rcases h with ⟨rfl, rfl⟩
          exact Nat.lt_succ_self _
      | lv =>
          have hkid : e = b := by
            unfold Env.steps at h
            dsimp only at h
            split at h
            · simp at h
              exact h.2
            · simp at h
              exact h.2
          rcases hkid with rfl
          refine size_of_lt ?_
          simp only [Expr.member.sizeOf_spec]
          omega
  | cast n k t =>
      have hkid : e = k := by
        cases pos with
        | rv => exact (Step.visit.inj (List.mem_singleton.mp h)).2
        | lv => exact (Step.visit.inj (List.mem_singleton.mp h)).2
      rcases hkid with rfl
      refine size_of_lt ?_
      simp only [Expr.cast.sizeOf_spec]
      omega
  | sizeofExpr n k =>
      cases pos with
      | rv => cases List.mem_singleton.mp h
      | lv => cases h
  | offsetOf n c m r =>
      cases pos with
      | rv => cases List.mem_singleton.mp h
      | lv => cases h
  | _ => cases pos <;> cases h

theorem grounded_goesOn (Γ : Env) : Dag.Grounded (GoesOn Γ) := by
  refine Subrelation.wf (r := InvImage Nat.lt Visit.size) ?_
    (InvImage.wf Visit.size Nat.lt_wfRel.wf)
  rintro w v ⟨pre, post, hsteps, _⟩
  refine size_lt (Γ := Γ) ?_
  rw [hsteps]
  exact List.mem_append_right _ List.mem_cons_self

/-- From `v`, through operands, code generation goes on to the default argument `w`. -/
abbrev Omits (Γ : Env) : Visit → Visit → Prop := Dag.Jump (GoesOn Γ) (Opens Γ)

/-- Code generation comes to an end exactly if no default argument opens another, that opens
another, for ever, and the lookups in classes return. -/
theorem halts_iff : Halts Γ v ↔ Acc (fun w v => Omits Γ v w) v ∧
    ∀ w, ReflTransGen (Next Γ) v w → LooksUp Γ w := by
  rw [halts_iff_acc, Dag.acc_jump_iff (grounded_goesOn Γ)]

/-! ## The generators -/

/-- Code generation of `v` to a depth ends, below any call sites and from any state. -/
def GenEnds (Γ : Env) (d : Nat) (v : Visit) : Prop :=
  ∀ cs B, match v.1 with
    | .rv => (gen Γ d).genExpr cs v.2 B ≠ .error .fuel
    | .lv => (gen Γ d).genLValue cs v.2 B ≠ .error .fuel

theorem genEnds_iff : GenEnds Γ d v ↔ HaltsAt Γ d v := by
  have hR := gen_visited Γ d
  have hhalts : HaltsAt Γ d v ↔ ¬ (¬ Ends Γ d v ∧ Safe Γ d v) := by
    unfold HaltsAt
    tauto
  rw [hhalts]
  rcases v with ⟨p, e⟩
  unfold GenEnds
  cases p with
  | rv =>
      constructor
      · exact fun h hno => h [] {} (((hR.rv [] e).fuel_iff {}).mpr hno)
      · exact fun h cs B hB => h (((hR.rv cs e).fuel_iff B).mp hB)
  | lv =>
      constructor
      · exact fun h hno => h [] {} (((hR.lv [] e).fuel_iff {}).mpr hno)
      · exact fun h cs B hB => h (((hR.lv cs e).fuel_iff B).mp hB)

/-- Code generation ends at some depth exactly if no omitted argument opens a default in which
another is omitted, and so on for ever; and if the lookups in classes that are reached return. -/
theorem gen_ends_iff (Γ : Env) (v : Visit) :
    (∃ d, GenEnds Γ d v) ↔ Acc (fun w v => Omits Γ v w) v ∧
      ∀ w, ReflTransGen (Next Γ) v w → LooksUp Γ w := by
  simp only [genEnds_iff]
  exact halts_iff

/-- `F();` after `I64 F(I64 a=F())`. -/
theorem not_gen_ends_self : ¬ ∃ d, GenEnds { funcs := [("F", ⟨some (.fn "F"), ⟨.i64,
    [.mk "a" .i64 (some (.call {} (.ident {} "F") [])) false], false⟩⟩)] } d
    (.rv, .call {} (.ident {} "F") []) := by
  rintro ⟨d, hd⟩
  have hopen : ∀ d, ¬ HaltsAt { funcs := [("F", ⟨some (.fn "F"), ⟨.i64,
      [.mk "a" .i64 (some (.call {} (.ident {} "F") [])) false], false⟩⟩)] } d
      (.rv, .call {} (.ident {} "F") []) := by
    intro d
    unfold HaltsAt
    rw [not_or, Classical.not_not]
    induction d with
    | zero => exact ⟨id, trivial⟩
    | succ d ih => exact ⟨fun h => ih.1 h.1, ih.2, fun _ => ⟨rfl, trivial⟩⟩
  exact hopen d (genEnds_iff.mp hd)

end Halts

end Hlang.Codegen
