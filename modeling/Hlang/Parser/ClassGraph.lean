import Hlang.Lib.Dag
import Hlang.Lib.Fallible
import Hlang.Parser.ClassDef

/-!
# Hlang.Parser.ClassGraph — the class graph is well founded

The edges of the class graph are "has as base", "has as whole type" and "has a
by-value member of class". One declaration replaces the edges of one class
object, so the graph stays acyclic exactly when no class named by the
declaration led to that object before.
-/

namespace Hlang

open Dag

/-- The class an object of type `t` contains by value. -/
def Ty.byValue : Ty → Option ClassId
  | .cls c => some c
  | .array elem _ => elem.byValue
  | _ => none

/-! ## The graph -/

/-- `c` has `d` as its base. -/
def HasBase (H : Heap) (c d : ClassId) : Prop := (H c).base.bind Ty.cls? = some d

/-- `c` has `d` as its whole type. -/
def HasWhole (H : Heap) (c d : ClassId) : Prop := (H c).wholeType.bind Ty.cls? = some d

/-- `c` has a by-value (possibly array) member of class `d`. -/
def HasMember (H : Heap) (c d : ClassId) : Prop :=
  ∃ m ∈ (H c).members, m.type.byValue = some d

/-- The edges of the class graph. -/
def Has (H : Heap) (c d : ClassId) : Prop := HasBase H c d ∨ HasWhole H c d ∨ HasMember H c d

/-- What recursion over the class graph needs: `findMember`, `collect` and the
recursion of `storeTo` and `loadFrom` on whole types return, for every class,
member name and type. -/
structure Recurses (H : Heap) : Prop where
  findMember : ∀ c n, ∃ fuel, (findMember H fuel c n).isSome
  collect : ∀ c, ∃ fuel, (collect H fuel c).isSome
  accessType : ∀ t, ∃ fuel, (accessType H fuel t).isSome

theorem findMember_returns {H : Heap} (hH : Grounded (Has H)) (c : ClassId) (n : String) :
    ∃ fuel, (findMember H fuel c n).isSome := by
  induction c using hH.induction with
  | _ c ih =>
      cases hown : (H c).members.find? (·.name = n) with
      | some m => exact ⟨1, by simp [findMember, hown]⟩
      | none =>
          cases hbase : (H c).base.bind Ty.cls? with
          | none => exact ⟨1, by simp [findMember, hown, hbase]⟩
          | some b =>
              rcases ih b (.inl hbase) with ⟨fuel, hfuel⟩
              refine ⟨fuel + 1, ?_⟩
              unfold findMember
              simpa only [hown, hbase] using hfuel

theorem collect_returns {H : Heap} (hH : Grounded (Has H)) (c : ClassId) :
    ∃ fuel, (collect H fuel c).isSome := by
  induction c using hH.induction with
  | _ c ih =>
      cases hbase : (H c).base.bind Ty.cls? with
      | none => exact ⟨1, by simp [collect, hbase]⟩
      | some b =>
          rcases ih b (.inl hbase) with ⟨fuel, hfuel⟩
          refine ⟨fuel + 1, ?_⟩
          unfold collect
          simpa only [hbase, Option.isSome_map] using hfuel

theorem accessType_cls_returns {H : Heap} (hH : Grounded (Has H)) (c : ClassId) :
    ∃ fuel, (accessType H fuel (.cls c)).isSome := by
  induction c using hH.induction with
  | _ c ih =>
      cases hwhole : (H c).wholeType with
      | none => exact ⟨1, by simp [accessType, Ty.cls?, hwhole]⟩
      | some w =>
          have hnext : ∃ fuel, (accessType H fuel w).isSome := by
            cases hw : w.cls? with
            | none => exact ⟨1, by simp [accessType, hw]⟩
            | some d =>
                have hd : HasWhole H c d := by
                  unfold HasWhole
                  rw [hwhole]
                  exact hw
                have hwd : w = .cls d := by
                  cases w <;> simp_all [Ty.cls?]
                rw [hwd]
                exact ih d (.inr (.inl hd))
          rcases hnext with ⟨fuel, hfuel⟩
          refine ⟨fuel + 1, ?_⟩
          unfold accessType
          simpa only [Ty.cls?, Option.bind_some, hwhole] using hfuel

theorem accessType_returns {H : Heap} (hH : Grounded (Has H)) (t : Ty) :
    ∃ fuel, (accessType H fuel t).isSome := by
  cases ht : t.cls? with
  | none => exact ⟨1, by simp [accessType, ht]⟩
  | some c =>
      have htc : t = .cls c := by
        cases t <;> simp_all [Ty.cls?]
      rw [htc]
      exact accessType_cls_returns hH c

theorem recurses_of_grounded {H : Heap} (hH : Grounded (Has H)) : Recurses H :=
  ⟨findMember_returns hH, collect_returns hH, accessType_returns hH⟩

theorem Has.of_agree {H H' : Heap} {ci : ClassId} (h : ∀ c, c ≠ ci → H' c = H c) :
    AgreeOff ci (Has H) (Has H') := by
  intro c d hc
  unfold Has HasBase HasWhole HasMember
  rw [h c hc]

namespace Parser

/-! ## What a declaration names -/

/-- The members a body declares, in order. -/
def Program.memberList (s : Program) (body : List MemberLine) : List (String × Ty) :=
  body.flatMap fun l =>
    match s.baseTypeFor l.typeName with
    | some base => l.declarators.filterMap fun d => (d.declare base).toOption
    | none => []

/-- The whole class named by the prefix. -/
def Program.wholeClass (s : Program) (d : ClassDecl) : Option ClassId :=
  (d.wholeType.bind s.baseTypeFor).bind Ty.cls?

/-- The class named by the base clause, with the declared class entered. -/
def Program.baseClass (s : Program) (d : ClassDecl) : Option ClassId :=
  (d.base.bind (s.enter d).2.baseTypeFor).bind Ty.cls?

/-- The classes that the members of the body hold by value. -/
def Program.memberClasses (s : Program) (d : ClassDecl) : List ClassId :=
  ((s.enter d).2.memberList (d.body.getD [])).filterMap fun m => m.2.byValue

/-- The base in effect when the body is laid out: that of the base clause, or
the one an earlier forward declaration gave. -/
def Program.laidBase (s : Program) (d : ClassDecl) : Option ClassId :=
  match d.base with
  | some _ => s.baseClass d
  | none => ((s.enter d).2.heap (s.enter d).1).base.bind Ty.cls?

/-- The condition on a declaration: no class it names is the declared one or
leads to it, and where it has a body, the base class and the classes of
by-value members are complete. -/
structure Ordered (s : Program) (d : ClassDecl) : Prop where
  away : ∀ c, (s.wholeClass d = some c ∨ s.baseClass d = some c ∨ c ∈ s.memberClasses d) →
    ¬ Relation.ReflTransGen (Has s.heap) c (s.enter d).1
  complete : d.body.isSome → ∀ c, (s.laidBase d = some c ∨ c ∈ s.memberClasses d) →
    (s.heap c).complete

/-- What is wanted of a declaration: the class graph after it is acyclic, the
recursions over it return, and a body was laid out over complete classes. -/
structure WellFormed (s : Program) (d : ClassDecl) (s' : Program) : Prop where
  acyclic : Acyclic (Has s'.heap)
  recurses : Recurses s'.heap
  laidOut : d.body.isSome → ∀ c, (HasBase s'.heap (s.enter d).1 c ∨
    HasMember s'.heap (s.enter d).1 c) → (s.heap c).complete

/-! ## What a declaration does -/

/-- The object entered is an old one as it was, or a new one. -/
theorem Program.enter_cases (s : Program) (d : ClassDecl) :
    ((s.enter d).2 = s ∧ s.classes d.name = some (s.enter d).1 ∧
      ((s.heap (s.enter d).1).complete = true → d.base = none ∧ d.body = none)) ∨
    s.enter d = s.fresh d.name := by
  unfold Program.enter
  cases hname : s.classes d.name with
  | none => exact .inr rfl
  | some ci =>
      by_cases hdup : ((s.heap ci).complete && (d.base.isSome || d.body.isSome)) = true
      · exact .inr (by simp only [hdup, if_true])
      · refine .inl ?_
        simp only [hdup, Bool.false_eq_true, if_false, true_and]
        intro hcomplete
        simpa [hcomplete] using hdup

theorem Program.enter_other (s : Program) (d : ClassDecl) {c : ClassId}
    (hc : c ≠ (s.enter d).1) : (s.enter d).2.heap c = s.heap c := by
  rcases s.enter_cases d with ⟨hsame, _⟩ | hfresh
  · rw [hsame]
  · rw [hfresh] at hc ⊢
    exact Function.update_of_ne hc _ _

/-- The object entered has the base and the members it had. -/
theorem Program.enter_self (s : Program) (d : ClassDecl) :
    (s.enter d).2.heap (s.enter d).1 = s.heap (s.enter d).1 ∨
      (s.enter d).2.heap (s.enter d).1 = { name := d.name } := by
  rcases s.enter_cases d with ⟨hsame, _⟩ | hfresh
  · exact .inl (by rw [hsame])
  · right
    rw [hfresh]
    exact Function.update_self _ _ _

theorem Program.baseTypeFor_congr {s s' : Program} (h : s'.classes = s.classes) :
    s'.baseTypeFor = s.baseTypeFor := by
  funext name
  unfold Program.baseTypeFor
  rw [h]

theorem Program.setClass_self (s : Program) (ci : ClassId) (c : ClassInfo) :
    (s.setClass ci c).heap ci = c := Function.update_self _ _ _

theorem Program.setClass_other (s : Program) {ci c' : ClassId} (c : ClassInfo) (h : c' ≠ ci) :
    (s.setClass ci c).heap c' = s.heap c' := Function.update_of_ne h _ _

/-- What an accepted declaration does to the class table. -/
structure Effect (s : Program) (d : ClassDecl) (s' : Program) : Prop where
  classes : s'.classes = (s.enter d).2.classes
  next : s'.next = (s.enter d).2.next
  other : ∀ c, c ≠ (s.enter d).1 → s'.heap c = (s.enter d).2.heap c
  isUnion : (s'.heap (s.enter d).1).isUnion = d.isUnion
  whole : s.wholeOf d = .ok (s'.heap (s.enter d).1).wholeType
  base : (s.enter d).2.baseOf (s.enter d).1 d = .ok (s'.heap (s.enter d).1).base
  forward : d.body = none →
    (s'.heap (s.enter d).1).members = ((s.enter d).2.heap (s.enter d).1).members ∧
    (s'.heap (s.enter d).1).size = ((s.enter d).2.heap (s.enter d).1).size ∧
    (s'.heap (s.enter d).1).complete = ((s.enter d).2.heap (s.enter d).1).complete
  laid : ∀ body, d.body = some body → (s'.heap (s.enter d).1).complete = true ∧
    ∃ s₁ : Program, ∃ L, s₁.layout (s.enter d).1 d.isUnion body = .ok L ∧
      s₁.classes = (s.enter d).2.classes ∧
      (s₁.heap (s.enter d).1).base = (s'.heap (s.enter d).1).base ∧
      (s₁.heap (s.enter d).1).members = ((s.enter d).2.heap (s.enter d).1).members ∧
      (∀ c, (s₁.heap c).size = ((s.enter d).2.heap c).size) ∧
      (s'.heap (s.enter d).1).members = L.members ∧ (s'.heap (s.enter d).1).size = L.maxSize

theorem Program.baseOf_opened (s : Program) (ci : ClassId) (w : Option Ty) (d : ClassDecl) :
    (s.opened ci w d).baseOf ci d = s.baseOf ci d := by
  have hclasses : (s.opened ci w d).classes = s.classes := rfl
  unfold Program.baseOf
  rw [Program.baseTypeFor_congr hclasses, Program.opened, Program.setClass_self]
  rfl

theorem parseClassDef_effect {s s' : Program} {d : ClassDecl} (h : parseClassDef s d = .ok s') :
    Effect s d s' := by
  unfold parseClassDef at h
  rcases Fallible.bind_eq_ok.mp h with ⟨whole, hwhole, h⟩
  unfold Program.define at h
  rcases Fallible.bind_eq_ok.mp h with ⟨base, hbase, h⟩
  rw [Program.baseOf_opened] at hbase
  have hself : ∀ s₁ : Program, ∀ ci, ((s₁.opened ci whole d).based ci base).heap ci =
      { s₁.heap ci with isUnion := d.isUnion, wholeType := whole, base := base } := by
    intro s₁ ci
    unfold Program.based
    rw [Program.setClass_self]
    unfold Program.opened
    rw [Program.setClass_self]
  have hother : ∀ s₁ : Program, ∀ ci c, c ≠ ci →
      ((s₁.opened ci whole d).based ci base).heap c = s₁.heap c := by
    intro s₁ ci c hc
    exact (Program.setClass_other _ _ hc).trans (Program.setClass_other _ _ hc)
  cases hbody : d.body with
  | none =>
      rw [hbody, Fallible.pure_eq_ok] at h
      subst h
      have hs := hself (s.enter d).2 (s.enter d).1
      refine ⟨rfl, rfl, hother _ _, ?_, ?_, ?_, ?_, ?_⟩
      · rw [hs]
      · rw [hs]
        exact hwhole
      · rw [hs]
        exact hbase
      · intro _
        rw [hs]
        exact ⟨rfl, rfl, rfl⟩
      · intro body hfalse
        rw [hbody] at hfalse
        cases hfalse
  | some body =>
      rw [hbody] at h
      rcases Fallible.bind_eq_ok.mp h with ⟨L, hL, h⟩
      rw [Fallible.pure_eq_ok] at h
      subst h
      have hs := hself (s.enter d).2 (s.enter d).1
      refine ⟨rfl, rfl, ?_, ?_, ?_, ?_, ?_, ?_⟩
      · intro c hc
        exact (Program.setClass_other _ _ hc).trans (hother _ _ c hc)
      · rw [Program.completed, Program.setClass_self, hs]
      · rw [Program.completed, Program.setClass_self, hs]
        exact hwhole
      · rw [Program.completed, Program.setClass_self, hs]
        exact hbase
      · intro hfalse
        rw [hbody] at hfalse
        cases hfalse
      · intro body' hbody'
        rw [hbody, Option.some.injEq] at hbody'
        subst hbody'
        rw [Program.completed, Program.setClass_self]
        refine ⟨rfl, _, L, hL, rfl, rfl, ?_, ?_, rfl, rfl⟩
        · rw [hs]
        · intro c
          by_cases hc : c = (s.enter d).1
          · rw [hc, hs]
          · rw [hother _ _ c hc]

/-! ## The members a body declares -/

theorem layoutLine_members {H : Heap} {cname : String} {u : Bool} {base : Ty} {L L' : Layout}
    {ds : List Declarator} (h : layoutLine H cname u base L ds = .ok L') :
    (ds.filterMap fun d => (d.declare base).toOption).foldlM (layoutMember H cname u) L =
      .ok L' := by
  induction ds generalizing L with
  | nil => exact h
  | cons d ds ih =>
      unfold layoutLine at h
      rw [List.foldlM_cons, Fallible.bind_eq_ok] at h
      rcases h with ⟨L₁, h₁, h⟩
      rcases Fallible.bind_eq_ok.mp h₁ with ⟨m, hm, h₁⟩
      have hsome : (d.declare base).toOption = some m := by
        rw [hm]
        rfl
      rw [List.filterMap_cons, hsome, List.foldlM_cons, Fallible.bind_eq_ok]
      exact ⟨L₁, h₁, ih h⟩

/-- The layout loop is a loop over the list of declared members. -/
theorem Program.layoutLoop_members {s : Program} {cname : String} {u : Bool} {L L' : Layout}
    {ls : List MemberLine} (h : s.layoutLoop cname u L ls = .ok L') :
    (s.memberList ls).foldlM (layoutMember s.heap cname u) L = .ok L' := by
  induction ls generalizing L with
  | nil => exact h
  | cons l ls ih =>
      unfold Program.layoutLoop at h
      rw [List.foldlM_cons, Fallible.bind_eq_ok] at h
      rcases h with ⟨L₁, h₁, h⟩
      unfold Program.memberList
      rw [List.flatMap_cons, List.foldlM_append, Fallible.bind_eq_ok]
      refine ⟨L₁, ?_, ih h⟩
      cases hbase : s.baseTypeFor l.typeName with
      | none =>
          rw [hbase] at h₁
          cases h₁
      | some base =>
          rw [hbase] at h₁
          exact layoutLine_members h₁

theorem layoutMember_types {H : Heap} {cname : String} {u : Bool} {L L' : Layout}
    {m : String × Ty} (h : layoutMember H cname u L m = .ok L') :
    L'.members.map (·.type) = L.members.map (·.type) ++ [m.2] := by
  unfold layoutMember at h
  simp only at h
  split at h
  · cases h
  · split at h <;>
      · cases h
        simp

theorem foldlM_layoutMember_types {H : Heap} {cname : String} {u : Bool} {L L' : Layout}
    {ms : List (String × Ty)} (h : ms.foldlM (layoutMember H cname u) L = .ok L') :
    L'.members.map (·.type) = L.members.map (·.type) ++ ms.map (·.2) := by
  induction ms generalizing L with
  | nil =>
      rw [List.foldlM_nil, Fallible.pure_eq_ok] at h
      simp [h]
  | cons m ms ih =>
      rw [List.foldlM_cons, Fallible.bind_eq_ok] at h
      rcases h with ⟨L₁, h₁, h⟩
      rw [ih h, layoutMember_types h₁]
      simp

theorem Program.memberList_congr {s s' : Program} (h : s'.classes = s.classes) :
    s'.memberList = s.memberList := by
  funext ls
  unfold Program.memberList
  rw [Program.baseTypeFor_congr h]

/-! ## The edges a declaration leaves -/

/-- What every state of a run of well-formed declarations satisfies. -/
structure Program.Inv (s : Program) : Prop where
  grounded : Grounded (Has s.heap)
  fresh : ∀ c, s.next ≤ c → s.heap c = {}
  named : ∀ n c, s.classes n = some c → c < s.next
  unlaid : ∀ c, (s.heap c).complete = false → (s.heap c).members = []

/-- The objects in use are those below `next`. -/
structure Program.Numbered (s : Program) : Prop where
  fresh : ∀ c, s.next ≤ c → s.heap c = {}
  named : ∀ n c, s.classes n = some c → c < s.next

/-- What every accepted declaration keeps: objects are used in order, and one that is not complete
has no members. -/
structure Program.Tidy (s : Program) : Prop extends s.Numbered where
  unlaid : ∀ c, (s.heap c).complete = false → (s.heap c).members = []

theorem Program.Inv.tidy {s : Program} (hinv : s.Inv) : s.Tidy :=
  ⟨⟨hinv.fresh, hinv.named⟩, hinv.unlaid⟩

section Edges

variable {s s' : Program} {d : ClassDecl}

theorem Effect.hasWhole_iff (h : Effect s d s') (c : ClassId) :
    HasWhole s'.heap (s.enter d).1 c ↔ s.wholeClass d = some c := by
  unfold HasWhole
  have hwhole := h.whole
  unfold Program.wholeOf at hwhole
  unfold Program.wholeClass
  cases hd : d.wholeType with
  | none =>
      rw [hd] at hwhole
      rw [← Except.ok.inj hwhole]
      simp
  | some w =>
      rw [hd] at hwhole
      rcases Fallible.map_eq_ok.mp hwhole with ⟨t, ht, hsome⟩
      unfold Program.typeNamed at ht
      rw [← hsome, Option.bind_some, Option.bind_some]
      cases hbase : s.baseTypeFor w with
      | none =>
          rw [hbase] at ht
          cases ht
      | some t' =>
          rw [hbase] at ht
          rw [Except.ok.inj ht]
          rfl

theorem Effect.hasBase_iff (h : Effect s d s') (c : ClassId) :
    HasBase s'.heap (s.enter d).1 c ↔ s.laidBase d = some c := by
  unfold HasBase
  have hbase := h.base
  unfold Program.baseOf at hbase
  unfold Program.laidBase Program.baseClass
  cases hd : d.base with
  | none =>
      rw [hd] at hbase
      rw [← Except.ok.inj hbase]
  | some b =>
      rw [hd] at hbase
      simp only at hbase
      split at hbase
      · rw [← Except.ok.inj hbase]
        rfl
      · cases hbase

/-- The entered object has no members when a body follows. -/
theorem Program.Tidy.enter_members (hs : s.Tidy) (hbody : d.body.isSome) :
    ((s.enter d).2.heap (s.enter d).1).members = [] := by
  rcases s.enter_cases d with ⟨hsame, _, hcomplete⟩ | hfresh
  · rw [hsame]
    refine hs.unlaid _ ?_
    by_contra hc
    have hnone := (hcomplete (by simpa using hc)).2
    rw [hnone] at hbody
    cases hbody
  · rw [hfresh]
    unfold Program.fresh
    simp

theorem Program.Inv.enter_members (hinv : s.Inv) (hbody : d.body.isSome) :
    ((s.enter d).2.heap (s.enter d).1).members = [] := hinv.tidy.enter_members hbody

theorem Effect.hasMember_iff (h : Effect s d s') (hinv : s.Inv) (hbody : d.body.isSome)
    (c : ClassId) : HasMember s'.heap (s.enter d).1 c ↔ c ∈ s.memberClasses d := by
  rcases Option.isSome_iff_exists.mp hbody with ⟨body, hd⟩
  rcases h.laid body hd with ⟨_, s₁, L, hL, hclasses, _, hmembers, _, hfinal, _⟩
  have htypes := foldlM_layoutMember_types (Program.layoutLoop_members hL)
  simp only [hmembers, hinv.enter_members hbody, List.map_nil, List.nil_append] at htypes
  rw [Program.memberList_congr hclasses] at htypes
  unfold HasMember Program.memberClasses
  rw [hfinal, hd, Option.getD_some, List.mem_filterMap]
  constructor
  · rintro ⟨m, hm, hc⟩
    have hmem : m.type ∈ L.members.map (·.type) := List.mem_map_of_mem hm
    rw [htypes, List.mem_map] at hmem
    rcases hmem with ⟨p, hp, hpt⟩
    exact ⟨p, hp, hpt ▸ hc⟩
  · rintro ⟨p, hp, hc⟩
    have hmem : p.2 ∈ L.members.map (·.type) := htypes ▸ List.mem_map_of_mem hp
    rcases List.mem_map.mp hmem with ⟨m, hm, hmt⟩
    exact ⟨m, hm, hmt ▸ hc⟩

theorem Effect.hasMember_forward (h : Effect s d s') (hbody : d.body = none) (c : ClassId) :
    HasMember s'.heap (s.enter d).1 c ↔ HasMember (s.enter d).2.heap (s.enter d).1 c := by
  unfold HasMember
  rw [(h.forward hbody).1]

/-- An edge the entered object has before its declaration is an edge of the
graph before. -/
theorem Program.has_of_enter {c : ClassId} (h : Has (s.enter d).2.heap (s.enter d).1 c) :
    Has s.heap (s.enter d).1 c := by
  rcases s.enter_self d with hsame | hnew
  · unfold Has HasBase HasWhole HasMember at h ⊢
    rwa [hsame] at h
  · unfold Has HasBase HasWhole HasMember at h
    rw [hnew] at h
    simp at h

end Edges

/-! ## One declaration, then a run -/

section Step

variable {s s' : Program} {d : ClassDecl}

theorem Effect.agreeOff (h : Effect s d s') :
    AgreeOff (s.enter d).1 (Has s.heap) (Has s'.heap) := by
  refine Has.of_agree ?_
  intro c hc
  rw [h.other c hc, s.enter_other d hc]

/-- No new successor of the declared class led to it exactly when no class
named by the declaration did: the other successors were successors before. -/
theorem Effect.away_iff (h : Effect s d s') (hinv : s.Inv) :
    (∀ b, Has s'.heap (s.enter d).1 b → ¬ Relation.ReflTransGen (Has s.heap) b (s.enter d).1) ↔
    ∀ c, (s.wholeClass d = some c ∨ s.baseClass d = some c ∨ c ∈ s.memberClasses d) →
      ¬ Relation.ReflTransGen (Has s.heap) c (s.enter d).1 := by
  -- an edge from before cannot be part of a cycle
  have hold : ∀ b, Has (s.enter d).2.heap (s.enter d).1 b →
      ¬ Relation.ReflTransGen (Has s.heap) b (s.enter d).1 := by
    intro b hb hreach
    exact hinv.grounded.acyclic _ (Relation.TransGen.head' (Program.has_of_enter hb) hreach)
  constructor
  · intro haway c hc
    rcases hc with hwhole | hbase | hmember
    · exact haway c (.inr (.inl ((h.hasWhole_iff c).mpr hwhole)))
    · refine haway c (.inl ((h.hasBase_iff c).mpr ?_))
      unfold Program.laidBase
      cases hd : d.base with
      | none =>
          unfold Program.baseClass at hbase
          simp [hd] at hbase
      | some b => exact hbase
    · have hbody : d.body.isSome := by
        unfold Program.memberClasses at hmember
        cases hd : d.body with
        | none =>
            rw [hd] at hmember
            cases hmember
        | some body => rfl
      exact haway c (.inr (.inr ((h.hasMember_iff hinv hbody c).mpr hmember)))
  · intro hnamed b hb
    rcases hb with hbase | hwhole | hmember
    · have hlaid := (h.hasBase_iff b).mp hbase
      unfold Program.laidBase at hlaid
      cases hd : d.base with
      | none =>
          rw [hd] at hlaid
          exact hold b (.inl hlaid)
      | some n =>
          rw [hd] at hlaid
          exact hnamed b (.inr (.inl hlaid))
    · exact hnamed b (.inl ((h.hasWhole_iff b).mp hwhole))
    · cases hd : d.body with
      | none => exact hold b (.inr (.inr ((h.hasMember_forward hd b).mp hmember)))
      | some body =>
          have hbody : d.body.isSome := by
            rw [hd]
            rfl
          exact hnamed b (.inr (.inr ((h.hasMember_iff hinv hbody b).mp hmember)))

/-- Step lemma: a declaration leaves the graph well formed exactly when its
condition holds. -/
theorem Effect.wellFormed_iff (h : Effect s d s') (hinv : s.Inv) :
    WellFormed s d s' ↔ Ordered s d := by
  have hacyclic := acyclic_redirect_iff hinv.grounded h.agreeOff
  rw [h.away_iff hinv] at hacyclic
  have hlaid : ∀ c, d.body.isSome → ((HasBase s'.heap (s.enter d).1 c ∨
      HasMember s'.heap (s.enter d).1 c) ↔ (s.laidBase d = some c ∨ c ∈ s.memberClasses d)) := by
    intro c hbody
    rw [h.hasBase_iff c, h.hasMember_iff hinv hbody c]
  constructor
  · intro hwf
    refine ⟨hacyclic.mp hwf.acyclic, ?_⟩
    intro hbody c hc
    exact hwf.laidOut hbody c ((hlaid c hbody).mpr hc)
  · intro hord
    have hgrounded : Grounded (Has s'.heap) :=
      hinv.grounded.redirect h.agreeOff ((h.away_iff hinv).mpr hord.away)
    refine ⟨hgrounded.acyclic, recurses_of_grounded hgrounded, ?_⟩
    intro hbody c hc
    exact hord.complete hbody c ((hlaid c hbody).mp hc)

theorem Program.Numbered.enter_lt (hs : s.Numbered) : (s.enter d).1 < (s.enter d).2.next := by
  rcases s.enter_cases d with ⟨hsame, hname, _⟩ | hfresh
  · rw [hsame]
    exact hs.named _ _ hname
  · rw [hfresh]
    exact Nat.lt_succ_self _

theorem Program.next_le_enter : s.next ≤ (s.enter d).2.next := by
  rcases s.enter_cases d with ⟨hsame, _⟩ | hfresh
  · rw [hsame]
  · rw [hfresh]
    exact Nat.le_succ _

/-- Step lemma: every accepted declaration keeps the objects in order. -/
theorem Effect.numbered (h : Effect s d s') (hs : s.Numbered) : s'.Numbered := by
  constructor
  · intro c hc
    rw [h.next] at hc
    have hlt := hs.enter_lt (d := d)
    have hle := Program.next_le_enter (s := s) (d := d)
    have hci : c ≠ (s.enter d).1 := Nat.ne_of_gt (Nat.lt_of_lt_of_le hlt hc)
    rw [h.other c hci, s.enter_other d hci]
    exact hs.fresh c (Nat.le_trans hle hc)
  · intro n c hn
    rw [h.classes] at hn
    rw [h.next]
    rcases s.enter_cases d with ⟨hsame, _⟩ | hfresh
    · rw [hsame] at hn ⊢
      exact hs.named n c hn
    · rw [hfresh] at hn ⊢
      simp only [Program.fresh, Function.update_apply] at hn ⊢
      split at hn
      · rw [← Option.some.inj hn]
        exact Nat.lt_succ_self _
      · exact Nat.lt_succ_of_lt (hs.named n c hn)
/-- Step lemma: every accepted declaration keeps the objects tidy. -/
theorem Effect.tidy (h : Effect s d s') (hs : s.Tidy) : s'.Tidy := by
  refine ⟨h.numbered hs.toNumbered, ?_⟩
  intro c hc
  by_cases hci : c = (s.enter d).1
  · subst hci
    cases hd : d.body with
    | some body => simp [(h.laid body hd).1] at hc
    | none =>
        rcases h.forward hd with ⟨hmembers, _, hcomplete⟩
        rw [hmembers]
        rw [hcomplete] at hc
        rcases s.enter_self d with hsame | hnew
        · rw [hsame] at hc ⊢
          exact hs.unlaid _ hc
        · rw [hnew]
  · rw [h.other c hci, s.enter_other d hci] at hc ⊢
    exact hs.unlaid c hc

/-- Step lemma of the invariant. -/
theorem Effect.inv (h : Effect s d s') (hinv : s.Inv) (hord : Ordered s d) : s'.Inv := by
  have htidy := h.tidy hinv.tidy
  exact ⟨hinv.grounded.redirect h.agreeOff ((h.away_iff hinv).mpr hord.away), htidy.fresh,
    htidy.named, htidy.unlaid⟩

end Step

theorem inv_start : ({} : Program).Inv := by
  refine ⟨⟨?_⟩, ?_, ?_, ?_⟩
  · intro c
    refine Acc.intro c ?_
    intro b hb
    simp [Has, HasBase, HasWhole, HasMember] at hb
  · intro c _
    rfl
  · intro n c hn
    cases hn
  · intro c _
    rfl

theorem effect_of_step {s s' : Program} {d : ClassDecl} (h : declarations.step s d s') :
    Effect s d s' := by
  refine parseClassDef_effect ?_
  change (parseClassDef s d).toOption = some s' at h
  cases hres : parseClassDef s d with
  | error e =>
      rw [hres] at h
      cases h
  | ok s₁ =>
      rw [hres] at h
      rw [Option.some.inj h]

/-- **Well-founded class graph.** Over every accepted sequence of declarations:
after each of them the class graph is acyclic, the recursions over it return
and bodies were laid out over complete classes, if and only if at each of them
no named class was the declared one or led to it, and the base and the
by-value member classes of a body were complete. -/
theorem wellFormed_iff_ordered {hist : List (Lts.Entry Program ClassDecl)} {s : Program}
    (h : declarations.Run hist s) :
    (∀ p ∈ hist, WellFormed p.1 p.2.1 p.2.2) ↔ ∀ p ∈ hist, Ordered p.1 p.2.1 := by
  refine h.forall_iff (I := Program.Inv) ?_ ?_ ?_
  · rintro s rfl
    exact inv_start
  · intro s d s' hinv hstep
    exact (effect_of_step hstep).wellFormed_iff hinv
  · intro s d s' hinv hstep hwf
    have heff := effect_of_step hstep
    exact heff.inv hinv ((heff.wellFormed_iff hinv).mp hwf)

/-- The steps of a list of declarations, from the empty class table. -/
def declare (ds : List ClassDecl) : List (Lts.Entry Program ClassDecl) × Program :=
  (Lts.replay (fun s d => (parseClassDef s d).toOption) {} ds).getD ([], {})

theorem run_declare {ds : List ClassDecl}
    (h : (Lts.replay (fun s d => (parseClassDef s d).toOption) {} ds).isSome) :
    declarations.Run (declare ds).1 (declare ds).2 := by
  rcases Option.isSome_iff_exists.mp h with ⟨r, hr⟩
  unfold declare
  rw [hr]
  exact Lts.run_replay ds (.start rfl) hr

/-- `class Base {I64 a;};`. -/
def baseDecl : ClassDecl := { name := "Base", body := some [⟨"I64", [.plain 0 "a" []]⟩] }

/-- `class Derived : Base {Base parts[2];};`. -/
def derivedDecl : ClassDecl :=
  { name := "Derived", base := some "Base", body := some [⟨"Base", [.plain 0 "parts" [some 2]]⟩] }

theorem ordered_derived : ∀ p ∈ (declare [baseDecl, derivedDecl]).1, Ordered p.1 p.2.1 := by
  change ∀ p ∈ [(({} : Program), baseDecl, (declare [baseDecl]).2),
    ((declare [baseDecl]).2, derivedDecl, (declare [baseDecl, derivedDecl]).2)], Ordered p.1 p.2.1
  rw [List.forall_mem_cons, List.forall_mem_singleton]
  constructor
  · constructor
    · rintro c (hc | hc | hc) <;> cases hc
    · rintro _ c (hc | hc) <;> cases hc
  · -- the only class named is `Base`, object 0; the declared one is object 1
    constructor
    · intro c hc hreach
      have hzero : c = 0 := by
        rcases hc with hc | hc | hc
        · cases hc
        · exact (Option.some.inj hc).symm
        · exact List.mem_singleton.mp hc
      subst hzero
      rcases Relation.ReflTransGen.cases_head hreach with heq | ⟨b, hb, _⟩
      · exact absurd heq (by decide)
      · rcases hb with hb | hb | ⟨m, hm, hb⟩
        · cases hb
        · cases hb
        · rcases List.mem_singleton.mp hm with rfl
          cases hb
    · rintro _ c (hc | hc)
      · rcases Option.some.inj hc with rfl
        rfl
      · rcases List.mem_singleton.mp hc with rfl
        rfl

theorem wellFormed_iff_ordered_derived :
    declarations.Run (declare [baseDecl, derivedDecl]).1 (declare [baseDecl, derivedDecl]).2 ∧
    ∀ p ∈ (declare [baseDecl, derivedDecl]).1, WellFormed p.1 p.2.1 p.2.2 := by
  have hrun : declarations.Run (declare [baseDecl, derivedDecl]).1
      (declare [baseDecl, derivedDecl]).2 := run_declare (by decide)
  exact ⟨hrun, (wellFormed_iff_ordered hrun).mpr ordered_derived⟩

/-- `class A : A {};`. -/
def selfBase : ClassDecl := { name := "A", base := some "A", body := some [] }

/-- `class A : A {};` is accepted; `A` is its own base, and looking up a member
in it does not return. -/
theorem self_base_cyclic :
    declarations.Run (declare [selfBase]).1 (declare [selfBase]).2 ∧
    ¬ Acyclic (Has (declare [selfBase]).2.heap) ∧
    ∀ fuel, findMember (declare [selfBase]).2.heap fuel 0 "x" = none := by
  have hbase : HasBase (declare [selfBase]).2.heap 0 0 := rfl
  refine ⟨run_declare (by decide), ?_, ?_⟩
  · intro hacyclic
    exact hacyclic 0 (.single (.inl hbase))
  · intro fuel
    induction fuel with
    | zero => rfl
    | succ fuel ih => exact ih

end Parser

end Hlang
