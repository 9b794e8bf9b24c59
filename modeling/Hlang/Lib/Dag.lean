import Mathlib.Data.Set.Finite.Basic
import Mathlib.Logic.Relation
import Mathlib.Order.WellFounded
import Mathlib.Tactic.Common

/-!
# Dag — acyclic graphs whose nodes get their edges one node at a time

A graph is a relation: `r a b` is an edge from `a` to `b`. When all the edges
that leave one node `c` are replaced, the graph stays acyclic exactly when no
new successor of `c` led to `c` before (`acyclic_redirect_iff`). The invariant
that carries this through a run is well-foundedness, which also gives
recursion along the edges. With edges of two kinds, of which the first do not go on for
ever, it is enough that no path uses the second for ever (`acc_jump_iff`).
-/

universe u

namespace Dag

open Relation

variable {α : Type u} {r r' : α → α → Prop} {c : α}

/-- No node leads back to itself. -/
def Acyclic (r : α → α → Prop) : Prop := ∀ a, ¬ TransGen r a a

/-- Recursion along the edges terminates. -/
abbrev Grounded (r : α → α → Prop) : Prop := WellFounded fun b a => r a b

/-- The two graphs have the same edges, except those that leave `c`. -/
def AgreeOff (c : α) (r r' : α → α → Prop) : Prop := ∀ a b, a ≠ c → (r' a b ↔ r a b)

theorem Grounded.acyclic (h : Grounded r) : Acyclic r := by
  intro a ha
  have hflip : TransGen (fun b a => r a b) a a := by
    rwa [transGen_swap (r := r)]
  exact (WellFounded.transGen h).irrefl.irrefl a hflip

/-- A path to `c` does not use the edges that leave `c`. -/
theorem reach_redirect (hagree : AgreeOff c r r') {a : α} (h : ReflTransGen r a c) :
    ReflTransGen r' a c := by
  induction h using ReflTransGen.head_induction_on with
  | refl => exact .refl
  | @head a b hab _ ih =>
      by_cases hac : a = c
      · rw [hac]
      · exact .head ((hagree a b hac).mpr hab) ih

theorem AgreeOff.symm (h : AgreeOff c r r') : AgreeOff c r' r :=
  fun a b hac => (h a b hac).symm

/-- A node that does not lead to `c` leads nowhere new. -/
theorem acc_redirect (hagree : AgreeOff c r r') {a : α} (hacc : Acc (fun b a => r a b) a)
    (haway : ¬ ReflTransGen r a c) : Acc (fun b a => r' a b) a := by
  induction hacc with
  | intro a _ ih =>
      have hac : a ≠ c := by
        rintro rfl
        exact haway .refl
      refine Acc.intro a ?_
      intro b hab
      have hold := (hagree a b hac).mp hab
      exact ih b hold fun hbc => haway (.head hold hbc)

/-- Replacing the edges of `c` keeps a graph grounded when no new successor of
`c` leads to `c`. -/
theorem Grounded.redirect (h : Grounded r) (hagree : AgreeOff c r r')
    (haway : ∀ b, r' c b → ¬ ReflTransGen r b c) : Grounded r' := by
  have hc : Acc (fun b a => r' a b) c :=
    Acc.intro c fun b hcb => acc_redirect hagree (h.apply b) (haway b hcb)
  refine ⟨fun a => ?_⟩
  induction h.apply a with
  | intro a _ ih =>
      by_cases hac : a = c
      · rw [hac]
        exact hc
      · exact Acc.intro a fun b hab => ih b ((hagree a b hac).mp hab)

/-- A new successor of `c` that led to `c` closes a cycle. -/
theorem cycle_redirect (hagree : AgreeOff c r r') {b : α} (hcb : r' c b)
    (hbc : ReflTransGen r b c) : TransGen r' c c :=
  TransGen.head' hcb (reach_redirect hagree hbc)

/-- Replacing the edges of `c` in a grounded graph leaves it acyclic exactly
when no new successor of `c` led to `c`. -/
theorem acyclic_redirect_iff (h : Grounded r) (hagree : AgreeOff c r r') :
    Acyclic r' ↔ ∀ b, r' c b → ¬ ReflTransGen r b c := by
  constructor
  · intro hacyc b hcb hbc
    exact hacyc c (cycle_redirect hagree hcb hbc)
  · intro haway
    exact (h.redirect hagree haway).acyclic

/-- Where finitely many nodes are in reach, paths end exactly if none of them leads back to
itself. -/
theorem acc_iff_of_finite {a : α} (hfin : {b | ReflTransGen r a b}.Finite) :
    Acc (fun b a => r a b) a ↔ ∀ b, ReflTransGen r a b → ¬ TransGen r b b := by
  constructor
  · intro hacc
    induction hacc with
    | intro a _ ih =>
        have hbelow : ∀ c, r a c → ∀ b, ReflTransGen r c b → ¬ TransGen r b b := by
          intro c hac
          exact ih c hac (hfin.subset fun b hcb => .head hac hcb)
        intro b hab hbb
        rcases hab.cases_head with rfl | ⟨c, hac, hcb⟩
        · rcases TransGen.head'_iff.mp hbb with ⟨c, hac, hca⟩
          exact hbelow c hac a hca hbb
        · exact hbelow c hac b hcb hbb
  · intro hcycle
    -- on the nodes in reach, the paths are a strict order
    let R : {b | ReflTransGen r a b} → {b | ReflTransGen r a b} → Prop :=
      fun y x => TransGen r x.1 y.1
    have hirrefl : ∀ x, ¬ R x x := fun x => hcycle x.1 x.2
    have htrans : ∀ x y z, R x y → R y z → R x z := fun x y z hxy hyz => hyz.trans hxy
    have : Finite {b | ReflTransGen r a b} := hfin
    have : IsTrans _ R := ⟨htrans⟩
    have : Std.Irrefl R := ⟨hirrefl⟩
    have hwf : WellFounded R := Finite.wellFounded_of_trans_of_irrefl R
    have hall : ∀ x : {b | ReflTransGen r a b}, Acc (fun b a => r a b) x.1 := by
      intro x
      induction x using hwf.induction with
      | _ x ih =>
          refine Acc.intro x.1 ?_
          intro b hxb
          exact ih ⟨b, x.2.tail hxb⟩ (.single hxb)
    exact hall ⟨a, .refl⟩

/-! ## Two kinds of edges -/

section Jump

variable {s : α → α → Prop}

/-- Along edges of the first kind, and then one of the second. -/
def Jump (r s : α → α → Prop) (a b : α) : Prop := ∃ c, ReflTransGen r a c ∧ s c b

theorem Jump.head {a b c : α} (hab : r a b) (h : Jump r s b c) : Jump r s a c := by
  rcases h with ⟨x, hbx, hxc⟩
  exact ⟨x, .head hab hbx, hxc⟩

/-- Where the edges of the first kind do not go on for ever, paths end exactly if no path
uses edges of the second kind for ever. -/
theorem acc_jump_iff (hr : Grounded r) {a : α} :
    Acc (fun b a => r a b ∨ s a b) a ↔ Acc (fun b a => Jump r s a b) a := by
  constructor
  · intro hacc
    induction hacc with
    | intro a _ ih =>
        refine Acc.intro a ?_
        rintro b ⟨c, hac, hcb⟩
        rcases hac.cases_head with rfl | ⟨a', haa', hac'⟩
        · exact ih b (.inr hcb)
        · exact (ih a' (.inl haa')).inv ⟨c, hac', hcb⟩
  · intro hacc
    induction hacc with
    | intro a _ ih =>
        have hall : ∀ c, ReflTransGen r a c → Acc (fun b a => r a b ∨ s a b) c := by
          intro c
          induction hr.apply c with
          | intro c _ ihr =>
              intro hac
              refine Acc.intro c ?_
              rintro b (hcb | hcb)
              · exact ihr b hcb (hac.tail hcb)
              · exact ih b ⟨c, hac, hcb⟩
        exact hall a .refl

end Jump

end Dag
