import Hlang.Codegen.Control

/-!
# Hlang.Codegen.Items — the body of a switch

The meaning of the items of a switch: what runs after a label depends on whether it is in
a `start:`/`end:` group, and on the front porch of that group. Statements that are not
labels act on a state `σ` of any kind (`eff`).
-/

namespace Hlang

/-- A label of the body of a switch, or a `break`: what the switch itself sees of its
items. -/
def Stmt.isMarker : Stmt → Bool
  | .caseS _ _ | .defaultS _ | .subStart _ | .subEnd _ | .breakS _ => true
  | _ => false

/-- The items of the body of a switch: a body that is no block is its own only item. -/
def Stmt.items : Stmt → List Stmt
  | .block _ items => items
  | s => [s]

def Stmt.isCase : Stmt → Bool
  | .caseS _ _ => true
  | _ => false

end Hlang

namespace Hlang.Codegen

open Ir Gen Cg Machine

/-! ## Running the items -/

/-- Where a run of the items stands: outside of groups, in a group, on the way from a
`break` to the end porch, or behind the switch. -/
inductive Mode where
  | plain
  | grouped
  | leaving
  | left
deriving DecidableEq

section Meaning

variable {σ : Type} (eff : Stmt → σ → σ)

/-- One item. -/
def runItem (r : Mode × σ) (it : Stmt) : Mode × σ :=
  match r.1, it with
  | .left, _ => r
  | .leaving, .subEnd _ => (.plain, r.2)
  | .leaving, _ => r
  | _, .caseS _ _ | _, .defaultS _ => r
  | _, .subStart _ => (.grouped, r.2)
  | _, .subEnd _ => (.plain, r.2)
  | .plain, .breakS _ => (.left, r.2)
  | .grouped, .breakS _ => (.leaving, r.2)
  | m, it => (m, eff it r.2)

/-- The items one after the other. -/
def runItems (items : List Stmt) (r : Mode × σ) : Mode × σ := items.foldl (runItem eff) r

/-- The front porch of a group, given what follows its `start:`. -/
def frontPorch (items : List Stmt) : List Stmt := items.takeWhile fun it => !it.isCase

/-- A case label: its range, the front porch of its group if it is in one, and the items
that follow it. -/
structure Entry where
  lo : I64
  hi : I64
  porch : Option (List Stmt)
  rest : List Stmt

/-- The label matches. -/
def Entry.Matches (en : Entry) (x : I64) : Prop :=
  en.lo.toInt ≤ x.toInt ∧ x.toInt ≤ en.hi.toInt

instance (en : Entry) (x : I64) : Decidable (en.Matches x) :=
  inferInstanceAs (Decidable (_ ∧ _))

/-- Control enters at the label: in a group the front porch comes first. -/
def Entry.run (en : Entry) (s : σ) : σ :=
  match en.porch with
  | none => (runItems eff en.rest (.plain, s)).2
  | some porch => (runItems eff en.rest (runItems eff porch (.grouped, s))).2

variable (Γ : Env)

/-- The value of a case label. -/
def caseVal (e : Expr) (dflt : I64) : I64 := (Γ.evalConst e).toOption.getD dflt

/-- The range of a case label; a null case is one past the case before. -/
def caseRange (caseLo : Option (Expr × Option Expr)) (next : I64) : I64 × I64 :=
  match caseLo with
  | none => (next, next)
  | some (e, none) => (caseVal Γ e next, caseVal Γ e next)
  | some (e, some e') => (caseVal Γ e next, caseVal Γ e' (caseVal Γ e next))

/-- The case labels, from the value of the next null case and the front porch of the group
that is open. -/
def entries : I64 → Option (List Stmt) → List Stmt → List Entry
  | _, _, [] => []
  | next, porch, .caseS _ caseLo :: items =>
      let range := caseRange Γ caseLo next
      ⟨range.1, range.2, porch, items⟩ :: entries (range.2 + 1) porch items
  | next, _, .subStart _ :: items => entries next (some (frontPorch items)) items
  | next, _, .subEnd _ :: items => entries next none items
  | next, porch, _ :: items => entries next porch items

/-- What follows `default`. -/
def defaultOf : List Stmt → Option (List Stmt)
  | [] => none
  | .defaultS _ :: items => some ((defaultOf items).getD items)
  | _ :: items => defaultOf items

/-- What a switch on `x` does: it enters at the label that matches, else at `default`,
else it is left. -/
inductive Enters (items : List Stmt) (x : I64) : (σ → σ) → Prop where
  | label {en : Entry} (hen : en ∈ entries Γ 0 none items) (h : en.Matches x) :
      Enters items x (en.run eff)
  | dflt {rest : List Stmt} (h : ∀ en ∈ entries Γ 0 none items, ¬ en.Matches x)
      (hd : defaultOf items = some rest) :
      Enters items x fun s => (runItems eff rest (.plain, s)).2
  | leave (h : ∀ en ∈ entries Γ 0 none items, ¬ en.Matches x) (hd : defaultOf items = none) :
      Enters items x id

/-- No value is in the ranges of two labels. -/
def DisjointCases (items : List Stmt) : Prop :=
  (entries Γ 0 none items).Pairwise fun en en' => ∀ x, en.Matches x → ¬ en'.Matches x

end Meaning

section Meaning

variable {σ : Type} {eff : Stmt → σ → σ} {items : List Stmt} {it : Stmt} {s : σ} {m : Mode}

theorem runItems_left : runItems eff items (.left, s) = (.left, s) := by
  induction items with
  | nil => rfl
  | cons it items ih => exact ih

theorem runItem_case (r : Mode × σ) (loc : SrcLoc) (c : Option (Expr × Option Expr)) :
    runItem eff r (.caseS loc c) = r := by
  rcases r with ⟨m, s⟩
  cases m <;> rfl

theorem runItem_default (r : Mode × σ) (loc : SrcLoc) :
    runItem eff r (.defaultS loc) = r := by
  rcases r with ⟨m, s⟩
  cases m <;> rfl

/-- A statement acts in a group and outside. -/
theorem runItem_eff (h : it.isMarker = false) (hm : m = .plain ∨ m = .grouped) :
    runItem eff (m, s) it = (m, eff it s) := by
  rcases hm with rfl | rfl <;> cases it <;> first | rfl | cases h

/-- Between a `break` and the end porch nothing happens. -/
theorem runItem_leaving (h : ∀ loc, it ≠ .subEnd loc) :
    runItem eff (.leaving, s) it = (.leaving, s) := by
  cases it <;> first | rfl | exact absurd rfl (h _)

theorem entries_other {Γ : Env} {next : I64} {porch : Option (List Stmt)}
    (h : it.isMarker = false ∨ (∃ loc, it = .defaultS loc) ∨ ∃ loc, it = .breakS loc) :
    entries Γ next porch (it :: items) = entries Γ next porch items := by
  cases it <;> first | rfl | simp [Stmt.isMarker] at h

/-- Where the ranges are disjoint, the label that matches is the one that is found. -/
theorem find_label {ens : List Entry} {en : Entry} {x : I64}
    (hdisj : ens.Pairwise fun en en' => ∀ x, en.Matches x → ¬ en'.Matches x) (hen : en ∈ ens)
    (hx : en.Matches x) : ens.find? (·.Matches x) = some en := by
  induction ens with
  | nil => cases hen
  | cons en' ens ih =>
      rcases List.pairwise_cons.mp hdisj with ⟨hfirst, hrest⟩
      rcases List.mem_cons.mp hen with rfl | hen
      · exact List.find?_cons_of_pos (p := fun en : Entry => decide (en.Matches x))
          (decide_eq_true hx)
      · have hne : ¬ en'.Matches x := fun h => hfirst en hen x h hx
        rw [List.find?_cons_of_neg (p := fun en : Entry => decide (en.Matches x))
          (fun h => hne (of_decide_eq_true h))]
        exact ih hrest hen

theorem find_no_label {ens : List Entry} {x : I64} :
    ens.find? (·.Matches x) = none ↔ ∀ en ∈ ens, ¬ en.Matches x := by
  rw [List.find?_eq_none]
  exact forall₂_congr fun en _ => not_congr decide_eq_true_iff

/-- A switch does exactly one thing. -/
theorem existsUnique_enters (eff : Stmt → σ → σ) {Γ : Env} (hdisj : DisjointCases Γ items)
    (x : I64) : ∃! f, Enters eff Γ items x f := by
  cases hfind : (entries Γ 0 none items).find? (·.Matches x) with
  | some en =>
      have hen := List.mem_of_find?_eq_some hfind
      have hm : en.Matches x := of_decide_eq_true (List.find?_some (p := fun en : Entry =>
        decide (en.Matches x)) hfind)
      refine ⟨en.run eff, .label hen hm, ?_⟩
      rintro f (⟨hen', hm'⟩ | ⟨hno, _⟩ | ⟨hno, _⟩)
      · rcases Option.some.inj (hfind.symm.trans (find_label hdisj hen' hm')) with rfl
        rfl
      · exact absurd hm (hno en hen)
      · exact absurd hm (hno en hen)
  | none =>
      have hno := find_no_label.mp hfind
      cases hd : defaultOf items with
      | some rest =>
          refine ⟨_, .dflt hno hd, ?_⟩
          rintro f (⟨hen', hm'⟩ | ⟨_, hd'⟩ | ⟨_, hd'⟩)
          · exact absurd hm' (hno _ hen')
          · rcases Option.some.inj (hd.symm.trans hd') with rfl
            rfl
          · cases hd.symm.trans hd'
      | none =>
          refine ⟨_, .leave hno hd, ?_⟩
          rintro f (⟨hen', hm'⟩ | ⟨_, hd'⟩ | ⟨_, hd'⟩)
          · exact absurd hm' (hno _ hen')
          · cases hd.symm.trans hd'
          · rfl

theorem defaultOf_other (h : ∀ loc, it ≠ .defaultS loc) :
    defaultOf (it :: items) = defaultOf items := by
  cases it <;> first | rfl | exact absurd rfl (h _)

end Meaning

end Hlang.Codegen
