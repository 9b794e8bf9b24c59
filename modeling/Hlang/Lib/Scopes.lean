import Mathlib.Data.List.Basic

/-!
# Scopes — a stack of scopes

Keys are bound in the topmost scope and searched from the top down. A key bound once is
found exactly as long as the scope it was bound in has not been popped
(`find_run_bind`).
-/

namespace Scopes

/-- An operation on a stack of scopes. -/
inductive Op (κ ν : Type) where
  | push
  | pop
  | bind (k : κ) (v : ν)
  | keep

/-- A stack of scopes, the topmost first. -/
abbrev Stack (κ ν : Type) := List (List (κ × ν))

variable {κ ν ν' : Type}

/-- An operation carried out. -/
def Op.apply : Op κ ν → Stack κ ν → Stack κ ν
  | .push, s => [] :: s
  | .pop, s => s.tail
  | .bind k v, s => s.modifyHead fun scope => (k, v) :: scope
  | .keep, s => s

/-- Operations carried out in order. -/
def run (s : Stack κ ν) (ops : List (Op κ ν)) : Stack κ ν := ops.foldl (fun s op => op.apply s) s

@[simp] theorem run_nil (s : Stack κ ν) : run s [] = s := rfl

@[simp] theorem run_cons (s : Stack κ ν) (op : Op κ ν) (ops : List (Op κ ν)) :
    run s (op :: ops) = run (op.apply s) ops := rfl

theorem run_append (s : Stack κ ν) (ops ops' : List (Op κ ν)) :
    run s (ops ++ ops') = run (run s ops) ops' := List.foldl_append

/-- An operation without the value it binds. -/
def Op.shape : Op κ ν → Op κ Unit
  | .push => .push
  | .pop => .pop
  | .bind k _ => .bind k ()
  | .keep => .keep

/-- The scope with `d` scopes above it is not popped. -/
def Stays : Nat → List (Op κ ν) → Prop
  | _, [] => True
  | d, .push :: ops => Stays (d + 1) ops
  | 0, .pop :: _ => False
  | d + 1, .pop :: ops => Stays d ops
  | d, .bind _ _ :: ops | d, .keep :: ops => Stays d ops

/-- `Stays`, decided by a run. -/
def decideStays : (d : Nat) → (ops : List (Op κ ν)) → Decidable (Stays d ops)
  | _, [] => .isTrue trivial
  | d, .push :: ops => decideStays (d + 1) ops
  | 0, .pop :: _ => .isFalse id
  | d + 1, .pop :: ops => decideStays d ops
  | 0, .bind _ _ :: ops | _ + 1, .bind _ _ :: ops | 0, .keep :: ops | _ + 1, .keep :: ops =>
      decideStays _ ops

instance (d : Nat) (ops : List (Op κ ν)) : Decidable (Stays d ops) := decideStays d ops

@[simp] theorem stays_nil (d : Nat) : Stays d ([] : List (Op κ ν)) := trivial

@[simp] theorem not_stays_pop {ops : List (Op κ ν)} : ¬ Stays 0 (.pop :: ops) := id

/-- What is bound does not matter. -/
theorem stays_shape (ops : List (Op κ ν)) : ∀ d, Stays d (ops.map Op.shape) ↔ Stays d ops := by
  induction ops with
  | nil => exact fun _ => Iff.rfl
  | cons op ops ih =>
      intro d
      cases op with
      | push => exact ih (d + 1)
      | pop =>
          cases d with
          | zero => exact Iff.rfl
          | succ d => exact ih d
      | bind k v => cases d <;> exact ih _
      | keep => cases d <;> exact ih _

variable [BEq κ]

/-- The search from the top down. -/
def find (s : Stack κ ν) (k : κ) : Option ν := s.findSome? (·.lookup k)

/-- `k` is bound in no scope. -/
def Free (k : κ) (s : Stack κ ν) : Prop := ∀ scope ∈ s, scope.lookup k = none

theorem find_free {k : κ} {s : Stack κ ν} (h : Free k s) : find s k = none :=
  List.findSome?_eq_none_iff.mpr h

variable [LawfulBEq κ]

theorem lookup_bind_ne {k k' : κ} (v : ν) (scope : List (κ × ν)) (hne : k' ≠ k) :
    ((k', v) :: scope).lookup k = scope.lookup k := by
  have hbeq : (k == k') = false := beq_eq_false_iff_ne.mpr (Ne.symm hne)
  simp only [List.lookup_cons, hbeq]

/-- A key that is not bound stays free. -/
theorem Free.apply {k : κ} {s : Stack κ ν} (h : Free k s) {op : Op κ ν}
    (hop : ∀ v, op ≠ .bind k v) : Free k (op.apply s) := by
  cases op with
  | push =>
      intro scope hmem
      rcases List.mem_cons.mp hmem with rfl | hmem
      · rfl
      · exact h scope hmem
  | pop => exact fun scope hmem => h scope (List.mem_of_mem_tail hmem)
  | bind k' v =>
      cases s with
      | nil => exact h
      | cons top rest =>
          intro scope hmem
          have hne : k' ≠ k := fun heq => hop v (heq ▸ rfl)
          rcases List.mem_cons.mp hmem with rfl | hmem
          · rw [lookup_bind_ne v top hne]
            exact h top List.mem_cons_self
          · exact h scope (List.mem_cons_of_mem _ hmem)
  | keep => exact h

theorem Free.run {k : κ} {ops : List (Op κ ν)} : ∀ {s : Stack κ ν}, Free k s →
    (∀ v, .bind k v ∉ ops) → Free k (run s ops) := by
  induction ops with
  | nil => exact fun h _ => h
  | cons op ops ih =>
      intro s h hops
      refine ih (h.apply ?_) fun v hmem => hops v (List.mem_cons_of_mem _ hmem)
      intro v heq
      exact hops v (heq ▸ List.mem_cons_self)

/-- The binding of `k` is in the scope below `top`: the search for `k` finds it until the
scope is popped, and finds nothing afterwards. -/
theorem find_run {k : κ} {v : ν} {ops : List (Op κ ν)} : ∀ {top rest : Stack κ ν}
    {scope : List (κ × ν)}, Free k top → scope.lookup k = some v → Free k rest →
    (∀ v, .bind k v ∉ ops) →
    find (run (top ++ scope :: rest) ops) k = if Stays top.length ops then some v else none := by
  induction ops with
  | nil =>
      intro top rest scope htop hscope _ _
      rw [if_pos (stays_nil _), run_nil]
      unfold find
      rw [List.findSome?_append, List.findSome?_eq_none_iff.mpr htop, Option.none_or,
        List.findSome?_cons, hscope]
  | cons op ops ih =>
      intro top rest scope htop hscope hrest hops
      have hops' : ∀ v, .bind k v ∉ ops := fun v hmem => hops v (List.mem_cons_of_mem _ hmem)
      have hop : ∀ v, op ≠ .bind k v := fun v heq => hops v (heq ▸ List.mem_cons_self)
      have htop' := htop.apply hop
      rw [run_cons]
      cases op with
      | push => exact ih htop' hscope hrest hops'
      | pop =>
          cases top with
          | nil =>
              -- the scope of `k` is popped
              rw [List.length_nil, if_neg not_stays_pop]
              exact find_free (hrest.run hops')
          | cons _ top => exact ih htop' hscope hrest hops'
      | bind k' v' =>
          have hne : k' ≠ k := fun heq => hop v' (heq ▸ rfl)
          cases top with
          | nil =>
              refine ih htop ?_ hrest hops'
              rw [lookup_bind_ne v' scope hne]
              exact hscope
          | cons t top => exact ih htop' hscope hrest hops'
      | keep =>
          have h := ih htop hscope hrest hops'
          cases top <;> exact h

/-- A key bound once is found as long as its scope stays. -/
theorem find_run_bind {k : κ} {v : ν} {s : Stack κ ν} {ops : List (Op κ ν)} (hs : s ≠ [])
    (hfree : Free k s) (hops : ∀ v, .bind k v ∉ ops) :
    find (run s (.bind k v :: ops)) k = if Stays 0 ops then some v else none := by
  cases s with
  | nil => exact absurd rfl hs
  | cons scope rest =>
      have htop : Free k ([] : Stack κ ν) := fun _ h => absurd h List.not_mem_nil
      have hrest : Free k rest := fun sc hmem => hfree sc (List.mem_cons_of_mem _ hmem)
      have hscope : ((k, v) :: scope).lookup k = some v := List.lookup_cons_self
      have h := find_run htop hscope hrest hops
      exact h

end Scopes
