import Hlang.Lexer.CondTree
import Hlang.Lib.Dag

/-!
# Hlang.Lexer.CondCycle — when a condition is evaluated to its end

`CondEval::primary` opens a macro without a guard. Evaluating a condition comes
to an end exactly if no macro body that it opens leads back to itself.
-/

namespace Hlang.Lexer

open Relation

/-! ## More depth -/

section Depth

variable {E : CondEnv} {sub sub' : List Token → Run I64}

theorem CondTree.eval_le (h : ∀ ts, (sub ts).Le (sub' ts)) (t : CondTree) :
    (t.eval E sub).Le (t.eval E sub') := by
  induction t with
  | val v => exact Run.Le.refl _
  | unary p k ih => exact ih.bind fun _ => Run.Le.refl _
  | bin p l r ihl ihr => exact ihl.bind fun _ => ihr.bind fun _ => Run.Le.refl _
  | body ts => exact h ts

theorem condValue_le_succ (E : CondEnv) (n : Nat) :
    ∀ ts, (condValue E n ts).Le (condValue E (n + 1) ts) := by
  induction n with
  | zero => exact fun _ => Or.inl rfl
  | succ n ih =>
      intro ts
      rw [condValue_succ, condValue_succ E (n + 1)]
      exact CondTree.eval_le ih _

/-- With more depth a condition has the value that it had before. -/
theorem condValue_le (E : CondEnv) {m n : Nat} (hmn : m ≤ n) (ts : List Token) :
    (condValue E m ts).Le (condValue E n ts) := by
  induction hmn with
  | refl => exact Run.Le.refl _
  | step _ ih => exact ih.trans (condValue_le_succ E _ ts)

end Depth

/-! ## The bodies that a condition opens -/

/-- The macro bodies in a tree. -/
def CondTree.bodies : CondTree → List (List Token)
  | .val _ => []
  | .unary _ k => k.bodies
  | .bin _ l r => l.bodies ++ r.bodies
  | .body ts => [ts]

/-- An identifier among the operands of the one condition opens the other, the body of a macro. -/
def Opens (E : CondEnv) (ts body : List Token) : Prop := body ∈ (condTree E ts).bodies

section Bodies

variable {E : CondEnv}

/-- What `parse` reads opens bodies of the table only. -/
def FromTable (E : CondEnv) (g : List Token → Option (CondTree × List Token)) : Prop :=
  ∀ ts r, g ts = some r → ∀ body ∈ r.1.bodies, ∃ n, E.macros.find n = some body

open CondTree

theorem fromTable_primary {g : List Token → Option (CondTree × List Token)} (h : FromTable E g) :
    FromTable E (parsePrimary E g) := by
  intro ts r hr body hbody
  cases ts with
  | nil =>
      rw [parsePrimary, Option.some.injEq] at hr
      rw [← hr] at hbody
      exact absurd hbody List.not_mem_nil
  | cons t ts =>
      -- leaves without a body
      have hval : ∀ {v : I64} {us : List Token}, some (CondTree.val v, us) = some r →
          ∃ n, E.macros.find n = some body := by
        intro v us heq
        rw [← Option.some.inj heq] at hbody
        exact absurd hbody List.not_mem_nil
      unfold parsePrimary at hr
      simp only at hr
      split_ifs at hr with hint hfloat hdefined hident hparen
      · exact hval hr
      · exact hval hr
      · exact hval hr
      · rcases hfind : E.macros.find t.text with _ | bs
        · rw [hfind] at hr
          exact hval hr
        · have hopen : ∀ us, some (CondTree.body bs, us) = some r →
              ∃ n, E.macros.find n = some body := by
            intro us heq
            rw [← Option.some.inj heq] at hbody
            rw [List.mem_singleton.mp hbody]
            exact ⟨_, hfind⟩
          rw [hfind] at hr
          rcases bs with _ | ⟨b, _ | ⟨b', bs⟩⟩
          · exact hval hr
          · by_cases hlit : tokIsInt b = true
            · simp only [if_pos hlit] at hr
              exact hval hr
            · simp only [if_neg hlit] at hr
              exact hopen _ hr
          · exact hopen _ hr
      · rcases Option.map_eq_some_iff.mp hr with ⟨q, hq, rfl⟩
        exact h ts q hq body hbody
      · exact hval hr

theorem fromTable_unary {g : List Token → Option (CondTree × List Token)} (h : FromTable E g)
    (k : Nat) : FromTable E (parseUnary g k) := by
  induction k with
  | zero => exact fun _ _ hr => nomatch hr
  | succ k ih =>
      intro ts r hr
      cases ts with
      | nil => exact h [] r hr
      | cons t ts =>
          unfold parseUnary at hr
          split_ifs at hr with hop
          · rcases Option.map_eq_some_iff.mp hr with ⟨q, hq, rfl⟩
            exact ih ts q hq
          · exact h _ r hr

theorem fromTable_loop {g : List Token → Option (CondTree × List Token)} (h : FromTable E g)
    (ps : List P) (k : Nat) (l : CondTree) (hl : ∀ body ∈ l.bodies, ∃ n, E.macros.find n = some body) :
    FromTable E (parseLoop ps g k l) := by
  induction k generalizing l with
  | zero => exact fun _ _ hr => nomatch hr
  | succ k ih =>
      intro ts r hr
      cases ts with
      | nil =>
          rw [← Option.some.inj hr]
          exact hl
      | cons t ts =>
          unfold parseLoop at hr
          split_ifs at hr with hop
          · rcases Option.bind_eq_some_iff.mp hr with ⟨q, hq, hr⟩
            refine ih _ ?_ _ r hr
            intro body hbody
            rcases List.mem_append.mp hbody with hbody | hbody
            · exact hl body hbody
            · exact h ts q hq body hbody
          · rw [← Option.some.inj hr]
            exact hl

theorem fromTable_tiers {g : List Token → Option (CondTree × List Token)} (h : FromTable E g)
    (k : Nat) (pss : List (List P)) :
    FromTable E (pss.foldl (fun operand ps => parseTier ps operand k) g) := by
  induction pss generalizing g with
  | nil => exact h
  | cons ps pss ih =>
      apply ih
      intro ts r hr
      rcases Option.bind_eq_some_iff.mp hr with ⟨q, hq, hr⟩
      exact fromTable_loop h ps k q.1 (h ts q hq) _ r hr

theorem fromTable_parse (E : CondEnv) (k : Nat) : FromTable E (parse E k) := by
  induction k with
  | zero => exact fun _ _ hr => nomatch hr
  | succ k ih => exact fromTable_tiers (fromTable_unary (fromTable_primary ih) _) _ _

theorem Opens.find {ts body : List Token} (h : Opens E ts body) :
    ∃ n, E.macros.find n = some body := by
  unfold Opens condTree at h
  cases hparse : parse E (ts.length + 1) ts with
  | none =>
      rw [hparse] at h
      exact absurd h List.not_mem_nil
  | some r =>
      rw [hparse] at h
      exact fromTable_parse E _ ts r hparse body h

/-- A condition leads to finitely many bodies. -/
theorem opens_finite (E : CondEnv) (ts : List Token) :
    {body | ReflTransGen (Opens E) ts body}.Finite := by
  have hsub : {body | ReflTransGen (Opens E) ts body} ⊆
      {body | body ∈ ts :: E.macros.map Prod.snd} := by
    intro body hbody
    rcases hbody.cases_tail with heq | ⟨mid, -, hlast⟩
    · rw [heq]
      exact List.mem_cons_self
    · rcases hlast.find with ⟨n, hfind⟩
      rcases MacroTable.mem_of_find hfind with ⟨m, hmem⟩
      exact List.mem_cons_of_mem _ (List.mem_map.mpr ⟨(m, body), hmem, rfl⟩)
  exact (List.finite_toSet _).subset hsub

end Bodies

/-! ## Conditions with a value -/

section Ends

variable {E : CondEnv}

/-- Operations without a defined result leave a value. -/
def CondEnv.Total (E : CondEnv) : Prop := ∀ p v r, (E.undefinedOp p v r).isSome = true

theorem applyValue_done (hE : E.Total) (p : P) (v r : I64) :
    ∃ w, CondEval.applyValue E p v r = .done w := by
  unfold CondEval.applyValue CondEval.apply
  split_ifs
  · exact ⟨_, rfl⟩
  · exact ⟨_, rfl⟩
  · rcases Option.isSome_iff_exists.mp (hE p v r) with ⟨w, hw⟩
    exact ⟨w, by rw [hw]; rfl⟩

/-- A tree has a value exactly if its bodies have values. -/
theorem CondTree.eval_done_iff (hE : E.Total) (sub : List Token → Run I64) (t : CondTree) :
    (∃ v, t.eval E sub = .done v) ↔ ∀ body ∈ t.bodies, ∃ v, sub body = .done v := by
  induction t with
  | val v => exact iff_of_true ⟨v, rfl⟩ (fun _ h => absurd h List.not_mem_nil)
  | unary p k ih =>
      unfold bodies
      rw [← ih]
      constructor
      · rintro ⟨v, hv⟩
        rw [eval] at hv
        cases hk : k.eval E sub with
        | more => rw [hk] at hv; exact nomatch hv
        | trap => rw [hk] at hv; exact nomatch hv
        | done w => exact ⟨w, rfl⟩
      · rintro ⟨w, hw⟩
        exact ⟨unaryValue p w, by rw [eval, hw]; rfl⟩
  | bin p l r ihl ihr =>
      have hbodies : (∀ body ∈ (CondTree.bin p l r).bodies, ∃ v, sub body = .done v) ↔
          (∃ v, l.eval E sub = .done v) ∧ ∃ v, r.eval E sub = .done v := by
        unfold bodies
        rw [ihl, ihr]
        exact List.forall_mem_append
      rw [hbodies]
      constructor
      · rintro ⟨v, hv⟩
        rw [eval] at hv
        cases hl : l.eval E sub with
        | more => rw [hl] at hv; exact nomatch hv
        | trap => rw [hl] at hv; exact nomatch hv
        | done a =>
            rw [hl, Run.done_bind] at hv
            cases hr : r.eval E sub with
            | more => rw [hr] at hv; exact nomatch hv
            | trap => rw [hr] at hv; exact nomatch hv
            | done b => exact ⟨⟨a, rfl⟩, b, rfl⟩
      · rintro ⟨⟨a, ha⟩, b, hb⟩
        rcases applyValue_done hE p a b with ⟨w, hw⟩
        refine ⟨w, ?_⟩
        rw [eval, ha, hb, Run.done_bind, Run.done_bind, hw]
  | body ts =>
      unfold bodies eval
      constructor
      · intro h body hbody
        rw [List.mem_singleton.mp hbody]
        exact h
      · exact fun h => h ts (List.mem_singleton_self ts)

/-- The condition has a value, at some depth. -/
def HasValue (E : CondEnv) (ts : List Token) : Prop := ∃ n v, condValue E n ts = .done v

theorem HasValue.at_depth {ts : List Token} {m n : Nat} {v : I64} (hmn : m ≤ n)
    (h : condValue E m ts = .done v) : condValue E n ts = .done v := by
  have hle := (condValue_le E hmn ts).eq (by rw [h]; exact fun hmore => nomatch hmore)
  rw [hle, h]

theorem hasValue_iff (hE : E.Total) (ts : List Token) :
    HasValue E ts ↔ ∀ body, Opens E ts body → HasValue E body := by
  constructor
  · rintro ⟨n, v, hv⟩
    cases n with
    | zero => exact nomatch hv
    | succ n =>
        rw [condValue_succ] at hv
        intro body hbody
        exact ⟨n, (CondTree.eval_done_iff hE _ _).mp ⟨v, hv⟩ body hbody⟩
  · intro h
    -- one depth that suffices for all the bodies
    have hdepth : ∀ bodies : List (List Token), (∀ body ∈ bodies, HasValue E body) →
        ∃ n, ∀ body ∈ bodies, ∃ v, condValue E n body = .done v := by
      intro bodies
      induction bodies with
      | nil => exact fun _ => ⟨0, fun _ h => absurd h List.not_mem_nil⟩
      | cons b bodies ih =>
          intro hall
          rcases hall b List.mem_cons_self with ⟨m, v, hv⟩
          rcases ih (fun body hbody => hall body (List.mem_cons_of_mem b hbody)) with ⟨n, hn⟩
          refine ⟨max m n, ?_⟩
          intro body hbody
          rcases List.mem_cons.mp hbody with rfl | hbody
          · exact ⟨v, HasValue.at_depth (Nat.le_max_left m n) hv⟩
          · rcases hn body hbody with ⟨w, hw⟩
            exact ⟨w, HasValue.at_depth (Nat.le_max_right m n) hw⟩
    rcases hdepth _ h with ⟨n, hn⟩
    rcases (CondTree.eval_done_iff hE _ _).mpr hn with ⟨v, hv⟩
    exact ⟨n + 1, v, by rw [condValue_succ, hv]⟩

/-- A condition has a value exactly if opening bodies comes to an end. -/
theorem hasValue_iff_acc (hE : E.Total) (ts : List Token) :
    HasValue E ts ↔ Acc (fun body ts => Opens E ts body) ts := by
  constructor
  · rintro ⟨n, v, hv⟩
    induction n generalizing ts v with
    | zero => exact nomatch hv
    | succ n ih =>
        rw [condValue_succ] at hv
        refine Acc.intro ts ?_
        intro body hbody
        rcases (CondTree.eval_done_iff hE _ _).mp ⟨v, hv⟩ body hbody with ⟨w, hw⟩
        exact ih body w hw
  · intro hacc
    induction hacc with
    | intro ts _ ih => exact (hasValue_iff hE ts).mpr ih

end Ends

/-! ## `evalCondExpr` -/

/-- The environment in which an operation without a defined result leaves what `U` and `T` say. -/
def CondEnv.leaving (M : MacroTable) (U : P → I64 → I64 → I64) (T : ℚ → I64) : CondEnv where
  macros := M
  undefinedOp := fun p v r => some (U p v r)
  undefinedTrunc := T

/-- `evalCondExpr` returns exactly if no macro body that the condition opens leads back to
itself. -/
theorem evalCondExpr_returns_iff (M : MacroTable) (U : P → I64 → I64 → I64) (T : ℚ → I64)
    (toks : List Token) (loc : SrcLoc) :
    (∃ n r, evalCondExpr (.leaving M U T) n toks loc = .done r) ↔
      ∀ body, ReflTransGen (Opens (.leaving M U T)) toks body →
        ¬ TransGen (Opens (.leaving M U T)) body body := by
  have hE : (CondEnv.leaving M U T).Total := fun _ _ _ => rfl
  rw [← Dag.acc_iff_of_finite (opens_finite _ _), ← hasValue_iff_acc hE]
  by_cases htoks : toks = []
  · subst htoks
    exact iff_of_true ⟨0, _, rfl⟩ ⟨1, 0, rfl⟩
  · constructor
    · rintro ⟨n, hn⟩
      exact ⟨n, (evalCondExpr_done _ n toks loc htoks).mp hn⟩
    · rintro ⟨n, hn⟩
      exact ⟨n, (evalCondExpr_done _ n toks loc htoks).mpr hn⟩

/-- `#define A A` and `#if A`. -/
theorem self_macro_never_returns :
    ¬ ∀ (M : MacroTable) (toks : List Token) (loc : SrcLoc),
      ∃ n r, evalCondExpr (.leaving M (fun _ _ _ => 0) fun _ => 0) n toks loc = .done r := by
  intro h
  have hself : Opens (.leaving [("A", [.ofIdent "A"])] (fun _ _ _ => 0) fun _ => 0)
      [.ofIdent "A"] [.ofIdent "A"] := by
    have htree : (condTree (.leaving [("A", [.ofIdent "A"])] (fun _ _ _ => 0) fun _ => 0)
        [.ofIdent "A"]).bodies = [[.ofIdent "A"]] := by decide
    unfold Opens
    rw [htree]
    exact List.mem_singleton_self _
  have hreturns := h [("A", [.ofIdent "A"])] [.ofIdent "A"] {}
  exact (evalCondExpr_returns_iff _ _ _ _ _).mp hreturns _ .refl (.single hself)

end Hlang.Lexer
