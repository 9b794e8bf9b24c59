import Hlang.Lexer.CondEval

/-!
# Hlang.Lexer.CondTree — the tree of a condition

How `CondEval` goes through its tokens does not depend on values: it is a parser
for trees of operators, whose leaves are values and macro bodies. The value of a
condition is the value of its tree, with the evaluator of the next depth at the
macro bodies (`condEval_tree`).
-/

namespace Hlang.Lexer

/-- An expression of a condition. -/
inductive CondTree where
  | val (v : I64)
  | unary (p : P) (k : CondTree)
  | bin (p : P) (l r : CondTree)
  /-- a macro, with its body -/
  | body (ts : List Token)

/-- The value of a unary operator. -/
def unaryValue (p : P) (v : I64) : I64 :=
  match p with
  | .minus => -v
  | .not => truth (v = 0)
  | .tilde => ~~~v
  | _ => v

/-! ## Parsing -/

namespace CondTree

variable (E : CondEnv)

/-- What `CondEval::primary` reads. -/
def parsePrimary (paren : List Token → Option (CondTree × List Token)) :
    List Token → Option (CondTree × List Token)
  | [] => some (.val 0, [])
  | t :: ts =>
      if t.kind = .intLit || t.kind = .charLit then some (.val t.ival, ts)
      else if t.kind = .floatLit then some (.val (E.trunc t.fval), ts)
      else if t.kind = .ident && t.text = "defined" then
        let r := CondEval.definedOp E { rest := ts }
        some (.val r.1, r.2.rest)
      else if t.kind = .ident then
        match E.macros.find t.text with
        | some [b] => some (if tokIsInt b then .val b.ival else .body [b], ts)
        | some (b :: bs) => some (.body (b :: bs), ts)
        | _ => some (.val 0, ts)
      else if t.is .lParen then
        (paren ts).map fun r => (r.1, (CondState.expect .rParen { rest := r.2 }).rest)
      else some (.val 0, t :: ts)

/-- The operators of `CondEval::unary`. -/
def unaryOps : List P := [.minus, .plus, .not, .tilde]

def parseUnary (operand : List Token → Option (CondTree × List Token)) :
    Nat → List Token → Option (CondTree × List Token)
  | 0, _ => none
  | _ + 1, [] => operand []
  | k + 1, t :: ts =>
      if t.kind = .punct ∧ t.punct ∈ unaryOps then
        (parseUnary operand k ts).map fun r => (.unary t.punct r.1, r.2)
      else operand (t :: ts)

def parseLoop (ps : List P) (operand : List Token → Option (CondTree × List Token)) :
    Nat → CondTree → List Token → Option (CondTree × List Token)
  | 0, _, _ => none
  | _ + 1, l, [] => some (l, [])
  | k + 1, l, t :: ts =>
      if t.kind = .punct ∧ t.punct ∈ ps then
        (operand ts).bind fun r => parseLoop ps operand k (.bin t.punct l r.1) r.2
      else some (l, t :: ts)

def parseTier (ps : List P) (operand : List Token → Option (CondTree × List Token)) (k : Nat)
    (ts : List Token) : Option (CondTree × List Token) :=
  (operand ts).bind fun r => parseLoop ps operand k r.1 r.2

/-- The tiers, from the one that binds most. -/
def tiers : List (List P) :=
  [[.shl, .shr, .pow], [.star, .slash, .percent], [.amp], [.caret], [.pipe], [.plus, .minus],
    [.lt, .gt, .le, .ge], [.eqEq, .ne], [.andAnd], [.xorXor], [.orOr]]

def parse : Nat → List Token → Option (CondTree × List Token)
  | 0 => fun _ => none
  | k + 1 =>
      tiers.foldl (fun operand ps => parseTier ps operand (k + 1))
        (parseUnary (parsePrimary E (parse k)) (k + 1))

end CondTree

/-- The tree of a list of tokens. -/
def condTree (E : CondEnv) (ts : List Token) : CondTree :=
  ((CondTree.parse E (ts.length + 1) ts).map Prod.fst).getD (.val 0)

/-! ## Values -/

/-- The value that an operator leaves. -/
def CondEval.applyValue (E : CondEnv) (p : P) (v r : I64) : Run I64 :=
  (CondEval.apply E p v (r, { rest := [] })).map Prod.fst

/-- The value of a tree, with `sub` at the macro bodies. -/
def CondTree.eval (E : CondEnv) (sub : List Token → Run I64) : CondTree → Run I64
  | .val v => .done v
  | .unary p k => (k.eval E sub).map (unaryValue p)
  | .bin p l r =>
      (l.eval E sub).bind fun a => (r.eval E sub).bind fun b => CondEval.applyValue E p a b
  | .body ts => sub ts

/-- The value alone. -/
def values (sub : List Token → Run (I64 × CondState)) (ts : List Token) : Run I64 :=
  (sub ts).map Prod.fst

section Agree

open CondTree CondEval

variable {E : CondEnv} {sub : List Token → Run (I64 × CondState)}

/-- An evaluator gives the value of a tree and stops before `rest`. -/
def Gives (x : Run (I64 × CondState)) (y : Run I64) (rest : List Token) : Prop :=
  ∃ e, x = y.map fun v => (v, { rest, err := e })

/-- On up to `b` tokens, what `f` evaluates is the tree that `g` reads. -/
def ReadsTree (E : CondEnv) (sub : List Token → Run (I64 × CondState)) (b : Nat)
    (f : CondState → Run (I64 × CondState)) (g : List Token → Option (CondTree × List Token)) :
    Prop :=
  ∀ s : CondState, s.rest.length ≤ b → ∃ tree rest, g s.rest = some (tree, rest) ∧
    rest.length ≤ s.rest.length ∧ Gives (f s) (tree.eval E (values sub)) rest

theorem apply_gives (p : P) (v r : I64) (rest : List Token) (e : Bool) :
    Gives (CondEval.apply E p v (r, { rest, err := e })) (applyValue E p v r) rest := by
  unfold Gives applyValue CondEval.apply
  split_ifs
  · exact ⟨true, rfl⟩
  · exact ⟨e, rfl⟩
  · cases E.undefinedOp p v r with
    | none => exact ⟨e, rfl⟩
    | some w => exact ⟨e, rfl⟩

theorem Gives.done (v : I64) (rest : List Token) (e : Bool) :
    Gives (.done (v, { rest, err := e })) (.done v) rest := ⟨e, rfl⟩

/-- What follows an evaluator. -/
theorem Gives.bind {x : Run (I64 × CondState)} {y : Run I64} {rest rest' : List Token}
    (h : Gives x y rest) {f : I64 × CondState → Run (I64 × CondState)} {g : I64 → Run I64}
    (hfg : ∀ v e, Gives (f (v, { rest, err := e })) (g v) rest') :
    Gives (x.bind f) (y.bind g) rest' := by
  rcases h with ⟨e, rfl⟩
  cases y with
  | more => exact ⟨e, rfl⟩
  | trap => exact ⟨e, rfl⟩
  | done v => exact hfg v e

theorem Gives.map {x : Run (I64 × CondState)} {y : Run I64} {rest : List Token}
    (h : Gives x y rest) (f : I64 → I64) :
    Gives (x.map fun r => (f r.1, r.2)) (y.map f) rest :=
  h.bind fun _ _ => Gives.done _ _ _

/-! ## The functions of `CondEval`, one by one -/

theorem eatP_nil (p : P) (e : Bool) : CondState.eatP p { rest := [], err := e } = none := rfl

theorem eatP_cons (p : P) (t : Token) (ts : List Token) (e : Bool) :
    CondState.eatP p { rest := t :: ts, err := e } =
      if t.is p then some { rest := ts, err := e } else none := rfl

theorem unary_cons (f : CondState → Run (I64 × CondState)) (k : Nat) (t : Token)
    (ts : List Token) (e : Bool) :
    CondEval.unary f (k + 1) { rest := t :: ts, err := e } =
      if t.kind = .punct ∧ t.punct ∈ unaryOps then
        (CondEval.unary f k { rest := ts, err := e }).map fun r => (unaryValue t.punct r.1, r.2)
      else f { rest := t :: ts, err := e } := by
  rw [CondEval.unary]
  simp only [eatP_cons, Token.is]
  by_cases hkind : t.kind = .punct
  · simp only [hkind, decide_true, Bool.true_and, true_and, decide_eq_true_eq]
    by_cases hminus : t.punct = .minus
    · simp [hminus, unaryOps, unaryValue]
    by_cases hplus : t.punct = .plus
    · have hsame : ∀ x : Run (I64 × CondState), x.map (fun r => (r.1, r.2)) = x := by
        intro x
        cases x <;> rfl
      simp [hplus, unaryOps, unaryValue, hsame]
    by_cases hnot : t.punct = .not
    · simp [hnot, unaryOps, unaryValue]
    by_cases htilde : t.punct = .tilde
    · simp [htilde, unaryOps, unaryValue]
    simp [hminus, hplus, hnot, htilde, unaryOps]
  · simp [hkind]

theorem readsTree_unary {b : Nat} {f : CondState → Run (I64 × CondState)}
    {g : List Token → Option (CondTree × List Token)} (h : ReadsTree E sub b f g) {k : Nat}
    (hk : b < k) : ReadsTree E sub b (CondEval.unary f k) (parseUnary g k) := by
  intro s hs
  have hlen : s.rest.length < k := Nat.lt_of_le_of_lt hs hk
  clear hk
  induction k generalizing s with
  | zero => exact absurd hlen (Nat.not_lt_zero _)
  | succ k ih =>
      rcases s with ⟨ts, e⟩
      cases ts with
      | nil => exact h _ hs
      | cons t ts =>
          rw [unary_cons]
          unfold parseUnary
          by_cases hop : t.kind = .punct ∧ t.punct ∈ unaryOps
          · have hshorter : ts.length ≤ b := Nat.le_of_succ_le hs
            have hbound : ts.length < k := Nat.lt_of_succ_lt_succ hlen
            rcases ih ⟨ts, e⟩ hshorter hbound with ⟨tree, rest, hparse, hrest, hgives⟩
            have hparse : parseUnary g k ts = some (tree, rest) := hparse
            refine ⟨.unary t.punct tree, rest, ?_, Nat.le_succ_of_le hrest, ?_⟩
            · simp only [hparse, if_pos hop, Option.map_some]
            · rw [if_pos hop]
              exact hgives.map _
          · simp only [if_neg hop]
            exact h _ hs

/-- The loop, with the tree of what it has read so far. -/
theorem readsTree_loop {b : Nat} {f : CondState → Run (I64 × CondState)}
    {g : List Token → Option (CondTree × List Token)} (h : ReadsTree E sub b f g) (ps : List P)
    {k : Nat} (l : CondTree) {ts : List Token} (hts : ts.length ≤ b) (hk : ts.length < k) :
    ∃ tree rest, parseLoop ps g k l ts = some (tree, rest) ∧ rest.length ≤ ts.length ∧
      ∀ x, Gives x (l.eval E (values sub)) ts →
        Gives (x.bind fun r => tierLoop E ps f k r.1 r.2) (tree.eval E (values sub)) rest := by
  induction k generalizing l ts with
  | zero => exact absurd hk (Nat.not_lt_zero _)
  | succ k ih =>
      -- the loop ends where it is
      have hstop : (∀ v e, tierLoop E ps f (k + 1) v { rest := ts, err := e } =
          .done (v, { rest := ts, err := e })) → ∀ x, Gives x (l.eval E (values sub)) ts →
          Gives (x.bind fun r => tierLoop E ps f (k + 1) r.1 r.2) (l.eval E (values sub)) ts := by
        intro hloop x hx
        rcases hx with ⟨e, rfl⟩
        refine ⟨e, ?_⟩
        cases l.eval E (values sub) with
        | more => rfl
        | trap => rfl
        | done v => exact hloop v e
      cases ts with
      | nil => exact ⟨l, [], rfl, Nat.le_refl _, hstop fun _ _ => rfl⟩
      | cons t ts =>
          unfold parseLoop
          by_cases hop : t.kind = .punct ∧ t.punct ∈ ps
          · have hshorter : ts.length ≤ b := Nat.le_of_succ_le hts
            rcases h ⟨ts, false⟩ hshorter with ⟨r, mid, hr, hmid, -⟩
            have hr : g ts = some (r, mid) := hr
            have hmid : mid.length ≤ ts.length := hmid
            have hbound : mid.length < k := by
              have hk : ts.length + 1 < k + 1 := hk
              omega
            rcases ih (.bin t.punct l r) (Nat.le_trans hmid hshorter) hbound with
              ⟨tree, rest, hparse, hrest, hgives⟩
            refine ⟨tree, rest, ?_, Nat.le_succ_of_le (Nat.le_trans hrest hmid), ?_⟩
            · simp only [if_pos hop, hr, Option.bind_some, hparse]
            · intro x hx
              -- the operand and the operator, before the rest of the loop
              have hnode : Gives (x.bind fun r => (f { r.2 with rest := ts }).bind fun q =>
                  CondEval.apply E t.punct r.1 q) ((CondTree.bin t.punct l r).eval E (values sub)) mid := by
                refine hx.bind ?_
                intro v e
                rcases h ⟨ts, e⟩ hshorter with ⟨r', mid', hr', -, hgives'⟩
                have hsame : some (r, mid) = some (r', mid') := hr.symm.trans hr'
                rw [Option.some.injEq, Prod.mk.injEq] at hsame
                rw [← hsame.1, ← hsame.2] at hgives'
                exact hgives'.bind fun w e => apply_gives t.punct v w mid e
              have hall := hgives _ hnode
              rw [Run.bind_assoc] at hall
              rcases hx with ⟨e, rfl⟩
              cases hl : l.eval E (values sub) with
              | more => rw [hl] at hall; exact hall
              | trap => rw [hl] at hall; exact hall
              | done v =>
                  rw [hl] at hall
                  simp only [Run.map_done, Run.done_bind] at hall ⊢
                  unfold tierLoop
                  simp only [if_pos hop]
                  rw [Run.bind_assoc] at hall
                  exact hall
          · refine ⟨l, t :: ts, ?_, Nat.le_refl _, hstop ?_⟩
            · simp only [if_neg hop]
            · intro v e
              unfold tierLoop
              simp only [if_neg hop]

theorem readsTree_tier {b : Nat} {f : CondState → Run (I64 × CondState)}
    {g : List Token → Option (CondTree × List Token)} (h : ReadsTree E sub b f g) (ps : List P)
    {k : Nat} (hk : b < k) : ReadsTree E sub b (tier E ps f k) (parseTier ps g k) := by
  intro s hs
  rcases h s hs with ⟨l, mid, hl, hmid, hgives⟩
  have hmid' := Nat.le_trans hmid hs
  rcases readsTree_loop h ps l hmid' (Nat.lt_of_le_of_lt hmid' hk) with
    ⟨tree, rest, hparse, hrest, hloop⟩
  refine ⟨tree, rest, ?_, Nat.le_trans hrest hmid, hloop _ hgives⟩
  unfold parseTier
  rw [hl, Option.bind_some, hparse]

theorem readsTree_tiers {b : Nat} {f : CondState → Run (I64 × CondState)}
    {g : List Token → Option (CondTree × List Token)} (h : ReadsTree E sub b f g) {k : Nat}
    (hk : b < k) (pss : List (List P)) :
    ReadsTree E sub b (pss.foldl (fun operand ps => tier E ps operand k) f)
      (pss.foldl (fun operand ps => parseTier ps operand k) g) := by
  induction pss generalizing f g with
  | nil => exact h
  | cons ps pss ih => exact ih (readsTree_tier h ps hk)

/-- The eleven tiers, one on top of the other. -/
theorem tierLOr_eq (paren : CondState → Run (I64 × CondState)) (k : Nat) :
    tierLOr E sub paren k = tiers.foldl (fun operand ps => tier E ps operand k)
      (CondEval.unary (primary E sub paren) k) := rfl

theorem expect_rest (p : P) (ts : List Token) (e : Bool) : ∃ e',
    CondState.expect p { rest := ts, err := e } =
      { rest := (CondState.expect p { rest := ts }).rest, err := e' } := by
  unfold CondState.expect
  cases ts with
  | nil => exact ⟨true, rfl⟩
  | cons t ts =>
      rw [eatP_cons, eatP_cons]
      split_ifs
      · exact ⟨e, rfl⟩
      · exact ⟨true, rfl⟩

theorem expect_length (p : P) (ts : List Token) :
    (CondState.expect p { rest := ts }).rest.length ≤ ts.length := by
  unfold CondState.expect
  cases ts with
  | nil => exact Nat.le_refl _
  | cons t ts =>
      rw [eatP_cons]
      split_ifs
      · exact Nat.le_succ _
      · exact Nat.le_refl _

theorem definedName_rest (paren : Bool) (ts : List Token) (e : Bool) : ∃ e',
    definedName E paren { rest := ts, err := e } =
      ((definedName E paren { rest := ts }).1,
        { rest := (definedName E paren { rest := ts }).2.rest, err := e' }) := by
  unfold definedName
  cases ts with
  | nil => exact ⟨true, rfl⟩
  | cons t ts =>
      by_cases hkind : t.kind = .ident
      · simp only [if_pos hkind]
        cases paren with
        | false => exact ⟨e, rfl⟩
        | true =>
            rcases expect_rest .rParen ts e with ⟨e', h⟩
            exact ⟨e', by rw [if_pos rfl, if_pos rfl, h]⟩
      · simp only [if_neg hkind]
        exact ⟨true, rfl⟩

theorem definedName_length (paren : Bool) (ts : List Token) :
    (definedName E paren { rest := ts }).2.rest.length ≤ ts.length := by
  unfold definedName
  cases ts with
  | nil => exact Nat.le_refl _
  | cons t ts =>
      by_cases hkind : t.kind = .ident
      · simp only [if_pos hkind]
        cases paren with
        | false => exact Nat.le_succ _
        | true => exact Nat.le_succ_of_le (expect_length .rParen ts)
      · simp only [if_neg hkind]
        exact Nat.le_refl _

/-- What `defined` reads does not depend on `err`. -/
theorem definedOp_rest (ts : List Token) (e : Bool) : ∃ e',
    definedOp E { rest := ts, err := e } = ((definedOp E { rest := ts }).1,
      { rest := (definedOp E { rest := ts }).2.rest, err := e' }) := by
  unfold definedOp
  cases ts with
  | nil => exact definedName_rest false [] e
  | cons t ts =>
      simp only [eatP_cons]
      split_ifs
      · exact definedName_rest true ts e
      · exact definedName_rest false (t :: ts) e

theorem definedOp_length (ts : List Token) :
    (definedOp E { rest := ts }).2.rest.length ≤ ts.length := by
  unfold definedOp
  cases ts with
  | nil => exact definedName_length false []
  | cons t ts =>
      rw [eatP_cons]
      split_ifs
      · exact Nat.le_succ_of_le (definedName_length true ts)
      · exact definedName_length false (t :: ts)

theorem readsTree_primary {b : Nat} {f : CondState → Run (I64 × CondState)}
    {g : List Token → Option (CondTree × List Token)} (h : ReadsTree E sub b f g) :
    ReadsTree E sub (b + 1) (primary E sub f) (parsePrimary E g) := by
  intro s hs
  rcases s with ⟨ts, e⟩
  cases ts with
  | nil => exact ⟨.val 0, [], rfl, Nat.le_refl _, true, rfl⟩
  | cons t ts =>
      have hts : ts.length ≤ b := Nat.le_of_succ_le_succ hs
      unfold primary parsePrimary
      simp only
      split_ifs with hint hfloat hdefined hident hparen
      · exact ⟨_, ts, rfl, Nat.le_succ _, e, rfl⟩
      · exact ⟨_, ts, rfl, Nat.le_succ _, e, rfl⟩
      · rcases definedOp_rest (E := E) ts e with ⟨e', h⟩
        exact ⟨_, _, rfl, Nat.le_succ_of_le (definedOp_length ts), e', by rw [h]; rfl⟩
      · have hbody : ∀ body, Gives ((sub body).map fun r => (r.1, ({ rest := ts, err := e } : CondState)))
            ((CondTree.body body).eval E (values sub)) ts := by
          intro body
          refine ⟨e, ?_⟩
          unfold CondTree.eval values
          cases sub body <;> rfl
        rcases hfind : E.macros.find t.text with _ | body
        · exact ⟨_, ts, rfl, Nat.le_succ _, e, rfl⟩
        · rcases body with _ | ⟨b₁, _ | ⟨b₂, bs⟩⟩
          · exact ⟨_, ts, rfl, Nat.le_succ _, e, rfl⟩
          · by_cases hlit : tokIsInt b₁ = true
            · simp only [if_pos hlit]
              exact ⟨_, ts, rfl, Nat.le_succ _, e, rfl⟩
            · simp only [if_neg hlit]
              exact ⟨_, ts, rfl, Nat.le_succ _, hbody _⟩
          · exact ⟨_, ts, rfl, Nat.le_succ _, hbody _⟩
      · rcases h ⟨ts, e⟩ hts with ⟨tree, mid, hparse, hmid, e', hgives⟩
        have hparse : g ts = some (tree, mid) := hparse
        rcases expect_rest .rParen mid e' with ⟨e'', hexpect⟩
        refine ⟨tree, _, ?_, Nat.le_succ_of_le (Nat.le_trans (expect_length .rParen mid) hmid),
          e'', ?_⟩
        · rw [hparse]
          rfl
        · simp only [eatP_cons, if_pos hparen]
          rw [hgives]
          cases tree.eval E (values sub) with
          | more => rfl
          | trap => rfl
          | done v => simp only [Run.map_done, hexpect]
      · refine ⟨.val 0, t :: ts, rfl, Nat.le_refl _, true, ?_⟩
        simp only [eatP_cons, if_neg hparen]
        rfl

theorem readsTree_expr (k : Nat) :
    ReadsTree E sub k (CondEval.expr E sub (k + 1)) (CondTree.parse E (k + 1)) := by
  induction k with
  | zero =>
      have hnone : ReadsTree E sub 0 (primary E sub (CondEval.expr E sub 0))
          (parsePrimary E (CondTree.parse E 0)) := by
        rintro ⟨ts, e⟩ hs
        have hts : ts = [] := List.eq_nil_of_length_eq_zero (Nat.le_zero.mp hs)
        subst hts
        exact ⟨.val 0, [], rfl, Nat.le_refl _, true, rfl⟩
      exact readsTree_tiers (readsTree_unary hnone (Nat.lt_succ_self _)) (Nat.lt_succ_self _) tiers
  | succ k ih =>
      have hprimary := readsTree_primary ih
      exact readsTree_tiers (readsTree_unary hprimary (Nat.lt_succ_self _)) (Nat.lt_succ_self _)
        tiers

end Agree

/-- The value of a condition, with macros in macros up to a depth. -/
def condValue (E : CondEnv) (n : Nat) : List Token → Run I64 := values (condEval E n)

/-- The value of a condition is the value of its tree. -/
theorem condValue_succ (E : CondEnv) (n : Nat) (ts : List Token) :
    condValue E (n + 1) ts = (condTree E ts).eval E (condValue E n) := by
  have hread : ReadsTree E (condEval E n) ts.length
      (CondEval.expr E (condEval E n) (ts.length + 1)) (CondTree.parse E (ts.length + 1)) :=
    readsTree_expr ts.length
  rcases hread { rest := ts } (Nat.le_refl _) with ⟨tree, rest, hparse, -, e, hgives⟩
  have hparse : CondTree.parse E (ts.length + 1) ts = some (tree, rest) := hparse
  have htree : condTree E ts = tree := by
    unfold condTree
    rw [hparse]
    rfl
  have hvalue : condValue E (n + 1) ts =
      (CondEval.expr E (condEval E n) (ts.length + 1) { rest := ts }).map Prod.fst := rfl
  rw [hvalue, hgives, htree]
  show ((tree.eval E (values (condEval E n))).map _).map _ = tree.eval E (values (condEval E n))
  cases tree.eval E (values (condEval E n)) <;> rfl

/-- `evalCondExpr` returns where its condition has a value. -/
theorem evalCondExpr_done (E : CondEnv) (n : Nat) (toks : List Token) (loc : SrcLoc)
    (htoks : toks ≠ []) :
    (∃ r, evalCondExpr E n toks loc = .done r) ↔ ∃ v, condValue E n toks = .done v := by
  unfold evalCondExpr condValue values
  rw [if_neg htoks]
  cases condEval E n toks with
  | more => simp [Run.map]
  | trap => simp [Run.map]
  | done r => simp

end Hlang.Lexer
