import Hlang.Parser.Grammar

/-!
# Hlang.Parser.Reread — what is spelled is parsed

Where tokens are an expression of the grammar and what follows does not go on with it, `parseExpr`
reads just these tokens and gives the expression, whatever the parser has read before. The loops of
the tiers, with their left operand read, are what the induction on the grammar goes through.
-/

namespace Hlang.Parser

open Lexer (eofToken)

/-! ## One step of each recursion -/

alias binaryRest_succ := binaryRest.eq_2

alias relRest_succ := relRest.eq_2

alias callArgsRest_succ := callArgsRest.eq_2

alias postfixRest_succ := postfixRest.eq_2

alias initListRest_succ := initListRest.eq_2

alias adjacent_succ := adjacent.eq_2

theorem parseAssign_zero (E : ParseEnv) : parseAssign E 0 = stuck := rfl

theorem parseAssign_succ (E : ParseEnv) (n : Nat) :
    parseAssign E (n + 1) = assignStep (parseAssign E n) (parseLor n (parseUnary E n)) := rfl

theorem parseUnary_zero (E : ParseEnv) : parseUnary E 0 = stuck := rfl

theorem parseUnary_succ (E : ParseEnv) (n : Nat) :
    parseUnary E (n + 1) = unaryStep (parseUnary E n) (postfixStep E (parseAssign E n) n) := rfl

/-! ## Tiers -/

/-- The tiers from `parseUnary` to `parseLor`. -/
def tier (n : Nat) (unary : Parse Expr) : Nat → Parse Expr
  | 2 => parsePow n unary
  | 3 => parseMul n unary
  | 4 => parseBand n unary
  | 5 => parseBxor n unary
  | 6 => parseBor n unary
  | 7 => parseAdd n unary
  | 8 => parseRel n unary
  | 9 => parseEq n unary
  | 10 => parseLand n unary
  | 11 => parseLxor n unary
  | 12 => parseLor n unary
  | _ => unary

/-- The parser of a tier. -/
def parseTier (E : ParseEnv) (n : Nat) : Nat → Parse Expr
  | 0 => postfixStep E (parseAssign E n) n
  | 13 => parseAssign E n
  | k => tier n (parseUnary E n) k

theorem parseTier_loop (E : ParseEnv) (n : Nat) {k : Nat} (hk : LoopTier (k + 1)) :
    parseTier E n (k + 1) = binaryLoop n (parseTier E n k) (tierOps (k + 1)) := by
  rcases hk with ⟨h2, h12, h8⟩
  have hk : k < 12 := by omega
  interval_cases k <;> first | rfl | omega

/-! ## What may follow -/

/-- The tokens do not go on with an expression of a tier below `k`. -/
def Before (k : Nat) (ts : List Token) : Prop :=
  (ts.headD eofToken).kind ≠ .strLit ∧ ∀ j, j < k → nextIn (tierOps j) ts = false

theorem Before.mono {j k : Nat} {ts : List Token} (h : Before k ts) (hj : j ≤ k) : Before j ts :=
  ⟨h.1, fun i hi => h.2 i (Nat.lt_of_lt_of_le hi hj)⟩

/-- No operator is one of two tiers. -/
theorem tierOps_disjoint : ∀ k : Fin 14, ∀ j : Fin 14, j < k → ∀ p ∈ tierOps k, p ∉ tierOps j := by
  decide

theorem before_op {k : Nat} {op : Token} (hk : k < 14) (hop : op.kind = .punct ∧ op.punct ∈ tierOps k)
    (ts : List Token) : Before k (op :: ts) := by
  constructor
  · change op.kind ≠ .strLit
    rw [hop.1]
    decide
  · intro j hj
    have hno := tierOps_disjoint ⟨k, hk⟩ ⟨j, by omega⟩ hj _ hop.2
    change (decide (op.kind = .punct) && decide (op.punct ∈ tierOps j)) = false
    rw [decide_eq_false hno, Bool.and_false]

/-- What ends an expression. -/
def closers : List P := [.rParen, .rBracket, .rBrace, .comma, .semi]

theorem closers_disjoint : ∀ j : Fin 14, ∀ p ∈ closers, p ∉ tierOps j := by decide

theorem is_iff {t : Token} {p : P} : t.is p = true ↔ t.kind = .punct ∧ t.punct = p := by
  unfold Token.is
  rw [Bool.and_eq_true, decide_eq_true_eq, decide_eq_true_eq]

theorem before_closer {c : Token} {p : P} (hc : c.is p = true) (hp : p ∈ closers)
    (ts : List Token) : Before 14 (c :: ts) := by
  rcases is_iff.mp hc with ⟨hkind, hpunct⟩
  constructor
  · change c.kind ≠ .strLit
    rw [hkind]
    decide
  · intro j hj
    have hno := closers_disjoint ⟨j, hj⟩ _ hp
    change (decide (c.kind = .punct) && decide (c.punct ∈ tierOps j)) = false
    rw [hpunct, decide_eq_false hno, Bool.and_false]

/-- What an expression of tier `k` begins with. -/
def Starts (k : Nat) (ts : List Token) : Prop :=
  ∃ t us, ts = t :: us ∧ t.kind ≠ .eof ∧
    (t.kind = .punct → t.punct ∈ .lParen :: .lBrace :: unaryOps) ∧
    (k = 0 → ¬ (t.kind = .punct ∧ t.punct ∈ unaryOps))

theorem Starts.mono {j k : Nat} {ts : List Token} (h : Starts j ts) (hk : k ≠ 0) : Starts k ts := by
  rcases h with ⟨t, us, rfl, heof, hpunct, -⟩
  exact ⟨t, us, rfl, heof, hpunct, fun h => absurd h hk⟩

theorem Starts.append {k : Nat} {ts : List Token} (h : Starts k ts) (us : List Token) :
    Starts k (ts ++ us) := by
  rcases h with ⟨t, ts, rfl, hstart⟩
  exact ⟨t, ts ++ us, rfl, hstart⟩

/-- An expression begins with no token that ends one. -/
theorem Starts.is_false {k : Nat} {ts us : List Token} (h : Starts k ts) {p : P}
    (hp : p ∉ .lParen :: .lBrace :: unaryOps) : ((ts ++ us).headD eofToken).is p = false := by
  rcases h with ⟨t, ts, rfl, -, hpunct, -⟩
  change t.is p = false
  by_contra h
  rcases is_iff.mp (Bool.eq_true_of_not_eq_false h) with ⟨hkind, rfl⟩
  exact hp (hpunct hkind)

/-! ## Reading -/

/-- The first operand of the loop of a tier. -/
def tierBase (E : ParseEnv) (n : Nat) : Nat → Parse Expr
  | 0 => primaryStep E (parseAssign E n) n
  | k + 1 => parseTier E n k

/-- The loop of a tier, with its left operand. -/
def tierLoop (E : ParseEnv) (n m : Nat) : Nat → Expr → Parse Expr
  | 0 => postfixRest E (parseAssign E n) m
  | k + 1 => binaryRest (parseTier E n k) (tierOps (k + 1)) m

section Reading

variable {E : ParseEnv} {k : Nat} {e : Expr} {ts : List Token}

/-- `p` reads the tokens `ts`, and gives `e` but for its nodes. -/
def Takes (k : Nat) (p : Nat → Parse Expr) (ts : List Token) (e : Expr) : Prop :=
  ∃ N, ∀ n, N ≤ n → ∀ rest errs a, Before k rest → ∃ e' a', e'.bare = e.bare ∧
    p n ⟨ts ++ rest, errs, a⟩ = some (e', ⟨rest, errs, a'⟩)

/-- The loop of the tier `k`, with what it begins with, reads the tokens `ts` and goes on with `e`
as its left operand. -/
def Enters (E : ParseEnv) (k : Nat) (e : Expr) (ts : List Token) : Prop :=
  ∃ N c, ∀ n m, N ≤ n → N ≤ m → ∀ rest errs a, Before k rest → ∃ e' a', e'.bare = e.bare ∧
    (tierBase E n k >>= tierLoop E n (m + c) k) ⟨ts ++ rest, errs, a⟩ =
      tierLoop E n m k e' ⟨rest, errs, a'⟩

/-- The tokens are read as the expression. -/
structure ReadsAs (E : ParseEnv) (k : Nat) (e : Expr) (ts : List Token) : Prop where
  starts : Starts k ts
  takes : Takes (k + 1) (fun n => parseTier E n k) ts e
  enters : k = 0 ∨ LoopTier k → Enters E k e ts

theorem tierLoop_stop {n m : Nat} {s : PState} (hk : k = 0 ∨ LoopTier k)
    (hstop : nextIn (tierOps k) s.toks = false) (e : Expr) :
    tierLoop E n (m + 1) k e s = some (e, s) := by
  cases k with
  | zero => exact postfixRest_stop E _ hstop m e
  | succ k =>
      change binaryRest _ _ (m + 1) e s = _
      rw [binaryRest_succ]
      rw [parse_bind_some (tok_zero s)]
      exact if_neg (not_punct_of_nextIn hstop) ▸ rfl

/-- The parser of a tier that is a loop. -/
theorem parseTier_eq (n : Nat) (hk : k = 0 ∨ LoopTier k) :
    parseTier E n k = tierBase E n k >>= tierLoop E n n k := by
  cases k with
  | zero => rfl
  | succ k => exact parseTier_loop E n (hk.resolve_left (Nat.succ_ne_zero k))

/-- A loop that reads what it begins with ends where it does not go on. -/
theorem ReadsAs.of_enters (hk : k = 0 ∨ LoopTier k) (hs : Starts k ts) (h : Enters E k e ts) :
    ReadsAs E k e ts := by
  constructor
  case starts => exact hs
  case enters => exact fun _ => h
  case takes =>
    rcases h with ⟨N, c, h⟩
    refine ⟨N + 1 + c, ?_⟩
    intro n hn rest errs a hrest
    have hm : n = n - c - 1 + 1 + c := by omega
    rcases h n (n - c - 1 + 1) (by omega) (by omega) rest errs a (hrest.mono (Nat.le_succ k)) with
      ⟨e', a', hbare, hrun⟩
    refine ⟨e', a', hbare, ?_⟩
    change parseTier E n k _ = _
    rw [← hm] at hrun
    rw [parseTier_eq n hk, hrun]
    exact tierLoop_stop hk (hrest.2 k (Nat.lt_succ_self k)) e'

/-- A primary expression. -/
theorem ReadsAs.primary (hs : Starts 0 ts)
    (h : Takes 0 (fun n => primaryStep E (parseAssign E n) n) ts e) : ReadsAs E 0 e ts := by
  refine .of_enters (.inl rfl) hs ?_
  rcases h with ⟨N, h⟩
  refine ⟨N, 0, ?_⟩
  intro n m hn _ rest errs a hrest
  rcases h n hn rest errs a hrest with ⟨e', a', hbare, hrun⟩
  exact ⟨e', a', hbare, parse_bind_some hrun⟩

/-- A token that is a primary expression. -/
theorem ReadsAs.token {t : Token} (hkind : t.kind ≠ .punct) (heof : t.kind ≠ .eof)
    (h : ∀ n rest errs a, ∃ e' a', e'.bare = e.bare ∧
      primaryStep E (parseAssign E n) n ⟨t :: rest, errs, a⟩ = some (e', ⟨rest, errs, a'⟩)) :
    ReadsAs E 0 e [t] :=
  .primary ⟨t, [], rfl, heof, fun hp => absurd hp hkind, fun _ hp => hkind hp.1⟩
    ⟨0, fun n _ rest errs a _ => h n rest errs a⟩


/-! ### Primary expressions -/

theorem tok_cons (t : Token) (us : List Token) (errs : List (SrcLoc × String)) (a : Nat) :
    tok 0 ⟨t :: us, errs, a⟩ = some (t, ⟨t :: us, errs, a⟩) := rfl

theorem reads_intLit {t : Token} (n : Node) (h : t.kind = .intLit) :
    ReadsAs E 0 (.intLit n t.ival) [t] := by
  refine .token (by rw [h]; decide) (by rw [h]; decide) ?_
  intro n rest errs a
  refine ⟨.intLit ⟨t.loc, a⟩ t.ival, a + 1, rfl, ?_⟩
  unfold primaryStep
  rw [parse_bind_some (tok_cons ..)]
  simp only [h]
  rfl

theorem reads_floatLit {t : Token} (n : Node) (h : t.kind = .floatLit) :
    ReadsAs E 0 (.floatLit n t.fval) [t] := by
  refine .token (by rw [h]; decide) (by rw [h]; decide) ?_
  intro n rest errs a
  refine ⟨.floatLit ⟨t.loc, a⟩ t.fval, a + 1, rfl, ?_⟩
  unfold primaryStep
  rw [parse_bind_some (tok_cons ..)]
  simp only [h]
  rfl

theorem reads_charLit {t : Token} (n : Node) (h : t.kind = .charLit) :
    ReadsAs E 0 (.charLit n t.ival) [t] := by
  refine .token (by rw [h]; decide) (by rw [h]; decide) ?_
  intro n rest errs a
  refine ⟨.charLit ⟨t.loc, a⟩ t.ival, a + 1, rfl, ?_⟩
  unfold primaryStep
  rw [parse_bind_some (tok_cons ..)]
  simp only [h]
  rfl

theorem reads_ident {t : Token} (n : Node) (h : t.kind = .ident) (hkey : t.text ∉ keywords) :
    ReadsAs E 0 (.ident n t.text) [t] := by
  have hne : ∀ s ∈ keywords, t.text ≠ s := fun s hs heq => hkey (heq ▸ hs)
  refine .token (by rw [h]; decide) (by rw [h]; decide) ?_
  intro n rest errs a
  refine ⟨.ident ⟨t.loc, a⟩ t.text, a + 1, rfl, ?_⟩
  unfold primaryStep
  rw [parse_bind_some (tok_cons ..)]
  simp only [h]
  rw [if_neg (hne "sizeof" (by decide)), if_neg (hne "offset" (by decide)),
    if_neg (hne "lastclass" (by decide))]
  rfl

theorem isIdent_iff {t : Token} {s : String} :
    t.isIdent s = true ↔ t.kind = .ident ∧ t.text = s := by
  unfold Token.isIdent
  rw [Bool.and_eq_true, decide_eq_true_eq, decide_eq_true_eq]

theorem reads_lastClass {t : Token} (n : Node) (h : t.isIdent "lastclass" = true) :
    ReadsAs E 0 (.lastClass n) [t] := by
  rcases isIdent_iff.mp h with ⟨hkind, htext⟩
  refine .token (by rw [hkind]; decide) (by rw [hkind]; decide) ?_
  intro n rest errs a
  refine ⟨.lastClass ⟨t.loc, a⟩, a + 1, rfl, ?_⟩
  unfold primaryStep
  rw [parse_bind_some (tok_cons ..)]
  simp only [hkind, htext, String.reduceEq, if_false, if_true]
  rfl

/-- Adjacent literals are read up to a token that is none. -/
theorem adjacent_all (errs : List (SrcLoc × String)) (a : Nat) (rest : List Token)
    (hrest : (rest.headD eofToken).kind ≠ .strLit) : ∀ {ts : List Token} (n : Nat) (s : String),
    (∀ u ∈ ts, u.kind = .strLit) → ts.length < n →
      adjacent n s ⟨ts ++ rest, errs, a⟩ =
        some (ts.foldl (fun s u => s ++ u.text) s, ⟨rest, errs, a⟩) := by
  intro ts
  induction ts with
  | nil =>
      intro n s _ hn
      rcases Nat.exists_eq_succ_of_ne_zero (Nat.ne_of_gt hn) with ⟨n, rfl⟩
      rw [adjacent_succ]
      rw [parse_bind_some (tok_zero _)]
      exact if_neg hrest ▸ rfl
  | cons t ts ih =>
      intro n s hts hn
      rw [List.length_cons] at hn
      rcases Nat.exists_eq_succ_of_ne_zero (Nat.ne_of_gt (Nat.lt_of_le_of_lt (Nat.zero_le _) hn))
        with ⟨n, rfl⟩
      have hkind : t.kind = .strLit := hts t List.mem_cons_self
      rw [adjacent_succ]
      rw [parse_bind_some (tok_zero _)]
      simp only [PState.head, List.cons_append, List.headD_cons, hkind, if_true]
      exact ih n (s ++ t.text) (fun u hu => hts u (List.mem_cons_of_mem _ hu))
        (Nat.lt_of_succ_lt_succ hn)

theorem reads_strLit {t : Token} (n : Node) (h : ∀ u ∈ t :: ts, u.kind = .strLit) :
    ReadsAs E 0 (.strLit n (ts.foldl (fun s u => s ++ u.text) t.text)) (t :: ts) := by
  have hkind : t.kind = .strLit := h t List.mem_cons_self
  have hpunct : t.kind ≠ .punct := by rw [hkind]; decide
  refine .primary ⟨t, ts, rfl, by rw [hkind]; decide, fun hp => absurd hp hpunct,
    fun _ hp => hpunct hp.1⟩ ⟨ts.length + 1, ?_⟩
  intro n hn rest errs a hrest
  have hadj := adjacent_all errs (a + 1) rest hrest.1 n t.text
    (fun u hu => h u (List.mem_cons_of_mem _ hu)) hn
  refine ⟨.strLit ⟨t.loc, a⟩ (ts.foldl (fun s u => s ++ u.text) t.text), a + 1, rfl, ?_⟩
  change primaryStep E (parseAssign E n) n ⟨t :: (ts ++ rest), errs, a⟩ = _
  unfold primaryStep
  rw [parse_bind_some (tok_cons ..)]
  simp only [hkind]
  change (adjacent n t.text >>= fun s => pure (Expr.strLit ⟨t.loc, a⟩ s) : Parse Expr)
    ⟨ts ++ rest, errs, a + 1⟩ = _
  rw [parse_bind_some hadj]
  rfl

theorem expect_cons {t : Token} {p : P} (h : t.is p = true) (what : String) (us : List Token)
    (errs : List (SrcLoc × String)) (a : Nat) :
    expect E p what ⟨t :: us, errs, a⟩ = some ((), ⟨us, errs, a⟩) := by
  have haccept : accept p ⟨t :: us, errs, a⟩ = some (true, ⟨us, errs, a⟩) := accept_true h
  unfold expect
  rw [parse_bind_some haccept]
  rfl

/-- An expression between brackets. -/
theorem ReadsAs.between (h : ReadsAs E 13 e ts) {r : Token} {p : P} (hr : r.is p = true)
    (hp : p ∈ closers) (what : String) : ∃ N, ∀ n, N ≤ n → ∀ rest errs a, ∃ e' a',
      e'.bare = e.bare ∧ parseAssign E n ⟨(ts ++ [r]) ++ rest, errs, a⟩ =
        some (e', ⟨r :: rest, errs, a'⟩) ∧
      expect E p what ⟨r :: rest, errs, a'⟩ = some ((), ⟨rest, errs, a'⟩) := by
  rcases h.takes with ⟨N, h⟩
  refine ⟨N, ?_⟩
  intro n hn rest errs a
  rcases h n hn (r :: rest) errs a (before_closer hr hp rest) with ⟨e', a', hbare, hrun⟩
  refine ⟨e', a', hbare, ?_, expect_cons hr what rest errs a'⟩
  rw [List.append_assoc]
  exact hrun

theorem reads_paren {l r : Token} (hl : l.is .lParen = true) (hr : r.is .rParen = true)
    (h : ReadsAs E 13 e ts) : ReadsAs E 0 e (l :: (ts ++ [r])) := by
  rcases is_iff.mp hl with ⟨hkind, hpunct⟩
  have hstarts : Starts 0 (l :: (ts ++ [r])) := by
    refine ⟨l, _, rfl, by rw [hkind]; decide, ?_, ?_⟩
    · intro _
      rw [hpunct]
      exact List.mem_cons_self
    · intro _ hop
      rw [hpunct] at hop
      exact absurd hop.2 (by decide)
  rcases h.between hr (by decide) "after parenthesized expression" with ⟨N, h⟩
  refine .primary hstarts ⟨N, ?_⟩
  intro n hn rest errs a _
  rcases h n hn rest errs a with ⟨e', a', hbare, hrun, hexpect⟩
  refine ⟨e', a', hbare, ?_⟩
  change primaryStep E (parseAssign E n) n ⟨l :: ((ts ++ [r]) ++ rest), errs, a⟩ = _
  unfold primaryStep
  rw [parse_bind_some (tok_cons ..)]
  simp only [hkind, hpunct, if_true]
  change (parseAssign E n >>= fun e => expect E .rParen "after parenthesized expression" >>=
    fun _ => pure e : Parse Expr) ⟨(ts ++ [r]) ++ rest, errs, a⟩ = _
  rw [parse_bind_some hrun, parse_bind_some hexpect]
  rfl

/-! ### `sizeof` and `offset` -/

theorem findMember_mono {H : Heap} {s : String} {m : Option ClassMember} : ∀ {n n' : Nat}
    {c : ClassId}, n ≤ n' → findMember H n c s = some m → findMember H n' c s = some m := by
  intro n
  induction n with
  | zero => exact fun _ h => by cases h
  | succ n ih =>
      intro n' c hn h
      rcases Nat.exists_eq_succ_of_ne_zero (Nat.ne_of_gt (Nat.lt_of_lt_of_le n.succ_pos hn)) with
        ⟨n', rfl⟩
      unfold findMember at h ⊢
      split at h
      · exact h
      · split at h
        · exact ih (Nat.le_of_succ_le_succ hn) h
        · exact h

theorem starCount_stars {ss : List Token} (hss : ∀ u ∈ ss, u.is .star = true) {rest : List Token}
    (hrest : (rest.headD eofToken).is .star = false) : starCount (ss ++ rest) = ss.length := by
  have hnone : rest.takeWhile (·.is .star) = [] := by
    cases rest with
    | nil => rfl
    | cons r rest =>
        have hr : r.is .star = false := hrest
        rw [List.takeWhile_cons, hr]
        rfl
  unfold starCount
  rw [List.takeWhile_append_of_pos hss, hnone, List.append_nil]

theorem is_other {t : Token} {p q : P} (h : t.is p = true) (hpq : p ≠ q) : t.is q = false := by
  rcases is_iff.mp h with ⟨-, rfl⟩
  unfold Token.is
  rw [decide_eq_false hpq, Bool.and_false]

theorem parseBaseType_stars {t r : Token} {ss : List Token} {ty : Ty}
    (hty : E.prog.baseTypeFor t.text = some ty) (hss : ∀ u ∈ ss, u.is .star = true)
    (hr : r.is .rParen = true) (rest : List Token) (errs : List (SrcLoc × String)) (a : Nat) :
    parseBaseType E ⟨t :: (ss ++ r :: rest), errs, a⟩ =
      some (stars ss.length ty, ⟨r :: rest, errs, a⟩) := by
  have hcount : starCount (ss ++ r :: rest) = ss.length :=
    starCount_stars hss (is_other hr (by decide))
  have htake : take ⟨t :: (ss ++ r :: rest), errs, a⟩ = some (t, ⟨ss ++ r :: rest, errs, a⟩) := rfl
  unfold parseBaseType
  rw [parse_bind_some htake]
  simp only [hty]
  change some (stars (starCount (ss ++ r :: rest)) ty,
    (⟨(ss ++ r :: rest).drop (starCount (ss ++ r :: rest)), errs, a⟩ : PState)) = _
  rw [hcount, List.drop_left]

/-- A keyword is no operator. -/
theorem starts_keyword {kw : Token} {s : String} (hkw : kw.isIdent s = true) (us : List Token) :
    Starts 0 (kw :: us) := by
  have hkind : kw.kind = .ident := (isIdent_iff.mp hkw).1
  have hpunct : kw.kind ≠ .punct := by rw [hkind]; decide
  exact ⟨kw, us, rfl, by rw [hkind]; decide, fun h => absurd h hpunct, fun _ h => hpunct h.1⟩

/-- `sizeof`, from its operand on. -/
theorem reads_sizeof {kw l r : Token} (us : List Token) (hkw : kw.isIdent "sizeof" = true)
    (hl : l.is .lParen = true) (hr : r.is .rParen = true)
    (h : ∃ N, ∀ n, N ≤ n → ∀ rest errs a, ∃ e' a', e'.bare = e.bare ∧
      sizeofOperand E (parseAssign E n) n kw.loc ⟨us ++ r :: rest, errs, a⟩ =
        some (e', ⟨r :: rest, errs, a'⟩)) : ReadsAs E 0 e (kw :: l :: (us ++ [r])) := by
  rcases isIdent_iff.mp hkw with ⟨hkind, htext⟩
  rcases h with ⟨N, h⟩
  refine .primary (starts_keyword hkw _) ⟨N, ?_⟩
  intro n hn rest errs a _
  rcases h n hn rest errs a with ⟨e', a', hbare, hrun⟩
  refine ⟨e', a', hbare, ?_⟩
  have hlist : kw :: l :: (us ++ [r]) ++ rest = kw :: l :: (us ++ r :: rest) := by simp
  have htake : take ⟨kw :: l :: (us ++ r :: rest), errs, a⟩ =
    some (kw, ⟨l :: (us ++ r :: rest), errs, a⟩) := rfl
  rw [hlist]
  change primaryStep E (parseAssign E n) n _ = _
  unfold primaryStep
  rw [parse_bind_some (tok_cons ..)]
  simp only [hkind, htext, if_true]
  unfold parseSizeof
  rw [parse_bind_some htake, parse_bind_some (expect_cons hl ..), parse_bind_some hrun,
    parse_bind_some (expect_cons hr ..)]
  rfl

theorem reads_sizeofType {kw l t r : Token} {ss : List Token} {ty : Ty} (n : Node)
    (hkw : kw.isIdent "sizeof" = true) (hl : l.is .lParen = true)
    (ht : isTypeName E t = true ∨ (E.prog.classes t.text).isSome = true)
    (hty : E.prog.baseTypeFor t.text = some ty) (hss : ∀ u ∈ ss, u.is .star = true)
    (hr : r.is .rParen = true) :
    ReadsAs E 0 (.sizeofType n (stars ss.length ty)) (kw :: l :: t :: (ss ++ [r])) := by
  refine reads_sizeof (t :: ss) hkw hl hr ⟨0, ?_⟩
  intro n _ rest errs a
  refine ⟨.sizeofType ⟨kw.loc, a⟩ (stars ss.length ty), a + 1, rfl, ?_⟩
  have hbase := parseBaseType_stars hty hss hr rest errs (a + 1)
  -- the class is not followed by a dot
  have hdot : is .dot 1 ⟨t :: (ss ++ r :: rest), errs, a + 1⟩ =
      some (false, ⟨t :: (ss ++ r :: rest), errs, a + 1⟩) := by
    have hhead : ((ss ++ r :: rest).headD eofToken).is .dot = false := by
      cases ss with
      | nil => exact is_other hr (by decide)
      | cons u ss => exact is_other (hss u List.mem_cons_self) (by decide)
    change some (((ss ++ r :: rest).headD eofToken).is .dot, _) = _
    rw [hhead]
  change sizeofOperand E (parseAssign E n) n kw.loc ⟨t :: (ss ++ r :: rest), errs, a⟩ = _
  unfold sizeofOperand
  rw [parse_bind_some (tok_cons ..)]
  have hnode : mkE kw.loc ⟨t :: (ss ++ r :: rest), errs, a⟩ =
    some (⟨kw.loc, a⟩, ⟨t :: (ss ++ r :: rest), errs, a + 1⟩) := rfl
  cases hclass : (E.prog.classes t.text).isSome with
  | true =>
      rw [Bool.not_true, Bool.and_false, if_neg Bool.false_ne_true, if_pos rfl,
        parse_bind_some hnode, parse_bind_some hdot, if_neg Bool.false_ne_true,
        parse_bind_some hbase]
      rfl
  | false =>
      have ht : isTypeName E t = true := by
        rcases ht with ht | ht
        · exact ht
        · rw [hclass] at ht
          cases ht
      rw [ht, Bool.not_false, Bool.and_true, if_pos rfl, parse_bind_some hnode,
        parse_bind_some hbase]
      rfl

theorem reads_sizeofMember {kw l c d t r : Token} {i : ClassId} {fuel : Nat} {m : ClassMember}
    (n : Node) (hkw : kw.isIdent "sizeof" = true) (hl : l.is .lParen = true)
    (hc : E.prog.classes c.text = some i) (hd : d.is .dot = true) (ht : t.kind = .ident)
    (hm : findMember E.prog.heap fuel i t.text = some (some m)) (hr : r.is .rParen = true) :
    ReadsAs E 0 (.sizeofType n m.type) [kw, l, c, d, t, r] := by
  refine reads_sizeof [c, d, t] hkw hl hr ⟨fuel, ?_⟩
  intro n hn rest errs a
  refine ⟨.sizeofType ⟨kw.loc, a⟩ m.type, a + 1, rfl, ?_⟩
  have hdot : is .dot 1 ⟨c :: d :: t :: r :: rest, errs, a + 1⟩ =
      some (true, ⟨c :: d :: t :: r :: rest, errs, a + 1⟩) := by
    change some (d.is .dot, _) = _
    rw [hd]
  have hmember : sizeofMember E n kw.loc c.text ⟨c :: d :: t :: r :: rest, errs, a + 1⟩ =
      some (m.type, ⟨r :: rest, errs, a + 1⟩) := by
    have hfind : (E.prog.classes c.text).map (fun c => findMember E.prog.heap n c t.text) =
        some (some (some m)) := by
      rw [hc, Option.map_some, findMember_mono hn hm]
    have htake : ∀ (u : Token) us, take ⟨u :: us, errs, a + 1⟩ =
      some (u, ⟨us, errs, a + 1⟩) := fun _ _ => rfl
    unfold sizeofMember
    rw [parse_bind_some (htake ..), parse_bind_some (htake ..), parse_bind_some (tok_cons ..),
      if_neg (not_not.mpr ht), parse_bind_some (htake ..), hfind]
    rfl
  have hnode : mkE kw.loc ⟨c :: d :: t :: r :: rest, errs, a⟩ =
    some (⟨kw.loc, a⟩, ⟨c :: d :: t :: r :: rest, errs, a + 1⟩) := rfl
  change sizeofOperand E (parseAssign E n) n kw.loc ⟨c :: d :: t :: r :: rest, errs, a⟩ = _
  unfold sizeofOperand
  rw [parse_bind_some (tok_cons ..)]
  have hclass : (E.prog.classes c.text).isSome = true := by rw [hc]; rfl
  rw [hclass, Bool.not_true, Bool.and_false, if_neg Bool.false_ne_true, if_pos rfl,
    parse_bind_some hnode, parse_bind_some hdot, if_pos rfl, parse_bind_some hmember]
  rfl

theorem reads_sizeofExpr {kw l t r : Token} (n : Node) (hkw : kw.isIdent "sizeof" = true)
    (hl : l.is .lParen = true) (ht : isTypeName E t = false)
    (hclass : E.prog.classes t.text = none) (h : ReadsAs E 13 e (t :: ts))
    (hr : r.is .rParen = true) :
    ReadsAs E 0 (.sizeofExpr n e) (kw :: l :: t :: (ts ++ [r])) := by
  rcases h.takes with ⟨N, h⟩
  refine reads_sizeof (t :: ts) hkw hl hr ⟨N, ?_⟩
  intro n hn rest errs a
  rcases h n hn (r :: rest) errs (a + 1) (before_closer hr (by decide) rest) with
    ⟨e', a', hbare, hrun⟩
  refine ⟨.sizeofExpr ⟨kw.loc, a⟩ e', a', ?_, ?_⟩
  · rw [Expr.bare, Expr.bare, hbare]
  have hnode : mkE kw.loc ⟨t :: (ts ++ r :: rest), errs, a⟩ =
    some (⟨kw.loc, a⟩, ⟨t :: (ts ++ r :: rest), errs, a + 1⟩) := rfl
  have hexpr : parseAssign E n ⟨t :: (ts ++ r :: rest), errs, a + 1⟩ = _ := hrun
  change sizeofOperand E (parseAssign E n) n kw.loc ⟨t :: (ts ++ r :: rest), errs, a⟩ = _
  unfold sizeofOperand
  rw [parse_bind_some (tok_cons ..), ht, hclass, Bool.false_and, if_neg Bool.false_ne_true,
    Option.isSome_none, if_neg Bool.false_ne_true, parse_bind_some hnode, parse_bind_some hexpr]
  rfl

theorem reads_offsetOf {kw l c d t r : Token} (n : Node) (hkw : kw.isIdent "offset" = true)
    (hl : l.is .lParen = true) (hc : c.kind = .ident) (hd : d.is .dot = true)
    (ht : t.kind = .ident) (hr : r.is .rParen = true) :
    ReadsAs E 0 (.offsetOf n c.text t.text (E.prog.classes c.text)) [kw, l, c, d, t, r] := by
  rcases isIdent_iff.mp hkw with ⟨hkind, htext⟩
  refine .primary (starts_keyword hkw _) ⟨0, ?_⟩
  intro n _ rest errs a _
  refine ⟨.offsetOf ⟨kw.loc, a⟩ c.text t.text (E.prog.classes c.text), a + 1, rfl, ?_⟩
  have htake : ∀ (u : Token) us a, take ⟨u :: us, errs, a⟩ = some (u, ⟨us, errs, a⟩) :=
    fun _ _ _ => rfl
  have hnode : mkE kw.loc ⟨c :: d :: t :: r :: rest, errs, a⟩ =
    some (⟨kw.loc, a⟩, ⟨c :: d :: t :: r :: rest, errs, a + 1⟩) := rfl
  have hoperand : offsetOperand E ⟨c :: d :: t :: r :: rest, errs, a + 1⟩ =
      some ((c.text, E.prog.classes c.text, t.text), ⟨r :: rest, errs, a + 1⟩) := by
    unfold offsetOperand
    rw [parse_bind_some (tok_cons ..), if_neg (not_not.mpr hc), parse_bind_some (htake ..),
      parse_bind_some (expect_cons hd ..), parse_bind_some (tok_cons ..), if_pos ht,
      parse_bind_some (htake ..)]
    rfl
  change primaryStep E (parseAssign E n) n ⟨kw :: l :: c :: d :: t :: r :: rest, errs, a⟩ = _
  unfold primaryStep
  rw [parse_bind_some (tok_cons ..)]
  simp only [hkind, htext, String.reduceEq, if_true, if_false]
  unfold parseOffset
  rw [parse_bind_some (htake ..), parse_bind_some (expect_cons hl ..), parse_bind_some hnode,
    parse_bind_some hoperand]
  simp only
  rw [parse_bind_some (expect_cons hr ..)]
  rfl

/-! ### Postfix operators -/

theorem looksLikeCast_cons (l : Token) (us : List Token) (errs : List (SrcLoc × String)) (a : Nat) :
    looksLikeCast E ⟨l :: us, errs, a⟩ =
      some (l.is .lParen && castLike E us, ⟨l :: us, errs, a⟩) := by
  unfold looksLikeCast castLike
  rw [← Bool.and_assoc, ← List.drop_one]
  rfl

theorem drop_starCount (ts : List Token) :
    ts.drop (starCount ts) = ts.dropWhile (·.is .star) := by
  unfold starCount
  induction ts with
  | nil => rfl
  | cons t ts ih =>
      rw [List.takeWhile_cons, List.dropWhile_cons]
      split
      · exact ih
      · rfl

theorem isTypeName_punct {t : Token} {p : P} (h : t.is p = true) : isTypeName E t = false := by
  unfold isTypeName
  rw [(is_iff.mp h).1]
  rfl

/-- What is behind the closing parenthesis does not matter. -/
theorem castLike_close (us : List Token) {r : Token} (hr : r.is .rParen = true)
    (rest : List Token) : castLike E (us ++ r :: rest) = castLike E (us ++ [r]) := by
  have hstar : ∀ rest, (r :: rest).dropWhile (·.is .star) = r :: rest := by
    intro rest
    rw [List.dropWhile_cons, is_other hr (by decide)]
    rfl
  unfold castLike
  cases us with
  | nil =>
      have hty : isTypeName E ((r :: rest).headD eofToken) = false := isTypeName_punct hr
      have hty' : isTypeName E ([r].headD eofToken) = false := isTypeName_punct hr
      rw [List.nil_append, List.nil_append, hty, hty']
      rfl
  | cons u us =>
      rw [List.cons_append, List.cons_append, List.tail_cons, List.tail_cons, drop_starCount,
        drop_starCount]
      induction us with
      | nil =>
          rw [List.nil_append, List.nil_append, hstar, hstar]
          rfl
      | cons v us ih =>
          rw [List.cons_append, List.cons_append, List.dropWhile_cons, List.dropWhile_cons]
          split
          · exact ih
          · rfl

/-- One turn of the loop of `parsePostfix` reads the tokens `us`, and makes `f` of `e`. -/
def Turns (E : ParseEnv) (e f : Expr) (us : List Token) : Prop :=
  ∃ N, ∀ n m, N ≤ n → N ≤ m → ∀ e' rest errs a, e'.bare = e.bare → ∃ f' a', f'.bare = f.bare ∧
    postfixRest E (parseAssign E n) (m + 1) e' ⟨us ++ rest, errs, a⟩ =
      postfixRest E (parseAssign E n) m f' ⟨rest, errs, a'⟩

theorem ReadsAs.turn (h : ReadsAs E 0 e ts) {f : Expr} {u : Token} {us : List Token}
    (hu : u.kind = .punct) (hf : Turns E e f (u :: us)) : ReadsAs E 0 f (ts ++ u :: us) := by
  refine .of_enters (.inl rfl) (h.starts.append _) ?_
  rcases h.enters (.inl rfl) with ⟨N, c, h⟩
  rcases hf with ⟨N', hf⟩
  refine ⟨max N N', c + 1, ?_⟩
  intro n m hn hm rest errs a hrest
  have hbefore : Before 0 (u :: us ++ rest) :=
    ⟨by change u.kind ≠ .strLit; rw [hu]; decide, fun j hj => absurd hj (Nat.not_lt_zero j)⟩
  rcases h n (m + 1) (by omega) (by omega) (u :: us ++ rest) errs a hbefore with
    ⟨e', a', hbare, hrun⟩
  rcases hf n m (by omega) (by omega) e' rest errs a' hbare with ⟨f', b, hbare', hturn⟩
  refine ⟨f', b, hbare', ?_⟩
  have hfuel : m + (c + 1) = m + 1 + c := by omega
  rw [List.append_assoc, hfuel, hrun]
  exact hturn

theorem reads_cast {l t r : Token} {ss : List Token} {ty : Ty} (n : Node) (h : ReadsAs E 0 e ts)
    (hl : l.is .lParen = true) (ht : t.kind = .ident) (hty : E.prog.baseTypeFor t.text = some ty)
    (hss : ∀ u ∈ ss, u.is .star = true) (hr : r.is .rParen = true) :
    ReadsAs E 0 (.cast n e (stars ss.length ty)) (ts ++ l :: t :: (ss ++ [r])) := by
  refine h.turn (is_iff.mp hl).1 ⟨0, ?_⟩
  intro k m _ _ e' rest errs a hbare
  refine ⟨.cast ⟨l.loc, a⟩ e' (stars ss.length ty), a + 1, ?_, ?_⟩
  · rw [Expr.bare, Expr.bare, hbare]
  have hlist : l :: t :: (ss ++ [r]) ++ rest = l :: t :: (ss ++ r :: rest) := by simp
  have hname : isTypeName E t = true := by
    unfold isTypeName
    rw [ht, hty]
    rfl
  have hcount : starCount (ss ++ r :: rest) = ss.length :=
    starCount_stars hss (is_other hr (by decide))
  have hcast : castLike E (t :: (ss ++ r :: rest)) = true := by
    unfold castLike
    rw [List.headD_cons, hname, List.tail_cons, hcount, List.drop_left, List.headD_cons, hr]
    rfl
  have htake : take ⟨l :: t :: (ss ++ r :: rest), errs, a⟩ =
    some (l, ⟨t :: (ss ++ r :: rest), errs, a⟩) := rfl
  rw [hlist]
  rw [postfixRest_succ]
  rw [parse_bind_some (tok_cons ..), parse_bind_some (looksLikeCast_cons ..), hl, hcast, Bool.and_true,
    if_pos rfl, parse_bind_some htake, parse_bind_some (parseBaseType_stars hty hss hr ..),
    parse_bind_some (expect_cons hr ..)]
  rfl

/-- The tokens are argument slots. -/
def ReadsSlots (E : ParseEnv) (args : List (Option Expr)) (ts : List Token) : Prop :=
  ∃ N, ∀ n, N ≤ n → ∀ r rest errs a, r.is .rParen = true → ∃ args' a',
    Expr.bareSlots args' = Expr.bareSlots args ∧ args'.length = args.length ∧
    Slots (parseAssign E n) ⟨ts ++ r :: rest, errs, a⟩ args' ⟨rest, errs, a'⟩

theorem bareSlots_slotArgs {args args' : List (Option Expr)}
    (h : Expr.bareSlots args' = Expr.bareSlots args) :
    Expr.bareSlots (slotArgs args') = Expr.bareSlots (slotArgs args) := by
  have hnone : ∀ {as : List (Option Expr)}, Expr.bareSlots as = [none] → as = [none] := by
    intro as has
    rcases as with _ | ⟨_ | e, as⟩
    · cases has
    · rw [Expr.bareSlots, List.cons.injEq] at has
      rcases as with _ | ⟨_ | e, as⟩
      · rfl
      · cases has.2
      · cases has.2
    · cases has
  by_cases hargs : args = [none]
  · subst hargs
    rw [hnone h]
  · have hargs' : args' ≠ [none] := by
      rintro rfl
      exact hargs (hnone h.symm)
    have hall : ∀ {as : List (Option Expr)}, as ≠ [none] → slotArgs as = as := by
      intro as has
      unfold slotArgs
      split
      · exact absurd rfl has
      · rfl
    rw [hall hargs, hall hargs', h]

theorem reads_call {l r : Token} {args : List (Option Expr)} {us : List Token} (n : Node)
    (h : ReadsAs E 0 e ts) (hl : l.is .lParen = true) (hargs : ReadsSlots E args us)
    (hr : r.is .rParen = true) (hcast : castLike E (us ++ [r]) = false) :
    ReadsAs E 0 (.call n e (slotArgs args)) (ts ++ l :: (us ++ [r])) := by
  rcases hargs with ⟨N, hargs⟩
  refine h.turn (is_iff.mp hl).1 ⟨max N args.length, ?_⟩
  intro k m hk hm e' rest errs a hbare
  rcases hargs k (by omega) r rest errs (a + 1) hr with ⟨args', a', hslots, hlen, hparse⟩
  refine ⟨.call ⟨l.loc, a⟩ e' (slotArgs args'), a', ?_, ?_⟩
  · rw [Expr.bare, Expr.bare, hbare, bareSlots_slotArgs hslots]
  have hlist : l :: (us ++ [r]) ++ rest = l :: (us ++ r :: rest) := by simp
  have htake : take ⟨l :: (us ++ r :: rest), errs, a⟩ = some (l, ⟨us ++ r :: rest, errs, a⟩) := rfl
  have hnode : mkE l.loc ⟨us ++ r :: rest, errs, a⟩ =
    some (⟨l.loc, a⟩, ⟨us ++ r :: rest, errs, a + 1⟩) := rfl
  rw [← castLike_close us hr rest] at hcast
  rw [hlist]
  rw [postfixRest_succ]
  rw [parse_bind_some (tok_cons ..), parse_bind_some (looksLikeCast_cons ..), hcast, Bool.and_false,
    if_neg Bool.false_ne_true, if_pos hl, parse_bind_some htake, parse_bind_some hnode,
    parse_bind_some (parseCallArgs_slots E hparse (by omega))]

theorem reads_index {l r : Token} {i : Expr} {us : List Token} (n : Node) (hb : ReadsAs E 0 e ts)
    (hl : l.is .lBracket = true) (hi : ReadsAs E 13 i us) (hr : r.is .rBracket = true) :
    ReadsAs E 0 (.index n e i) (ts ++ l :: (us ++ [r])) := by
  rcases hi.between hr (by decide) "after index" with ⟨N, hi⟩
  refine hb.turn (is_iff.mp hl).1 ⟨N, ?_⟩
  intro k m hk _ e' rest errs a hbare
  rcases hi k hk rest errs (a + 1) with ⟨i', a', hbare', hrun, hexpect⟩
  refine ⟨.index ⟨l.loc, a⟩ e' i', a', ?_, ?_⟩
  · rw [Expr.bare, Expr.bare, hbare, hbare']
  have htake : take ⟨l :: ((us ++ [r]) ++ rest), errs, a⟩ = some (l, ⟨(us ++ [r]) ++ rest, errs, a⟩) :=
    rfl
  have hnode : mkE l.loc ⟨(us ++ [r]) ++ rest, errs, a⟩ =
    some (⟨l.loc, a⟩, ⟨(us ++ [r]) ++ rest, errs, a + 1⟩) := rfl
  change postfixRest E (parseAssign E k) (m + 1) e' ⟨l :: ((us ++ [r]) ++ rest), errs, a⟩ = _
  rw [postfixRest_succ]
  rw [parse_bind_some (tok_cons ..), parse_bind_some (looksLikeCast_cons ..),
    is_other hl (by decide), Bool.false_and, if_neg Bool.false_ne_true, if_neg Bool.false_ne_true,
    if_pos hl, parse_bind_some htake, parse_bind_some hnode, parse_bind_some hrun,
    parse_bind_some hexpect]

theorem reads_member {op t : Token} (n : Node) (hb : ReadsAs E 0 e ts)
    (hop : (op.is .dot || op.is .arrow) = true) (ht : t.kind = .ident) :
    ReadsAs E 0 (.member n e t.text (op.punct = .arrow)) (ts ++ [op, t]) := by
  have hno : ∀ p, p ≠ .dot → p ≠ .arrow → op.is p = false := by
    intro p hdot harrow
    rcases Bool.or_eq_true_iff.mp hop with hop | hop
    · exact is_other hop hdot.symm
    · exact is_other hop harrow.symm
  have hkind : op.kind = .punct := by
    rcases Bool.or_eq_true_iff.mp hop with hop | hop <;> exact (is_iff.mp hop).1
  refine hb.turn hkind ⟨0, ?_⟩
  intro k m _ _ e' rest errs a hbare
  refine ⟨.member ⟨op.loc, a⟩ e' t.text (op.punct = .arrow), a + 1, ?_, ?_⟩
  · rw [Expr.bare, Expr.bare, hbare]
  have htake : ∀ (u : Token) us, take ⟨u :: us, errs, a⟩ = some (u, ⟨us, errs, a⟩) := fun _ _ => rfl
  change postfixRest E (parseAssign E k) (m + 1) e' ⟨op :: t :: rest, errs, a⟩ = _
  rw [postfixRest_succ]
  rw [parse_bind_some (tok_cons ..), parse_bind_some (looksLikeCast_cons ..),
    hno .lParen (by decide) (by decide), Bool.false_and, if_neg Bool.false_ne_true,
    if_neg Bool.false_ne_true, hno .lBracket (by decide) (by decide), if_neg Bool.false_ne_true,
    if_pos hop, parse_bind_some (htake ..), parse_bind_some (tok_cons ..),
    if_neg (not_not.mpr ht), parse_bind_some (htake ..)]
  rfl

theorem reads_post {op : Token} (n : Node) (h : ReadsAs E 0 e ts)
    (hop : (op.is .plusPlus || op.is .minusMinus) = true) :
    ReadsAs E 0 (.unary n op.punct false e) (ts ++ [op]) := by
  have hno : ∀ p, p ≠ .plusPlus → p ≠ .minusMinus → op.is p = false := by
    intro p hplus hminus
    rcases Bool.or_eq_true_iff.mp hop with hop | hop
    · exact is_other hop hplus.symm
    · exact is_other hop hminus.symm
  have hkind : op.kind = .punct := by
    rcases Bool.or_eq_true_iff.mp hop with hop | hop <;> exact (is_iff.mp hop).1
  refine h.turn hkind ⟨0, ?_⟩
  intro k m _ _ e' rest errs a hbare
  refine ⟨.unary ⟨op.loc, a⟩ op.punct false e', a + 1, ?_, ?_⟩
  · rw [Expr.bare_unary, Expr.bare_unary, hbare]
  have htake : take ⟨op :: rest, errs, a⟩ = some (op, ⟨rest, errs, a⟩) := rfl
  change postfixRest E (parseAssign E k) (m + 1) e' ⟨op :: rest, errs, a⟩ = _
  rw [postfixRest_succ]
  rw [parse_bind_some (tok_cons ..), parse_bind_some (looksLikeCast_cons ..),
    hno .lParen (by decide) (by decide), Bool.false_and, if_neg Bool.false_ne_true,
    if_neg Bool.false_ne_true, hno .lBracket (by decide) (by decide), if_neg Bool.false_ne_true,
    hno .dot (by decide) (by decide), hno .arrow (by decide) (by decide), Bool.or_self,
    if_neg Bool.false_ne_true, if_pos hop, parse_bind_some htake]
  rfl

/-! ### The tiers -/

theorem reads_pre {op : Token} (n : Node) (hop : op.kind = .punct ∧ op.punct ∈ unaryOps)
    (h : ReadsAs E 1 e ts) : ReadsAs E 1 (.unary n op.punct true e) (op :: ts) := by
  constructor
  case starts =>
    refine ⟨op, ts, rfl, by rw [hop.1]; decide, ?_, fun h => absurd h Nat.one_ne_zero⟩
    exact fun _ => List.mem_cons_of_mem _ (List.mem_cons_of_mem _ hop.2)
  case enters => exact fun hk => absurd hk (by unfold LoopTier; omega)
  case takes =>
    rcases h.takes with ⟨N, h⟩
    refine ⟨N + 1, ?_⟩
    intro k hk rest errs a hrest
    rcases Nat.exists_eq_add_of_le' hk with ⟨j, rfl⟩
    rcases h (j + N) (Nat.le_add_left N j) rest errs (a + 1) hrest with ⟨e', a', hbare, hrun⟩
    refine ⟨.unary ⟨op.loc, a⟩ op.punct true e', a', ?_, ?_⟩
    · rw [Expr.bare_unary, Expr.bare_unary, hbare]
    have htake : take ⟨op :: (ts ++ rest), errs, a⟩ = some (op, ⟨ts ++ rest, errs, a⟩) := rfl
    have hnode : mkE op.loc ⟨ts ++ rest, errs, a⟩ =
      some (⟨op.loc, a⟩, ⟨ts ++ rest, errs, a + 1⟩) := rfl
    have hrun : parseUnary E (j + N) ⟨ts ++ rest, errs, a + 1⟩ = _ := hrun
    change parseUnary E (j + N + 1) ⟨op :: (ts ++ rest), errs, a⟩ = _
    rw [parseUnary_succ]
    unfold unaryStep
    rw [parse_bind_some (tok_cons ..), if_pos hop, parse_bind_some htake, parse_bind_some hnode,
      parse_bind_some hrun]
    rfl

theorem reads_binary {op : Token} {b : Expr} {us : List Token} (n : Node) (hk : LoopTier (k + 1))
    (ha : ReadsAs E (k + 1) e ts) (hop : op.kind = .punct ∧ op.punct ∈ tierOps (k + 1))
    (hb : ReadsAs E k b us) :
    ReadsAs E (k + 1) (.binary n op.punct e b) (ts ++ op :: us) := by
  refine .of_enters (.inr hk) (ha.starts.append _) ?_
  rcases ha.enters (.inr hk) with ⟨N, c, ha⟩
  rcases hb.takes with ⟨N', hb⟩
  refine ⟨max N N', c + 1, ?_⟩
  intro j m hj hm rest errs a hrest
  have hk14 : k + 1 < 14 := by
    have h12 := hk.2.1
    omega
  rcases ha j (m + 1) (by omega) (by omega) (op :: us ++ rest) errs a (before_op hk14 hop _) with
    ⟨e', a', hbare, hrun⟩
  rcases hb j (by omega) rest errs a' hrest with ⟨b', a'', hbare', hrun'⟩
  refine ⟨.binary ⟨op.loc, a''⟩ op.punct e' b', a'' + 1, ?_, ?_⟩
  · rw [Expr.bare_binary, Expr.bare_binary, hbare, hbare']
  have hfuel : m + (c + 1) = m + 1 + c := by omega
  have htake : take ⟨op :: (us ++ rest), errs, a'⟩ = some (op, ⟨us ++ rest, errs, a'⟩) := rfl
  have hnode : mkE op.loc ⟨rest, errs, a''⟩ = some (⟨op.loc, a''⟩, ⟨rest, errs, a'' + 1⟩) := rfl
  have hrun' : parseTier E j k ⟨us ++ rest, errs, a'⟩ = _ := hrun'
  rw [List.append_assoc, hfuel, hrun]
  change binaryRest (parseTier E j k) (tierOps (k + 1)) (m + 1) e' ⟨op :: (us ++ rest), errs, a'⟩ = _
  rw [binaryRest_succ]
  rw [parse_bind_some (tok_cons ..), if_pos hop, parse_bind_some htake, parse_bind_some hrun',
    parse_bind_some hnode]
  rfl

/-- The tokens are the comparisons behind the first operand. -/
def ReadsMore (E : ParseEnv) (es : List (P × Expr)) (ts : List Token) : Prop :=
  (∃ t us, ts = t :: us ∧ isRelOp t = true) ∧
    ∃ N, ∀ n m, N ≤ n → N ≤ m → ∀ acc rest errs a, Before 9 rest → ∃ es' a',
      Expr.bareMore es' = Expr.bareMore es ∧
      relRest (parseTier E n 7) m acc ⟨ts ++ rest, errs, a⟩ =
        some (acc ++ es', ⟨rest, errs, a'⟩)

theorem isRelOp_iff {t : Token} : isRelOp t = true ↔ t.kind = .punct ∧ t.punct ∈ tierOps 8 := by
  have hops : tierOps 8 = [.lt, .gt, .le, .ge] := rfl
  unfold isRelOp
  rw [hops]
  simp only [Bool.or_eq_true, is_iff, List.mem_cons, List.not_mem_nil, or_false, and_or_left,
    or_assoc]

theorem isRelOp_false {rest : List Token} (h : nextIn (tierOps 8) rest = false) :
    isRelOp (rest.headD eofToken) = false := by
  by_contra hne
  rcases isRelOp_iff.mp (Bool.eq_true_of_not_eq_false hne) with hop
  exact not_punct_of_nextIn h hop

theorem reads_chainCmp {es : List (P × Expr)} {us : List Token} (n : Node) (h : ReadsAs E 7 e ts)
    (hes : ReadsMore E es us) : ReadsAs E 8 (.chainCmp n e es) (ts ++ us) := by
  rcases hes with ⟨⟨t, vs, rfl, hop⟩, N', hes⟩
  constructor
  case starts => exact (h.starts.mono (by decide)).append _
  case enters => exact fun hk => absurd hk (by unfold LoopTier; omega)
  case takes =>
    rcases h.takes with ⟨N, h⟩
    refine ⟨max N N', ?_⟩
    intro j hj rest errs a hrest
    rcases h j (by omega) (t :: vs ++ rest) errs a (before_op (by decide) (isRelOp_iff.mp hop) _)
      with ⟨e', a', hbare, hrun⟩
    rcases hes j j (by omega) (by omega) [] rest errs (a' + 1) hrest with ⟨es', a'', hbare', hmore⟩
    refine ⟨.chainCmp ⟨t.loc, a'⟩ e' es', a'', ?_, ?_⟩
    · rw [Expr.bare, Expr.bare, hbare, hbare']
    have hnode : mkE t.loc ⟨t :: (vs ++ rest), errs, a'⟩ =
      some (⟨t.loc, a'⟩, ⟨t :: (vs ++ rest), errs, a' + 1⟩) := rfl
    have hrun : parseAdd j (parseUnary E j) ⟨ts ++ (t :: (vs ++ rest)), errs, a⟩ =
      some (e', ⟨t :: (vs ++ rest), errs, a'⟩) := hrun
    have hmore : relRest (parseAdd j (parseUnary E j)) j [] ⟨t :: (vs ++ rest), errs, a' + 1⟩ =
      some (es', ⟨rest, errs, a''⟩) := hmore
    rw [List.append_assoc]
    change parseRel j (parseUnary E j) ⟨ts ++ (t :: (vs ++ rest)), errs, a⟩ = _
    unfold parseRel
    rw [parse_bind_some hrun, parse_bind_some (tok_cons ..), if_pos hop, parse_bind_some hnode,
      parse_bind_some hmore]
    rfl

theorem reads_assign {op : Token} {b : Expr} {us : List Token} (n : Node) (ha : ReadsAs E 12 e ts)
    (hop : op.kind = .punct ∧ op.punct ∈ assignOps) (hb : ReadsAs E 13 b us) :
    ReadsAs E 13 (.assign n op.punct e b) (ts ++ op :: us) := by
  constructor
  case starts => exact (ha.starts.mono (by decide)).append _
  case enters => exact fun hk => absurd hk (by unfold LoopTier; omega)
  case takes =>
    rcases ha.takes with ⟨N, ha⟩
    rcases hb.takes with ⟨N', hb⟩
    refine ⟨max N N' + 1, ?_⟩
    intro j hj rest errs a hrest
    rcases Nat.exists_eq_add_of_le' hj with ⟨i, rfl⟩
    have hmem : op.kind = .punct ∧ op.punct ∈ tierOps 13 := ⟨hop.1, List.mem_append_left _ hop.2⟩
    rcases ha (i + max N N') (by omega) (op :: us ++ rest) errs a (before_op (by decide) hmem _)
      with ⟨e', a', hbare, hrun⟩
    rcases hb (i + max N N') (by omega) rest errs a' hrest with ⟨b', a'', hbare', hrun'⟩
    refine ⟨.assign ⟨op.loc, a''⟩ op.punct e' b', a'' + 1, ?_, ?_⟩
    · rw [Expr.bare, Expr.bare, hbare, hbare']
    have htake : take ⟨op :: (us ++ rest), errs, a'⟩ = some (op, ⟨us ++ rest, errs, a'⟩) := rfl
    have hnode : mkE op.loc ⟨rest, errs, a''⟩ = some (⟨op.loc, a''⟩, ⟨rest, errs, a'' + 1⟩) := rfl
    have hrun : parseLor (i + max N N') (parseUnary E (i + max N N'))
      ⟨ts ++ (op :: (us ++ rest)), errs, a⟩ = some (e', ⟨op :: (us ++ rest), errs, a'⟩) := hrun
    have hrun' : parseAssign E (i + max N N') ⟨us ++ rest, errs, a'⟩ = _ := hrun'
    rw [List.append_assoc]
    change parseAssign E (i + max N N' + 1) ⟨ts ++ (op :: (us ++ rest)), errs, a⟩ = _
    rw [parseAssign_succ]
    unfold assignStep
    rw [parse_bind_some hrun, parse_bind_some (tok_cons ..), if_pos hop, parse_bind_some htake,
      parse_bind_some hrun', parse_bind_some hnode]
    rfl

/-- An expression of the tier below. -/
theorem ReadsAs.lift (hk : k < 13) (h : ReadsAs E k e ts) : ReadsAs E (k + 1) e ts := by
  by_cases hloop : LoopTier (k + 1)
  · refine .of_enters (.inr hloop) (h.starts.mono (Nat.succ_ne_zero k)) ?_
    rcases h.takes with ⟨N, h⟩
    refine ⟨N, 0, ?_⟩
    intro j m hj _ rest errs a hrest
    rcases h j hj rest errs a hrest with ⟨e', a', hbare, hrun⟩
    exact ⟨e', a', hbare, parse_bind_some hrun⟩
  constructor
  case starts => exact h.starts.mono (Nat.succ_ne_zero k)
  case enters => exact fun hk => absurd hk (by simp [hloop])
  case takes =>
    -- the tiers that are no loops
    have hcases : k = 0 ∨ k = 7 ∨ k = 12 := by
      unfold LoopTier at hloop
      omega
    have hstarts := h.starts
    rcases h.takes with ⟨N, h⟩
    refine ⟨N + 1, ?_⟩
    intro j hj rest errs a hrest
    rcases Nat.exists_eq_add_of_le' hj with ⟨i, rfl⟩
    rcases hcases with rfl | rfl | rfl
    · rcases h (i + N) (by omega) rest errs a (hrest.mono (by decide)) with ⟨e', a', hbare, hrun⟩
      refine ⟨e', a', hbare, ?_⟩
      rcases hstarts with ⟨t, us, rfl, -, -, hno⟩
      change parseUnary E (i + N + 1) ⟨t :: (us ++ rest), errs, a⟩ = _
      rw [parseUnary_succ]
      unfold unaryStep
      rw [parse_bind_some (tok_cons ..), if_neg (hno rfl)]
      exact hrun
    · rcases h (i + N + 1) (by omega) rest errs a (hrest.mono (by decide)) with
        ⟨e', a', hbare, hrun⟩
      refine ⟨e', a', hbare, ?_⟩
      have hrun : parseAdd (i + N + 1) (parseUnary E (i + N + 1)) ⟨ts ++ rest, errs, a⟩ =
        some (e', ⟨rest, errs, a'⟩) := hrun
      change parseRel (i + N + 1) (parseUnary E (i + N + 1)) ⟨ts ++ rest, errs, a⟩ = _
      unfold parseRel
      rw [parse_bind_some hrun, parse_bind_some (tok_zero _)]
      have hno : isRelOp (PState.head ⟨rest, errs, a'⟩) = false := isRelOp_false (hrest.2 8 (by decide))
      rw [hno]
      rfl
    · rcases h (i + N) (by omega) rest errs a (hrest.mono (by decide)) with ⟨e', a', hbare, hrun⟩
      refine ⟨e', a', hbare, ?_⟩
      have hrun : parseLor (i + N) (parseUnary E (i + N)) ⟨ts ++ rest, errs, a⟩ =
        some (e', ⟨rest, errs, a'⟩) := hrun
      have hstop := hrest.2 13 (by decide)
      have hassign : nextIn assignOps rest = false :=
        nextIn_false_of_subset hstop fun p hp => List.mem_append_left _ hp
      have hquestion : (rest.headD eofToken).is .question = false :=
        is_false_of_nextIn hstop (by decide)
      change parseAssign E (i + N + 1) ⟨ts ++ rest, errs, a⟩ = _
      rw [parseAssign_succ]
      unfold assignStep
      rw [parse_bind_some hrun, parse_bind_some (tok_zero _)]
      change (if (rest.headD eofToken).kind = .punct ∧ (rest.headD eofToken).punct ∈ assignOps then _
        else if (rest.headD eofToken).is .question = true then _ else _ : Parse Expr) _ = _
      rw [if_neg (not_punct_of_nextIn hassign), hquestion]
      rfl

/-! ### Lists -/

/-- One turn of the loop of `parseRel`. -/
theorem relRest_cons {sub : Parse Expr} {op : Token} (hop : isRelOp op = true) {us : List Token}
    {errs : List (SrcLoc × String)} {a : Nat} {e' : Expr} {s' : PState} (m : Nat)
    (acc : List (P × Expr)) (h : sub ⟨us, errs, a⟩ = some (e', s')) :
    relRest sub (m + 1) acc ⟨op :: us, errs, a⟩ = relRest sub m (acc ++ [(op.punct, e')]) s' := by
  have htake : take ⟨op :: us, errs, a⟩ = some (op, ⟨us, errs, a⟩) := rfl
  rw [relRest_succ]
  rw [parse_bind_some (tok_cons ..), if_pos hop, parse_bind_some htake, parse_bind_some h]

theorem reads_moreLast {op : Token} (hop : isRelOp op = true) (h : ReadsAs E 7 e ts) :
    ReadsMore E [(op.punct, e)] (op :: ts) := by
  refine ⟨⟨op, ts, rfl, hop⟩, ?_⟩
  rcases h.takes with ⟨N, h⟩
  refine ⟨N + 2, ?_⟩
  intro n m hn hm acc rest errs a hrest
  rcases h n (by omega) rest errs a (hrest.mono (by decide)) with ⟨e', a', hbare, hrun⟩
  refine ⟨[(op.punct, e')], a', ?_, ?_⟩
  · exact congrArg (fun b => [(op.punct, b)]) hbare
  rcases Nat.exists_eq_add_of_le' hm with ⟨i, rfl⟩
  have hfuel : i + (N + 2) = i + N + 1 + 1 := by omega
  rw [hfuel, List.cons_append, relRest_cons hop _ _ hrun]
  have hstop : isRelOp (PState.head ⟨rest, errs, a'⟩) = false := isRelOp_false (hrest.2 8 (by decide))
  rw [relRest_succ]
  rw [parse_bind_some (tok_zero _), hstop]
  rfl

theorem reads_moreCons {op : Token} {es : List (P × Expr)} {us : List Token}
    (hop : isRelOp op = true) (h : ReadsAs E 7 e ts) (hes : ReadsMore E es us) :
    ReadsMore E ((op.punct, e) :: es) (op :: (ts ++ us)) := by
  rcases hes with ⟨⟨t, vs, rfl, hop'⟩, N', hes⟩
  refine ⟨⟨op, _, rfl, hop⟩, ?_⟩
  rcases h.takes with ⟨N, h⟩
  refine ⟨max N N' + 1, ?_⟩
  intro n m hn hm acc rest errs a hrest
  rcases Nat.exists_eq_add_of_le' hm with ⟨i, rfl⟩
  rcases h n (by omega) (t :: vs ++ rest) errs a (before_op (by decide) (isRelOp_iff.mp hop') _) with
    ⟨e', a', hbare, hrun⟩
  rcases hes n (i + max N N') (by omega) (by omega) (acc ++ [(op.punct, e')]) rest errs a' hrest with
    ⟨es', a'', hbare', hmore⟩
  refine ⟨(op.punct, e') :: es', a'', ?_, ?_⟩
  · rw [Expr.bareMore, Expr.bareMore, hbare, hbare']
  have hlist : op :: (ts ++ t :: vs) ++ rest = op :: (ts ++ (t :: vs ++ rest)) := by simp
  rw [hlist, ← Nat.add_assoc, relRest_cons hop _ _ hrun, hmore, List.append_assoc]
  rfl

/-- The tokens are an argument slot. -/
def ReadsSlot (E : ParseEnv) (arg : Option Expr) (ts : List Token) : Prop :=
  ∃ N, ∀ n, N ≤ n → ∀ rest errs a, Before 14 rest →
    ((rest.headD eofToken).is .comma || (rest.headD eofToken).is .rParen) = true → ∃ arg' a',
    Expr.bareSlots [arg'] = Expr.bareSlots [arg] ∧
    Slot (parseAssign E n) ⟨ts ++ rest, errs, a⟩ arg' ⟨rest, errs, a'⟩

theorem reads_skipped : ReadsSlot E none [] :=
  ⟨0, fun _ _ _ _ a _ hrest => ⟨none, a, rfl, .skipped hrest⟩⟩

theorem reads_filled (h : ReadsAs E 13 e ts) : ReadsSlot E (some e) ts := by
  have hstarts := h.starts
  rcases h.takes with ⟨N, h⟩
  refine ⟨N, ?_⟩
  intro n hn rest errs a hrest _
  rcases h n hn rest errs a hrest with ⟨e', a', hbare, hrun⟩
  refine ⟨some e', a', ?_, .filled ?_ hrun⟩
  · exact congrArg (fun b => [some b]) hbare
  · have hcomma : (PState.head ⟨ts ++ rest, errs, a⟩).is .comma = false :=
      hstarts.is_false (by decide)
    have hclose : (PState.head ⟨ts ++ rest, errs, a⟩).is .rParen = false :=
      hstarts.is_false (by decide)
    rw [hcomma, hclose]
    rfl

theorem reads_slotsLast {arg : Option Expr} (h : ReadsSlot E arg ts) : ReadsSlots E [arg] ts := by
  rcases h with ⟨N, h⟩
  refine ⟨N, ?_⟩
  intro n hn r rest errs a hr
  have hend : (r.is .comma || r.is .rParen) = true := by rw [hr, Bool.or_true]
  rcases h n hn (r :: rest) errs a (before_closer hr (by decide) rest) hend with
    ⟨arg', a', hbare, hslot⟩
  exact ⟨[arg'], a', hbare, rfl, .last hslot hr⟩

theorem bareSlots_cons (arg : Option Expr) (args : List (Option Expr)) :
    Expr.bareSlots (arg :: args) = Expr.bareSlots [arg] ++ Expr.bareSlots args := by
  cases arg <;> rfl

theorem reads_slotsCons {c : Token} {arg : Option Expr} {args : List (Option Expr)}
    {us : List Token} (h : ReadsSlot E arg ts) (hc : c.is .comma = true)
    (hargs : ReadsSlots E args us) : ReadsSlots E (arg :: args) (ts ++ c :: us) := by
  rcases h with ⟨N, h⟩
  rcases hargs with ⟨N', hargs⟩
  refine ⟨max N N', ?_⟩
  intro n hn r rest errs a hr
  have hnext : (c.is .comma || c.is .rParen) = true := by rw [hc, Bool.true_or]
  rcases h n (by omega) (c :: (us ++ r :: rest)) errs a (before_closer hc (by decide) _) hnext with
    ⟨arg', a', hbare, hslot⟩
  rcases hargs n (by omega) r rest errs a' hr with ⟨args', a'', hbare', hlen, hslots⟩
  refine ⟨arg' :: args', a'', ?_, congrArg Nat.succ hlen, ?_⟩
  · rw [bareSlots_cons, bareSlots_cons arg, hbare, hbare']
  · rw [List.append_assoc]
    exact .cons hslot hc hslots

/-- The tokens are the elements of an initialiser list. -/
def ReadsKids (E : ParseEnv) (es : List Expr) (ts : List Token) : Prop :=
  Starts 13 ts ∧ ∃ N, ∀ n m, N ≤ n → N ≤ m → ∀ acc r rest errs a, r.is .rBrace = true → ∃ es' a',
    Expr.bareKids es' = Expr.bareKids es ∧
    initListRest (parseAssign E n) m acc ⟨ts ++ r :: rest, errs, a⟩ =
      some (acc ++ es', ⟨r :: rest, errs, a'⟩)

theorem is_zero_cons (p : P) (t : Token) (us : List Token) (errs : List (SrcLoc × String)) (a : Nat) :
    is p 0 ⟨t :: us, errs, a⟩ = some (t.is p, ⟨t :: us, errs, a⟩) := rfl

theorem reads_kidsLast (h : ReadsAs E 13 e ts) : ReadsKids E [e] ts := by
  refine ⟨h.starts, ?_⟩
  rcases h.takes with ⟨N, h⟩
  refine ⟨N + 1, ?_⟩
  intro n m hn hm acc r rest errs a hr
  rcases Nat.exists_eq_add_of_le' hm with ⟨i, rfl⟩
  rcases h n (by omega) (r :: rest) errs a (before_closer hr (by decide) rest) with
    ⟨e', a', hbare, hrun⟩
  refine ⟨[e'], a', ?_, ?_⟩
  · exact congrArg (fun b => [b]) hbare
  have hrun : parseAssign E n ⟨ts ++ r :: rest, errs, a⟩ = some (e', ⟨r :: rest, errs, a'⟩) := hrun
  have haccept : accept .comma ⟨r :: rest, errs, a'⟩ = some (false, ⟨r :: rest, errs, a'⟩) :=
    accept_false (is_other hr (by decide))
  rw [← Nat.add_assoc]
  rw [initListRest_succ]
  rw [parse_bind_some hrun, parse_bind_some haccept]
  rfl

/-- An element and a comma. -/
theorem initListRest_comma {c t : Token} (hc : c.is .comma = true) {n : Nat} {e' : Expr}
    {us : List Token} {errs : List (SrcLoc × String)} {a a' : Nat} (m : Nat) (acc : List Expr)
    (h : parseAssign E n ⟨ts ++ c :: t :: us, errs, a⟩ = some (e', ⟨c :: t :: us, errs, a'⟩)) :
    initListRest (parseAssign E n) (m + 1) acc ⟨ts ++ c :: t :: us, errs, a⟩ =
      if t.is .rBrace then some (acc ++ [e'], ⟨t :: us, errs, a'⟩)
      else initListRest (parseAssign E n) m (acc ++ [e']) ⟨t :: us, errs, a'⟩ := by
  have haccept : accept .comma ⟨c :: t :: us, errs, a'⟩ = some (true, ⟨t :: us, errs, a'⟩) :=
    accept_true hc
  rw [initListRest_succ]
  rw [parse_bind_some h, parse_bind_some haccept, if_pos rfl, parse_bind_some (is_zero_cons ..)]
  split <;> rfl

theorem reads_kidsComma {c : Token} (h : ReadsAs E 13 e ts) (hc : c.is .comma = true) :
    ReadsKids E [e] (ts ++ [c]) := by
  refine ⟨h.starts.append _, ?_⟩
  rcases h.takes with ⟨N, h⟩
  refine ⟨N + 1, ?_⟩
  intro n m hn hm acc r rest errs a hr
  rcases Nat.exists_eq_add_of_le' hm with ⟨i, rfl⟩
  rcases h n (by omega) (c :: r :: rest) errs a (before_closer hc (by decide) _) with
    ⟨e', a', hbare, hrun⟩
  refine ⟨[e'], a', ?_, ?_⟩
  · exact congrArg (fun b => [b]) hbare
  rw [← Nat.add_assoc, List.append_assoc]
  exact (initListRest_comma hc _ acc hrun).trans (if_pos hr)

theorem reads_kidsCons {c : Token} {es : List Expr} {us : List Token} (h : ReadsAs E 13 e ts)
    (hc : c.is .comma = true) (hes : ReadsKids E es us) : ReadsKids E (e :: es) (ts ++ c :: us) := by
  rcases hes with ⟨hstarts, N', hes⟩
  refine ⟨h.starts.append _, ?_⟩
  rcases h.takes with ⟨N, h⟩
  refine ⟨max N N' + 1, ?_⟩
  intro n m hn hm acc r rest errs a hr
  rcases Nat.exists_eq_add_of_le' hm with ⟨i, rfl⟩
  rcases h n (by omega) (c :: (us ++ r :: rest)) errs a (before_closer hc (by decide) _) with
    ⟨e', a', hbare, hrun⟩
  rcases hes n (i + max N N') (by omega) (by omega) (acc ++ [e']) r rest errs a' hr with
    ⟨es', a'', hbare', hkids⟩
  refine ⟨e' :: es', a'', ?_, ?_⟩
  · rw [Expr.bareKids, Expr.bareKids, hbare, hbare']
  have hbrace : ((us ++ r :: rest).headD eofToken).is .rBrace = false :=
    hstarts.is_false (by decide)
  rcases hstarts with ⟨t, vs, rfl, -⟩
  have hbrace : t.is .rBrace = false := hbrace
  rw [← Nat.add_assoc, List.append_assoc]
  refine (initListRest_comma hc _ acc hrun).trans ?_
  rw [hbrace, if_neg Bool.false_ne_true]
  refine hkids.trans ?_
  rw [List.append_assoc]
  rfl

/-- The braces of an initialiser list. -/
theorem reads_braces {l r : Token} {es : List Expr} (ts : List Token) (n : Node) (hl : l.is .lBrace = true)
    (h : ∃ N, ∀ k, N ≤ k → ∀ rest errs a, ∃ es' a', Expr.bareKids es' = Expr.bareKids es ∧
      parseInitList E (parseAssign E k) k ⟨l :: (ts ++ [r] ++ rest), errs, a⟩ =
        some (.initList ⟨l.loc, a⟩ es', ⟨rest, errs, a'⟩)) :
    ReadsAs E 0 (.initList n es) (l :: (ts ++ [r])) := by
  rcases is_iff.mp hl with ⟨hkind, hpunct⟩
  have hstarts : Starts 0 (l :: (ts ++ [r])) := by
    refine ⟨l, _, rfl, by rw [hkind]; decide, ?_, ?_⟩
    · intro _
      rw [hpunct]
      exact List.mem_cons_of_mem _ List.mem_cons_self
    · intro _ hop
      rw [hpunct] at hop
      exact absurd hop.2 (by decide)
  rcases h with ⟨N, h⟩
  refine .primary hstarts ⟨N, ?_⟩
  intro k hk rest errs a _
  rcases h k hk rest errs a with ⟨es', a', hbare, hrun⟩
  refine ⟨.initList ⟨l.loc, a⟩ es', a', ?_, ?_⟩
  · rw [Expr.bare, Expr.bare, hbare]
  change primaryStep E (parseAssign E k) k ⟨l :: (ts ++ [r] ++ rest), errs, a⟩ = _
  unfold primaryStep
  rw [parse_bind_some (tok_cons ..)]
  simp only [hkind, hpunct, reduceCtorEq, if_false, if_true]
  exact hrun

theorem reads_initNil {l r : Token} (n : Node) (hl : l.is .lBrace = true)
    (hr : r.is .rBrace = true) : ReadsAs E 0 (.initList n []) [l, r] := by
  refine reads_braces [] n hl ⟨0, ?_⟩
  intro k _ rest errs a
  refine ⟨[], a + 1, rfl, ?_⟩
  have htake : take ⟨l :: r :: rest, errs, a⟩ = some (l, ⟨r :: rest, errs, a⟩) := rfl
  have hnode : mkE l.loc ⟨r :: rest, errs, a⟩ = some (⟨l.loc, a⟩, ⟨r :: rest, errs, a + 1⟩) := rfl
  have haccept : accept .rBrace ⟨r :: rest, errs, a + 1⟩ = some (true, ⟨rest, errs, a + 1⟩) :=
    accept_true hr
  change parseInitList E (parseAssign E k) k ⟨l :: r :: rest, errs, a⟩ = _
  unfold parseInitList
  rw [parse_bind_some htake, parse_bind_some hnode, parse_bind_some haccept]
  rfl

theorem reads_initList {l r : Token} {es : List Expr} (n : Node) (hl : l.is .lBrace = true)
    (hr : r.is .rBrace = true) (h : ReadsKids E es ts) :
    ReadsAs E 0 (.initList n es) (l :: (ts ++ [r])) := by
  rcases h with ⟨hstarts, N, h⟩
  refine reads_braces ts n hl ⟨N, ?_⟩
  intro k hk rest errs a
  rcases h k k hk hk [] r rest errs (a + 1) hr with ⟨es', a', hbare, hkids⟩
  refine ⟨es', a', hbare, ?_⟩
  have htake : take ⟨l :: (ts ++ r :: rest), errs, a⟩ = some (l, ⟨ts ++ r :: rest, errs, a⟩) := rfl
  have hnode : mkE l.loc ⟨ts ++ r :: rest, errs, a⟩ =
    some (⟨l.loc, a⟩, ⟨ts ++ r :: rest, errs, a + 1⟩) := rfl
  have haccept : accept .rBrace ⟨ts ++ r :: rest, errs, a + 1⟩ =
      some (false, ⟨ts ++ r :: rest, errs, a + 1⟩) :=
    accept_false (hstarts.is_false (by decide))
  have hlist : l :: (ts ++ [r] ++ rest) = l :: (ts ++ r :: rest) := by simp
  rw [hlist]
  unfold parseInitList
  rw [parse_bind_some htake, parse_bind_some hnode, parse_bind_some haccept,
    if_neg Bool.false_ne_true, parse_bind_some hkids, parse_bind_some (expect_cons hr ..)]
  rfl

end Reading

/-! ## The grammar -/

/-- The tokens of a form are read as the form. -/
def ReadsForm (E : ParseEnv) : Form → List Token → Prop
  | .expr k e, ts => ReadsAs E k e ts
  | .more es, ts => ReadsMore E es ts
  | .slot arg, ts => ReadsSlot E arg ts
  | .slots args, ts => ReadsSlots E args ts
  | .kids es, ts => ReadsKids E es ts

/-- By induction on the grammar: the parser reads what is spelled. -/
theorem Spelled.reads {E : ParseEnv} {f : Form} {ts : List Token} (h : Spelled E f ts) :
    ReadsForm E f ts := by
  induction h with
  | intLit n h => exact reads_intLit n h
  | floatLit n h => exact reads_floatLit n h
  | charLit n h => exact reads_charLit n h
  | strLit n h => exact reads_strLit n h
  | ident n h hkey => exact reads_ident n h hkey
  | lastClass n h => exact reads_lastClass n h
  | paren hl hr _ ih => exact reads_paren hl hr ih
  | initNil n hl hr => exact reads_initNil n hl hr
  | initList n hl hr _ ih => exact reads_initList n hl hr ih
  | sizeofType n hkw hl ht hty hss hr => exact reads_sizeofType n hkw hl ht hty hss hr
  | sizeofMember n hkw hl hc hd ht hm hr => exact reads_sizeofMember n hkw hl hc hd ht hm hr
  | sizeofExpr n hkw hl ht hclass _ hr ih => exact reads_sizeofExpr n hkw hl ht hclass ih hr
  | offsetOf n hkw hl hc hd ht hr => exact reads_offsetOf n hkw hl hc hd ht hr
  | cast n _ hl ht hty hss hr ih => exact reads_cast n ih hl ht hty hss hr
  | call n _ hl _ hr hcast ih ihargs => exact reads_call n ih hl ihargs hr hcast
  | index n _ hl _ hr ih ihi => exact reads_index n ih hl ihi hr
  | member n _ hop ht ih => exact reads_member n ih hop ht
  | post n _ hop ih => exact reads_post n ih hop
  | pre n hop _ ih => exact reads_pre n hop ih
  | binary n hk _ hop _ iha ihb => exact reads_binary n hk iha hop ihb
  | chainCmp n _ _ ih ihes => exact reads_chainCmp n ih ihes
  | assign n _ hop _ iha ihb => exact reads_assign n iha hop ihb
  | lift hk _ ih => exact ReadsAs.lift hk ih
  | moreLast hop _ ih => exact reads_moreLast hop ih
  | moreCons hop _ _ ih ihes => exact reads_moreCons hop ih ihes
  | skipped => exact reads_skipped
  | filled _ ih => exact reads_filled ih
  | slotsLast _ ih => exact reads_slotsLast ih
  | slotsCons _ hc _ ih ihargs => exact reads_slotsCons ih hc ihargs
  | kidsLast _ ih => exact reads_kidsLast ih
  | kidsComma _ hc ih => exact reads_kidsComma ih hc
  | kidsCons _ hc _ ih ihes => exact reads_kidsCons ih hc ihes

/-- `parseExpr` reads the tokens of an expression, up to what does not go on with it. -/
theorem parseExpr_spelled {E : ParseEnv} {e : Expr} {ts : List Token}
    (h : Spelled E (.expr 13 e) ts) : ∃ N, ∀ n, N ≤ n → ∀ rest errs a, Before 14 rest →
      ∃ e' a', e'.bare = e.bare ∧
        parseExpr E n ⟨ts ++ rest, errs, a⟩ = some (e', ⟨rest, errs, a'⟩) :=
  (Spelled.reads h).takes

/-- The grammar is unambiguous. -/
theorem Spelled.unique {E : ParseEnv} {e e' : Expr} {ts : List Token}
    (h : Spelled E (.expr 13 e) ts) (h' : Spelled E (.expr 13 e') ts) : e.bare = e'.bare := by
  rcases parseExpr_spelled h with ⟨N, h⟩
  rcases parseExpr_spelled h' with ⟨N', h'⟩
  have hstop : Before 14 [Token.ofPunct .semi] :=
    before_closer (p := .semi) rfl (by decide) []
  rcases h (max N N') (Nat.le_max_left _ _) _ [] 0 hstop with ⟨x, a, hx, hrun⟩
  rcases h' (max N N') (Nat.le_max_right _ _) _ [] 0 hstop with ⟨x', a', hx', hrun'⟩
  rw [hrun] at hrun'
  rcases Prod.mk.inj (Option.some.inj hrun') with ⟨rfl, -⟩
  rw [← hx, hx']

end Hlang.Parser
