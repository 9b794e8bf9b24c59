import Hlang.Parser.Reread

/-!
# Hlang.Parser.Accepted — what is parsed without a diagnostic is spelled

Diagnostics are never taken back, so where none is new after `parseExpr` none was reported on the
way. The tokens that are gone then are the expression of the grammar that the parser gives.
-/

namespace Hlang.Parser

open Lexer (eofToken)

/-! ## Diagnostics -/

/-- `x` takes no diagnostic back. -/
def Grows {α : Type} (x : Parse α) : Prop := ∀ s a s', x s = some (a, s') → s.errors <+: s'.errors

section Grows

variable {α β : Type} {x : Parse α} {f : α → Parse β} {E : ParseEnv} {expr sub unary : Parse Expr}

theorem Grows.bind (hx : Grows x) (hf : ∀ a, Grows (f a)) : Grows (x >>= f) := by
  intro s b s' h
  rcases Option.bind_eq_some_iff.mp h with ⟨⟨a, s₁⟩, ha, hb⟩
  exact (hx s a s₁ ha).trans (hf a s₁ b s' hb)

theorem Grows.pure (a : α) : Grows (Pure.pure a : Parse α) := by
  intro s b s' h
  rcases Prod.mk.inj (Option.some.inj h) with ⟨-, rfl⟩
  exact List.prefix_refl _

theorem Grows.ite {c : Prop} [Decidable c] {y z : Parse α} (hy : Grows y) (hz : Grows z) :
    Grows (if c then y else z) := by
  split
  · exact hy
  · exact hz

theorem grows_stuck : Grows (stuck : Parse α) := fun _ _ _ h => by cases h

theorem grows_tok (k : Nat) : Grows (tok k) := by
  intro s a s' h
  rcases Prod.mk.inj (Option.some.inj h) with ⟨-, rfl⟩
  exact List.prefix_refl _

theorem grows_take : Grows take := by
  intro s a s' h
  rcases Prod.mk.inj (Option.some.inj h) with ⟨-, rfl⟩
  exact List.prefix_refl _

theorem grows_is (p : P) (k : Nat) : Grows (is p k) := (grows_tok k).bind fun _ => .pure _

theorem grows_mkE (loc : SrcLoc) : Grows (mkE loc) := by
  intro s a s' h
  rcases Prod.mk.inj (Option.some.inj h) with ⟨-, rfl⟩
  exact List.prefix_refl _

theorem grows_error (loc : SrcLoc) (msg : String) : Grows (error loc msg) := by
  intro s a s' h
  rcases Prod.mk.inj (Option.some.inj h) with ⟨-, rfl⟩
  exact List.prefix_append _ _

theorem grows_accept (p : P) : Grows (accept p) :=
  (grows_is p 0).bind fun _ => .ite (grows_take.bind fun _ => .pure _) (.pure _)

theorem grows_expect (p : P) (what : String) : Grows (expect E p what) := by
  refine (grows_accept p).bind fun _ => .ite (.pure _) ((grows_tok 0).bind fun t => ?_)
  exact (grows_error _ _).bind fun _ => .ite (.pure _) (grows_take.bind fun _ => .pure _)

theorem grows_parseBaseType : Grows (parseBaseType E) := by
  refine grows_take.bind fun t => ?_
  have htail : ∀ ty, Grows (do
      let n := starCount (← get).toks
      modify fun s => { s with toks := s.toks.drop n }
      return stars n ty : Parse Ty) := by
    intro ty s a s' h
    rcases Prod.mk.inj (Option.some.inj h) with ⟨-, rfl⟩
    exact List.prefix_refl _
  dsimp only
  split
  · exact htail _
  · exact (grows_error _ _).bind fun _ => htail _

theorem grows_looksLikeCast : Grows (looksLikeCast E) := by
  intro s a s' h
  rcases Prod.mk.inj (Option.some.inj h) with ⟨-, rfl⟩
  exact List.prefix_refl _

theorem grows_binaryRest (hsub : Grows sub) (ops : List P) : ∀ (n : Nat) (e : Expr),
    Grows (binaryRest sub ops n e) := by
  intro n
  induction n with
  | zero => exact fun _ => grows_stuck
  | succ n ih =>
      intro e
      refine (grows_tok 0).bind fun t => .ite (grows_take.bind fun op => ?_) (.pure _)
      exact hsub.bind fun rhs => (grows_mkE _).bind fun node => ih _

theorem grows_binaryLoop (hsub : Grows sub) (n : Nat) (ops : List P) :
    Grows (binaryLoop n sub ops) := hsub.bind fun e => grows_binaryRest hsub ops n e

theorem grows_relRest (hsub : Grows sub) : ∀ (n : Nat) (es : List (P × Expr)),
    Grows (relRest sub n es) := by
  intro n
  induction n with
  | zero => exact fun _ => grows_stuck
  | succ n ih =>
      intro es
      refine (grows_tok 0).bind fun t => .ite (grows_take.bind fun op => ?_) (.pure _)
      exact hsub.bind fun kid => ih _

theorem grows_tier (hunary : Grows unary) (n : Nat) : ∀ k, Grows (tier n unary k) := by
  have hpow : Grows (parsePow n unary) := grows_binaryLoop hunary n _
  have hmul : Grows (parseMul n unary) := grows_binaryLoop hpow n _
  have hband : Grows (parseBand n unary) := grows_binaryLoop hmul n _
  have hbxor : Grows (parseBxor n unary) := grows_binaryLoop hband n _
  have hbor : Grows (parseBor n unary) := grows_binaryLoop hbxor n _
  have hadd : Grows (parseAdd n unary) := grows_binaryLoop hbor n _
  have hrel : Grows (parseRel n unary) := by
    refine hadd.bind fun first => (grows_tok 0).bind fun t => .ite ?_ (.pure _)
    exact (grows_mkE _).bind fun node => (grows_relRest hadd n _).bind fun _ => .pure _
  have heq : Grows (parseEq n unary) := grows_binaryLoop hrel n _
  have hland : Grows (parseLand n unary) := grows_binaryLoop heq n _
  have hlxor : Grows (parseLxor n unary) := grows_binaryLoop hland n _
  have hlor : Grows (parseLor n unary) := grows_binaryLoop hlxor n _
  intro k
  unfold tier
  split
  all_goals assumption

theorem grows_assignStep (hexpr : Grows expr) {lor : Parse Expr} (hlor : Grows lor) :
    Grows (assignStep expr lor) := by
  refine hlor.bind fun lhs => (grows_tok 0).bind fun t => .ite (grows_take.bind fun op => ?_) ?_
  · exact hexpr.bind fun rhs => (grows_mkE _).bind fun node => .pure _
  · refine .ite ((grows_error _ _).bind fun _ => grows_take.bind fun _ => hexpr.bind fun _ => ?_)
      (.pure _)
    exact (grows_accept _).bind fun _ => .ite (hexpr.bind fun _ => .pure _) (.pure _)

theorem grows_unaryStep (hunary : Grows unary) {postfixed : Parse Expr} (hpost : Grows postfixed) :
    Grows (unaryStep unary postfixed) := by
  refine (grows_tok 0).bind fun t => .ite (grows_take.bind fun op => ?_) hpost
  exact (grows_mkE _).bind fun node => hunary.bind fun _ => .pure _

theorem grows_callArgsRest (hexpr : Grows expr) : ∀ (n : Nat) (args : List (Option Expr)),
    Grows (callArgsRest E expr n args) := by
  intro n
  induction n with
  | zero => exact fun _ => grows_stuck
  | succ n ih =>
      intro args
      have hslot : ∀ arg, Grows (do
          if ← accept .comma then callArgsRest E expr n (args ++ [arg])
          else
            expect E .rParen "after call arguments"
            return args ++ [arg]) := fun arg =>
        (grows_accept _).bind fun _ => .ite (ih _) ((grows_expect _ _).bind fun _ => .pure _)
      refine (grows_tok 0).bind fun t => ?_
      dsimp only
      split
      · exact hslot none
      · exact hexpr.bind fun e => (Grows.pure (some e)).bind hslot

theorem grows_parseCallArgs (hexpr : Grows expr) (n : Nat) : Grows (parseCallArgs E expr n) :=
  (grows_accept _).bind fun _ => .ite (.pure _) (grows_callArgsRest hexpr n _)

theorem grows_postfixRest (hexpr : Grows expr) : ∀ (n : Nat) (e : Expr),
    Grows (postfixRest E expr n e) := by
  intro n
  induction n with
  | zero => exact fun _ => grows_stuck
  | succ n ih =>
      intro e
      refine (grows_tok 0).bind fun t => grows_looksLikeCast.bind fun _ => .ite ?_ (.ite ?_ (.ite ?_
        (.ite ?_ (.ite ?_ (.pure _)))))
      · exact grows_take.bind fun _ => grows_parseBaseType.bind fun _ => (grows_expect _ _).bind
          fun _ => (grows_mkE _).bind fun _ => ih _
      · exact grows_take.bind fun _ => (grows_mkE _).bind fun _ =>
          (grows_parseCallArgs hexpr n).bind fun _ => ih _
      · exact grows_take.bind fun _ => (grows_mkE _).bind fun _ => hexpr.bind fun _ =>
          (grows_expect _ _).bind fun _ => ih _
      · refine grows_take.bind fun _ => (grows_tok 0).bind fun _ => .ite ?_ ?_
        · exact (grows_error _ _).bind fun _ => .pure _
        · exact grows_take.bind fun _ => (grows_mkE _).bind fun _ => ih _
      · exact grows_take.bind fun _ => (grows_mkE _).bind fun _ => ih _

theorem grows_adjacent : ∀ (n : Nat) (text : String), Grows (adjacent n text) := by
  intro n
  induction n with
  | zero => exact fun _ => grows_stuck
  | succ n ih =>
      exact fun _ => (grows_tok 0).bind fun _ => .ite (grows_take.bind fun _ => ih _) (.pure _)

theorem grows_initListRest (hexpr : Grows expr) : ∀ (n : Nat) (kids : List Expr),
    Grows (initListRest expr n kids) := by
  intro n
  induction n with
  | zero => exact fun _ => grows_stuck
  | succ n ih =>
      exact fun _ => hexpr.bind fun _ => (grows_accept _).bind fun _ =>
        .ite ((grows_is _ _).bind fun _ => .ite (.pure _) (ih _)) (.pure _)

theorem grows_parseInitList (hexpr : Grows expr) (n : Nat) : Grows (parseInitList E expr n) :=
  grows_take.bind fun _ => (grows_mkE _).bind fun _ => (grows_accept _).bind fun _ =>
    .ite (.pure _) ((grows_initListRest hexpr n _).bind fun _ => (grows_expect _ _).bind
      fun _ => .pure _)

theorem grows_sizeofMember (n : Nat) (loc : SrcLoc) (c : String) : Grows (sizeofMember E n loc c) := by
  refine grows_take.bind fun _ => grows_take.bind fun _ => (grows_tok 0).bind fun t => .ite ?_ ?_
  · exact (grows_error _ _).bind fun _ => .pure _
  · refine grows_take.bind fun _ => ?_
    split
    · exact .pure _
    · exact (grows_error _ _).bind fun _ => .pure _
    · exact grows_stuck

theorem grows_sizeofOperand (hexpr : Grows expr) (n : Nat) (loc : SrcLoc) :
    Grows (sizeofOperand E expr n loc) := by
  refine (grows_tok 0).bind fun t => .ite ?_ (.ite ?_ ?_)
  · exact (grows_mkE _).bind fun _ => grows_parseBaseType.bind fun _ => .pure _
  · refine (grows_mkE _).bind fun _ => (grows_is _ _).bind fun _ => .ite ?_ ?_
    · exact (grows_sizeofMember n _ _).bind fun _ => .pure _
    · exact grows_parseBaseType.bind fun _ => .pure _
  · exact (grows_mkE _).bind fun _ => hexpr.bind fun _ => .pure _

theorem grows_parseSizeof (hexpr : Grows expr) (n : Nat) : Grows (parseSizeof E expr n) :=
  grows_take.bind fun _ => (grows_expect _ _).bind fun _ => (grows_sizeofOperand hexpr n _).bind
    fun _ => (grows_expect _ _).bind fun _ => .pure _

theorem grows_offsetOperand : Grows (offsetOperand E) := by
  refine (grows_tok 0).bind fun t => .ite ((grows_error _ _).bind fun _ => .pure _) ?_
  refine grows_take.bind fun _ => (grows_expect _ _).bind fun _ => (grows_tok 0).bind fun m => .ite ?_ ?_
  · exact grows_take.bind fun _ => .pure _
  · exact (grows_error _ _).bind fun _ => .pure _

theorem grows_parseOffset : Grows (parseOffset E) :=
  grows_take.bind fun _ => (grows_expect _ _).bind fun _ => (grows_mkE _).bind fun _ =>
    grows_offsetOperand.bind fun _ => (grows_expect _ _).bind fun _ => .pure _

theorem grows_noExpr (t : Token) : Grows (noExpr E t) :=
  (grows_error _ _).bind fun _ => .ite ((grows_mkE _).bind fun _ => .pure _)
    (grows_take.bind fun _ => (grows_mkE _).bind fun _ => .pure _)

theorem grows_primaryStep (hexpr : Grows expr) (n : Nat) : Grows (primaryStep E expr n) := by
  have hleaf : ∀ (t : Token) (g : Node → Expr), Grows (do
      let _ ← take
      return g (← mkE t.loc)) := fun _ _ =>
    grows_take.bind fun _ => (grows_mkE _).bind fun _ => .pure _
  refine (grows_tok 0).bind fun t => ?_
  split
  · exact hleaf t _
  · exact hleaf t _
  · exact hleaf t _
  · exact grows_take.bind fun _ => (grows_mkE _).bind fun _ => (grows_adjacent n _).bind
      fun _ => .pure _
  · exact .ite (grows_parseSizeof hexpr n) (.ite grows_parseOffset (.ite (hleaf t _) (hleaf t _)))
  · refine .ite ?_ (.ite (grows_parseInitList hexpr n) (.ite ?_ (grows_noExpr t)))
    · exact grows_take.bind fun _ => hexpr.bind fun _ => (grows_expect _ _).bind fun _ => .pure _
    · exact grows_take.bind fun _ => (grows_error _ _).bind fun _ => (grows_mkE _).bind
        fun _ => .pure _
  · exact grows_noExpr t

/-- By induction on the bound, both functions that call each other. -/
theorem grows_parse (E : ParseEnv) : ∀ n, Grows (parseAssign E n) ∧ Grows (parseUnary E n) := by
  intro n
  induction n with
  | zero =>
      rw [parseAssign_zero, parseUnary_zero]
      exact ⟨grows_stuck, grows_stuck⟩
  | succ n ih =>
      constructor
      · rw [parseAssign_succ]
        exact grows_assignStep ih.1 (grows_tier ih.2 n 12)
      · rw [parseUnary_succ]
        exact grows_unaryStep ih.2 ((grows_primaryStep ih.1 n).bind fun e =>
          grows_postfixRest ih.1 n e)

end Grows

/-! ## Tokens -/

/-- Where `x` reports nothing from `s` on, `Q` holds of what it returns and of the tokens that it
reads. -/
def Yields {α : Type} (x : Parse α) (s : PState) (Q : α → List Token → Prop) : Prop :=
  ∀ a s', x s = some (a, s') → s'.errors = s.errors → ∃ ts, s.toks = ts ++ s'.toks ∧ Q a ts

section Yields

variable {α β : Type} {x : Parse α} {f : α → Parse β} {s : PState} {Q : α → List Token → Prop}
  {R : β → List Token → Prop} {E : ParseEnv}

theorem Yields.mono {Q' : α → List Token → Prop} (h : Yields x s Q)
    (hQ : ∀ a ts, Q a ts → Q' a ts) : Yields x s Q' := by
  intro a s' hrun herr
  rcases h a s' hrun herr with ⟨ts, htoks, hq⟩
  exact ⟨ts, htoks, hQ a ts hq⟩

theorem Yields.pure {a : α} (h : Q a []) : Yields (Pure.pure a) s Q := by
  intro b s' hrun _
  rcases Prod.mk.inj (Option.some.inj hrun) with ⟨rfl, rfl⟩
  exact ⟨[], rfl, h⟩

theorem Yields.stuck : Yields stuck s Q := fun _ _ h => by cases h

theorem Yields.bind (hx : Grows x) (hf : ∀ a, Grows (f a)) (h : Yields x s Q)
    (h' : ∀ a us s', s.toks = us ++ s'.toks → Q a us →
      Yields (f a) s' fun b vs => R b (us ++ vs)) : Yields (x >>= f) s R := by
  intro b s' hrun herr
  rcases Option.bind_eq_some_iff.mp hrun with ⟨⟨a, s₁⟩, ha, hb⟩
  -- nothing is reported in between
  have hle : s₁.errors <+: s.errors := herr ▸ hf a s₁ b s' hb
  have herr₁ : s₁.errors = s.errors := by
    refine List.IsPrefix.eq_of_length hle (Nat.le_antisymm hle.length_le ?_)
    exact (hx s a s₁ ha).length_le
  rcases h a s₁ ha herr₁ with ⟨us, hus, hq⟩
  rcases h' a us s₁ hus hq b s' hb (herr.trans herr₁.symm) with ⟨vs, hvs, hr⟩
  refine ⟨us ++ vs, ?_, hr⟩
  rw [hus, hvs, List.append_assoc]

theorem head_cons (h : s.toks ≠ []) : s.toks = s.head :: s.tail.toks := by
  rcases List.exists_cons_of_ne_nil h with ⟨t, ts, hts⟩
  unfold PState.head PState.tail
  rw [hts]
  rfl

theorem ne_nil_of_kind (h : s.head.kind ≠ .eof) : s.toks ≠ [] := by
  intro hnil
  unfold PState.head at h
  rw [hnil] at h
  exact h rfl

section Steps

variable {g : Token → Parse β}

theorem Yields.tok (h : Yields (g s.head) s R) : Yields (tok 0 >>= g) s R := h

theorem Yields.take_cons (hne : s.toks ≠ [])
    (h : Yields (g s.head) s.tail fun b us => R b (s.head :: us)) : Yields (take >>= g) s R := by
  intro b s' hrun herr
  rcases h b s' hrun herr with ⟨us, hus, hr⟩
  refine ⟨s.head :: us, ?_, hr⟩
  rw [head_cons hne, hus]
  rfl

theorem Yields.take (hkind : s.head.kind ≠ .eof)
    (h : Yields (g s.head) s.tail fun b us => R b (s.head :: us)) : Yields (take >>= g) s R :=
  .take_cons (ne_nil_of_kind hkind) h

/-- Looking at the token behind the next. -/
theorem Yields.is_one {g : Bool → Parse β} {p : P} (h : Yields (g (s.tail.head.is p)) s R) :
    Yields (is p 1 >>= g) s R := by
  have his : is p 1 s = some (s.tail.head.is p, s) := by
    unfold PState.head PState.tail
    rw [← List.drop_one]
    rfl
  intro b s' hrun herr
  rw [parse_bind_some his] at hrun
  exact h b s' hrun herr

theorem Yields.mkE {g : Node → Parse β} {loc : SrcLoc}
    (h : ∀ n k, Yields (g n) { s with next := k } R) : Yields (mkE loc >>= g) s R :=
  fun b s' hrun herr => h ⟨loc, s.next⟩ (s.next + 1) b s' hrun herr

/-- A diagnostic. -/
theorem Yields.error {g : Unit → Parse β} {loc : SrcLoc} {msg : String} (hg : ∀ u, Grows (g u)) :
    Yields (error loc msg >>= g) s R := by
  intro b s' hrun herr
  have hle := (hg () { s with errors := s.errors ++ [(loc, msg)] } b s' hrun).length_le
  rw [herr, List.length_append] at hle
  exact absurd hle (by simp)

theorem is_kind {t : Token} {p : P} (h : t.is p = true) : t.kind ≠ .eof := by
  rw [(is_iff.mp h).1]
  decide

/-- A token that is expected is there. -/
theorem Yields.expect {g : Unit → Parse β} {p : P} {what : String} (hg : ∀ u, Grows (g u))
    (h : s.head.is p = true → Yields (g ()) s.tail fun b us => R b (s.head :: us)) :
    Yields (expect E p what >>= g) s R := by
  cases hp : s.head.is p with
  | true =>
      have hexpect : Parser.expect E p what s = some ((), s.tail) := by
        unfold Parser.expect
        rw [parse_bind_some (accept_true hp)]
        rfl
      intro b s' hrun herr
      rw [parse_bind_some hexpect] at hrun
      rcases h hp b s' hrun herr with ⟨us, hus, hr⟩
      refine ⟨s.head :: us, ?_, hr⟩
      rw [head_cons (ne_nil_of_kind (is_kind hp)), hus]
      rfl
  | false =>
      have hcode : (Parser.expect E p what >>= g) s = ((do
          let t ← Parser.tok 0
          Parser.error t.loc ("expected '" ++ Lexer.punctStr p ++ "' " ++ what ++ " (got '" ++
            E.describe t ++ "')")
          if t.kind = .eof then return ()
          else
            let _ ← Parser.take
            return ()) >>= g) s := by
        unfold Parser.expect
        rw [bind_assoc, parse_bind_some (accept_false hp)]
        rfl
      have herror : Yields ((do
          let t ← Parser.tok 0
          Parser.error t.loc ("expected '" ++ Lexer.punctStr p ++ "' " ++ what ++ " (got '" ++
            E.describe t ++ "')")
          if t.kind = .eof then return ()
          else
            let _ ← Parser.take
            return ()) >>= g) s R := by
        rw [bind_assoc]
        refine .tok ?_
        rw [bind_assoc]
        refine .error fun _ => ?_
        exact (Grows.ite (.pure _) (grows_take.bind fun _ => .pure _)).bind hg
      intro b s' hrun herr
      rw [hcode] at hrun
      exact herror b s' hrun herr

theorem Yields.ite {c : Prop} [Decidable c] {y z : Parse β} (hy : c → Yields y s R)
    (hz : ¬ c → Yields z s R) : Yields (if c then y else z) s R := by
  split
  · next h => exact hy h
  · next h => exact hz h

/-- A token that may be there. -/
theorem Yields.accept {g : Bool → Parse β} {p : P}
    (htrue : s.head.is p = true → Yields (g true) s.tail fun b us => R b (s.head :: us))
    (hfalse : s.head.is p = false → Yields (g false) s R) : Yields (accept p >>= g) s R := by
  cases hp : s.head.is p with
  | true =>
      intro b s' hrun herr
      rw [parse_bind_some (accept_true hp)] at hrun
      rcases htrue hp b s' hrun herr with ⟨us, hus, hr⟩
      refine ⟨s.head :: us, ?_, hr⟩
      rw [head_cons (ne_nil_of_kind (is_kind hp)), hus]
      rfl
  | false =>
      intro b s' hrun herr
      rw [parse_bind_some (accept_false hp)] at hrun
      exact hfalse hp b s' hrun herr

end Steps

end Yields

/-! ## The tiers -/

/-- What `x` gives without a diagnostic is spelled for the tier `k`. -/
def Gives (E : ParseEnv) (k : Nat) (x : Parse Expr) : Prop :=
  ∀ s, Yields x s fun e ts => Spelled E (.expr k e) ts

section Tiers

variable {E : ParseEnv} {sub unary expr : Parse Expr} {k : Nat}

theorem Gives.lift (hk : k < 13) (h : Gives E k sub) : Gives E (k + 1) sub :=
  fun s => (h s).mono fun _ _ he => .lift hk he

/-- The loop, where what is read of the left operand are the tokens `ts`. -/
theorem yields_binaryRest (hg : Grows sub) (h : Gives E k sub) (hk : LoopTier (k + 1)) :
    ∀ (m : Nat) (e : Expr) (ts : List Token) (s : PState), Spelled E (.expr (k + 1) e) ts →
      Yields (binaryRest sub (tierOps (k + 1)) m e) s fun e' us =>
        Spelled E (.expr (k + 1) e') (ts ++ us) := by
  intro m
  induction m with
  | zero => exact fun _ _ _ _ => .stuck
  | succ m ih =>
      intro e ts s he
      rw [binaryRest_succ]
      refine .tok (.ite ?_ ?_)
      · intro hop
        refine .take (by rw [hop.1]; decide) (.bind hg ?_ (h _) ?_)
        · exact fun _ => (grows_mkE _).bind fun _ => grows_binaryRest hg _ m _
        · intro b us s' _ hb
          refine .mkE fun n a => (ih _ (ts ++ s.head :: us) _ (.binary n hk he hop hb)).mono ?_
          intro e' vs h
          rw [List.append_assoc] at h
          exact h
      · intro _
        refine .pure ?_
        rw [List.append_nil]
        exact he

theorem gives_binaryLoop (hg : Grows sub) (h : Gives E k sub) (hk : LoopTier (k + 1)) (n : Nat) :
    Gives E (k + 1) (binaryLoop n sub (tierOps (k + 1))) := by
  intro s
  have hk13 : k < 13 := by
    have h12 := hk.2.1
    omega
  refine .bind hg (fun e => grows_binaryRest hg _ n e) (h s) ?_
  intro e us s' _ he
  exact yields_binaryRest hg h hk n e us s' (.lift hk13 he)

/-- The comparisons behind the first operand. -/
theorem yields_relRest (hg : Grows sub) (h : Gives E 7 sub) : ∀ (m : Nat) (acc : List (P × Expr))
    (s : PState), Yields (relRest sub m acc) s fun r ts =>
      (isRelOp s.head = false ∧ r = acc ∧ ts = []) ∨ ∃ es, r = acc ++ es ∧ Spelled E (.more es) ts := by
  intro m
  induction m with
  | zero => exact fun _ _ => .stuck
  | succ m ih =>
      intro acc s
      rw [relRest_succ]
      refine .tok (.ite ?_ ?_)
      · intro hop
        have hkind : s.head.kind = .punct := (isRelOp_iff.mp hop).1
        refine .take (by rw [hkind]; decide) (.bind hg (fun _ => grows_relRest hg m _) (h _) ?_)
        intro e us s' _ he
        refine (ih (acc ++ [(s.head.punct, e)]) s').mono ?_
        rintro r vs (⟨-, rfl, rfl⟩ | ⟨es, rfl, hes⟩)
        · refine .inr ⟨[(s.head.punct, e)], rfl, ?_⟩
          rw [List.append_nil]
          exact .moreLast hop he
        · refine .inr ⟨(s.head.punct, e) :: es, ?_, .moreCons hop he hes⟩
          rw [List.append_assoc]
          rfl
      · intro hop
        exact .pure (.inl ⟨Bool.eq_false_of_not_eq_true hop, rfl, rfl⟩)

theorem gives_parseRel {n : Nat} (hg : Grows (parseAdd n unary)) (h : Gives E 7 (parseAdd n unary)) :
    Gives E 8 (parseRel n unary) := by
  have hchain : ∀ first node, Grows (relRest (parseAdd n unary) n [] >>= fun es =>
      pure (Expr.chainCmp node first es)) := fun _ _ => (grows_relRest hg n _).bind fun _ => .pure _
  intro s
  refine .bind hg ?_ (h s) ?_
  · exact fun first => (grows_tok 0).bind fun t => .ite ((grows_mkE _).bind fun node =>
      hchain first node) (.pure _)
  · intro first us s' _ hfirst
    refine .tok (.ite ?_ ?_)
    · intro hop
      refine .mkE fun node a => .bind (grows_relRest hg n _) (fun _ => .pure _)
        (yields_relRest hg h n [] _) ?_
      rintro es vs s₂ _ (⟨hno, -⟩ | ⟨es', rfl, hes⟩)
      · have hno : isRelOp s'.head = false := hno
        rw [hop] at hno
        cases hno
      · refine .pure ?_
        rw [List.append_nil]
        exact .chainCmp node hfirst hes
    · intro _
      refine .pure ?_
      rw [List.append_nil]
      exact .lift (by decide) hfirst

/-- All tiers, over a parser of unary expressions. -/
theorem gives_tier (hg : Grows unary) (h : Gives E 1 unary) (n : Nat) :
    Gives E 12 (parseLor n unary) := by
  have hpow : Gives E 2 (parsePow n unary) := gives_binaryLoop hg h (by unfold LoopTier; omega) n
  have hmul : Gives E 3 (parseMul n unary) :=
    gives_binaryLoop (grows_tier hg n 2) hpow (by unfold LoopTier; omega) n
  have hband : Gives E 4 (parseBand n unary) :=
    gives_binaryLoop (grows_tier hg n 3) hmul (by unfold LoopTier; omega) n
  have hbxor : Gives E 5 (parseBxor n unary) :=
    gives_binaryLoop (grows_tier hg n 4) hband (by unfold LoopTier; omega) n
  have hbor : Gives E 6 (parseBor n unary) :=
    gives_binaryLoop (grows_tier hg n 5) hbxor (by unfold LoopTier; omega) n
  have hadd : Gives E 7 (parseAdd n unary) :=
    gives_binaryLoop (grows_tier hg n 6) hbor (by unfold LoopTier; omega) n
  have hrel : Gives E 8 (parseRel n unary) := gives_parseRel (grows_tier hg n 7) hadd
  have heq : Gives E 9 (parseEq n unary) :=
    gives_binaryLoop (grows_tier hg n 8) hrel (by unfold LoopTier; omega) n
  have hland : Gives E 10 (parseLand n unary) :=
    gives_binaryLoop (grows_tier hg n 9) heq (by unfold LoopTier; omega) n
  have hlxor : Gives E 11 (parseLxor n unary) :=
    gives_binaryLoop (grows_tier hg n 10) hland (by unfold LoopTier; omega) n
  exact gives_binaryLoop (grows_tier hg n 11) hlxor (by unfold LoopTier; omega) n

theorem gives_assignStep {lor : Parse Expr} (hg : Grows expr) (h : Gives E 13 expr)
    (hlor : Grows lor) (h12 : Gives E 12 lor) : Gives E 13 (assignStep expr lor) := by
  have hquestion : ∀ lhs, Grows (take >>= fun _ => expr >>= fun _ => accept .colon >>= fun c =>
      if c then expr >>= fun _ => pure lhs else pure lhs : Parse Expr) := fun _ =>
    grows_take.bind fun _ => hg.bind fun _ => (grows_accept _).bind fun _ =>
      .ite (hg.bind fun _ => .pure _) (.pure _)
  have hassign : ∀ (op : Token) lhs, Grows (expr >>= fun rhs => mkE op.loc >>= fun node =>
      pure (Expr.assign node op.punct lhs rhs) : Parse Expr) := fun _ _ =>
    hg.bind fun _ => (grows_mkE _).bind fun _ => .pure _
  intro s
  refine .bind hlor ?_ (h12 s) ?_
  · exact fun lhs => (grows_tok 0).bind fun t => .ite (grows_take.bind fun op => hassign op lhs)
      (.ite ((grows_error _ _).bind fun _ => hquestion lhs) (.pure _))
  · intro lhs us s' _ hlhs
    refine .tok (.ite ?_ ?_)
    · intro hop
      refine .take (by rw [hop.1]; decide) (.bind hg (fun _ => (grows_mkE _).bind fun _ => .pure _)
        (h _) ?_)
      intro rhs vs s₂ _ hrhs
      refine .mkE fun node a => .pure ?_
      rw [List.append_nil]
      exact .assign node hlhs hop hrhs
    · intro _
      refine .ite (fun _ => .error fun _ => hquestion lhs) ?_
      intro _
      refine .pure ?_
      rw [List.append_nil]
      exact .lift (by decide) hlhs

theorem gives_unaryStep {postfixed : Parse Expr} (hg : Grows unary) (h : Gives E 1 unary)
    (h0 : Gives E 0 postfixed) : Gives E 1 (unaryStep unary postfixed) := by
  intro s
  refine .tok (.ite ?_ ?_)
  · intro hop
    refine .take (by rw [hop.1]; decide) (.mkE fun node a => .bind hg (fun _ => .pure _) (h _) ?_)
    intro e us s' _ he
    refine .pure ?_
    rw [List.append_nil]
    exact .pre node hop he
  · intro _
    exact (h0 s).mono fun _ _ he => .lift (by decide) he

end Tiers

/-! ## Types and lists -/

section Lists

variable {E : ParseEnv} {expr : Parse Expr} {s : PState}

theorem parseBaseType_some {ty : Ty} (h : E.prog.baseTypeFor s.head.text = some ty) :
    parseBaseType E s = some (stars (starCount s.tail.toks) ty,
      { s with toks := s.tail.toks.drop (starCount s.tail.toks) }) := by
  have htake : take s = some (s.head, s.tail) := rfl
  unfold parseBaseType
  rw [parse_bind_some htake]
  simp only [h]
  rfl

theorem parseBaseType_none (h : E.prog.baseTypeFor s.head.text = none) :
    ∃ ty s', parseBaseType E s = some (ty, s') ∧ s'.errors ≠ s.errors := by
  have htake : take s = some (s.head, s.tail) := rfl
  refine ⟨stars (starCount s.tail.toks) .i64, { s with
    toks := s.tail.toks.drop (starCount s.tail.toks)
    errors := s.errors ++ [(s.head.loc, "unknown type '" ++ s.head.text ++ "'")] }, ?_, ?_⟩
  · unfold parseBaseType
    rw [parse_bind_some htake]
    simp only [h]
    rfl
  · exact fun heq => List.cons_ne_nil _ _ (List.append_right_eq_self.mp heq)

/-- `parseBaseType` reads a name and stars; at the end there is nothing to read. -/
theorem yields_parseBaseType : Yields (parseBaseType E) s fun ty ts => s.toks = [] ∨
    ∃ ss ty₀, ts = s.head :: ss ∧ E.prog.baseTypeFor s.head.text = some ty₀ ∧
      (∀ u ∈ ss, u.is .star = true) ∧ ty = stars ss.length ty₀ := by
  intro ty s' hrun herr
  cases hty : E.prog.baseTypeFor s.head.text with
  | none =>
      rcases parseBaseType_none hty with ⟨ty', s₁, hrun', hne⟩
      rw [hrun'] at hrun
      rcases Prod.mk.inj (Option.some.inj hrun) with ⟨-, rfl⟩
      exact absurd herr hne
  | some ty₀ =>
      rw [parseBaseType_some hty] at hrun
      rcases Prod.mk.inj (Option.some.inj hrun) with ⟨rfl, rfl⟩
      by_cases hnil : s.toks = []
      · refine ⟨[], ?_, .inl hnil⟩
        unfold PState.tail
        rw [hnil]
        rfl
      · refine ⟨s.head :: s.tail.toks.takeWhile (·.is .star), ?_,
          .inr ⟨s.tail.toks.takeWhile (·.is .star), ty₀, rfl, rfl, ?_, rfl⟩⟩
        · change s.toks = s.head :: (s.tail.toks.takeWhile (·.is .star) ++
            s.tail.toks.drop (starCount s.tail.toks))
          rw [drop_starCount, List.takeWhile_append_dropWhile]
          exact head_cons hnil
        · exact fun u hu => List.mem_takeWhile_imp (p := fun v : Token => v.is .star) hu

/-- The loop of `parseCallArgs`. -/
theorem yields_callArgsRest (hg : Grows expr) (h : Gives E 13 expr) : ∀ (m : Nat)
    (acc : List (Option Expr)) (s : PState), Yields (callArgsRest E expr m acc) s fun r ts =>
      ∃ us c args, ts = us ++ [c] ∧ c.is .rParen = true ∧ Spelled E (.slots args) us ∧
        r = acc ++ args ∧ args ≠ [] ∧ (args = [none] → us = []) := by
  intro m
  induction m with
  | zero => exact fun _ _ => .stuck
  | succ m ih =>
      intro acc s
      -- the slot has been read
      have hslot : ∀ arg us s', Spelled E (.slot arg) us → (arg = none → us = []) →
          Yields (accept .comma >>= fun c => if c then callArgsRest E expr m (acc ++ [arg])
            else expect E .rParen "after call arguments" >>= fun _ => pure (acc ++ [arg])) s'
          fun r vs => ∃ ws c args, us ++ vs = ws ++ [c] ∧ c.is .rParen = true ∧
            Spelled E (.slots args) ws ∧ r = acc ++ args ∧ args ≠ [] ∧ (args = [none] → ws = []) := by
        intro arg us s' harg hnone
        refine .accept ?_ ?_
        · intro hcomma
          refine (ih (acc ++ [arg]) s'.tail).mono ?_
          rintro r vs ⟨ws, c, args, rfl, hc, hargs, rfl, hne, -⟩
          refine ⟨us ++ s'.head :: ws, c, arg :: args, ?_, hc, .slotsCons harg hcomma hargs, ?_,
            List.cons_ne_nil _ _, ?_⟩
          · rw [List.append_assoc]
            rfl
          · rw [List.append_assoc]
            rfl
          · intro heq
            exact absurd (List.cons.inj heq).2 hne
        · intro _
          refine .expect (fun _ => .pure _) fun hc => .pure ?_
          refine ⟨us, s'.head, [arg], rfl, hc, .slotsLast harg, rfl, List.cons_ne_nil _ _, ?_⟩
          intro heq
          exact hnone (List.cons.inj heq).1
      have hrest : ∀ arg, Grows (accept .comma >>= fun c => if c then
          callArgsRest E expr m (acc ++ [arg])
          else expect E .rParen "after call arguments" >>= fun _ => pure (acc ++ [arg])) :=
        fun arg => (grows_accept _).bind fun _ => .ite (grows_callArgsRest hg m _)
          ((grows_expect _ _).bind fun _ => .pure _)
      rw [callArgsRest_succ]
      refine .tok (.ite ?_ ?_)
      · intro _
        exact (hslot none [] s .skipped fun _ => rfl).mono fun r vs h => h
      · intro _
        refine .bind hg (fun e => hrest (some e)) (h s) ?_
        intro e us s' _ he
        exact hslot (some e) us s' (.filled he) fun h => by cases h

theorem slotArgs_of_ne {args : List (Option Expr)} (h : args ≠ [none]) : slotArgs args = args := by
  unfold slotArgs
  split
  · exact absurd rfl h
  · rfl

/-- `parseCallArgs`. -/
theorem yields_parseCallArgs (hg : Grows expr) (h : Gives E 13 expr) (n : Nat) (s : PState) :
    Yields (parseCallArgs E expr n) s fun r ts => ∃ us c args, ts = us ++ [c] ∧
      c.is .rParen = true ∧ Spelled E (.slots args) us ∧ r = slotArgs args := by
  unfold parseCallArgs
  refine .accept ?_ ?_
  · intro hc
    exact .pure ⟨[], s.head, [none], rfl, hc, .slotsLast .skipped, rfl⟩
  · intro hopen a s' hrun herr
    rcases yields_callArgsRest hg h n [] s a s' hrun herr with
      ⟨ts, htoks, us, c, args, rfl, hc, hargs, hr, -, hnone⟩
    have hr : a = args := hr
    refine ⟨us ++ [c], htoks, us, c, args, rfl, hc, hargs, hr.trans (slotArgs_of_ne ?_).symm⟩
    intro heq
    -- one skipped slot would have been closed at once
    rw [hnone heq] at htoks
    have hhead : s.head = c := by
      unfold PState.head
      rw [htoks]
      rfl
    rw [hhead, hc] at hopen
    cases hopen

/-- The loop of `parseInitList`. -/
theorem yields_initListRest (hg : Grows expr) (h : Gives E 13 expr) : ∀ (m : Nat)
    (acc : List Expr) (s : PState), Yields (initListRest expr m acc) s fun r ts =>
      ∃ es, r = acc ++ es ∧ Spelled E (.kids es) ts := by
  intro m
  induction m with
  | zero => exact fun _ _ => .stuck
  | succ m ih =>
      intro acc s
      rw [initListRest_succ]
      refine .bind hg ?_ (h s) ?_
      · exact fun e => (grows_accept _).bind fun _ => .ite ((grows_is _ _).bind fun _ =>
          .ite (.pure _) (grows_initListRest hg m _)) (.pure _)
      intro e us s' _ he
      refine .accept ?_ ?_
      · intro hc
        change Yields (if s'.tail.head.is .rBrace then pure (acc ++ [e])
          else initListRest expr m (acc ++ [e])) s'.tail _
        refine .ite ?_ ?_
        · intro _
          exact .pure ⟨[e], rfl, .kidsComma he hc⟩
        · intro _
          refine (ih (acc ++ [e]) s'.tail).mono ?_
          rintro r vs ⟨es, rfl, hes⟩
          refine ⟨e :: es, ?_, .kidsCons he hc hes⟩
          rw [List.append_assoc]
          rfl
      · intro _
        refine .pure ⟨[e], rfl, ?_⟩
        rw [List.append_nil]
        exact .kidsLast he

/-! ## Postfix operators -/

theorem looksLikeCast_eq (s : PState) :
    looksLikeCast E s = some (s.head.is .lParen && castLike E s.tail.toks, s) := by
  rcases s with ⟨_ | ⟨l, us⟩, errs, a⟩
  · rfl
  · exact looksLikeCast_cons l us errs a

theorem Yields.looksLikeCast {β : Type} {y z : Parse β} {R : β → List Token → Prop}
    (htrue : s.head.is .lParen = true → isTypeName E s.tail.head = true → Yields y s R)
    (hfalse : (s.head.is .lParen = true → castLike E s.tail.toks = false) → Yields z s R) :
    Yields (looksLikeCast E >>= fun c => if c then y else z) s R := by
  intro b s' hrun herr
  rw [parse_bind_some (looksLikeCast_eq s)] at hrun
  cases hcast : s.head.is .lParen && castLike E s.tail.toks with
  | true =>
      rw [hcast, if_pos rfl] at hrun
      rcases Bool.and_eq_true_iff.mp hcast with ⟨hl, hlike⟩
      exact htrue hl (Bool.and_eq_true_iff.mp hlike).1 b s' hrun herr
  | false =>
      rw [hcast, if_neg Bool.false_ne_true] at hrun
      refine hfalse ?_ b s' hrun herr
      intro hl
      rw [hl, Bool.true_and] at hcast
      exact hcast

theorem isTypeName_kind {t : Token} (h : isTypeName E t = true) : t.kind = .ident := by
  unfold isTypeName at h
  exact of_decide_eq_true (Bool.and_eq_true_iff.mp h).1

/-- The loop of `parsePostfix`, where the tokens `ts` have been read. -/
theorem yields_postfixRest (hg : Grows expr) (h : Gives E 13 expr) : ∀ (m : Nat) (e : Expr)
    (ts : List Token) (s : PState), Spelled E (.expr 0 e) ts →
      Yields (postfixRest E expr m e) s fun e' us => Spelled E (.expr 0 e') (ts ++ us) := by
  intro m
  induction m with
  | zero => exact fun _ _ _ _ => .stuck
  | succ m ih =>
      intro e ts s he
      have hgrows := grows_postfixRest (E := E) hg m
      -- one turn reads the tokens `us`
      have hturn : ∀ f us s', Spelled E (.expr 0 f) (ts ++ us) →
          Yields (postfixRest E expr m f) s' fun e' vs => Spelled E (.expr 0 e') (ts ++ (us ++ vs)) := by
        intro f us s' hf
        refine (ih f (ts ++ us) s' hf).mono ?_
        intro e' vs h
        rw [List.append_assoc] at h
        exact h
      rw [postfixRest_succ]
      refine .tok (.looksLikeCast ?_ ?_)
      · intro hl hname
        have hkind := isTypeName_kind hname
        refine .take (is_kind hl) (.bind grows_parseBaseType ?_ yields_parseBaseType ?_)
        · exact fun ty => (grows_expect _ _).bind fun _ => (grows_mkE _).bind fun _ => hgrows _
        · rintro ty us s' htoks (hnil | ⟨ss, ty₀, rfl, hty, hss, rfl⟩)
          · rw [PState.head, hnil] at hkind
            cases hkind
          · refine .expect (fun _ => (grows_mkE _).bind fun _ => hgrows _) fun hr => .mkE fun n a => ?_
            refine (hturn _ (s.head :: s.tail.head :: (ss ++ [s'.head])) _
              (.cast n he hl hkind hty hss hr)).mono ?_
            intro e' vs hvs
            simpa using hvs
      · intro hcast
        refine .ite ?_ ?_
        · intro hl
          refine .take (is_kind hl) (.mkE fun n a => .bind (grows_parseCallArgs hg m)
            (fun _ => hgrows _) (yields_parseCallArgs hg h m _) ?_)
          rintro args us s' htoks ⟨vs, c, slots, rfl, hc, hslots, rfl⟩
          have htail : s.tail.toks = vs ++ c :: s'.toks := by
            have htoks : s.tail.toks = (vs ++ [c]) ++ s'.toks := htoks
            rw [htoks, List.append_assoc]
            rfl
          have hno := hcast hl
          rw [htail, castLike_close vs hc] at hno
          exact hturn _ (s.head :: (vs ++ [c])) s' (.call n he hl hslots hc hno)
        · intro _
          refine .ite ?_ ?_
          · intro hl
            refine .take (is_kind hl) (.mkE fun n a => .bind hg ?_ (h _) ?_)
            · exact fun _ => (grows_expect _ _).bind fun _ => hgrows _
            · intro i us s' _ hi
              refine .expect (fun _ => hgrows _) fun hr => ?_
              refine (hturn _ (s.head :: (us ++ [s'.head])) _ (.index n he hl hi hr)).mono ?_
              intro e' vs hvs
              simpa using hvs
          · intro _
            refine .ite ?_ ?_
            · intro hop
              have hkind : s.head.kind ≠ .eof := by
                rcases Bool.or_eq_true_iff.mp hop with hop | hop <;> exact is_kind hop
              refine .take hkind (.tok (.ite ?_ ?_))
              · exact fun _ => .error fun _ => .pure _
              · intro hname
                have hname : s.tail.head.kind = .ident := not_not.mp hname
                refine .take (by rw [hname]; decide) (.mkE fun n a => ?_)
                exact hturn _ [s.head, s.tail.head] _ (.member n he hop hname)
            · intro _
              refine .ite ?_ ?_
              · intro hop
                have hkind : s.head.kind ≠ .eof := by
                  rcases Bool.or_eq_true_iff.mp hop with hop | hop <;> exact is_kind hop
                refine .take hkind (.mkE fun n a => ?_)
                exact hturn _ [s.head] _ (.post n he hop)
              · intro _
                refine .pure ?_
                rw [List.append_nil]
                exact he

/-! ## Primary expressions -/

/-- `parseInitList`. -/
theorem yields_parseInitList (hg : Grows expr) (h : Gives E 13 expr) (n : Nat)
    (hl : s.head.is .lBrace = true) :
    Yields (parseInitList E expr n) s fun e ts => Spelled E (.expr 0 e) ts := by
  unfold parseInitList
  refine .take (is_kind hl) (.mkE fun node a => .accept ?_ ?_)
  · intro hr
    exact .pure (.initNil node hl hr)
  · intro _
    refine .bind (grows_initListRest hg n []) ?_ (yields_initListRest hg h n [] _) ?_
    · exact fun _ => (grows_expect _ _).bind fun _ => .pure _
    rintro kids us s' _ ⟨es, hkids, hes⟩
    have hkids : kids = es := hkids
    subst hkids
    exact .expect (fun _ => .pure _) fun hr => .pure (.initList node hl hr hes)

/-- `adjacent`. -/
theorem yields_adjacent : ∀ (m : Nat) (text : String) (s : PState),
    Yields (adjacent m text) s fun r ts => (∀ u ∈ ts, u.kind = .strLit) ∧
      r = ts.foldl (fun s u => s ++ u.text) text := by
  intro m
  induction m with
  | zero => exact fun _ _ => .stuck
  | succ m ih =>
      intro text s
      rw [adjacent_succ]
      refine .tok (.ite ?_ ?_)
      · intro hkind
        refine .take (by rw [hkind]; decide) ((ih (text ++ s.head.text) s.tail).mono ?_)
        rintro r ts ⟨hts, rfl⟩
        refine ⟨?_, rfl⟩
        intro u hu
        rcases List.mem_cons.mp hu with rfl | hu
        · exact hkind
        · exact hts u hu
      · exact fun _ => .pure ⟨fun u hu => absurd hu List.not_mem_nil, rfl⟩

/-- The operand of `sizeof`, with the parenthesis behind it. -/
theorem yields_sizeofOperand (hg : Grows expr) (h : Gives E 13 expr) (n : Nat) {kw l : Token}
    (hkw : kw.isIdent "sizeof" = true) (hl : l.is .lParen = true) (s : PState) :
    Yields (sizeofOperand E expr n kw.loc >>= fun e => expect E .rParen "after sizeof" >>=
      fun _ => pure e) s fun e ts => Spelled E (.expr 0 e) (kw :: l :: ts) := by
  have hclose : ∀ e : Expr, Grows (expect E .rParen "after sizeof" >>= fun _ => pure e : Parse Expr) :=
    fun _ => (grows_expect _ _).bind fun _ => .pure _
  -- a type that is written, with the parenthesis
  have htype : ∀ (node : Node) (s : PState), (isTypeName E s.head = true ∨
      (E.prog.classes s.head.text).isSome = true) →
      Yields ((parseBaseType E >>= fun ty => pure (Expr.sizeofType node ty)) >>= fun e =>
        expect E .rParen "after sizeof" >>= fun _ => pure e) s
        fun e ts => Spelled E (.expr 0 e) (kw :: l :: ts) := by
    intro node s hname
    rw [bind_assoc]
    refine .bind grows_parseBaseType (fun ty => (Grows.pure _).bind hclose) yields_parseBaseType ?_
    rintro ty us s' htoks (hnil | ⟨ss, ty₀, rfl, hty, hss, rfl⟩)
    · -- at the end there is no parenthesis
      refine .expect (fun _ => .pure _) ?_
      intro hr
      rw [hnil] at htoks
      have hempty : s'.toks = [] := (List.append_eq_nil_iff.mp htoks.symm).2
      rw [PState.head, hempty] at hr
      cases hr
    · refine .expect (fun _ => .pure _) ?_
      intro hr
      exact .pure (.sizeofType node hkw hl hname hty hss hr)
  unfold sizeofOperand
  rw [bind_assoc]
  refine .tok ?_
  dsimp only
  split
  · next hname =>
      rw [bind_assoc]
      exact .mkE fun node a => htype node _ (.inl (Bool.and_eq_true_iff.mp hname).1)
  · next hname =>
      split
      · next hclass =>
          rcases Option.isSome_iff_exists.mp hclass with ⟨i, hi⟩
          rw [bind_assoc]
          refine .mkE fun node a => ?_
          rw [bind_assoc]
          refine .is_one ?_
          split
          · next hdot =>
              have hnext : s.tail.toks ≠ [] := ne_nil_of_kind (is_kind hdot)
              have hne : s.toks ≠ [] := fun hnil => hnext (by unfold PState.tail; rw [hnil]; rfl)
              have hgrows : ∀ ty, Grows (pure (Expr.sizeofType node ty) >>= fun e =>
                expect E .rParen "after sizeof" >>= fun _ => pure e : Parse Expr) :=
                fun _ => (Grows.pure _).bind hclose
              unfold sizeofMember
              simp only [bind_assoc]
              refine .take_cons hne (.take_cons hnext (.tok ?_))
              split
              · rw [bind_assoc]
                exact .error fun _ => (Grows.pure _).bind hgrows
              · next hident =>
                  have hident : s.tail.tail.head.kind = .ident := not_not.mp hident
                  rw [bind_assoc]
                  refine .take (by change s.tail.tail.head.kind ≠ _; rw [hident]; decide) ?_
                  split
                  · next m hm =>
                      have hm : findMember E.prog.heap n i s.tail.tail.head.text = some (some m) := by
                        have hm : (E.prog.classes s.head.text).map (fun c =>
                          findMember E.prog.heap n c s.tail.tail.head.text) = some (some (some m)) := hm
                        rw [hi] at hm
                        exact Option.some.inj hm
                      refine .expect (fun _ => .pure _) fun hr => .pure ?_
                      exact .sizeofMember node hkw hl hi hdot hident hm hr
                  · rw [bind_assoc]
                    exact .error fun _ => (Grows.pure _).bind hgrows
                  · exact fun _ _ h => by cases h
          · exact htype node _ (.inr hclass)
      · next hclass =>
          have hnone : E.prog.classes s.head.text = none :=
            Option.not_isSome_iff_eq_none.mp hclass
          have hname : isTypeName E s.head = false := by
            cases hty : isTypeName E s.head with
            | false => rfl
            | true =>
                have hname : ¬ (isTypeName E s.head && !(E.prog.classes s.head.text).isSome) = true :=
                  hname
                rw [hty, hnone] at hname
                exact absurd rfl hname
          rw [bind_assoc]
          refine .mkE fun node a => ?_
          rw [bind_assoc]
          refine .bind hg (fun e => (Grows.pure _).bind hclose) (h _) ?_
          intro e us s' htoks he
          refine .expect (fun _ => .pure _) fun hr => .pure ?_
          rcases (Spelled.reads he).starts with ⟨t, vs, rfl, -⟩
          have hhead : s.head = t := by
            have htoks : s.toks = (t :: vs) ++ s'.toks := htoks
            unfold PState.head
            rw [htoks]
            rfl
          rw [hhead] at hname hnone
          exact .sizeofExpr node hkw hl hname hnone he hr

/-- `parseOffset`. -/
theorem yields_parseOffset (hkw : s.head.isIdent "offset" = true) :
    Yields (parseOffset E) s fun e ts => Spelled E (.expr 0 e) ts := by
  have hkind : s.head.kind = .ident := (isIdent_iff.mp hkw).1
  have hgrows : ∀ (node : Node) (r : String × Option ClassId × String),
      Grows (expect E .rParen "after offset()" >>= fun _ =>
        pure (Expr.offsetOf node r.1 r.2.2 r.2.1) : Parse Expr) :=
    fun _ _ => (grows_expect _ _).bind fun _ => .pure _
  unfold parseOffset
  refine .take (by rw [hkind]; decide) (.expect ?_ fun hl => .mkE fun node a => ?_)
  · exact fun _ => (grows_mkE _).bind fun node => grows_offsetOperand.bind fun r => hgrows node r
  unfold offsetOperand
  rw [bind_assoc]
  refine .tok ?_
  dsimp only
  split
  · rw [bind_assoc]
    exact .error fun _ => (Grows.pure _).bind fun r => hgrows node r
  · next hc =>
      have hc : s.tail.tail.head.kind = .ident := not_not.mp hc
      simp only [bind_assoc]
      refine .take (by change s.tail.tail.head.kind ≠ _; rw [hc]; decide) (.expect ?_ ?_)
      · intro _
        refine (grows_tok 0).bind fun m => ?_
        split
        · rw [bind_assoc]
          exact grows_take.bind fun _ => (Grows.pure _).bind fun r => hgrows node r
        · rw [bind_assoc]
          exact (grows_error _ _).bind fun _ => (Grows.pure _).bind fun r => hgrows node r
      intro hd
      refine .tok ?_
      split
      · next ht =>
          rw [bind_assoc]
          refine .take (by rw [ht]; decide) (.expect (fun _ => .pure _) fun hr => .pure ?_)
          exact .offsetOf node hkw hl hc hd ht hr
      · rw [bind_assoc]
        exact .error fun _ => (Grows.pure _).bind fun r => hgrows node r

/-- `parsePrimary`. -/
theorem yields_primaryStep (hg : Grows expr) (h : Gives E 13 expr) (n : Nat) :
    Gives E 0 (primaryStep E expr n) := by
  intro s
  unfold primaryStep
  refine .tok ?_
  have hleaf : ∀ (g : Node → Expr), s.head.kind ≠ .eof →
      (∀ node, Spelled E (.expr 0 (g node)) [s.head]) →
      Yields (do
        let _ ← take
        return g (← mkE s.head.loc)) s fun e ts => Spelled E (.expr 0 e) ts :=
    fun g hkind hg => .take hkind (.mkE fun node a => .pure (hg node))
  split
  · next hkind => exact hleaf _ (by rw [hkind]; decide) fun node => .intLit node hkind
  · next hkind => exact hleaf _ (by rw [hkind]; decide) fun node => .floatLit node hkind
  · next hkind => exact hleaf _ (by rw [hkind]; decide) fun node => .charLit node hkind
  · next hkind =>
      refine .take (by rw [hkind]; decide) (.mkE fun node a => .bind (grows_adjacent n _)
        (fun _ => .pure _) (yields_adjacent n _ _) ?_)
      rintro text us s' _ ⟨hus, rfl⟩
      refine .pure ?_
      rw [List.append_nil]
      refine .strLit node ?_
      intro u hu
      rcases List.mem_cons.mp hu with rfl | hu
      · exact hkind
      · exact hus u hu
  · next hkind =>
      have hident : ∀ {w : String}, s.head.text = w → s.head.isIdent w = true :=
        fun hw => isIdent_iff.mpr ⟨hkind, hw⟩
      refine .ite ?_ fun hsizeof => .ite ?_ fun hoffset => .ite ?_ ?_
      · intro htext
        unfold parseSizeof
        refine .take (by rw [hkind]; decide) (.expect ?_ fun hl => ?_)
        · exact fun _ => (grows_sizeofOperand hg n _).bind fun _ => (grows_expect _ _).bind
            fun _ => .pure _
        · exact yields_sizeofOperand hg h n (hident htext) hl _
      · exact fun htext => yields_parseOffset (hident htext)
      · exact fun htext => hleaf _ (by rw [hkind]; decide) fun node => .lastClass node (hident htext)
      · intro hlast
        refine hleaf _ (by rw [hkind]; decide) fun node => .ident node hkind ?_
        unfold keywords
        simp [hsizeof, hoffset, hlast]
  · next hkind =>
      have hp : ∀ {p : P}, s.head.punct = p → s.head.is p = true :=
        fun hp => is_iff.mpr ⟨hkind, hp⟩
      refine .ite ?_ fun _ => .ite ?_ fun _ => .ite ?_ ?_
      · intro hl
        refine .take (by rw [hkind]; decide) (.bind hg ?_ (h _) ?_)
        · exact fun _ => (grows_expect _ _).bind fun _ => .pure _
        · intro e us s' _ he
          exact .expect (fun _ => .pure _) fun hr => .pure (.paren (hp hl) hr he)
      · exact fun hl => yields_parseInitList hg h n (hp hl)
      · intro _
        refine .take (by rw [hkind]; decide) (.error fun _ => ?_)
        exact (grows_mkE _).bind fun _ => .pure _
      · intro _
        exact .error fun _ => .ite ((grows_mkE _).bind fun _ => .pure _)
          (grows_take.bind fun _ => (grows_mkE _).bind fun _ => .pure _)
  · exact .error fun _ => .ite ((grows_mkE _).bind fun _ => .pure _)
      (grows_take.bind fun _ => (grows_mkE _).bind fun _ => .pure _)

/-- By induction on the bound, both functions that call each other. -/
theorem gives_parse (E : ParseEnv) : ∀ n, Gives E 13 (parseAssign E n) ∧
    Gives E 1 (parseUnary E n) := by
  intro n
  induction n with
  | zero =>
      rw [parseAssign_zero, parseUnary_zero]
      exact ⟨fun _ => .stuck, fun _ => .stuck⟩
  | succ n ih =>
      rcases grows_parse E n with ⟨hg, hg1⟩
      constructor
      · rw [parseAssign_succ]
        exact gives_assignStep hg ih.1 (grows_tier hg1 n 12) (gives_tier hg1 ih.2 n)
      · rw [parseUnary_succ]
        refine gives_unaryStep hg1 ih.2 ?_
        intro s
        exact .bind (grows_primaryStep hg n) (fun e => grows_postfixRest hg n e)
          (yields_primaryStep hg ih.1 n s) fun e us s' _ he => yields_postfixRest hg ih.1 n e us s' he

end Lists

/-- What `parseExpr` reads without a diagnostic is the expression that it gives. -/
theorem parseExpr_accepted {E : ParseEnv} {n : Nat} {s s' : PState} {e : Expr}
    (h : parseExpr E n s = some (e, s')) (herr : s'.errors = s.errors) :
    ∃ ts, s.toks = ts ++ s'.toks ∧ Spelled E (.expr 13 e) ts :=
  (gives_parse E n).1 s e s' h herr

/-- Before what does not go on with an expression, `parseExpr` reads the tokens `ts` and reports
nothing if and only if they are an expression of the grammar, and gives that expression. -/
theorem parseExpr_iff (E : ParseEnv) (ts : List Token) (b : Expr) {rest : List Token}
    (hrest : Before 14 rest) (errs : List (SrcLoc × String)) (a : Nat) :
    (∃ n e a', e.bare = b ∧ parseExpr E n ⟨ts ++ rest, errs, a⟩ = some (e, ⟨rest, errs, a'⟩)) ↔
      ∃ e, e.bare = b ∧ Spelled E (.expr 13 e) ts := by
  constructor
  · rintro ⟨n, e, a', hbare, hrun⟩
    rcases parseExpr_accepted hrun rfl with ⟨us, htoks, he⟩
    have hts : ts = us := List.append_cancel_right htoks
    exact ⟨e, hbare, hts ▸ he⟩
  · rintro ⟨e, hbare, he⟩
    rcases parseExpr_spelled he with ⟨N, h⟩
    rcases h N (Nat.le_refl N) rest errs a hrest with ⟨e', a', hbare', hrun⟩
    exact ⟨N, e', a', hbare'.trans hbare, hrun⟩

/-- `-x` before a semicolon. -/
theorem minus_x_read : ∃ n e a', e.bare = .unary {} .minus true (.ident {} "x") ∧
    parseExpr {} n ⟨[.ofPunct .minus, .ofIdent "x"] ++ [.ofPunct .semi], [], 0⟩ =
      some (e, ⟨[.ofPunct .semi], [], a'⟩) := by
  have hstop : Before 14 [Token.ofPunct .semi] := before_closer (p := .semi) rfl (by decide) []
  refine (parseExpr_iff {} _ _ hstop [] 0).mpr ⟨.unary {} .minus true (.ident {} "x"), rfl, ?_⟩
  have hx : Spelled {} (.expr 0 (.ident {} "x")) [.ofIdent "x"] :=
    .ident (t := .ofIdent "x") {} rfl (by decide)
  have hop : (Token.ofPunct .minus).kind = .punct ∧ (Token.ofPunct .minus).punct ∈ unaryOps :=
    ⟨rfl, by decide⟩
  exact (Spelled.pre {} hop (.lift (by decide) hx)).lift_le (Nat.le_refl 13) (by decide)

end Hlang.Parser
