import Hlang.Lib.Returns
import Hlang.Parser.Reread
import Hlang.Parser.Statement

/-!
# Hlang.Parser.Progress — expressions and statements are read to an end

With a bound that is twice the number of tokens and a little more, every function of the parser
returns, whatever the tokens are. What carries this through the recursion is that a function never
leaves more tokens than it found, and one that may call itself takes a token before. The lookup of
a member in a class is the one step whose end does not depend on the tokens.
-/

namespace Hlang.Parser

open Lexer (eofToken)

/-- How many tokens are left. -/
def PState.left (s : PState) : Nat := s.toks.length

/-- From `s`, `x` returns and leaves at most `b` tokens. -/
def Within {α : Type} (x : Parse α) (s : PState) (b : Nat) : Prop :=
  Returns x s fun _ s' => s'.left ≤ b

section Rules

variable {α β : Type} {x : Parse α} {s : PState} {b c : Nat} {E : ParseEnv}

theorem PState.left_pos (h : s.head.kind ≠ .eof) : 0 < s.left := by
  refine List.length_pos_of_ne_nil ?_
  intro hnil
  unfold PState.head at h
  rw [hnil] at h
  exact h rfl

theorem PState.tail_left : s.tail.left = s.left - 1 := List.length_tail

theorem not_eof_of_is {t : Token} {p : P} (h : t.is p = true) : t.kind ≠ .eof := by
  unfold Token.is at h
  rw [Bool.and_eq_true, decide_eq_true_eq] at h
  rw [h.1]
  decide

theorem not_eof_of_isIdent {t : Token} {w : String} (h : t.isIdent w = true) : t.kind ≠ .eof := by
  unfold Token.isIdent at h
  rw [Bool.and_eq_true, decide_eq_true_eq] at h
  rw [h.1]
  decide

theorem Within.le (h : Within x s b) (hb : b ≤ c) : Within x s c :=
  Returns.mono h fun _ _ hle => Nat.le_trans hle hb

theorem Within.bind {f : α → Parse β} (h : Within x s c)
    (hf : ∀ a s', s'.left ≤ c → Within (f a) s' b) : Within (x >>= f) s b := Returns.bind h hf

theorem Within.pure {a : α} (h : s.left ≤ b) : Within (Pure.pure a) s b := Returns.pure h

theorem Within.ite {p : Prop} [Decidable p] {y : Parse α} (hx : p → Within x s b)
    (hy : ¬ p → Within y s b) : Within (if p then x else y) s b := Returns.ite hx hy

section Steps

variable {g : Token → Parse β}

theorem Within.tok (h : Within (g s.head) s b) : Within (tok 0 >>= g) s b := h

theorem Within.tok_at {k : Nat} (h : ∀ t, Within (g t) s b) : Within (Parser.tok k >>= g) s b := h _

/-- A token that is there is taken. -/
theorem Within.take (hne : s.head.kind ≠ .eof)
    (h : ∀ t s', s'.left + 1 = s.left → Within (g t) s' b) : Within (take >>= g) s b := by
  have hpos := PState.left_pos hne
  have htail : s.tail.left = s.left - 1 := PState.tail_left
  exact h s.head s.tail (by omega)

/-- A token is taken if there is one. -/
theorem Within.take_le (h : ∀ t s', s'.left ≤ s.left → Within (g t) s' b) :
    Within (Parser.take >>= g) s b := by
  have htail : s.tail.left = s.left - 1 := PState.tail_left
  exact h s.head s.tail (by omega)

theorem Within.is {g : Bool → Parse β} {p : P} {k : Nat} (h : ∀ c, Within (g c) s b) :
    Within (is p k >>= g) s b := h _

theorem Within.isIdent {g : Bool → Parse β} {w : String}
    (h : Within (g (s.head.isIdent w)) s b) : Within (isIdent w 0 >>= g) s b := h

/-- The next token is looked at. -/
theorem Within.is_zero {g : Bool → Parse β} {p : P} (h : Within (g (s.head.is p)) s b) :
    Within (Parser.is p 0 >>= g) s b := h

theorem Within.mkE {g : Node → Parse β} {loc : SrcLoc}
    (h : ∀ n s', s'.left = s.left → Within (g n) s' b) : Within (mkE loc >>= g) s b :=
  h ⟨loc, s.next⟩ { s with next := s.next + 1 } rfl

theorem Within.error {g : Unit → Parse β} {loc : SrcLoc} {msg : String}
    (h : ∀ s', s'.toks = s.toks → Within (g ()) s' b) : Within (error loc msg >>= g) s b :=
  h { s with errors := s.errors ++ [(loc, msg)] } rfl

theorem Within.accept {g : Bool → Parse β} {p : P}
    (htrue : ∀ s', s'.left + 1 = s.left → Within (g true) s' b)
    (hfalse : s.head.is p = false → Within (g false) s b) : Within (accept p >>= g) s b := by
  cases hp : s.head.is p with
  | true =>
      have hpos := PState.left_pos (not_eof_of_is hp)
      have htail : s.tail.left = s.left - 1 := PState.tail_left
      rcases htrue s.tail (by omega) with ⟨a, s', hrun, hle⟩
      exact ⟨a, s', by rw [parse_bind_some (accept_true hp), hrun], hle⟩
  | false =>
      rcases hfalse hp with ⟨a, s', hrun, hle⟩
      exact ⟨a, s', by rw [parse_bind_some (accept_false hp), hrun], hle⟩

theorem within_expect (p : P) (what : String) : Within (expect E p what) s s.left := by
  unfold expect
  refine .accept ?_ fun _ => .tok (.error fun s' hs' => ?_)
  · intro s' hs'
    exact .pure (by omega)
  · have hleft : s'.left = s.left := congrArg List.length hs'
    refine .ite (fun _ => ?_) fun _ => .take_le fun _ s'' hs'' => ?_
    · exact .pure (by omega)
    · exact .pure (by omega)

theorem Within.expect {g : Unit → Parse β} {p : P} {what : String}
    (h : ∀ s', s'.left ≤ s.left → Within (g ()) s' b) : Within (expect E p what >>= g) s b :=
  .bind (within_expect p what) fun _ => h

theorem Within.looksLikeCast {g : Bool → Parse β}
    (h : ∀ c, (c = true → s.head.is .lParen = true) → Within (g c) s b) :
    Within (looksLikeCast E >>= g) s b := by
  refine h _ fun hc => ?_
  rw [Bool.and_eq_true, Bool.and_eq_true] at hc
  exact hc.1.1

/-- A base type takes the token at its front. -/
theorem returns_parseBaseType :
    Returns (parseBaseType E) s fun _ s' => s'.left ≤ s.left - 1 := by
  have hstars : ∀ ty s', s'.left = s.left - 1 → Returns (do
      let n := starCount (← get).toks
      modify fun s => { s with toks := s.toks.drop n }
      return stars n ty : Parse Ty) s' fun _ s'' => s''.left ≤ s.left - 1 := by
    intro ty s' hs'
    refine ⟨_, _, rfl, ?_⟩
    change (s'.toks.drop _).length ≤ s.left - 1
    rw [List.length_drop]
    change s'.left - _ ≤ s.left - 1
    omega
  refine Returns.bind (Q := fun _ s' => s'.left = s.left - 1) ⟨_, s.tail, rfl, PState.tail_left⟩ ?_
  intro t s' hs'
  dsimp only
  split
  · exact hstars _ s' hs'
  · exact hstars _ _ hs'

theorem Within.parseBaseType {g : Ty → Parse β}
    (h : ∀ ty s', s'.left ≤ s.left - 1 → Within (g ty) s' b) :
    Within (parseBaseType E >>= g) s b := Returns.bind returns_parseBaseType h

end Steps

end Rules

/-! ## What a function takes -/

/-- How many tokens are left behind the next, if there is one. -/
def PState.behind (s : PState) : Nat := if s.head.kind = .eof then s.left else s.left - 1

theorem PState.behind_le (s : PState) : s.behind ≤ s.left := by
  unfold PState.behind
  split <;> omega

theorem PState.behind_cons {s : PState} (h : s.head.kind ≠ .eof) : s.behind = s.left - 1 := if_neg h

/-- From where at most `L` tokens are left, `x` returns, and takes a token where there is one. -/
def Consumes {α : Type} (L : Nat) (x : Parse α) : Prop := ∀ s, s.left ≤ L → Within x s s.behind

/-- From where at most `L` tokens are left, `x` returns. -/
def Keeps {α : Type} (L : Nat) (x : Parse α) : Prop := ∀ s, s.left ≤ L → Within x s s.left

/-- From where fewer than `L` tokens are left, `x` returns. -/
def Under {α : Type} (L : Nat) (x : Parse α) : Prop := ∀ s, s.left < L → Within x s s.left

/-- From where at most `L` tokens are left, and one is, `x` returns and takes it. -/
def Eats {α : Type} (L : Nat) (x : Parse α) : Prop :=
  ∀ s, s.head.kind ≠ .eof → s.left ≤ L → Within x s (s.left - 1)

section Takes

variable {α : Type} {x : Parse α} {L : Nat}

theorem Consumes.keeps (h : Consumes L x) : Keeps L x := by
  intro s hs
  exact (h s hs).le s.behind_le

theorem Consumes.eats (h : Consumes L x) : Eats L x := by
  intro s hne hs
  exact (h s hs).le (Nat.le_of_eq (PState.behind_cons hne))

theorem Consumes.mono {L' : Nat} (h : Consumes L x) (hL : L' ≤ L) : Consumes L' x :=
  fun s hs => h s (by omega)

theorem Keeps.mono {L' : Nat} (h : Keeps L x) (hL : L' ≤ L) : Keeps L' x := fun s hs => h s (by omega)

theorem Under.keeps {s : PState} (h : Under L x) (hne : s.head.kind ≠ .eof) (hs : s.left ≤ L) :
    Keeps (s.left - 1) x := by
  have hpos := PState.left_pos hne
  exact fun s' hs' => h s' (by omega)

/-- What takes a token where there is one, and returns at the end. -/
theorem Consumes.of_eats (h : Eats L x)
    (hend : ∀ s, s.head.kind = .eof → s.left ≤ L → Within x s s.left) : Consumes L x := by
  intro s hs
  by_cases heof : s.head.kind = .eof
  · refine (hend s heof hs).le (Nat.le_of_eq ?_)
    exact (if_pos heof).symm
  · rw [PState.behind_cons heof]
    exact h s heof hs

end Takes

/-! ## Expressions -/

section Expressions

variable {E : ParseEnv} {sub unary expr : Parse Expr} {L n : Nat}

theorem keeps_binaryRest (hsub : Consumes L sub) (ops : List P) (hn : L < n) (e : Expr) :
    Keeps L (binaryRest sub ops n e) := by
  intro s hs
  refine Returns.loop (μ := PState.left) (P := fun _ s => s.left ≤ L)
    (R := fun _ s _ s' => s'.left ≤ s.left) ?_ n e s hs (by omega)
  intro n e s hs _ ih
  rw [binaryRest_succ]
  refine Within.tok (.ite (fun hop => ?_) fun _ => .pure (Nat.le_refl _))
  refine .take (by rw [hop.1]; decide) fun op s₁ h₁ => ?_
  refine .bind (hsub.keeps s₁ (by omega)) fun rhs s₂ h₂ => .mkE fun node s₃ h₃ => ?_
  exact Within.le (ih _ s₃ (by omega) (by omega)) (by omega)

theorem consumes_binaryLoop (hsub : Consumes L sub) (hn : L < n) (ops : List P) :
    Consumes L (binaryLoop n sub ops) := by
  intro s hs
  refine .bind (hsub s hs) fun e s₁ h₁ => ?_
  have hle : s₁.left ≤ s.left := Nat.le_trans h₁ s.behind_le
  exact (keeps_binaryRest hsub ops hn e s₁ (by omega)).le h₁

theorem keeps_relRest (hsub : Consumes L sub) (hn : L < n) (es : List (P × Expr)) :
    Keeps L (relRest sub n es) := by
  intro s hs
  refine Returns.loop (μ := PState.left) (P := fun _ s => s.left ≤ L)
    (R := fun _ s _ s' => s'.left ≤ s.left) ?_ n es s hs (by omega)
  intro n es s hs _ ih
  rw [relRest_succ]
  refine Within.tok (.ite (fun hop => ?_) fun _ => .pure (Nat.le_refl _))
  refine .take (by rw [(isRelOp_iff.mp hop).1]; decide) fun op s₁ h₁ => ?_
  refine .bind (hsub.keeps s₁ (by omega)) fun kid s₂ h₂ => ?_
  exact Within.le (ih _ s₂ (by omega) (by omega)) (by omega)

theorem consumes_parseRel (hadd : Consumes L (parseAdd n unary)) (hn : L < n) :
    Consumes L (parseRel n unary) := by
  intro s hs
  refine .bind (hadd s hs) fun first s₁ h₁ => .tok ?_
  have hle : s₁.left ≤ s.left := Nat.le_trans h₁ s.behind_le
  refine .ite (fun _ => .mkE fun node s₂ h₂ => ?_) fun _ => .pure h₁
  refine .bind (keeps_relRest hadd hn [] s₂ (by omega)) fun es s₃ h₃ => .pure ?_
  exact Nat.le_trans h₃ (Nat.le_trans (Nat.le_of_eq h₂) h₁)

theorem consumes_parseLor (hunary : Consumes L unary) (hn : L < n) :
    Consumes L (parseLor n unary) := by
  have hpow : Consumes L (parsePow n unary) := consumes_binaryLoop hunary hn _
  have hmul : Consumes L (parseMul n unary) := consumes_binaryLoop hpow hn _
  have hband : Consumes L (parseBand n unary) := consumes_binaryLoop hmul hn _
  have hbxor : Consumes L (parseBxor n unary) := consumes_binaryLoop hband hn _
  have hbor : Consumes L (parseBor n unary) := consumes_binaryLoop hbxor hn _
  have hadd : Consumes L (parseAdd n unary) := consumes_binaryLoop hbor hn _
  have hrel : Consumes L (parseRel n unary) := consumes_parseRel hadd hn
  have heq : Consumes L (parseEq n unary) := consumes_binaryLoop hrel hn _
  have hland : Consumes L (parseLand n unary) := consumes_binaryLoop heq hn _
  have hlxor : Consumes L (parseLxor n unary) := consumes_binaryLoop hland hn _
  exact consumes_binaryLoop hlxor hn _

theorem consumes_assignStep {lor : Parse Expr} (hlor : Consumes L lor)
    (hexpr : Under L expr) : Consumes L (assignStep expr lor) := by
  intro s hs
  refine .bind (hlor s hs) fun lhs s₁ h₁ => .tok ?_
  have hle : s₁.left ≤ s.left := Nat.le_trans h₁ s.behind_le
  refine .ite (fun hop => ?_) fun _ => .ite (fun hq => ?_) fun _ => .pure h₁
  · refine .take (by rw [hop.1]; decide) fun op s₂ h₂ => ?_
    refine .bind (hexpr s₂ (by omega)) fun rhs s₃ h₃ => .mkE fun node s₄ h₄ => .pure ?_
    exact Nat.le_trans (by omega) h₁
  · refine .error fun s₂ h₂ => .take ?_ fun q s₃ h₃ => ?_
    · have hhead : s₂.head = s₁.head := congrArg (·.headD eofToken) h₂
      rw [hhead]
      exact not_eof_of_is hq
    · have hleft : s₂.left = s₁.left := congrArg List.length h₂
      refine .bind (hexpr s₃ (by omega)) fun _ s₄ h₄ => .accept (fun s₅ h₅ => ?_) fun _ => .pure ?_
      · refine .bind (hexpr s₅ (by omega)) fun _ s₆ h₆ => .pure ?_
        exact Nat.le_trans (by omega) h₁
      · exact Nat.le_trans (by omega) h₁

theorem consumes_unaryStep {postfixed : Parse Expr} (hunary : Under L unary)
    (hpost : Consumes L postfixed) : Consumes L (unaryStep unary postfixed) := by
  intro s hs
  refine .tok (.ite (fun hop => ?_) fun _ => hpost s hs)
  have hne : s.head.kind ≠ .eof := by
    rw [hop.1]
    decide
  rw [PState.behind_cons hne]
  refine .take hne fun op s₁ h₁ => .mkE fun node s₂ h₂ => ?_
  exact .bind (hunary s₂ (by omega)) fun kid s₃ h₃ => .pure (by omega)

theorem keeps_callArgsRest (hexpr : Keeps L expr) (hn : L < n) (args : List (Option Expr)) :
    Keeps L (callArgsRest E expr n args) := by
  intro s hs
  refine Returns.loop (μ := PState.left) (P := fun _ s => s.left ≤ L)
    (R := fun _ s _ s' => s'.left ≤ s.left) ?_ n args s hs (by omega)
  intro n args s hs _ ih
  have hslot : ∀ arg s₁, s₁.left ≤ s.left → Within (do
      if ← accept .comma then callArgsRest E expr n (args ++ [arg])
      else
        expect E .rParen "after call arguments"
        return args ++ [arg]) s₁ s.left := by
    intro arg s₁ h₁
    refine .accept (fun s₂ h₂ => ?_) fun _ => .expect fun s₂ h₂ => .pure (by omega)
    exact Within.le (ih _ s₂ (by omega) (by omega)) (by omega)
  rw [callArgsRest_succ]
  refine Within.tok (.ite (fun _ => ?_) fun _ => ?_)
  · exact hslot none s (Nat.le_refl _)
  · exact .bind (hexpr s hs) fun e s₁ h₁ => hslot (some e) s₁ h₁

theorem keeps_parseCallArgs (hexpr : Keeps L expr) (hn : L < n) :
    Keeps L (parseCallArgs E expr n) := by
  intro s hs
  refine .accept (fun s₁ h₁ => .pure (by omega)) fun _ => ?_
  exact keeps_callArgsRest hexpr hn [] s hs

theorem keeps_postfixRest (hexpr : Keeps L expr) (hn : L < n) (e : Expr) :
    Keeps L (postfixRest E expr n e) := by
  intro s hs
  refine Returns.loop (μ := PState.left) (P := fun _ s => s.left ≤ L)
    (R := fun _ s _ s' => s'.left ≤ s.left) ?_ n e s hs (by omega)
  intro n e s hs hn ih
  have hgo : ∀ e s', s'.left + 1 ≤ s.left → Within (postfixRest E expr n e) s' s.left :=
    fun e s' hs' => Within.le (ih e s' (by omega) (by omega)) (by omega)
  rw [postfixRest_succ]
  refine Within.tok (.looksLikeCast fun c hc => .ite (fun hcast => ?_) fun _ => .ite (fun hl => ?_)
    fun _ => .ite (fun hl => ?_) fun _ => .ite (fun hop => ?_) fun _ => .ite (fun hop => ?_)
    fun _ => .pure (Nat.le_refl _))
  · refine .take (not_eof_of_is (hc hcast)) fun lp s₁ h₁ => .parseBaseType fun ty s₂ h₂ => ?_
    exact .expect fun s₃ h₃ => .mkE fun node s₄ h₄ => hgo _ s₄ (by omega)
  · -- an argument list runs with the bound of this loop
    refine .take (not_eof_of_is hl) fun lp s₁ h₁ => .mkE fun node s₂ h₂ => ?_
    have hargs : Keeps (s.left - 1) (parseCallArgs E expr n) :=
      keeps_parseCallArgs (hexpr.mono (by omega)) (by omega)
    exact .bind (hargs s₂ (by omega)) fun args s₃ h₃ => hgo _ s₃ (by omega)
  · refine .take (not_eof_of_is hl) fun lb s₁ h₁ => .mkE fun node s₂ h₂ => ?_
    refine .bind (hexpr s₂ (by omega)) fun idx s₃ h₃ => ?_
    exact .expect fun s₄ h₄ => hgo _ s₄ (by omega)
  · have hne : s.head.kind ≠ .eof := by
      rcases Bool.or_eq_true_iff.mp hop with hop | hop <;> exact not_eof_of_is hop
    refine .take hne fun op s₁ h₁ => .tok (.ite (fun _ => .error fun s₂ h₂ => .pure ?_) fun _ => ?_)
    · have hleft : s₂.left = s₁.left := congrArg List.length h₂
      omega
    · exact .take_le fun _ s₂ h₂ => .mkE fun node s₃ h₃ => hgo _ s₃ (by omega)
  · have hne : s.head.kind ≠ .eof := by
      rcases Bool.or_eq_true_iff.mp hop with hop | hop <;> exact not_eof_of_is hop
    exact .take hne fun op s₁ h₁ => .mkE fun node s₂ h₂ => hgo _ s₂ (by omega)

theorem keeps_adjacent (hn : L < n) (text : String) : Keeps L (adjacent n text) := by
  intro s hs
  refine Returns.loop (μ := PState.left) (P := fun _ s => s.left ≤ L)
    (R := fun _ s _ s' => s'.left ≤ s.left) ?_ n text s hs (by omega)
  intro n text s hs _ ih
  rw [adjacent_succ]
  refine Within.tok (.ite (fun hkind => ?_) fun _ => .pure (Nat.le_refl _))
  refine .take (by rw [hkind]; decide) fun t s₁ h₁ => ?_
  exact Within.le (ih _ s₁ (by omega) (by omega)) (by omega)

theorem keeps_initListRest (hexpr : Keeps L expr) (hn : L < n) (kids : List Expr) :
    Keeps L (initListRest expr n kids) := by
  intro s hs
  refine Returns.loop (μ := PState.left) (P := fun _ s => s.left ≤ L)
    (R := fun _ s _ s' => s'.left ≤ s.left) ?_ n kids s hs (by omega)
  intro n kids s hs _ ih
  rw [initListRest_succ]
  refine Within.bind (hexpr s hs) fun kid s₁ h₁ => .accept (fun s₂ h₂ => ?_) fun _ => .pure (by omega)
  refine .is_zero (.ite (fun _ => .pure (by omega)) fun _ => ?_)
  exact Within.le (ih _ s₂ (by omega) (by omega)) (by omega)

theorem eats_parseInitList (hexpr : Under L expr) (hn : L < n) :
    Eats L (parseInitList E expr n) := by
  intro s hne hs
  refine .take hne fun lb s₁ h₁ => .mkE fun node s₂ h₂ => ?_
  refine .accept (fun s₃ h₃ => .pure (by omega)) fun _ => ?_
  refine .bind (keeps_initListRest (hexpr.keeps hne hs) (by omega) [] s₂ (by omega)) fun kids s₃ h₃ => ?_
  exact .expect fun s₄ h₄ => .pure (by omega)

/-- A lookup of a member returns, with a bound from `D` on, in each class that has a name. -/
def Looks (E : ParseEnv) (D : Nat) : Prop :=
  ∀ name c member k, E.prog.classes name = some c → D ≤ k →
    (findMember E.prog.heap k c member).isSome

variable {D : Nat}

theorem within_sizeofMember (hlooks : Looks E D) (hn : D ≤ n) (loc : SrcLoc) {cname : String}
    (hclass : (E.prog.classes cname).isSome) (s : PState) :
    Within (sizeofMember E n loc cname) s s.left := by
  refine .take_le fun _ s₁ h₁ => .take_le fun _ s₂ h₂ => .tok (.ite (fun _ => ?_) fun _ => ?_)
  · refine .error fun s₃ h₃ => .pure ?_
    have hleft : s₃.left = s₂.left := congrArg List.length h₃
    omega
  refine .take_le fun t s₃ h₃ => ?_
  rcases Option.isSome_iff_exists.mp hclass with ⟨c, hc⟩
  rcases Option.isSome_iff_exists.mp (hlooks cname c s₂.head.text n hc hn) with ⟨m, hm⟩
  have hlookup : ((E.prog.classes cname).map fun c =>
      findMember E.prog.heap n c s₂.head.text) = some (some m) := by
    rw [hc, Option.map_some, hm]
  rw [hlookup]
  cases m with
  | some m => exact .pure (by omega)
  | none =>
      refine .error fun s₄ h₄ => .pure ?_
      have hleft : s₄.left = s₃.left := congrArg List.length h₄
      omega

theorem keeps_sizeofOperand (hexpr : Keeps L expr) (hlooks : Looks E D) (hn : D ≤ n)
    (loc : SrcLoc) : Keeps L (sizeofOperand E expr n loc) := by
  intro s hs
  have hbase : ∀ {node : Node} s', s'.left ≤ s.left →
      Within (do return .sizeofType node (← parseBaseType E) : Parse Expr) s' s.left :=
    fun s' hs' => .parseBaseType fun ty s'' hs'' => .pure (by omega)
  refine .tok (.ite (fun _ => .mkE fun node s₁ h₁ => hbase s₁ (by omega)) fun _ => .ite ?_ ?_)
  · intro hclass
    refine .mkE fun node s₁ h₁ => .is fun dot => .ite (fun _ => ?_) fun _ => hbase s₁ (by omega)
    refine .bind (within_sizeofMember hlooks hn loc hclass s₁) fun ty s₂ h₂ => .pure (by omega)
  · intro _
    refine .mkE fun node s₁ h₁ => ?_
    exact .bind (hexpr s₁ (by omega)) fun e s₂ h₂ => .pure (by omega)

theorem eats_parseSizeof (hexpr : Under L expr) (hlooks : Looks E D) (hn : D ≤ n) :
    Eats L (parseSizeof E expr n) := by
  intro s hne hs
  refine .take hne fun kw s₁ h₁ => .expect fun s₂ h₂ => ?_
  have hoperand := keeps_sizeofOperand (hexpr.keeps hne hs) hlooks hn kw.loc s₂ (by omega)
  refine .bind hoperand fun e s₃ h₃ => ?_
  exact .expect fun s₄ h₄ => .pure (by omega)

theorem within_offsetOperand (s : PState) : Within (offsetOperand E) s s.left := by
  refine .tok (.ite (fun _ => .error fun s₁ h₁ => .pure ?_) fun _ => .take_le fun _ s₁ h₁ => ?_)
  · exact Nat.le_of_eq (congrArg List.length h₁)
  refine .expect fun s₂ h₂ => .tok (.ite (fun _ => ?_) fun _ => .error fun s₃ h₃ => .pure ?_)
  · exact .take_le fun _ s₃ h₃ => .pure (by omega)
  · have hleft : s₃.left = s₂.left := congrArg List.length h₃
    omega

theorem eats_parseOffset : Eats L (parseOffset E) := by
  intro s hne _
  refine .take hne fun kw s₁ h₁ => .expect fun s₂ h₂ => .mkE fun node s₃ h₃ => ?_
  refine .bind (within_offsetOperand s₃) fun names s₄ h₄ => .expect fun s₅ h₅ => .pure (by omega)

theorem within_noExpr (s : PState) : Within (noExpr E s.head) s s.behind := by
  refine .error fun s₁ h₁ => .ite (fun heof => .mkE fun node s₂ h₂ => .pure ?_) fun hne => ?_
  · have hleft : s₁.left = s.left := congrArg List.length h₁
    have hbehind : s.behind = s.left := if_pos heof
    omega
  · have hhead : s₁.head = s.head := congrArg (·.headD eofToken) h₁
    have hleft : s₁.left = s.left := congrArg List.length h₁
    have hbehind := PState.behind_cons hne
    refine .take (by rwa [hhead]) fun _ s₂ h₂ => .mkE fun node s₃ h₃ => .pure (by omega)

theorem consumes_primaryStep (hexpr : Under L expr) (hlooks : Looks E D) (hD : D ≤ n)
    (hn : L < n) : Consumes L (primaryStep E expr n) := by
  intro s hs
  have htoken : ∀ {f : Node → Expr}, s.head.kind ≠ .eof →
      Within (do let _ ← take; return f (← mkE s.head.loc) : Parse Expr) s s.behind := by
    intro f hne
    rw [PState.behind_cons hne]
    exact .take hne fun _ s₁ h₁ => .mkE fun node s₂ h₂ => .pure (by omega)
  refine .tok ?_
  split
  · next hkind => exact htoken (by rw [hkind]; decide)
  · next hkind => exact htoken (by rw [hkind]; decide)
  · next hkind => exact htoken (by rw [hkind]; decide)
  · next hkind =>
      have hne : s.head.kind ≠ .eof := by
        rw [hkind]
        decide
      rw [PState.behind_cons hne]
      refine .take hne fun _ s₁ h₁ => .mkE fun node s₂ h₂ => ?_
      exact .bind (keeps_adjacent hn _ s₂ (by omega)) fun text s₃ h₃ => .pure (by omega)
  · next hkind =>
      have hne : s.head.kind ≠ .eof := by
        rw [hkind]
        decide
      refine .ite (fun _ => ?_) fun _ => .ite (fun _ => ?_) fun _ => .ite (fun _ => htoken hne)
        fun _ => htoken hne
      · rw [PState.behind_cons hne]
        exact eats_parseSizeof hexpr hlooks hD s hne hs
      · rw [PState.behind_cons hne]
        exact eats_parseOffset s hne hs
  · next hkind =>
      have hne : s.head.kind ≠ .eof := by
        rw [hkind]
        decide
      refine .ite (fun _ => ?_) fun _ => .ite (fun _ => ?_) fun _ => .ite (fun _ => ?_)
        fun _ => within_noExpr s
      · rw [PState.behind_cons hne]
        refine .take hne fun _ s₁ h₁ => .bind (hexpr s₁ (by omega)) fun e s₂ h₂ => ?_
        exact .expect fun s₃ h₃ => .pure (by omega)
      · rw [PState.behind_cons hne]
        exact eats_parseInitList hexpr hn s hne hs
      · rw [PState.behind_cons hne]
        refine .take hne fun _ s₁ h₁ => .error fun s₂ h₂ => .mkE fun node s₃ h₃ => .pure ?_
        have hleft : s₂.left = s₁.left := congrArg List.length h₂
        omega
  · exact within_noExpr s

/-- At the end of the file there is no primary expression, and nothing is taken. -/
theorem primaryStep_eof {s : PState} (heof : s.head.kind = .eof) :
    Returns (primaryStep E expr n) s fun _ s' => s'.toks = s.toks := by
  have hprimary : primaryStep E expr n s = noExpr E s.head s := by
    unfold primaryStep
    rw [parse_bind_some (tok_zero s), heof]
  have hnone : noExpr E s.head s = (do return .intLit (← mkE s.head.loc) 0 : Parse Expr)
      { s with errors := s.errors ++
        [(s.head.loc, "expected expression (got '" ++ E.describe s.head ++ "')")] } := by
    unfold noExpr
    rw [if_pos heof]
    rfl
  unfold Returns
  rw [hprimary, hnone]
  exact ⟨_, _, rfl, rfl⟩

theorem within_postfixRest_eof {s : PState} (heof : s.head.kind = .eof) (hn : 0 < n) (e : Expr) :
    Within (postfixRest E expr n e) s s.left := by
  rcases Nat.exists_eq_add_of_le' hn with ⟨n, rfl⟩
  have hno : ∀ p, s.head.is p ≠ true := fun p hp => not_eof_of_is hp heof
  rw [postfixRest_succ]
  refine .tok (.looksLikeCast fun c hc => .ite (fun h => absurd (hc h) (hno _)) fun _ =>
    .ite (fun h => absurd h (hno _)) fun _ => .ite (fun h => absurd h (hno _)) fun _ =>
    .ite (fun h => ?_) fun _ => .ite (fun h => ?_) fun _ => .pure (Nat.le_refl _))
  · rcases Bool.or_eq_true_iff.mp h with h | h <;> exact absurd h (hno _)
  · rcases Bool.or_eq_true_iff.mp h with h | h <;> exact absurd h (hno _)

theorem consumes_postfixStep (hexpr : Under L expr) (hlooks : Looks E D) (hD : D ≤ n)
    (hn : L < n) : Consumes L (postfixStep E expr n) := by
  refine .of_eats ?_ ?_
  · intro s hne hs
    have hpos := PState.left_pos hne
    have hbehind := PState.behind_cons hne
    refine .bind (consumes_primaryStep hexpr hlooks hD hn s hs) fun e s₁ h₁ => ?_
    exact (keeps_postfixRest (hexpr.keeps hne hs) (by omega) e s₁ (by omega)).le (by omega)
  · intro s heof hs
    refine Returns.bind (primaryStep_eof heof) fun e s₁ h₁ => ?_
    have hhead : s₁.head = s.head := congrArg (·.headD eofToken) h₁
    have hleft : s₁.left = s.left := congrArg List.length h₁
    refine (within_postfixRest_eof (by rwa [hhead]) (by omega) e).le (by omega)

/-- By induction on the bound, both functions that call each other: two for each token, and what a
lookup takes. -/
theorem consumes_parse (hlooks : Looks E D) : ∀ n L,
    (2 * L + D + 3 ≤ n → Consumes L (parseAssign E n)) ∧
    (2 * L + D + 2 ≤ n → Consumes L (parseUnary E n)) := by
  intro n
  induction n with
  | zero => exact fun L => ⟨fun h => absurd h (by omega), fun h => absurd h (by omega)⟩
  | succ n ih =>
      intro L
      -- behind a token the bound is enough for both
      have hunder : 2 * L + D + 2 ≤ n + 1 → Under L (parseAssign E n) ∧ Under L (parseUnary E n) := by
        intro hn
        constructor
        · exact fun s hs => ((ih s.left).1 (by omega)).keeps s (Nat.le_refl _)
        · exact fun s hs => ((ih s.left).2 (by omega)).keeps s (Nat.le_refl _)
      constructor
      · intro hn
        rw [parseAssign_succ]
        have hlor : Consumes L (parseLor n (parseUnary E n)) :=
          consumes_parseLor ((ih L).2 (by omega)) (by omega)
        exact consumes_assignStep hlor (hunder (by omega)).1
      · intro hn
        rw [parseUnary_succ]
        rcases hunder hn with ⟨hassign, hunary⟩
        exact consumes_unaryStep hunary (consumes_postfixStep hassign hlooks (by omega) (by omega))

theorem consumes_parseAssign (hlooks : Looks E D) (hn : 2 * L + D + 3 ≤ n) :
    Consumes L (parseAssign E n) := (consumes_parse hlooks n L).1 hn

end Expressions

/-! ## Declarators -/

section Declarators

variable {F : FileEnv} {E : ParseEnv} {expr : Parse Expr} {L n : Nat}

theorem keeps_declaratorWords (hn : L < n) (ty : Ty) : Keeps L (declaratorWords n ty) := by
  intro s hs
  refine Returns.loop (μ := PState.left) (P := fun _ s => s.left ≤ L)
    (R := fun _ s _ s' => s'.left ≤ s.left) ?_ n ty s hs (by omega)
  intro n ty s hs _ ih
  have hgo : ∀ ty s', s'.left + 1 ≤ s.left → Within (declaratorWords n ty) s' s.left :=
    fun ty s' hs' => Within.le (ih ty s' (by omega) (by omega)) (by omega)
  rw [declaratorWords]
  refine Within.is_zero (.ite (fun h => ?_) fun _ => .isIdent (.ite (fun h => ?_) fun _ =>
    .isIdent (.ite (fun h => ?_) fun _ => .pure (Nat.le_refl _))))
  · exact .take (not_eof_of_is h) fun _ s₁ h₁ => hgo _ s₁ (by omega)
  · refine .take (not_eof_of_isIdent h) fun _ s₁ h₁ => .tok (.tok_at fun u => .ite (fun _ => ?_)
      fun _ => hgo _ s₁ (by omega))
    exact .take_le fun _ s₂ h₂ => hgo _ s₂ (by omega)
  · exact .take (not_eof_of_isIdent h) fun _ s₁ h₁ => hgo _ s₁ (by omega)

theorem within_dimension (loc : SrcLoc) (dim : Expr) (s : PState) :
    Within (dimension F E loc dim) s s.left := by
  have hbad : Within (do
      error loc "array dimension must be a constant expression"
      return 1 : Parse I64) s s.left :=
    .error fun s₁ h₁ => .pure (Nat.le_of_eq (congrArg List.length h₁))
  unfold dimension
  split
  · exact .ite (fun _ => hbad) fun _ => .pure (Nat.le_refl _)
  · exact hbad
  · exact .ite (fun _ => hbad) fun _ => .pure (Nat.le_refl _)

theorem keeps_dimensions (hexpr : Keeps L expr) (hn : L < n) (isParam : Bool) (loc : SrcLoc)
    (ty : Ty) : Keeps L (dimensions F E expr isParam loc n ty []) := by
  intro s hs
  refine Returns.loop (f := fun n c => dimensions F E expr isParam loc n c.1 c.2)
    (μ := PState.left) (P := fun _ s => s.left ≤ L) (R := fun _ s _ s' => s'.left ≤ s.left)
    ?_ n (ty, []) s hs (by omega)
  rintro n ⟨ty, dims⟩ s hs - ih
  have hgo : ∀ ty dims s', s'.left + 1 ≤ s.left →
      Within (dimensions F E expr isParam loc n ty dims) s' s.left :=
    fun ty dims s' hs' => Within.le (ih (ty, dims) s' (by omega) (by omega)) (by omega)
  rw [dimensions]
  refine Within.accept (fun s₁ h₁ => .is_zero (.ite (fun _ => ?_) fun _ => ?_))
    fun _ => .pure (Nat.le_refl _)
  · exact .take_le fun _ s₂ h₂ => hgo _ _ s₂ (by omega)
  · refine .bind (hexpr s₁ (by omega)) fun dim s₂ h₂ => ?_
    refine .bind (within_dimension loc dim s₂) fun v s₃ h₃ => ?_
    exact .expect fun s₄ h₄ => hgo _ _ s₄ (by omega)

theorem keeps_declaratorInit (hexpr : Keeps L expr) (allowInit : Bool) (name : Token) (ty : Ty) :
    Keeps L (declaratorInit expr allowInit name ty) := by
  intro s hs
  refine .ite (fun _ => .accept (fun s₁ h₁ => ?_) fun _ => .pure (Nat.le_refl _))
    fun _ => .pure (Nat.le_refl _)
  exact .bind (hexpr s₁ (by omega)) fun e s₂ h₂ => .pure (by omega)

theorem keeps_declaratorStep {params : Parse (List FuncParam × Bool)} (hexpr : Keeps L expr)
    (hparams : Under L params) (hn : L < n) (base : Ty) (allowInit isParam : Bool) :
    Keeps L (declaratorStep F E expr n params base allowInit isParam) := by
  intro s hs
  refine .bind (keeps_declaratorWords hn base s hs) fun ty s₁ h₁ => .is_zero (.is fun star => ?_)
  refine .ite (fun h => ?_) fun _ => ?_
  · -- a function pointer
    refine .take (not_eof_of_is (Bool.and_eq_true_iff.mp h).1) fun _ s₂ h₂ => ?_
    refine .take_le fun _ s₃ h₃ => .tok (.ite (fun _ => .error fun s₄ h₄ => .pure ?_) fun _ => ?_)
    · have hleft : s₄.left = s₃.left := congrArg List.length h₄
      omega
    · refine .take_le fun name s₄ h₄ => .expect fun s₅ h₅ => .expect fun s₆ h₆ => ?_
      refine .bind (hparams s₆ (by omega)) fun ps s₇ h₇ => ?_
      exact (keeps_declaratorInit hexpr _ _ _ s₇ (by omega)).le (by omega)
  · refine .tok (.ite (fun _ => .ite (fun _ => .pure h₁) fun _ => .pure h₁) fun _ => ?_)
    refine .take_le fun name s₂ h₂ => ?_
    refine .bind (keeps_dimensions hexpr hn _ _ _ s₂ (by omega)) fun tys s₃ h₃ => ?_
    exact (keeps_declaratorInit hexpr _ _ _ s₃ (by omega)).le (by omega)

theorem length_afterParen (ts : List Token) : ∀ depth, (afterParen depth ts).length ≤ ts.length := by
  induction ts with
  | nil => exact fun _ => Nat.le_refl _
  | cons t ts ih =>
      intro depth
      unfold afterParen
      split
      · exact Nat.le_refl _
      · split
        · split
          · exact Nat.le_succ _
          · exact Nat.le_succ_of_le (ih _)
        · exact Nat.le_succ_of_le (ih _)

/-- The rule of the skipping loops. -/
theorem Within.skipBy {β : Type} {s : PState} {b : Nat} {f : List Token → List Token}
    {g : Unit → Parse β} (hf : ∀ ts, (f ts).length ≤ ts.length)
    (h : ∀ s', s'.left ≤ s.left → Within (g ()) s' b) : Within (skipBy f >>= g) s b :=
  h { s with toks := f s.toks } (hf s.toks)

theorem keeps_paramDeclarator {decl : Ty → Parse (Option VarDeclarator)}
    (hdecl : ∀ base, Keeps L (decl base)) (base : Ty) : Keeps L (paramDeclarator decl base) := by
  intro s hs
  refine .tok (.ite (fun _ => .bind (hdecl base s hs) fun d s₁ h₁ => ?_)
    fun _ => .pure (Nat.le_refl _))
  cases d with
  | some d => exact .pure h₁
  | none => exact .pure h₁

theorem keeps_paramDefault (hexpr : Keeps L expr) (name : String) (ty : Ty) :
    Keeps L (paramDefault expr name ty) := by
  intro s hs
  refine .accept (fun s₁ h₁ => .isIdent (.ite (fun _ => ?_) fun _ => ?_))
    fun _ => .pure (Nat.le_refl _)
  · exact .take_le fun _ s₂ h₂ => .pure (by omega)
  · exact .bind (hexpr s₁ (by omega)) fun e s₂ h₂ => .pure (by omega)

theorem not_eof_of_isTypeName {t : Token} (h : isTypeName E t = true) : t.kind ≠ .eof := by
  unfold isTypeName at h
  rw [Bool.and_eq_true, decide_eq_true_eq] at h
  rw [h.1]
  decide

theorem keeps_paramsRest {decl : Ty → Parse (Option VarDeclarator)} (hexpr : Keeps L expr)
    (hdecl : ∀ base, Under L (decl base)) (hn : L < n) (params : List FuncParam) :
    Keeps L (paramsRest E expr decl n params) := by
  intro s hs
  refine Returns.loop (μ := PState.left) (P := fun _ s => s.left ≤ L)
    (R := fun _ s _ s' => s'.left ≤ s.left) ?_ n params s hs (by omega)
  intro n params s hs _ ih
  rw [paramsRest]
  refine Within.accept (fun s₁ h₁ => .expect fun s₂ h₂ => .pure (by omega)) fun _ => .tok ?_
  refine .ite (fun _ => .error fun s₁ h₁ => .skipBy (fun ts => length_afterParen ts _)
    fun s₂ h₂ => .pure ?_) fun hname => ?_
  · have hleft : s₁.left = s.left := congrArg List.length h₁
    omega
  · have hne : s.head.kind ≠ .eof := by
      rw [Bool.not_eq_true', Bool.not_eq_false] at hname
      exact not_eof_of_isTypeName hname
    have hpos := PState.left_pos hne
    have hdecl' : ∀ base, Keeps (s.left - 1) (decl base) := fun base => (hdecl base).keeps hne hs
    refine .parseBaseType fun base s₁ h₁ => ?_
    refine .bind (keeps_paramDeclarator hdecl' base s₁ h₁) fun nt s₂ h₂ => ?_
    refine .bind (keeps_paramDefault hexpr _ _ s₂ (by omega)) fun p s₃ h₃ => ?_
    refine .accept (fun s₄ h₄ => ?_) fun _ => .expect fun s₄ h₄ => .pure (by omega)
    exact Within.le (ih _ s₄ (by omega) (by omega)) (by omega)

theorem keeps_paramsStep {decl : Ty → Parse (Option VarDeclarator)} (hexpr : Keeps L expr)
    (hdecl : ∀ base, Under L (decl base)) (hn : L < n) : Keeps L (paramsStep E expr decl n) := by
  intro s hs
  refine .accept (fun s₁ h₁ => .pure (by omega)) fun _ => ?_
  exact keeps_paramsRest hexpr hdecl hn [] s hs

variable {D : Nat}

/-- By induction on the bound: a parameter list in a declarator comes behind two tokens. -/
theorem keeps_parseDeclarator (hlooks : Looks E D) : ∀ n L base allowInit isParam,
    2 * L + D + 4 ≤ n → Keeps L (parseDeclarator F E n base allowInit isParam) := by
  intro n
  induction n with
  | zero => exact fun L _ _ _ h => absurd h (by omega)
  | succ n ih =>
      intro L base allowInit isParam hn
      have hassign : Keeps L (parseAssign E n) := (consumes_parseAssign hlooks (by omega)).keeps
      have hparams : Under L (paramsStep E (parseAssign E n)
          (fun base => parseDeclarator F E n base false true) n) := by
        intro s hs
        refine keeps_paramsStep (hassign.mono (by omega : s.left ≤ L)) ?_ (by omega) s (Nat.le_refl _)
        exact fun base s' hs' => ih s'.left base false true (by omega) s' (Nat.le_refl _)
      exact keeps_declaratorStep hassign hparams (by omega) base allowInit isParam

theorem keeps_parseParams (hlooks : Looks E D) (hn : 2 * L + D + 4 ≤ n) :
    Keeps L (parseParams F E n) := by
  refine keeps_paramsStep (consumes_parseAssign hlooks (by omega)).keeps ?_ (by omega)
  exact fun base s hs => keeps_parseDeclarator hlooks n s.left base false true (by omega) s
    (Nat.le_refl _)

end Declarators

/-! ## Statements -/

section Statements

variable {E : ParseEnv} {expr : Parse Expr} {decl : Ty → Bool → Bool → Parse (Option VarDeclarator)}
  {stmt : Parse Stmt} {L n : Nat}

theorem length_afterSemi (ts : List Token) : ∀ depth, (afterSemi depth ts).length ≤ ts.length := by
  induction ts with
  | nil => exact fun _ => Nat.le_refl _
  | cons t ts ih =>
      intro depth
      unfold afterSemi
      split
      · exact Nat.le_refl _
      · generalize (if t.is .lBrace then depth + 1 else if t.is .rBrace then depth - 1 else depth) = d
        dsimp only
        split
        · exact Nat.le_succ _
        · exact Nat.le_succ_of_le (ih _)

theorem length_afterBlock (ts : List Token) : ∀ depth, (afterBlock depth ts).length ≤ ts.length := by
  induction ts with
  | nil => exact fun _ => Nat.le_refl _
  | cons t ts ih =>
      intro depth
      unfold afterBlock
      split
      · exact Nat.le_refl _
      · split
        · split
          · exact Nat.le_succ _
          · exact Nat.le_succ_of_le (ih _)
        · exact Nat.le_succ_of_le (ih _)

/-- The skipping loop takes a token if there is one. -/
theorem eats_skipToSemi {L : Nat} : Eats L skipToSemi := by
  intro s hne _
  have hpos := PState.left_pos hne
  refine ⟨(), _, rfl, ?_⟩
  change (afterSemi 0 s.toks).length ≤ s.left - 1
  unfold PState.left at hpos ⊢
  rcases List.exists_cons_of_length_pos hpos with ⟨t, ts, hts⟩
  have hkind : t.kind ≠ .eof := by
    unfold PState.head at hne
    rwa [hts] at hne
  rw [hts]
  unfold afterSemi
  rw [if_neg hkind]
  generalize (if t.is .lBrace then (0 : Int) + 1 else if t.is .rBrace then 0 - 1 else 0) = d
  dsimp only
  split
  · exact Nat.le_refl _
  · exact length_afterSemi ts d

theorem within_skipToSemi (s : PState) : Within skipToSemi s s.left :=
  ⟨(), _, rfl, length_afterSemi s.toks 0⟩

theorem within_skipBraceBlock (s : PState) : Within skipBraceBlock s s.left := by
  refine .is_zero (.ite (fun _ => ?_) fun _ => within_skipToSemi s)
  exact ⟨(), _, rfl, length_afterBlock s.toks 0⟩

theorem keeps_exprListRest (hexpr : Keeps L expr) (hn : L < n) (es : List Expr) :
    Keeps L (exprListRest expr n es) := by
  intro s hs
  refine Returns.loop (μ := PState.left) (P := fun _ s => s.left ≤ L)
    (R := fun _ s _ s' => s'.left ≤ s.left) ?_ n es s hs (by omega)
  intro n es s hs _ ih
  rw [exprListRest]
  refine Within.bind (hexpr s hs) fun e s₁ h₁ => .accept (fun s₂ h₂ => ?_) fun _ => .pure (by omega)
  exact Within.le (ih _ s₂ (by omega) (by omega)) (by omega)

theorem keeps_parseExprList (hexpr : Keeps L expr) (hn : L < n) : Keeps L (parseExprList expr n) :=
  keeps_exprListRest hexpr hn []

theorem keeps_blockRest (hstmt : Consumes L stmt) (hn : L < n) (loc : SrcLoc) (body : List Stmt) :
    Keeps L (blockRest stmt loc n body) := by
  intro s hs
  refine Returns.loop (μ := PState.left) (P := fun _ s => s.left ≤ L)
    (R := fun _ s _ s' => s'.left ≤ s.left) ?_ n body s hs (by omega)
  intro n body s hs _ ih
  rw [blockRest]
  refine Within.tok (.ite (fun h => ?_) fun _ => .ite (fun _ => ?_) fun hne => ?_)
  · exact .take (not_eof_of_is h) fun _ s₁ h₁ => .pure (by omega)
  · exact .error fun s₁ h₁ => .pure (Nat.le_of_eq (congrArg List.length h₁))
  · have hpos := PState.left_pos hne
    refine .bind (hstmt.eats s hne hs) fun st s₁ h₁ => ?_
    exact Within.le (ih _ s₁ (by omega) (by omega)) (by omega)

theorem eats_parseBlock (hstmt : ∀ L' < L, Consumes L' stmt) (hn : L < n) :
    Eats L (parseBlock stmt n) := by
  intro s hne hs
  have hpos := PState.left_pos hne
  refine .take hne fun lb s₁ h₁ => ?_
  have hbody := keeps_blockRest (hstmt (s.left - 1) (by omega)) (by omega : s.left - 1 < n) lb.loc []
  exact .bind (hbody s₁ (by omega)) fun body s₂ h₂ => .pure (by omega)

theorem keeps_printArgs (hexpr : Keeps L expr) (hn : L < n) (args : List (Option Expr)) :
    Keeps L (printArgs expr n args) := by
  intro s hs
  refine Returns.loop (μ := PState.left) (P := fun _ s => s.left ≤ L)
    (R := fun _ s _ s' => s'.left ≤ s.left) ?_ n args s hs (by omega)
  intro n args s hs _ ih
  rw [printArgs]
  refine Within.accept (fun s₁ h₁ => ?_) fun _ => .pure (Nat.le_refl _)
  refine .bind (hexpr s₁ (by omega)) fun e s₂ h₂ => ?_
  exact Within.le (ih _ s₂ (by omega) (by omega)) (by omega)

theorem eats_parsePrintStmt (hexpr : Keeps L expr) (hn : L < n) {s : PState}
    (hkind : s.head.kind = .strLit) (hs : s.left ≤ L) :
    Within (parsePrintStmt E expr n) s (s.left - 1) := by
  have hne : s.head.kind ≠ .eof := by
    rw [hkind]
    decide
  have hpos := PState.left_pos hne
  rcases Nat.exists_eq_add_of_lt (Nat.lt_of_lt_of_le hpos (by omega : s.left ≤ n)) with ⟨m, hm⟩
  have hfmt : Within (adjacent n "") s (s.left - 1) := by
    rw [hm, Nat.zero_add, adjacent_succ]
    refine Within.tok (.ite (fun _ => ?_) fun h => absurd hkind h)
    refine .take hne fun t s₁ h₁ => ?_
    exact (keeps_adjacent (L := s₁.left) (by omega) _ s₁ (Nat.le_refl _)).le (by omega)
  refine .tok (.bind hfmt fun fmt s₁ h₁ => .mkE fun call s₂ h₂ => .mkE fun callee s₃ h₃ => ?_)
  have harg : Within (printFormat expr s.head.loc fmt) s₃ s₃.left := by
    refine .tok (.ite (fun _ => hexpr s₃ (by omega)) fun _ => .mkE fun node s₄ h₄ => .pure ?_)
    omega
  refine .bind harg fun arg s₄ h₄ => ?_
  refine .bind (keeps_printArgs hexpr hn _ s₄ (by omega)) fun args s₅ h₅ => ?_
  exact .expect fun s₆ h₆ => .pure (by omega)

theorem eats_parsePutCharsStmt (hexpr : Keeps L expr) : Eats L (parsePutCharsStmt E expr) := by
  intro s hne hs
  refine .take hne fun lit s₁ h₁ => .mkE fun call s₂ h₂ => .mkE fun callee s₃ h₃ => ?_
  have harg : Within (charArg expr lit) s₃ s₃.left := by
    refine .ite (fun _ => hexpr s₃ (by omega)) fun _ => .mkE fun node s₄ h₄ => .pure ?_
    omega
  exact .bind harg fun arg s₄ h₄ => .expect fun s₅ h₅ => .pure (by omega)

theorem eats_parseIf (hexpr : Keeps L expr) (hstmt : Under L stmt) :
    Eats L (parseIf E expr stmt) := by
  intro s hne hs
  have hpos := PState.left_pos hne
  refine .take hne fun kw s₁ h₁ => .expect fun s₂ h₂ => ?_
  refine .bind (hexpr s₂ (by omega)) fun e s₃ h₃ => .expect fun s₄ h₄ => ?_
  refine .bind (hstmt s₄ (by omega)) fun body s₅ h₅ => .isIdent (.ite (fun _ => ?_) fun _ => ?_)
  · refine .take_le fun _ s₆ h₆ => .bind (hstmt s₆ (by omega)) fun body2 s₇ h₇ => .pure (by omega)
  · exact .pure (by omega)

theorem eats_parseWhile (hexpr : Keeps L expr) (hstmt : Under L stmt) :
    Eats L (parseWhile E expr stmt) := by
  intro s hne hs
  refine .take hne fun kw s₁ h₁ => .expect fun s₂ h₂ => ?_
  refine .bind (hexpr s₂ (by omega)) fun e s₃ h₃ => .expect fun s₄ h₄ => ?_
  exact .bind (hstmt s₄ (by omega)) fun body s₅ h₅ => .pure (by omega)

theorem eats_parseDoWhile (hexpr : Keeps L expr) (hstmt : Under L stmt) :
    Eats L (parseDoWhile E expr stmt) := by
  intro s hne hs
  refine .take hne fun kw s₁ h₁ => .bind (hstmt s₁ (by omega)) fun body s₂ h₂ => .tok ?_
  refine .ite (fun _ => .error fun s₃ h₃ => .pure ?_) fun _ => ?_
  · have hleft : s₃.left = s₂.left := congrArg List.length h₃
    omega
  · refine .take_le fun _ s₃ h₃ => .expect fun s₄ h₄ => ?_
    refine .bind (hexpr s₄ (by omega)) fun e s₅ h₅ => .expect fun s₆ h₆ => ?_
    exact .expect fun s₇ h₇ => .pure (by omega)

theorem keeps_optional {α : Type} {x : Parse α} (hx : Keeps L x) (p : P) (d : α) :
    Keeps L (optional p d x) :=
  fun s hs => .is_zero (.ite (fun _ => .pure (Nat.le_refl _)) fun _ => hx s hs)

theorem keeps_optionalExpr (hexpr : Keeps L expr) (p : P) : Keeps L (optionalExpr expr p) :=
  keeps_optional (fun s hs => .bind (hexpr s hs) fun _ _ h => .pure h) p none

theorem eats_parseFor (hexpr : Keeps L expr) (hstmt : Under L stmt) (hn : L < n) :
    Eats L (parseFor E expr stmt n) := by
  intro s hne hs
  have hlist : Keeps L (parseExprList expr n) := keeps_parseExprList hexpr hn
  refine .take hne fun kw s₁ h₁ => .expect fun s₂ h₂ => ?_
  refine .bind (keeps_optional hlist _ _ s₂ (by omega)) fun init s₃ h₃ => .expect fun s₄ h₄ => ?_
  refine .bind (keeps_optionalExpr hexpr _ s₄ (by omega)) fun cond s₅ h₅ => .expect fun s₆ h₆ => ?_
  refine .bind (keeps_optional hlist _ _ s₆ (by omega)) fun post s₇ h₇ => .expect fun s₈ h₈ => ?_
  exact .bind (hstmt s₈ (by omega)) fun body s₉ h₉ => .pure (by omega)

theorem eats_parseSwitch (hexpr : Keeps L expr) (hstmt : Under L stmt) :
    Eats L (parseSwitch E expr stmt) := by
  intro s hne hs
  refine .take hne fun kw s₁ h₁ => .accept (fun s₂ h₂ => ?_) fun _ => .expect fun s₂ h₂ => ?_
  · refine .bind (hexpr s₂ (by omega)) fun e s₃ h₃ => .expect fun s₄ h₄ => ?_
    exact .bind (hstmt s₄ (by omega)) fun body s₅ h₅ => .pure (by omega)
  · refine .bind (hexpr s₂ (by omega)) fun e s₃ h₃ => .expect fun s₄ h₄ => ?_
    exact .bind (hstmt s₄ (by omega)) fun body s₅ h₅ => .pure (by omega)

theorem keeps_caseValues (hexpr : Keeps L expr) : Keeps L (caseValues expr) := by
  intro s hs
  refine .is_zero (.ite (fun _ => .pure (Nat.le_refl _)) fun _ => ?_)
  refine .bind (hexpr s hs) fun lo s₁ h₁ => .accept (fun s₂ h₂ => ?_) fun _ => .pure h₁
  exact .bind (hexpr s₂ (by omega)) fun hi s₃ h₃ => .pure (by omega)

theorem eats_parseCase (hexpr : Keeps L expr) : Eats L (parseCase E expr) := by
  intro s hne hs
  refine .take hne fun kw s₁ h₁ => ?_
  refine .bind (keeps_caseValues hexpr s₁ (by omega)) fun values s₂ h₂ => ?_
  exact .expect fun s₃ h₃ => .pure (by omega)

/-- After a diagnostic about the next token. -/
theorem Within.report {α : Type} {s : PState} {b : Nat} {loc : SrcLoc} {msg : String} {a : α}
    (h : s.left ≤ b) : Within (do Parser.error loc msg; return a) s b :=
  .error fun _ h' => .pure (Nat.le_trans (Nat.le_of_eq (congrArg List.length h')) h)

theorem not_eof_of_not {t : Token} {p : P} (h : ¬ (!t.is p) = true) : t.kind ≠ .eof := by
  rw [Bool.not_eq_true', Bool.not_eq_false] at h
  exact not_eof_of_is h

theorem eats_parseTry (hstmt : ∀ L' < L, Consumes L' stmt) (hn : L < n) :
    Eats L (parseTry stmt n) := by
  intro s hne hs
  have hblock : Eats L (parseBlock stmt n) := eats_parseBlock hstmt hn
  refine .take hne fun kw s₁ h₁ => .tok (.ite (fun _ => .report (by omega)) fun hl => ?_)
  refine .bind (hblock s₁ (not_eof_of_not hl) (by omega)) fun body s₂ h₂ => ?_
  refine .tok (.ite (fun _ => .report (by omega)) fun _ => .take_le fun _ s₃ h₃ => ?_)
  refine .tok (.ite (fun _ => .report (by omega)) fun hl => ?_)
  exact .bind (hblock s₃ (not_eof_of_not hl) (by omega)) fun body2 s₄ h₄ => .pure (by omega)

theorem keeps_varDeclRest (hdecl : ∀ base allowInit isParam, Keeps L (decl base allowInit isParam))
    (hn : L < n) (loc : SrcLoc) (base : Ty) (isStatic : Bool) (decls : List VarDeclarator) :
    Keeps L (varDeclRest E decl loc base isStatic n decls) := by
  intro s hs
  refine Returns.loop (μ := PState.left) (P := fun _ s => s.left ≤ L)
    (R := fun _ s _ s' => s'.left ≤ s.left) ?_ n decls s hs (by omega)
  intro n decls s hs _ ih
  rw [varDeclRest]
  refine Within.bind (hdecl base true false s hs) fun d s₁ h₁ => ?_
  cases d with
  | none =>
      refine .tok (.error fun s₂ h₂ => .bind (within_skipToSemi s₂) fun _ s₃ h₃ => .pure ?_)
      have hleft : s₂.left = s₁.left := congrArg List.length h₂
      omega
  | some d =>
      refine .accept (fun s₂ h₂ => ?_) fun _ => .tok (.ite (fun _ => ?_) fun _ => ?_)
      · exact Within.le (ih _ s₂ (by omega) (by omega)) (by omega)
      · refine .error fun s₂ h₂ => .bind (within_skipBraceBlock s₂) fun _ s₃ h₃ => .pure ?_
        have hleft : s₂.left = s₁.left := congrArg List.length h₂
        omega
      · exact .expect fun s₂ h₂ => .pure (by omega)

/-- A base type of a declaration takes the token at its front. -/
theorem returns_parseBaseTypeNoStars {s : PState} :
    Returns (parseBaseTypeNoStars E) s fun _ s' => s'.left = s.left - 1 := by
  refine Returns.bind (Q := fun _ s' => s'.left = s.left - 1) ⟨_, s.tail, rfl, PState.tail_left⟩ ?_
  intro t s' hs'
  split
  · exact ⟨_, _, rfl, hs'⟩
  · exact ⟨_, _, rfl, hs'⟩

theorem Within.parseBaseTypeNoStars {β : Type} {s : PState} {b : Nat} {g : Ty → Parse β}
    (h : ∀ ty s', s'.left = s.left - 1 → Within (g ty) s' b) :
    Within (parseBaseTypeNoStars E >>= g) s b := Returns.bind returns_parseBaseTypeNoStars h

theorem eats_parseVarDeclStmt
    (hdecl : ∀ base allowInit isParam, Keeps L (decl base allowInit isParam)) (hn : L < n)
    (isStatic : Bool) : Eats L (parseVarDeclStmt E decl n isStatic) := by
  intro s hne hs
  refine .tok (.parseBaseTypeNoStars fun base s₁ h₁ => ?_)
  exact (keeps_varDeclRest hdecl hn _ _ _ _ s₁ (by omega)).le (by omega)

theorem Within.startsDecl {β : Type} {s : PState} {b : Nat} {g : Bool → Parse β}
    (h : ∀ c, Within (g c) s b) : Within (startsDecl >>= g) s b := h _

theorem eats_refuse {msg : String} {skip : Parse Unit} (hskip : ∀ s, Within skip s s.left) :
    Eats L (refuse msg skip) := by
  intro s hne hs
  refine .take hne fun t s₁ h₁ => .error fun s₂ h₂ => .bind (hskip s₂) fun _ s₃ h₃ => .pure ?_
  have hleft : s₂.left = s₁.left := congrArg List.length h₂
  omega

theorem eats_parseBreak : Eats L (parseBreak E) :=
  fun _ hne _ => .take hne fun _ s₁ h₁ => .expect fun s₂ h₂ => .pure (by omega)

theorem eats_parseGoto : Eats L (parseGoto E) := by
  intro s hne hs
  refine .take hne fun g s₁ h₁ => .tok (.ite (fun _ => ?_) fun _ => .error fun s₂ h₂ => ?_)
  · exact .take_le fun _ s₂ h₂ => .expect fun s₃ h₃ => .pure (by omega)
  · have hleft : s₂.left = s₁.left := congrArg List.length h₂
    exact .expect fun s₃ h₃ => .pure (by omega)

theorem eats_parseReturn (hexpr : Keeps L expr) : Eats L (parseReturn E expr) := by
  intro s hne hs
  refine .take hne fun r s₁ h₁ => ?_
  refine .bind (keeps_optionalExpr hexpr _ s₁ (by omega)) fun e s₂ h₂ => ?_
  exact .expect fun s₃ h₃ => .pure (by omega)

theorem eats_parseNoWarn (hexpr : Keeps L expr) (hn : L < n) : Eats L (parseNoWarn E expr n) := by
  intro s hne hs
  have hlist : Keeps L (parseExprList expr n) := keeps_parseExprList hexpr hn
  refine .take hne fun w s₁ h₁ => ?_
  refine .bind (keeps_optional hlist _ _ s₁ (by omega)) fun _ s₂ h₂ => ?_
  exact .expect fun s₃ h₃ => .pure (by omega)

theorem eats_parseLock (hstmt : Under L stmt) : Eats L (parseLock stmt) := by
  intro s hne hs
  have hpos := PState.left_pos hne
  exact .take hne fun l s₁ h₁ => .bind (hstmt s₁ (by omega)) fun st s₂ h₂ => .pure (by omega)

theorem eats_takeLabel (mk : Token → Stmt) : Eats L (takeLabel mk) :=
  fun _ hne _ => .take hne fun _ s₁ h₁ => .take_le fun _ s₂ h₂ => .pure (by omega)

theorem eats_parseStatic
    (hdecl : ∀ base allowInit isParam, Keeps L (decl base allowInit isParam)) (hn : L < n) :
    Eats L (parseStatic E decl n) := by
  intro s hne hs
  refine .take hne fun _ s₁ h₁ => .tok (.parseBaseTypeNoStars fun base s₂ h₂ => ?_)
  exact (keeps_varDeclRest hdecl hn _ _ _ _ s₂ (by omega)).le (by omega)

theorem consumes_exprStmt (hexpr : Consumes L expr) : Consumes L (exprStmt E expr) := by
  intro s hs
  refine .tok (.bind (hexpr s hs) fun e s₁ h₁ => .expect fun s₂ h₂ => .pure ?_)
  exact Nat.le_trans h₂ h₁

variable (hexpr : Consumes L expr)
  (hdecl : ∀ base allowInit isParam, Keeps L (decl base allowInit isParam))
  (hstmt : ∀ L' < L, Consumes L' stmt) (hn : L < n)

include hexpr hdecl hstmt hn

/-- The words, one after the other. -/
theorem eats_identStmt (t : Token) : Eats L (identStmt E expr decl stmt n t) := by
  intro s hne hs
  have hkeeps : Keeps L expr := hexpr.keeps
  have hunder : Under L stmt := fun s hs => (hstmt s.left hs).keeps s (Nat.le_refl _)
  refine .is fun colon => ?_
  refine .ite (fun _ => eats_parseIf hkeeps hunder s hne hs) fun _ => ?_
  refine .ite (fun _ => eats_parseWhile hkeeps hunder s hne hs) fun _ => ?_
  refine .ite (fun _ => eats_parseDoWhile hkeeps hunder s hne hs) fun _ => ?_
  refine .ite (fun _ => eats_parseFor hkeeps hunder hn s hne hs) fun _ => ?_
  refine .ite (fun _ => eats_parseSwitch hkeeps hunder s hne hs) fun _ => ?_
  refine .ite (fun _ => eats_parseBreak s hne hs) fun _ => ?_
  refine .ite (fun _ => eats_refuse ?_ s hne hs) fun _ => ?_
  · exact fun s => .accept (fun s₁ h₁ => .pure (by omega)) fun _ => .pure (Nat.le_refl _)
  refine .ite (fun _ => eats_refuse within_skipToSemi s hne hs) fun _ => ?_
  refine .ite (fun _ => eats_parseGoto s hne hs) fun _ => ?_
  refine .ite (fun _ => eats_parseReturn hkeeps s hne hs) fun _ => ?_
  refine .ite (fun _ => eats_parseCase hkeeps s hne hs) fun _ => ?_
  refine .ite (fun _ => eats_takeLabel _ s hne hs) fun _ => ?_
  refine .ite (fun _ => eats_takeLabel _ s hne hs) fun _ => ?_
  refine .ite (fun _ => eats_takeLabel _ s hne hs) fun _ => ?_
  refine .ite (fun _ => eats_parseTry hstmt hn s hne hs) fun _ => ?_
  refine .ite (fun _ => eats_parseNoWarn hkeeps hn s hne hs) fun _ => ?_
  refine .ite (fun _ => eats_parseLock hunder s hne hs) fun _ => ?_
  refine .ite (fun _ => eats_refuse within_skipBraceBlock s hne hs) fun _ => ?_
  refine .ite (fun _ => eats_refuse within_skipToSemi s hne hs) fun _ => ?_
  refine .ite (fun _ => eats_takeLabel _ s hne hs) fun _ => .startsDecl fun decls => ?_
  refine .ite (fun _ => eats_parseVarDeclStmt hdecl hn false s hne hs) fun _ => ?_
  refine .ite (fun _ => eats_parseStatic hdecl hn s hne hs) fun _ => ?_
  exact (consumes_exprStmt hexpr).eats s hne hs

theorem consumes_stmtStep : Consumes L (stmtStep E expr decl stmt n) := by
  have hkeeps : Keeps L expr := hexpr.keeps
  refine .of_eats ?_ ?_
  · intro s hne hs
    refine .tok (.ite (fun _ => .take hne fun _ s₁ h₁ => .pure (by omega)) fun _ => ?_)
    refine .ite (fun _ => .bind (eats_parseBlock hstmt hn s hne hs) fun b s₁ h₁ => .pure h₁)
      fun _ => ?_
    refine .ite (fun hkind => eats_parsePrintStmt hkeeps hn hkind hs) fun _ => ?_
    refine .ite (fun _ => eats_parsePutCharsStmt hkeeps s hne hs) fun _ => ?_
    refine .ite (fun _ => eats_identStmt hexpr hdecl hstmt hn _ s hne hs) fun _ => ?_
    exact (consumes_exprStmt hexpr).eats s hne hs
  · -- at the end of the file only an expression statement is tried
    intro s heof hs
    have hno : ∀ p, s.head.is p ≠ true := fun p hp => not_eof_of_is hp heof
    have hkind : ∀ k, k ≠ .eof → s.head.kind ≠ k := fun k hk h => hk (h.symm.trans heof)
    refine .tok (.ite (fun h => absurd h (hno _)) fun _ => .ite (fun h => absurd h (hno _)) fun _ => ?_)
    refine .ite (fun h => absurd h (hkind _ (by decide))) fun _ => ?_
    refine .ite (fun h => absurd h (hkind _ (by decide))) fun _ => ?_
    refine .ite (fun h => absurd h (hkind _ (by decide))) fun _ => ?_
    exact (consumes_exprStmt hexpr).keeps s hs

end Statements

/-- By induction on the bound: a statement in a statement comes behind a token. -/
theorem consumes_parseStmt {F : FileEnv} {E : ParseEnv} {D : Nat} (hlooks : Looks E D) : ∀ n L,
    2 * L + D + 5 ≤ n → Consumes L (parseStmt F E n) := by
  intro n
  induction n with
  | zero => exact fun L h => absurd h (by omega)
  | succ n ih =>
      intro L hn
      refine consumes_stmtStep (consumes_parseAssign hlooks (by omega)) ?_ ?_ (by omega)
      · exact fun base allowInit isParam =>
          keeps_parseDeclarator hlooks n L base allowInit isParam (by omega)
      · exact fun L' hL => ih L' (by omega)

end Hlang.Parser
