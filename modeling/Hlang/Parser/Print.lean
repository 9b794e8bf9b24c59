import Hlang.Parser.Accepted

/-!
# Hlang.Parser.Print — expressions as tokens

`print` writes an expression with parentheses only where the tiers require them: around an operand
of a higher tier, and around a right operand of the same tier, since operators associate to the left
(assignments to the right). What is written is read back as the expression.
-/

namespace Hlang.Parser

open Lexer (eofToken)

/-! ## The printer -/

/-- The tier of a binary operator. -/
def opTier (op : P) : Nat := ([2, 3, 4, 5, 6, 7, 9, 10, 11, 12].find? (op ∈ tierOps ·)).getD 0

/-- The lowest tier that takes an expression without parentheses. -/
def exprTier : Expr → Nat
  | .unary _ _ true _ => 1
  | .binary _ op _ _ => opTier op
  | .chainCmp _ _ _ => 8
  | .assign _ _ _ _ => 13
  | _ => 0

/-- Tokens, in parentheses where they are not for the tier `k`. -/
def wrapped (k : Nat) (e : Expr) (ts : List Token) : List Token :=
  if exprTier e ≤ k then ts else .ofPunct .lParen :: (ts ++ [.ofPunct .rParen])

/-- The tokens of a type: a name, and stars. -/
def typeTokens (name : String × Nat) : List Token :=
  .ofIdent name.1 :: List.replicate name.2 (.ofPunct .star)

section Printer

-- the name of a type, and the stars behind it
variable (spell : Ty → String × Nat)

mutual

/-- The tokens of an expression. -/
def print : Expr → List Token
  | .intLit _ v => [.ofInt v]
  | .floatLit _ q => [{ kind := .floatLit, fval := q }]
  | .strLit _ s => [{ kind := .strLit, text := s }]
  | .charLit _ v => [{ kind := .charLit, ival := v }]
  | .ident _ s => [.ofIdent s]
  | .unary _ op true e => .ofPunct op :: wrapped 1 e (print e)
  | .unary _ op false e => wrapped 0 e (print e) ++ [.ofPunct op]
  | .binary _ op a b =>
      wrapped (opTier op) a (print a) ++ .ofPunct op :: wrapped (opTier op - 1) b (print b)
  | .chainCmp _ e es => wrapped 7 e (print e) ++ printMore es
  | .assign _ op a b => wrapped 12 a (print a) ++ .ofPunct op :: wrapped 13 b (print b)
  | .call _ f args =>
      wrapped 0 f (print f) ++ .ofPunct .lParen :: (printSlots args ++ [.ofPunct .rParen])
  | .index _ b i =>
      wrapped 0 b (print b) ++ .ofPunct .lBracket :: (print i ++ [.ofPunct .rBracket])
  | .member _ b s arrow =>
      wrapped 0 b (print b) ++ [.ofPunct (if arrow then .arrow else .dot), .ofIdent s]
  | .cast _ e t =>
      wrapped 0 e (print e) ++ .ofPunct .lParen :: (typeTokens (spell t) ++ [.ofPunct .rParen])
  | .sizeofType _ t =>
      .ofIdent "sizeof" :: .ofPunct .lParen :: (typeTokens (spell t) ++ [.ofPunct .rParen])
  | .sizeofExpr _ e => .ofIdent "sizeof" :: .ofPunct .lParen :: (print e ++ [.ofPunct .rParen])
  | .offsetOf _ c m _ => [.ofIdent "offset", .ofPunct .lParen, .ofIdent c, .ofPunct .dot, .ofIdent m,
      .ofPunct .rParen]
  | .lastClass _ => [.ofIdent "lastclass"]
  | .initList _ es => .ofPunct .lBrace :: (printKids es ++ [.ofPunct .rBrace])

/-- The tokens of the comparisons behind the first operand. -/
def printMore : List (P × Expr) → List Token
  | [] => []
  | (op, e) :: es => .ofPunct op :: (wrapped 7 e (print e) ++ printMore es)

/-- The tokens of an argument slot. -/
def printSlot : Option Expr → List Token
  | none => []
  | some e => print e

/-- The tokens of argument slots, with commas between them. -/
def printSlots : List (Option Expr) → List Token
  | [] => []
  | [arg] => printSlot arg
  | arg :: args => printSlot arg ++ .ofPunct .comma :: printSlots args

/-- The tokens of the elements of a list. -/
def printKids : List Expr → List Token
  | [] => []
  | [e] => print e
  | e :: es => print e ++ .ofPunct .comma :: printKids es

end

end Printer

/-! ## What can be printed -/

/-- The type has a name. -/
def Spells (E : ParseEnv) (spell : Ty → String × Nat) (t : Ty) : Prop :=
  ∃ t₀, E.prog.baseTypeFor (spell t).1 = some t₀ ∧ t = stars (spell t).2 t₀

/-- The operand of `sizeof` is taken for a type by how it begins. -/
def typeLike (E : ParseEnv) (ts : List Token) : Bool :=
  isTypeName E (ts.headD eofToken) || (E.prog.classes (ts.headD eofToken).text).isSome

/-- The expressions that can be written: the names of variables are no keywords and no names of
types, the types that are written have names. -/
inductive Printable (E : ParseEnv) (spell : Ty → String × Nat) : Expr → Prop where
  | intLit (n : Node) (v : I64) : Printable E spell (.intLit n v)
  | floatLit (n : Node) (q : ℚ) : Printable E spell (.floatLit n q)
  | strLit (n : Node) (s : String) : Printable E spell (.strLit n s)
  | charLit (n : Node) (v : I64) : Printable E spell (.charLit n v)
  | ident {s : String} (n : Node) (hkey : s ∉ keywords) (hty : E.prog.baseTypeFor s = none) :
      Printable E spell (.ident n s)
  | pre {op : P} {e : Expr} (n : Node) (hop : op ∈ unaryOps) (h : Printable E spell e) :
      Printable E spell (.unary n op true e)
  | post {op : P} {e : Expr} (n : Node) (hop : op = .plusPlus ∨ op = .minusMinus)
      (h : Printable E spell e) : Printable E spell (.unary n op false e)
  | binary {op : P} {a b : Expr} (n : Node) (hop : opTier op ≠ 0) (ha : Printable E spell a)
      (hb : Printable E spell b) : Printable E spell (.binary n op a b)
  | chainCmp {e : Expr} {es : List (P × Expr)} (n : Node) (h : Printable E spell e) (hne : es ≠ [])
      (hop : ∀ r ∈ es, r.1 ∈ tierOps 8) (hes : ∀ r ∈ es, Printable E spell r.2) :
      Printable E spell (.chainCmp n e es)
  | assign {op : P} {a b : Expr} (n : Node) (hop : op ∈ assignOps) (ha : Printable E spell a)
      (hb : Printable E spell b) : Printable E spell (.assign n op a b)
  | call {f : Expr} {args : List (Option Expr)} (n : Node) (h : Printable E spell f)
      (hne : args ≠ [none]) (hargs : ∀ e, some e ∈ args → Printable E spell e) :
      Printable E spell (.call n f args)
  | index {b i : Expr} (n : Node) (hb : Printable E spell b) (hi : Printable E spell i) :
      Printable E spell (.index n b i)
  | member {b : Expr} (n : Node) (s : String) (arrow : Bool) (hb : Printable E spell b) :
      Printable E spell (.member n b s arrow)
  | cast {e : Expr} {t : Ty} (n : Node) (h : Printable E spell e) (ht : Spells E spell t) :
      Printable E spell (.cast n e t)
  | sizeofType {t : Ty} (n : Node) (ht : Spells E spell t) : Printable E spell (.sizeofType n t)
  | sizeofExpr {e : Expr} (n : Node) (h : Printable E spell e)
      (hlike : typeLike E (print spell e) = false) : Printable E spell (.sizeofExpr n e)
  | offsetOf (n : Node) (c m : String) : Printable E spell (.offsetOf n c m (E.prog.classes c))
  | lastClass (n : Node) (hty : E.prog.baseTypeFor "lastclass" = none) :
      Printable E spell (.lastClass n)
  | initList {es : List Expr} (n : Node) (hes : ∀ e ∈ es, Printable E spell e) :
      Printable E spell (.initList n es)

section Printed

variable {E : ParseEnv} {spell : Ty → String × Nat} {e : Expr} {ts : List Token}

theorem opTier_loop {op : P} (h : opTier op ≠ 0) : LoopTier (opTier op) ∧ op ∈ tierOps (opTier op) := by
  unfold opTier at h ⊢
  cases hfind : [2, 3, 4, 5, 6, 7, 9, 10, 11, 12].find? (op ∈ tierOps ·) with
  | none =>
      rw [hfind] at h
      exact absurd rfl h
  | some k =>
      have hop : decide (op ∈ tierOps k) = true :=
        List.find?_some (p := fun k => decide (op ∈ tierOps k)) hfind
      have hmem := List.mem_of_find?_eq_some hfind
      refine ⟨?_, of_decide_eq_true hop⟩
      simp only [List.mem_cons, List.not_mem_nil, or_false] at hmem
      unfold LoopTier
      rw [Option.getD_some]
      omega

theorem opTier_le (op : P) : opTier op ≤ 13 := by
  by_cases h : opTier op = 0
  · rw [h]
    exact Nat.zero_le _
  · exact Nat.le_trans (opTier_loop h).1.2.1 (by decide)

theorem exprTier_le (e : Expr) : exprTier e ≤ 13 := by
  unfold exprTier
  split
  · decide
  · exact opTier_le _
  · decide
  · decide
  · decide

/-- An operand of any tier. -/
theorem spelled_wrapped {k : Nat} (hk : k ≤ 13) (h : Spelled E (.expr (exprTier e) e) ts) :
    Spelled E (.expr k e) (wrapped k e ts) := by
  unfold wrapped
  split
  · next hle => exact h.lift_le hk hle
  · have hparen : Spelled E (.expr 0 e) (.ofPunct .lParen :: (ts ++ [.ofPunct .rParen])) :=
      .paren rfl rfl (h.lift_le (Nat.le_refl 13) (exprTier_le e))
    exact hparen.lift_le hk (Nat.zero_le k)

/-- An expression does not begin like a cast: what is behind the name of a type is a parenthesis. -/
def NoCast (E : ParseEnv) (ts : List Token) : Prop :=
  ∃ t us, ts = t :: us ∧ (isTypeName E t = true → (us.headD eofToken).is .lParen = true)

theorem NoCast.append (h : NoCast E ts) (us : List Token) : NoCast E (ts ++ us) := by
  rcases h with ⟨t, vs, rfl, h⟩
  refine ⟨t, vs ++ us, rfl, ?_⟩
  intro hty
  cases vs with
  | nil => exact absurd (h hty) Bool.false_ne_true
  | cons v vs => exact h hty

theorem noCast_other {t : Token} (h : t.kind ≠ .ident) (us : List Token) : NoCast E (t :: us) := by
  refine ⟨t, us, rfl, ?_⟩
  intro hty
  exact absurd (isTypeName_kind hty) h

theorem noCast_punct (p : P) (us : List Token) : NoCast E (.ofPunct p :: us) :=
  noCast_other (fun h => by cases h) us

theorem noCast_wrapped (k : Nat) (e : Expr) (h : NoCast E ts) : NoCast E (wrapped k e ts) := by
  unfold wrapped
  split
  · exact h
  · exact noCast_punct _ _

theorem castLike_false (h : NoCast E ts) : castLike E ts = false := by
  rcases h with ⟨t, us, rfl, h⟩
  unfold castLike
  rw [List.headD_cons, List.tail_cons]
  cases hty : isTypeName E t with
  | false => rfl
  | true =>
      have hparen := h hty
      rcases us with _ | ⟨u, us⟩
      · cases hparen
      · have hstar : starCount (u :: us) = 0 := by
          have hno : u.is .star = false := is_other hparen (by decide)
          unfold starCount
          rw [List.takeWhile_cons, hno]
          rfl
        have hr : u.is .rParen = false := is_other hparen (by decide)
        rw [hstar]
        exact hr

/-- The tokens of a named type. -/
theorem typeTokens_stars (name : String × Nat) (t : Ty) :
    (∀ u ∈ List.replicate name.2 (Token.ofPunct .star), u.is .star = true) ∧
      stars (List.replicate name.2 (Token.ofPunct .star)).length t = stars name.2 t := by
  constructor
  · intro u hu
    rw [List.eq_of_mem_replicate hu]
    rfl
  · rw [List.length_replicate]

theorem spelled_more {es : List (P × Expr)} (hne : es ≠ []) (hop : ∀ r ∈ es, r.1 ∈ tierOps 8)
    (h : ∀ r ∈ es, Spelled E (.expr (exprTier r.2) r.2) (print spell r.2)) :
    Spelled E (.more es) (printMore spell es) := by
  induction es with
  | nil => exact absurd rfl hne
  | cons r es ih =>
      rcases r with ⟨op, e⟩
      have hrel : isRelOp (.ofPunct op) = true :=
        isRelOp_iff.mpr ⟨rfl, hop (op, e) List.mem_cons_self⟩
      have he : Spelled E (.expr 7 e) (wrapped 7 e (print spell e)) :=
        spelled_wrapped (by decide) (h (op, e) List.mem_cons_self)
      rw [printMore]
      cases es with
      | nil =>
          rw [printMore, List.append_nil]
          exact .moreLast hrel he
      | cons r' es =>
          refine .moreCons hrel he (ih (List.cons_ne_nil _ _) ?_ ?_)
          · exact fun r hr => hop r (List.mem_cons_of_mem _ hr)
          · exact fun r hr => h r (List.mem_cons_of_mem _ hr)

theorem spelled_slot {arg : Option Expr}
    (h : ∀ e, arg = some e → Spelled E (.expr (exprTier e) e) (print spell e)) :
    Spelled E (.slot arg) (printSlot spell arg) := by
  cases arg with
  | none => exact .skipped
  | some e => exact .filled ((h e rfl).lift_le (Nat.le_refl 13) (exprTier_le e))

theorem spelled_slots {args : List (Option Expr)} (hne : args ≠ [])
    (h : ∀ e, some e ∈ args → Spelled E (.expr (exprTier e) e) (print spell e)) :
    Spelled E (.slots args) (printSlots spell args) := by
  induction args with
  | nil => exact absurd rfl hne
  | cons arg args ih =>
      have harg : Spelled E (.slot arg) (printSlot spell arg) :=
        spelled_slot fun e he => h e (he ▸ List.mem_cons_self)
      cases args with
      | nil => exact .slotsLast harg
      | cons arg' args =>
          refine .slotsCons harg rfl (ih (List.cons_ne_nil _ _) ?_)
          exact fun e he => h e (List.mem_cons_of_mem _ he)

/-- The tokens of argument slots do not look like a cast. -/
theorem castLike_slots {args : List (Option Expr)}
    (h : ∀ e, some e ∈ args → NoCast E (print spell e)) :
    castLike E (printSlots spell args ++ [.ofPunct .rParen]) = false := by
  refine castLike_false ?_
  rcases args with _ | ⟨_ | e, _ | ⟨arg, args⟩⟩
  · exact noCast_punct _ _
  · exact noCast_punct _ _
  · exact noCast_punct _ _
  · exact (h e List.mem_cons_self).append _
  · have hcons : printSlots spell (some e :: arg :: args) =
        print spell e ++ .ofPunct .comma :: printSlots spell (arg :: args) := rfl
    rw [hcons, List.append_assoc]
    exact (h e List.mem_cons_self).append _

theorem spelled_kids {es : List Expr} (hne : es ≠ [])
    (h : ∀ e ∈ es, Spelled E (.expr (exprTier e) e) (print spell e)) :
    Spelled E (.kids es) (printKids spell es) := by
  induction es with
  | nil => exact absurd rfl hne
  | cons e es ih =>
      have he : Spelled E (.expr 13 e) (print spell e) :=
        (h e List.mem_cons_self).lift_le (Nat.le_refl 13) (exprTier_le e)
      cases es with
      | nil => exact .kidsLast he
      | cons e' es =>
          refine .kidsCons he rfl (ih (List.cons_ne_nil _ _) ?_)
          exact fun x hx => h x (List.mem_cons_of_mem _ hx)

/-! ## What is printed is spelled -/

theorem spelled_print (h : Printable E spell e) :
    Spelled E (.expr (exprTier e) e) (print spell e) ∧ NoCast E (print spell e) := by
  induction h with
  | intLit n v =>
      have hlit : Spelled E (.expr 0 (.intLit n v)) [.ofInt v] := .intLit (t := .ofInt v) n rfl
      exact ⟨hlit, noCast_other (fun h => by cases h) _⟩
  | floatLit n q =>
      have hlit : Spelled E (.expr 0 (.floatLit n q)) [{ kind := .floatLit, fval := q }] :=
        .floatLit (t := { kind := .floatLit, fval := q }) n rfl
      exact ⟨hlit, noCast_other (fun h => by cases h) _⟩
  | strLit n s =>
      have hkind : ∀ u ∈ [({ kind := .strLit, text := s } : Token)], u.kind = .strLit := by
        intro u hu
        rw [List.mem_singleton.mp hu]
      have hlit : Spelled E (.expr 0 (.strLit n s)) [{ kind := .strLit, text := s }] :=
        .strLit n hkind
      exact ⟨hlit, noCast_other (fun h => by cases h) _⟩
  | charLit n v =>
      have hlit : Spelled E (.expr 0 (.charLit n v)) [{ kind := .charLit, ival := v }] :=
        .charLit (t := { kind := .charLit, ival := v }) n rfl
      exact ⟨hlit, noCast_other (fun h => by cases h) _⟩
  | @ident s n hkey hty =>
      have hident : Spelled E (.expr 0 (.ident n s)) [.ofIdent s] :=
        .ident (t := .ofIdent s) n rfl hkey
      refine ⟨hident, .ofIdent s, [], rfl, ?_⟩
      intro hname
      unfold isTypeName at hname
      have hname := (Bool.and_eq_true_iff.mp hname).2
      have hty : E.prog.baseTypeFor (Token.ofIdent s).text = none := hty
      rw [hty] at hname
      cases hname
  | @pre op e n hop h ih =>
      have hop : (Token.ofPunct op).kind = .punct ∧ (Token.ofPunct op).punct ∈ unaryOps := ⟨rfl, hop⟩
      exact ⟨.pre n hop (spelled_wrapped (by decide) ih.1), noCast_punct _ _⟩
  | @post op e n hop h ih =>
      have hop : ((Token.ofPunct op).is .plusPlus || (Token.ofPunct op).is .minusMinus) = true := by
        rcases hop with rfl | rfl <;> rfl
      exact ⟨.post n (spelled_wrapped (by decide) ih.1) hop, (noCast_wrapped 0 e ih.2).append _⟩
  | @binary op a b n hop _ _ iha ihb =>
      rcases opTier_loop hop with ⟨hk, hmem⟩
      rcases Nat.exists_eq_succ_of_ne_zero hop with ⟨k, hk'⟩
      have hlevel : exprTier (.binary n op a b) = k + 1 := hk'
      have hcode : print spell (.binary n op a b) = wrapped (k + 1) a (print spell a) ++
          .ofPunct op :: wrapped k b (print spell b) := by
        rw [print, hk']
        rfl
      rw [hk'] at hk hmem
      have hop : (Token.ofPunct op).kind = .punct ∧ (Token.ofPunct op).punct ∈ tierOps (k + 1) :=
        ⟨rfl, hmem⟩
      have hk12 := hk.2.1
      rw [hlevel, hcode]
      refine ⟨.binary n hk (spelled_wrapped (by omega) iha.1) hop
        (spelled_wrapped (by omega) ihb.1), (noCast_wrapped _ a iha.2).append _⟩
  | @chainCmp e es n _ hne hop _ ih ihes =>
      refine ⟨?_, (noCast_wrapped 7 e ih.2).append _⟩
      exact .chainCmp n (spelled_wrapped (by decide) ih.1)
        (spelled_more hne hop fun r hr => (ihes r hr).1)
  | @assign op a b n hop _ _ iha ihb =>
      have hop : (Token.ofPunct op).kind = .punct ∧ (Token.ofPunct op).punct ∈ assignOps := ⟨rfl, hop⟩
      refine ⟨?_, (noCast_wrapped 12 a iha.2).append _⟩
      exact .assign n (spelled_wrapped (by decide) iha.1) hop
        (spelled_wrapped (by decide) ihb.1)
  | @call f args n _ hne _ ih ihargs =>
      refine ⟨?_, (noCast_wrapped 0 f ih.2).append _⟩
      have hf : Spelled E (.expr 0 f) (wrapped 0 f (print spell f)) :=
        spelled_wrapped (by decide) ih.1
      have hcast : castLike E (printSlots spell args ++ [.ofPunct .rParen]) = false :=
        castLike_slots fun e he => (ihargs e he).2
      by_cases hnil : args = []
      · -- no slot at all is one that is skipped
        subst hnil
        exact .call n hf rfl (.slotsLast .skipped) rfl hcast
      · have hslots := spelled_slots (E := E) hnil fun e he => (ihargs e he).1
        have hcall := Spelled.call (l := .ofPunct .lParen) n hf rfl hslots rfl hcast
        rw [slotArgs_of_ne hne] at hcall
        exact hcall
  | @index b i n _ _ ihb ihi =>
      refine ⟨?_, (noCast_wrapped 0 b ihb.2).append _⟩
      exact .index n (spelled_wrapped (by decide) ihb.1) rfl
        (ihi.1.lift_le (Nat.le_refl 13) (exprTier_le i)) rfl
  | @member b n s arrow _ ih =>
      refine ⟨?_, (noCast_wrapped 0 b ih.2).append _⟩
      have hb : Spelled E (.expr 0 b) (wrapped 0 b (print spell b)) :=
        spelled_wrapped (by decide) ih.1
      have hname : (Token.ofIdent s).kind = .ident := rfl
      cases arrow with
      | true =>
          have hop : ((Token.ofPunct .arrow).is .dot || (Token.ofPunct .arrow).is .arrow) = true := rfl
          exact .member n hb hop hname
      | false =>
          have hop : ((Token.ofPunct .dot).is .dot || (Token.ofPunct .dot).is .arrow) = true := rfl
          exact .member n hb hop hname
  | @cast e t n _ ht ih =>
      refine ⟨?_, (noCast_wrapped 0 e ih.2).append _⟩
      rcases ht with ⟨t₀, hty, ht⟩
      rcases typeTokens_stars (spell t) t₀ with ⟨hstars, heq⟩
      have hcast := Spelled.cast (l := .ofPunct .lParen) (t := .ofIdent (spell t).1)
        (r := .ofPunct .rParen) n (spelled_wrapped (by decide) ih.1) rfl rfl hty hstars rfl
      rw [heq, ← ht] at hcast
      exact hcast
  | @sizeofType t n ht =>
      rcases ht with ⟨t₀, hty, ht⟩
      rcases typeTokens_stars (spell t) t₀ with ⟨hstars, heq⟩
      have hname : isTypeName E (.ofIdent (spell t).1) = true := by
        have hty : E.prog.baseTypeFor (Token.ofIdent (spell t).1).text = some t₀ := hty
        unfold isTypeName
        rw [hty]
        rfl
      have hkw : (Token.ofIdent "sizeof").isIdent "sizeof" = true := rfl
      have hsize := Spelled.sizeofType (l := .ofPunct .lParen) (r := .ofPunct .rParen) n hkw rfl
        (.inl hname) hty hstars rfl
      rw [heq, ← ht] at hsize
      refine ⟨hsize, _, _, rfl, fun _ => rfl⟩
  | @sizeofExpr e n _ hlike ih =>
      rcases ih with ⟨ih, hno⟩
      refine ⟨?_, _, _, rfl, fun _ => rfl⟩
      rcases Bool.or_eq_false_iff.mp hlike with ⟨hname, hclass⟩
      have he : Spelled E (.expr 13 e) (print spell e) := ih.lift_le (Nat.le_refl 13) (exprTier_le e)
      rcases hno with ⟨t, us, heq, -⟩
      have hcode : print spell (.sizeofExpr n e) = .ofIdent "sizeof" :: .ofPunct .lParen ::
          t :: (us ++ [.ofPunct .rParen]) := by
        rw [print, heq]
        rfl
      rw [heq] at he hname hclass
      rw [hcode]
      exact .sizeofExpr n rfl rfl hname (Option.not_isSome_iff_eq_none.mp (by simpa using hclass)) he rfl
  | offsetOf n c m =>
      refine ⟨?_, _, _, rfl, fun _ => rfl⟩
      have hkw : (Token.ofIdent "offset").isIdent "offset" = true := rfl
      exact .offsetOf (c := .ofIdent c) (d := .ofPunct .dot) (t := .ofIdent m) n hkw rfl rfl rfl rfl rfl
  | lastClass n hty =>
      refine ⟨.lastClass (t := .ofIdent "lastclass") n rfl, _, [], rfl, ?_⟩
      intro hname
      unfold isTypeName at hname
      have hname := (Bool.and_eq_true_iff.mp hname).2
      have hty : E.prog.baseTypeFor (Token.ofIdent "lastclass").text = none := hty
      rw [hty] at hname
      cases hname
  | @initList es n _ ih =>
      refine ⟨?_, noCast_punct _ _⟩
      by_cases hnil : es = []
      · subst hnil
        exact .initNil n rfl rfl
      · exact .initList n rfl rfl (spelled_kids hnil fun e he => (ih e he).1)

end Printed

/-- `a - (b - c)`: the parentheses are needed, for what is printed without them is read as
`(a - b) - c`. -/
def rightMinus : Expr :=
  .binary {} .minus (.ident {} "a") (.binary {} .minus (.ident {} "b") (.ident {} "c"))

example : (print (fun _ => ("", 0)) rightMinus).length = 7 := rfl

end Hlang.Parser
