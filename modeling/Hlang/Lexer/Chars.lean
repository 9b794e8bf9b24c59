import Hlang.Lib.Numeral
import Hlang.Token

/-!
# Hlang.Lexer.Chars — literals, numbers and punctuators of the source text

The functions of the lexer that only read characters: each takes what is left of
the buffer and returns what it has read together with what is left then. Where
they stand in the buffer, and what the lexer does with what they read, is in
`Hlang.Lexer.Scan`.
-/

namespace Hlang.Lexer

open List (IsSuffix)

/-! ## Classes of characters -/

/-- `isxdigit`. -/
def isXDigit (c : Char) : Bool :=
  c.isDigit || ('a' ≤ c && c ≤ 'f') || ('A' ≤ c && c ≤ 'F')

/-- The white space that `rawNext` skips. -/
def isBlank (c : Char) : Bool :=
  c = ' ' || c = '\t' || c = '\r' || c = '\n' || c = '\x0c' || c = '\x0b'

/-- The characters of an identifier. -/
def isIdChar (c : Char) : Bool := c.isAlphanum || c = '_' || c = '@'

/-- The value of a hexadecimal digit. -/
def digitNat (c : Char) : Nat := if c.isDigit then c.toNat - 48 else c.toLower.toNat - 87

/-! ## Literals -/

/-- What `lexCharsInto` makes of the characters after an opening quote: the bytes
it decodes, what is left, and the texts of the errors it reports. -/
structure Literal where
  text : List Char
  rest : List Char
  errs : List String

/-- One more byte at the front. -/
def Literal.push (c : Char) (L : Literal) : Literal := { L with text := c :: L.text }

/-- One more error at the front. -/
def Literal.err (msg : String) (L : Literal) : Literal := { L with errs := msg :: L.errs }

/-- The literal ends with the file. -/
def Literal.unterminated : Literal := ⟨[], [], ["unterminated literal"]⟩

/-- The byte of an escape that is one character long. -/
def escape : Char → Char
  | 'n' => '\n'
  | 't' => '\t'
  | 'r' => '\r'
  | 'a' => '\x07'
  | 'b' => '\x08'
  | 'f' => '\x0c'
  | 'v' => '\x0b'
  | '0' => '\x00'
  | e => e

/-- The next character is `d`. -/
def peekIs (d : Char) (cs : List Char) : Bool := cs.head? = some d

@[simp] theorem peekIs_cons (d c : Char) (cs : List Char) :
    peekIs d (c :: cs) = decide (c = d) := by
  unfold peekIs
  simp only [List.head?_cons, Option.some.injEq]

@[simp] theorem peekIs_nil (d : Char) : peekIs d [] = false := rfl

/-- The next character is a hexadecimal digit. -/
def peekXDigit (cs : List Char) : Bool := cs.head?.any isXDigit

/-- `lexCharsInto`. -/
def lexCharsInto (quote : Char) : List Char → Literal
  | [] => .unterminated
  | c :: cs =>
      if c = quote then ⟨[], cs, []⟩
      else if c = '$' then
        -- two dollar signs signify an ordinary one
        if peekIs '$' cs then
          match cs with
          | _ :: cs' => (lexCharsInto quote cs').push '$'
          | [] => .unterminated
        else (lexCharsInto quote cs).push '$'
      else if c ≠ '\\' then (lexCharsInto quote cs).push c
      else
        match cs with
        | [] => .unterminated
        | e :: ds =>
            if e ≠ 'x' then (lexCharsInto quote ds).push (escape e)
            else if ! peekXDigit ds then
              ((lexCharsInto quote ds).push '\x00').err "\\x expects hex digits"
            else
              match ds with
              | [] => .unterminated
              | d :: es =>
                  if ! peekXDigit es then
                    (lexCharsInto quote es).push (Char.ofNat (digitNat d))
                  else
                    match es with
                    | [] => .unterminated
                    | d' :: fs =>
                        (lexCharsInto quote fs).push (Char.ofNat (digitNat d * 16 + digitNat d'))

alias lexCharsInto_def := lexCharsInto.eq_def

@[simp] theorem Literal.rest_push (c : Char) (L : Literal) : (L.push c).rest = L.rest := rfl

@[simp] theorem Literal.rest_err (m : String) (L : Literal) : (L.err m).rest = L.rest := rfl

theorem suffix_cons₂ {α : Type*} {l cs : List α} {a b : α} (h : l <:+ cs) : l <:+ a :: b :: cs :=
  h.trans ((List.suffix_cons b cs).trans (List.suffix_cons a _))

/-- A literal is read from the front. -/
theorem lexCharsInto_suffix (quote : Char) (cs : List Char) :
    (lexCharsInto quote cs).rest <:+ cs := by
  fun_induction lexCharsInto quote cs with
  | case1 | case4 | case7 | case10 | case12 => exact List.nil_suffix
  | case2 => exact List.suffix_cons _ _
  | case5 _ _ _ ih | case6 _ _ _ _ _ ih => exact ih.trans (List.suffix_cons _ _)
  | case3 _ _ _ _ ih => exact suffix_cons₂ ih
  | case8 _ _ _ _ _ _ _ ih | case9 _ _ _ _ _ _ _ _ ih => exact suffix_cons₂ ih
  | case11 _ _ _ _ _ _ _ _ _ _ ih => exact suffix_cons₂ (ih.trans (List.suffix_cons _ _))
  | case13 _ _ _ _ _ _ _ _ _ _ _ ih => exact suffix_cons₂ (suffix_cons₂ ih)

/-- `lexCharsInto` at an opening quote that has not been consumed takes it for the
closing one. -/
theorem lexCharsInto_quote (quote : Char) (cs : List Char) :
    lexCharsInto quote (quote :: cs) = ⟨[], cs, []⟩ := by
  rw [lexCharsInto_def]
  exact if_pos rfl

section Shapes

variable {quote c : Char} {cs : List Char}

theorem lexCharsInto_plain (hq : c ≠ quote) (hd : c ≠ '$') (hs : c ≠ '\\') :
    lexCharsInto quote (c :: cs) = (lexCharsInto quote cs).push c := by
  conv => lhs; rw [lexCharsInto_def]
  simp only [if_neg hq, if_neg hd, if_pos hs]

theorem lexCharsInto_dollar (hq : '$' ≠ quote) (hp : peekIs '$' cs = false) :
    lexCharsInto quote ('$' :: cs) = (lexCharsInto quote cs).push '$' := by
  conv => lhs; rw [lexCharsInto_def]
  simp only [if_neg hq, if_true, hp, Bool.false_eq_true, if_false]

theorem lexCharsInto_dollars (hq : '$' ≠ quote) :
    lexCharsInto quote ('$' :: '$' :: cs) = (lexCharsInto quote cs).push '$' := by
  conv => lhs; rw [lexCharsInto_def]
  simp only [if_neg hq, if_true, peekIs_cons, decide_true]

theorem lexCharsInto_escape (hq : '\\' ≠ quote) {e : Char} (he : e ≠ 'x') :
    lexCharsInto quote ('\\' :: e :: cs) = (lexCharsInto quote cs).push (escape e) := by
  conv => lhs; rw [lexCharsInto_def]
  simp [hq, he]

/-- A backslash takes the character after it, and fails at the end of the file. -/
theorem lexCharsInto_cut (hq : '\\' ≠ quote) : lexCharsInto quote ['\\'] = .unterminated := by
  rw [lexCharsInto_def]
  simp [hq]

/-- A NUL is in what was decoded or in what is left, or there was an error. -/
def Literal.KeepsNul (L : Literal) : Prop := '\x00' ∈ L.text ∨ '\x00' ∈ L.rest ∨ L.errs ≠ []

theorem Literal.KeepsNul.push {L : Literal} (h : L.KeepsNul) (d : Char) : (L.push d).KeepsNul :=
  h.imp (List.mem_cons_of_mem d) id

/-- A NUL is decoded as itself, wherever it stands. -/
theorem nul_lexCharsInto (hq : quote ≠ '\x00') (h : '\x00' ∈ cs) :
    (lexCharsInto quote cs).KeepsNul := by
  fun_induction lexCharsInto quote cs with
  | case1 => exact absurd h (by simp)
  | case2 => exact Or.inr (Or.inl (List.mem_of_ne_of_mem hq.symm h))
  | case3 d cs' _ hp ih =>
      have hd : d = '$' := by simpa using hp
      subst hd
      exact (ih (by simpa using h)).push _
  | case5 cs' _ _ ih => exact (ih (by simpa using h)).push _
  | case6 d cs' _ _ _ ih =>
      rcases List.mem_cons.mp h with rfl | h
      · exact Or.inl List.mem_cons_self
      · exact (ih h).push _
  | case8 d _ _ hs e cs' _ ih =>
      have hd : d = '\\' := not_not.mp hs
      subst hd
      by_cases he : e = '\x00'
      · subst he
        exact Or.inl List.mem_cons_self
      · have hmem : '\x00' ∈ cs' := by simpa [Ne.symm he] using h
        exact (ih hmem).push _
  | case4 | case7 | case9 | case10 | case12 =>
      exact Or.inr (Or.inr (List.cons_ne_nil _ _))
  | case11 d _ _ hs e he d₁ cs' _ hx ih =>
      have hd : d = '\\' := not_not.mp hs
      have he : e = 'x' := not_not.mp he
      have hx : '\x00' ≠ d₁ := by
        rintro rfl
        exact absurd hx (by simp [peekXDigit]; decide)
      rw [hd, he] at h
      exact (ih (by simpa [hx] using h)).push _
  | case13 d _ _ hs e he d₁ d₂ cs' hx₂ hx₁ ih =>
      have hd : d = '\\' := not_not.mp hs
      have he : e = 'x' := not_not.mp he
      have hx₁ : '\x00' ≠ d₁ := by
        rintro rfl
        exact absurd hx₁ (by simp [peekXDigit]; decide)
      have hx₂ : '\x00' ≠ d₂ := by
        rintro rfl
        exact absurd hx₂ (by simp [peekXDigit]; decide)
      rw [hd, he] at h
      exact (ih (by simpa [hx₁, hx₂] using h)).push _

end Shapes

/-! ## Comments -/

/-- What follows a block comment, from after its opening; `none` if it does not end. -/
def blockComment : List Char → Option (List Char)
  | [] => none
  | c :: cs => if c = '*' && peekIs '/' cs then some cs.tail else blockComment cs

/-- What follows a line comment: the end of its line. -/
def lineComment (cs : List Char) : List Char := cs.dropWhile (· ≠ '\n')

theorem blockComment_suffix {cs rest : List Char} (h : blockComment cs = some rest) :
    rest <:+ cs := by
  induction cs with
  | nil => exact absurd h (by simp [blockComment])
  | cons c cs ih =>
      rw [blockComment] at h
      split_ifs at h with hc
      · rw [← Option.some.inj h]
        exact (List.tail_suffix cs).trans (List.suffix_cons c cs)
      · exact (ih h).trans (List.suffix_cons c cs)

/-- `skipToEndOfLine`: the end of the line, behind the line splices. -/
def skipToEndOfLine : List Char → List Char
  | [] => []
  | c :: cs =>
      if c = '\\' && peekIs '\n' cs then
        match cs with
        | _ :: cs' => skipToEndOfLine cs'
        | [] => []
      else if c = '\n' then c :: cs
      else skipToEndOfLine cs

theorem skipToEndOfLine_suffix (cs : List Char) : skipToEndOfLine cs <:+ cs := by
  fun_induction skipToEndOfLine cs with
  | case1 | case3 => exact List.nil_suffix
  | case2 _ _ _ _ ih => exact suffix_cons₂ ih
  | case4 => exact List.suffix_refl _
  | case5 _ _ _ _ ih => exact ih.trans (List.suffix_cons _ _)

/-! ## Numbers -/

/-- `strtoull` of a text of digits. -/
def strtoull (num : List Char) (base : Nat) : I64 :=
  BitVec.ofNat 64 (min (Numeral.value base (num.map digitNat)) (2 ^ 64 - 1))

/-- The digits at the front, without the underscores between them, and what follows. -/
def digitRun (isD : Char → Bool) (cs : List Char) : List Char × List Char :=
  let p := fun c => isD c || c = '_'
  ((cs.takeWhile p).filter (· ≠ '_'), cs.dropWhile p)

/-- The fraction of a number: its characters, if there is one, and what follows. -/
def fraction : List Char → Option (List Char × List Char)
  | '.' :: cs =>
      if cs.head?.any Char.isDigit then
        let (num, rest) := digitRun Char.isDigit cs
        some ('.' :: num, rest)
      else none
  | _ => none

/-- The exponent of a number: its characters, if there is one, and what follows. -/
def exponent : List Char → Option (List Char × List Char)
  | e :: c :: cs =>
      if (e = 'e' || e = 'E') &&
          (c.isDigit || ((c = '+' || c = '-') && cs.head?.any Char.isDigit)) then
        some (e :: c :: cs.takeWhile Char.isDigit, cs.dropWhile Char.isDigit)
      else none
  | _ => none

/-- `lexNumber`; `strtod` is the library's. -/
def lexNumber (strtod : List Char → ℚ) (cs : List Char) : Token × List Char :=
  if peekIs '0' cs && (peekIs 'x' cs.tail || peekIs 'X' cs.tail) then
    let (num, rest) := digitRun isXDigit (cs.drop 2)
    ({ kind := .intLit, ival := strtoull num 16 }, rest)
  else if peekIs '0' cs && (peekIs 'b' cs.tail || peekIs 'B' cs.tail) then
    let (num, rest) := digitRun (fun c => c = '0' || c = '1') (cs.drop 2)
    ({ kind := .intLit, ival := strtoull num 2 }, rest)
  else
    let (num, rest) := digitRun Char.isDigit cs
    let (frac, rest₁) := (fraction rest).getD ([], rest)
    let (exp, rest₂) := (exponent rest₁).getD ([], rest₁)
    if frac = [] ∧ exp = [] then ({ kind := .intLit, ival := strtoull num 10 }, rest₂)
    else ({ kind := .floatLit, fval := strtod (num ++ frac ++ exp) }, rest₂)

theorem digitRun_suffix (isD : Char → Bool) (cs : List Char) : (digitRun isD cs).2 <:+ cs :=
  List.dropWhile_suffix _

theorem fraction_suffix (cs : List Char) : ((fraction cs).getD ([], cs)).2 <:+ cs := by
  unfold fraction
  split
  · split_ifs
    · exact (digitRun_suffix _ _).trans (List.suffix_cons _ _)
    · exact List.suffix_refl _
  · exact List.suffix_refl _

theorem exponent_suffix (cs : List Char) : ((exponent cs).getD ([], cs)).2 <:+ cs := by
  unfold exponent
  split
  · split_ifs
    · exact suffix_cons₂ (List.dropWhile_suffix _)
    · exact List.suffix_refl _
  · exact List.suffix_refl _

theorem lexNumber_suffix (strtod : List Char → ℚ) (cs : List Char) :
    (lexNumber strtod cs).2 <:+ cs := by
  have hdec : ((exponent ((fraction (digitRun Char.isDigit cs).2).getD
      ([], (digitRun Char.isDigit cs).2)).2).getD ([], ((fraction (digitRun Char.isDigit cs).2).getD
      ([], (digitRun Char.isDigit cs).2)).2)).2 <:+ cs :=
    (exponent_suffix _).trans ((fraction_suffix _).trans (digitRun_suffix _ _))
  unfold lexNumber
  split_ifs
  · exact (digitRun_suffix _ _).trans (List.drop_suffix 2 cs)
  · exact (digitRun_suffix _ _).trans (List.drop_suffix 2 cs)
  · simp only
    split_ifs
    · exact hdec
    · exact hdec

/-! ## Punctuators -/

/-- The lambda `two` of `lexToken`. -/
def two (n : Char) (yes no : P) (cs : List Char) : P × List Char :=
  if peekIs n cs then (yes, cs.tail) else (no, cs)

/-- The `switch` of `lexToken` over the character `c`, with the characters after it;
`none` is its default. -/
def lexPunct (c : Char) (cs : List Char) : Option (P × List Char) :=
  match c with
  | '(' => some (.lParen, cs)
  | ')' => some (.rParen, cs)
  | '[' => some (.lBracket, cs)
  | ']' => some (.rBracket, cs)
  | '{' => some (.lBrace, cs)
  | '}' => some (.rBrace, cs)
  | ',' => some (.comma, cs)
  | ';' => some (.semi, cs)
  | '?' => some (.question, cs)
  | '$' => some (.dollar, cs)
  | '\x60' => some (.pow, cs)
  | '~' => some (.tilde, cs)
  | ':' => some (two ':' .colonColon .colon cs)
  | '.' =>
      if peekIs '.' cs && peekIs '.' cs.tail then some (.ellipsis, cs.drop 2)
      else some (.dot, cs)
  | '+' => if peekIs '+' cs then some (.plusPlus, cs.tail) else some (two '=' .plusEq .plus cs)
  | '-' =>
      if peekIs '-' cs then some (.minusMinus, cs.tail)
      else if peekIs '>' cs then some (.arrow, cs.tail)
      else some (two '=' .minusEq .minus cs)
  | '*' => some (two '=' .starEq .star cs)
  | '/' => some (two '=' .slashEq .slash cs)
  | '%' => some (two '=' .percentEq .percent cs)
  | '!' => some (two '=' .ne .not cs)
  | '=' => some (two '=' .eqEq .assign cs)
  | '&' => if peekIs '&' cs then some (.andAnd, cs.tail) else some (two '=' .ampEq .amp cs)
  | '|' => if peekIs '|' cs then some (.orOr, cs.tail) else some (two '=' .pipeEq .pipe cs)
  | '^' => if peekIs '^' cs then some (.xorXor, cs.tail) else some (two '=' .caretEq .caret cs)
  | '<' =>
      if peekIs '<' cs then some (two '=' .shlEq .shl cs.tail) else some (two '=' .le .lt cs)
  | '>' =>
      if peekIs '>' cs then some (two '=' .shrEq .shr cs.tail) else some (two '=' .ge .gt cs)
  | _ => none

theorem two_suffix (n : Char) (yes no : P) (cs : List Char) : (two n yes no cs).2 <:+ cs := by
  unfold two
  split_ifs
  · exact List.tail_suffix cs
  · exact List.suffix_refl cs

theorem suffix_of_eq {r : P × List Char} {p : P} {cs rest : List Char}
    (h : some r = some (p, rest)) (hr : r.2 <:+ cs) : rest <:+ cs := by
  rw [Option.some.inj h] at hr
  exact hr

theorem lexPunct_suffix {c : Char} {cs rest : List Char} {p : P}
    (h : lexPunct c cs = some (p, rest)) : rest <:+ cs := by
  have hrefl := List.suffix_refl cs
  have htail := List.tail_suffix cs
  have hdrop := List.drop_suffix 2 cs
  have htwo := fun n yes no => two_suffix n yes no cs
  have htwo' := fun n yes no => (two_suffix n yes no cs.tail).trans htail
  unfold lexPunct at h
  split at h <;> (try split_ifs at h) <;>
    first
    | exact suffix_of_eq h hrefl
    | exact suffix_of_eq h htail
    | exact suffix_of_eq h hdrop
    | exact suffix_of_eq h (htwo _ _ _)
    | exact suffix_of_eq h (htwo' _ _ _)
    | exact absurd h (by simp)

end Hlang.Lexer
