import Hlang.Lexer.Scan

/-!
# Hlang.Lexer.Spelling — what a token looks like in the source

The texts of identifiers, integer literals and punctuators, and that `lexToken`
reads each of them back. `punctStr` and the `switch` of `lexToken` are two tables
for the same punctuators; the numbers that `lexNumber` reads are the numerals of
`Numeral`.
-/

namespace Hlang.Lexer

open Numeral

/-! ## The texts -/

/-- `punctStr`. -/
def punctStr : P → String
  | .none => "<none>"
  | .lParen => "("
  | .rParen => ")"
  | .lBracket => "["
  | .rBracket => "]"
  | .lBrace => "\x7b"
  | .rBrace => "\x7d"
  | .comma => ","
  | .semi => ";"
  | .colon => ":"
  | .colonColon => "::"
  | .dot => "."
  | .ellipsis => "..."
  | .arrow => "->"
  | .plus => "+"
  | .minus => "-"
  | .star => "*"
  | .slash => "/"
  | .percent => "%"
  | .pow => "\x60"
  | .amp => "&"
  | .pipe => "|"
  | .caret => "^"
  | .shl => "<<"
  | .shr => ">>"
  | .tilde => "~"
  | .not => "!"
  | .andAnd => "&&"
  | .orOr => "||"
  | .xorXor => "^^"
  | .lt => "<"
  | .gt => ">"
  | .le => "<="
  | .ge => ">="
  | .eqEq => "=="
  | .ne => "!="
  | .assign => "="
  | .plusEq => "+="
  | .minusEq => "-="
  | .starEq => "*="
  | .slashEq => "/="
  | .percentEq => "%="
  | .shlEq => "<<="
  | .shrEq => ">>="
  | .ampEq => "&="
  | .pipeEq => "|="
  | .caretEq => "^="
  | .plusPlus => "++"
  | .minusMinus => "--"
  | .dollar => "$"
  | .at => "@"
  | .question => "?"

/-- The digit `d`. -/
def digitChar (upper : Bool) (d : Nat) : Char :=
  (if upper then "0123456789ABCDEF" else "0123456789abcdef").toList.getD d '0'

/-- The bases in which a literal can be written. -/
inductive Radix where
  | dec
  | hex (upper : Bool)
  | bin

namespace Radix

def base : Radix → Nat
  | dec => 10
  | hex _ => 16
  | bin => 2

/-- What stands before the digits. -/
def mark : Radix → List Char
  | dec => []
  | hex upper => ['0', if upper then 'X' else 'x']
  | bin => ['0', 'b']

def upper : Radix → Bool
  | hex upper => upper
  | _ => false

end Radix

/-- The literal `v`. -/
def intText (r : Radix) (v : Nat) : List Char :=
  r.mark ++ (numeral r.base v).map (digitChar r.upper)

/-- The characters make an identifier. -/
def isName : List Char → Bool
  | [] => false
  | c :: cs => (c.isAlpha || c = '_' || (c = '@' && peekIs '@' cs)) && cs.all isIdChar

/-- A token that can be written down. -/
inductive Spelled where
  | ident (n : List Char) (h : isName n = true)
  | int (v : I64) (r : Radix)
  | punct (p : P) (h : p ≠ .none)

namespace Spelled

def text : Spelled → List Char
  | ident n _ => n
  | int v r => intText r v.toNat
  | punct p _ => (punctStr p).toList

/-- What the token says. -/
def shape : Spelled → Token
  | ident n _ => .ofIdent (String.ofList n)
  | int v _ => .ofInt v
  | punct p _ => .ofPunct p

end Spelled

/-! ## Numbers are read back -/

/-- No token goes on with the next character. -/
def Ends (rest : List Char) : Prop :=
  ∀ c ∈ rest.head?, isIdChar c = false ∧ c ≠ '.' ∧ c ∉ ['=', '+', '-', '>', '<', '&', '|', '^',
    ':', '/', '*']

theorem ends_nil : Ends [] := by
  intro c hc
  exact absurd hc (by simp)

theorem ends_blank (cs : List Char) : Ends (' ' :: cs) := by
  intro c hc
  rw [List.head?_cons, Option.mem_some_iff] at hc
  rw [← hc]
  decide

/-- What a class of characters takes from the front of a text. -/
theorem takeWhile_of_ends {p : Char → Bool} {ds rest : List Char} (hds : ∀ c ∈ ds, p c = true)
    (hrest : ∀ c ∈ rest.head?, p c = false) :
    (ds ++ rest).takeWhile p = ds ∧ (ds ++ rest).dropWhile p = rest := by
  constructor
  · rw [List.takeWhile_append_of_pos hds]
    cases rest with
    | nil => simp
    | cons c rest => simp [hrest c (by simp)]
  · rw [List.dropWhile_append_of_pos hds]
    cases rest with
    | nil => rfl
    | cons c rest => simp [hrest c (by simp)]

theorem digitRun_of_ends {isD : Char → Bool} {ds rest : List Char}
    (hds : ∀ c ∈ ds, isD c = true ∧ c ≠ '_') (hrest : ∀ c ∈ rest.head?, isD c = false ∧ c ≠ '_') :
    digitRun isD (ds ++ rest) = (ds, rest) := by
  have htake : ∀ c ∈ ds, (isD c || c = '_') = true := fun c hc => by simp [hds c hc]
  have hstop : ∀ c ∈ rest.head?, (isD c || c = '_') = false := fun c hc => by simp [hrest c hc]
  have hsplit := takeWhile_of_ends htake hstop
  unfold digitRun
  simp only
  rw [hsplit.1, hsplit.2]
  have hfilter : ds.filter (· ≠ '_') = ds := by
    rw [List.filter_eq_self]
    intro c hc
    simpa using (hds c hc).2
  rw [hfilter]

theorem digitChar_spec : ∀ (upper : Bool) (d : Fin 16),
    digitNat (digitChar upper d) = d ∧ isXDigit (digitChar upper d) = true ∧
      digitChar upper d ≠ '_' ∧ isBlank (digitChar upper d) = false ∧
      (d.val < 10 → (digitChar upper d).isDigit = true) ∧
      (d.val < 2 → digitChar upper d = '0' ∨ digitChar upper d = '1') := by
  decide

theorem map_digitNat {upper : Bool} {ds : List Nat} (hds : ∀ d ∈ ds, d < 16) :
    (ds.map (digitChar upper)).map digitNat = ds := by
  rw [List.map_map]
  conv => rhs; rw [← List.map_id ds]
  apply List.map_congr_left
  intro d hd
  exact (digitChar_spec upper ⟨d, hds d hd⟩).1

/-- `strtoull` of the numeral of a number of 64 bits. -/
theorem strtoull_numeral {b : Nat} (hb : 1 < b) (hb' : b ≤ 16) (upper : Bool) (v : I64) :
    strtoull ((numeral b v.toNat).map (digitChar upper)) b = v := by
  have hlt := v.isLt
  unfold strtoull
  rw [map_digitNat (fun d hd => Nat.lt_of_lt_of_le (numeral_lt hb hd) hb'), value_numeral,
    Nat.min_eq_left (by omega), BitVec.ofNat_toNat, BitVec.setWidth_eq]

theorem peekIs_false {d : Char} {rest : List Char} (h : ∀ c ∈ rest.head?, c ≠ d) :
    peekIs d rest = false := by
  cases rest with
  | nil => rfl
  | cons c rest =>
      rw [peekIs_cons, decide_eq_false_iff_not]
      exact h c rfl

/-- What follows a numeral is not one of its digits. -/
theorem Ends.digit {rest : List Char} (h : Ends rest) :
    ∀ c ∈ rest.head?, c.isDigit = false ∧ isXDigit c = false ∧ c ≠ '_' ∧ c ≠ '0' ∧ c ≠ '1' ∧
      c ≠ 'x' ∧ c ≠ 'X' ∧ c ≠ 'b' ∧ c ≠ 'B' ∧ c ≠ 'e' ∧ c ≠ 'E' := by
  intro c hc
  have hid := (h c hc).1
  have hne : ∀ d, isIdChar d = true → c ≠ d := by
    intro d hd heq
    rw [heq, hd] at hid
    exact absurd hid (by decide)
  have halnum : c.isAlphanum = false := by
    unfold isIdChar at hid
    rw [Bool.or_eq_false_iff, Bool.or_eq_false_iff] at hid
    exact hid.1.1
  have hx : isXDigit c = false := by
    unfold Char.isAlphanum Char.isAlpha Char.isUpper Char.isLower Char.isDigit at halnum
    unfold isXDigit Char.isDigit
    simp only [Bool.or_eq_false_iff, Bool.and_eq_false_iff, decide_eq_false_iff_not,
      Char.le_def, UInt32.le_iff_toNat_le] at halnum ⊢
    have h₁ : 'a'.val.toNat = 97 := rfl
    have h₂ : 'f'.val.toNat = 102 := rfl
    have h₃ : 'A'.val.toNat = 65 := rfl
    have h₄ : 'F'.val.toNat = 70 := rfl
    have h₅ : 'z'.val.toNat = 122 := rfl
    have h₆ : 'Z'.val.toNat = 90 := rfl
    omega
  have hdigit : c.isDigit = false := by
    unfold Char.isAlphanum at halnum
    exact (Bool.or_eq_false_iff.mp halnum).2
  refine ⟨hdigit, hx, ?_, ?_, ?_, ?_, ?_, ?_, ?_, ?_, ?_⟩ <;> exact hne _ (by decide)

/-- The digits of a decimal literal. -/
theorem decimal_digit {upper : Bool} {v : Nat} {c : Char}
    (hc : c ∈ (numeral 10 v).map (digitChar upper)) : c.isDigit = true ∧ c ≠ '_' := by
  rcases List.mem_map.mp hc with ⟨d, hd, rfl⟩
  have hlt := numeral_lt (by decide) hd
  have hspec := digitChar_spec upper ⟨d, by omega⟩
  exact ⟨hspec.2.2.2.2.1 hlt, hspec.2.2.1⟩

/-- The second character of a decimal literal begins no other radix. -/
theorem peekIs_tail {ds rest : List Char} (hds : ∀ c ∈ ds, c.isDigit = true) {d : Char}
    (hd : d.isDigit = false) (hrest : ∀ c ∈ rest.head?, c ≠ d) (hne : ds ≠ []) :
    peekIs d (ds ++ rest).tail = false := by
  apply peekIs_false
  intro c hc
  cases ds with
  | nil => exact absurd rfl hne
  | cons d₀ ds =>
      cases ds with
      | nil => exact hrest c (by simpa using hc)
      | cons d₁ ds =>
          have hc : d₁ = c := by simpa using hc
          rintro rfl
          have hdig := hds d₁ (by simp)
          rw [hc, hd] at hdig
          exact absurd hdig (by decide)

theorem fraction_of_ends {rest : List Char} (h : Ends rest) : fraction rest = none := by
  unfold fraction
  split
  · exact absurd rfl (h '.' rfl).2.1
  · rfl

theorem exponent_of_ends {rest : List Char} (h : Ends rest) : exponent rest = none := by
  unfold exponent
  split
  · rename_i e c cs
    have he := h.digit e rfl
    simp [he]
  · rfl

/-- A hexadecimal literal, with either case of its mark and of its digits. -/
theorem lexNumber_hex (strtod : List Char → ℚ) {x : Char} (hx : x = 'x' ∨ x = 'X') (upper : Bool)
    (v : I64) {rest : List Char} (hrest : Ends rest) :
    lexNumber strtod ('0' :: x :: ((numeral 16 v.toNat).map (digitChar upper) ++ rest)) =
      (.ofInt v, rest) := by
  have hend := hrest.digit
  have hds : ∀ c ∈ (numeral 16 v.toNat).map (digitChar upper), isXDigit c = true ∧ c ≠ '_' := by
    intro c hc
    rcases List.mem_map.mp hc with ⟨d, hd, rfl⟩
    have hspec := digitChar_spec upper ⟨d, numeral_lt (by decide) hd⟩
    exact ⟨hspec.2.1, hspec.2.2.1⟩
  have hrun := digitRun_of_ends hds (fun c hc => ⟨(hend c hc).2.1, (hend c hc).2.2.1⟩)
  have hval := strtoull_numeral (b := 16) (by decide) (by decide) upper v
  unfold lexNumber
  rcases hx with rfl | rfl <;> simp [hrun, hval, Token.ofInt]

/-- A literal that is a numeral ends before what follows it. -/
theorem lexNumber_intText (strtod : List Char → ℚ) (r : Radix) (v : I64) {rest : List Char}
    (hrest : Ends rest) :
    lexNumber strtod (intText r v.toNat ++ rest) = (.ofInt v, rest) := by
  have hend := hrest.digit
  cases r with
  | hex upper => cases upper <;> exact lexNumber_hex strtod (by simp) _ v hrest
  | bin =>
      have hds : ∀ c ∈ (numeral 2 v.toNat).map (digitChar false),
          (decide (c = '0') || decide (c = '1')) = true ∧ c ≠ '_' := by
        intro c hc
        rcases List.mem_map.mp hc with ⟨d, hd, rfl⟩
        have hlt := numeral_lt (by decide) hd
        have hspec := digitChar_spec false ⟨d, by omega⟩
        exact ⟨by simpa using hspec.2.2.2.2.2 hlt, hspec.2.2.1⟩
      have hrun : digitRun (fun c => c = '0' || c = '1')
          ((numeral 2 v.toNat).map (digitChar false) ++ rest) = (_, rest) := digitRun_of_ends hds
        (fun c hc => ⟨by simp [(hend c hc).2.2.2.1, (hend c hc).2.2.2.2.1], (hend c hc).2.2.1⟩)
      have hval := strtoull_numeral (b := 2) (by decide) (by decide) false v
      unfold lexNumber intText
      simp [Radix.mark, Radix.base, Radix.upper, hrun, hval, Token.ofInt]
  | dec =>
      have hds : ∀ c ∈ (numeral 10 v.toNat).map (digitChar false), c.isDigit = true ∧ c ≠ '_' :=
        fun c hc => decimal_digit hc
      have hne : (numeral 10 v.toNat).map (digitChar false) ≠ [] := by
        rw [ne_eq, List.map_eq_nil_iff]
        exact numeral_ne_nil
      have htail : ∀ d ∈ ['x', 'X', 'b', 'B'],
          peekIs d ((numeral 10 v.toNat).map (digitChar false) ++ rest).tail = false := by
        intro d hd
        refine peekIs_tail (fun c hc => (hds c hc).1) ?_ ?_ hne
        · have hall : ['x', 'X', 'b', 'B'].all (fun d => d.isDigit = false) = true := by decide
          exact of_decide_eq_true (List.all_eq_true.mp hall d hd)
        · intro c hc heq
          have hc := hend c hc
          simp only [List.mem_cons, List.not_mem_nil, or_false] at hd
          rcases hd with rfl | rfl | rfl | rfl <;> simp [heq] at hc
      have hrun := digitRun_of_ends hds (fun c hc => ⟨(hend c hc).1, (hend c hc).2.2.1⟩)
      have hval := strtoull_numeral (b := 10) (by decide) (by decide) false v
      unfold lexNumber intText
      simp only [Radix.mark, Radix.base, Radix.upper, List.nil_append, htail 'x' (by simp),
        htail 'X' (by simp), htail 'b' (by simp), htail 'B' (by simp), Bool.or_false,
        Bool.and_false, Bool.false_eq_true, if_false, hrun, fraction_of_ends hrest,
        exponent_of_ends hrest, Option.getD_none, and_self, if_true, hval, Token.ofInt]

/-! ## Tokens are read back -/

/-- A text begins with a character that `rawNext` takes for the first of a token. -/
structure Starts (c : Char) (cs : List Char) : Prop where
  blank : isBlank c = false
  hash : c ≠ '#'
  line_comment : (c = '/' && peekIs '/' cs) = false
  block_comment : (c = '/' && peekIs '*' cs) = false

theorem starts_of_isIdChar {c : Char} (h : isIdChar c = true) (cs : List Char) : Starts c cs := by
  have hne : ∀ d, isIdChar d = false → c ≠ d := by
    intro d hd heq
    rw [heq, hd] at h
    exact absurd h (by decide)
  have hslash : c ≠ '/' := hne _ (by decide)
  constructor
  · unfold isBlank
    simp [hne ' ' (by decide), hne '\t' (by decide), hne '\r' (by decide), hne '\n' (by decide),
      hne '\x0c' (by decide), hne '\x0b' (by decide)]
  · exact hne _ (by decide)
  · simp [hslash]
  · simp [hslash]

theorem Ends.peekIs {rest : List Char} (h : Ends rest) {d : Char}
    (hd : d ∈ ['.', '=', '+', '-', '>', '<', '&', '|', '^', ':', '/', '*']) :
    peekIs d rest = false := by
  apply peekIs_false
  rintro c hc rfl
  rcases List.mem_cons.mp hd with rfl | hd
  · exact (h _ hc).2.1 rfl
  · exact (h c hc).2.2 hd

theorem two_no {n : Char} {cs : List Char} (h : peekIs n cs = false) (yes no : P) :
    two n yes no cs = (no, cs) := by
  unfold two
  rw [if_neg (by rw [h]; exact Bool.false_ne_true)]

/-- The two tables of punctuators agree. -/
theorem lexPunct_punctStr {p : P} (hp : p ≠ .none) (hat : p ≠ .at) {rest : List Char}
    (h : Ends rest) :
    ∃ c cs, (punctStr p).toList ++ rest = c :: cs ∧ lexPunct c cs = some (p, rest) := by
  have hno : ∀ d ∈ ['.', '=', '+', '-', '>', '<', '&', '|', '^', ':', '/', '*'],
      ¬ peekIs d rest = true := by
    intro d hd
    rw [h.peekIs hd]
    exact Bool.false_ne_true
  have htwo : ∀ d ∈ ['.', '=', '+', '-', '>', '<', '&', '|', '^', ':', '/', '*'], ∀ yes no,
      some (two d yes no rest) = some (no, rest) := by
    intro d hd yes no
    rw [two_no (h.peekIs hd)]
  cases p with
  | none => exact absurd rfl hp
  | «at» => exact absurd rfl hat
  | lParen | rParen | lBracket | rBracket | lBrace | rBrace | comma | semi | question | dollar |
    pow | tilde | colonColon | ellipsis | plusPlus | plusEq | minusMinus | arrow | minusEq |
    starEq | slashEq | percentEq | ne | eqEq | andAnd | ampEq | orOr | pipeEq | xorXor | caretEq |
    shlEq | le | shrEq | ge => exact ⟨_, _, rfl, rfl⟩
  -- the others are the beginnings of longer ones
  | colon => exact ⟨_, _, rfl, htwo ':' (by simp) _ _⟩
  | star | slash | percent | not | assign => exact ⟨_, _, rfl, htwo '=' (by simp) _ _⟩
  | shl | shr => exact ⟨_, _, rfl, htwo '=' (by simp) _ _⟩
  | plus => exact ⟨_, _, rfl, (if_neg (hno '+' (by simp))).trans (htwo '=' (by simp) _ _)⟩
  | amp => exact ⟨_, _, rfl, (if_neg (hno '&' (by simp))).trans (htwo '=' (by simp) _ _)⟩
  | pipe => exact ⟨_, _, rfl, (if_neg (hno '|' (by simp))).trans (htwo '=' (by simp) _ _)⟩
  | caret => exact ⟨_, _, rfl, (if_neg (hno '^' (by simp))).trans (htwo '=' (by simp) _ _)⟩
  | lt => exact ⟨_, _, rfl, (if_neg (hno '<' (by simp))).trans (htwo '=' (by simp) _ _)⟩
  | gt => exact ⟨_, _, rfl, (if_neg (hno '>' (by simp))).trans (htwo '=' (by simp) _ _)⟩
  | minus =>
      exact ⟨_, _, rfl, (if_neg (hno '-' (by simp))).trans ((if_neg (hno '>' (by simp))).trans
        (htwo '=' (by simp) _ _))⟩
  | dot =>
      have hdot := h.peekIs (d := '.') (by simp)
      have hif : ¬ (peekIs '.' rest && peekIs '.' rest.tail) = true := by simp [hdot]
      exact ⟨_, _, rfl, if_neg hif⟩

/-- The characters of the `switch` begin no other token. -/
theorem lexPunct_char {c : Char} {cs : List Char} {r : P × List Char} (h : lexPunct c cs = some r) :
    isIdChar c = false ∧ isBlank c = false ∧ c ≠ '#' ∧ c ≠ '"' ∧ c ≠ '\'' := by
  unfold lexPunct at h
  split at h <;> first
    | decide
    | exact absurd h (by simp)

theorem slash_punctStr (p : P) (h : (punctStr p).toList.head? = some '/') :
    p = .slash ∨ p = .slashEq := by
  cases p <;> first
    | exact Or.inl rfl
    | exact Or.inr rfl
    | exact absurd h (by decide)

theorem isIdChar_of_start {c : Char} (h : c.isAlpha = true ∨ c.isDigit = true ∨ c = '_' ∨ c = '@') :
    isIdChar c = true := by
  unfold isIdChar Char.isAlphanum
  rcases h with h | h | rfl | rfl <;> simp [*]

theorem isName_idChar {n : List Char} (h : isName n = true) : ∀ c ∈ n, isIdChar c = true := by
  intro c hc
  cases n with
  | nil => exact absurd hc (by simp)
  | cons d n =>
      unfold isName at h
      rw [Bool.and_eq_true] at h
      rcases List.mem_cons.mp hc with rfl | hc
      · apply isIdChar_of_start
        have h := h.1
        simp only [Bool.or_eq_true, Bool.and_eq_true, decide_eq_true_eq] at h
        rcases h with (h | h) | h
        · exact Or.inl h
        · exact Or.inr (Or.inr (Or.inl h))
        · exact Or.inr (Or.inr (Or.inr h.1))
      · exact List.all_eq_true.mp h.2 c hc

/-- The first character of a literal is a digit. -/
theorem intText_cons (r : Radix) (v : Nat) :
    ∃ c cs, intText r v = c :: cs ∧ c.isDigit = true := by
  cases r with
  | hex upper => exact ⟨_, _, rfl, rfl⟩
  | bin => exact ⟨_, _, rfl, rfl⟩
  | dec =>
      unfold intText
      cases hds : (numeral 10 v).map (digitChar false) with
      | nil =>
          rw [List.map_eq_nil_iff] at hds
          exact absurd hds numeral_ne_nil
      | cons c cs =>
          have hmem : c ∈ (numeral 10 v).map (digitChar false) := by
            rw [hds]
            exact List.mem_cons_self
          exact ⟨c, cs, hds, (decimal_digit hmem).1⟩

theorem punctStr_ne_nil (p : P) : (punctStr p).toList ≠ [] := by cases p <;> decide

/-- The first characters of a name, and of a single `@`, are told apart. -/
theorem isName_start {c : Char} {n : List Char} (h : isName (c :: n) = true) (rest : List Char) :
    (c.isAlpha || c = '_' || c = '@') = true ∧ ¬ (c = '@' && ! peekIs '@' (n ++ rest)) = true := by
  unfold isName at h
  simp only [Bool.and_eq_true, Bool.or_eq_true, decide_eq_true_eq] at h
  rcases h.1 with (halpha | rfl) | ⟨rfl, hpeek⟩
  · have hc : c ≠ '@' := by
      rintro rfl
      exact absurd halpha (by decide)
    simp [halpha, hc]
  · simp
  · cases n with
    | nil => exact absurd hpeek (by decide)
    | cons d n => simpa using hpeek

theorem digit_not_start {c : Char} (h : c.isDigit = true) :
    (c.isAlpha || c = '_' || c = '@') = false := by
  have halpha : c.isAlpha = false := by
    unfold Char.isDigit at h
    unfold Char.isAlpha Char.isUpper Char.isLower
    simp only [Bool.or_eq_false_iff, Bool.and_eq_false_iff, Bool.and_eq_true, decide_eq_true_eq,
      decide_eq_false_iff_not, UInt32.le_iff_toNat_le, ge_iff_le] at h ⊢
    have h₁ : '0'.val.toNat = 48 := rfl
    have h₂ : '9'.val.toNat = 57 := rfl
    have h₃ : 'A'.val.toNat = 65 := rfl
    have h₄ : 'Z'.val.toNat = 90 := rfl
    have h₅ : 'a'.val.toNat = 97 := rfl
    have h₆ : 'z'.val.toNat = 122 := rfl
    omega
  have hne : ∀ d, d.isDigit = false → c ≠ d := by
    intro d hd heq
    rw [heq, hd] at h
    exact Bool.false_ne_true h
  simp [halpha, hne '_' (by decide), hne '@' (by decide)]

namespace Scanner

/-- A name that no other character of a name follows. -/
theorem token_ident (E : ScanEnv) (s : Scanner) {c : Char} {n rest : List Char}
    (hn : isName (c :: n) = true) (hrest : ∀ d ∈ rest.head?, isIdChar d = false) :
    Starts c (n ++ rest) ∧ s.token E c (n ++ rest) =
      some ({ Token.ofIdent (String.ofList (c :: n)) with loc := s.here }, s.moveTo rest) := by
  have hall := isName_idChar hn
  have hsplit := takeWhile_of_ends hall hrest
  have hstart := isName_start hn rest
  constructor
  · exact starts_of_isIdChar (hall c List.mem_cons_self) _
  · unfold token
    simp only
    rw [if_pos hstart.1, if_neg hstart.2, ← List.cons_append, hsplit.1, hsplit.2]
    rfl

/-- A text that begins with a digit is a number. -/
theorem token_number (E : ScanEnv) (s : Scanner) {c : Char} {cs rest : List Char} {v : I64}
    (hdigit : c.isDigit = true) (hnum : lexNumber E.strtod (c :: cs) = (.ofInt v, rest)) :
    Starts c cs ∧
      s.token E c cs = some ({ Token.ofInt v with loc := s.here }, s.moveTo rest) := by
  constructor
  · exact starts_of_isIdChar (isIdChar_of_start (Or.inr (Or.inl hdigit))) _
  · have hnot : ¬ (c.isAlpha || c = '_' || c = '@') = true := by
      rw [digit_not_start hdigit]
      exact Bool.false_ne_true
    unfold token
    simp only
    rw [if_neg hnot, if_pos hdigit, hnum]

/-- What is written down is read back, up to what follows it. -/
theorem token_text (E : ScanEnv) (t : Spelled) (s : Scanner) {rest : List Char}
    (h : Ends rest) : ∃ c cs, t.text ++ rest = c :: cs ∧ Starts c cs ∧
      s.token E c cs = some ({ t.shape with loc := s.here }, s.moveTo rest) := by
  cases t with
  | ident n hn =>
      cases n with
      | nil => exact absurd hn (by decide)
      | cons c n =>
          have htoken := token_ident E s hn fun d hd => (h d hd).1
          exact ⟨c, n ++ rest, rfl, htoken.1, htoken.2⟩
  | int v r =>
      rcases intText_cons r v.toNat with ⟨c, cs, htext, hdigit⟩
      have hnum := lexNumber_intText E.strtod r v h
      rw [htext, List.cons_append] at hnum
      have htoken := token_number E s hdigit hnum
      exact ⟨c, cs ++ rest, congrArg (· ++ rest) htext, htoken.1, htoken.2⟩
  | punct p hp =>
      by_cases hat : p = .at
      · -- a single `@` is read before the other punctuators
        subst hat
        have hpeek : Hlang.Lexer.peekIs '@' rest = false := by
          apply peekIs_false
          rintro c hc rfl
          exact absurd (h _ hc).1 (by decide)
        refine ⟨'@', rest, rfl, starts_of_isIdChar (by decide) _, ?_⟩
        unfold token
        simp only [hpeek]
        rfl
      · rcases lexPunct_punctStr hp hat h with ⟨c, cs, htext, hpunct⟩
        rcases lexPunct_char hpunct with ⟨hid, hblank, hhash, hquote, happ⟩
        have hstart : ¬ (c.isAlpha || c = '_' || c = '@') = true ∧ ¬ c.isDigit = true := by
          constructor
          · intro hc
            simp only [Bool.or_eq_true, decide_eq_true_eq] at hc
            have hid' := isIdChar_of_start (c := c) (by
              rcases hc with (hc | hc) | hc
              · exact Or.inl hc
              · exact Or.inr (Or.inr (Or.inl hc))
              · exact Or.inr (Or.inr (Or.inr hc)))
            rw [hid] at hid'
            exact Bool.false_ne_true hid'
          · intro hc
            have hid' := isIdChar_of_start (Or.inr (Or.inl hc))
            rw [hid] at hid'
            exact Bool.false_ne_true hid'
        have hcomment : c = '/' → Hlang.Lexer.peekIs '/' cs = false ∧
            Hlang.Lexer.peekIs '*' cs = false := by
          rintro rfl
          have hhead : (punctStr p).toList.head? = some '/' := by
            cases hp : (punctStr p).toList with
            | nil => exact absurd hp (punctStr_ne_nil p)
            | cons d ds =>
                rw [hp, List.cons_append] at htext
                rw [(List.cons.inj htext).1]
                rfl
          rcases slash_punctStr p hhead with rfl | rfl
          · have hcs : rest = cs := (List.cons.inj htext).2
            rw [← hcs]
            exact ⟨h.peekIs (by simp), h.peekIs (by simp)⟩
          · have hcs : '=' :: rest = cs := (List.cons.inj htext).2
            rw [← hcs]
            exact ⟨rfl, rfl⟩
        refine ⟨c, cs, htext, ⟨hblank, hhash, ?_, ?_⟩, ?_⟩
        · by_cases hc : c = '/'
          · simp [(hcomment hc).1]
          · simp [hc]
        · by_cases hc : c = '/'
          · simp [(hcomment hc).2]
          · simp [hc]
        · unfold token
          simp only
          rw [if_neg hstart.1, if_neg hstart.2, if_neg hquote, if_neg happ, hpunct]
          rfl

/-! ## Reading a text -/

/-- A lexer at the start of a text; `Lexer::fromBuffer`. -/
def fromBuffer (buf : List Char) (name : String) : Scanner where
  stack := [{ buf, file := name, dir := "." }]

/-- The tokens that calls of `rawNext` return before `Eof`, and the lexer then; `n`
bounds each call, the other number how many there are. -/
def rawTokens (E : ScanEnv) (n : Nat) : Nat → Scanner → Option (List Token × Scanner)
  | 0, _ => none
  | k + 1, s =>
      match rawNext E n s with
      | none => none
      | some (t, s) =>
          if t.kind = .eof then some ([], s)
          else (rawTokens E n k s).map fun (ts, s) => (t :: ts, s)

/-- The lexer stands in its only buffer, outside skipped regions and conditionals. -/
structure Plain (s : Scanner) : Prop where
  buffer : ∃ src, s.stack = [src]
  conds : s.dirs.conds = []

theorem Plain.moveTo {s : Scanner} (h : Plain s) (rest : List Char) : Plain (s.moveTo rest) := by
  rcases h with ⟨⟨src, hsrc⟩, hconds⟩
  constructor
  · exact ⟨src.moveTo rest, by unfold Scanner.moveTo; rw [hsrc]⟩
  · rw [moveTo_dirs, hconds]

theorem Plain.chars {s : Scanner} {src : Source} (h : s.stack = [src]) : s.chars = src.buf := by
  unfold Scanner.chars
  rw [h]

/-- `rawNext` at the first character of a token. -/
theorem rawNext_token {E : ScanEnv} {s : Scanner} (hs : s.dirs.skippingConds = false) {c : Char}
    {cs : List Char} (hchars : s.chars = c :: cs) (hc : Starts c cs) {r : Token × Scanner}
    (ht : s.token E c cs = some r) (n : Nat) : rawNext E (n + 2) s = some r := by
  have hstack : ∃ src below, s.stack = src :: below ∧ src.buf = c :: cs := by
    unfold Scanner.chars at hchars
    split at hchars
    · exact absurd hchars (by simp)
    · rename_i src below hsrc
      exact ⟨src, below, hsrc, hchars⟩
  rcases hstack with ⟨src, below, hsrc, hbuf⟩
  unfold rawNext
  simp only [hsrc, hbuf, hc.blank, hc.line_comment, hc.block_comment, hs, if_neg hc.hash,
    Bool.false_eq_true, if_false]
  unfold lexToken
  simp only [hchars, ht]

theorem rawNext_blank {E : ScanEnv} {s : Scanner} {c : Char} {cs : List Char}
    (hchars : s.chars = c :: cs) (hc : isBlank c = true) (n : Nat) :
    rawNext E (n + 1) s = rawNext E n (s.moveTo cs) := by
  unfold Scanner.chars at hchars
  split at hchars
  · exact absurd hchars (by simp)
  · rename_i src below hsrc
    conv => lhs; unfold rawNext
    simp only [hsrc, hchars, hc, if_true]

/-- At the end of the only buffer. -/
theorem rawNext_end {E : ScanEnv} {s : Scanner} (hs : Plain s) (hchars : s.chars = []) (n : Nat) :
    rawNext E (n + 2) s = some (eofToken, { s with stack := [] }) := by
  rcases hs.buffer with ⟨src, hsrc⟩
  rw [Plain.chars hsrc] at hchars
  unfold rawNext
  simp only [hsrc, hchars, hs.conds, List.isEmpty_nil, Bool.not_true, Bool.false_and,
    Bool.false_eq_true, if_false]
  unfold rawNext
  simp only [eofToken, here]

/-- The texts of tokens, with one blank between them. -/
def spell : List Spelled → List Char
  | [] => []
  | [t] => t.text
  | t :: ts => t.text ++ ' ' :: spell ts

/-- What is left after the first tokens: nothing, or a blank and the texts of the others. -/
def spellRest (ts : List Spelled) : List Char := if ts = [] then [] else ' ' :: spell ts

theorem spell_cons (t : Spelled) (ts : List Spelled) :
    spell (t :: ts) = t.text ++ spellRest ts := by
  cases ts with
  | nil => simp [spell, spellRest]
  | cons u us => simp [spell, spellRest]

theorem ends_spellRest (ts : List Spelled) : Ends (spellRest ts) := by
  unfold spellRest
  split_ifs
  · exact ends_nil
  · exact ends_blank _

theorem skipping_of_conds {d : DirState} (h : d.conds = []) : d.skippingConds = false := by
  unfold DirState.skippingConds
  rw [h, List.any_nil]

theorem kind_shape (t : Spelled) (loc : SrcLoc) :
    ({ t.shape with loc } : Token).kind ≠ .eof ∧ ({ t.shape with loc } : Token).shape = t.shape := by
  cases t <;> exact ⟨(fun h => nomatch h), rfl⟩

/-- One token: it is read, and the lexer stands behind it. -/
theorem rawNext_spelled (E : ScanEnv) (t : Spelled) {s : Scanner} (hs : Plain s)
    {rest : List Char} (hrest : Ends rest) (hchars : s.chars = t.text ++ rest) (n : Nat) :
    rawNext E (n + 2) s = some ({ t.shape with loc := s.here }, s.moveTo rest) := by
  rcases token_text E t s hrest with ⟨c, cs, htext, hstart, htoken⟩
  rw [htext] at hchars
  exact rawNext_token (skipping_of_conds hs.conds) hchars hstart htoken n

/-- One token, behind the blank that separates it from the last one. -/
theorem rawNext_separated (E : ScanEnv) (t : Spelled) {s : Scanner} (hs : Plain s)
    {rest : List Char} (hrest : Ends rest)
    (hchars : s.chars = t.text ++ rest ∨ s.chars = ' ' :: (t.text ++ rest)) (n : Nat) :
    ∃ loc s', rawNext E (n + 3) s = some ({ t.shape with loc }, s') ∧ Plain s' ∧
      s'.chars = rest ∧ s'.dirs = s.dirs := by
  have hafter : ∀ s₁ : Scanner, Plain s₁ → s₁.chars = t.text ++ rest → ∀ m,
      ∃ loc s', rawNext E (m + 2) s₁ = some ({ t.shape with loc }, s') ∧ Plain s' ∧
        s'.chars = rest ∧ s'.dirs = s₁.dirs := by
    intro s₁ hs₁ hchars₁ m
    refine ⟨_, _, rawNext_spelled E t hs₁ hrest hchars₁ m, hs₁.moveTo rest, ?_, moveTo_dirs _ _⟩
    apply moveTo_chars
    rw [hchars₁]
    exact List.suffix_append _ _
  rcases hchars with hchars | hchars
  · exact hafter s hs hchars (n + 1)
  · -- the blank costs one more turn of the loop of `rawNext`
    have hsuffix : t.text ++ rest <:+ s.chars := by
      rw [hchars]
      exact List.suffix_cons _ _
    rcases hafter (s.moveTo (t.text ++ rest)) (hs.moveTo _) (moveTo_chars hsuffix) n with
      ⟨loc, s', hnext, hs', hrest', hdirs⟩
    refine ⟨loc, s', ?_, hs', hrest', hdirs.trans (moveTo_dirs _ _)⟩
    rw [rawNext_blank hchars (by decide), hnext]

/-- The induction over the tokens. -/
theorem rawTokens_spell (E : ScanEnv) (n k : Nat) (ts : List Spelled) {s : Scanner}
    (hs : Plain s) (hchars : s.chars = spell ts ∨ s.chars = spellRest ts) :
    ∃ out s', rawTokens E (n + 3) (ts.length + 1 + k) s = some (out, s') ∧
      out.map Token.shape = ts.map Spelled.shape ∧ s'.dirs = s.dirs := by
  induction ts generalizing s with
  | nil =>
      have hchars : s.chars = [] := hchars.elim id id
      refine ⟨[], { s with stack := [] }, ?_, rfl, rfl⟩
      rw [List.length_nil, Nat.zero_add, Nat.add_comm 1 k, rawTokens, rawNext_end hs hchars]
      rfl
  | cons t ts ih =>
      have hchars : s.chars = t.text ++ spellRest ts ∨
          s.chars = ' ' :: (t.text ++ spellRest ts) := by
        rw [spellRest, if_neg (List.cons_ne_nil _ _), spell_cons] at hchars
        exact hchars
      rcases rawNext_separated E t hs (ends_spellRest ts) hchars n with
        ⟨loc, s₁, hnext, hs₁, hchars₁, hdirs₁⟩
      rcases ih hs₁ (Or.inr hchars₁) with ⟨out, s', hout, hshape, hdirs⟩
      have hkind := kind_shape t loc
      refine ⟨{ t.shape with loc } :: out, s', ?_, ?_, hdirs.trans hdirs₁⟩
      · rw [List.length_cons, show ts.length + 1 + 1 + k = ts.length + 1 + k + 1 by omega,
          rawTokens, hnext]
        simp only
        rw [if_neg hkind.1, hout]
        rfl
      · rw [List.map_cons, List.map_cons, hkind.2, hshape]

/-- The tokens of a text that was spelled are the tokens it was spelled from, and nothing is
reported. -/
theorem rawTokens_fromBuffer (E : ScanEnv) (ts : List Spelled) (name : String) (n k : Nat) :
    ∃ out s', rawTokens E (n + 3) (ts.length + 1 + k) (fromBuffer (spell ts) name) =
        some (out, s') ∧
      out.map Token.shape = ts.map Spelled.shape ∧ s'.dirs.errors = [] := by
  have hplain : Plain (fromBuffer (spell ts) name) := ⟨⟨_, rfl⟩, rfl⟩
  rcases rawTokens_spell E n k ts hplain (Or.inl rfl) with ⟨out, s', hout, hshape, hdirs⟩
  exact ⟨out, s', hout, hshape, by rw [hdirs]; rfl⟩

end Scanner

end Hlang.Lexer
