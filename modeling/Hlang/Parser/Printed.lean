import Hlang.Codegen.Constant
import Hlang.Parser.Expr
import Hlang.Runtime.ReadBack

/-!
# Hlang.Parser.Printed — printed integers are constants again

An `#exe` block can print an integer with `%d`, `%u` or `0x%X`; the text becomes
a buffer of the lexer, its tokens reach the parser, and the expression that the
parser makes of them has the value that was printed. A negative number comes back
as a minus and the literal of its magnitude.
-/

namespace Hlang.Parser

open Lexer Hlang.Runtime Numeral

/-! ## The text -/

/-- The formats of an integer. -/
inductive IntFormat where
  | decimal
  | unsigned
  | hex

namespace IntFormat

/-- The string that `StreamPrint` is given. -/
def text : IntFormat → String
  | decimal => "%d"
  | unsigned => "%u"
  | hex => "0x%X"

def conv : IntFormat → IntConv
  | decimal => .signed
  | unsigned => .unsigned
  | hex => .hex true

/-- The character of the conversion. -/
def code : IntFormat → Byte
  | decimal => ch 'd'
  | unsigned => ch 'u'
  | hex => ch 'X'

/-- What stands before the conversion. -/
def mark : IntFormat → List Byte
  | hex => [ch '0', ch 'x']
  | _ => []

theorem intConv_code (k : IntFormat) : intConv k.code = some k.conv := by cases k <;> rfl

/-- The literal of a magnitude. -/
def literal (k : IntFormat) (m : Nat) : List Char :=
  k.mark.map byteChar ++ (numeral k.conv.base m).map (digitChar k.conv.upper)

/-- What `StreamPrint` emits for `v`. -/
def printed (k : IntFormat) (v : I64) : List Byte := k.mark ++ (k.conv.sign {} v ++ k.conv.body {} v)

end IntFormat

section Format

variable {H : Host} {V : ArgVec}

/-- The end of a format. -/
theorem step_end {fmt : Nat → Byte} {S : Scan} (hpc : S.pc = .head) (h0 : fmt S.p = 0) :
    (Scan.step H V fmt S).pc = .done ∧ (Scan.step H V fmt S).out = S.out := by
  simp only [Scan.step, hpc, h0, if_true, and_self]

/-- The scan of a format goes past what stands before the conversion. -/
theorem moves_mark (k : IntFormat) :
    ∃ j, let S := (Scan.step H V (formatOf k.text))^[j] {}
      S.pc = .head ∧ S.p = k.mark.length ∧ S.out = k.mark ∧ S.args = {} := by
  cases k with
  | decimal => exact ⟨0, rfl, rfl, rfl, rfl⟩
  | unsigned => exact ⟨0, rfl, rfl, rfl, rfl⟩
  | hex => exact ⟨2, rfl, rfl, rfl, rfl⟩

/-- A conversion without flags, width or precision. -/
def Bare : Params :=
  ⟨[], [], none, Params.no_flags, Params.no_width, Params.no_head, Params.no_prec⟩

theorem fieldParts_bare (sign body : List Byte) :
    (fieldParts Bare.flagSet (addDigits 0 Bare.width).toInt.toNat sign body).text =
      sign ++ body := by
  have hwidth : (addDigits 0 Bare.width).toInt.toNat = 0 := rfl
  have hflags : Bare.flagSet = {} := rfl
  rw [hwidth, hflags]
  unfold fieldParts FieldParts.text
  simp

/-- The format is scanned to its end, and has printed its first argument. -/
theorem hcFormat_printed (H : Host) (V : ArgVec) (k : IntFormat) :
    ∃ j, let S := hcFormat H V (some (formatOf k.text)) j
      S.pc = .done ∧ S.out = k.printed (nextArg V {}).1 := by
  rcases moves_mark (H := H) (V := V) k with ⟨i, hmark⟩
  unfold hcFormat
  simp only at hmark ⊢
  generalize hS₁ : (Scan.step H V (formatOf k.text))^[i] {} = S₁ at hmark
  rcases hmark with ⟨hpc, hp, hout, hargs⟩
  have hat : Holds (formatOf k.text) S₁.p (ch '%' :: (Bare.text ++ [k.code])) := by
    rw [hp]
    cases k <;> exact ⟨rfl, rfl, trivial⟩
  rcases ends_of_intConv k.intConv_code Bare with ⟨hends, hc0, hcp⟩
  have hscan := scan_convert (H := H) (V := V) ⟨hends, hc0, fun _ => hcp⟩ hpc hat
  have hconv := convert_int (H := H) (V := V) k.intConv_code Bare.flagSet
    (w := addDigits 0 Bare.width) (by decide) Bare.precision S₁.args
  rw [hconv, fieldParts_bare] at hscan
  rcases hscan with ⟨j, hscan⟩
  simp only at hscan
  generalize hS₂ : (Scan.step H V (formatOf k.text))^[j] S₁ = S₂ at hscan
  rcases hscan with ⟨hpc', hp', hout', -⟩
  -- the conversion is the last of the format
  have hend : formatOf k.text S₂.p = 0 := by
    rw [hp', hp]
    cases k <;> rfl
  have hdone := step_end (H := H) (V := V) hpc' hend
  refine ⟨1 + (j + i), ?_⟩
  rw [Function.iterate_add_apply, Function.iterate_add_apply, Function.iterate_one, hS₁, hS₂]
  refine ⟨hdone.1, ?_⟩
  rw [hdone.2, hout', hout, hargs]
  rfl

end Format

/-! ### Its characters -/

theorem byteChar_hexDigit : ∀ (upper : Bool) (d : Fin 16),
    byteChar (hexDigit upper d) = digitChar upper d := by
  decide

theorem map_bodyDigits {base : Nat} (hb : 1 < base) (hb' : base ≤ 16) (upper : Bool) (m : Nat) :
    (bodyDigits base upper m).map byteChar = (numeral base m).map (digitChar upper) := by
  unfold bodyDigits
  rw [List.map_map]
  apply List.map_congr_left
  intro d hd
  exact byteChar_hexDigit upper ⟨d, Nat.lt_of_lt_of_le (numeral_lt hb hd) hb'⟩

/-- A printed number is a minus, if it is negative, and the literal of its magnitude. -/
theorem map_printed (k : IntFormat) (v : I64) :
    (k.printed v).map byteChar =
      (if k.conv.value v < 0 then ['-'] else []) ++ k.literal (k.conv.value v).natAbs := by
  have hbody : k.conv.body {} v = bodyDigits k.conv.base k.conv.upper (k.conv.value v).natAbs := by
    unfold IntConv.body
    simp
  have hsign : k.conv.sign {} v = if k.conv.value v < 0 then [ch '-'] else [] := by
    unfold IntConv.sign
    cases k <;> rfl
  have hb := k.conv.base_bounds
  unfold IntFormat.printed IntFormat.literal
  rw [List.map_append, List.map_append, hbody, hsign, map_bodyDigits hb.1 hb.2]
  by_cases hneg : k.conv.value v < 0
  · -- only `%d` shows a negative number
    have hmark : k.mark = [] := by
      cases k with
      | decimal => rfl
      | unsigned => rfl
      | hex => exact absurd hneg (by simp [IntFormat.conv, IntConv.value])
    have hminus : byteChar (ch '-') = '-' := by decide
    rw [if_pos hneg, if_pos hneg, hmark, List.map_singleton, hminus]
    rfl
  · rw [if_neg hneg, if_neg hneg]
    rfl

/-! ## The tokens -/

/-- The literal of a magnitude, up to what follows it. -/
theorem lexNumber_literal (strtod : List Char → ℚ) (k : IntFormat) (m : I64) {rest : List Char}
    (hrest : Ends rest) :
    lexNumber strtod (k.literal m.toNat ++ rest) = (.ofInt m, rest) := by
  have hmark : [ch '0', ch 'x'].map byteChar = ['0', 'x'] := by decide
  cases k with
  | decimal => exact lexNumber_intText strtod .dec m hrest
  | unsigned => exact lexNumber_intText strtod .dec m hrest
  | hex =>
      unfold IntFormat.literal IntFormat.mark
      simp only
      rw [hmark]
      exact lexNumber_hex strtod (Or.inl rfl) true m hrest

theorem literal_cons (k : IntFormat) (m : Nat) :
    ∃ c cs, k.literal m = c :: cs ∧ c.isDigit = true := by
  cases k with
  | decimal => exact intText_cons .dec m
  | unsigned => exact intText_cons .dec m
  | hex => exact ⟨_, _, rfl, by decide⟩

/-- A minus before a digit. -/
theorem token_minus (E : ScanEnv) (s : Scanner) {c : Char} (cs : List Char)
    (hc : c.isDigit = true) : Starts '-' (c :: cs) ∧ s.token E '-' (c :: cs) =
      some ({ Token.ofPunct .minus with loc := s.here }, s.moveTo (c :: cs)) := by
  have hne : ∀ d, d.isDigit = false → c ≠ d := by
    intro d hd heq
    rw [heq, hd] at hc
    exact Bool.false_ne_true hc
  have hpunct : lexPunct '-' (c :: cs) = some (.minus, c :: cs) := by
    unfold lexPunct two
    simp [hne '-' (by decide), hne '>' (by decide), hne '=' (by decide)]
  constructor
  · exact ⟨by decide, by decide, by simp, by simp⟩
  · unfold Scanner.token
    simp only [hpunct]
    rfl

/-- From `s` on `rawNext` returns the tokens `ts`, and then what it returns from `s'` on. -/
inductive Reads (E : ScanEnv) : Scanner → List Token → Scanner → Prop where
  | done {s s' : Scanner} (h : ∀ n, Scanner.rawNext E (n + 1) s = Scanner.rawNext E n s') :
      Reads E s [] s'
  | tok {s s₁ s' : Scanner} {t : Token} {ts : List Token}
      (h : ∀ n, Scanner.rawNext E (n + 2) s = some (t, s₁)) (rest : Reads E s₁ ts s') :
      Reads E s (t :: ts) s'

/-- An injected buffer that has been read is left for the one below it. -/
theorem reads_pop (E : ScanEnv) {s : Scanner} {src : Source} {below : List Source}
    (hs : s.stack = src :: below) (hbuf : src.buf = []) (hbelow : below ≠ []) :
    Reads E s [] { s with stack := below } := by
  refine .done ?_
  intro n
  conv => lhs; unfold Scanner.rawNext
  simp [hs, hbuf, hbelow]

/-- A literal that is all of an injected buffer. -/
theorem reads_literal (E : ScanEnv) (k : IntFormat) (m : I64) {s : Scanner} {src : Source}
    {below : List Source} (hskip : s.dirs.skippingConds = false) (hs : s.stack = src :: below)
    (hbuf : src.buf = k.literal m.toNat) (hbelow : below ≠ []) :
    ∃ loc, Reads E s [{ Token.ofInt m with loc }] { s with stack := below } := by
  rcases literal_cons k m.toNat with ⟨c, cs, htext, hdigit⟩
  have hnum := lexNumber_literal E.strtod k m ends_nil
  rw [List.append_nil, htext] at hnum
  rcases Scanner.token_number E s hdigit hnum with ⟨hstart, htoken⟩
  have hchars : s.chars = c :: cs := by
    unfold Scanner.chars
    rw [hs]
    exact hbuf.trans htext
  have hmoved : s.moveTo [] = { s with stack := src.moveTo [] :: below } := by
    unfold Scanner.moveTo
    rw [hs]
  refine ⟨s.here, .tok (fun n => Scanner.rawNext_token hskip hchars hstart htoken n) ?_⟩
  rw [hmoved]
  exact reads_pop E rfl (Source.moveTo_buf List.nil_suffix) hbelow

/-- A minus and a literal that are all of an injected buffer. -/
theorem reads_minus (E : ScanEnv) (k : IntFormat) (m : I64) {s : Scanner} {src : Source}
    {below : List Source} (hskip : s.dirs.skippingConds = false) (hs : s.stack = src :: below)
    (hbuf : src.buf = '-' :: k.literal m.toNat) (hbelow : below ≠ []) :
    ∃ l l', Reads E s [{ Token.ofPunct .minus with loc := l }, { Token.ofInt m with loc := l' }]
      { s with stack := below } := by
  rcases literal_cons k m.toNat with ⟨c, cs, htext, hdigit⟩
  rcases token_minus E s cs hdigit with ⟨hstart, htoken⟩
  rw [← htext] at hstart htoken
  have hchars : s.chars = '-' :: k.literal m.toNat := by
    unfold Scanner.chars
    rw [hs]
    exact hbuf
  have hmoved : s.moveTo (k.literal m.toNat) =
      { s with stack := src.moveTo (k.literal m.toNat) :: below } := by
    unfold Scanner.moveTo
    rw [hs]
  have hbuf' : (src.moveTo (k.literal m.toNat)).buf = k.literal m.toNat := by
    apply Source.moveTo_buf
    rw [hbuf]
    exact List.suffix_cons _ _
  rcases reads_literal E k m (s := { s with stack := src.moveTo (k.literal m.toNat) :: below })
    hskip rfl hbuf' hbelow with ⟨l', hrest⟩
  refine ⟨s.here, l', .tok (fun n => Scanner.rawNext_token hskip hchars hstart htoken n) ?_⟩
  rw [hmoved]
  exact hrest

/-- The tokens of a printed number. -/
def IntFormat.tokens (k : IntFormat) (v : I64) : List Token :=
  (if k.conv.value v < 0 then [.ofPunct .minus] else []) ++
    [.ofInt (BitVec.ofNat 64 (k.conv.value v).natAbs)]

theorem inject_eq (s : Scanner) (loc : SrcLoc) {text : List Char} (h : text ≠ []) :
    ∃ src : Source, src.buf = text ∧ s.inject loc text = { s with stack := src :: s.stack } := by
  unfold Scanner.inject
  rw [if_neg h]
  exact ⟨_, rfl, rfl⟩

/-- A printed number, spliced into the source, gives its tokens, and then the source goes on. -/
theorem reads_printed (E : ScanEnv) (k : IntFormat) (v : I64) {s : Scanner}
    (hskip : s.dirs.skippingConds = false) (hstack : s.stack ≠ []) (loc : SrcLoc) :
    ∃ ts, Reads E (s.inject loc ((k.printed v).map byteChar)) ts s ∧
      ts.map Token.shape = k.tokens v := by
  let m : I64 := BitVec.ofNat 64 (k.conv.value v).natAbs
  have hm : m.toNat = (k.conv.value v).natAbs := by
    rw [BitVec.toNat_ofNat]
    exact Nat.mod_eq_of_lt (k.conv.value_natAbs_lt v)
  have htext := map_printed k v
  rw [← hm] at htext
  have hne : (k.printed v).map byteChar ≠ [] := by
    rcases literal_cons k m.toNat with ⟨c, cs, hcons, -⟩
    rw [htext, hcons]
    simp
  rcases inject_eq s loc hne with ⟨src, hbuf, hinject⟩
  rw [hinject]
  rw [htext] at hbuf
  unfold IntFormat.tokens
  by_cases hneg : k.conv.value v < 0
  · rw [if_pos hneg] at hbuf ⊢
    rcases reads_minus E k m (s := { s with stack := src :: s.stack }) hskip rfl hbuf hstack with
      ⟨l, l', hreads⟩
    exact ⟨_, hreads, rfl⟩
  · rw [if_neg hneg] at hbuf ⊢
    rcases reads_literal E k m (s := { s with stack := src :: s.stack }) hskip rfl hbuf hstack with
      ⟨l, hreads⟩
    exact ⟨_, hreads, rfl⟩

/-- Macro expansion leaves tokens alone that are no identifiers. -/
theorem next_of_not_ident (L : LexEnv) (M : MacroTable) {t : Token} (ht : t.kind ≠ .ident)
    (heof : t.kind ≠ .eof) (raw : List Token) :
    Lexer.next L M { raw := t :: raw } = (t, { raw }) := by
  unfold Lexer.next
  simp only
  rw [if_neg heof, expandOrReturn.eq_def, if_pos (Or.inl ht)]

/-! ## The expression -/

/-- One of the operators is the next token. -/
def nextIn (ops : List P) (ts : List Token) : Bool :=
  (ts.headD eofToken).kind = .punct && (ts.headD eofToken).punct ∈ ops

/-- What `parsePostfix` goes on with. -/
def postfixOps : List P := [.lParen, .lBracket, .dot, .arrow, .plusPlus, .minusMinus]

/-- What the tiers of binary operators and `parseAssign` go on with. -/
def infixOps : List P :=
  [.pow, .shl, .shr, .star, .slash, .percent, .amp, .caret, .pipe, .plus, .minus, .lt, .gt, .le,
    .ge, .eqEq, .ne, .andAnd, .xorXor, .orOr] ++ assignOps ++ [.question]

section Stop

variable {ops : List P} {ts : List Token}

theorem nextIn_false_of_subset {ops' : List P} (h : nextIn ops ts = false)
    (hsub : ∀ p ∈ ops', p ∈ ops) : nextIn ops' ts = false := by
  unfold nextIn at h ⊢
  rw [Bool.and_eq_false_iff, decide_eq_false_iff_not, decide_eq_false_iff_not] at h ⊢
  exact h.imp id fun hno hmem => hno (hsub _ hmem)

theorem is_false_of_nextIn (h : nextIn ops ts = false) {p : P} (hp : p ∈ ops) :
    (ts.headD eofToken).is p = false := by
  unfold nextIn at h
  unfold Token.is
  rw [Bool.and_eq_false_iff, decide_eq_false_iff_not, decide_eq_false_iff_not] at h ⊢
  refine h.imp id ?_
  rintro hno rfl
  exact hno hp

theorem not_punct_of_nextIn (h : nextIn ops ts = false) :
    ¬ ((ts.headD eofToken).kind = .punct ∧ (ts.headD eofToken).punct ∈ ops) := by
  unfold nextIn at h
  simpa using h

end Stop

section Tiers

variable {sub unary : Parse Expr} {s s' : PState} {e : Expr}

/-- The state of a sequence of two computations. -/
theorem parse_bind {α β : Type} (x : Parse α) (f : α → Parse β) (s : PState) :
    (x >>= f) s = (x s).bind fun r => f r.1 r.2 := rfl

/-- A tier without its operators is the tier below. -/
theorem binaryLoop_stop (h : sub s = some (e, s')) {ops : List P}
    (hstop : nextIn ops s'.toks = false) (n : Nat) :
    binaryLoop (n + 1) sub ops s = some (e, s') := by
  unfold binaryLoop
  rw [parse_bind, h, Option.bind_some]
  unfold binaryRest
  rw [parse_bind]
  unfold tok
  rw [List.drop_zero, Option.bind_some]
  simp only
  rw [if_neg (not_punct_of_nextIn hstop)]
  rfl

theorem parseRel_stop {n : Nat} (h : parseAdd n unary s = some (e, s'))
    (hstop : nextIn infixOps s'.toks = false) : parseRel n unary s = some (e, s') := by
  have hrel : isRelOp (s'.toks.headD eofToken) = false := by
    unfold isRelOp
    rw [is_false_of_nextIn hstop (by decide), is_false_of_nextIn hstop (by decide),
      is_false_of_nextIn hstop (by decide), is_false_of_nextIn hstop (by decide)]
    rfl
  unfold parseRel
  rw [parse_bind, h, Option.bind_some, parse_bind]
  unfold tok
  rw [List.drop_zero, Option.bind_some]
  simp only
  rw [hrel]
  rfl

/-- Through all tiers, when none of their operators follows. -/
theorem parseLor_stop (h : unary s = some (e, s')) (hstop : nextIn infixOps s'.toks = false)
    (n : Nat) : parseLor (n + 1) unary s = some (e, s') := by
  have hops : ∀ ops : List P, (∀ p ∈ ops, p ∈ infixOps) → nextIn ops s'.toks = false :=
    fun ops hsub => nextIn_false_of_subset hstop hsub
  have hpow : parsePow (n + 1) unary s = _ := binaryLoop_stop h (hops _ (by decide)) n
  have hmul : parseMul (n + 1) unary s = _ := binaryLoop_stop hpow (hops _ (by decide)) n
  have hband : parseBand (n + 1) unary s = _ := binaryLoop_stop hmul (hops _ (by decide)) n
  have hbxor : parseBxor (n + 1) unary s = _ := binaryLoop_stop hband (hops _ (by decide)) n
  have hbor : parseBor (n + 1) unary s = _ := binaryLoop_stop hbxor (hops _ (by decide)) n
  have hadd : parseAdd (n + 1) unary s = _ := binaryLoop_stop hbor (hops _ (by decide)) n
  have hrel := parseRel_stop hadd hstop
  have heq : parseEq (n + 1) unary s = _ := binaryLoop_stop hrel (hops _ (by decide)) n
  have hland : parseLand (n + 1) unary s = _ := binaryLoop_stop heq (hops _ (by decide)) n
  have hlxor : parseLxor (n + 1) unary s = _ := binaryLoop_stop hland (hops _ (by decide)) n
  exact binaryLoop_stop hlxor (hops _ (by decide)) n

/-- An expression that is a unary expression. -/
theorem parseExpr_unary {E : ParseEnv} {n : Nat} (h : parseUnary E (n + 1) s = some (e, s'))
    (hstop : nextIn infixOps s'.toks = false) : parseExpr E (n + 2) s = some (e, s') := by
  have hlor := parseLor_stop h hstop n
  unfold parseExpr parseAssign assignStep
  rw [parse_bind, hlor, Option.bind_some, parse_bind]
  unfold tok
  rw [List.drop_zero, Option.bind_some]
  simp only
  have hassign : nextIn assignOps s'.toks = false := nextIn_false_of_subset hstop (by decide)
  rw [if_neg (not_punct_of_nextIn hassign), is_false_of_nextIn hstop (by decide)]
  rfl

end Tiers

section Operand

variable (E : ParseEnv)

/-- An operand that no postfix operator follows. -/
theorem postfixRest_stop (expr : Parse Expr) {s : PState} (hstop : nextIn postfixOps s.toks = false)
    (n : Nat) (e : Expr) : postfixRest E expr (n + 1) e s = some (e, s) := by
  have hno : ∀ p ∈ postfixOps, (s.toks.headD eofToken).is p = false :=
    fun p hp => is_false_of_nextIn hstop hp
  unfold postfixRest
  rw [parse_bind]
  unfold tok
  rw [List.drop_zero, Option.bind_some, parse_bind]
  unfold looksLikeCast
  rw [Option.bind_some]
  simp only [hno .lParen (by decide), hno .lBracket (by decide), hno .dot (by decide),
    hno .arrow (by decide), hno .plusPlus (by decide), hno .minusMinus (by decide),
    Bool.false_and, Bool.or_self, Bool.false_eq_true, if_false]
  rfl

/-- A literal is a unary expression. -/
theorem parseUnary_int {t : Token} {m : I64} (ht : t.shape = .ofInt m) (rest : List Token)
    (errs : List (SrcLoc × String)) (k n : Nat) (hstop : nextIn postfixOps rest = false) :
    parseUnary E (n + 2) ⟨t :: rest, errs, k⟩ =
      some (.intLit ⟨t.loc, k⟩ m, ⟨rest, errs, k + 1⟩) := by
  have hkind : t.kind = .intLit := congrArg Token.kind ht
  have hval : t.ival = m := congrArg Token.ival ht
  have hprim : primaryStep E (parseAssign E (n + 1)) (n + 1) ⟨t :: rest, errs, k⟩ =
      some (.intLit ⟨t.loc, k⟩ m, ⟨rest, errs, k + 1⟩) := by
    unfold primaryStep
    rw [parse_bind]
    unfold tok
    rw [List.drop_zero, List.headD_cons, Option.bind_some]
    simp only [hkind, hval]
    rfl
  unfold parseUnary unaryStep
  rw [parse_bind]
  unfold tok
  rw [List.drop_zero, List.headD_cons, Option.bind_some]
  simp only [hkind, reduceCtorEq, false_and, if_false]
  unfold postfixStep
  rw [parse_bind, hprim, Option.bind_some]
  exact postfixRest_stop E _ hstop n _

/-- A minus and a literal are a unary expression. -/
theorem parseUnary_minus {t u : Token} {m : I64} (hu : u.shape = .ofPunct .minus)
    (ht : t.shape = .ofInt m) (rest : List Token) (errs : List (SrcLoc × String)) (k n : Nat)
    (hstop : nextIn postfixOps rest = false) :
    parseUnary E (n + 3) ⟨u :: t :: rest, errs, k⟩ =
      some (.unary ⟨u.loc, k⟩ .minus true (.intLit ⟨t.loc, k + 1⟩ m), ⟨rest, errs, k + 2⟩) := by
  have hkind : u.kind = .punct := congrArg Token.kind hu
  have hpunct : u.punct = .minus := congrArg Token.punct hu
  have hlit := parseUnary_int E ht rest errs (k + 1) n hstop
  unfold parseUnary unaryStep
  rw [parse_bind]
  unfold tok
  rw [List.drop_zero, List.headD_cons, Option.bind_some]
  simp only [hkind, hpunct, true_and]
  rw [if_pos (by decide)]
  unfold take mkE
  simp only [parse_bind, Option.bind_some, List.headD_cons, List.tail_cons, hlit]
  rw [hpunct]
  rfl

end Operand

/-! ## Its value -/

/-- The value of an expression, for the compile-time evaluators and for its code. -/
structure Denotes (e : Expr) (v : I64) : Prop where
  evalConst : ∀ Γ : Codegen.Env, Γ.evalConst e = .ok v
  evalConstI64 : ∀ H : Heap, Codegen.evalConstI64 H e = .ok v
  code : ∀ Γ : Codegen.Env, Γ.CodeGives e (.int v)

theorem denotes_int (n : Node) (m : I64) : Denotes (.intLit n m) m where
  evalConst := fun _ => rfl
  evalConstI64 := fun _ => rfl
  code := fun _ => (Codegen.Constant.intLit n m).computes.codeGives

theorem denotes_minus (n n' : Node) (m : I64) :
    Denotes (.unary n .minus true (.intLit n' m)) (-m) where
  evalConst := fun _ => rfl
  evalConstI64 := fun _ => rfl
  code := fun Γ => by
    have hconst : Codegen.Constant Γ (.unary n .minus true (.intLit n' m)) :=
      .unary n rfl (.intLit n' m)
    exact hconst.computes.codeGives

/-- The magnitude of a number that is not shown with a minus is the number itself. -/
theorem magnitude_of_nonneg {k : IntFormat} {v : I64} (h : ¬ k.conv.value v < 0) :
    BitVec.ofNat 64 (k.conv.value v).natAbs = v := by
  have hval : (k.conv.value v).natAbs = v.toNat := by
    cases k with
    | decimal =>
        have h : ¬ v.toInt < 0 := h
        show v.toInt.natAbs = v.toNat
        rw [BitVec.toInt_eq_toNat_cond] at h ⊢
        split_ifs at h ⊢ <;> omega
    | unsigned => rfl
    | hex => rfl
  rw [hval, BitVec.ofNat_toNat, BitVec.setWidth_eq]

/-- Only `%d` shows a minus, and the negated magnitude is the number: `I64_MIN` too. -/
theorem magnitude_of_neg {k : IntFormat} {v : I64} (h : k.conv.value v < 0) :
    -BitVec.ofNat 64 (k.conv.value v).natAbs = v := by
  cases k with
  | decimal =>
      have h : v.toInt < 0 := h
      show -BitVec.ofNat 64 v.toInt.natAbs = v
      have hmag : BitVec.ofNat 64 v.toInt.natAbs = -v := by
        apply BitVec.eq_of_toNat_eq
        rw [BitVec.toNat_ofNat, BitVec.toNat_neg]
        have hlt := v.isLt
        rw [BitVec.toInt_eq_toNat_cond] at h ⊢
        split_ifs at h ⊢ <;> omega
      rw [hmag, BitVec.neg_neg]
  | unsigned => exact absurd h (by simp [IntFormat.conv, IntConv.value])
  | hex => exact absurd h (by simp [IntFormat.conv, IntConv.value])

/-- The tokens of a printed number are a unary expression with its value, and, where no
operator follows, an expression. -/
theorem parse_printed (E : ParseEnv) {k : IntFormat} {v : I64} {ts : List Token}
    (hts : ts.map Token.shape = k.tokens v) {rest : List Token}
    (hstop : nextIn postfixOps rest = false) (errs : List (SrcLoc × String)) (a n : Nat) :
    ∃ e s', Denotes e v ∧ parseUnary E (n + 3) ⟨ts ++ rest, errs, a⟩ = some (e, s') ∧
      s'.toks = rest ∧ s'.errors = errs := by
  unfold IntFormat.tokens at hts
  by_cases hneg : k.conv.value v < 0
  · rw [if_pos hneg, List.singleton_append] at hts
    rcases List.map_eq_cons_iff.mp hts with ⟨u, us, rfl, hu, hus⟩
    rcases List.map_eq_singleton_iff.mp hus with ⟨t, rfl, ht⟩
    have hden := denotes_minus ⟨u.loc, a⟩ ⟨t.loc, a + 1⟩
      (BitVec.ofNat 64 (k.conv.value v).natAbs)
    rw [magnitude_of_neg hneg] at hden
    exact ⟨_, _, hden, parseUnary_minus E hu ht rest errs a n hstop, rfl, rfl⟩
  · rw [if_neg hneg, List.nil_append] at hts
    rcases List.map_eq_singleton_iff.mp hts with ⟨t, rfl, ht⟩
    rw [magnitude_of_nonneg hneg] at ht
    exact ⟨_, _, denotes_int ⟨t.loc, a⟩ v, parseUnary_int E ht rest errs a (n + 1) hstop, rfl, rfl⟩

/-- The tokens of a printed number are no identifiers. -/
theorem kind_of_tokens {k : IntFormat} {v : I64} {ts : List Token}
    (hts : ts.map Token.shape = k.tokens v) {t : Token} (ht : t ∈ ts) :
    t.kind = .punct ∨ t.kind = .intLit := by
  have hmem : t.shape ∈ k.tokens v := by
    rw [← hts]
    exact List.mem_map_of_mem ht
  unfold IntFormat.tokens at hmem
  rcases List.mem_append.mp hmem with hmem | hmem
  · split_ifs at hmem with hneg
    · exact Or.inl (congrArg Token.kind (List.mem_singleton.mp hmem))
    · exact absurd hmem (by simp)
  · exact Or.inr (congrArg Token.kind (List.mem_singleton.mp hmem))

/-- What `StreamPrint` prints for the first argument, spliced into the source, is read as the
tokens of an expression with its value. -/
theorem printed_read_back (H : Host) (V : ArgVec) (k : IntFormat) (E : ScanEnv) {s : Scanner}
    (hskip : s.dirs.skippingConds = false) (hstack : s.stack ≠ []) (loc : SrcLoc) (L : LexEnv)
    (M : MacroTable) (F : ParseEnv) :
    let v := (nextArg V {}).1
    ∃ (j : Nat) (text : List Byte) (ts : List Token),
      ((hcFormat H V (some (formatOf k.text)) j).pc = .done ∧
        (hcFormat H V (some (formatOf k.text)) j).out = text) ∧
      (Reads E (s.inject loc (text.map byteChar)) ts s ∧ ts.map Token.shape = k.tokens v) ∧
      (∀ t ∈ ts, ∀ raw, Lexer.next L M { raw := t :: raw } = (t, { raw })) ∧
      ∀ rest errs a n, nextIn postfixOps rest = false →
        ∃ e s', Denotes e v ∧ parseUnary F (n + 3) ⟨ts ++ rest, errs, a⟩ = some (e, s') ∧
          s'.toks = rest ∧ s'.errors = errs ∧
          (nextIn infixOps rest = false →
            parseExpr F (n + 4) ⟨ts ++ rest, errs, a⟩ = some (e, s')) := by
  intro v
  rcases hcFormat_printed H V k with ⟨j, hdone, hout⟩
  rcases reads_printed E k v hskip hstack loc with ⟨ts, hreads, hshape⟩
  refine ⟨j, k.printed v, ts, ⟨hdone, hout⟩, ⟨hreads, hshape⟩, ?_, ?_⟩
  · intro t ht raw
    have hkind := kind_of_tokens hshape ht
    apply next_of_not_ident L M
    · rcases hkind with h | h <;> rw [h] <;> decide
    · rcases hkind with h | h <;> rw [h] <;> decide
  · intro rest errs a n hstop
    rcases parse_printed F hshape hstop errs a n with ⟨e, s', hden, hparse, htoks, herrs⟩
    refine ⟨e, s', hden, hparse, htoks, herrs, ?_⟩
    intro hinfix
    rw [← htoks] at hinfix
    exact parseExpr_unary hparse hinfix

/-- `%d` and `I64_MIN`, before a semicolon. -/
theorem min_read_back : ∃ (j : Nat) (text : List Byte) (ts : List Token),
    (hcFormat .bare ⟨1, fun _ => BitVec.intMin 64⟩ (formatOf "%d") j).out = text ∧
      Reads .bare ((Scanner.fromBuffer [';'] "f").inject {} (text.map byteChar)) ts
        (Scanner.fromBuffer [';'] "f") ∧
      ∃ e s', Denotes e (BitVec.intMin 64) ∧
        parseExpr {} 4 ⟨ts ++ [.ofPunct .semi], [], 0⟩ = some (e, s') := by
  rcases printed_read_back .bare ⟨1, fun _ => BitVec.intMin 64⟩ .decimal .bare
    (s := Scanner.fromBuffer [';'] "f") rfl (List.cons_ne_nil _ _) {} ⟨true, "", ""⟩ [] {} with
    ⟨j, text, ts, ⟨-, hout⟩, ⟨hreads, -⟩, -, hparse⟩
  rcases hparse [.ofPunct .semi] [] 0 0 (by decide) with ⟨e, s', hden, -, -, -, hexpr⟩
  exact ⟨j, text, ts, hout, hreads, e, s', hden, hexpr (by decide)⟩

end Hlang.Parser
