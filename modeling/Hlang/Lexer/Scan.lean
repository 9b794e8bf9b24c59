import Hlang.Lexer.Chars
import Hlang.Lexer.Directive

/-!
# Hlang.Lexer.Scan — from source text to raw tokens

`Lexer::rawNext` with what it calls: white space and comments, directives and the
lines they own, the regions that conditionals skip, `#exe` blocks, and
`lexToken`. The lexer works on a stack of buffers: `#include` and `#exe` push
one, the end of a buffer pops it. A stray character makes `lexToken` call
`rawNext`, and a file may include itself, so the calls are bounded by a number
(`none`: it was too small).
-/

namespace Hlang.Lexer

/-! ## Buffers -/

/-- `Lexer::Source`, with what is left of its buffer. -/
structure Source where
  buf : List Char
  file : String
  dir : String
  line : Nat := 1
  col : Nat := 1

namespace Source

/-- `getc`. -/
def getc (s : Source) : Source :=
  match s.buf with
  | [] => s
  | c :: cs =>
      if c = '\n' then { s with buf := cs, line := s.line + 1, col := 1 }
      else { s with buf := cs, col := s.col + 1 }

/-- The source after `n` calls of `getc`. -/
def skip (s : Source) : Nat → Source
  | 0 => s
  | n + 1 => s.getc.skip n

/-- The source when `rest` is what is left of its buffer. -/
def moveTo (s : Source) (rest : List Char) : Source := s.skip (s.buf.length - rest.length)

@[simp] theorem getc_buf (s : Source) : s.getc.buf = s.buf.tail := by
  unfold getc
  cases hs : s.buf with
  | nil => simp [hs]
  | cons c cs => simp only [List.tail_cons]; split_ifs <;> rfl

theorem skip_buf (s : Source) (n : Nat) : (s.skip n).buf = s.buf.drop n := by
  induction n generalizing s with
  | zero => rfl
  | succ n ih => rw [skip, ih, getc_buf, List.drop_tail]

theorem moveTo_buf {s : Source} {rest : List Char} (h : rest <:+ s.buf) :
    (s.moveTo rest).buf = rest := by
  rw [moveTo, skip_buf, ← List.suffix_iff_eq_drop.mp h]

/-- The column behind a text that begins in column `col`. -/
def columnAfter (col : Nat) (text : List Char) : Nat :=
  text.foldl (fun k c => if c = '\n' then 1 else k + 1) col

theorem columnAfter_line {text : List Char} (h : '\n' ∉ text) (col : Nat) :
    columnAfter col text = col + text.length := by
  induction text generalizing col with
  | nil => rfl
  | cons c text ih =>
      have hc : c ≠ '\n' := fun hc => h (by rw [hc]; exact List.mem_cons_self)
      have ih := ih (fun hmem => h (List.mem_cons_of_mem c hmem)) (col + 1)
      unfold columnAfter at ih ⊢
      rw [List.foldl_cons, if_neg hc, ih, List.length_cons]
      omega

theorem columnAfter_append (col : Nat) (a b : List Char) :
    columnAfter col (a ++ b) = columnAfter (columnAfter col a) b := by
  unfold columnAfter
  rw [List.foldl_append]

/-- Where a source stands behind a text. -/
theorem moveTo_append {s : Source} {text rest : List Char} (h : s.buf = text ++ rest) :
    s.moveTo rest =
      { s with buf := rest, line := s.line + text.count '\n', col := columnAfter s.col text } := by
  have hlen : s.buf.length - rest.length = text.length := by
    rw [h, List.length_append, Nat.add_sub_cancel]
  unfold moveTo
  rw [hlen]
  clear hlen
  induction text generalizing s with
  | nil => rw [List.nil_append] at h; subst h; rfl
  | cons c text ih =>
      rw [List.length_cons, skip]
      have hbuf : s.getc.buf = text ++ rest := by rw [getc_buf, h]; rfl
      rw [ih hbuf]
      unfold getc columnAfter
      rw [h]
      simp only [List.cons_append, List.foldl_cons]
      split_ifs with hc
      · subst hc
        rw [List.count_cons_self, Nat.add_assoc, Nat.add_comm 1]
      · rw [List.count_cons_of_ne hc]

end Source

/-- What the lexer takes from outside: the mode, `strtod`, the value of a condition
with the errors its evaluation reports, the files, the include directories, and
the hook that runs an `#exe` block. -/
structure ScanEnv where
  jitMode : Bool
  strtod : List Char → ℚ
  evalCondExpr : MacroTable → List Token → SrcLoc → I64 × List (SrcLoc × String)
  readFile : String → Option (List Char)
  includeDirs : List String
  exeHook : Option (List Char → SrcLoc → List Char)

/-- The environment of the directives; `#include` and `#exe` work on the stack. -/
def ScanEnv.dirEnv (E : ScanEnv) : DirEnv where
  jitMode := E.jitMode
  evalCondExpr := E.evalCondExpr
  openInclude := fun _ => true
  handleExeBlock := fun _ => []

/-- No files, no hook, and every condition zero. -/
def ScanEnv.bare : ScanEnv := ⟨true, fun _ => 0, fun _ _ _ => (0, []), fun _ => none, [], none⟩

/-- The lexer: `stack_` with the current buffer first, and what directives work on. -/
structure Scanner where
  stack : List Source
  dirs : DirState := {}

namespace Scanner

/-- What `peekc` looks into; nothing at the end of the last buffer. -/
def chars (s : Scanner) : List Char :=
  match s.stack with
  | [] => []
  | src :: _ => src.buf

/-- `src().line`. -/
def line (s : Scanner) : Nat :=
  match s.stack with
  | [] => 0
  | src :: _ => src.line

/-- `here`. -/
def here (s : Scanner) : SrcLoc :=
  match s.stack with
  | [] => { file := "<eof>" }
  | src :: _ => { file := src.file, line := src.line, col := src.col }

/-- The lexer when `rest` is what is left of the current buffer. -/
def moveTo (s : Scanner) (rest : List Char) : Scanner :=
  match s.stack with
  | [] => s
  | src :: below => { s with stack := src.moveTo rest :: below }

/-- `error`. -/
def error (s : Scanner) (loc : SrcLoc) (msg : String) : Scanner :=
  { s with dirs := s.dirs.error loc msg }

/-- Several errors at one place. -/
def errors (s : Scanner) (loc : SrcLoc) (msgs : List String) : Scanner :=
  { s with dirs := msgs.foldl (fun d m => d.error loc m) s.dirs }

@[simp] theorem errors_nil (s : Scanner) (loc : SrcLoc) : s.errors loc [] = s := rfl

theorem errors_dirs (s : Scanner) (loc : SrcLoc) (msgs : List String) :
    (s.errors loc msgs).dirs.errors = s.dirs.errors ++ msgs.map (loc, ·) := by
  unfold errors
  simp only
  induction msgs generalizing s with
  | nil => simp
  | cons m msgs ih =>
      have ih := ih (s.error loc m)
      rw [List.foldl_cons, List.map_cons, List.append_cons]
      exact ih

@[simp] theorem errors_stack (s : Scanner) (loc : SrcLoc) (msgs : List String) :
    (s.errors loc msgs).stack = s.stack := rfl

@[simp] theorem error_stack (s : Scanner) (loc : SrcLoc) (msg : String) :
    (s.error loc msg).stack = s.stack := rfl

@[simp] theorem moveTo_dirs (s : Scanner) (rest : List Char) : (s.moveTo rest).dirs = s.dirs := by
  unfold moveTo
  split <;> rfl

theorem moveTo_chars {s : Scanner} {rest : List Char} (h : rest <:+ s.chars) :
    (s.moveTo rest).chars = rest := by
  unfold chars moveTo at *
  cases hs : s.stack with
  | nil =>
      rw [hs] at h
      simp only [hs]
      exact (List.suffix_nil.mp h).symm
  | cons src below =>
      rw [hs] at h
      exact Source.moveTo_buf h

/-- Where the lexer stands behind a text. -/
theorem moveTo_append {s : Scanner} {text rest : List Char} (h : s.chars = text ++ rest)
    (hs : s.stack ≠ []) : (s.moveTo rest).stack ≠ [] ∧ (s.moveTo rest).chars = rest ∧
      (s.moveTo rest).line = s.line + text.count '\n' ∧
      (s.moveTo rest).here.col = Source.columnAfter s.here.col text := by
  rcases s with ⟨stack, dirs⟩
  cases stack with
  | nil => exact absurd rfl hs
  | cons src below =>
      have hmove := Source.moveTo_append (s := src) h
      unfold moveTo chars line here
      simp only
      rw [hmove]
      exact ⟨List.cons_ne_nil _ _, rfl, rfl, rfl⟩

/-- Two moves in one. -/
theorem moveTo_moveTo {s : Scanner} {a b rest : List Char} (h : s.chars = a ++ (b ++ rest)) :
    (s.moveTo (b ++ rest)).moveTo rest = s.moveTo rest := by
  rcases s with ⟨stack, dirs⟩
  cases stack with
  | nil => rfl
  | cons src below =>
      have h' : src.buf = (a ++ b) ++ rest := by rw [List.append_assoc]; exact h
      have hfirst := Source.moveTo_append (s := src) h
      have hsecond : (src.moveTo (b ++ rest)).buf = b ++ rest := by rw [hfirst]
      unfold moveTo
      simp only
      rw [Source.moveTo_append h', Source.moveTo_append hsecond, hfirst]
      simp only [List.count_append, Source.columnAfter_append, Nat.add_assoc]

theorem moveTo_of_suffix {s : Scanner} {mid rest : List Char} (h : rest <:+ mid)
    (hmid : mid <:+ s.chars) : (s.moveTo mid).moveTo rest = s.moveTo rest := by
  rcases h with ⟨b, rfl⟩
  rcases hmid with ⟨a, ha⟩
  exact moveTo_moveTo ha.symm

/-- Standing still. -/
theorem moveTo_self (s : Scanner) : s.moveTo s.chars = s := by
  rcases s with ⟨stack, dirs⟩
  cases stack with
  | nil => rfl
  | cons src below =>
      have hbuf : src.buf = [] ++ src.buf := rfl
      have hmove := Source.moveTo_append hbuf
      unfold moveTo chars
      simp only
      rw [hmove]
      rfl

end Scanner

/-! ## Skipped regions -/

/-- `skipCondBlockLine`: what is left after it. Its call of `lexCharsInto` reads from the
opening quote on. -/
def skipCondBlockLine : List Char → List Char
  | [] => []
  | c :: cs =>
      if c = '#' then c :: cs
      else if c = '/' && peekIs '/' cs then skipCondBlockLine (lineComment cs)
      else if c = '/' && peekIs '*' cs then
        skipCondBlockLine ((blockComment cs.tail).getD [])
      else if c = '"' || c = '\'' then skipCondBlockLine (lexCharsInto c (c :: cs)).rest
      else if c = '\n' then cs
      else skipCondBlockLine cs
termination_by cs => cs.length
decreasing_by
  · have h := (List.dropWhile_suffix (l := cs) (· ≠ '\n')).length_le
    simp only [lineComment, List.length_cons]
    omega
  · cases hb : blockComment cs.tail with
    | none => simp
    | some rest =>
        have h := ((blockComment_suffix hb).trans (List.tail_suffix cs)).length_le
        simp only [Option.getD_some, List.length_cons]
        omega
  · rw [lexCharsInto_quote]
    simp
  · simp

/-! ## `#exe` blocks -/

/-- What the loop of `handleExeBlock` makes of the characters after the opening brace:
the body, what is left after the closing brace (`none`: there is none), and the
errors of its literals, each with what was left when the literal began. -/
structure ExeScan where
  body : List Char
  rest : Option (List Char)
  errs : List (List Char × String)

/-- More characters at the front of the body. -/
def ExeScan.push (cs : List Char) (X : ExeScan) : ExeScan := { X with body := cs ++ X.body }

/-- The errors of a literal that begins at `cs`. -/
def ExeScan.errors (cs : List Char) (msgs : List String) (X : ExeScan) : ExeScan :=
  { X with errs := msgs.map (cs, ·) ++ X.errs }

/-- The loop of `handleExeBlock`. -/
def exeBody : Nat → List Char → ExeScan
  | _, [] => ⟨[], none, []⟩
  | depth, c :: cs =>
      if c = '"' || c = '\'' then
        let L := lexCharsInto c cs
        ((exeBody depth L.rest).push (c :: cs.take (cs.length - L.rest.length))).errors cs L.errs
      else if c = '/' && peekIs '/' cs then
        (exeBody depth (lineComment cs)).push (c :: cs.takeWhile (· ≠ '\n'))
      else if c = '}' then
        if depth - 1 = 0 then ⟨[], some cs, []⟩ else (exeBody (depth - 1) cs).push [c]
      else (exeBody (if c = '{' then depth + 1 else depth) cs).push [c]
termination_by _ cs => cs.length
decreasing_by
  · have h := (lexCharsInto_suffix c cs).length_le
    simp only [List.length_cons]
    omega
  · have h := (List.dropWhile_suffix (l := cs) (· ≠ '\n')).length_le
    simp only [lineComment, List.length_cons]
    omega
  · simp
  · simp

/-- The white space before the brace of a block. -/
def isExeBlank (c : Char) : Bool := c = ' ' || c = '\t' || c = '\r' || c = '\n'

namespace Scanner

variable (E : ScanEnv)

/-- The errors of an `#exe` block, at the places of its literals. -/
def exeErrors (s : Scanner) (errs : List (List Char × String)) : Scanner :=
  errs.foldl (fun t e => t.error (s.moveTo e.1).here e.2) s

/-- The text that a block injects is the next buffer. -/
def inject (loc : SrcLoc) (text : List Char) (s : Scanner) : Scanner :=
  if text = [] then s
  else
    let dir := match s.stack with | [] => "." | src :: _ => src.dir
    { s with stack := { buf := text, file := loc.file ++ ":<#exe>", dir } :: s.stack }

/-- `handleExeBlock`. -/
def handleExeBlock (s : Scanner) : Scanner :=
  let loc := s.here
  match s.chars.dropWhile isExeBlank with
  | [] => (s.moveTo []).error loc "#exe expects '\x7b'"
  | c :: cs =>
      if c ≠ '\x7b' then (s.moveTo cs).error loc "#exe expects '\x7b'"
      else
        let s := s.moveTo cs
        let X := exeBody 1 cs
        let s := s.exeErrors X.errs
        match X.rest with
        | none => (s.moveTo []).error loc "unterminated #exe{}"
        | some rest =>
            let s := s.moveTo rest
            match E.exeHook with
            | none => s.error loc "#exe{} is not available in this compilation mode"
            | some hook => s.inject loc (hook X.body loc)

/-- `openInclude`. -/
def openInclude (name : String) (s : Scanner) : Option Scanner :=
  let tries :=
    if name.toList.head? = some '/' then [name]
    else (match s.stack with | [] => [] | src :: _ => [src.dir ++ "/" ++ name]) ++
      E.includeDirs.map fun d => d ++ "/" ++ name
  match tries.findSome? fun path => (E.readFile path).map (path, ·) with
  | none => none
  | some (path, text) =>
      some { s with stack := { buf := text, file := path, dir := dirOf path } :: s.stack }

/-! ## Directives -/

/-- `#ifdef` and `#ifndef`, when `skipping` was seen before the line was lexed. -/
def pushIfdef (skipping : Bool) (loc : SrcLoc) (name : String) (toks : List Token)
    (d : DirState) : DirState :=
  let (val, d) : Bool × DirState :=
    match singleIdent toks with
    | some n => ((d.macros.find n).isSome, d)
    | none =>
        (false, if skipping then d
          else d.error loc ("#" ++ name ++ " expects a single identifier"))
  let val := if name = "ifndef" then !val else val
  d.pushCond ⟨if skipping then false else val, if skipping then true else val, false⟩

/-- `#if`. -/
def pushIf (skipping : Bool) (loc : SrcLoc) (toks : List Token) (d : DirState) : DirState :=
  if skipping then d.pushCond ⟨false, false, false⟩
  else
    let (v, d) := d.evalCond E.dirEnv toks loc
    let val := decide (v ≠ 0)
    d.pushCond ⟨val, val, false⟩

/-- `#ifaot` and `#ifjit`. -/
def pushIfMode (skipping : Bool) (name : String) (d : DirState) : DirState :=
  let val := decide (name = "ifjit") == E.jitMode
  let val := if skipping then false else val
  d.pushCond ⟨val, val, false⟩

/-- `#include`. -/
def handleInclude (loc : SrcLoc) (toks : List Token) (s : Scanner) : Scanner :=
  match toks with
  | [t] =>
      if t.kind = .strLit then
        match s.openInclude E t.text with
        | some s => s
        | none => s.error loc ("cannot open include file \"" ++ t.text ++ "\"")
      else s.error loc "#include expects a \"filename\" (no <> form in HolyC)"
  | _ => s.error loc "#include expects a \"filename\" (no <> form in HolyC)"

/-- The directives that a line of tokens decides: what they do once it is lexed. -/
def lineDirective (skipping : Bool) (loc : SrcLoc) (name : String) (toks : List Token)
    (s : Scanner) : Scanner :=
  if name = "ifdef" || name = "ifndef" then
    { s with dirs := pushIfdef skipping loc name toks s.dirs }
  else if name = "if" then { s with dirs := pushIf E skipping loc toks s.dirs }
  else if name = "ifaot" || name = "ifjit" then
    { s with dirs := pushIfMode E skipping name s.dirs }
  else if name = "else" then { s with dirs := handleElse loc s.dirs }
  else if name = "endif" then { s with dirs := handleEndif loc s.dirs }
  else if name = "define" then { s with dirs := handleDefine loc toks s.dirs }
  else if name = "undef" then { s with dirs := handleUndef loc toks s.dirs }
  else if name = "include" then s.handleInclude E loc toks
  else { s with dirs := handleAssert E.dirEnv loc toks s.dirs }

/-- The directives of conditionals: they are obeyed in skipped regions too. -/
def isCondDirective (name : String) : Bool :=
  name ∈ ["ifdef", "ifndef", "if", "ifaot", "ifjit", "else", "endif"]

/-- The other directives with a line of tokens. -/
def isLineDirective (name : String) : Bool :=
  name ∈ ["define", "undef", "include", "assert"]

/-- The directives without a line of tokens, outside skipped regions. -/
def otherDirective (loc : SrcLoc) (name : String) (s : Scanner) : Scanner :=
  if name = "help_index" || name = "help_file" then s.moveTo (skipToEndOfLine s.chars)
  else if name = "exe" then s.handleExeBlock E
  else
    let s := s.error loc ("unknown directive #" ++ name)
    s.moveTo (skipToEndOfLine s.chars)

end Scanner

/-! ## Tokens -/

/-- The white space between the tokens of a directive. -/
def isLineBlank (c : Char) : Bool := c = ' ' || c = '\t' || c = '\r'

/-- The value of a character constant: its first byte is the lowest. -/
def packChars (text : List Char) : I64 :=
  text.foldr (fun c v => (v <<< 8) ||| BitVec.ofNat 64 c.toNat) 0

namespace Scanner

/-- `lexToken`, from a character that begins a token; `none` at a stray character. -/
def token (E : ScanEnv) (s : Scanner) (c : Char) (cs : List Char) :
    Option (Token × Scanner) :=
  let loc := s.here
  if c.isAlpha || c = '_' || c = '@' then
    if c = '@' && ! peekIs '@' cs then
      some ({ kind := .punct, punct := .at, loc }, s.moveTo cs)
    else
      some ({ kind := .ident, text := String.ofList ((c :: cs).takeWhile isIdChar), loc },
        s.moveTo ((c :: cs).dropWhile isIdChar))
  else if c.isDigit then
    let (t, rest) := lexNumber E.strtod (c :: cs)
    some ({ t with loc }, s.moveTo rest)
  else if c = '"' then
    let s := s.moveTo cs
    let L := lexCharsInto '"' cs
    some ({ kind := .strLit, text := String.ofList L.text, loc },
      (s.moveTo L.rest).errors s.here L.errs)
  else if c = '\'' then
    let s := s.moveTo cs
    let L := lexCharsInto '\'' cs
    let s := (s.moveTo L.rest).errors s.here L.errs
    let s := if 8 < L.text.length then s.error loc "char constant longer than 8 characters" else s
    some ({ kind := .charLit, text := String.ofList L.text, ival := packChars L.text, loc }, s)
  else
    match lexPunct c cs with
    | some (p, rest) => some ({ kind := .punct, punct := p, loc }, s.moveTo rest)
    | none => none

mutual

/-- `rawNext`. -/
def rawNext (E : ScanEnv) : Nat → Scanner → Option (Token × Scanner)
  | 0, _ => none
  | n + 1, s =>
      match s.stack with
      | [] => some ({ kind := .eof, loc := s.here }, s)
      | src :: below =>
          match src.buf with
          | [] =>
              let s :=
                if ! s.dirs.conds.isEmpty && below.isEmpty then
                  s.error s.here "unterminated #if/#ifdef at end of file"
                else s
              rawNext E n { s with stack := below }
          | c :: cs =>
              if isBlank c then rawNext E n (s.moveTo cs)
              else if c = '/' && peekIs '/' cs then rawNext E n (s.moveTo (lineComment cs))
              else if c = '/' && peekIs '*' cs then
                match blockComment cs.tail with
                | some rest => rawNext E n (s.moveTo rest)
                | none => rawNext E n ((s.moveTo []).error s.here "unterminated /* comment")
              else if c = '#' then
                match handleDirective E n (s.moveTo cs) with
                | some s => rawNext E n s
                | none => none
              else if s.dirs.skippingConds then
                rawNext E n (s.moveTo (skipCondBlockLine (c :: cs)))
              else lexToken E n s

/-- `lexToken`. -/
def lexToken (E : ScanEnv) : Nat → Scanner → Option (Token × Scanner)
  | 0, _ => none
  | n + 1, s =>
      match s.chars with
      | [] => rawNext E n (s.error s.here ("stray character '" ++ "\xff" ++ "'"))
      | c :: cs =>
          match s.token E c cs with
          | some r => some r
          | none =>
              rawNext E n ((s.moveTo cs).error s.here ("stray character '" ++ c.toString ++ "'"))

/-- `lexLineTokens`, with `startLine` and the tokens so far. -/
def lexLineTokens (E : ScanEnv) : Nat → Nat → List Token → Scanner →
    Option (List Token × Scanner)
  | 0, _, _, _ => none
  | n + 1, startLine, out, s =>
      if s.stack.isEmpty then some (out, s)
      else
        let s := s.moveTo (s.chars.dropWhile isLineBlank)
        match s.chars with
        | [] => some (out, s)
        | c :: cs =>
            if c = '\\' && peekIs '\n' cs then
              let s := s.moveTo cs.tail
              lexLineTokens E n s.line out s
            else if c = '\n' then some (out, s)
            else if c = '/' && peekIs '/' cs then
              some (out, s.moveTo (skipToEndOfLine (c :: cs)))
            else if c = '/' && peekIs '*' cs then
              lexLineTokens E n startLine out (s.moveTo ((blockComment cs.tail).getD []))
            else if s.line ≠ startLine then some (out, s)
            else
              match lexToken E n s with
              | some (t, s) => lexLineTokens E n startLine (out ++ [t]) s
              | none => none

/-- `handleDirective`, after the `#`. -/
def handleDirective (E : ScanEnv) : Nat → Scanner → Option Scanner
  | 0, _ => none
  | n + 1, s =>
      let loc := s.here
      let isName := fun c : Char => c.isAlphanum || c = '_'
      let name := String.ofList (s.chars.takeWhile isName)
      let s := s.moveTo (s.chars.dropWhile isName)
      let skipping := s.dirs.skippingConds
      if isCondDirective name || (! skipping && isLineDirective name) then
        match lexLineTokens E n s.line [] s with
        | some (toks, s) => some (s.lineDirective E skipping loc name toks)
        | none => none
      else if skipping then some (s.moveTo (skipToEndOfLine s.chars))
      else some (s.otherDirective E loc name)

end

end Scanner

end Hlang.Lexer
