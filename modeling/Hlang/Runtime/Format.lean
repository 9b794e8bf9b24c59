import Hlang.Token
import Mathlib.Data.Nat.Digits.Defs

/-!
# Hlang.Runtime.Format — the formatter of the runtime

`hc_format` and the functions it calls. Each piece of output is the list of
bytes it emits. What the formatter finds outside its own variables is in a
`Host`: the memory its string arguments point into, what the scratch buffer
held before, and the texts `snprintf` gives for doubles.

The format string is scanned by one step for each character read, from the
loop head or from one of the inner loops (`Pc`). The state keeps, besides the
variables of the function, which bytes of the format and which slots of the
argument vector have been read so far.
-/

namespace Hlang.Runtime

abbrev Byte := BitVec 8

/-- An `int`. -/
abbrev I32 := BitVec 32

/-- The byte of a character. -/
def ch (c : Char) : Byte := BitVec.ofNat 8 c.toNat

/-- The bytes of a string constant. -/
def chs (s : String) : List Byte := s.toList.map ch

/-- What the formatter finds in its surroundings. -/
structure Host where
  mem : I64 → Byte
  /-- the bytes of `tmp` before it is written -/
  tmp : Nat → Byte
  /-- the text of a double for `%+.*f` and its like: `plus`, the precision, the
  conversion and the bits of the double -/
  fpText : Bool → Int → Char → I64 → List Byte

/-- Where the bytes of a field are read from. -/
abbrev Body := Nat → Byte

/-- A buffer that begins with `text`; a NUL and the `old` bytes follow. -/
def bodyOf (text : List Byte) (old : Body) : Body :=
  fun i => if i < text.length then text.getD i 0 else if i = text.length then 0 else old i

/-- The text of `n` bytes at `a`. -/
def Host.at (H : Host) (a : I64) : Body := fun i => H.mem (a + BitVec.ofNat 64 i)

/-- `(int)n` of a `size_t`. -/
def toInt32 (n : Nat) : Int := (BitVec.ofNat 32 n : I32).toInt

/-- The string at `a`, of less than `fuel` bytes. -/
def Host.cstr (H : Host) : Nat → I64 → List Byte
  | 0, _ => []
  | fuel + 1, a => if H.mem a = 0 then [] else H.mem a :: H.cstr fuel (a + 1)

/-- `strlen`. -/
def Host.strlen (H : Host) (a : I64) : Nat := (H.cstr (2 ^ 64) a).length

/-! ## Fields -/

/-- `out_emit` of `n` bytes of `body`, from byte `i`. -/
def outEmit (body : Body) (i n : Nat) : List Byte := (List.range n).map fun k => body (i + k)

/-- `out_pad`. -/
def outPad (c : Byte) (n : Int) : List Byte := List.replicate n.toNat c

/-- The loop of `int_body` that writes the digits `i - 1` down to `0`, which are
kept lowest first. -/
def intBodyDigits (digits : List Byte) (group : Bool) : Nat → List Byte
  | 0 => []
  | i + 1 =>
      let rest := intBodyDigits digits group i
      digits.getD i 0 :: if group && decide (0 < i ∧ i % 3 = 0) then ch ',' :: rest else rest

/-- `int_body`. -/
def intBody (v : Nat) (base : Nat) (upper commas neg : Bool) : List Byte :=
  let hex := chs (if upper then "0123456789ABCDEF" else "0123456789abcdef")
  let digits := if v = 0 then [ch '0'] else (Nat.digits base v).map (hex.getD · 0)
  (if neg then [ch '-'] else []) ++
    intBodyDigits digits (commas && base = 10) digits.length

/-- `fmt_field`; `(size_t)len` is the number of bytes emitted. -/
def fmtField (body : Body) (len width : Int) (left zero : Bool) : List Byte :=
  let size := (BitVec.ofInt 64 len).toNat
  if width ≤ len then outEmit body 0 size
  else if left then outEmit body 0 size ++ outPad (ch ' ') (width - len)
  else if zero then
    if len ≠ 0 ∧ (body 0 = ch '-' ∨ body 0 = ch '+') then
      outEmit body 0 1 ++ outPad (ch '0') (width - len) ++
        outEmit body 1 (BitVec.ofInt 64 (len - 1)).toNat
    else outPad (ch '0') (width - len) ++ outEmit body 0 size
  else outPad (ch ' ') (width - len) ++ outEmit body 0 size

/-- `emit_packed_chars`. -/
def emitPackedChars (v : I64) : List Byte :=
  ((List.range 8).map fun i => (v >>> (8 * i)).setWidth 8).filter (· ≠ 0)

/-- A number in decimal with at least `n` digits, as `%0nllu` prints it. -/
def padDec (n v : Nat) : List Byte :=
  let digits := intBody v 10 false false false
  List.replicate (n - digits.length) (ch '0') ++ digits

/-- A number as `%0nlld` prints it: the sign counts for the width. -/
def padDecInt (n : Nat) (v : Int) : List Byte :=
  if v < 0 then ch '-' :: padDec (n - 1) v.natAbs else padDec n v.natAbs

/-- The day number of `fmt_date` as month, day and year. -/
def civil (days : I64) : I64 × I64 × I64 :=
  let z := days - 719528
  let z := z + 719468
  let era := (if BitVec.sle 0 z then z else z - 146096).sdiv 146097
  let doe := z - era * 146097
  let yoe := (doe - doe.udiv 1460 + doe.udiv 36524 - doe.udiv 146096).udiv 365
  let y := yoe + era * 400
  let doy := doe - (365 * yoe + yoe.udiv 4 - yoe.udiv 100)
  let mp := (5 * doy + 2).udiv 153
  let d := doy - (153 * mp + 2).udiv 5 + 1
  let m := if mp.ult 10 then mp + 3 else mp - 9
  (m, d, if BitVec.ule m 2 then y + 1 else y)

/-- `fmt_date`. The product of the fraction with 86400.0 is a double exactly, and
so is its quotient by a power of two. -/
def fmtDate (cdate : I64) (timePart : Bool) : List Byte :=
  let days := cdate.sshiftRight 32
  let frac := (cdate &&& 0xFFFFFFFF).toNat
  let secs := frac * 86400 / 4294967296
  if timePart then
    padDec 2 (secs / 3600) ++ [ch ':'] ++ padDec 2 (secs / 60 % 60) ++ [ch ':'] ++
      padDec 2 (secs % 60)
  else
    let (m, d, y) := civil days
    padDec 2 m.toNat ++ [ch '/'] ++ padDec 2 d.toNat ++ [ch '/'] ++ padDecInt 4 y.toInt

/-- The loop of `%q`. -/
def quoted (s : List Byte) : List Byte :=
  s.flatMap fun c =>
    if c = ch '"' || c = ch '\\' then [ch '\\', c]
    else if c = ch '\n' then [ch '\\', ch 'n']
    else [c]

/-- The loop of `%z`: skip `idx` entries of the list, as long as there are any. -/
def Host.zEntry (H : Host) : Nat → I64 → I64
  | 0, lst => lst
  | idx + 1, lst =>
      if H.mem lst = 0 then lst else H.zEntry idx (lst + BitVec.ofNat 64 (H.strlen lst) + 1)

/-! ## Conversions -/

/-- The argument vector. -/
structure ArgVec where
  argc : I64
  argv : Nat → I64

/-- `ai`, with the slots of `argv` read so far. -/
structure Args where
  ai : Nat := 0
  reads : List Nat := []

/-- `NEXT_ARG`. -/
def nextArg (V : ArgVec) (A : Args) : I64 × Args :=
  if (A.ai : Int) < V.argc.toInt then (V.argv A.ai, ⟨A.ai + 1, A.reads ++ [A.ai]⟩) else (0, A)

structure Flags where
  left : Bool := false
  zero : Bool := false
  commas : Bool := false
  plus : Bool := false

/-- The text of `%d`. -/
def decimal (f : Flags) (v : I64) : List Byte :=
  let neg := v.slt 0
  let uv := if neg then (-(v + 1) + 1).toNat else v.toNat
  let body := intBody uv 10 false f.commas neg
  if f.plus && !neg then ch '+' :: body else body

/-- The `switch` of `hc_format`, for the character `c`: what it emits and the
arguments it takes. -/
def convert (H : Host) (V : ArgVec) (f : Flags) (width prec : I32) (c : Byte) (A : Args) :
    List Byte × Args :=
  let (v, A₁) := nextArg V A
  let inTmp := fun (text : List Byte) (zero : Bool) =>
    fmtField (bodyOf text H.tmp) text.length width.toInt f.left zero
  match Char.ofNat c.toNat with
  | 'd' | 'i' => (inTmp (decimal f v) f.zero, A₁)
  | 'u' => (inTmp (intBody v.toNat 10 false f.commas false) f.zero, A₁)
  | 'x' => (inTmp (intBody v.toNat 16 false false false) f.zero, A₁)
  | 'X' => (inTmp (intBody v.toNat 16 true false false) f.zero, A₁)
  | 'p' | 'P' =>
      let hex := intBody v.toNat 16 true false false
      (inTmp (List.replicate (16 - hex.length) (ch '0') ++ hex) f.zero, A₁)
  | 'c' => (inTmp (emitPackedChars v) false, A₁)
  | 's' =>
      let text := if v = 0 then chs "(null)" else H.cstr (2 ^ 64) v
      let len := toInt32 text.length
      let len := if 0 ≤ prec.toInt ∧ prec.toInt < len then prec.toInt else len
      let body := if v = 0 then bodyOf text H.tmp else H.at v
      (fmtField body len width.toInt f.left false, A₁)
  | 'q' | 'Q' =>
      let sub := quoted (if v = 0 then [] else H.cstr (2 ^ 64) v)
      (fmtField (bodyOf sub H.tmp) (toInt32 sub.length) width.toInt f.left false, A₁)
  | 'f' | 'e' | 'g' =>
      -- `snprintf` stores what fits in `tmp` and returns the whole length
      let text := H.fpText f.plus (if prec.toInt < 0 then 6 else prec.toInt)
        (Char.ofNat c.toNat) v
      let body := bodyOf (text.take 511) H.tmp
      (fmtField body (toInt32 text.length) width.toInt f.left f.zero, A₁)
  | 'z' =>
      let (lst, A₂) := nextArg V A₁
      if lst = 0 then ([], A₂)
      else
        let lst := H.zEntry v.toInt.toNat lst
        (fmtField (H.at lst) (toInt32 (H.strlen lst)) width.toInt f.left false, A₂)
  | 'D' => (fmtDate v false, A₁)
  | 'T' => (fmtDate v true, A₁)
  | _ => ([ch '%', c], A)

/-! ## The scan -/

/-- Where the scan of the format stands. -/
inductive Pc where
  /-- the head of the outer loop -/
  | head
  /-- after a `%` -/
  | percent
  /-- the loop over the flags -/
  | flags (f : Flags)
  /-- the loop over the digits of the width, and the test for a dot -/
  | width (f : Flags) (width : I32)
  /-- the loop over the digits of the precision -/
  | prec (f : Flags) (width prec : I32)
  /-- the `switch` -/
  | conv (f : Flags) (width prec : I32)
  /-- the outer loop has ended -/
  | done

/-- The state of the scan: `p` is the offset of the pointer from `fmt`. -/
structure Scan where
  pc : Pc := .head
  p : Nat := 0
  out : List Byte := []
  args : Args := {}
  /-- the bytes of `fmt` read so far -/
  reads : List Nat := []

/-- The loop over the flags: the flags after the character, if it is one. -/
def Flags.add (f : Flags) (c : Byte) : Option Flags :=
  if c = ch '-' then some { f with left := true }
  else if c = ch '0' then some { f with zero := true }
  else if c = ch ',' then some { f with commas := true }
  else if c = ch '+' then some { f with plus := true }
  else none

/-- The value of a decimal digit. -/
def digit? (c : Byte) : Option I32 :=
  if 48 ≤ c.toNat ∧ c.toNat ≤ 57 then some (BitVec.ofNat 32 (c.toNat - 48)) else none

/-- One character of the scan. The loops over the digits end in the test that
follows them, which reads the same character. -/
def Scan.step (H : Host) (V : ArgVec) (fmt : Nat → Byte) (S : Scan) : Scan :=
  let c := fmt S.p
  let S' := { S with reads := S.reads ++ [S.p] }
  match S.pc with
  | .head =>
      if c = 0 then { S' with pc := .done }
      else if c ≠ ch '%' then { S' with out := S.out ++ [c], p := S.p + 1 }
      else { S' with pc := .percent, p := S.p + 1 }
  | .percent =>
      if c = 0 then { S' with pc := .done }
      else if c = ch '%' then { S' with pc := .head, out := S.out ++ [ch '%'], p := S.p + 1 }
      else { S' with pc := .flags {} }
  | .flags f =>
      match f.add c with
      | some f => { S' with pc := .flags f, p := S.p + 1 }
      | none => { S' with pc := .width f 0 }
  | .width f w =>
      match digit? c with
      | some d => { S' with pc := .width f (w * 10 + d), p := S.p + 1 }
      | none =>
          if c = ch '.' then { S' with pc := .prec f w 0, p := S.p + 1 }
          else { S' with pc := .conv f w (-1) }
  | .prec f w pr =>
      match digit? c with
      | some d => { S' with pc := .prec f w (pr * 10 + d), p := S.p + 1 }
      | none => { S' with pc := .conv f w pr }
  | .conv f w pr =>
      let (out, args) := convert H V f w pr c S.args
      { S' with pc := .head, out := S.out ++ out, args := args, p := S.p + 1 }
  | .done => S

/-- `hc_format` after `k` steps; a null format ends at once. -/
def hcFormat (H : Host) (V : ArgVec) (fmt : Option (Nat → Byte)) (k : Nat) : Scan :=
  match fmt with
  | some fmt => (Scan.step H V fmt)^[k] {}
  | none => { pc := .done }

end Hlang.Runtime
