import Hlang.Lexer.Scan
import Mathlib.Logic.Relation

/-!
# Hlang.Lexer.ExeBlock — the text of an `#exe` block

A block goes on to the brace that closes it, where braces in literals and in
comments do not count. The loop of `handleExeBlock` looks for that brace in its
own way: it knows literals and line comments, and reads a block comment as if it
were program text. It finds the right brace where that makes no difference.
-/

namespace Hlang.Lexer

/-! ## The closing brace -/

/-- What follows the literal or the comment that begins with the character `c`, before `cs`. -/
def ignored (c : Char) (cs : List Char) : Option (List Char) :=
  if c = '"' || c = '\'' then some (lexCharsInto c cs).rest
  else if c = '/' && peekIs '/' cs then some (lineComment cs)
  else if c = '/' && peekIs '*' cs then some ((blockComment cs.tail).getD [])
  else none

theorem ignored_suffix {c : Char} {cs rest : List Char} (h : ignored c cs = some rest) :
    rest <:+ cs := by
  unfold ignored at h
  split_ifs at h
  · rw [← Option.some.inj h]
    exact lexCharsInto_suffix c cs
  · rw [← Option.some.inj h]
    exact List.dropWhile_suffix _
  · rw [← Option.some.inj h]
    cases hb : blockComment cs.tail with
    | none => exact List.nil_suffix
    | some rest => exact (blockComment_suffix hb).trans (List.tail_suffix cs)

/-- The text with blanks in place of its literals and comments. -/
def mask : List Char → List Char
  | [] => []
  | c :: cs =>
      match _h : ignored c cs with
      | some rest => List.replicate (cs.length + 1 - rest.length) ' ' ++ mask rest
      | none => c :: mask cs
termination_by cs => cs.length
decreasing_by
  · have hlen := (ignored_suffix _h).length_le
    simp only [List.length_cons]
    omega
  · simp

/-- The place of the brace that closes the `d` open ones. -/
def closing : Nat → List Char → Option Nat
  | _, [] => none
  | d, c :: m =>
      if c = '\x7d' then if d = 1 then some 0 else (closing (d - 1) m).map (· + 1)
      else if c = '\x7b' then (closing (d + 1) m).map (· + 1)
      else (closing d m).map (· + 1)

/-- The place of the brace that closes an `#exe` block, from behind its opening brace. -/
def closingBrace (cs : List Char) : Option Nat := closing 1 (mask cs)

/-- The closings exceed the openings by `d`. -/
def Exceeds (d : Nat) (m : List Char) : Prop := m.count '\x7d' = m.count '\x7b' + d

/-- The closing brace is where the closings first exceed the openings. -/
theorem closing_eq_some_iff {d i : Nat} (hd : 0 < d) (m : List Char) :
    closing d m = some i ↔
      i < m.length ∧ Exceeds d (m.take (i + 1)) ∧ ∀ j ≤ i, ¬ Exceeds d (m.take j) := by
  unfold Exceeds
  induction m generalizing d i with
  | nil => simp [closing]
  | cons c m ih =>
      -- one character, and the brace that is looked for behind it
      have hnext : ∀ d', 0 < d' → (∀ l : List Char, (c :: l).count '\x7d' = (c :: l).count '\x7b' + d ↔
            l.count '\x7d' = l.count '\x7b' + d') →
          ((closing d' m).map (· + 1) = some i ↔ i < (c :: m).length ∧
            ((c :: m).take (i + 1)).count '\x7d' = ((c :: m).take (i + 1)).count '\x7b' + d ∧
            ∀ j ≤ i, ¬ ((c :: m).take j).count '\x7d' = ((c :: m).take j).count '\x7b' + d) := by
        intro d' hd' hc
        cases i with
        | zero =>
            refine iff_of_false (by simp) ?_
            rintro ⟨-, h, -⟩
            rw [List.take_succ_cons, hc] at h
            simp only [List.take_zero, List.count_nil] at h
            omega
        | succ i =>
            have hmap : (closing d' m).map (· + 1) = some (i + 1) ↔ closing d' m = some i := by
              rw [Option.map_eq_some_iff]
              constructor
              · rintro ⟨k, hk, heq⟩
                rwa [Nat.succ.inj heq] at hk
              · intro hk
                exact ⟨i, hk, rfl⟩
            rw [hmap, ih hd', List.take_succ_cons, hc, List.length_cons, Nat.add_lt_add_iff_right]
            refine and_congr Iff.rfl (and_congr Iff.rfl ?_)
            constructor
            · intro h j hj
              cases j with
              | zero =>
                  simp only [List.take_zero, List.count_nil]
                  omega
              | succ j =>
                  rw [List.take_succ_cons, hc]
                  exact h j (by omega)
            · intro h j hj
              have h := h (j + 1) (by omega)
              rwa [List.take_succ_cons, hc] at h
      rw [closing]
      by_cases hclose : c = '\x7d'
      · subst hclose
        rw [if_pos rfl]
        by_cases h1 : d = 1
        · subst h1
          rw [if_pos rfl]
          constructor
          · intro h
            rw [← Option.some.inj h]
            refine ⟨by simp, by simp, ?_⟩
            intro j hj
            rw [Nat.le_zero.mp hj]
            simp
          · rintro ⟨-, -, hfirst⟩
            by_contra hne
            have hpos : 1 ≤ i := by
              by_contra hi
              exact hne (by rw [Nat.lt_one_iff.mp (Nat.not_le.mp hi)])
            exact hfirst 1 hpos (by simp)
        · rw [if_neg h1]
          apply hnext (d - 1) (by omega)
          intro l
          rw [List.count_cons_self, List.count_cons_of_ne (by decide)]
          omega
      · rw [if_neg hclose]
        by_cases hopen : c = '\x7b'
        · subst hopen
          rw [if_pos rfl]
          apply hnext (d + 1) (by omega)
          intro l
          rw [List.count_cons_self, List.count_cons_of_ne (by decide)]
          omega
        · rw [if_neg hopen]
          apply hnext d hd
          intro l
          rw [List.count_cons_of_ne hclose, List.count_cons_of_ne hopen]

/-- Blanks hide no brace. -/
theorem closing_blanks (d n : Nat) (m : List Char) :
    closing d (List.replicate n ' ' ++ m) = (closing d m).map (· + n) := by
  induction n with
  | zero => simp
  | succ n ih =>
      rw [List.replicate_succ, List.cons_append, closing, if_neg (by decide), if_neg (by decide),
        ih, Option.map_map]
      rfl

/-! ## The loop of `handleExeBlock` -/

/-- A turn of the loop that reports nothing and does not end it: the depth and what is left,
before and after. -/
inductive ExeStep : Nat × List Char → Nat × List Char → Prop where
  | literal {d : Nat} {c : Char} {cs : List Char} (hc : c = '"' ∨ c = '\'')
      (herr : (lexCharsInto c cs).errs = []) :
      ExeStep (d, c :: cs) (d, (lexCharsInto c cs).rest)
  | comment {d : Nat} {cs : List Char} (h : peekIs '/' cs = true) :
      ExeStep (d, '/' :: cs) (d, lineComment cs)
  | opened {d : Nat} {cs : List Char} : ExeStep (d, '\x7b' :: cs) (d + 1, cs)
  | closed {d : Nat} {cs : List Char} (hd : 1 < d) : ExeStep (d, '\x7d' :: cs) (d - 1, cs)
  | other {d : Nat} {c : Char} {cs : List Char} (hq : c ≠ '"' ∧ c ≠ '\'')
      (hb : c ≠ '\x7b' ∧ c ≠ '\x7d') (hcomment : (c = '/' && peekIs '/' cs) = false) :
      ExeStep (d, c :: cs) (d, cs)

/-- Some turns of the loop. -/
abbrev ExeSteps := Relation.ReflTransGen ExeStep

/-- The loop sees the block as the lexer does: every literal is well formed, and a block
comment, read as program text, ends where it ends and leaves the depth as it was. -/
inductive Clear : Nat → List Char → Prop where
  | nil {d : Nat} : Clear d []
  | brace {cs : List Char} : Clear 1 ('\x7d' :: cs)
  /-- a literal without an end leaves nothing -/
  | unclosed {d : Nat} {c : Char} {cs : List Char} (hc : c = '"' ∨ c = '\'')
      (hrest : (lexCharsInto c cs).rest = []) : Clear d (c :: cs)
  | step {d d' : Nat} {c : Char} {cs cs' : List Char} (h : ExeStep (d, c :: cs) (d', cs'))
      (hcomment : (c = '/' && peekIs '*' cs) = false) (hrest : Clear d' cs') : Clear d (c :: cs)
  | comment {d d' : Nat} {cs : List Char} (hcs : peekIs '*' cs = true)
      (h : ExeSteps (d, '/' :: cs) (d', (blockComment cs.tail).getD []))
      (hd : d' = d ∨ blockComment cs.tail = none)
      (hrest : Clear d ((blockComment cs.tail).getD [])) : Clear d ('/' :: cs)

theorem ExeScan.push_push (X : ExeScan) (a b : List Char) :
    (X.push b).push a = X.push (a ++ b) := by
  unfold ExeScan.push
  rw [List.append_assoc]

/-- What is taken from the front of a text. -/
theorem take_of_suffix {rest cs : List Char} (h : rest <:+ cs) :
    cs.take (cs.length - rest.length) ++ rest = cs := by
  rcases h with ⟨w, rfl⟩
  rw [List.length_append, Nat.add_sub_cancel, List.take_left]

theorem exeBody_other {d : Nat} {c : Char} {cs : List Char} (hq : c ≠ '"' ∧ c ≠ '\'')
    (hb : c ≠ '\x7b' ∧ c ≠ '\x7d') (hcomment : (c = '/' && peekIs '/' cs) = false) :
    exeBody d (c :: cs) = (exeBody d cs).push [c] := by
  have hc : (c = '"' || c = '\'') = false := by simpa using hq
  conv => lhs; rw [exeBody]
  rw [hc, hcomment, if_neg Bool.false_ne_true, if_neg Bool.false_ne_true, if_neg hb.2,
    if_neg hb.1]

theorem exeBody_brace (cs : List Char) : exeBody 1 ('\x7d' :: cs) = ⟨[], some cs, []⟩ := by
  rw [exeBody]
  simp

/-- A turn of the loop appends what it has read to the body. -/
theorem exeBody_step {a b : Nat × List Char} (h : ExeStep a b) :
    ∃ w, a.2 = w ++ b.2 ∧ exeBody a.1 a.2 = (exeBody b.1 b.2).push w := by
  cases h with
  | @literal d c cs hc herr =>
      refine ⟨c :: cs.take (cs.length - (lexCharsInto c cs).rest.length), ?_, ?_⟩
      · rw [List.cons_append, take_of_suffix (lexCharsInto_suffix c cs)]
      · have hq : (c = '"' || c = '\'') = true := by simpa using hc
        conv => lhs; rw [exeBody]
        rw [if_pos hq]
        simp only [herr]
        rfl
  | @comment d cs hcs =>
      refine ⟨'/' :: cs.takeWhile (· ≠ '\n'), ?_, ?_⟩
      · rw [List.cons_append]
        unfold lineComment
        rw [List.takeWhile_append_dropWhile]
      · conv => lhs; rw [exeBody]
        rw [if_neg (by decide), if_pos (by simpa using hcs)]
  | opened =>
      refine ⟨['\x7b'], rfl, ?_⟩
      conv => lhs; rw [exeBody]
      rw [if_neg (by decide), if_neg (by simp), if_neg (by decide), if_pos rfl]
  | @closed d cs hd =>
      refine ⟨['\x7d'], rfl, ?_⟩
      conv => lhs; rw [exeBody]
      rw [if_neg (by decide), if_neg (by simp), if_pos rfl, if_neg (by omega)]
  | @other d c cs hq hb hcomment =>
      exact ⟨[c], rfl, exeBody_other hq hb hcomment⟩

theorem exeBody_steps {a b : Nat × List Char} (h : ExeSteps a b) :
    ∃ w, a.2 = w ++ b.2 ∧ exeBody a.1 a.2 = (exeBody b.1 b.2).push w := by
  induction h with
  | refl => exact ⟨[], rfl, rfl⟩
  | tail _ hstep ih =>
      rcases ih with ⟨w, htext, hbody⟩
      rcases exeBody_step hstep with ⟨u, htext', hbody'⟩
      refine ⟨w ++ u, ?_, ?_⟩
      · rw [htext, htext', List.append_assoc]
      · rw [hbody, hbody', ExeScan.push_push]

/-! ## The loop finds the brace -/

theorem mask_ignored {c : Char} {cs rest : List Char} (h : ignored c cs = some rest) :
    mask (c :: cs) = List.replicate (cs.length + 1 - rest.length) ' ' ++ mask rest := by
  rw [mask]
  split
  · rename_i rest' h'
    rw [h] at h'
    rw [Option.some.inj h']
  · rename_i h'
    rw [h] at h'
    exact absurd h' (by simp)

theorem mask_plain {c : Char} {cs : List Char} (h : ignored c cs = none) :
    mask (c :: cs) = c :: mask cs := by
  rw [mask]
  split
  · rename_i rest' h'
    rw [h] at h'
    exact absurd h' (by simp)
  · rfl

theorem ignored_literal {c : Char} (cs : List Char) (hc : c = '"' ∨ c = '\'') :
    ignored c cs = some (lexCharsInto c cs).rest := by
  have hq : (c = '"' || c = '\'') = true := by simpa using hc
  unfold ignored
  rw [if_pos hq]

theorem ignored_block {cs : List Char} (h : peekIs '*' cs = true) :
    ignored '/' cs = some ((blockComment cs.tail).getD []) := by
  have hline : peekIs '/' cs = false := by
    cases cs with
    | nil => rfl
    | cons d cs =>
        have hd : d = '*' := by simpa using h
        rw [hd]
        rfl
  unfold ignored
  simp [hline, h]

/-- The brace behind an ignored text. -/
theorem closing_ignored {c : Char} {cs rest : List Char} (h : ignored c cs = some rest) (d : Nat) :
    closing d (mask (c :: cs)) = (closing d (mask rest)).map (· + (cs.length + 1 - rest.length)) := by
  rw [mask_ignored h, closing_blanks]

/-- Where the loop reads as the lexer does, the brace is found behind what it has read. -/
theorem closing_step {d d' : Nat} {c : Char} {cs cs' : List Char}
    (h : ExeStep (d, c :: cs) (d', cs')) (hcomment : (c = '/' && peekIs '*' cs) = false) :
    closing d (mask (c :: cs)) = (closing d' (mask cs')).map (· + (cs.length + 1 - cs'.length)) := by
  cases h with
  | literal hc _ => exact closing_ignored (ignored_literal cs hc) d
  | comment hcs =>
      apply closing_ignored
      unfold ignored
      simp [hcs]
  | opened =>
      have hplain : ignored '\x7b' cs = none := by simp [ignored]
      rw [mask_plain hplain, closing, if_neg (by decide), if_pos rfl, Nat.add_sub_cancel_left]
  | closed hd =>
      have hplain : ignored '\x7d' cs = none := by simp [ignored]
      rw [mask_plain hplain, closing, if_pos rfl, if_neg (by omega), Nat.add_sub_cancel_left]
  | other hq hb hline =>
      have hplain : ignored c cs = none := by
        unfold ignored
        simp [hq, hline, hcomment]
      rw [mask_plain hplain, closing, if_neg hb.2, if_neg hb.1, Nat.add_sub_cancel_left]

/-- The loop has found the brace that closes the `d` open ones, if there is one. -/
def Found (d : Nat) (cs : List Char) : Prop :=
  match closing d (mask cs) with
  | some i => exeBody d cs = ⟨cs.take i, some (cs.drop (i + 1)), []⟩
  | none => (exeBody d cs).rest = none

/-- The brace is found behind a text that both have read. -/
theorem Found.append {d d' : Nat} {cs cs' w : List Char} (hcs : cs = w ++ cs')
    (hbody : exeBody d cs = (exeBody d' cs').push w)
    (hclosing : closing d (mask cs) = (closing d' (mask cs')).map (· + (cs.length - cs'.length)))
    (h : Found d' cs') : Found d cs := by
  have hlen : cs.length - cs'.length = w.length := by
    rw [hcs, List.length_append, Nat.add_sub_cancel]
  rw [hlen] at hclosing
  unfold Found at h ⊢
  rw [hclosing, hbody]
  cases hi : closing d' (mask cs') with
  | none =>
      rw [hi] at h
      exact h
  | some i =>
      rw [hi] at h
      simp only at h
      simp only [Option.map_some, h]
      have htake : (w ++ cs').take (i + w.length) = w ++ cs'.take i := by
        rw [Nat.add_comm, List.take_length_add_append]
      have hdrop : (w ++ cs').drop (i + w.length + 1) = cs'.drop (i + 1) := by
        rw [show i + w.length + 1 = w.length + (i + 1) by omega, List.drop_length_add_append]
      rw [hcs, htake, hdrop]
      rfl

theorem Found.nothing_left {d : Nat} {cs : List Char} (hclosing : closing d (mask cs) = none)
    (hbody : (exeBody d cs).rest = none) : Found d cs := by
  unfold Found
  rw [hclosing]
  exact hbody

/-- In a clear block the loop finds the closing brace. -/
theorem Clear.found {d : Nat} {cs : List Char} (h : Clear d cs) : Found d cs := by
  induction h with
  | nil => exact .nothing_left (by rw [mask]; rfl) (by rw [exeBody])
  | @brace cs =>
      have hplain : ignored '\x7d' cs = none := by simp [ignored]
      unfold Found
      rw [mask_plain hplain, closing, if_pos rfl, if_pos rfl, exeBody_brace]
      rfl
  | @unclosed d c cs hc hrest =>
      have hq : (c = '"' || c = '\'') = true := by simpa using hc
      apply Found.nothing_left
      · rw [closing_ignored (ignored_literal cs hc), hrest, mask]
        rfl
      · rw [exeBody, if_pos hq]
        simp only [hrest]
        rw [exeBody]
        rfl
  | step h hcomment _ ih =>
      rcases exeBody_step h with ⟨w, htext, hbody⟩
      exact .append htext hbody (closing_step h hcomment) ih
  | @comment d d' cs hcs h hd _ ih =>
      have hclosing := closing_ignored (ignored_block hcs) d
      rcases exeBody_steps h with ⟨w, htext, hbody⟩
      rcases hd with rfl | hnone
      · exact .append htext hbody hclosing ih
      · -- a comment without an end
        simp only [hnone, Option.getD_none] at hbody hclosing
        apply Found.nothing_left
        · rw [hclosing, mask]
          rfl
        · rw [hbody, exeBody]
          rfl

/-! ## The block -/

namespace Scanner

/-- What becomes of a captured block, when the lexer stands behind its closing brace. -/
def captured (E : ScanEnv) (loc : SrcLoc) (body : List Char) (s : Scanner) : Scanner :=
  match E.exeHook with
  | none => s.error loc "#exe{} is not available in this compilation mode"
  | some hook => s.inject loc (hook body loc)

/-- What `#exe` is to do with the text `cs` behind its opening brace: the characters before the
closing brace are captured, lexing goes on behind it, and nothing is reported; without such a
brace there is an error. -/
def Captures (E : ScanEnv) (s : Scanner) (cs : List Char) : Prop :=
  match closingBrace cs with
  | some i => s.handleExeBlock E = captured E s.here (cs.take i) (s.moveTo (cs.drop (i + 1)))
  | none => ∃ t : Scanner, s.handleExeBlock E = t.error s.here "unterminated #exe{}" ∧
      t.stack = (s.moveTo []).stack

theorem exeErrors_stack (s : Scanner) (errs : List (List Char × String)) :
    (s.exeErrors errs).stack = s.stack := by
  have hfold : ∀ t : Scanner, (errs.foldl (fun t e => t.error (s.moveTo e.1).here e.2) t).stack =
      t.stack := by
    induction errs with
    | nil => exact fun _ => rfl
    | cons e errs ih => exact fun t => ih _
  exact hfold s

theorem moveTo_stack {s t : Scanner} (h : s.stack = t.stack) (rest : List Char) :
    (s.moveTo rest).stack = (t.moveTo rest).stack := by
  rcases s with ⟨stack, d⟩
  rcases t with ⟨stack', d'⟩
  have h : stack = stack' := h
  subst h
  cases stack <;> rfl

/-- In a clear block what is captured ends at the closing brace. -/
theorem handleExeBlock_captures (E : ScanEnv) {s : Scanner} {cs : List Char}
    (hopen : s.chars.dropWhile isExeBlank = '\x7b' :: cs) (hclear : Clear 1 cs) :
    s.Captures E cs := by
  have hfound := hclear.found
  have hsplit : s.chars = (s.chars.takeWhile isExeBlank ++ ['\x7b']) ++ (cs ++ []) := by
    conv => lhs; rw [← List.takeWhile_append_dropWhile (p := isExeBlank) (l := s.chars), hopen]
    simp
  have hend : ∀ w rest : List Char, cs = w ++ rest → (s.moveTo cs).moveTo rest = s.moveTo rest := by
    rintro w rest rfl
    apply moveTo_moveTo (a := s.chars.takeWhile isExeBlank ++ ['\x7b'])
    rw [List.append_nil] at hsplit
    exact hsplit
  unfold Found at hfound
  unfold Captures closingBrace
  cases hi : closing 1 (mask cs) with
  | some i =>
      rw [hi] at hfound
      simp only at hfound ⊢
      have hdrop := hend (cs.take (i + 1)) (cs.drop (i + 1)) (List.take_append_drop _ _).symm
      unfold handleExeBlock captured
      simp only [hopen, hfound, ne_eq, not_true, if_false]
      show (match E.exeHook with
        | none => ((s.moveTo cs).moveTo (cs.drop (i + 1))).error s.here _
        | some hook => ((s.moveTo cs).moveTo (cs.drop (i + 1))).inject s.here _) = _
      rw [hdrop]
  | none =>
      rw [hi] at hfound
      simp only at hfound ⊢
      refine ⟨((s.moveTo cs).exeErrors (exeBody 1 cs).errs).moveTo [], ?_, ?_⟩
      · unfold handleExeBlock
        simp only [hopen, hfound, ne_eq, not_true, if_false]
      · have hnil := hend cs [] (List.append_nil cs).symm
        rw [← hnil]
        exact moveTo_stack (exeErrors_stack _ _) []

/-- A hook that splices the text of the block. -/
def echoing : ScanEnv := { ScanEnv.bare with exeHook := some fun body _ => body }

/-- `{1;//}`, a newline and `}`: the brace in the line comment does not close the block. -/
theorem handleExeBlock_comment : Captures echoing
    ⟨[⟨"\x7b1;//\x7d\n\x7d".toList, "f", ".", 1, 1⟩], {}⟩ "1;//\x7d\n\x7d".toList := by
  apply handleExeBlock_captures
  · rfl
  · have hline : Clear 1 "//\x7d\n\x7d".toList :=
      .step (.comment rfl) rfl (.step (.other (by decide) (by decide) rfl) rfl .brace)
    exact .step (.other (by decide) (by decide) rfl) rfl
      (.step (.other (by decide) (by decide) rfl) rfl hline)

/-- `{/*}*/}`: the brace in the block comment closes the block. -/
theorem block_comment_not_captured : ¬ Captures echoing
    ⟨[⟨"\x7b/*\x7d*/\x7d".toList, "f", ".", 1, 1⟩], {}⟩ "/*\x7d*/\x7d".toList := by
  have hclosing : closingBrace "/*\x7d*/\x7d".toList = some 5 := by
    have hplain : ignored '\x7d' [] = none := by simp [ignored]
    have hcomment : ignored '/' "*\x7d*/\x7d".toList = some ['\x7d'] := ignored_block rfl
    have hblock := closing_ignored hcomment 1
    rw [mask_plain hplain] at hblock
    exact hblock
  have hbody : exeBody 1 "/*\x7d*/\x7d".toList =
      ⟨"/*".toList, some "*/\x7d".toList, []⟩ := by
    have h₁ : exeBody 1 "/*\x7d*/\x7d".toList =
        (exeBody 1 "*\x7d*/\x7d".toList).push ['/'] := exeBody_other (by decide) (by decide) rfl
    have h₂ : exeBody 1 "*\x7d*/\x7d".toList =
        (exeBody 1 "\x7d*/\x7d".toList).push ['*'] := exeBody_other (by decide) (by decide) rfl
    have h₃ : exeBody 1 "\x7d*/\x7d".toList = _ := exeBody_brace _
    rw [h₁, h₂, h₃]
    rfl
  unfold Captures
  rw [hclosing]
  intro hcaptures
  -- the block that is spliced is two characters long
  have hchars := congrArg Scanner.chars hcaptures
  unfold handleExeBlock at hchars
  have hopen : (Scanner.chars ⟨[⟨"\x7b/*\x7d*/\x7d".toList, "f", ".", 1, 1⟩], {}⟩).dropWhile
      isExeBlank = '\x7b' :: "/*\x7d*/\x7d".toList := rfl
  simp only [hopen, hbody] at hchars
  exact absurd hchars (by decide)

end Scanner

end Hlang.Lexer
