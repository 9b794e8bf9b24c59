import Hlang.Lexer.Spelling

/-!
# Hlang.Lexer.DirectiveLine — the tokens of a directive

The line of a directive is a number of tokens, with blanks, block comments and
line splices between them, up to the end of the line or a line comment. The loop
of `lexLineTokens` goes through it piece by piece: a splice moves the line on
which it stays, everything else leaves it there.
-/

namespace Hlang.Lexer

/-! ## The pieces of a line -/

/-- What can stand between two tokens of a line. -/
inductive Gap where
  | blank (c : Char) (h : isLineBlank c = true)
  /-- a block comment -/
  | comment (body : List Char) (closed : ¬ ['*', '/'] <:+: body) (line : '\n' ∉ body)
  /-- a backslash at the end of a physical line -/
  | splice

namespace Gap

def text : Gap → List Char
  | blank c _ => [c]
  | comment body _ _ => '/' :: '*' :: (body ++ ['*', '/'])
  | splice => ['\\', '\n']

/-- The turns of the loop of `lexLineTokens` that it takes. -/
def turns : Gap → Nat
  | blank _ _ => 0
  | _ => 1

def IsSplice : Gap → Prop
  | splice => True
  | _ => False

end Gap

def gapsText (gs : List Gap) : List Char := gs.flatMap Gap.text

def gapTurns (gs : List Gap) : Nat := (gs.map Gap.turns).sum

/-- A token and its text. -/
structure Word where
  first : Char
  more : List Char
  tok : Token

namespace Word

def text (w : Word) : List Char := w.first :: w.more

/-- Before `rest`, on one line, the text is read as the token. -/
structure Reads (E : ScanEnv) (w : Word) (rest : List Char) : Prop where
  starts : Starts w.first (w.more ++ rest)
  token : ∀ s : Scanner, s.chars = w.text ++ rest →
    s.token E w.first (w.more ++ rest) = some ({ w.tok with loc := s.here }, s.moveTo rest)
  line : '\n' ∉ w.text

end Word

/-- Tokens, each with what stands before it. -/
abbrev Words := List (List Gap × Word)

namespace Words

def text : Words → List Char
  | [] => []
  | (gs, w) :: ws => gapsText gs ++ (w.text ++ text ws)

def turns : Words → Nat
  | [] => 0
  | (gs, _) :: ws => gapTurns gs + 1 + turns ws

/-- Every token is read, before the next ones and `rest`. -/
def Read (E : ScanEnv) : Words → List Char → Prop
  | [], _ => True
  | (_, w) :: ws, rest => w.Reads E (text ws ++ rest) ∧ Read E ws rest

/-- What the tokens say, with the columns in which they begin, from column `col` on. -/
def placed (col : Nat) : Words → List (Token × Nat)
  | [] => []
  | (gs, w) :: ws =>
      let start := Source.columnAfter col (gapsText gs)
      (w.tok.shape, start) :: placed (Source.columnAfter start w.text) ws

end Words

/-! ## One turn of the loop -/

section Turns

variable (E : ScanEnv) {s : Scanner} {rest : List Char} {out : List Token} {sl : Nat}

open Scanner

/-- White space goes first. -/
theorem lexLineTokens_blank (hs : s.stack ≠ []) {c : Char} (hc : isLineBlank c = true)
    (h : s.chars = c :: rest) (n : Nat) :
    lexLineTokens E (n + 1) sl out s = lexLineTokens E (n + 1) sl out (s.moveTo rest) := by
  have hsplit₀ : s.chars = [c] ++ rest := h
  have hmoved := moveTo_append hsplit₀ hs
  have hempty : s.stack.isEmpty = false := by simpa using hs
  have hempty' : (s.moveTo rest).stack.isEmpty = false := by simpa using hmoved.1
  have hdrop : (c :: rest).dropWhile isLineBlank = rest.dropWhile isLineBlank := by
    rw [List.dropWhile_cons, if_pos hc]
  have htwo : (s.moveTo rest).moveTo (rest.dropWhile isLineBlank) =
      s.moveTo (rest.dropWhile isLineBlank) := by
    have hsplit : s.chars =
        [c] ++ (rest.takeWhile isLineBlank ++ rest.dropWhile isLineBlank) := by
      rw [List.takeWhile_append_dropWhile, h]
      rfl
    have hmove := moveTo_moveTo hsplit
    rwa [List.takeWhile_append_dropWhile] at hmove
  conv => lhs; unfold lexLineTokens
  conv => rhs; unfold lexLineTokens
  simp only [hempty, hempty', h, hmoved.2.1, hdrop, htwo, Bool.false_eq_true, if_false]

/-- A turn of the loop behind the white space. -/
theorem lexLineTokens_at (hs : s.stack ≠ []) {c : Char} {cs : List Char} (h : s.chars = c :: cs)
    (hc : isLineBlank c = false) (n : Nat) :
    lexLineTokens E (n + 1) sl out s =
      if c = '\\' && peekIs '\n' cs then
        lexLineTokens E n (s.moveTo cs.tail).line out (s.moveTo cs.tail)
      else if c = '\n' then some (out, s)
      else if c = '/' && peekIs '/' cs then some (out, s.moveTo (skipToEndOfLine (c :: cs)))
      else if c = '/' && peekIs '*' cs then
        lexLineTokens E n sl out (s.moveTo ((blockComment cs.tail).getD []))
      else if s.line ≠ sl then some (out, s)
      else (lexToken E n s).bind fun r => lexLineTokens E n sl (out ++ [r.1]) r.2 := by
  have hempty : s.stack.isEmpty = false := by simpa using hs
  have hstay : s.moveTo ((c :: cs).dropWhile isLineBlank) = s := by
    rw [List.dropWhile_cons, if_neg (by rw [hc]; exact Bool.false_ne_true), ← h, moveTo_self]
  conv => lhs; unfold lexLineTokens
  simp only [hempty, h, hstay, Bool.false_eq_true, if_false]
  cases lexToken E n s <;> rfl

theorem lexLineTokens_end (h : s.chars = [] ∨ ∃ cs, s.chars = '\n' :: cs) (n : Nat) :
    lexLineTokens E (n + 1) sl out s = some (out, s) := by
  rcases h with h | ⟨cs, h⟩
  · have hstay : s.moveTo ([].dropWhile isLineBlank) = s := by
      rw [List.dropWhile_nil, ← h, moveTo_self]
    unfold lexLineTokens
    simp only [h, hstay]
    split_ifs <;> rfl
  · have hs : s.stack ≠ [] := by
      intro hnil
      unfold Scanner.chars at h
      rw [hnil] at h
      exact absurd h (by simp)
    rw [lexLineTokens_at E hs h (by decide), if_neg (by simp), if_pos rfl]

/-- A line comment ends the line, and its splices are in it. -/
theorem lexLineTokens_comment_end (hs : s.stack ≠ []) {cs : List Char}
    (h : s.chars = '/' :: '/' :: cs) (n : Nat) :
    lexLineTokens E (n + 1) sl out s =
      some (out, s.moveTo (skipToEndOfLine ('/' :: '/' :: cs))) := by
  rw [lexLineTokens_at E hs h (by decide), if_neg (by simp), if_neg (by decide),
    if_pos (by simp)]

theorem lexLineTokens_splice (hs : s.stack ≠ []) (h : s.chars = '\\' :: '\n' :: rest) (n : Nat) :
    lexLineTokens E (n + 1) sl out s =
      lexLineTokens E n (s.moveTo rest).line out (s.moveTo rest) := by
  rw [lexLineTokens_at E hs h (by decide), if_pos (by simp)]
  rfl

/-- A block comment ends at its first asterisk and slash. -/
theorem blockComment_closed {body : List Char} (hbody : ¬ ['*', '/'] <:+: body) :
    blockComment (body ++ ('*' :: '/' :: rest)) = some rest := by
  induction body with
  | nil => rfl
  | cons c body ih =>
      rw [List.infix_cons_iff, not_or] at hbody
      have hopen : (c = '*' && peekIs '/' (body ++ ('*' :: '/' :: rest))) = false := by
        cases body with
        | nil => simp
        | cons d body =>
            rw [Bool.and_eq_false_iff, decide_eq_false_iff_not, List.cons_append, peekIs_cons,
              decide_eq_false_iff_not, ← not_and_or]
            rintro ⟨rfl, rfl⟩
            exact hbody.1 ⟨body, rfl⟩
      rw [List.cons_append, blockComment, hopen, if_neg Bool.false_ne_true]
      exact ih hbody.2

theorem lexLineTokens_comment (hs : s.stack ≠ []) {body : List Char}
    (hbody : ¬ ['*', '/'] <:+: body) (h : s.chars = '/' :: '*' :: (body ++ ('*' :: '/' :: rest)))
    (n : Nat) : lexLineTokens E (n + 1) sl out s = lexLineTokens E n sl out (s.moveTo rest) := by
  rw [lexLineTokens_at E hs h (by decide), if_neg (by simp), if_neg (by decide),
    if_neg (by simp), if_pos (by simp), List.tail_cons, blockComment_closed hbody,
    Option.getD_some]

/-- No token begins with a backslash. -/
theorem token_backslash (s : Scanner) (cs : List Char) : s.token E '\\' cs = none := by
  unfold token
  rfl

/-- A token that begins on the line on which the loop stays. -/
theorem lexLineTokens_token (hs : s.stack ≠ []) {c : Char} {cs : List Char} {t : Token}
    (hstarts : Starts c cs) (h : s.chars = c :: cs) (htoken : s.token E c cs = some (t, s.moveTo rest))
    (n : Nat) :
    lexLineTokens E (n + 2) s.line out s =
      lexLineTokens E (n + 1) s.line (out ++ [t]) (s.moveTo rest) := by
  have hback : c ≠ '\\' := by
    intro hc
    rw [hc, token_backslash] at htoken
    exact absurd htoken (by simp)
  have hblank := hstarts.blank
  unfold isBlank at hblank
  simp only [Bool.or_eq_false_iff, decide_eq_false_iff_not] at hblank
  have hline : isLineBlank c = false := by
    unfold isLineBlank
    simp [hblank]
  have hlex : lexToken E (n + 1) s = some (t, s.moveTo rest) := by
    unfold lexToken
    rw [h]
    simp only [htoken]
  rw [lexLineTokens_at E hs h hline, hstarts.line_comment, hstarts.block_comment,
    if_neg (by simp [hback]), if_neg (by simp [hblank]), if_neg Bool.false_ne_true,
    if_neg Bool.false_ne_true, if_neg (by simp), hlex, Option.bind_some]

theorem lexLineTokens_word (hs : s.stack ≠ []) {w : Word} (hw : w.Reads E rest)
    (h : s.chars = w.text ++ rest) (n : Nat) :
    lexLineTokens E (n + 2) s.line out s =
      lexLineTokens E (n + 1) s.line (out ++ [{ w.tok with loc := s.here }]) (s.moveTo rest) :=
  lexLineTokens_token E hs hw.starts h (hw.token s h) n

/-! ## A run of the loop -/

/-- A piece between two tokens: the loop goes past it, and stays on the line it is on. -/
theorem lexLineTokens_gap (hs : s.stack ≠ []) (g : Gap) (h : s.chars = g.text ++ rest) (n : Nat) :
    lexLineTokens E (n + 1 + g.turns) s.line out s =
      lexLineTokens E (n + 1) (s.moveTo rest).line out (s.moveTo rest) := by
  have hmoved := moveTo_append h hs
  cases g with
  | blank c hc =>
      have hline : (s.moveTo rest).line = s.line := by
        rw [hmoved.2.2.1]
        have hne : c ≠ '\n' := by
          rintro rfl
          exact absurd hc (by decide)
        simp [Gap.text, hne]
      rw [hline]
      exact lexLineTokens_blank E hs hc h n
  | comment body hbody hnl =>
      have hchars : s.chars = '/' :: '*' :: (body ++ ('*' :: '/' :: rest)) := by
        rw [h]
        unfold Gap.text
        simp
      have hline : (s.moveTo rest).line = s.line := by
        rw [hmoved.2.2.1]
        simp [Gap.text, List.count_eq_zero.mpr hnl]
      rw [hline]
      exact lexLineTokens_comment E hs hbody hchars (n + 1)
  | splice => exact lexLineTokens_splice E hs h (n + 1)

theorem gapsText_cons (g : Gap) (gs : List Gap) : gapsText (g :: gs) = g.text ++ gapsText gs := rfl

theorem lexLineTokens_gaps (hs : s.stack ≠ []) (gs : List Gap) (h : s.chars = gapsText gs ++ rest)
    (n : Nat) (out : List Token) :
    lexLineTokens E (n + 1 + gapTurns gs) s.line out s =
      lexLineTokens E (n + 1) (s.moveTo rest).line out (s.moveTo rest) := by
  induction gs generalizing s n with
  | nil =>
      have h : s.chars = rest := h
      rw [← h, moveTo_self]
      rfl
  | cons g gs ih =>
      rw [gapsText_cons, List.append_assoc] at h
      have hmoved := moveTo_append h hs
      have hturns : n + 1 + gapTurns (g :: gs) = n + gapTurns gs + 1 + g.turns := by
        unfold gapTurns
        rw [List.map_cons, List.sum_cons]
        omega
      have hrest := ih hmoved.1 hmoved.2.1 n
      rw [moveTo_moveTo h] at hrest
      rw [hturns, lexLineTokens_gap E hs g h, ← hrest]
      congr 1
      omega

/-- The tokens of a line: each is taken, with the column in which it begins. -/
theorem lexLineTokens_words (hs : s.stack ≠ []) (ws : Words) (hws : ws.Read E rest)
    (h : s.chars = ws.text ++ rest) (n : Nat) (out : List Token) :
    ∃ toks, toks.map (fun t => (t.shape, t.loc.col)) = ws.placed s.here.col ∧
      lexLineTokens E (n + 1 + ws.turns) s.line out s =
        lexLineTokens E (n + 1) (s.moveTo rest).line (out ++ toks) (s.moveTo rest) := by
  induction ws generalizing s out n with
  | nil =>
      have h : s.chars = rest := h
      refine ⟨[], rfl, ?_⟩
      rw [← h, moveTo_self, List.append_nil]
      rfl
  | cons p ws ih =>
      rcases p with ⟨gs, w⟩
      unfold Words.text at h
      rw [List.append_assoc, List.append_assoc] at h
      -- the pieces before the token, the token, and the other tokens
      have hgap := moveTo_append h hs
      have hlast : ((s.moveTo (w.text ++ (Words.text ws ++ rest))).moveTo
          (Words.text ws ++ rest)).moveTo rest = s.moveTo rest := by
        rw [moveTo_moveTo h]
        apply moveTo_moveTo (a := gapsText gs ++ w.text)
        rw [h, List.append_assoc]
      have hfirst := fun m => lexLineTokens_gaps E hs gs h m out
      generalize s.moveTo (w.text ++ (Words.text ws ++ rest)) = s₁ at hgap hlast hfirst
      have hword := moveTo_append hgap.2.1 hgap.1
      have hline : (s₁.moveTo (Words.text ws ++ rest)).line = s₁.line := by
        rw [hword.2.2.1, List.count_eq_zero.mpr hws.1.line]
        rfl
      rcases ih hword.1 hws.2 hword.2.1 n (out ++ [{ w.tok with loc := s₁.here }]) with
        ⟨toks, hplaced, hrun⟩
      refine ⟨{ w.tok with loc := s₁.here } :: toks, ?_, ?_⟩
      · rw [List.map_cons, hplaced, hword.2.2.2, hgap.2.2.2]
        rfl
      · have hturns : n + 1 + Words.turns ((gs, w) :: ws) =
            n + Words.turns ws + 1 + 1 + gapTurns gs := by
          rw [Words.turns]
          omega
        rw [hturns, hfirst, lexLineTokens_word E hgap.1 hws.1 hgap.2.1, ← hline]
        rw [hlast, List.append_assoc, List.singleton_append] at hrun
        rw [← hrun]
        congr 1
        omega

/-! ## The end of a line -/

/-- The tokens of a line end with the buffer, before a newline or before a line comment. -/
def LineEnds (after : List Char) : Prop :=
  after = [] ∨ (∃ cs, after = '\n' :: cs) ∨ ∃ cs, after = '/' :: '/' :: cs

/-- What is left behind the line. -/
def lineRest (after : List Char) : List Char :=
  if peekIs '/' after && peekIs '/' after.tail then skipToEndOfLine after else after

theorem lineRest_suffix (after : List Char) : lineRest after <:+ after := by
  unfold lineRest
  split_ifs
  · exact skipToEndOfLine_suffix _
  · exact List.suffix_refl _

/-- The line ends with the buffer or before a newline. -/
theorem lineRest_line {after : List Char} (h : LineEnds after) :
    lineRest after = [] ∨ ∃ cs, lineRest after = '\n' :: cs := by
  have hskip : ∀ cs, skipToEndOfLine cs = [] ∨ ∃ ds, skipToEndOfLine cs = '\n' :: ds := by
    intro cs
    fun_induction skipToEndOfLine cs with
    | case1 | case3 => exact Or.inl rfl
    | case2 _ _ _ _ ih => exact ih
    | case4 cs _ => exact Or.inr ⟨cs, rfl⟩
    | case5 _ _ _ _ ih => exact ih
  unfold lineRest
  split_ifs with hc
  · exact hskip _
  · rcases h with h | h | ⟨cs, h⟩
    · exact Or.inl h
    · exact Or.inr h
    · rw [h] at hc
      exact absurd rfl hc

/-- The end of the line, behind the blanks. -/
theorem lexLineTokens_after {after : List Char} (h : LineEnds after) (hs : s.stack ≠ [])
    (hchars : s.chars = after) (n : Nat) :
    lexLineTokens E (n + 1) sl out s = some (out, s.moveTo (lineRest after)) := by
  have hends : after = [] ∨ (∃ cs, after = '\n' :: cs) →
      lexLineTokens E (n + 1) sl out s = some (out, s.moveTo (lineRest after)) := by
    intro hafter
    have hplain : lineRest after = after := by
      unfold lineRest
      rcases hafter with ha | ⟨cs, ha⟩ <;> simp [ha]
    rw [hplain, ← hchars, moveTo_self]
    rw [← hchars] at hafter
    exact lexLineTokens_end E hafter n
  rcases h with ha | ha | ⟨cs, ha⟩
  · exact hends (Or.inl ha)
  · exact hends (Or.inr ha)
  · have hrest : lineRest after = skipToEndOfLine ('/' :: '/' :: cs) := by
      unfold lineRest
      rw [ha]
      rfl
    rw [hrest]
    exact lexLineTokens_comment_end E hs (hchars.trans ha) n

/-- A whole line: its tokens, and the pieces behind them. -/
theorem lexLineTokens_line (hs : s.stack ≠ []) {ws : Words} {trail : List Gap}
    {after : List Char} (hws : ws.Read E (gapsText trail ++ after)) (hends : LineEnds after)
    (hchars : s.chars = ws.text ++ (gapsText trail ++ after)) (n : Nat) :
    ∃ toks, toks.map (fun t => (t.shape, t.loc.col)) = ws.placed s.here.col ∧
      lexLineTokens E (n + 1 + (gapTurns trail + ws.turns)) s.line [] s =
        some (toks, s.moveTo (lineRest after)) := by
  rcases lexLineTokens_words E hs ws hws hchars (n + gapTurns trail) [] with ⟨toks, hplaced, hrun⟩
  have hmoved := moveTo_append hchars hs
  have htrail := moveTo_append hmoved.2.1 hmoved.1
  have hgaps := lexLineTokens_gaps E hmoved.1 trail hmoved.2.1 n toks
  -- the three moves are one
  have hsuffix : after <:+ s.chars := by
    rw [hchars]
    exact (List.suffix_append _ _).trans (List.suffix_append _ _)
  have hone : ((s.moveTo (gapsText trail ++ after)).moveTo after).moveTo (lineRest after) =
      s.moveTo (lineRest after) := by
    rw [moveTo_moveTo hchars, moveTo_of_suffix (lineRest_suffix after) hsuffix]
  refine ⟨toks, hplaced, ?_⟩
  have hturns : n + 1 + (gapTurns trail + Words.turns ws) =
      n + gapTurns trail + 1 + Words.turns ws := by omega
  have hturns' : n + gapTurns trail + 1 = n + 1 + gapTurns trail := by omega
  rw [hturns, hrun, hturns', List.nil_append, hgaps,
    lexLineTokens_after E hends htrail.1 htrail.2.1, hone]

end Turns

end Hlang.Lexer
