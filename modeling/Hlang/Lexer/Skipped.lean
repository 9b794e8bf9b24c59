import Hlang.Lexer.DirectiveLine

/-!
# Hlang.Lexer.Skipped — the regions that conditionals skip

In a region that is not active the lexer is to look for directives only, outside
comments and literals, until the `#else` or the `#endif` that ends it. The code
shares the work between `rawNext`, `skipCondBlockLine` and `handleDirective`. It
looks for comments and directives but not for literals: `skipCondBlockLine` gives
`lexCharsInto` a quotation mark that it has not consumed, which ends the literal
at once. The lines of nested conditionals are lexed as if they were active.
-/

namespace Hlang.Lexer

/-! ## What `rawNext` returns -/

namespace Scanner

variable (E : ScanEnv)

/-- With a larger bound the functions of the lexer return what they returned before. -/
theorem scan_mono (n : Nat) :
    (∀ s r, rawNext E n s = some r → rawNext E (n + 1) s = some r) ∧
    (∀ s r, lexToken E n s = some r → lexToken E (n + 1) s = some r) ∧
    (∀ sl out s r, lexLineTokens E n sl out s = some r →
      lexLineTokens E (n + 1) sl out s = some r) ∧
    (∀ s r, handleDirective E n s = some r → handleDirective E (n + 1) s = some r) := by
  induction n with
  | zero =>
      refine ⟨?_, ?_, ?_, ?_⟩
      · intro s r h
        exact absurd h (by simp [rawNext])
      · intro s r h
        exact absurd h (by simp [lexToken])
      · intro sl out s r h
        exact absurd h (by simp [lexLineTokens])
      · intro s r h
        exact absurd h (by simp [handleDirective])
  | succ n ih =>
      rcases ih with ⟨hraw, hlex, hline, hdir⟩
      refine ⟨?_, ?_, ?_, ?_⟩
      · intro s r h
        unfold rawNext at h ⊢
        cases hs : s.stack with
        | nil =>
            rw [hs] at h
            exact h
        | cons src below =>
            rw [hs] at h
            cases hb : src.buf with
            | nil =>
                simp only [hb] at h ⊢
                exact hraw _ _ h
            | cons c cs =>
                simp only [hb] at h ⊢
                split_ifs at h ⊢
                · exact hraw _ _ h
                · exact hraw _ _ h
                · cases hc : blockComment cs.tail with
                  | none => simp only [hc] at h ⊢; exact hraw _ _ h
                  | some rest => simp only [hc] at h ⊢; exact hraw _ _ h
                · cases hd : handleDirective E n (s.moveTo cs) with
                  | none => rw [hd] at h; exact absurd h (by simp)
                  | some t =>
                      rw [hd] at h
                      rw [hdir _ _ hd]
                      exact hraw _ _ h
                · exact hraw _ _ h
                · exact hlex _ _ h
      · intro s r h
        unfold lexToken at h ⊢
        cases hs : s.chars with
        | nil =>
            simp only [hs] at h ⊢
            exact hraw _ _ h
        | cons c cs =>
            simp only [hs] at h ⊢
            cases ht : s.token E c cs with
            | some t => simp only [ht] at h ⊢; exact h
            | none => simp only [ht] at h ⊢; exact hraw _ _ h
      · intro sl out s r h
        unfold lexLineTokens at h ⊢
        simp only at h ⊢
        by_cases hempty : s.stack.isEmpty = true
        · rw [if_pos hempty] at h ⊢
          exact h
        · rw [if_neg hempty] at h ⊢
          generalize s.moveTo (s.chars.dropWhile isLineBlank) = s₁ at h ⊢
          cases hs : s₁.chars with
          | nil =>
              simp only [hs] at h ⊢
              exact h
          | cons c cs =>
              simp only [hs] at h ⊢
              split_ifs at h ⊢
              · exact hline _ _ _ _ h
              · exact h
              · exact h
              · exact hline _ _ _ _ h
              · exact h
              · cases ht : lexToken E n s₁ with
                | none => rw [ht] at h; exact absurd h (by simp)
                | some t =>
                    rw [ht] at h
                    rw [hlex _ _ ht]
                    exact hline _ _ _ _ h
      · intro s r h
        unfold handleDirective at h ⊢
        simp only at h ⊢
        split_ifs at h ⊢
        · generalize s.moveTo _ = s₁ at h ⊢
          cases ht : lexLineTokens E n s₁.line [] s₁ with
          | none => rw [ht] at h; exact absurd h (by simp)
          | some t =>
              rw [ht] at h
              rw [hline _ _ _ _ ht]
              exact h
        · exact h
        · exact h

theorem rawNext_le {m n : Nat} (hmn : m ≤ n) {s : Scanner} {r : Token × Scanner}
    (h : rawNext E m s = some r) : rawNext E n s = some r := by
  induction hmn with
  | refl => exact h
  | step _ ih => exact (scan_mono E _).1 s r ih

theorem lexLineTokens_le {m n : Nat} (hmn : m ≤ n) {sl : Nat} {out : List Token} {s : Scanner}
    {r : List Token × Scanner} (h : lexLineTokens E m sl out s = some r) :
    lexLineTokens E n sl out s = some r := by
  induction hmn with
  | refl => exact h
  | step _ ih => exact (scan_mono E _).2.2.1 sl out s r ih

/-- `rawNext` returns `r`. -/
def Returns (s : Scanner) (r : Token × Scanner) : Prop := ∃ n, rawNext E n s = some r

variable {E}

theorem Returns.unique {s : Scanner} {r r' : Token × Scanner} (h : Returns E s r)
    (h' : Returns E s r') : r = r' := by
  rcases h with ⟨m, hm⟩
  rcases h' with ⟨n, hn⟩
  have hmax := rawNext_le E (Nat.le_max_left m n) hm
  rw [rawNext_le E (Nat.le_max_right m n) hn] at hmax
  exact (Option.some.inj hmax).symm

/-- From `s` and from `s'` the lexer goes on in the same way: the same token, the same errors and
the same state. -/
def Passes (E : ScanEnv) (s s' : Scanner) : Prop := ∀ r, Returns E s r ↔ Returns E s' r

theorem Passes.refl (s : Scanner) : Passes E s s := fun _ => Iff.rfl

theorem Passes.trans {s s' s'' : Scanner} (h : Passes E s s') (h' : Passes E s' s'') :
    Passes E s s'' := fun r => (h r).trans (h' r)

theorem Passes.of_step {s s' : Scanner} (k : Nat)
    (h : ∀ n, rawNext E (n + k + 1) s = rawNext E (n + k) s') : Passes E s s' := by
  intro r
  constructor
  · rintro ⟨n, hn⟩
    refine ⟨n + k, ?_⟩
    rw [← h]
    exact rawNext_le E (Nat.le_add_right n (k + 1)) hn
  · rintro ⟨n, hn⟩
    refine ⟨n + k + 1, ?_⟩
    rw [h]
    exact rawNext_le E (Nat.le_add_right n k) hn

end Scanner

/-! ## The pieces of a region -/

/-- What a skipped region is made of. -/
inductive Piece where
  /-- a character that begins no comment, no directive and no literal -/
  | char (c : Char)
  /-- a line comment, without its newline -/
  | line (body : List Char)
  | block (body : List Char)
  /-- a literal that ends on its line -/
  | literal (q : Char) (body : List Char)
  /-- a directive and what is left of its line -/
  | directive (name args : List Char)

def Piece.text : Piece → List Char
  | char c => [c]
  | line body => '/' :: '/' :: body
  | block body => '/' :: '*' :: (body ++ ['*', '/'])
  | literal q body => q :: (body ++ [q])
  | directive name args => '#' :: (name ++ args)

def piecesText (ps : List Piece) : List Char := ps.flatMap Piece.text

/-- What follows the literal behind the quotation mark `q`, if it ends on its line. -/
def literalEnd (q : Char) (cs : List Char) : Option (List Char) :=
  let L := lexCharsInto q cs
  if "unterminated literal" ∈ L.errs ∨ '\n' ∈ cs.take (cs.length - L.rest.length) then none
  else some L.rest

theorem literalEnd_suffix {q : Char} {cs rest : List Char} (h : literalEnd q cs = some rest) :
    rest <:+ cs := by
  unfold literalEnd at h
  simp only at h
  split_ifs at h
  rw [← Option.some.inj h]
  exact lexCharsInto_suffix q cs

/-- The end of the logical line: comments and literals go with it, and so does the next line
behind a splice. -/
def logicalEnd : List Char → List Char
  | [] => []
  | c :: cs =>
      if c = '\n' then c :: cs
      else if c = '\\' && peekIs '\n' cs then logicalEnd cs.tail
      else if c = '/' && peekIs '/' cs then skipToEndOfLine (c :: cs)
      else if c = '/' && peekIs '*' cs then logicalEnd ((blockComment cs.tail).getD [])
      else if c = '"' || c = '\'' then
        match _h : literalEnd c cs with
        | some rest => logicalEnd rest
        | none => logicalEnd cs
      else logicalEnd cs
termination_by cs => cs.length
decreasing_by
  · simp only [List.length_tail, List.length_cons]
    omega
  · cases hb : blockComment cs.tail with
    | none => simp
    | some rest =>
        have h := ((blockComment_suffix hb).trans (List.tail_suffix cs)).length_le
        simp only [Option.getD_some, List.length_cons]
        omega
  · have h := (literalEnd_suffix _h).length_le
    simp only [List.length_cons]
    omega
  · simp
  · simp

/-- The text `c :: cs` begins with a token, before `rest`, about which nothing is reported. -/
def ReadsToken (E : ScanEnv) (c : Char) (cs rest : List Char) : Prop :=
  Starts c cs ∧ ∀ s : Scanner, s.chars = c :: cs → ∃ t, s.token E c cs = some (t, s.moveTo rest)

/-- From here, the line of a conditional directive is read without a report up to `rest`. It ends
with its first newline or line comment; behind a comment or a literal that goes over lines
(`moved`) it also ends before the next token. -/
inductive LineRead (E : ScanEnv) : Bool → List Char → List Char → Prop
  | ends (moved : Bool) {after : List Char} (h : LineEnds after) :
      LineRead E moved after (lineRest after)
  | stop {c : Char} {cs : List Char} (hblank : isLineBlank c = false)
      (hsplice : (c = '\\' && peekIs '\n' cs) = false) (hline : (c = '/' && peekIs '/' cs) = false)
      (hblock : (c = '/' && peekIs '*' cs) = false) : LineRead E true (c :: cs) (c :: cs)
  | blank {moved : Bool} {c : Char} {cs rest : List Char} (hc : isLineBlank c = true)
      (h : LineRead E moved cs rest) : LineRead E moved (c :: cs) rest
  | comment {moved : Bool} {body cs rest : List Char} (hbody : ¬ ['*', '/'] <:+: body)
      (h : LineRead E (moved || body.contains '\n') cs rest) :
      LineRead E moved ('/' :: '*' :: (body ++ ('*' :: '/' :: cs))) rest
  | splice {moved : Bool} {cs rest : List Char} (h : LineRead E false cs rest) :
      LineRead E moved ('\\' :: '\n' :: cs) rest
  | token {c : Char} {more cs rest : List Char} (hc : ReadsToken E c (more ++ cs) cs)
      (h : LineRead E ((c :: more).contains '\n') cs rest) :
      LineRead E false (c :: (more ++ cs)) rest

/-- The characters of the name of a directive. -/
def isWordChar (c : Char) : Bool := c.isAlphanum || c = '_'

/-- The piece stands before `rest`. With `lits` literals are told from other characters and a
directive owns its logical line; without, there are no literals and a directive owns what the
lexer reads for it. -/
def Piece.Fits (E : ScanEnv) (lits : Bool) (p : Piece) (rest : List Char) : Prop :=
  match p with
  | char c => c ≠ '#' ∧ (c = '/' → peekIs '/' rest = false ∧ peekIs '*' rest = false) ∧
      (lits = true → c = '"' ∨ c = '\'' → literalEnd c rest = none)
  | line body => '\n' ∉ body ∧ (rest = [] ∨ ∃ cs, rest = '\n' :: cs)
  | block body => ¬ ['*', '/'] <:+: body
  | literal q body => lits = true ∧ (q = '"' ∨ q = '\'') ∧
      literalEnd q (body ++ q :: rest) = some rest
  | directive name args => (∀ c ∈ name, isWordChar c = true) ∧
      (∀ c ∈ (args ++ rest).head?, isWordChar c = false) ∧
      if lits then logicalEnd (args ++ rest) = rest
      else if Scanner.isCondDirective (String.ofList name) then LineRead E false (args ++ rest) rest
      else skipToEndOfLine (args ++ rest) = rest

/-- Every piece stands before the next ones and `rest`. -/
def Fit (E : ScanEnv) (lits : Bool) : List Piece → List Char → Prop
  | [], _ => True
  | p :: ps, rest => p.Fits E lits (piecesText ps ++ rest) ∧ Fit E lits ps rest

/-- The nested conditionals that are open, the innermost first: whether their `#else` has been
seen. `none`: the directive is one of the region, or a second `#else`. -/
def nest (name : String) (fs : List Bool) : Option (List Bool) :=
  if name = "else" then
    match fs with
    | false :: fs => some (true :: fs)
    | _ => none
  else if name = "endif" then
    match fs with
    | _ :: fs => some fs
    | [] => none
  else if Scanner.isCondDirective name then some (false :: fs)
  else some fs

/-- The nested conditionals after some pieces. -/
def nestAll : List Piece → List Bool → Option (List Bool)
  | [], fs => some fs
  | .directive name _ :: ps, fs => (nest (String.ofList name) fs).bind (nestAll ps)
  | _ :: ps, fs => nestAll ps fs

/-- The pieces `ps` are a skipped region: what follows is its `#else` or `#endif`, or the end of
the buffer. -/
structure SkippedRegion (E : ScanEnv) (lits : Bool) (ps : List Piece) (rest : List Char) :
    Prop where
  fit : Fit E lits ps rest
  nested : nestAll ps [] = some []
  ends : rest = [] ∨ ∃ name cs, rest = '#' :: (name ++ cs) ∧
    (name = "else".toList ∨ name = "endif".toList) ∧ ∀ c ∈ cs.head?, isWordChar c = false

/-! ## Lines of a region -/

theorem piecesText_cons (p : Piece) (ps : List Piece) :
    piecesText (p :: ps) = p.text ++ piecesText ps := rfl

/-- The place where a region stops is one where the lexer looks for a directive. -/
theorem skipCondBlockLine_end {rest : List Char} (h : rest = [] ∨ ∃ cs, rest = '#' :: cs) :
    skipCondBlockLine rest = rest := by
  rcases h with rfl | ⟨cs, rfl⟩
  · rw [skipCondBlockLine.eq_def]
  · rw [skipCondBlockLine.eq_def]
    simp

theorem lineComment_end {body r : List Char} (hbody : '\n' ∉ body)
    (hr : r = [] ∨ ∃ cs, r = '\n' :: cs) : lineComment (body ++ r) = r := by
  have hline : ∀ c ∈ body, decide (c ≠ '\n') = true := by
    intro c hc
    rw [decide_eq_true_eq]
    rintro rfl
    exact hbody hc
  have hnext : ∀ c ∈ r.head?, decide (c ≠ '\n') = false := by
    rcases hr with rfl | ⟨cs, rfl⟩
    · simp
    · simp
  exact (takeWhile_of_ends hline hnext).2

theorem skipCondBlockLine_suffix (cs : List Char) : skipCondBlockLine cs <:+ cs := by
  fun_induction skipCondBlockLine cs with
  | case1 => exact List.suffix_refl _
  | case2 => exact List.suffix_refl _
  | case3 c cs _ _ ih =>
      have hline : lineComment cs <:+ cs := List.dropWhile_suffix _
      exact (ih.trans hline).trans (List.suffix_cons c cs)
  | case4 c cs _ _ _ ih =>
      have hblock : (blockComment cs.tail).getD [] <:+ cs := by
        cases hb : blockComment cs.tail with
        | none => exact List.nil_suffix
        | some rest => exact (blockComment_suffix hb).trans (List.tail_suffix cs)
      exact (ih.trans hblock).trans (List.suffix_cons c cs)
  | case5 c cs _ _ _ _ ih =>
      rw [lexCharsInto_quote] at ih ⊢
      exact ih.trans (List.suffix_cons c cs)
  | case6 cs => exact List.suffix_cons _ cs
  | case7 c cs _ _ _ _ _ ih => exact ih.trans (List.suffix_cons c cs)

/-- A line of a skipped region ends behind a piece, and no directive is lost. -/
theorem skipCondBlockLine_pieces {E : ScanEnv} {rest : List Char}
    (hrest : rest = [] ∨ ∃ cs, rest = '#' :: cs) {ps : List Piece} (hfit : Fit E false ps rest) :
    ∃ qs, skipCondBlockLine (piecesText ps ++ rest) = piecesText qs ++ rest ∧
      qs.length ≤ ps.length ∧ (∀ c, ps.head? = some (.char c) → qs.length < ps.length) ∧
      Fit E false qs rest ∧ nestAll ps = nestAll qs := by
  induction ps with
  | nil =>
      refine ⟨[], skipCondBlockLine_end hrest, Nat.le_refl _, ?_, trivial, rfl⟩
      exact fun _ h => nomatch h
  | cons p ps ih =>
      rcases hfit with ⟨hp, hps⟩
      rcases ih hps with ⟨qs, htext, hlen, -, hqs, hnest⟩
      have hlt : qs.length < (p :: ps).length := Nat.lt_succ_of_le hlen
      have hlen := hlt.le
      rw [piecesText_cons, List.append_assoc]
      cases p with
      | char c =>
          rcases hp with ⟨hhash, hslash, -⟩
          have hline : (c = '/' && peekIs '/' (piecesText ps ++ rest)) = false := by
            rw [Bool.and_eq_false_imp, decide_eq_true_eq]
            exact fun hc => (hslash hc).1
          have hblock : (c = '/' && peekIs '*' (piecesText ps ++ rest)) = false := by
            rw [Bool.and_eq_false_imp, decide_eq_true_eq]
            exact fun hc => (hslash hc).2
          unfold Piece.text
          rw [List.singleton_append, skipCondBlockLine.eq_def]
          simp only [if_neg hhash, hline, hblock, Bool.false_eq_true, if_false]
          split_ifs with hquote hnl
          · refine ⟨qs, ?_, hlen, fun _ _ => hlt, hqs, hnest⟩
            rw [lexCharsInto_quote]
            exact htext
          · exact ⟨ps, rfl, Nat.le_succ _, fun _ _ => Nat.lt_succ_self _, hps, rfl⟩
          · exact ⟨qs, htext, hlen, fun _ _ => hlt, hqs, hnest⟩
      | line body =>
          refine ⟨qs, ?_, hlen, fun _ _ => hlt, hqs, hnest⟩
          have hslash : '\n' ∉ '/' :: body := by simpa using hp.1
          have hend := lineComment_end hslash hp.2
          rw [List.cons_append] at hend
          unfold Piece.text
          rw [skipCondBlockLine.eq_def, ← htext]
          simp [hend]
      | block body =>
          refine ⟨qs, ?_, hlen, fun _ _ => hlt, hqs, hnest⟩
          have hend : blockComment (body ++ ('*' :: '/' :: (piecesText ps ++ rest))) =
              some (piecesText ps ++ rest) := blockComment_closed hp
          unfold Piece.text
          rw [skipCondBlockLine.eq_def, ← htext]
          simp [hend]
      | literal q body => exact absurd hp.1 Bool.false_ne_true
      | directive name args =>
          refine ⟨.directive name args :: ps, ?_, Nat.le_refl _, ?_, ⟨hp, hps⟩, rfl⟩
          · rw [piecesText_cons, List.append_assoc]
            exact skipCondBlockLine_end (Or.inr ⟨_, rfl⟩)
          · intro c h
            exact absurd (Option.some.inj h) Piece.noConfusion

/-! ## One piece of a region -/

namespace Scanner

variable {E : ScanEnv} {t : Scanner} {c : Char} {cs rest : List Char}

theorem rawNext_at (hs : t.stack ≠ []) (h : t.chars = c :: cs) (n : Nat) :
    rawNext E (n + 1) t =
      if isBlank c then rawNext E n (t.moveTo cs)
      else if c = '/' && peekIs '/' cs then rawNext E n (t.moveTo (lineComment cs))
      else if c = '/' && peekIs '*' cs then
        match blockComment cs.tail with
        | some rest => rawNext E n (t.moveTo rest)
        | none => rawNext E n ((t.moveTo []).error t.here "unterminated /* comment")
      else if c = '#' then
        match handleDirective E n (t.moveTo cs) with
        | some t => rawNext E n t
        | none => none
      else if t.dirs.skippingConds then rawNext E n (t.moveTo (skipCondBlockLine (c :: cs)))
      else lexToken E n t := by
  rcases t with ⟨stack, dirs⟩
  cases stack with
  | nil => exact absurd rfl hs
  | cons src below =>
      have hbuf : src.buf = c :: cs := h
      rw [rawNext]
      simp only [hbuf]
      try rfl

theorem passes_blank (hs : t.stack ≠ []) (h : t.chars = c :: cs) (hc : isBlank c = true) :
    Passes E t (t.moveTo cs) := by
  apply Passes.of_step 0
  intro n
  rw [rawNext_at hs h, if_pos hc]
  rfl

theorem passes_line {body : List Char} (hs : t.stack ≠ [])
    (h : t.chars = '/' :: '/' :: (body ++ rest)) (hbody : '\n' ∉ body)
    (hrest : rest = [] ∨ ∃ cs, rest = '\n' :: cs) : Passes E t (t.moveTo rest) := by
  apply Passes.of_step 0
  intro n
  have hslash : '\n' ∉ '/' :: body := by simpa using hbody
  have hend := lineComment_end hslash hrest
  rw [List.cons_append] at hend
  rw [rawNext_at hs h, if_neg (by decide), if_pos (by simp), hend]
  rfl

theorem passes_block {body : List Char} (hs : t.stack ≠ [])
    (h : t.chars = '/' :: '*' :: (body ++ ('*' :: '/' :: rest)))
    (hbody : ¬ ['*', '/'] <:+: body) : Passes E t (t.moveTo rest) := by
  apply Passes.of_step 0
  intro n
  rw [rawNext_at hs h, if_neg (by decide), if_neg (by simp), if_pos (by simp), List.tail_cons,
    blockComment_closed hbody]
  rfl

/-- Other characters are skipped up to the next directive, or to the end of the line. -/
theorem passes_skip (hs : t.stack ≠ []) (h : t.chars = c :: cs)
    (hskip : t.dirs.skippingConds = true) (hblank : isBlank c = false) (hhash : c ≠ '#')
    (hslash : c = '/' → peekIs '/' cs = false ∧ peekIs '*' cs = false) :
    Passes E t (t.moveTo (skipCondBlockLine (c :: cs))) := by
  apply Passes.of_step 0
  intro n
  have hline : (c = '/' && peekIs '/' cs) = false := by
    rw [Bool.and_eq_false_imp, decide_eq_true_eq]
    exact fun hc => (hslash hc).1
  have hblock : (c = '/' && peekIs '*' cs) = false := by
    rw [Bool.and_eq_false_imp, decide_eq_true_eq]
    exact fun hc => (hslash hc).2
  rw [rawNext_at hs h, hblank, hline, hblock, hskip, if_neg Bool.false_ne_true,
    if_neg Bool.false_ne_true, if_neg Bool.false_ne_true, if_neg hhash, if_pos rfl]
  rfl

theorem passes_directive (hs : t.stack ≠ []) (h : t.chars = '#' :: cs) {u : Scanner} (k : Nat)
    (hdir : ∀ n, handleDirective E (n + k) (t.moveTo cs) = some u) : Passes E t u := by
  apply Passes.of_step k
  intro n
  rw [rawNext_at hs h, if_neg (by decide), if_neg (by simp), if_neg (by simp), if_pos rfl, hdir]

/-- In a skipped region the directives of conditionals move the stack, and nothing else. -/
theorem lineDirective_skipped {inner outer : List Cond} {name : String} {fs : List Bool}
    (hname : isCondDirective name = true) (hconds : t.dirs.conds = inner ++ outer)
    (hnest : nest name (inner.map (·.elseSeen)) = some fs) (loc : SrcLoc) (toks : List Token) :
    ∃ inner' : List Cond, inner'.map (·.elseSeen) = fs ∧
      t.lineDirective E true loc name toks =
        { t with dirs := { t.dirs with conds := inner' ++ outer } } := by
  have hpush : ∀ c : Cond, c.elseSeen = false → some (false :: inner.map (·.elseSeen)) = some fs →
      ∃ inner' : List Cond, inner'.map (·.elseSeen) = fs ∧
        { t with dirs := t.dirs.pushCond c } =
          { t with dirs := { t.dirs with conds := inner' ++ outer } } := by
    intro c hc hfs
    refine ⟨c :: inner, ?_, ?_⟩
    · rw [List.map_cons, hc]
      exact Option.some.inj hfs
    · unfold DirState.pushCond
      rw [hconds]
      rfl
  unfold nest at hnest
  rw [hname] at hnest
  unfold lineDirective
  unfold isCondDirective at hname
  simp only [List.mem_cons, List.not_mem_nil, or_false, decide_eq_true_eq] at hname
  rcases hname with rfl | rfl | rfl | rfl | rfl | rfl | rfl
  · simp only [String.reduceEq, if_false, if_true] at hnest
    unfold pushIfdef
    cases hone : singleIdent toks <;> exact hpush _ rfl hnest
  · simp only [String.reduceEq, if_false, if_true] at hnest
    unfold pushIfdef
    cases hone : singleIdent toks <;> exact hpush _ rfl hnest
  · simp only [String.reduceEq, if_false, if_true] at hnest
    exact hpush _ rfl hnest
  · simp only [String.reduceEq, if_false, if_true] at hnest
    exact hpush _ rfl hnest
  · simp only [String.reduceEq, if_false, if_true] at hnest
    exact hpush _ rfl hnest
  · simp only [String.reduceEq, if_false, if_true] at hnest ⊢
    unfold handleElse
    rw [hconds]
    cases inner with
    | nil => exact absurd hnest (by simp)
    | cons c inner =>
        rw [List.map_cons] at hnest
        cases hseen : c.elseSeen with
        | true => rw [hseen] at hnest; exact absurd hnest (by simp)
        | false =>
            rw [hseen] at hnest
            refine ⟨⟨(inner ++ outer).all (·.active) && !c.taken, true, true⟩ :: inner, ?_, ?_⟩
            · exact Option.some.inj hnest
            · simp only [List.cons_append, hseen, Bool.false_eq_true, if_false]
              rfl
  · simp only [String.reduceEq, if_false, if_true] at hnest ⊢
    unfold handleEndif
    rw [hconds]
    cases inner with
    | nil => exact absurd hnest (by simp)
    | cons c inner => exact ⟨inner, Option.some.inj hnest, rfl⟩

end Scanner

/-! ## The line of a nested conditional -/

section Line

open Scanner

variable {E : ScanEnv}

/-- The line on which `lexLineTokens` stays, and the one on which it is. -/
def OnLine (moved : Bool) (sl line : Nat) : Prop := if moved then sl < line else line = sl

theorem OnLine.stays (sl : Nat) : OnLine false sl sl := by
  unfold OnLine
  rw [if_neg Bool.false_ne_true]

theorem OnLine.add {moved : Bool} {sl line : Nat} (h : OnLine moved sl line) (text : List Char) :
    OnLine (moved || text.contains '\n') sl (line + text.count '\n') := by
  unfold OnLine at h ⊢
  have hcount : text.contains '\n' = true ↔ 0 < text.count '\n' := by
    rw [List.contains_iff_mem, List.count_pos_iff]
  cases moved with
  | true =>
      rw [Bool.true_or, if_pos rfl]
      rw [if_pos rfl] at h
      omega
  | false =>
      rw [if_neg Bool.false_ne_true] at h
      rw [Bool.false_or]
      split_ifs with hc
      · have hpos := hcount.mp hc
        omega
      · have hzero : ¬ 0 < text.count '\n' := fun hpos => hc (hcount.mpr hpos)
        omega

theorem LineRead.suffix {moved : Bool} {cs rest : List Char} (h : LineRead E moved cs rest) :
    rest <:+ cs := by
  induction h with
  | ends _ _ => exact lineRest_suffix _
  | stop _ _ _ _ => exact List.suffix_refl _
  | blank _ _ ih => exact ih.trans (List.suffix_cons _ _)
  | @comment _ body cs _ _ _ ih =>
      have htext : '/' :: '*' :: (body ++ ('*' :: '/' :: cs)) =
          ('/' :: '*' :: (body ++ ['*', '/'])) ++ cs := by simp
      rw [htext]
      exact ih.trans (List.suffix_append _ _)
  | splice _ ih => exact suffix_cons₂ ih
  | @token c more cs _ _ _ ih => exact ih.trans (List.suffix_append (c :: more) cs)

theorem lexLineTokens_read {moved : Bool} {cs rest : List Char} (h : LineRead E moved cs rest) :
    ∃ k, ∀ (s : Scanner) (sl : Nat) (out : List Token), s.stack ≠ [] → s.chars = cs →
      OnLine moved sl s.line →
      ∃ toks, lexLineTokens E (k + 1) sl out s = some (toks, s.moveTo rest) := by
  induction h with
  | ends moved hends =>
      refine ⟨0, ?_⟩
      intro s sl out hs hchars _
      exact ⟨out, lexLineTokens_after E hends hs hchars 0⟩
  | @stop c cs hblank hsplice hline hblock =>
      refine ⟨0, ?_⟩
      intro s sl out hs hchars hon
      have hmoved : s.line ≠ sl := by
        unfold OnLine at hon
        rw [if_pos rfl] at hon
        omega
      refine ⟨out, ?_⟩
      rw [lexLineTokens_at E hs hchars hblank, hsplice, hline, hblock, if_neg Bool.false_ne_true,
        if_neg Bool.false_ne_true, if_neg Bool.false_ne_true, if_pos hmoved, ← hchars, moveTo_self,
        ite_self]
  | @blank moved c cs rest hc h ih =>
      rcases ih with ⟨k, ih⟩
      refine ⟨k, ?_⟩
      intro s sl out hs hchars hon
      have hsplit : s.chars = [c] ++ cs := hchars
      have hafter := moveTo_append hsplit hs
      have hstay : (s.moveTo cs).line = s.line := by
        have hne : c ≠ '\n' := by
          rintro rfl
          exact absurd hc (by decide)
        rw [hafter.2.2.1, List.count_singleton, if_neg (by simpa using hne), Nat.add_zero]
      rw [lexLineTokens_blank E hs hc hchars]
      rcases ih (s.moveTo cs) sl out hafter.1 hafter.2.1 (by rwa [hstay]) with ⟨toks, hrun⟩
      refine ⟨toks, ?_⟩
      rw [hrun, moveTo_of_suffix h.suffix (by rw [hchars]; exact List.suffix_cons _ _)]
  | @comment moved body cs rest hbody h ih =>
      rcases ih with ⟨k, ih⟩
      refine ⟨k + 1, ?_⟩
      intro s sl out hs hchars hon
      have hsplit : s.chars = ('/' :: '*' :: (body ++ ['*', '/'])) ++ cs := by
        rw [hchars]
        simp
      have hafter := moveTo_append hsplit hs
      have hcount : ('/' :: '*' :: (body ++ ['*', '/'])).count '\n' = body.count '\n' := by
        simp
      rw [hcount] at hafter
      rw [lexLineTokens_comment E hs hbody hchars]
      have hon := hon.add body
      rw [← hafter.2.2.1] at hon
      rcases ih (s.moveTo cs) sl out hafter.1 hafter.2.1 hon with ⟨toks, hrun⟩
      refine ⟨toks, ?_⟩
      rw [hrun, moveTo_of_suffix h.suffix (by rw [hsplit]; exact List.suffix_append _ _)]
  | @splice moved cs rest h ih =>
      rcases ih with ⟨k, ih⟩
      refine ⟨k + 1, ?_⟩
      intro s sl out hs hchars _
      have hsplit : s.chars = ['\\', '\n'] ++ cs := hchars
      have hafter := moveTo_append hsplit hs
      rw [lexLineTokens_splice E hs hchars]
      rcases ih (s.moveTo cs) (s.moveTo cs).line out hafter.1 hafter.2.1 
        (OnLine.stays _) with ⟨toks, hrun⟩
      refine ⟨toks, ?_⟩
      rw [hrun, moveTo_of_suffix h.suffix (by rw [hsplit]; exact List.suffix_append _ _)]
  | @token c more cs rest hc h ih =>
      rcases ih with ⟨k, ih⟩
      refine ⟨k + 1, ?_⟩
      intro s sl out hs hchars hon
      have hsplit : s.chars = (c :: more) ++ cs := hchars
      have hafter := moveTo_append hsplit hs
      rcases hc.2 s hchars with ⟨t, htoken⟩
      have hline : s.line = sl := by
        unfold OnLine at hon
        rwa [if_neg Bool.false_ne_true] at hon
      subst hline
      rw [lexLineTokens_token E hs hc.1 hchars htoken]
      have hon := hon.add (c :: more)
      rw [← hafter.2.2.1, Bool.false_or] at hon
      rcases ih (s.moveTo cs) s.line (out ++ [t]) hafter.1 hafter.2.1 hon with ⟨toks, hrun⟩
      refine ⟨toks, ?_⟩
      rw [hrun, moveTo_of_suffix h.suffix (by rw [hsplit]; exact List.suffix_append _ _)]

end Line

/-! ## A whole region -/

/-- The lexer in a skipped region that it entered in `s`: before `rest`, with the nested
conditionals `inner`. -/
def Scanner.inside (s : Scanner) (inner : List Cond) (rest : List Char) : Scanner :=
  { s.moveTo rest with dirs := { s.dirs with conds := inner ++ s.dirs.conds } }

section Inside

open Scanner

variable {E : ScanEnv} {s : Scanner} (inner : List Cond)

theorem inside_stack (hs : s.stack ≠ []) (rest : List Char) : (s.inside inner rest).stack ≠ [] := by
  rcases s with ⟨stack, dirs⟩
  cases stack with
  | nil => exact absurd rfl hs
  | cons src below => exact List.cons_ne_nil _ _

theorem inside_chars {rest : List Char} (h : rest <:+ s.chars) :
    (s.inside inner rest).chars = rest :=
  moveTo_chars h

theorem inside_skipping (hskip : s.dirs.skippingConds = true) (rest : List Char) :
    (s.inside inner rest).dirs.skippingConds = true := by
  unfold DirState.skippingConds at hskip ⊢
  show (inner ++ s.dirs.conds).any _ = true
  rw [List.any_append, hskip, Bool.or_true]

variable {inner}

theorem inside_moveTo {mid rest : List Char} (h : rest <:+ mid) (hmid : mid <:+ s.chars) :
    (s.inside inner mid).moveTo rest = s.inside inner rest := by
  have hmove := moveTo_of_suffix h hmid
  unfold inside
  rw [← hmove]
  rcases s with ⟨stack, dirs⟩
  cases stack with
  | nil => rfl
  | cons src below => rfl

/-- A nested directive. -/
theorem inside_directive {name args rest : List Char} {fs : List Bool} (hs : s.stack ≠ [])
    (hskip : s.dirs.skippingConds = true)
    (hfit : (Piece.directive name args).Fits E false rest)
    (hnest : nest (String.ofList name) (inner.map (·.elseSeen)) = some fs)
    (hchars : (Piece.directive name args).text ++ rest <:+ s.chars) :
    ∃ inner' : List Cond, inner'.map (·.elseSeen) = fs ∧
      Passes E (s.inside inner ((Piece.directive name args).text ++ rest))
        (s.inside inner' rest) := by
  rcases hfit with ⟨hletters, hends, hfit⟩
  rw [if_neg Bool.false_ne_true] at hfit
  have htext : (Piece.directive name args).text ++ rest = '#' :: (name ++ (args ++ rest)) := by
    unfold Piece.text
    rw [List.cons_append, List.append_assoc]
  rw [htext] at hchars ⊢
  have hname : (name ++ (args ++ rest)).takeWhile (fun c => c.isAlphanum || c = '_') = name ∧
      (name ++ (args ++ rest)).dropWhile (fun c => c.isAlphanum || c = '_') = args ++ rest :=
    takeWhile_of_ends hletters hends
  have hafter : name ++ (args ++ rest) <:+ s.chars := (List.suffix_cons _ _).trans hchars
  have hargs : args ++ rest <:+ s.chars := (List.suffix_append _ _).trans hafter
  have hrest : rest <:+ s.chars := (List.suffix_append _ _).trans hargs
  -- behind the `#`, and behind the name
  have hhash : (s.inside inner ('#' :: (name ++ (args ++ rest)))).moveTo (name ++ (args ++ rest)) =
      s.inside inner (name ++ (args ++ rest)) := inside_moveTo (List.suffix_cons _ _) hchars
  have hword : (s.inside inner (name ++ (args ++ rest))).moveTo (args ++ rest) =
      s.inside inner (args ++ rest) := inside_moveTo (List.suffix_append _ _) hafter
  have hskipping := inside_skipping inner hskip (args ++ rest)
  have hat := inside_chars inner hargs
  have hbefore := inside_chars inner hafter
  have hmove : (s.inside inner (args ++ rest)).moveTo rest = s.inside inner rest :=
    inside_moveTo (List.suffix_append _ _) hargs
  by_cases hcond : isCondDirective (String.ofList name) = true
  · rw [if_pos hcond] at hfit
    rcases lexLineTokens_read hfit with ⟨k, hread⟩
    rcases hread _ _ [] (inside_stack inner hs (args ++ rest)) hat (OnLine.stays _) with ⟨toks, hrun⟩
    rw [hmove] at hrun
    rcases lineDirective_skipped (t := s.inside inner rest) hcond rfl hnest
      (s.inside inner (name ++ (args ++ rest))).here toks with ⟨inner', hflags, hline⟩
    refine ⟨inner', hflags, ?_⟩
    apply passes_directive (inside_stack inner hs _) (inside_chars inner hchars)
      (k + 1 + 1)
    intro n
    have hrun := lexLineTokens_le E (Nat.le_add_left _ n) hrun
    rw [← Nat.add_assoc]
    unfold Scanner.handleDirective
    simp only [hhash, hbefore, hname.1, hname.2, hword, hskipping, hcond, hrun, Bool.true_or,
      if_true]
    exact congrArg some hline
  · -- other directives are inert
    rw [if_neg hcond] at hfit
    have hsame : nest (String.ofList name) (inner.map (·.elseSeen)) =
        some (inner.map (·.elseSeen)) := by
      have hother := hcond
      unfold isCondDirective at hother
      simp only [List.mem_cons, List.not_mem_nil, or_false, decide_eq_true_eq, not_or] at hother
      unfold nest
      rw [if_neg hother.2.2.2.2.2.1, if_neg hother.2.2.2.2.2.2, if_neg hcond]
    refine ⟨inner, Option.some.inj (hsame.symm.trans hnest), ?_⟩
    apply passes_directive (inside_stack inner hs _) (inside_chars inner hchars) 1
    intro n
    unfold Scanner.handleDirective
    simp only [hhash, hbefore, hname.1, hname.2, hword, hskipping, hcond, hat, hfit, hmove,
      Bool.not_true, Bool.false_and, Bool.or_self, Bool.false_eq_true, if_false, if_true]

/-- Read without regard to literals, the pieces are passed, and the nested conditionals count. -/
theorem inside_pieces {rest : List Char} (hs : s.stack ≠ []) (hskip : s.dirs.skippingConds = true)
    (hrest : rest = [] ∨ ∃ cs, rest = '#' :: cs) {ps : List Piece} (hfit : Fit E false ps rest)
    {fs : List Bool} (hnest : nestAll ps (inner.map (·.elseSeen)) = some fs)
    (hchars : piecesText ps ++ rest <:+ s.chars) :
    ∃ inner' : List Cond, inner'.map (·.elseSeen) = fs ∧
      Passes E (s.inside inner (piecesText ps ++ rest)) (s.inside inner' rest) := by
  induction hm : ps.length using Nat.strong_induction_on generalizing ps inner with
  | _ m ih =>
      subst hm
      cases ps with
      | nil => exact ⟨inner, Option.some.inj hnest, Passes.refl _⟩
      | cons p ps =>
          rcases hfit with ⟨hp, hps⟩
          have hstack := inside_stack inner hs (piecesText (p :: ps) ++ rest)
          have hat := inside_chars inner hchars
          have hskipping := inside_skipping inner hskip (piecesText (p :: ps) ++ rest)
          have hshort : ps.length < (p :: ps).length := Nat.lt_succ_self _
          rw [piecesText_cons, List.append_assoc] at hchars hat hstack hskipping ⊢
          have hnext : piecesText ps ++ rest <:+ s.chars := (List.suffix_append _ _).trans hchars
          have hmove : (s.inside inner (p.text ++ (piecesText ps ++ rest))).moveTo
              (piecesText ps ++ rest) = s.inside inner (piecesText ps ++ rest) :=
            inside_moveTo (List.suffix_append _ _) hchars
          -- a piece that is passed without a change of the stack
          have hpassed : Passes E (s.inside inner (p.text ++ (piecesText ps ++ rest)))
              (s.inside inner (piecesText ps ++ rest)) →
              nestAll ps (inner.map (·.elseSeen)) = some fs →
              ∃ inner' : List Cond, inner'.map (·.elseSeen) = fs ∧
                Passes E (s.inside inner (p.text ++ (piecesText ps ++ rest)))
                  (s.inside inner' rest) := by
            intro hpass hnest
            rcases ih ps.length hshort hps hnest hnext rfl with ⟨inner', hflags, hrun⟩
            exact ⟨inner', hflags, hpass.trans hrun⟩
          cases p with
          | char c =>
              have hsingle : (Piece.char c).text ++ (piecesText ps ++ rest) =
                  c :: (piecesText ps ++ rest) := rfl
              rcases hblank : isBlank c with _ | _
              · -- the rest of the line goes with it
                have hall : Fit E false (.char c :: ps) rest := ⟨hp, hps⟩
                rcases skipCondBlockLine_pieces hrest hall with ⟨qs, htext, -, hlt, hqs, hsame⟩
                rw [piecesText_cons, List.append_assoc] at htext
                have hsuffix := skipCondBlockLine_suffix
                  ((Piece.char c).text ++ (piecesText ps ++ rest))
                rw [htext] at hsuffix
                have hskipped :=
                  passes_skip (E := E) hstack (hat.trans hsingle) hskipping hblank hp.1 hp.2.1
                rw [hsingle] at htext
                rw [htext, inside_moveTo hsuffix hchars] at hskipped
                rw [hsame] at hnest
                rcases ih qs.length (hlt c rfl) hqs hnest (hsuffix.trans hchars) rfl with
                  ⟨inner', hflags, hrun⟩
                exact ⟨inner', hflags, hskipped.trans hrun⟩
              · apply hpassed _ hnest
                rw [← hmove]
                exact passes_blank hstack hat hblank
          | line body =>
              apply hpassed _ hnest
              rw [← hmove]
              exact passes_line hstack hat hp.1 hp.2
          | block body =>
              apply hpassed _ hnest
              rw [← hmove]
              apply passes_block hstack _ hp
              rw [hat]
              simp [Piece.text]
          | literal q body => exact absurd hp.1 Bool.false_ne_true
          | directive name args =>
              rcases hone : nest (String.ofList name) (inner.map (·.elseSeen)) with _ | mid
              · rw [nestAll, hone] at hnest
                exact absurd hnest (by simp)
              · rw [nestAll, hone, Option.bind_some] at hnest
                rcases inside_directive hs hskip hp hone hchars with ⟨inner₁, hflags, hfirst⟩
                rw [← hflags] at hnest
                rcases ih ps.length hshort hps hnest hnext rfl with ⟨inner', hflags, hrun⟩
                exact ⟨inner', hflags, hfirst.trans hrun⟩

/-- A skipped region is inert where it is one also for a reader that takes no notice of quotation
marks: the lexer goes on as if it were not there. -/
theorem skipped_inert {items ps : List Piece} {rest : List Char}
    (hregion : SkippedRegion E true items rest) (hs : s.stack ≠ [])
    (hskip : s.dirs.skippingConds = true) (hchars : s.chars = piecesText items ++ rest)
    (htext : piecesText ps = piecesText items) (hfit : Fit E false ps rest)
    (hnest : nestAll ps [] = some []) : Passes E s (s.moveTo rest) := by
  have hrest : rest = [] ∨ ∃ cs, rest = '#' :: cs := by
    rcases hregion.ends with h | ⟨name, cs, h, -⟩
    · exact Or.inl h
    · exact Or.inr ⟨_, h⟩
  have hsame : piecesText ps ++ rest = s.chars := by rw [htext, hchars]
  have hnest : nestAll ps (([] : List Cond).map (·.elseSeen)) = some [] := hnest
  rcases inside_pieces hs hskip hrest hfit hnest (hsame ▸ List.suffix_refl _) with
    ⟨inner', hflags, hpass⟩
  have hnone : inner' = [] := List.map_eq_nil_iff.mp hflags
  have hstart : s.inside [] (piecesText ps ++ rest) = s := by
    unfold inside
    rw [hsame, moveTo_self]
    rfl
  have hend : s.inside [] rest = s.moveTo rest := by
    unfold inside
    rcases s with ⟨stack, dirs⟩
    cases stack <;> rfl
  rw [hstart, hnone, hend] at hpass
  exact hpass

end Inside

/-! ## Quotation marks -/

/-- The lexer at a text in a region that is skipped. -/
def skippedAt (text : List Char) : Scanner :=
  ⟨[{ buf := text, file := "a.HC", dir := "." }], { conds := [⟨false, false, false⟩] }⟩

theorem char_fits (E : ScanEnv) (lits : Bool) {c : Char} (h : c ∉ ['#', '/', '"', '\''])
    (rest : List Char) : (Piece.char c).Fits E lits rest := by
  simp only [List.mem_cons, List.not_mem_nil, or_false, not_or] at h
  refine ⟨h.1, fun hc => absurd hc h.2.1, ?_⟩
  intro _ hc
  rcases hc with hc | hc
  · exact absurd hc h.2.2.1
  · exact absurd hc h.2.2.2

theorem endif_ends :
    ∃ name cs, "#endif\n".toList = '#' :: (name ++ cs) ∧
      (name = "else".toList ∨ name = "endif".toList) ∧ ∀ c ∈ cs.head?, isWordChar c = false := by
  refine ⟨"endif".toList, ['\n'], rfl, Or.inr rfl, ?_⟩
  intro c hc
  rcases Option.some.inj hc with rfl
  decide

/-- An apostrophe that closes nothing, and a directive in a comment. -/
def apostrophe : List Piece :=
  [.char 'i', .char 't', .char '\'', .char 's', .char ' ', .block " #endif ".toList, .char '\n']

theorem apostrophe_fits (lits : Bool) :
    SkippedRegion .bare lits apostrophe "#endif\n".toList := by
  constructor
  · refine ⟨char_fits _ _ (by decide) _, char_fits _ _ (by decide) _, ⟨by decide, ?_, ?_⟩,
      char_fits _ _ (by decide) _, char_fits _ _ (by decide) _, ?_, char_fits _ _ (by decide) _,
      trivial⟩
    · exact fun hc => absurd hc (by decide)
    · intro _ _
      decide +kernel
    · show ¬ ['*', '/'] <:+: " #endif ".toList
      decide
  · rfl
  · exact Or.inr endif_ends

theorem apostrophe_inert :
    Scanner.Passes .bare (skippedAt "it's /* #endif */\n#endif\n".toList)
      ((skippedAt "it's /* #endif */\n#endif\n".toList).moveTo "#endif\n".toList) := by
  have hchars : (skippedAt "it's /* #endif */\n#endif\n".toList).chars =
      piecesText apostrophe ++ "#endif\n".toList := by decide
  exact skipped_inert (apostrophe_fits true) (List.cons_ne_nil _ _) rfl hchars rfl
    (apostrophe_fits false).fit rfl

/-- A string that holds a directive. -/
def quotedEndif : List Piece := [.literal '"' "#endif".toList, .char '\n']

theorem quotedEndif_fits : SkippedRegion .bare true quotedEndif "#endif\n".toList := by
  constructor
  · refine ⟨⟨rfl, Or.inl rfl, ?_⟩, char_fits _ _ (by decide) _, trivial⟩
    decide +kernel
  · rfl
  · exact Or.inr endif_ends

theorem Scanner.returns_of_run {E : ScanEnv} {n k : Nat} {s : Scanner}
    (h : (Scanner.rawNext E n s).map (fun r => r.2.dirs.errors.length) = some k) :
    ∃ r, Scanner.Returns E s r ∧ r.2.dirs.errors.length = k := by
  rcases Option.map_eq_some_iff.mp h with ⟨r, hrun, herrs⟩
  exact ⟨r, ⟨n, hrun⟩, herrs⟩

/-- The string is a literal closed on its line, and yet its directive ends the region. -/
theorem quoted_endif_not_inert :
    ∃ items rest, ∃ s : Scanner, SkippedRegion .bare true items rest ∧ s.stack ≠ [] ∧
      s.dirs.skippingConds = true ∧ s.chars = piecesText items ++ rest ∧
      ¬ Scanner.Passes .bare s (s.moveTo rest) := by
  refine ⟨quotedEndif, "#endif\n".toList, skippedAt "\"#endif\"\n#endif\n".toList,
    quotedEndif_fits, List.cons_ne_nil _ _, rfl, ?_, ?_⟩
  · decide
  · intro hpass
    -- after the region nothing is reported, from the region on one error is
    rcases Scanner.returns_of_run (k := 1) (n := 30) (E := .bare)
      (s := skippedAt "\"#endif\"\n#endif\n".toList) (by decide +kernel) with ⟨r, hr, hone⟩
    rcases Scanner.returns_of_run (k := 0) (n := 30) (E := .bare)
      (s := (skippedAt "\"#endif\"\n#endif\n".toList).moveTo "#endif\n".toList)
      (by decide +kernel) with ⟨r', hr', hnone⟩
    rw [((hpass r).mp hr).unique hr', hnone] at hone
    exact absurd hone (by decide)

end Hlang.Lexer
