import Hlang.Lexer.DirectiveLine

/-!
# Hlang.Lexer.DefineLine — the lines of `#define`

A line of `#define` is a name and the tokens of a body. Whether a parenthesis
stands next to the name is told by its column, and columns begin anew behind a
splice.
-/

namespace Hlang.Lexer

/-! ## The line -/

/-- A line of `#define`, behind the name of the directive, and what is left of the buffer from
its end on. -/
structure DefineLine where
  lead : List Gap
  name : List Char
  words : Words
  trail : List Gap
  after : List Char

namespace DefineLine

variable (L : DefineLine)

/-- What follows the name of the macro. -/
def tail : List Char := L.words.text ++ (gapsText L.trail ++ L.after)

def text : List Char := gapsText L.lead ++ (L.name ++ L.tail)

/-- What is left behind the line. -/
def rest : List Char := lineRest L.after

/-- The name, as a token of the line. -/
def word : Word := ⟨L.name.headD ' ', L.name.tail, .ofIdent (String.ofList L.name)⟩

/-- All tokens of the line. -/
def all : Words := (L.lead, L.word) :: L.words

/-- A well-formed line. -/
structure Ok (E : ScanEnv) : Prop where
  /-- the name of the directive ends before it -/
  apart : ∀ c ∈ L.text.head?, (c.isAlphanum || c = '_') = false
  name : isName L.name = true
  name_end : ∀ c ∈ L.tail.head?, isIdChar c = false
  words : L.words.Read E (gapsText L.trail ++ L.after)
  ends : LineEnds L.after

/-- What `#define` is to do with a line: the tokens behind the name are the body of the macro,
the text goes on at the end of the line, and an error is reported if a parenthesis is next to the
name. -/
structure Meets (s s' : Scanner) : Prop where
  body : ∃ body, s'.dirs.macros = s.dirs.macros.define (String.ofList L.name) body ∧
    body.map Token.shape = L.words.map fun w => w.2.tok.shape
  goes_on : s'.stack = (s.moveTo L.rest).stack ∧ s'.dirs.conds = s.dirs.conds ∧
    (L.rest = [] ∨ ∃ cs, L.rest = '\n' :: cs)
  error : s'.dirs.errors = s.dirs.errors ++
    if L.tail.head? = some '(' then [(s.here, "no #define functions exist in HolyC")] else []

/-- Behind the name, which ends in column `col`, comes a parenthesis that a splice has moved to
that column of another line. -/
def Misplaced (col : Nat) : Prop :=
  ∃ gs w ws, L.words = (gs, w) :: ws ∧ w.first = '(' ∧ (∃ g ∈ gs, g.IsSplice) ∧
    Source.columnAfter col (gapsText gs) = col

variable {L} {E : ScanEnv}

theorem Ok.word_text (h : L.Ok E) : L.word.text = L.name := by
  have hname := h.name
  unfold word Word.text
  cases hn : L.name with
  | nil => rw [hn] at hname; exact absurd hname (by decide)
  | cons c n => rfl

theorem Ok.name_line (h : L.Ok E) : '\n' ∉ L.name := by
  intro hmem
  exact absurd (isName_idChar h.name _ hmem) (by decide)

theorem Ok.word_reads (h : L.Ok E) : L.word.Reads E L.tail := by
  have hname := h.name
  cases hn : L.name with
  | nil => rw [hn] at hname; exact absurd hname (by decide)
  | cons c n =>
      rw [hn] at hname
      have htoken := fun s : Scanner => Scanner.token_ident E s hname h.name_end
      have hword : L.word = ⟨c, n, .ofIdent (String.ofList (c :: n))⟩ := by
        unfold word
        rw [hn]
        rfl
      rw [hword]
      constructor
      · exact (htoken ⟨[], {}⟩).1
      · intro s _
        exact (htoken s).2
      · have hline := h.name_line
        rwa [hn] at hline

theorem Ok.all_read (h : L.Ok E) : L.all.Read E (gapsText L.trail ++ L.after) :=
  ⟨h.word_reads, h.words⟩

theorem Ok.all_text (h : L.Ok E) : L.text = L.all.text ++ (gapsText L.trail ++ L.after) := by
  unfold text all Words.text tail
  rw [h.word_text, List.append_assoc, List.append_assoc]

/-- The turns of the loop that the line takes. -/
def turns (L : DefineLine) : Nat := gapTurns L.trail + L.all.turns

/-- The tokens of the line, from where its text begins. -/
theorem lexLineTokens_text (h : L.Ok E) {s : Scanner} (hs : s.stack ≠ [])
    (hchars : s.chars = L.text) (n : Nat) :
    ∃ toks, toks.map (fun t => (t.shape, t.loc.col)) = L.all.placed s.here.col ∧
      Scanner.lexLineTokens E (n + 1 + L.turns) s.line [] s = some (toks, s.moveTo L.rest) := by
  rw [h.all_text] at hchars
  exact lexLineTokens_line E hs h.all_read h.ends hchars n

/-- `#define` with its line. -/
theorem handleDirective_define (h : L.Ok E) {s : Scanner} (hs : s.stack ≠ [])
    (hskip : s.dirs.skippingConds = false) (hchars : s.chars = "define".toList ++ L.text)
    (n : Nat) :
    ∃ toks, toks.map (fun t => (t.shape, t.loc.col)) =
        L.all.placed (Source.columnAfter s.here.col "define".toList) ∧
      Scanner.handleDirective E (n + 2 + L.turns) s =
        some { s.moveTo L.rest with dirs := handleDefine s.here toks s.dirs } := by
  have hmoved := Scanner.moveTo_append hchars hs
  rcases lexLineTokens_text h hmoved.1 hmoved.2.1 n with ⟨toks, hplaced, hrun⟩
  rw [hmoved.2.2.2] at hplaced
  have hall : "define".toList.all (fun c => c.isAlphanum || c = '_') = true := by decide
  have hletters : ∀ c ∈ "define".toList, (c.isAlphanum || c = '_') = true := List.all_eq_true.mp hall
  have hname := takeWhile_of_ends hletters h.apart
  have hone : (s.moveTo L.text).moveTo L.rest = s.moveTo L.rest := by
    rcases lineRest_suffix L.after with ⟨cut, hcut⟩
    have hsplit : L.text = (L.all.text ++ (gapsText L.trail ++ cut)) ++ L.rest := by
      unfold rest
      rw [h.all_text, List.append_assoc, List.append_assoc, hcut]
    rw [hsplit] at hchars ⊢
    exact Scanner.moveTo_moveTo hchars
  refine ⟨toks, hplaced, ?_⟩
  have hdefine : String.ofList "define".toList = "define" := String.ofList_toList
  have hkind : Scanner.isCondDirective "define" = false ∧
      Scanner.isLineDirective "define" = true := by
    simp [Scanner.isCondDirective, Scanner.isLineDirective]
  have hline : Scanner.lineDirective E false s.here "define" toks (s.moveTo L.rest) =
      { s.moveTo L.rest with dirs := handleDefine s.here toks s.dirs } := by
    simp [Scanner.lineDirective]
  rw [show n + 2 + L.turns = n + 1 + L.turns + 1 by omega]
  unfold Scanner.handleDirective
  simp only [hchars, hname.1, hname.2, hdefine, Scanner.moveTo_dirs, hskip, hrun, hone, hkind.1,
    hkind.2, hline, Bool.not_false, Bool.true_and, Bool.false_or, if_true]

/-! ### What is next to the name -/

theorem gap_text_head (g : Gap) : ∃ c cs, g.text = c :: cs ∧ c ≠ '(' := by
  cases g with
  | blank c hc =>
      refine ⟨c, [], rfl, ?_⟩
      rintro rfl
      exact absurd hc (by decide)
  | comment body _ _ => exact ⟨_, _, rfl, by decide⟩
  | splice => exact ⟨_, _, rfl, by decide⟩

/-- No piece between tokens begins with a parenthesis. -/
theorem head_gapsText {gs : List Gap} {r : List Char} :
    (gapsText gs ++ r).head? = some '(' ↔ gs = [] ∧ r.head? = some '(' := by
  cases gs with
  | nil => simp [gapsText]
  | cons g gs =>
      rcases gap_text_head g with ⟨c, cs, htext, hc⟩
      rw [gapsText_cons, htext]
      simp [hc]

theorem gap_line {g : Gap} (h : ¬ g.IsSplice) : '\n' ∉ g.text := by
  cases g with
  | blank c hc =>
      intro hmem
      rw [Gap.text, List.mem_singleton] at hmem
      rw [← hmem] at hc
      exact absurd hc (by decide)
  | comment body _ hline => simpa [Gap.text] using hline
  | splice => exact absurd trivial h

/-- Without a splice the column grows with every piece. -/
theorem columnAfter_gaps {gs : List Gap} (h : ¬ ∃ g ∈ gs, g.IsSplice) (col : Nat) :
    Source.columnAfter col (gapsText gs) = col ↔ gs = [] := by
  have hline : '\n' ∉ gapsText gs := by
    intro hmem
    rcases List.mem_flatMap.mp hmem with ⟨g, hg, hmem⟩
    exact gap_line (fun hs => h ⟨g, hg, hs⟩) hmem
  rw [Source.columnAfter_line hline]
  cases gs with
  | nil => simp [gapsText]
  | cons g gs =>
      rcases gap_text_head g with ⟨c, cs, htext, _⟩
      rw [gapsText_cons, htext]
      simp

/-- Only the character of a parenthesis is read as one. -/
theorem lexPunct_lParen {c : Char} {cs rest : List Char}
    (h : lexPunct c cs = some (.lParen, rest)) : c = '(' := by
  unfold lexPunct two at h
  split at h <;> first
    | rfl
    | (split_ifs at h <;> exact absurd h (by simp))
    | exact absurd h (by simp)

theorem lexNumber_kind (strtod : List Char → ℚ) (cs : List Char) :
    (lexNumber strtod cs).1.kind ≠ .punct := by
  unfold lexNumber
  split_ifs
  · exact (fun h => nomatch h)
  · exact (fun h => nomatch h)
  · simp only
    split_ifs <;> exact (fun h => nomatch h)

theorem token_lParen {s s' : Scanner} {c : Char} {cs : List Char} {t : Token}
    (h : s.token E c cs = some (t, s')) :
    t.kind = .punct ∧ t.punct = .lParen ↔ c = '(' := by
  constructor
  · rintro ⟨hkind, hpunct⟩
    unfold Scanner.token at h
    simp only at h
    split_ifs at h
    case pos => cases h; cases hpunct
    case neg => cases h; cases hkind
    case pos => cases h; exact absurd hkind (lexNumber_kind _ _)
    case pos => cases h; cases hkind
    case pos => cases h; cases hkind
    case neg => cases h; cases hkind
    case neg =>
      cases hp : lexPunct c cs with
      | none => rw [hp] at h; exact absurd h (by simp)
      | some r =>
          rw [hp] at h
          cases h
          have hparen : lexPunct c cs = some (.lParen, r.2) := by rw [hp, ← hpunct]
          exact lexPunct_lParen hparen
  · rintro rfl
    have htoken : s.token E '(' cs =
        some ({ kind := .punct, punct := .lParen, loc := s.here }, s.moveTo cs) := rfl
    rw [htoken] at h
    cases h
    exact ⟨rfl, rfl⟩

theorem reads_lParen {w : Word} {r : List Char} (h : w.Reads E r) :
    w.tok.kind = .punct ∧ w.tok.punct = .lParen ↔ w.first = '(' := by
  have htoken := h.token ⟨[⟨w.text ++ r, "", "", 1, 1⟩], {}⟩ rfl
  have hiff := token_lParen htoken
  exact hiff

/-- A parenthesis is the character next to the name. -/
theorem tail_head (h : L.Ok E) : L.tail.head? = some '(' ↔
    ∃ w ws, L.words = ([], w) :: ws ∧ w.first = '(' := by
  unfold tail
  cases hw : L.words with
  | nil =>
      have hno : L.after.head? ≠ some '(' := by
        rcases h.ends with ha | ⟨cs, ha⟩ | ⟨cs, ha⟩ <;> rw [ha] <;> simp
      rw [Words.text, List.nil_append, head_gapsText]
      exact iff_of_false (fun hc => hno hc.2) (by simp)
  | cons p ws =>
      rcases p with ⟨gs, w⟩
      rw [Words.text, List.append_assoc, head_gapsText]
      constructor
      · rintro ⟨rfl, hfirst⟩
        exact ⟨w, ws, rfl, Option.some.inj hfirst⟩
      · rintro ⟨w', ws', heq, hfirst⟩
        cases heq
        exact ⟨rfl, congrArg some hfirst⟩

/-- The column in which the name ends, when the text behind the name of the directive begins
in column `col`. -/
def nameEnd (L : DefineLine) (col : Nat) : Nat :=
  Source.columnAfter col (gapsText L.lead ++ L.name)

/-- The second token is a parenthesis in the column in which the name ended: what the code
tests. -/
def Reported (L : DefineLine) (col : Nat) : Prop :=
  ∃ gs w ws, L.words = (gs, w) :: ws ∧ w.first = '(' ∧
    Source.columnAfter col (gapsText gs) = col

theorem placed_fst (ws : Words) (col : Nat) :
    (ws.placed col).map Prod.fst = ws.map fun w => w.2.tok.shape := by
  induction ws generalizing col with
  | nil => rfl
  | cons p ws ih =>
      rcases p with ⟨gs, w⟩
      rw [Words.placed, List.map_cons, List.map_cons, ih]

/-- `#define` with the tokens of a well-formed line. -/
theorem handleDefine_line (h : L.Ok E) {toks : List Token} {col : Nat}
    (htoks : toks.map (fun t => (t.shape, t.loc.col)) = L.all.placed col) (loc : SrcLoc)
    (d : DirState) :
    ∃ body, body.map Token.shape = L.words.map (fun w => w.2.tok.shape) ∧
      (L.Reported (L.nameEnd col) → handleDefine loc toks d =
        { d.error loc "no #define functions exist in HolyC" with
          macros := d.macros.define (String.ofList L.name) body }) ∧
      (¬ L.Reported (L.nameEnd col) → handleDefine loc toks d =
        { d with macros := d.macros.define (String.ofList L.name) body }) := by
  unfold all Words.placed at htoks
  rcases List.map_eq_cons_iff.mp htoks with ⟨t, body, rfl, ht, hbody⟩
  have hshape : t.shape = .ofIdent (String.ofList L.name) := congrArg Prod.fst ht
  have hkind : t.kind = .ident := congrArg Token.kind hshape
  have htext : t.text = String.ofList L.name := congrArg Token.text hshape
  -- the column behind the name
  have hend : t.loc.col + (String.ofList L.name).length = L.nameEnd col := by
    have hcol : t.loc.col = Source.columnAfter col (gapsText L.lead) := congrArg Prod.snd ht
    unfold nameEnd
    rw [hcol, Source.columnAfter_append, Source.columnAfter_line h.name_line,
      String.length_ofList]
  have hword : Source.columnAfter (Source.columnAfter col (gapsText L.lead)) L.word.text =
      L.nameEnd col := by
    unfold nameEnd
    rw [h.word_text, Source.columnAfter_append]
  rw [hword] at hbody
  have hshapes : body.map Token.shape = L.words.map fun w => w.2.tok.shape := by
    rw [← placed_fst L.words (L.nameEnd col), ← hbody, List.map_map]
    rfl
  refine ⟨body, hshapes, ?_⟩
  unfold handleDefine
  simp only [hkind, ne_eq, not_true, if_false, htext, hend]
  -- the second token
  unfold Reported
  cases hw : L.words with
  | nil =>
      rw [hw] at hbody
      have hnil : body = [] := List.map_eq_nil_iff.mp hbody
      subst hnil
      exact ⟨fun hr => absurd hr (by simp), fun _ => rfl⟩
  | cons p ws =>
      rcases p with ⟨gs, w⟩
      rw [hw] at hbody
      rcases List.map_eq_cons_iff.mp hbody with ⟨u, us, rfl, hu, -⟩
      have hread := h.words
      rw [hw] at hread
      have hparen := reads_lParen hread.1
      have hshape' : u.shape = w.tok.shape := congrArg Prod.fst hu
      have hkind' := congrArg Token.kind hshape'
      have hpunct' := congrArg Token.punct hshape'
      have hcol' : u.loc.col = Source.columnAfter (L.nameEnd col) (gapsText gs) :=
        congrArg Prod.snd hu
      have hiff : (u.kind = .punct ∧ u.punct = .lParen ∧ u.loc.col = L.nameEnd col) ↔
          w.first = '(' ∧ Source.columnAfter (L.nameEnd col) (gapsText gs) = L.nameEnd col := by
        rw [← hparen, ← hcol', and_assoc]
        exact and_congr (Eq.congr_left hkind') (and_congr (Eq.congr_left hpunct') Iff.rfl)
      constructor
      · rintro ⟨gs', w', ws', heq, hr⟩
        cases heq
        simp only [if_pos (hiff.mpr hr)]
        rfl
      · intro hr
        have hno : ¬ (u.kind = .punct ∧ u.punct = .lParen ∧ u.loc.col = L.nameEnd col) :=
          fun hc => hr ⟨gs, w, ws, rfl, hiff.mp hc⟩
        simp only [if_neg hno]

/-- An error is reported for a parenthesis next to the name, and for a misplaced one. -/
theorem reported_iff (h : L.Ok E) (col : Nat) :
    L.Reported col ↔ L.tail.head? = some '(' ∨ L.Misplaced col := by
  rw [tail_head h]
  unfold Reported Misplaced
  constructor
  · rintro ⟨gs, w, ws, hw, hfirst, hcol⟩
    by_cases hsplice : ∃ g ∈ gs, g.IsSplice
    · exact Or.inr ⟨gs, w, ws, hw, hfirst, hsplice, hcol⟩
    · have hnil := (columnAfter_gaps hsplice col).mp hcol
      subst hnil
      exact Or.inl ⟨w, ws, hw, hfirst⟩
  · rintro (⟨w, ws, hw, hfirst⟩ | ⟨gs, w, ws, hw, hfirst, -, hcol⟩)
    · exact ⟨[], w, ws, hw, hfirst, rfl⟩
    · exact ⟨gs, w, ws, hw, hfirst, hcol⟩

theorem Misplaced.not_next (h : L.Ok E) {col : Nat} (hm : L.Misplaced col) :
    L.tail.head? ≠ some '(' := by
  rw [ne_eq, tail_head h]
  rcases hm with ⟨gs, w, ws, hw, -, ⟨g, hg, -⟩, -⟩
  rintro ⟨w', ws', hw', -⟩
  rw [hw] at hw'
  cases hw'
  exact absurd hg (by simp)

/-- The column in which the name of the macro ends. -/
def endColumn (L : DefineLine) (s : Scanner) : Nat :=
  L.nameEnd (Source.columnAfter s.here.col "define".toList)

/-- A `#define` line does what it is to do exactly when no parenthesis is misplaced. -/
theorem meets_iff (h : L.Ok E) {s : Scanner} (hs : s.stack ≠ [])
    (hskip : s.dirs.skippingConds = false) (hchars : s.chars = "define".toList ++ L.text)
    (n : Nat) :
    ∃ s', Scanner.handleDirective E (n + 2 + L.turns) s = some s' ∧
      (L.Meets s s' ↔ ¬ L.Misplaced (L.endColumn s)) := by
  rcases handleDirective_define h hs hskip hchars n with ⟨toks, hplaced, hrun⟩
  rcases handleDefine_line h hplaced s.here s.dirs with ⟨body, hbody, hyes, hno⟩
  refine ⟨_, hrun, ?_⟩
  have hreported := reported_iff h (L.endColumn s)
  by_cases hm : L.Misplaced (L.endColumn s)
  · have hdefine := hyes (hreported.mpr (Or.inr hm))
    refine iff_of_false ?_ (not_not.mpr hm)
    intro hmeets
    have herr := hmeets.error
    rw [if_neg (hm.not_next h), hdefine] at herr
    exact absurd herr (by simp [DirState.error])
  · refine iff_of_true ?_ hm
    by_cases hr : L.Reported (L.endColumn s)
    · have hnext := (hreported.mp hr).resolve_right hm
      constructor
      · exact ⟨body, by rw [hyes hr], hbody⟩
      · exact ⟨rfl, by rw [hyes hr]; rfl, lineRest_line h.ends⟩
      · rw [hyes hr, if_pos hnext]
        rfl
    · have hnext : L.tail.head? ≠ some '(' := fun hc => hr (hreported.mpr (Or.inl hc))
      constructor
      · exact ⟨body, by rw [hno hr], hbody⟩
      · exact ⟨rfl, by rw [hno hr], lineRest_line h.ends⟩
      · rw [hno hr, if_neg hnext, List.append_nil]

/-! ### Lines with a parenthesis -/

/-- A token that is spelled out is read on its line. -/
theorem reads_spelled (E : ScanEnv) (t : Spelled) {c : Char} {cs r : List Char}
    (ht : t.text = c :: cs) (hline : '\n' ∉ t.text) (hr : Ends r) :
    Word.Reads E ⟨c, cs, t.shape⟩ r := by
  have htoken := fun s : Scanner => Scanner.token_text E t s hr
  constructor
  · rcases htoken ⟨[], {}⟩ with ⟨d, ds, heq, hstart, -⟩
    rw [ht, List.cons_append, List.cons.injEq] at heq
    rwa [← heq.1, ← heq.2] at hstart
  · intro s _
    rcases htoken s with ⟨d, ds, heq, -, hlex⟩
    rw [ht, List.cons_append, List.cons.injEq] at heq
    rw [← heq.1, ← heq.2] at hlex
    exact hlex
  · rw [ht] at hline
    exact hline

/-- `AB`, some pieces and a parenthesis. -/
def paren (gs : List Gap) : DefineLine where
  lead := [.blank ' ' rfl]
  name := ['A', 'B']
  words := [(gs, ⟨'(', [], .ofPunct .lParen⟩)]
  trail := []
  after := ['\n']

theorem paren_ok (E : ScanEnv) (gs : List Gap)
    (hgs : ∀ c ∈ (gapsText gs ++ ['(', '\n']).head?, isIdChar c = false) : (paren gs).Ok E where
  apart := by
    intro c hc
    have hc : ' ' = c := Option.some.inj hc
    rw [← hc]
    rfl
  name := rfl
  name_end := by
    have htail : (paren gs).tail = gapsText gs ++ ['(', '\n'] := by
      unfold tail paren
      simp [Words.text, Word.text, gapsText]
    rw [htail]
    exact hgs
  words := by
    have hends : Ends ['\n'] := by
      intro c hc
      have hc : '\n' = c := Option.some.inj hc
      rw [← hc]
      decide
    exact ⟨reads_spelled E (.punct .lParen (by decide)) rfl (by decide) hends, trivial⟩
  ends := Or.inr (Or.inl ⟨[], rfl⟩)

/-- `#define AB (`: the parenthesis is not next to the name, and no error is reported. -/
theorem meets_iff_blank :
    ∃ s', Scanner.handleDirective .bare (2 + (paren [.blank ' ' rfl]).turns)
        (Scanner.fromBuffer ("define".toList ++ (paren [.blank ' ' rfl]).text) "f") = some s' ∧
      (paren [.blank ' ' rfl]).Meets
        (Scanner.fromBuffer ("define".toList ++ (paren [.blank ' ' rfl]).text) "f") s' := by
  have hok : (paren [.blank ' ' rfl]).Ok .bare := by
    apply paren_ok
    intro c hc
    have hc : ' ' = c := Option.some.inj hc
    rw [← hc]
    rfl
  rcases meets_iff hok (s := Scanner.fromBuffer _ "f") (List.cons_ne_nil _ _) rfl rfl 0 with
    ⟨s', hrun, hiff⟩
  refine ⟨s', hrun, hiff.mpr ?_⟩
  rintro ⟨gs, w, ws, hw, -, ⟨g, hg, hsplice⟩, -⟩
  cases hw
  rw [List.mem_singleton.mp hg] at hsplice
  exact hsplice

/-- `AB`, a splice and blanks up to the column in which `AB` ended: the parenthesis behind
them is reported. -/
theorem misplaced_not_meets :
    let L := paren (.splice :: List.replicate 10 (.blank ' ' rfl))
    let s := (Scanner.fromBuffer ("#define".toList ++ L.text) "f").moveTo
      ("define".toList ++ L.text)
    L.Ok .bare ∧ ∃ s', Scanner.handleDirective .bare 20 s = some s' ∧ ¬ L.Meets s s' := by
  intro L s
  have hok : L.Ok .bare := by
    apply paren_ok
    intro c hc
    have hc : '\\' = c := Option.some.inj hc
    rw [← hc]
    rfl
  refine ⟨hok, ?_⟩
  have hrun : (Scanner.handleDirective .bare 20 s).isSome = true := by decide
  have herr : ∀ s' ∈ Scanner.handleDirective .bare 20 s, s'.dirs.errors ≠ [] := by
    decide
  rcases Option.isSome_iff_exists.mp hrun with ⟨s', hs'⟩
  refine ⟨s', hs', ?_⟩
  intro hmeets
  have hempty := hmeets.error
  have hnext : ¬ L.tail.head? = some '(' := by decide
  rw [if_neg hnext] at hempty
  exact herr s' hs' hempty

end DefineLine

end Hlang.Lexer
