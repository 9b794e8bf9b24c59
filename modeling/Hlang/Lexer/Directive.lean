import Hlang.Lexer.Macro

/-!
# Hlang.Lexer.Directive — preprocessor directives and conditional inclusion

`Lexer::handleDirective`, over the lines of the source: a directive with its
name and the tokens of its line, or an ordinary line. The stack `conds_` has
three flags for each open conditional. Below it stands what the flags are for:
a stack that keeps, for each conditional, what its condition selects and how
many `#else` have been seen (`Region`). The two agree along every sequence of
lines.
-/

namespace Hlang.Lexer

/-! ## The state machine -/

/-- A line of the source, as `rawNext` meets it. -/
inductive Line where
  /-- a directive: its position, its name, and the tokens of its line -/
  | directive (loc : SrcLoc) (name : String) (toks : List Token)
  | ordinary (toks : List Token)

/-- `Lexer::Cond`. -/
structure Cond where
  active : Bool
  taken : Bool
  elseSeen : Bool

/-- What directives read from outside the lexer's tables: the mode, the value of
a condition with the errors its evaluation reports, whether an include file can
be opened, and the errors of an `#exe` block. -/
structure DirEnv where
  jitMode : Bool
  evalCondExpr : MacroTable → List Token → SrcLoc → I64 × List (SrcLoc × String)
  openInclude : String → Bool
  handleExeBlock : SrcLoc → List (SrcLoc × String)

/-- The part of the lexer that directives work on, with what it has delivered
and which conditions it has evaluated so far. -/
structure DirState where
  /-- `conds_`, the innermost conditional first -/
  conds : List Cond := []
  macros : MacroTable := []
  errors : List (SrcLoc × String) := []
  /-- the `#assert`s that failed -/
  warnings : List SrcLoc := []
  /-- the token lists `evalCondExpr` was called with -/
  evals : List (List Token) := []
  /-- the ordinary lines that were not skipped -/
  out : List (List Token) := []

/-- `macros_[n] = body`. -/
def MacroTable.define (M : MacroTable) (n : String) (body : List Token) : MacroTable :=
  (n, body) :: M.filter (·.1 ≠ n)

/-- `macros_.erase(n)`. -/
def MacroTable.undef (M : MacroTable) (n : String) : MacroTable := M.filter (·.1 ≠ n)

namespace DirState

/-- `error`. -/
def error (s : DirState) (loc : SrcLoc) (msg : String) : DirState :=
  { s with errors := s.errors ++ [(loc, msg)] }

/-- `conds_.push_back`. -/
def pushCond (s : DirState) (c : Cond) : DirState := { s with conds := c :: s.conds }

/-- `skippingConds`. -/
def skippingConds (s : DirState) : Bool := s.conds.any fun c => !c.active

/-- A call of `evalCondExpr`. -/
def evalCond (E : DirEnv) (s : DirState) (toks : List Token) (loc : SrcLoc) : I64 × DirState :=
  let (v, errs) := E.evalCondExpr s.macros toks loc
  (v, { s with errors := s.errors ++ errs, evals := s.evals ++ [toks] })

end DirState

/-- The line is one identifier. -/
def singleIdent : List Token → Option String
  | [t] => if t.kind = .ident then some t.text else none
  | _ => none

section Handlers

variable (E : DirEnv) (loc : SrcLoc) (name : String) (toks : List Token) (s : DirState)

/-- `#ifdef` and `#ifndef`. -/
def handleIfdef : DirState :=
  let skipping := s.skippingConds
  let (val, s) : Bool × DirState :=
    match singleIdent toks with
    | some n => ((s.macros.find n).isSome, s)
    | none =>
        (false, if skipping then s
          else s.error loc ("#" ++ name ++ " expects a single identifier"))
  let val := if name = "ifndef" then !val else val
  s.pushCond ⟨if skipping then false else val, if skipping then true else val, false⟩

/-- `#if`. -/
def handleIf : DirState :=
  if s.skippingConds then s.pushCond ⟨false, false, false⟩
  else
    let (v, s) := s.evalCond E toks loc
    let val := decide (v ≠ 0)
    s.pushCond ⟨val, val, false⟩

/-- `#ifaot` and `#ifjit`. -/
def handleIfMode : DirState :=
  let val := decide (name = "ifjit") == E.jitMode
  let val := if s.skippingConds then false else val
  s.pushCond ⟨val, val, false⟩

/-- `#else`. -/
def handleElse : DirState :=
  match s.conds with
  | [] => s.error loc "#else without #if"
  | c :: outer =>
      let s := if c.elseSeen then s.error loc "duplicate #else" else s
      let outerActive := outer.all (·.active)
      { s with conds := ⟨outerActive && !c.taken, true, true⟩ :: outer }

/-- `#endif`. -/
def handleEndif : DirState :=
  match s.conds with
  | [] => s.error loc "#endif without #if"
  | _ :: outer => { s with conds := outer }

/-- `#define`; the name of a macro with a `(` next to it is defined all the same. -/
def handleDefine : DirState :=
  match toks with
  | [] => s.error loc "#define expects an identifier"
  | t :: body =>
      if t.kind ≠ .ident then s.error loc "#define expects an identifier"
      else
        let s : DirState :=
          match body with
          | p :: _ =>
              if p.kind = .punct ∧ p.punct = P.lParen ∧ p.loc.col = t.loc.col + t.text.length then
                s.error loc "no #define functions exist in HolyC"
              else s
          | [] => s
        { s with macros := s.macros.define t.text body }

/-- `#undef`. -/
def handleUndef : DirState :=
  match singleIdent toks with
  | some n => { s with macros := s.macros.undef n }
  | none => s.error loc "#undef expects a single identifier"

/-- `#include`. The lines of the file come next. -/
def handleInclude : DirState :=
  match toks with
  | [t] =>
      if t.kind = .strLit then
        if E.openInclude t.text then s
        else s.error loc ("cannot open include file \"" ++ t.text ++ "\"")
      else s.error loc "#include expects a \"filename\" (no <> form in HolyC)"
  | _ => s.error loc "#include expects a \"filename\" (no <> form in HolyC)"

/-- `#assert`. -/
def handleAssert : DirState :=
  let (v, s) := s.evalCond E toks loc
  if v = 0 then { s with warnings := s.warnings ++ [loc] } else s

/-- The directives that are inert in skipped regions. -/
def handleInert : DirState :=
  if name = "define" then handleDefine loc toks s
  else if name = "undef" then handleUndef loc toks s
  else if name = "include" then handleInclude E loc toks s
  else if name = "assert" then handleAssert E loc toks s
  else if name = "help_index" || name = "help_file" then s
  else if name = "exe" then { s with errors := s.errors ++ E.handleExeBlock loc }
  else s.error loc ("unknown directive #" ++ name)

/-- `handleDirective`. -/
def handleDirective : DirState :=
  if name = "ifdef" || name = "ifndef" then handleIfdef loc name toks s
  else if name = "if" then handleIf E loc toks s
  else if name = "ifaot" || name = "ifjit" then handleIfMode E name s
  else if name = "else" then handleElse loc s
  else if name = "endif" then handleEndif loc s
  else if s.skippingConds then s
  else handleInert E loc name toks s

end Handlers

/-- One line. -/
def DirState.line (E : DirEnv) (s : DirState) : Line → DirState
  | .directive loc name toks => handleDirective E loc name toks s
  | .ordinary toks => if s.skippingConds then s else { s with out := s.out ++ [toks] }

/-! ## What the stack is for -/

/-- An open conditional: the value of its condition, if it was evaluated, and the
number of `#else` seen so far. -/
structure Open where
  cond : Option Bool
  elses : Nat := 0

/-- The current line lies in the branch that the condition selects. -/
def Open.Selected (o : Open) : Prop :=
  (o.cond = some true ∧ o.elses = 0) ∨ (o.cond = some false ∧ o.elses = 1)

instance (o : Open) : Decidable o.Selected := inferInstanceAs (Decidable (_ ∨ _))

/-- The conditionals around a line, and what active directives have done. -/
structure Region where
  opens : List Open := []
  macros : MacroTable := []
  evals : List (List Token) := []
  out : List (List Token) := []

/-- The line lies in the selected branch of every conditional around it. -/
def Region.Active (r : Region) : Prop := ∀ o ∈ r.opens, o.Selected

instance (r : Region) : Decidable r.Active := inferInstanceAs (Decidable (∀ o ∈ r.opens, _))

/-- The tokens name one macro that is defined. -/
def namesMacro (M : MacroTable) (toks : List Token) : Bool :=
  (singleIdent toks).any fun n => (M.find n).isSome

/-- The value of the condition of an opening directive; `none` for any other
directive. -/
def openingCond (E : DirEnv) (M : MacroTable) (loc : SrcLoc) (toks : List Token) :
    String → Option Bool
  | "ifdef" => some (namesMacro M toks)
  | "ifndef" => some (!namesMacro M toks)
  | "if" => some (decide ((E.evalCondExpr M toks loc).1 ≠ 0))
  | "ifjit" => some E.jitMode
  | "ifaot" => some (!E.jitMode)
  | _ => none

/-- The macro table after a directive in an active region. -/
def definesMacro (M : MacroTable) (toks : List Token) : String → MacroTable
  | "define" =>
      match toks with
      | t :: body => if t.kind = .ident then M.define t.text body else M
      | [] => M
  | "undef" => (singleIdent toks).elim M M.undef
  | _ => M

/-- The directive evaluates its condition. -/
def evaluates (name : String) : Bool := name = "if" || name = "assert"

/-- One line. Conditions are evaluated, macros defined and lines delivered in an
active region only. -/
def Region.line (E : DirEnv) (r : Region) : Line → Region
  | .ordinary toks => if r.Active then { r with out := r.out ++ [toks] } else r
  | .directive loc name toks =>
      let r' := if r.Active ∧ evaluates name then { r with evals := r.evals ++ [toks] } else r
      match openingCond E r.macros loc toks name with
      | some v => { r' with opens := ⟨if r.Active then some v else none, 0⟩ :: r.opens }
      | none =>
          if name = "else" then
            match r.opens with
            | [] => r'
            | o :: outer => { r' with opens := { o with elses := o.elses + 1 } :: outer }
          else if name = "endif" then { r' with opens := r.opens.tail }
          else if r.Active then { r' with macros := definesMacro r.macros toks name }
          else r'

/-! ## The flags and what they are for -/

/-- The flags of a conditional whose surroundings are active or not. -/
structure CondRel (outer : Bool) (c : Cond) (o : Open) : Prop where
  elseSeen : c.elseSeen = decide (0 < o.elses)
  selected : outer = true → ∃ v, o.cond = some v ∧ c.active = decide o.Selected ∧
    c.taken = (v || decide (0 < o.elses))
  unselected : outer = false → o.cond = none ∧ c.active = false

/-- All conditionals of the stack are active. -/
def allActive (cs : List Cond) : Bool := cs.all (·.active)

/-- The stacks agree, from the innermost conditional outwards. -/
def StackRel : List Cond → List Open → Prop
  | [], [] => True
  | c :: cs, o :: os => CondRel (allActive cs) c o ∧ StackRel cs os
  | _, _ => False

theorem allActive_iff {cs : List Cond} {os : List Open} (h : StackRel cs os) :
    allActive cs = true ↔ ∀ o ∈ os, o.Selected := by
  induction cs generalizing os with
  | nil =>
      cases os with
      | nil => simp [allActive]
      | cons o os => exact h.elim
  | cons c cs ih =>
      cases os with
      | nil => exact h.elim
      | cons o os =>
          rcases h with ⟨hc, hs⟩
          have ih := ih hs
          have hcons : allActive (c :: cs) = (c.active && allActive cs) := rfl
          rw [hcons, List.forall_mem_cons, ← ih]
          cases hcs : allActive cs with
          | true =>
              rcases hc.selected hcs with ⟨v, _, hact, _⟩
              simp [hact]
          | false => simp

/-- The state of the lexer and the region around the current line agree. -/
structure Agrees (s : DirState) (r : Region) : Prop where
  stack : StackRel s.conds r.opens
  macros : s.macros = r.macros
  evals : s.evals = r.evals
  out : s.out = r.out

theorem skippingConds_eq (s : DirState) : s.skippingConds = !allActive s.conds := by
  unfold DirState.skippingConds allActive
  rw [← List.not_all_eq_any_not]

/-- `skippingConds` tells whether the line lies in a selected branch throughout. -/
theorem Agrees.skippingConds {s : DirState} {r : Region} (h : Agrees s r) :
    s.skippingConds = !decide r.Active := by
  rw [skippingConds_eq]
  congr 1
  rw [Bool.eq_iff_iff, allActive_iff h.stack]
  exact decide_eq_true_iff.symm

/-- A new conditional: its flags are those of its condition in an active region,
and those of a branch that is not selected elsewhere. -/
theorem Agrees.push {s s' : DirState} {r : Region} (h : Agrees s r) {c : Cond} {v : Bool}
    (hc : s.skippingConds = false → c = ⟨v, v, false⟩)
    (hc' : s.skippingConds = true → c.active = false ∧ c.elseSeen = false)
    (hs' : s'.conds = s.conds) :
    StackRel (s'.pushCond c).conds (⟨if r.Active then some v else none, 0⟩ :: r.opens) := by
  have hskip := h.skippingConds
  have hall := skippingConds_eq s
  change CondRel (allActive s'.conds) c _ ∧ StackRel s'.conds r.opens
  rw [hs']
  refine ⟨?_, h.stack⟩
  by_cases hact : r.Active
  · have hoff : s.skippingConds = false := by
      rw [hskip]
      simp [hact]
    rw [hoff] at hall
    rw [hc hoff, if_pos hact]
    constructor
    · rfl
    · intro _
      refine ⟨v, rfl, ?_, ?_⟩
      · cases v <;> rfl
      · cases v <;> rfl
    · intro hout
      rw [hout] at hall
      cases hall
  · have hon : s.skippingConds = true := by
      rw [hskip]
      simp [hact]
    rw [hon] at hall
    rw [if_neg hact]
    constructor
    · exact (hc' hon).2
    · intro hout
      rw [hout] at hall
      cases hall
    · intro _
      exact ⟨rfl, (hc' hon).1⟩

/-! ## One line -/

section Step

variable {E : DirEnv} {s : DirState} {r : Region}

attribute [local simp] Region.line openingCond evaluates definesMacro

theorem Agrees.error (h : Agrees s r) (loc : SrcLoc) (msg : String) : Agrees (s.error loc msg) r :=
  ⟨h.stack, h.macros, h.evals, h.out⟩

/-- What `#ifdef` and `#ifndef` push, and the state below it: at most an error is
reported. -/
theorem handleIfdef_eq (loc : SrcLoc) (name : String) (toks : List Token) (s : DirState) :
    ∃ s' : DirState, (s' = s ∨ ∃ msg, s' = s.error loc msg) ∧
      handleIfdef loc name toks s =
        let val := if name = "ifndef" then !namesMacro s.macros toks else namesMacro s.macros toks
        s'.pushCond ⟨if s.skippingConds then false else val,
          if s.skippingConds then true else val, false⟩ := by
  unfold handleIfdef namesMacro
  cases hid : singleIdent toks with
  | some n => exact ⟨s, .inl rfl, rfl⟩
  | none =>
      refine ⟨_, ?_, rfl⟩
      split_ifs
      · exact .inl rfl
      · exact .inr ⟨_, rfl⟩

theorem Agrees.ifdef (h : Agrees s r) (loc : SrcLoc) {name : String} (toks : List Token)
    (hname : name = "ifdef" ∨ name = "ifndef") :
    Agrees (handleDirective E loc name toks s) (r.line E (.directive loc name toks)) := by
  rcases handleIfdef_eq loc name toks s with ⟨s', hs', heq⟩
  have hdir : handleDirective E loc name toks s = handleIfdef loc name toks s := by
    unfold handleDirective
    rcases hname with rfl | rfl <;> rfl
  have hkeep : s'.conds = s.conds ∧ s'.macros = s.macros ∧ s'.evals = s.evals ∧
      s'.out = s.out := by
    rcases hs' with rfl | ⟨msg, rfl⟩
    · exact ⟨rfl, rfl, rfl, rfl⟩
    · exact ⟨rfl, rfl, rfl, rfl⟩
  rcases hkeep with ⟨hconds, hmac, hev, hout⟩
  -- the condition, and that nothing is evaluated
  have hline : r.line E (.directive loc name toks) =
      { r with opens :=
          ⟨if r.Active then
            some (if name = "ifndef" then !namesMacro r.macros toks else namesMacro r.macros toks)
            else none, 0⟩ :: r.opens } := by
    rcases hname with rfl | rfl <;> simp
  rw [hdir, heq, hline]
  refine ⟨h.push ?_ ?_ hconds, hmac.trans h.macros, hev.trans h.evals, hout.trans h.out⟩
  · intro hoff
    rw [hoff, h.macros]
    rfl
  · intro hon
    rw [hon]
    exact ⟨rfl, rfl⟩

theorem Agrees.ifCond (h : Agrees s r) (loc : SrcLoc) (toks : List Token) :
    Agrees (handleDirective E loc "if" toks s) (r.line E (.directive loc "if" toks)) := by
  have hdir : handleDirective E loc "if" toks s = handleIf E loc toks s := rfl
  have hskip := h.skippingConds
  rw [hdir]
  unfold handleIf
  by_cases hact : r.Active
  · have hoff : s.skippingConds = false := by
      rw [hskip]
      simp [hact]
    have hline : r.line E (.directive loc "if" toks) =
        { r with
          evals := r.evals ++ [toks]
          opens := ⟨if r.Active then some (decide ((E.evalCondExpr r.macros toks loc).1 ≠ 0))
            else none, 0⟩ :: r.opens } := by
      simp [hact]
    rw [if_neg (by simp [hoff]), hline, ← h.macros]
    refine ⟨h.push ?_ ?_ rfl, rfl, ?_, h.out⟩
    · intro _
      rfl
    · intro hon
      rw [hoff] at hon
      cases hon
    · change s.evals ++ [toks] = _
      rw [h.evals]
  · have hon : s.skippingConds = true := by
      rw [hskip]
      simp [hact]
    have hline : r.line E (.directive loc "if" toks) =
        { r with opens := ⟨if r.Active then some false else none, 0⟩ :: r.opens } := by
      simp [hact]
    rw [if_pos hon, hline]
    refine ⟨h.push ?_ ?_ rfl, h.macros, h.evals, h.out⟩
    · intro _
      rfl
    · intro _
      exact ⟨rfl, rfl⟩

theorem Agrees.ifMode (h : Agrees s r) (loc : SrcLoc) {name : String} (toks : List Token)
    (hname : name = "ifaot" ∨ name = "ifjit") :
    Agrees (handleDirective E loc name toks s) (r.line E (.directive loc name toks)) := by
  have hdir : handleDirective E loc name toks s = handleIfMode E name s := by
    unfold handleDirective
    rcases hname with rfl | rfl <;> rfl
  have hline : r.line E (.directive loc name toks) =
      { r with opens := ⟨if r.Active then some (decide (name = "ifjit") == E.jitMode)
        else none, 0⟩ :: r.opens } := by
    rcases hname with rfl | rfl <;> simp
  rw [hdir, hline]
  refine ⟨h.push ?_ ?_ rfl, h.macros, h.evals, h.out⟩
  · intro hoff
    simp only [hoff]
    rfl
  · intro hon
    simp only [hon, if_true]
    exact ⟨trivial, trivial⟩

theorem Agrees.elseBranch (h : Agrees s r) (loc : SrcLoc) (toks : List Token) :
    Agrees (handleDirective E loc "else" toks s) (r.line E (.directive loc "else" toks)) := by
  have hdir : handleDirective E loc "else" toks s = handleElse loc s := rfl
  rcases h with ⟨hstack, hmac, hev, hout⟩
  rw [hdir]
  unfold handleElse
  cases hc : s.conds with
  | nil =>
      cases ho : r.opens with
      | nil =>
          have hline : r.line E (.directive loc "else" toks) = r := by
            simp [ho]
          rw [hline]
          exact Agrees.error ⟨hstack, hmac, hev, hout⟩ loc _
      | cons o os =>
          rw [hc, ho] at hstack
          exact hstack.elim
  | cons c cs =>
      cases ho : r.opens with
      | nil =>
          rw [hc, ho] at hstack
          exact hstack.elim
      | cons o os =>
          have hline : r.line E (.directive loc "else" toks) =
              { r with opens := { o with elses := o.elses + 1 } :: os } := by
            simp [ho]
          rw [hc, ho] at hstack
          rcases hstack with ⟨hrel, hs⟩
          rw [hline]
          have hcond : CondRel (allActive cs) ⟨allActive cs && !c.taken, true, true⟩
              { o with elses := o.elses + 1 } := by
            constructor
            · simp
            · intro hout
              rcases hrel.selected hout with ⟨v, hv, _, htaken⟩
              refine ⟨v, hv, ?_, ?_⟩
              · rw [hout, htaken]
                cases v <;> cases o.elses <;> simp [Open.Selected, hv]
              · simp
            · intro hout
              refine ⟨(hrel.unselected hout).1, ?_⟩
              rw [hout]
              rfl
          -- a second `#else` is reported as well
          dsimp only
          split_ifs
          · exact ⟨⟨hcond, hs⟩, hmac, hev, hout⟩
          · exact ⟨⟨hcond, hs⟩, hmac, hev, hout⟩

theorem Agrees.closes (h : Agrees s r) (loc : SrcLoc) (toks : List Token) :
    Agrees (handleDirective E loc "endif" toks s) (r.line E (.directive loc "endif" toks)) := by
  have hdir : handleDirective E loc "endif" toks s = handleEndif loc s := rfl
  have hline : r.line E (.directive loc "endif" toks) = { r with opens := r.opens.tail } := by
    simp
  rcases h with ⟨hstack, hmac, hev, hout⟩
  rw [hdir, hline]
  unfold handleEndif
  cases hc : s.conds with
  | nil =>
      cases ho : r.opens with
      | nil => exact ⟨by simp [DirState.error, hc, StackRel], hmac, hev, hout⟩
      | cons o os =>
          rw [hc, ho] at hstack
          exact hstack.elim
  | cons c cs =>
      cases ho : r.opens with
      | nil =>
          rw [hc, ho] at hstack
          exact hstack.elim
      | cons o os =>
          rw [hc, ho] at hstack
          exact ⟨hstack.2, hmac, hev, hout⟩

theorem Agrees.define (h : Agrees s r) (loc : SrcLoc) (toks : List Token) :
    Agrees (handleDefine loc toks s) { r with macros := definesMacro r.macros toks "define" } := by
  rcases h with ⟨hstack, hmac, hev, hout⟩
  rw [← hmac]
  unfold handleDefine definesMacro
  cases toks with
  | nil => exact ⟨hstack, rfl, hev, hout⟩
  | cons t body =>
      by_cases ht : t.kind = .ident
      · simp only [ht, ne_eq, not_true, if_false, if_true]
        -- a body that begins with an adjacent parenthesis is reported as well
        split
        · split_ifs
          · exact ⟨hstack, rfl, hev, hout⟩
          · exact ⟨hstack, rfl, hev, hout⟩
        · exact ⟨hstack, rfl, hev, hout⟩
      · simp only [ht, ne_eq, not_false_iff, if_true, if_false]
        exact ⟨hstack, rfl, hev, hout⟩

theorem Agrees.undef (h : Agrees s r) (loc : SrcLoc) (toks : List Token) :
    Agrees (handleUndef loc toks s) { r with macros := definesMacro r.macros toks "undef" } := by
  rcases h with ⟨hstack, hmac, hev, hout⟩
  rw [← hmac]
  unfold handleUndef definesMacro
  cases singleIdent toks with
  | some n => exact ⟨hstack, rfl, hev, hout⟩
  | none => exact ⟨hstack, rfl, hev, hout⟩

theorem Agrees.assert (h : Agrees s r) (loc : SrcLoc) (toks : List Token) :
    Agrees (handleAssert E loc toks s) { r with evals := r.evals ++ [toks] } := by
  rcases h with ⟨hstack, hmac, hev, hout⟩
  have hev' : s.evals ++ [toks] = r.evals ++ [toks] := by rw [hev]
  unfold handleAssert
  dsimp only
  split_ifs
  · exact ⟨hstack, hmac, hev', hout⟩
  · exact ⟨hstack, hmac, hev', hout⟩

theorem Agrees.includes (h : Agrees s r) (loc : SrcLoc) (toks : List Token) :
    Agrees (handleInclude E loc toks s) r := by
  unfold handleInclude
  split
  · split_ifs
    · exact h
    · exact h.error loc _
    · exact h.error loc _
  · exact h.error loc _

/-- The directives that open, turn or close a conditional. -/
def isConditional (name : String) : Bool :=
  name ∈ ["ifdef", "ifndef", "if", "ifaot", "ifjit", "else", "endif"]

/-- A directive that is inert in skipped regions does, in an active one, to the
macro table what it says. -/
theorem Agrees.inert (h : Agrees s r) (hact : r.Active) (loc : SrcLoc) {name : String}
    (toks : List Token) (hname : isConditional name = false) :
    Agrees (handleInert E loc name toks s) (r.line E (.directive loc name toks)) := by
  by_cases hdef : name = "define"
  · subst hdef
    have hline : r.line E (.directive loc "define" toks) =
        { r with macros := definesMacro r.macros toks "define" } := by
      simp [hact]
    rw [hline]
    exact h.define loc toks
  by_cases hundef : name = "undef"
  · subst hundef
    have hline : r.line E (.directive loc "undef" toks) =
        { r with macros := definesMacro r.macros toks "undef" } := by
      simp [hact]
    rw [hline]
    exact h.undef loc toks
  by_cases hassert : name = "assert"
  · subst hassert
    have hline : r.line E (.directive loc "assert" toks) =
        { r with evals := r.evals ++ [toks] } := by
      simp [hact]
    rw [hline]
    exact h.assert loc toks
  -- any other directive leaves the region as it is
  have hline : r.line E (.directive loc name toks) = r := by
    simp only [isConditional, List.mem_cons, List.not_mem_nil, or_false, decide_eq_false_iff_not,
      not_or] at hname
    rcases hname with ⟨h₁, h₂, h₃, h₄, h₅, h₆, h₇⟩
    simp [h₃, hassert, h₆, h₇, hact]
  rw [hline]
  unfold handleInert
  rw [if_neg hdef, if_neg hundef, if_neg hassert]
  split_ifs
  · exact h.includes loc toks
  · exact h
  · exact ⟨h.stack, h.macros, h.evals, h.out⟩
  · exact h.error loc _

/-- Every line keeps the state of the lexer and the region in agreement. -/
theorem Agrees.line (h : Agrees s r) (l : Line) : Agrees (s.line E l) (r.line E l) := by
  have hskip := h.skippingConds
  cases l with
  | ordinary toks =>
      by_cases hact : r.Active
      · have hout : s.out ++ [toks] = r.out ++ [toks] := by rw [h.out]
        have hs : s.line E (.ordinary toks) = { s with out := s.out ++ [toks] } := by
          simp [DirState.line, hskip, hact]
        have hr : r.line E (.ordinary toks) = { r with out := r.out ++ [toks] } := by
          simp [hact]
        rw [hs, hr]
        exact ⟨h.stack, h.macros, h.evals, hout⟩
      · simpa [DirState.line, hskip, hact] using h
  | directive loc name toks =>
      change Agrees (handleDirective E loc name toks s) _
      by_cases hcond : isConditional name = true
      · simp only [isConditional, List.mem_cons, List.not_mem_nil, or_false,
          decide_eq_true_eq] at hcond
        rcases hcond with hn | hn | rfl | hn | hn | rfl | rfl
        · exact h.ifdef loc toks (.inl hn)
        · exact h.ifdef loc toks (.inr hn)
        · exact h.ifCond loc toks
        · exact h.ifMode loc toks (.inl hn)
        · exact h.ifMode loc toks (.inr hn)
        · exact h.elseBranch loc toks
        · exact h.closes loc toks
      · have hoff : isConditional name = false := Bool.eq_false_iff.mpr hcond
        have hdir : handleDirective E loc name toks s =
            if s.skippingConds then s else handleInert E loc name toks s := by
          simp only [isConditional, List.mem_cons, List.not_mem_nil, or_false,
            decide_eq_false_iff_not, not_or] at hoff
          rcases hoff with ⟨h₁, h₂, h₃, h₄, h₅, h₆, h₇⟩
          simp [handleDirective, h₁, h₂, h₃, h₄, h₅, h₆, h₇]
        rw [hdir]
        by_cases hact : r.Active
        · rw [if_neg (by simp [hskip, hact])]
          exact h.inert hact loc toks hoff
        · rw [if_pos (by simp [hskip, hact])]
          have hline : r.line E (.directive loc name toks) = r := by
            simp only [isConditional, List.mem_cons, List.not_mem_nil, or_false,
              decide_eq_false_iff_not, not_or] at hoff
            rcases hoff with ⟨h₁, h₂, h₃, h₄, h₅, h₆, h₇⟩
            simp [h₃, h₆, h₇, hact]
          rw [hline]
          exact h

end Step

/-! ## Whole runs -/

/-- The state after a sequence of lines. -/
def DirState.after (E : DirEnv) (M : MacroTable) (ls : List Line) : DirState :=
  ls.foldl (DirState.line E) { macros := M }

/-- The region after a sequence of lines. -/
def Region.after (E : DirEnv) (M : MacroTable) (ls : List Line) : Region :=
  ls.foldl (Region.line E) { macros := M }

theorem agrees_after (E : DirEnv) (M : MacroTable) (ls : List Line) :
    Agrees (DirState.after E M ls) (Region.after E M ls) := by
  unfold DirState.after Region.after
  refine List.foldl_rel ⟨trivial, rfl, rfl, rfl⟩ ?_
  intro l _ s r h
  exact h.line l

/-- A stray `#else` or `#endif` reports an error and does nothing else. -/
theorem stray_directive (E : DirEnv) {s : DirState} (h : s.conds = []) (loc : SrcLoc)
    {name : String} (hname : name = "else" ∨ name = "endif") (toks : List Token) :
    handleDirective E loc name toks s = s.error loc ("#" ++ name ++ " without #if") := by
  rcases hname with rfl | rfl
  · change handleElse loc s = _
    unfold handleElse
    rw [h]
    rfl
  · change handleEndif loc s = _
    unfold handleEndif
    rw [h]
    rfl

/-- After any lines: the next ordinary line is delivered exactly when it lies in
the selected branch of every conditional around it; macros have been defined and
conditions evaluated in active regions only; and a stray `#else` or `#endif`
changes nothing but reports an error. -/
theorem conditional_inclusion (E : DirEnv) (M : MacroTable) (ls : List Line) :
    ((DirState.after E M ls).skippingConds = false ↔
      ∀ o ∈ (Region.after E M ls).opens, o.Selected) ∧
    (DirState.after E M ls).macros = (Region.after E M ls).macros ∧
    (DirState.after E M ls).evals = (Region.after E M ls).evals ∧
    (DirState.after E M ls).out = (Region.after E M ls).out ∧
    ((Region.after E M ls).opens = [] → ∀ loc name toks, name = "else" ∨ name = "endif" →
      DirState.after E M (ls ++ [.directive loc name toks]) =
        (DirState.after E M ls).error loc ("#" ++ name ++ " without #if")) := by
  have h := agrees_after E M ls
  refine ⟨?_, h.macros, h.evals, h.out, ?_⟩
  · rw [h.skippingConds, Bool.not_eq_false', decide_eq_true_iff]
    exact Iff.rfl
  · intro hnone loc name toks hname
    have hconds : (DirState.after E M ls).conds = [] := by
      have hstack := h.stack
      rw [hnone] at hstack
      cases hc : (DirState.after E M ls).conds with
      | nil => rfl
      | cons c cs =>
          rw [hc] at hstack
          exact hstack.elim
    have hlast : DirState.after E M (ls ++ [.directive loc name toks]) =
        handleDirective E loc name toks (DirState.after E M ls) := by
      unfold DirState.after
      rw [List.foldl_append]
      rfl
    rw [hlast]
    exact stray_directive E hconds loc hname toks

end Hlang.Lexer
