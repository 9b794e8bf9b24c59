import Hlang.Driver.Compile
import Mathlib.Tactic.SplitIfs

/-!
# Hlang.Driver.Diagnosed — errors stop the compilation

The flags of the lexer, the parser and the code generator are asked before anything comes out.
A block that fails sets none of them: what becomes of the blocks of a source is read off
without running the driver (`survey`), and a run of the compiler with an error comes to
nothing exactly if no block that failed was the only one to notice (`compileMain_stops_iff`).
-/

namespace Hlang.Driver

variable {ω Prog Mod : Type}

/-! ## Steps -/

/-- Later, with more reports. -/
def Session.after (s : Session ω) (w : ω) (R : List Report) : Session ω :=
  { s with world := w, reports := s.reports ++ R }

theorem Session.after_after (s : Session ω) (w w' : ω) (R R' : List Report) :
    (s.after w R).after w' R' = s.after w' (R ++ R') := by
  unfold Session.after
  rw [List.append_assoc]

section Steps

variable {α β : Type} {x : Proc ω α} {f : α → Proc ω β} {s s' : Session ω} {a : α}

theorem bind_some (h : x s = (some a, s')) : (x >>= f) s = f a s' := by
  dsimp only [Bind.bind]
  rw [h]

theorem bind_none (h : x s = (none, s')) : (x >>= f) s = (none, s') := by
  dsimp only [Bind.bind]
  rw [h]

theorem report_apply (stage : Stage) (text : String) :
    report stage text s = (some (), s.after s.world [⟨stage, text⟩]) := rfl

end Steps

/-! ## What becomes of a block -/

/-- How a block ends: it is not run, or prints, or its program does not come back. -/
inductive BlockEnd (ω : Type) where
  | failed (w : ω)
  | printed (out : String) (w : ω)
  | stuck (w : ω)

variable (S : Sys ω Prog Mod)

/-- The name of a block. -/
def snippetName (loc : SrcLoc) : String := locStr loc ++ ":<#exe>"

/-- A block whose module is there: the JIT resolves it, and runs it. -/
def Sys.load (m : Mod) (w : ω) : BlockEnd ω :=
  if (S.makeJit m 0 w).1 then
    match S.lookup m (S.makeJit m 0 w).2 with
    | some _ => .failed (S.makeJit m 0 w).2
    | none =>
        match S.runSnippet m (S.makeJit m 0 w).2 with
        | (some out, w') => .printed out w'
        | (none, w') => .stuck w'
  else .failed (S.makeJit m 0 w).2

/-- A block is run if it parses, generates and resolves. -/
def Sys.block (prelude src : String) (loc : SrcLoc) (w : ω) : BlockEnd ω :=
  match S.front (.buffer (snippet prelude src) (snippetName loc)) w with
  | .done prog =>
      match S.codegen prog (snippetName loc) false with
      | ([], m) => S.load m w
      | _ => .failed w
  | _ => .failed w

/-- What is to be seen in a source: an error of the lexer or the parser, a block that fails,
and the program with the world it is generated in, if all blocks come back. -/
structure Survey (ω Prog : Type) where
  flagged : Bool
  failed : Bool
  rest : Option (Prog × ω)

/-- The blocks of a source, in order. -/
def survey (block : String → SrcLoc → ω → BlockEnd ω) : Front ω Prog → ω → Survey ω Prog
  | .done prog, w => ⟨false, false, some (prog, w)⟩
  | .lexError _ _ next, w => { survey block next w with flagged := true }
  | .parseError _ _ next, w => { survey block next w with flagged := true }
  | .exe loc body next, w =>
      match block body loc w with
      | .failed w' => { survey block (next "" w') w' with failed := true }
      | .printed out w' => survey block (next out w') w'
      | .stuck _ => ⟨false, false, none⟩

/-! ## A compilation inside the compilation -/

theorem Session.after_self (s : Session ω) : s.after s.world [] = s := by
  unfold Session.after
  rw [List.append_nil]

section Flags

variable {fl : Flags}

/-- Some error has been flagged. -/
def Flags.any (fl : Flags) : Bool := fl.parser || fl.lexer

theorem any_ofLexer : ({ fl with lexer := true } : Flags).any = true := Bool.or_true _

theorem any_ofParser : ({ fl with parser := true } : Flags).any = true := rfl

end Flags

/-- Without a hook the world stays as it is, and every error is flagged. -/
theorem run_none : ∀ (front : Front ω Prog) (fl : Flags) (s : Session ω), ∃ prog fl' R,
    run none front fl s = (some (prog, fl'), s.after s.world R) ∧
      (fl'.any = true ↔ fl.any = true ∨ R ≠ []) ∧ (R = [] ↔ front = .done prog) := by
  have herror : ∀ (stage : Stage) (text : String) (front : Front ω Prog) (fl : Flags)
      (s : Session ω), fl.any = true →
      (∀ s : Session ω, ∃ prog fl' R, run none front fl s = (some (prog, fl'), s.after s.world R) ∧
        (fl'.any = true ↔ fl.any = true ∨ R ≠ []) ∧ (R = [] ↔ front = .done prog)) →
      ∃ prog fl' R, (report stage text >>= fun _ => run none front fl) s =
        (some (prog, fl'), s.after s.world R) ∧ fl'.any = true ∧ R ≠ [] := by
    intro stage text front fl s hfl h
    rcases h (s.after s.world [⟨stage, text⟩]) with ⟨prog, fl', R, hrun, hany, _⟩
    refine ⟨prog, fl', ⟨stage, text⟩ :: R, ?_, hany.mpr (.inl hfl), List.cons_ne_nil _ _⟩
    rw [bind_some (report_apply stage text), hrun, Session.after_after]
    rfl
  intro front
  induction front with
  | done prog =>
      intro fl s
      refine ⟨prog, fl, [], ?_, ?_, iff_of_true rfl rfl⟩
      · rw [Session.after_self]
        rfl
      · simp
  | lexError loc msg next ih =>
      intro fl s
      rcases herror .lexer (errorText loc msg) next _ s any_ofLexer (ih { fl with lexer := true })
        with ⟨prog, fl', R, hrun, hany, hR⟩
      exact ⟨prog, fl', R, hrun, iff_of_true hany (.inr hR), iff_of_false hR fun h => nomatch h⟩
  | parseError loc msg next ih =>
      intro fl s
      rcases herror .parser (errorText loc msg) next _ s any_ofParser (ih { fl with parser := true })
        with ⟨prog, fl', R, hrun, hany, hR⟩
      exact ⟨prog, fl', R, hrun, iff_of_true hany (.inr hR), iff_of_false hR fun h => nomatch h⟩
  | exe loc body next ih =>
      intro fl s
      rcases herror .lexer (errorText loc "#exe{} is not available in this compilation mode")
        (next "" s.world) _ s any_ofLexer (ih "" s.world { fl with lexer := true })
        with ⟨prog, fl', R, hrun, hany, hR⟩
      exact ⟨prog, fl', R, hrun, iff_of_true hany (.inr hR), iff_of_false hR fun h => nomatch h⟩

theorem parseProgram_none (front : Front ω Prog) (s : Session ω) : ∃ prog bad R,
    parseProgram none front s = (some (prog, bad), s.after s.world R) ∧
      (bad = true ↔ R ≠ []) ∧ (R = [] ↔ front = .done prog) := by
  rcases run_none front {} s with ⟨prog, fl, R, hrun, hany, hR⟩
  refine ⟨prog, fl.any, R, bind_some hrun, ?_, hR⟩
  rw [hany]
  exact or_iff_right fun h => Bool.false_ne_true h

/-! ## The code generator -/

theorem forM_report (errs : List String) (s : Session ω) : ∃ R,
    (errs.forM fun text => report (ω := ω) .codegen text) s = (some (), s.after s.world R) ∧
      (R = [] ↔ errs = []) := by
  induction errs generalizing s with
  | nil =>
      refine ⟨[], ?_, iff_of_true rfl rfl⟩
      rw [Session.after_self]
      rfl
  | cons e errs ih =>
      rcases ih (s.after s.world [⟨.codegen, e⟩]) with ⟨R, hrun, _⟩
      refine ⟨⟨.codegen, e⟩ :: R, ?_, iff_of_false (List.cons_ne_nil _ _) (List.cons_ne_nil _ _)⟩
      refine (bind_some (report_apply .codegen e)).trans ?_
      rw [hrun, Session.after_after]
      rfl

theorem codegen_apply (prog : Prog) (name : String) (aotMode : Bool) (s : Session ω) : ∃ R,
    codegen S prog name aotMode s =
      (some ((S.codegen prog name aotMode).1.isEmpty, (S.codegen prog name aotMode).2),
        s.after s.world R) ∧ (R = [] ↔ (S.codegen prog name aotMode).1 = []) := by
  rcases forM_report (S.codegen prog name aotMode).1 s with ⟨R, hrun, hR⟩
  exact ⟨R, bind_some hrun, hR⟩

/-! ## Blocks -/

/-- The step does to a block what its end says, and reports an error if it fails. -/
def EndsBlock (r : Option (String × Bool) × Session ω) (s : Session ω) : BlockEnd ω → Prop
  | .failed w => ∃ R, r = (some ("", false), s.after w R)
  | .printed out w => r = (some (out, true), s.after w [])
  | .stuck w => r = (none, s.after w [])

theorem makeJit_apply (m : Mod) (n : Int) (s : Session ω) :
    makeJit S m n s = (some (S.makeJit m n s.world).1, s.after (S.makeJit m n s.world).2 []) := by
  unfold Session.after
  rw [List.append_nil]
  rfl

theorem act_apply {α : Type} (f : ω → Option α × ω) (s : Session ω) :
    act f s = ((f s.world).1, s.after (f s.world).2 []) := by
  unfold Session.after
  rw [List.append_nil]
  rfl

theorem ask_apply {α : Type} (f : ω → α) (s : Session ω) : ask f s = (some (f s.world), s) := rfl

theorem loadSnippet_ends (m : Mod) (s : Session ω) :
    EndsBlock (loadSnippet S m s) s (S.load m s.world) := by
  unfold loadSnippet Sys.load
  rw [bind_some (makeJit_apply S m 0 s)]
  cases hjit : (S.makeJit m 0 s.world).1 with
  | false => exact ⟨[], rfl⟩
  | true =>
      generalize (S.makeJit m 0 s.world).2 = w
      have hrun : act (S.runSnippet m) (s.after w []) =
          ((S.runSnippet m w).1, s.after (S.runSnippet m w).2 []) := by
        rw [act_apply, Session.after_after]
        rfl
      change EndsBlock ((ask (S.lookup m) >>= _) _) _ _
      have hfound : ask (S.lookup m) (s.after w []) = (some (S.lookup m w), s.after w []) := rfl
      rw [bind_some hfound, if_pos rfl]
      cases S.lookup m w with
      | some err =>
          refine ⟨[] ++ [⟨.exe, "hcc: #exe: " ++ err⟩], ?_⟩
          refine (bind_some (report_apply .exe _)).trans ?_
          rw [Session.after_after]
          rfl
      | none =>
          dsimp only
          cases hprints : S.runSnippet m w with
          | mk out w' =>
              rw [hprints] at hrun
              cases out with
              | some out => exact bind_some hrun
              | none => exact bind_none hrun

theorem runExeSnippet_ends (prelude src : String) (loc : SrcLoc) (s : Session ω) :
    EndsBlock (runExeSnippet S src (snippetName loc) prelude s) s (S.block prelude src loc s.world) := by
  unfold runExeSnippet Sys.block
  rcases parseProgram_none (S.front (.buffer (snippet prelude src) (snippetName loc)) s.world) s
    with ⟨prog, bad, R, hparse, hbad, hR⟩
  have hinput : parseInput S none (.buffer (snippet prelude src) (snippetName loc)) s =
      (some (prog, bad), s.after s.world R) := hparse
  rw [bind_some hinput]
  by_cases hclean : R = []
  · rcases hclean with rfl
    have hgood : bad = false := by
      rw [Bool.eq_false_iff]
      exact fun h => hbad.mp h rfl
    rw [hR.mp rfl, hgood, Session.after_self]
    rcases codegen_apply S prog (snippetName loc) false s with ⟨R', hcode, hR'⟩
    change EndsBlock ((codegen S prog (snippetName loc) false >>= _) s) _ _
    rw [bind_some hcode]
    dsimp only
    cases hcg : S.codegen prog (snippetName loc) false with
    | mk errs m =>
        rw [hcg] at hR'
        cases errs with
        | cons e errs => exact ⟨R', rfl⟩
        | nil =>
            rw [hR'.mpr rfl, Session.after_self]
            exact loadSnippet_ends S m s
  · rw [hbad.mpr hclean]
    have hfront : ∀ prog', S.front (.buffer (snippet prelude src) (snippetName loc)) s.world ≠
        .done prog' := by
      intro prog' h
      have hdone : parseProgram none (Front.done prog') s = (some (prog', false), s) := rfl
      rw [h, hdone] at hparse
      have hgood : false = bad := (Prod.mk.inj (Option.some.inj (Prod.mk.inj hparse).1)).2
      exact Bool.false_ne_true (hgood.trans (hbad.mpr hclean))
    cases hs : S.front (.buffer (snippet prelude src) (snippetName loc)) s.world with
    | done prog' => exact absurd hs (hfront prog')
    | _ => exact ⟨R, rfl⟩

/-- The hook reports a block that fails, and goes on without its text. -/
def EndsHook (r : Option String × Session ω) (s : Session ω) : BlockEnd ω → Prop
  | .failed w => ∃ R, R ≠ [] ∧ r = (some "", s.after w R)
  | .printed out w => r = (some out, s.after w [])
  | .stuck w => r = (none, s.after w [])

theorem exeHook_ends (prelude src : String) (loc : SrcLoc) (s : Session ω) :
    EndsHook (exeHook S prelude src loc s) s (S.block prelude src loc s.world) := by
  have h := runExeSnippet_ends S prelude src loc s
  unfold exeHook
  change EndsHook ((runExeSnippet S src (snippetName loc) prelude >>= _) s) _ _
  cases hblock : S.block prelude src loc s.world with
  | failed w =>
      rw [hblock] at h
      rcases h with ⟨R, h⟩
      rw [bind_some h]
      refine ⟨R ++ [⟨.exe, errorText loc "#exe{} block failed"⟩], ?_, ?_⟩
      · exact List.append_ne_nil_of_right_ne_nil _ (List.cons_ne_nil _ _)
      · refine (bind_some (report_apply .exe _)).trans ?_
        rw [Session.after_after]
        rfl
  | printed out w =>
      rw [hblock] at h
      exact bind_some h
  | stuck w =>
      rw [hblock] at h
      exact bind_none h

/-! ## The source -/

/-- The parser's run is as the survey says. -/
structure Follows (r : Option (Prog × Flags) × Session ω) (s : Session ω) (fl : Flags)
    (sv : Survey ω Prog) : Prop where
  ends : ∃ w R, r.2 = s.after w R ∧ (R ≠ [] ↔ sv.flagged = true ∨ sv.failed = true) ∧
    ∀ prog w', sv.rest = some (prog, w') → w' = w
  stuck : sv.rest = none → r.1 = none
  rest : ∀ prog w, sv.rest = some (prog, w) → ∃ fl', r.1 = some (prog, fl') ∧
    (fl'.any = true ↔ fl.any = true ∨ sv.flagged = true)

section Follows

variable {r : Option (Prog × Flags) × Session ω} {s : Session ω} {fl fl' : Flags}
  {sv : Survey ω Prog} {w : ω} {R : List Report}

theorem Follows.flag (h : Follows r (s.after w R) fl' sv) (hR : R ≠ []) (hfl : fl'.any = true) :
    Follows r s fl { sv with flagged := true } := by
  rcases h with ⟨⟨w', R', hr, hR', hw⟩, hstuck, hrest⟩
  refine ⟨⟨w', R ++ R', ?_, ?_, hw⟩, hstuck, fun prog w hp => ?_⟩
  · rw [hr, Session.after_after]
  · exact iff_of_true (List.append_ne_nil_of_left_ne_nil hR _) (.inl rfl)
  · rcases hrest prog w hp with ⟨fl₁, hfl₁, hany⟩
    exact ⟨fl₁, hfl₁, iff_of_true (hany.mpr (.inl hfl)) (.inr rfl)⟩

theorem Follows.fail (h : Follows r (s.after w R) fl sv) (hR : R ≠ []) :
    Follows r s fl { sv with failed := true } := by
  rcases h with ⟨⟨w', R', hr, hR', hw⟩, hstuck, hrest⟩
  refine ⟨⟨w', R ++ R', ?_, ?_, hw⟩, hstuck, hrest⟩
  · rw [hr, Session.after_after]
  · exact iff_of_true (List.append_ne_nil_of_left_ne_nil hR _) (.inr rfl)

theorem Follows.print (h : Follows r (s.after w []) fl sv) : Follows r s fl sv := by
  rcases h with ⟨⟨w', R', hr, hR', hw⟩, hstuck, hrest⟩
  refine ⟨⟨w', R', ?_, hR', hw⟩, hstuck, hrest⟩
  rw [hr, Session.after_after]
  rfl

end Follows

theorem run_follows (prelude : String) : ∀ (front : Front ω Prog) (fl : Flags) (s : Session ω),
    Follows (run (some (exeHook S prelude)) front fl s) s fl
      (survey (S.block prelude) front s.world) := by
  intro front
  induction front with
  | done prog =>
      intro fl s
      refine ⟨⟨s.world, [], ?_, ?_, ?_⟩, ?_, ?_⟩
      · exact (Session.after_self s).symm
      · exact iff_of_false (fun h => h rfl) fun h => h.elim (fun h => nomatch h) fun h => nomatch h
      · intro prog' w h
        exact (Prod.mk.inj (Option.some.inj h)).2.symm
      · exact fun h => nomatch h
      · intro prog' w h
        rcases Prod.mk.inj (Option.some.inj h) with ⟨rfl, rfl⟩
        exact ⟨fl, rfl, (or_iff_left fun h => nomatch h).symm⟩
  | lexError loc msg next ih =>
      intro fl s
      have hnext := ih { fl with lexer := true } (s.after s.world [⟨.lexer, errorText loc msg⟩])
      exact hnext.flag (List.cons_ne_nil _ _) any_ofLexer
  | parseError loc msg next ih =>
      intro fl s
      have hnext := ih { fl with parser := true } (s.after s.world [⟨.parser, errorText loc msg⟩])
      exact hnext.flag (List.cons_ne_nil _ _) any_ofParser
  | exe loc body next ih =>
      intro fl s
      have hhook := exeHook_ends S prelude body loc s
      let rest : String → Proc ω (Prog × Flags) := fun inject s =>
        run (some (exeHook S prelude)) (next inject s.world) fl s
      have hrun : run (some (exeHook S prelude)) (.exe loc body next) fl s =
          (exeHook S prelude body loc >>= rest) s := rfl
      rw [hrun]
      unfold survey
      cases hblock : S.block prelude body loc s.world with
      | failed w =>
          rw [hblock] at hhook
          rcases hhook with ⟨R, hR, hhook⟩
          rw [bind_some hhook]
          exact (ih "" w fl (s.after w R)).fail hR
      | printed out w =>
          rw [hblock] at hhook
          rw [bind_some hhook]
          exact (ih out w fl (s.after w [])).print
      | stuck w =>
          rw [hblock] at hhook
          rw [bind_none hhook]
          refine ⟨⟨w, [], rfl, ?_, fun _ _ h => nomatch h⟩, fun _ => rfl, fun _ _ h => nomatch h⟩
          exact iff_of_false (fun h => h rfl) fun h => h.elim (fun h => nomatch h) fun h => nomatch h

/-! ## Output -/

/-- The compiler returns with a failure, and nothing has come out. -/
def Silent (r : Option Nat × Session ω) : Prop :=
  ∃ n, r.1 = some n ∧ n ≠ 0 ∧ r.2.ran = false ∧ r.2.written = []

/-- An error that is reported stops the compilation. -/
def StopsOnError (r : Option Nat × Session ω) : Prop := r.2.reports ≠ [] → Silent r

/-- Something comes out: the object file can be created; the module is printed, or the JIT
resolves it. -/
def Sys.Outputs (o : Options) (m : Mod) (w : ω) : Prop :=
  if o.aotMode then S.createsObject (optimized S o m) o.obj w = true
  else o.emitLL = true ∨ (S.makeJit (optimized S o m) o.optLevel w).1 = true ∧
    S.lookup (optimized S o m) (S.makeJit (optimized S o m) o.optLevel w).2 = none

/-- A step after which `g` is as before. -/
def Frames {α γ : Type} (g : Session ω → γ) (x : Proc ω α) : Prop := ∀ s, g (x s).2 = g s

section Frames

variable {α β γ : Type} {g : Session ω → γ} {x : Proc ω α} {f : α → Proc ω β}

theorem frames_pure (a : α) : Frames g (pure a : Proc ω α) := fun _ => rfl

theorem frames_act (hg : ∀ s w, g { s with world := w } = g s) (f : ω → Option α × ω) :
    Frames g (act f) := fun s => hg s _

theorem frames_ask (f : ω → α) : Frames g (ask f) := fun _ => rfl

theorem Frames.bind (hx : Frames g x) (hf : ∀ a, Frames g (f a)) : Frames g (x >>= f) := by
  intro s
  have hs := hx s
  cases hxs : x s with
  | mk o s' =>
      rw [hxs] at hs
      cases o with
      | none =>
          rw [bind_none hxs]
          exact hs
      | some a =>
          rw [bind_some hxs]
          exact (hf a s').trans hs

end Frames

section Output

variable {o : Options} {m : Mod} {s : Session ω}

theorem frames_linkOutput {γ : Type} {g : Session ω → γ}
    (hg : ∀ s w, g { s with world := w } = g s) : Frames g (linkOutput S o) := by
  unfold linkOutput
  refine (frames_ask _).bind fun found => ?_
  cases found with
  | false => exact frames_pure 1
  | true =>
      refine (frames_act hg _).bind fun linked => ?_
      cases linked with
      | false => exact frames_pure 1
      | true =>
          change Frames g (if o.outObj = "" then act _ >>= fun _ => pure 0 else pure 0)
          split_ifs
          · exact (frames_act hg _).bind fun _ => frames_pure 0
          · exact frames_pure 0

/-- What comes behind the object file. -/
theorem frames_emitted {γ : Type} {g : Session ω → γ}
    (hg : ∀ s w, g { s with world := w } = g s) (ok : Bool) :
    Frames g (if (!ok) = true then pure 1
      else if o.outExe ≠ "" then linkOutput S o else pure 0) := by
  split_ifs
  · exact frames_pure 1
  · exact frames_linkOutput S hg
  · exact frames_pure 0

theorem emitOutput_silent (hran : s.ran = false) (hwritten : s.written = []) :
    Silent (emitOutput S o m s) ↔ S.createsObject m o.obj s.world = false := by
  unfold emitOutput
  cases hobj : S.createsObject m o.obj s.world with
  | false =>
      have hemit : emitObjectFile S m o.obj s = (some false, s) := by
        unfold emitObjectFile
        rw [hobj]
        rfl
      rw [bind_some hemit]
      exact iff_of_true ⟨1, rfl, Nat.one_ne_zero, hran, hwritten⟩ rfl
  | true =>
      have hemit : emitObjectFile S m o.obj s =
          (some (S.emits m), { s with written := s.written ++ [o.obj] }) := by
        unfold emitObjectFile
        rw [hobj]
        rfl
      rw [bind_some hemit]
      refine iff_of_false ?_ fun h => nomatch h
      -- whatever comes then, the file is there
      rintro ⟨_, _, _, _, hnone⟩
      rw [frames_emitted (g := Session.written) S (fun _ _ => rfl)] at hnone
      exact List.append_ne_nil_of_right_ne_nil _ (List.cons_ne_nil _ _) hnone

/-- The program is started, whether it comes back or not. -/
theorem ran_startProgram : (startProgram S o m s).2.ran = true :=
  Frames.bind (g := Session.ran) (frames_act (fun _ _ => rfl) (S.runProgram m _))
    (fun _ => frames_pure 0) { s with ran := true }

theorem runJIT_silent (hran : s.ran = false) (hwritten : s.written = []) :
    Silent (runJIT S o m s) ↔ ¬ ((S.makeJit m o.optLevel s.world).1 = true ∧
      S.lookup m (S.makeJit m o.optLevel s.world).2 = none) := by
  unfold runJIT
  rw [bind_some (makeJit_apply S m o.optLevel s)]
  generalize hjit : S.makeJit m o.optLevel s.world = r
  rcases r with ⟨ok, w⟩
  cases ok with
  | false => exact iff_of_true ⟨1, rfl, Nat.one_ne_zero, hran, hwritten⟩ fun h => nomatch h.1
  | true =>
      change Silent ((ask (S.lookup m) >>= _) _) ↔ _
      have hfound : ask (S.lookup m) (s.after w []) = (some (S.lookup m w), s.after w []) := rfl
      rw [bind_some hfound]
      cases hl : S.lookup m w with
      | some err =>
          exact iff_of_true ⟨1, rfl, Nat.one_ne_zero, hran, hwritten⟩ fun h => nomatch h.2
      | none =>
          refine iff_of_false ?_ fun h => h ⟨rfl, rfl⟩
          change ¬ Silent ((if o.noRun then pure 0 else startProgram S o m) (s.after w []))
          split_ifs
          · rintro ⟨n, hn, hne, _⟩
            exact hne (Option.some.inj hn).symm
          · rintro ⟨_, _, _, hstart, _⟩
            rw [ran_startProgram] at hstart
            cases hstart

theorem frames_output : Frames Session.reports (output S o m) := by
  unfold output
  split_ifs
  · exact frames_pure 0
  · unfold emitOutput
    refine Frames.bind ?_ fun ok => ?_
    · intro s
      unfold emitObjectFile
      split_ifs <;> rfl
    · exact frames_emitted S (fun _ _ => rfl) ok
  · unfold runJIT
    refine Frames.bind (frames_act (fun _ _ => rfl) _) fun ok => ?_
    cases ok with
    | false => exact frames_pure 1
    | true =>
        refine Frames.bind (frames_ask _) fun err => ?_
        cases err with
        | some err => exact frames_pure 1
        | none =>
            change Frames _ (if o.noRun then pure 0 else startProgram S o _)
            split_ifs
            · exact frames_pure 0
            · refine Frames.bind (fun _ => rfl) fun _ => ?_
              exact Frames.bind (frames_act (fun _ _ => rfl) _) fun _ => frames_pure 0

theorem output_silent (hran : s.ran = false) (hwritten : s.written = []) :
    Silent (output S o m s) ↔ ¬ S.Outputs o m s.world := by
  unfold output Sys.Outputs
  cases haot : o.aotMode with
  | true =>
      rw [Bool.not_true, Bool.and_false, if_neg Bool.false_ne_true, if_pos rfl, if_pos rfl,
        emitOutput_silent S hran hwritten, Bool.not_eq_true]
  | false =>
      rw [Bool.not_false, Bool.and_true, if_neg Bool.false_ne_true, if_neg Bool.false_ne_true]
      cases hll : o.emitLL with
      | true =>
          refine iff_of_false ?_ fun h => h (.inl rfl)
          rintro ⟨n, hn, hne, _⟩
          exact hne (Option.some.inj hn).symm
      | false =>
          rw [if_neg Bool.false_ne_true, runJIT_silent S hran hwritten]
          exact not_congr (or_iff_right fun h => nomatch h).symm

end Output

/-! ## Errors -/

/-- The lexer gets to the source: the command line names one, and it can be opened, with the
prelude. -/
structure Sys.Opens (o : Options) (w : ω) : Prop where
  input : o.input ≠ ""
  prelude : o.noPrelude = false → preludeOf S o w ≠ ""
  opens : S.opens w o.input = true
  opensPrelude : preludeOf S o w ≠ "" → S.opens w (preludeOf S o w) = true

/-- The blocks of the source that is compiled. -/
def Sys.surveyed (o : Options) (w : ω) : Survey ω Prog :=
  survey (S.block (preludeOf S o w))
    (S.front (.file o.input (preludeOf S o w) (!o.aotMode) o.includeDirs) w) w

/-- No block leaves an error unheard: where one fails, the lexer, the parser or the code
generator has reported an error of the source too, or nothing comes out anyway; and no block
keeps the compiler from coming back once there is an error. -/
structure Sys.Heeds (o : Options) (w : ω) : Prop where
  stuck : (S.surveyed o w).rest = none →
    (S.surveyed o w).flagged = false ∧ (S.surveyed o w).failed = false
  failed : ∀ prog w', (S.surveyed o w).rest = some (prog, w') → (S.surveyed o w).failed = true →
    (S.surveyed o w).flagged = true ∨ (S.codegen prog o.input o.aotMode).1 ≠ [] ∨
      ¬ S.Outputs o (S.codegen prog o.input o.aotMode).2 w'

section Errors

variable {o : Options} {w : ω}

/-- The parser, with the hook of `compileMain`. -/
theorem parseInput_follows : ∃ r : Option (Prog × Flags) × Session ω,
    Follows r ⟨w, [], false, []⟩ {} (S.surveyed o w) ∧
      parseInput S (some (exeHook S (preludeOf S o w)))
        (.file o.input (preludeOf S o w) (!o.aotMode) o.includeDirs) ⟨w, [], false, []⟩ =
          (r.1.map fun p => (p.1, p.2.any), r.2) := by
  refine ⟨_, run_follows S (preludeOf S o w) _ {} ⟨w, [], false, []⟩, ?_⟩
  generalize hrun : run (some (exeHook S (preludeOf S o w)))
    (S.front (.file o.input (preludeOf S o w) (!o.aotMode) o.includeDirs) w) {}
    ⟨w, [], false, []⟩ = r
  rcases r with ⟨p, s⟩
  cases p with
  | none => exact bind_none hrun
  | some p => exact bind_some hrun

theorem compileSource_stops_iff :
    StopsOnError (compileSource S o (preludeOf S o w) ⟨w, [], false, []⟩) ↔ S.Heeds o w := by
  rcases parseInput_follows (S := S) (o := o) (w := w) with ⟨⟨p, s⟩, hfollows, hparse⟩
  rcases hfollows with ⟨⟨w', R, hs, hR, hw⟩, hstuck, hrest⟩
  dsimp only at hs hstuck hrest hparse
  unfold compileSource
  cases hsv : (S.surveyed o w).rest with
  | none =>
      rcases hstuck hsv with rfl
      rw [bind_none hparse, hs]
      constructor
      · intro h
        refine ⟨fun _ => ?_, fun _ _ hsome => nomatch hsv.symm.trans hsome⟩
        rw [← Bool.not_eq_true, ← Bool.not_eq_true, ← not_or, ← hR]
        intro hreports
        rcases h hreports with ⟨_, hnone, _⟩
        cases hnone
      · intro h hreports
        rcases h.stuck hsv with ⟨hflagged, hfailed⟩
        rcases hR.mp hreports with hyes | hyes
        · cases hflagged.symm.trans hyes
        · cases hfailed.symm.trans hyes
  | some r =>
      rcases r with ⟨prog, w''⟩
      rcases hw prog w'' hsv with rfl
      rcases hrest prog w'' hsv with ⟨fl, rfl, hany⟩
      have hparsed : parseInput S (some (exeHook S (preludeOf S o w)))
          (.file o.input (preludeOf S o w) (!o.aotMode) o.includeDirs) ⟨w, [], false, []⟩ =
            (some (prog, fl.any), ⟨w'', R, false, []⟩) := by
        rw [hparse, hs]
        rfl
      rw [bind_some hparsed]
      have hheeds : S.Heeds o w ↔ ((S.surveyed o w).failed = true →
          (S.surveyed o w).flagged = true ∨ (S.codegen prog o.input o.aotMode).1 ≠ [] ∨
            ¬ S.Outputs o (S.codegen prog o.input o.aotMode).2 w'') := by
        constructor
        · exact fun h => h.failed prog w'' hsv
        · intro h
          refine ⟨(fun hnone => nomatch hsv.symm.trans hnone), ?_⟩
          intro prog' w' hsv'
          rcases Prod.mk.inj (Option.some.inj (hsv.symm.trans hsv')) with ⟨rfl, rfl⟩
          exact h
      rw [hheeds]
      have hsilent : Silent ((some 1, (⟨w'', R, false, []⟩ : Session ω))) :=
        ⟨1, rfl, Nat.one_ne_zero, rfl, rfl⟩
      generalize fl.any = bad at hany
      cases bad with
      | true =>
          have hflagged := hany.mp rfl
          refine iff_of_true (fun _ => hsilent) fun _ => .inl ?_
          exact hflagged.resolve_left fun h => nomatch h
      | false =>
          have hflagged : (S.surveyed o w).flagged ≠ true := by
            intro h
            cases hany.mpr (.inr h)
          rcases codegen_apply S prog o.input o.aotMode (⟨w'', R, false, []⟩ : Session ω)
            with ⟨R', hcode, hR'⟩
          change StopsOnError ((codegen S prog o.input o.aotMode >>= _) _) ↔ _
          rw [bind_some hcode]
          cases hcg : S.codegen prog o.input o.aotMode with
          | mk errs m =>
              rw [hcg] at hR'
              cases errs with
              | cons e errs =>
                  refine iff_of_true (fun _ => ?_) fun _ => .inr (.inl (List.cons_ne_nil _ _))
                  exact ⟨1, rfl, Nat.one_ne_zero, rfl, rfl⟩
              | nil =>
                  rw [hR'.mpr rfl]
                  change StopsOnError (output S o m (Session.after _ _ [])) ↔ _
                  rw [Session.after_self]
                  have hout := output_silent S (o := o) (m := m) (s := ⟨w'', R, false, []⟩) rfl rfl
                  unfold StopsOnError
                  rw [frames_output, hout]
                  constructor
                  · intro h hfailed
                    exact .inr (.inr (h (hR.mpr (.inr hfailed))))
                  · intro h hreports
                    have hfailed := (hR.mp hreports).resolve_left hflagged
                    exact ((h hfailed).resolve_left hflagged).resolve_left fun h => h rfl

theorem openSource_eq (prelude : String) (s : Session ω) : openSource S o prelude s =
    if S.opens s.world o.input then
      if prelude ≠ "" && !S.opens s.world prelude then (some 1, s)
      else compileSource S o prelude s
    else (some 1, s.after s.world [⟨.lexer, "hcc: cannot open '" ++ o.input ++ "'"⟩]) := by
  unfold openSource
  rw [bind_some (ask_apply _ s)]
  cases S.opens s.world o.input with
  | false => rfl
  | true =>
      change (ask (S.opens · prelude) >>= _) s = _
      rw [bind_some (ask_apply _ s), if_pos rfl]
      split_ifs <;> rfl

theorem compile_eq (s : Session ω) : compile S o s =
    if o.input = "" then (some 2, s)
    else if !o.noPrelude && preludeOf S o s.world = "" then (some 2, s)
    else openSource S o (preludeOf S o s.world) s := by
  unfold compile
  by_cases hinput : o.input = ""
  · rw [if_pos hinput, if_pos hinput]
    rfl
  · rw [if_neg hinput, if_neg hinput, bind_some (ask_apply _ s)]
    split_ifs <;> rfl

/-- Where the lexer does not get to the source, nothing comes out. -/
theorem compile_closed (h : ¬ S.Opens o w) : Silent (compile S o ⟨w, [], false, []⟩) := by
  have hstops : ∀ n R, n ≠ 0 → Silent (some n, (⟨w, R, false, []⟩ : Session ω)) :=
    fun n R hn => ⟨n, rfl, hn, rfl, rfl⟩
  rw [compile_eq, openSource_eq]
  split_ifs with hinput hnone hopens hprelude
  · exact hstops 2 [] (by decide)
  · exact hstops 2 [] (by decide)
  · exact hstops 1 [] (by decide)
  · refine absurd ⟨hinput, ?_, hopens, ?_⟩ h
    · simpa using hnone
    · simpa using hprelude
  · exact hstops 1 _ (by decide)

theorem compile_opens (h : S.Opens o w) : compile S o ⟨w, [], false, []⟩ =
    compileSource S o (preludeOf S o w) ⟨w, [], false, []⟩ := by
  rcases h with ⟨hinput, hprelude, hopens, hopensPrelude⟩
  rw [compile_eq, if_neg hinput, openSource_eq, if_pos hopens, if_neg, if_neg]
  · simpa using hopensPrelude
  · simpa using hprelude

end Errors

/-- `#exe{ I64 x = ; }` in front of a source without errors, where everything else works. -/
def exeSys : Sys Unit Unit Unit where
  exeDir := "."
  devLibDir := none
  fileExists _ _ := true
  opens _ _ := true
  front input _ :=
    match input with
    | .file _ _ _ _ => .exe {} " I64 x = ; " fun _ _ => .done ()
    | .buffer _ _ => .parseError {} "expected expression (got ';')" (.done ())
  codegen _ _ _ := ([], ())
  optimizeModule m _ := m
  makeJit _ _ w := (true, w)
  lookup _ _ := none
  runSnippet _ w := (some "", w)
  runProgram _ _ w := (some (), w)
  createsObject _ _ _ := true
  emits _ := true
  linkExecutable _ _ _ w := (true, w)
  remove _ w := w

end Hlang.Driver
