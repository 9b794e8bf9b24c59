import Hlang.Token
import Mathlib.Data.List.Basic
import Mathlib.Tactic.Common

/-!
# Hlang.Lexer.Macro — object-like macro expansion

`Lexer::next` hands out one token at a time. A macro identifier is expanded in
two stages: `Lexer::expandOrReturn` walks the body eagerly, guarded by the set
`expanding_` of the macros being opened, then returns the first token of the
result and queues the others in `pending_`. A queued token goes through
`expandOrReturn` again, when the guard set is empty.

What the two stages are meant to compute, and when they do, is in
`Hlang.Lexer.Expansion`.
-/

namespace Hlang.Lexer

/-! ## The macro table -/

/-- `Lexer::macros_`: the body of every macro, under its name. -/
abbrev MacroTable := List (String × List Token)

namespace MacroTable

/-- `macros_.find(n)`. -/
def find (M : MacroTable) (n : String) : Option (List Token) := M.lookup n

/-- The macros that are not in the guard set `g`. -/
def unopened (M : MacroTable) (g : List String) : List String :=
  (M.map Prod.fst).filter (· ∉ g)

theorem mem_names_of_find {M : MacroTable} {n : String} {body : List Token}
    (h : M.find n = some body) : n ∈ M.map Prod.fst := by
  induction M with
  | nil => simp [find] at h
  | cons p M ih =>
      rcases p with ⟨m, b⟩
      by_cases hm : n = m
      · simp [hm]
      · have hmb : (n == m) = false := by simpa using hm
        simp only [find, List.lookup_cons, hmb] at h
        exact List.mem_cons_of_mem _ (ih h)

/-- A body that `find` returns stands in the table. -/
theorem mem_of_find {M : MacroTable} {n : String} {body : List Token}
    (h : M.find n = some body) : ∃ m, (m, body) ∈ M := by
  induction M with
  | nil => simp [find] at h
  | cons p M ih =>
      rcases p with ⟨m, b⟩
      by_cases hm : n = m
      · subst hm
        simp only [find, List.lookup_cons_self, Option.some.injEq] at h
        exact ⟨n, by simp [h]⟩
      · have hmb : (n == m) = false := by simpa using hm
        simp only [find, List.lookup_cons, hmb] at h
        rcases ih h with ⟨m', hm'⟩
        exact ⟨m', List.mem_cons_of_mem _ hm'⟩

/-- Opening a macro leaves fewer to open: the measure of every expansion. -/
theorem unopened_lt {M : MacroTable} {n : String} {body : List Token} {g : List String}
    (h : M.find n = some body) (hg : n ∉ g) :
    (M.unopened (n :: g)).length < (M.unopened g).length := by
  have hmem : n ∈ M.unopened g := by
    simp only [unopened, List.mem_filter, decide_eq_true_eq]
    exact ⟨mem_names_of_find h, hg⟩
  have hsplit : M.unopened (n :: g) = (M.unopened g).filter (· ≠ n) := by
    simp only [unopened, List.filter_filter]
    apply List.filter_congr
    intro x _
    by_cases hx : x = n <;> simp [hx, hg]
  rw [hsplit]
  exact List.length_filter_lt_length_iff_exists.mpr ⟨n, hmem, by simp⟩

end MacroTable

/-! ## The builtin `__X__` names -/

/-- What `builtinMacro` reads from outside the token: the compilation mode and
the texts of the clock. -/
structure LexEnv where
  jitMode : Bool
  date : String
  time : String

/-- `dirOf`: the path up to its last slash. -/
def dirOf (path : String) : String :=
  match path.toList.reverse.dropWhile (· ≠ '/') with
  | [] => "."
  | _ :: dir => String.ofList dir.reverse

/-- `Lexer::builtinMacro`: the literal a builtin name stands for. -/
def builtinMacro (E : LexEnv) (t : Token) : Option Token :=
  if t.text = "__LINE__" then
    some { t with kind := .intLit, ival := BitVec.ofNat 64 t.loc.line }
  else if t.text = "__FILE__" then some { t with kind := .strLit, text := t.loc.file }
  else if t.text = "__DIR__" then some { t with kind := .strLit, text := dirOf t.loc.file }
  else if t.text = "__CMD_LINE__" then
    some { t with kind := .intLit, ival := if E.jitMode then 1 else 0 }
  else if t.text = "__DATE__" then some { t with kind := .strLit, text := E.date }
  else if t.text = "__TIME__" then some { t with kind := .strLit, text := E.time }
  else none

/-- The names `builtinMacro` answers to. -/
def builtinNames : List String :=
  ["__LINE__", "__FILE__", "__DIR__", "__CMD_LINE__", "__DATE__", "__TIME__"]

theorem builtinMacro_eq_none {E : LexEnv} {t : Token} (h : t.text ∉ builtinNames) :
    builtinMacro E t = none := by
  simp only [builtinNames, List.mem_cons, List.not_mem_nil, or_false, not_or] at h
  obtain ⟨h1, h2, h3, h4, h5, h6⟩ := h
  simp [builtinMacro, h1, h2, h3, h4, h5, h6]

/-! ## The lexer -/

/-- The part of the lexer that `next` works on: the tokens `rawNext` has still
to deliver (no directive among them), the queue of expanded tokens, and the
guard set. -/
structure LexState where
  raw : List Token
  pending : List Token := []
  expanding : List String := []

/-- The token `rawNext` returns at the end of the input. -/
def eofToken : Token := { kind := .eof, loc := { file := "<eof>" } }

/-- The `expand` walk of `expandOrReturn`: every unguarded macro of the body is
opened in place, every other token is copied with the position of the use. -/
def expand (E : LexEnv) (M : MacroTable) (use : SrcLoc) :
    List String → List Token → List Token
  | _, [] => []
  | g, bt :: body =>
      let copy := { bt with loc := use }
      let here :=
        if hg : bt.kind = .ident ∧ bt.noExpand = false ∧ bt.text ∉ g then
          match _hf : M.find bt.text with
          | some inner => expand E M use (bt.text :: g) inner
          | none => [(builtinMacro E copy).getD copy]
        else if copy.kind = .ident then [(builtinMacro E copy).getD copy]
        else [copy]
      here ++ expand E M use g body
termination_by g body => ((M.unopened g).length, body.length)
decreasing_by
  · exact Prod.Lex.left _ _ (MacroTable.unopened_lt _hf hg.2.2)
  · exact Prod.Lex.right _ (by simp)

/-- `Lexer::expandOrReturn`. -/
def expandOrReturn (E : LexEnv) (M : MacroTable) (t : Token) (st : LexState) :
    Token × LexState :=
  if t.kind ≠ .ident ∨ t.noExpand then (t, st)
  else match builtinMacro E t with
    | some t' => (t', st)
    | none => match M.find t.text with
      | none => (t, st)
      | some body =>
          -- recursion guard: the name is being expanded, leave it as it is
          if t.text ∈ st.expanding then ({ t with noExpand := true }, st)
          else match expand E M t.loc (t.text :: st.expanding) body with
            | o :: out => (o, { st with pending := out ++ st.pending })
            | [] =>
                -- empty macro: produce the next token
                match _hp : st.pending with
                | n :: rest => expandOrReturn E M n { st with pending := rest }
                | [] => match _hr : st.raw with
                  | [] => (eofToken, st)
                  | n :: raw =>
                      if n.kind = .eof then (n, { st with raw := raw })
                      else expandOrReturn E M n { st with raw := raw }
termination_by st.pending.length + st.raw.length
decreasing_by
  · simp [_hp]
  · simp [_hp, _hr]

/-- `Lexer::next`. -/
def next (E : LexEnv) (M : MacroTable) (st : LexState) : Token × LexState :=
  match st.pending with
  | t :: rest => expandOrReturn E M t { st with pending := rest }
  | [] => match st.raw with
    | [] => (eofToken, st)
    | t :: raw =>
        if t.kind = .eof then (t, { st with raw := raw })
        else expandOrReturn E M t { st with raw := raw }

/-- `Yields E M st ts`: calling `next` from `st` again and again returns the
tokens `ts` and then reaches the end of the input. -/
inductive Yields (E : LexEnv) (M : MacroTable) : LexState → List Token → Prop where
  | eof {st : LexState} (h : (next E M st).1.kind = .eof) : Yields E M st []
  | tok {st : LexState} {ts : List Token} (h : (next E M st).1.kind ≠ .eof)
      (rest : Yields E M (next E M st).2 ts) : Yields E M st ((next E M st).1 :: ts)

end Hlang.Lexer
