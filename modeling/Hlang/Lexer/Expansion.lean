import Hlang.Lexer.Macro
import Mathlib.Algebra.Order.BigOperators.Group.List
import Mathlib.Algebra.Order.Group.Nat
import Mathlib.Algebra.GroupWithZero.Nat

/-!
# Hlang.Lexer.Expansion — guarded expansion and the pending queue

The design of macro expansion is *guarded*: a macro name met inside its own
expansion is left as a plain identifier. `expansion` states it as a function of
the macro table alone.

The queue does not keep it. A name that the eager walk left standing is queued
without its guard flag, and is looked up again when the guard set is empty. So
the lexer hands out the guarded expansion exactly when every macro name queued
in this way expands to itself (`next_expands_iff`); a macro that refers to
itself after its first token never reaches the end of the input
(`requeued_self_diverges`).
-/

namespace Hlang.Lexer

/-! ## Guarded expansion -/

/-- The recursive expansion of a token list in which a macro name met inside
its own expansion (it is in the guard set `g`) is left as a plain identifier. -/
def expansion (M : MacroTable) : List String → List Token → List Token
  | _, [] => []
  | g, t :: ts =>
      let here :=
        if _hg : t.kind = .ident ∧ t.text ∉ g then
          match _hf : M.find t.text with
          | some body => expansion M (t.text :: g) body
          | none => [t]
        else [t]
      here ++ expansion M g ts
termination_by g ts => ((M.unopened g).length, ts.length)
decreasing_by
  · exact Prod.Lex.left _ _ (MacroTable.unopened_lt _hf _hg.2)
  · exact Prod.Lex.right _ (by simp)

/-! ## Laws of the expansion -/

section Expansion

variable {M : MacroTable} {g : List String}

@[simp] theorem expansion_nil : expansion M g [] = [] := by simp [expansion]

theorem expansion_cons (t : Token) (ts : List Token) :
    expansion M g (t :: ts) = expansion M g [t] ++ expansion M g ts := by
  rw [expansion, expansion]
  simp

theorem expansion_append (ts us : List Token) :
    expansion M g (ts ++ us) = expansion M g ts ++ expansion M g us := by
  induction ts with
  | nil => simp
  | cons t ts ih => rw [List.cons_append, expansion_cons, ih, expansion_cons t ts, List.append_assoc]

/-- An unguarded macro name is replaced by the expansion of its body. -/
theorem expansion_opened {t : Token} {body : List Token} (hk : t.kind = .ident)
    (hg : t.text ∉ g) (hf : M.find t.text = some body) :
    expansion M g [t] = expansion M (t.text :: g) body := by
  rw [expansion, dif_pos ⟨hk, hg⟩]
  split
  · next inner h => rw [hf] at h; cases h; simp
  · next h => rw [hf] at h; cases h

/-- Every other token stays. -/
theorem expansion_other {t : Token} (h : t.kind ≠ .ident ∨ t.text ∈ g ∨ M.find t.text = none) :
    expansion M g [t] = [t] := by
  rw [expansion]
  split
  · next hkg =>
      have hf : M.find t.text = none := by
        rcases h with h | h | h
        · exact absurd hkg.1 h
        · exact absurd h hkg.2
        · exact h
      split
      · next inner hf' => rw [hf] at hf'; cases hf'
      · simp
  · simp

/-- Induction along an expansion: a list token by token, an opened macro with
the facts about its body. -/
theorem expansion_rec {motive : List String → List Token → Prop}
    (nil : ∀ g, motive g [])
    (cons : ∀ g t ts, motive g [t] → motive g ts → motive g (t :: ts))
    (opened : ∀ g t body, t.kind = .ident → t.text ∉ g → M.find t.text = some body →
      motive (t.text :: g) body → motive g [t])
    (stays : ∀ g t, t.kind ≠ .ident ∨ t.text ∈ g ∨ M.find t.text = none → motive g [t])
    (g : List String) (ts : List Token) : motive g ts := by
  induction g, ts using expansion.induct (M := M) with
  | case1 g => exact nil g
  | case2 g t ts hopen ih =>
      refine cons g t ts ?_ ih
      by_cases hk : t.kind = .ident
      · by_cases hg : t.text ∈ g
        · exact stays g t (Or.inr (Or.inl hg))
        · cases hf : M.find t.text with
          | none => exact stays g t (Or.inr (Or.inr hf))
          | some body => exact opened g t body hk hg hf (hopen ⟨hk, hg⟩ body hf)
      · exact stays g t (Or.inl hk)

/-- What holds of the tokens given and of every body holds of the expansion. -/
theorem expansion_forall {Q : Token → Prop}
    (hM : ∀ n body, M.find n = some body → ∀ t ∈ body, Q t) (g : List String)
    (ts : List Token) (hts : ∀ t ∈ ts, Q t) : ∀ t ∈ expansion M g ts, Q t := by
  induction g, ts using expansion_rec (M := M) with
  | nil g => simp
  | cons g t ts iht ihts =>
      rw [expansion_cons]
      intro u hu
      rcases List.mem_append.mp hu with hu | hu
      · exact iht (fun v hv => hts v (by simp_all)) u hu
      · exact ihts (fun v hv => hts v (by simp_all)) u hu
  | opened g t body hk hg hf ih =>
      rw [expansion_opened hk hg hf]
      exact ih (hM _ _ hf)
  | stays g t h =>
      rw [expansion_other h]
      exact hts

/-- The token is an identifier that names a macro. -/
def NamesMacro (M : MacroTable) (t : Token) : Prop := t.kind = .ident ∧ (M.find t.text).isSome

/-- `n` stands in the token list as an identifier. -/
def Mentions (n : String) (ts : List Token) : Prop := ∃ t ∈ ts, t.kind = .ident ∧ t.text = n

@[simp] theorem mentions_append {n : String} {ts us : List Token} :
    Mentions n (ts ++ us) ↔ Mentions n ts ∨ Mentions n us := by
  simp only [Mentions, List.mem_append]
  constructor
  · rintro ⟨t, ht | ht, h⟩
    · exact Or.inl ⟨t, ht, h⟩
    · exact Or.inr ⟨t, ht, h⟩
  · rintro (⟨t, ht, h⟩ | ⟨t, ht, h⟩)
    · exact ⟨t, Or.inl ht, h⟩
    · exact ⟨t, Or.inr ht, h⟩

/-- A macro name left standing was guarded, or the walk opened it and met it
again inside. -/
theorem exists_opened_of_mentions {n : String} (hn : (M.find n).isSome) (g : List String)
    (ts : List Token) (h : Mentions n (expansion M g ts)) (hg : n ∉ g) :
    ∃ g' body, M.find n = some body ∧ Mentions n (expansion M (n :: g') body) := by
  induction g, ts using expansion_rec (M := M) with
  | nil g => simp [Mentions] at h
  | cons g t ts iht ihts =>
      rw [expansion_cons, mentions_append] at h
      rcases h with h | h
      · exact iht h hg
      · exact ihts h hg
  | opened g t body hk htg hf ih =>
      rw [expansion_opened hk htg hf] at h
      by_cases htn : t.text = n
      · subst htn
        exact ⟨g, body, hf, h⟩
      · exact ih h (by simp [hg, Ne.symm htn])
  | stays g t hstay =>
      rw [expansion_other hstay] at h
      obtain ⟨u, hu, hk, rfl⟩ := h
      simp only [List.mem_singleton] at hu
      subst hu
      rcases hstay with h | h | h
      · exact absurd hk h
      · exact absurd h hg
      · simp [h] at hn

/-- Shrinking the guard set opens more macros, but a guarded name that was met
is still met. -/
theorem mentions_of_subset {n : String} (g : List String) (ts : List Token)
    (h : Mentions n (expansion M g ts)) (g' : List String) (hsub : g' ⊆ g) (hn : n ∈ g') :
    Mentions n (expansion M g' ts) := by
  induction g, ts using expansion_rec (M := M) generalizing g' with
  | nil g => simp [Mentions] at h
  | cons g t ts iht ihts =>
      rw [expansion_cons, mentions_append] at h ⊢
      rcases h with h | h
      · exact Or.inl (iht h g' hsub hn)
      · exact Or.inr (ihts h g' hsub hn)
  | opened g t body hk htg hf ih =>
      rw [expansion_opened hk htg hf] at h
      rw [expansion_opened hk (fun h' => htg (hsub h')) hf]
      exact ih h (t.text :: g') (List.cons_subset_cons _ hsub) (List.mem_cons_of_mem _ hn)
  | stays g t hstay =>
      rw [expansion_other hstay] at h
      obtain ⟨u, hu, hk, rfl⟩ := h
      simp only [List.mem_singleton] at hu
      subst hu
      rw [expansion_other (Or.inr (Or.inl hn))]
      exact ⟨u, by simp, hk, rfl⟩

/-- A macro name left standing by an expansion does not expand to nothing. -/
theorem expansion_ne_nil {ts : List Token} {a : Token} (ha : a ∈ expansion M [] ts) :
    expansion M [] [a] ≠ [] := by
  by_cases hm : NamesMacro M a
  · obtain ⟨g', body, hf, hmen⟩ :=
      exists_opened_of_mentions hm.2 [] ts ⟨a, ha, hm.1, rfl⟩ (by simp)
    have hown : Mentions a.text (expansion M [a.text] body) :=
      mentions_of_subset (a.text :: g') body hmen [a.text] (by simp) (by simp)
    rw [expansion_opened hm.1 (by simp) hf]
    intro hnil
    rw [hnil] at hown
    obtain ⟨t, ht, -⟩ := hown
    simp at ht
  · have hother : a.kind ≠ .ident ∨ a.text ∈ [] ∨ M.find a.text = none := by
      by_cases hk : a.kind = .ident
      · refine Or.inr (Or.inr ?_)
        by_contra hf
        exact hm ⟨hk, Option.isSome_iff_ne_none.mpr hf⟩
      · exact Or.inl hk
    rw [expansion_other hother]
    simp

end Expansion

/-! ## What `next` does with a plain token -/

/-- The tokens the lexer works on: never the end marker, not guarded, and an
identifier carries nothing but its name, which is not a builtin one. -/
structure Plain (t : Token) : Prop where
  notEof : t.kind ≠ .eof
  unguarded : t.noExpand = false
  identShape : t.kind = .ident → t.shape = { kind := .ident, text := t.text }
  notBuiltin : t.kind = .ident → t.text ∉ builtinNames

/-- Every macro body is a list of plain tokens. -/
def PlainTable (M : MacroTable) : Prop :=
  ∀ n body, M.find n = some body → ∀ t ∈ body, Plain t

/-- The token, reported at the position `l`. -/
def movedTo (l : SrcLoc) (t : Token) : Token := { t with loc := l }

@[simp] theorem shape_movedTo (l : SrcLoc) (t : Token) : (movedTo l t).shape = t.shape := rfl

theorem Plain.movedTo {t : Token} (h : Plain t) (l : SrcLoc) : Plain (movedTo l t) :=
  ⟨h.notEof, h.unguarded, h.identShape, h.notBuiltin⟩

theorem plain_ofIdent {n : String} (h : n ∉ builtinNames) : Plain (.ofIdent n) where
  notEof := by simp [Token.ofIdent]
  unguarded := rfl
  identShape := fun _ => rfl
  notBuiltin := fun _ => h

theorem plain_ofInt (v : I64) : Plain (.ofInt v) where
  notEof := by simp [Token.ofInt]
  unguarded := rfl
  identShape := by simp [Token.ofInt]
  notBuiltin := by simp [Token.ofInt]

theorem plain_ofPunct (p : P) : Plain (.ofPunct p) where
  notEof := by simp [Token.ofPunct]
  unguarded := rfl
  identShape := by simp [Token.ofPunct]
  notBuiltin := by simp [Token.ofPunct]

theorem plainTable_of_bodies {M : MacroTable} (h : ∀ p ∈ M, ∀ t ∈ p.2, Plain t) :
    PlainTable M := by
  intro n body hf
  obtain ⟨m, hm⟩ := MacroTable.mem_of_find hf
  exact h _ hm

section Queue

variable {E : LexEnv} {M : MacroTable}

/-- On plain tokens the eager walk is the guarded expansion, moved to the
position of the use. -/
theorem expand_eq (hM : PlainTable M) (use : SrcLoc) (g : List String) (body : List Token)
    (hbody : ∀ t ∈ body, Plain t) :
    expand E M use g body = (expansion M g body).map (movedTo use) := by
  induction g, body using expansion.induct (M := M) with
  | case1 g => simp [expand]
  | case2 g t body hopen ih =>
      have ht : Plain t := hbody t (by simp)
      have hcopy : (if t.kind = .ident then
          [(builtinMacro E (movedTo use t)).getD (movedTo use t)] else [movedTo use t]) =
          [movedTo use t] := by
        by_cases hk : t.kind = .ident
        · have hb : builtinMacro E (movedTo use t) = none :=
            builtinMacro_eq_none (ht.notBuiltin hk)
          simp [hk, hb]
        · simp [hk]
      rw [expand, expansion_cons, List.map_append, ih (fun u hu => hbody u (by simp [hu]))]
      congr 1
      by_cases hg : t.kind = .ident ∧ t.text ∉ g
      · rw [dif_pos ⟨hg.1, ht.unguarded, hg.2⟩]
        split
        · next inner hf =>
            rw [expansion_opened hg.1 hg.2 hf]
            exact hopen hg inner hf (hM _ _ hf)
        · next hf =>
            rw [expansion_other (Or.inr (Or.inr hf))]
            simpa [hg.1, movedTo] using hcopy
      · rw [dif_neg (fun h => hg ⟨h.1, h.2.2⟩)]
        have hother : t.kind ≠ .ident ∨ t.text ∈ g ∨ M.find t.text = none := by
          by_cases hk : t.kind = .ident
          · exact Or.inr (Or.inl (by_contra fun h => hg ⟨hk, h⟩))
          · exact Or.inl hk
        rw [expansion_other hother]
        simpa [movedTo] using hcopy

/-- A state between two calls of `next`: the guard set is empty. -/
def between (raw pending : List Token) : LexState := { raw := raw, pending := pending }

/-- What the lexer makes of one token: its expansion, at its own position. -/
def replaced (M : MacroTable) (t : Token) : List Token :=
  (expansion M [] [t]).map (movedTo t.loc)

/-- Hand out the first token of `out` and queue the others; with nothing to
hand out, go on to the next token. -/
def handOut (E : LexEnv) (M : MacroTable) (out raw pending : List Token) : Token × LexState :=
  match out with
  | o :: rest => (o, between raw (rest ++ pending))
  | [] => next E M (between raw pending)

theorem expandOrReturn_eq (hM : PlainTable M) {t : Token} (ht : Plain t)
    (raw pending : List Token) :
    expandOrReturn E M t (between raw pending) = handOut E M (replaced M t) raw pending := by
  have hstays : t.kind ≠ .ident ∨ t.text ∈ ([] : List String) ∨ M.find t.text = none →
      replaced M t = [t] := by
    intro h
    simp [replaced, expansion_other h, movedTo]
  rw [expandOrReturn]
  by_cases hk : t.kind = .ident
  · rw [if_neg (by simp [hk, ht.unguarded]), builtinMacro_eq_none (ht.notBuiltin hk)]
    cases hf : M.find t.text with
    | none =>
        rw [hstays (Or.inr (Or.inr hf))]
        simp [handOut]
    | some body =>
        have hrep : expand E M t.loc (t.text :: []) body = replaced M t := by
          rw [expand_eq hM _ _ _ (hM _ _ hf), replaced, expansion_opened hk (by simp) hf]
        simp only [between, List.not_mem_nil, if_false, hrep]
        cases replaced M t with
        | cons o out => rfl
        | nil =>
            cases pending with
            | cons n rest => simp [handOut, between, next]
            | nil =>
                cases raw with
                | nil => simp [handOut, between, next]
                | cons n raw => simp [handOut, between, next]
  · rw [if_pos (Or.inl hk), hstays (Or.inl hk)]
    simp [handOut]

theorem next_pending (hM : PlainTable M) {t : Token} (ht : Plain t) (raw rest : List Token) :
    next E M (between raw (t :: rest)) = handOut E M (replaced M t) raw rest :=
  expandOrReturn_eq hM ht raw rest

theorem next_raw (hM : PlainTable M) {t : Token} (ht : Plain t) (raw : List Token) :
    next E M (between (t :: raw) []) = handOut E M (replaced M t) raw [] := by
  have h : next E M (between (t :: raw) []) = expandOrReturn E M t (between raw []) := by
    simp [next, between, ht.notEof]
  rw [h, expandOrReturn_eq hM ht]

end Queue

/-! ## Whole runs -/

section Runs

variable {E : LexEnv} {M : MacroTable}

theorem replaced_plain (hM : PlainTable M) {t : Token} (ht : Plain t) :
    ∀ u ∈ replaced M t, Plain u := by
  intro u hu
  obtain ⟨v, hv, rfl⟩ := List.mem_map.mp hu
  exact (expansion_forall hM [] [t] (by simpa using ht) v hv).movedTo _

/-- The runs that begin by handing out `out`. -/
def YieldsAfter (E : LexEnv) (M : MacroTable) (out raw pending ts : List Token) : Prop :=
  match out with
  | o :: rest => ∃ ts', ts = o :: ts' ∧ Yields E M (between raw (rest ++ pending)) ts'
  | [] => Yields E M (between raw pending) ts

theorem yields_of_next_eq {st : LexState} {out raw pending : List Token}
    (hout : ∀ u ∈ out, Plain u) (h : next E M st = handOut E M out raw pending)
    (ts : List Token) : Yields E M st ts ↔ YieldsAfter E M out raw pending ts := by
  cases out with
  | nil =>
      simp only [handOut] at h
      simp only [YieldsAfter]
      constructor
      · intro hy
        cases hy with
        | eof hk => exact .eof (h ▸ hk)
        | tok hk rest => rw [h] at hk rest ⊢; exact .tok hk rest
      · intro hy
        cases hy with
        | eof hk => exact .eof (h ▸ hk)
        | tok hk rest => rw [← h] at hk rest ⊢; exact .tok hk rest
  | cons o out =>
      simp only [handOut] at h
      simp only [YieldsAfter]
      have ho : o.kind ≠ .eof := (hout o (by simp)).notEof
      constructor
      · intro hy
        cases hy with
        | eof hk => rw [h] at hk; exact absurd hk ho
        | tok hk rest => rw [h] at rest ⊢; exact ⟨_, rfl, rest⟩
      · rintro ⟨ts', rfl, hy⟩
        have htok : Yields E M st ((next E M st).1 :: ts') :=
          .tok (by rw [h]; exact ho) (by rw [h]; exact hy)
        rwa [h] at htok

theorem yields_pending (hM : PlainTable M) {t : Token} (ht : Plain t) (raw rest ts : List Token) :
    Yields E M (between raw (t :: rest)) ts ↔ YieldsAfter E M (replaced M t) raw rest ts :=
  yields_of_next_eq (replaced_plain hM ht) (next_pending hM ht raw rest) ts

theorem yields_raw (hM : PlainTable M) {t : Token} (ht : Plain t) (raw ts : List Token) :
    Yields E M (between (t :: raw) []) ts ↔ YieldsAfter E M (replaced M t) raw [] ts :=
  yields_of_next_eq (replaced_plain hM ht) (next_raw hM ht raw) ts

@[simp] theorem yields_empty {ts : List Token} : Yields E M (between [] []) ts ↔ ts = [] := by
  have hnext : next E M (between [] []) = (eofToken, between [] []) := by simp [next, between]
  constructor
  · intro hy
    cases hy with
    | eof hk => rfl
    | tok hk rest => rw [hnext] at hk; simp [eofToken] at hk
  · rintro rfl
    exact .eof (by rw [hnext]; rfl)

/-- The lexer hands out the guarded expansion of the raw tokens: after finitely
many calls it reaches the end of the input, and the tokens returned are the
expansion, in order (up to positions). -/
def ExpandsFully (E : LexEnv) (M : MacroTable) (raws : List Token) : Prop :=
  ∃ ts, Yields E M { raw := raws } ts ∧
    ts.map Token.shape = (expansion M [] raws).map Token.shape

/-- `a` is a macro name that the expansion of `t` leaves standing after its
first token, where `expandOrReturn` queues it. -/
def Requeued (M : MacroTable) (t a : Token) : Prop :=
  a ∈ (expansion M [] [t]).tail ∧ NamesMacro M a

/-- The expansion of the macro name `a` is `a` alone. -/
def SelfNaming (M : MacroTable) (a : Token) : Prop :=
  (expansion M [] [a]).map Token.shape = [a.shape]

theorem selfNaming_of_not_namesMacro {a : Token} (h : ¬ NamesMacro M a) : SelfNaming M a := by
  have hother : a.kind ≠ .ident ∨ a.text ∈ ([] : List String) ∨ M.find a.text = none := by
    by_cases hk : a.kind = .ident
    · refine Or.inr (Or.inr ?_)
      by_contra hf
      exact h ⟨hk, Option.isSome_iff_ne_none.mpr hf⟩
    · exact Or.inl hk
  simp [SelfNaming, expansion_other hother]

@[simp] theorem replaced_shape (t : Token) :
    (replaced M t).map Token.shape = (expansion M [] [t]).map Token.shape := by
  simp [replaced]

/-- Moving a token does not change what it expands to. -/
theorem expansion_movedTo_shape (l : SrcLoc) (t : Token) :
    (expansion M [] [movedTo l t]).map Token.shape = (expansion M [] [t]).map Token.shape := by
  by_cases hm : NamesMacro M t
  · obtain ⟨body, hf⟩ := Option.isSome_iff_exists.mp hm.2
    rw [expansion_opened hm.1 (by simp) hf]
    rw [expansion_opened (t := movedTo l t) hm.1 (by simp) hf]
    rfl
  · have h1 : SelfNaming M t := selfNaming_of_not_namesMacro hm
    have h2 : SelfNaming M (movedTo l t) := selfNaming_of_not_namesMacro hm
    rw [h1, h2, shape_movedTo]

/-- The queue is transparent for self-naming tokens. -/
theorem yields_queue (hM : PlainTable M) (raw : List Token) (pending ts : List Token)
    (hplain : ∀ t ∈ pending, Plain t) (hself : ∀ t ∈ pending, SelfNaming M t)
    (hy : Yields E M (between raw []) ts) :
    ∃ ts', Yields E M (between raw pending) ts' ∧
      ts'.map Token.shape = pending.map Token.shape ++ ts.map Token.shape := by
  induction pending with
  | nil => exact ⟨ts, hy, by simp⟩
  | cons t rest ih =>
      obtain ⟨us, hus, hshape⟩ :=
        ih (fun u hu => hplain u (by simp [hu])) (fun u hu => hself u (by simp [hu]))
      have ht : (replaced M t).map Token.shape = [t.shape] := by
        rw [replaced_shape]
        exact hself t (by simp)
      obtain ⟨o, ho, hot⟩ := List.map_eq_singleton_iff.mp ht
      refine ⟨o :: us, ?_, by simp [hshape, hot]⟩
      rw [yields_pending hM (hplain t (by simp)), ho]
      exact ⟨us, rfl, by simpa using hus⟩

/-- When every requeued name expands to itself, the lexer hands out the guarded
expansion. -/
theorem expandsFully_of_requeued (hM : PlainTable M) (raws : List Token)
    (hraws : ∀ t ∈ raws, Plain t)
    (hself : ∀ t ∈ raws, ∀ a, Requeued M t a → SelfNaming M a) : ExpandsFully E M raws := by
  induction raws with
  | nil => exact ⟨[], yields_empty.mpr rfl, by simp⟩
  | cons t raws ih =>
      obtain ⟨ts, hy, hshape⟩ :=
        ih (fun u hu => hraws u (by simp [hu])) (fun u hu => hself u (by simp [hu]))
      have ht : Plain t := hraws t (by simp)
      have hsplit : (expansion M [] (t :: raws)).map Token.shape =
          (replaced M t).map Token.shape ++ ts.map Token.shape := by
        rw [expansion_cons, List.map_append, replaced_shape, hshape]
      cases hrep : replaced M t with
      | nil =>
          refine ⟨ts, (yields_raw hM ht raws ts).mpr (by rw [hrep]; exact hy), ?_⟩
          rw [hsplit, hrep]
          simp
      | cons o out =>
          have hout : ∀ u ∈ out, Plain u ∧ SelfNaming M u := by
            intro u hu
            have hmem : u ∈ (replaced M t).tail := by simpa [hrep] using hu
            refine ⟨replaced_plain hM ht u (List.mem_of_mem_tail hmem), ?_⟩
            rw [replaced, ← List.map_tail, List.mem_map] at hmem
            obtain ⟨a, ha, rfl⟩ := hmem
            have haself : SelfNaming M a := by
              by_cases hm : NamesMacro M a
              · exact hself t (by simp) a ⟨ha, hm⟩
              · exact selfNaming_of_not_namesMacro hm
            rw [SelfNaming, expansion_movedTo_shape, shape_movedTo]
            exact haself
          obtain ⟨us, hus, hushape⟩ := yields_queue (E := E) hM raws out ts
            (fun u hu => (hout u hu).1) (fun u hu => (hout u hu).2) hy
          refine ⟨o :: us, ?_, ?_⟩
          · refine (yields_raw hM ht raws _).mpr ?_
            rw [hrep]
            exact ⟨us, rfl, by simpa using hus⟩
          · rw [hsplit, hrep]
            simp [hushape]

/-- The tokens one raw token costs: the first is returned as it is, each of the
others is expanded again. -/
def cost (M : MacroTable) (t : Token) : Nat :=
  match expansion M [] [t] with
  | [] => 0
  | _ :: out => 1 + (expansion M [] out).length

/-- Expanding again the tokens that an expansion left does not lose any. -/
theorem length_le_length_expansion (ts out : List Token)
    (hout : ∀ a ∈ out, a ∈ expansion M [] ts) :
    out.length ≤ (expansion M [] out).length := by
  induction out with
  | nil => simp
  | cons a out ih =>
      have ha : (expansion M [] [a]).length ≠ 0 := by
        simpa using expansion_ne_nil (hout a (by simp))
      have hrest := ih (fun b hb => hout b (by simp [hb]))
      rw [expansion_cons, List.length_append, List.length_cons]
      omega

theorem length_expansion_le_cost (t : Token) : (expansion M [] [t]).length ≤ cost M t := by
  cases h : expansion M [] [t] with
  | nil => simp
  | cons o out =>
      have hle := length_le_length_expansion (M := M) [t] out
        (fun a ha => by simp [h, ha])
      simp only [cost, h, List.length_cons]
      omega

/-- A run returns at least the expansion of the queue and the cost of the raw
tokens. -/
theorem cost_le_of_yields (hM : PlainTable M) (raw pending ts : List Token)
    (hraw : ∀ t ∈ raw, Plain t) (hpending : ∀ t ∈ pending, Plain t)
    (hy : Yields E M (between raw pending) ts) :
    (expansion M [] pending).length + (raw.map (cost M)).sum ≤ ts.length := by
  have hmoved : ∀ (l : SrcLoc) (out : List Token),
      (expansion M [] (out.map (movedTo l))).length = (expansion M [] out).length := by
    intro l out
    induction out with
    | nil => simp
    | cons a out ih =>
        have ha := congrArg List.length (expansion_movedTo_shape (M := M) l a)
        simp only [List.length_map] at ha
        rw [List.map_cons, expansion_cons, List.length_append, ih, ha, expansion_cons a out,
          List.length_append]
  match pending, raw with
  | t :: rest, raw =>
      have ht : Plain t := hpending t (by simp)
      rw [yields_pending hM ht] at hy
      cases hexp : expansion M [] [t] with
      | nil =>
          simp only [YieldsAfter, replaced, hexp, List.map_nil] at hy
          have ih := cost_le_of_yields hM raw rest ts hraw
            (fun u hu => hpending u (by simp [hu])) hy
          rw [expansion_cons, hexp]
          simpa using ih
      | cons o out =>
          simp only [YieldsAfter, replaced, hexp, List.map_cons] at hy
          obtain ⟨us, rfl, hus⟩ := hy
          have hplain : ∀ u ∈ out.map (movedTo t.loc) ++ rest, Plain u := by
            intro u hu
            rcases List.mem_append.mp hu with hu | hu
            · exact replaced_plain hM ht u (by simp [replaced, hexp, List.mem_map.mp hu])
            · exact hpending u (by simp [hu])
          have ih := cost_le_of_yields hM raw _ us hraw hplain hus
          have hle := length_le_length_expansion (M := M) [t] out
            (fun a ha => by simp [hexp, ha])
          rw [expansion_append, List.length_append, hmoved] at ih
          rw [expansion_cons, hexp]
          simp only [List.length_append, List.length_cons]
          omega
  | [], t :: raw =>
      have ht : Plain t := hraw t (by simp)
      rw [yields_raw hM ht] at hy
      have hraw' : ∀ u ∈ raw, Plain u := fun u hu => hraw u (by simp [hu])
      cases hexp : expansion M [] [t] with
      | nil =>
          simp only [YieldsAfter, replaced, hexp, List.map_nil] at hy
          have ih := cost_le_of_yields hM raw [] ts hraw' (by simp) hy
          simpa [cost, hexp] using ih
      | cons o out =>
          simp only [YieldsAfter, replaced, hexp, List.map_cons, List.append_nil] at hy
          obtain ⟨us, rfl, hus⟩ := hy
          have hplain : ∀ u ∈ out.map (movedTo t.loc), Plain u := by
            intro u hu
            exact replaced_plain hM ht u (by simp [replaced, hexp, List.mem_map.mp hu])
          have ih := cost_le_of_yields hM raw _ us hraw' hplain hus
          rw [hmoved] at ih
          simp only [expansion_nil, List.length_nil, List.map_cons, List.sum_cons, cost, hexp,
            List.length_cons]
          omega
  | [], [] => simp
termination_by (ts.length, pending.length + raw.length)

/-- A requeued name that does not expand to itself costs a token too many. -/
theorem length_lt_cost (hM : PlainTable M) {t a : Token} (ht : Plain t)
    (ha : Requeued M t a) (hself : ¬ SelfNaming M a) :
    (expansion M [] [t]).length < cost M t := by
  cases hexp : expansion M [] [t] with
  | nil => simp [Requeued, hexp] at ha
  | cons o out =>
      have hmem : a ∈ out := by simpa [hexp] using ha.1
      have hout : ∀ b ∈ out, b ∈ expansion M [] [t] := fun b hb => by simp [hexp, hb]
      have hplain : ∀ b ∈ expansion M [] [t], Plain b :=
        expansion_forall hM [] [t] (by simpa using ht)
      -- the expansion of `a` mentions `a`, so a single token there would be `a`
      have htwo : 2 ≤ (expansion M [] [a]).length := by
        by_contra hlt
        obtain ⟨b, hb⟩ : ∃ b, expansion M [] [a] = [b] := by
          apply List.length_eq_one_iff.mp
          have hne : (expansion M [] [a]).length ≠ 0 := by
            simpa using expansion_ne_nil (hout a hmem)
          omega
        obtain ⟨g', body, hf, hmen⟩ := exists_opened_of_mentions ha.2.2 [] [t]
          ⟨a, hout a hmem, ha.2.1, rfl⟩ (by simp)
        have hown := mentions_of_subset (a.text :: g') body hmen [a.text] (by simp) (by simp)
        rw [← expansion_opened ha.2.1 (by simp) hf, hb] at hown
        obtain ⟨b', hb', hbk, hbt⟩ := hown
        simp only [List.mem_singleton] at hb'
        subst hb'
        have hbplain : Plain b' := by
          apply expansion_forall hM [] [a] _ b' (by simp [hb])
          simpa using hplain a (hout a hmem)
        apply hself
        rw [SelfNaming, hb, List.map_singleton, hbplain.identShape hbk,
          (hplain a (hout a hmem)).identShape ha.2.1, hbt]
      obtain ⟨pre, post, rfl⟩ := List.append_of_mem hmem
      have hpre := length_le_length_expansion (M := M) [t] pre
        (fun b hb => hout b (by simp [hb]))
      have hpost := length_le_length_expansion (M := M) [t] post
        (fun b hb => hout b (by simp [hb]))
      simp only [cost, hexp, List.length_cons]
      rw [expansion_append, expansion_cons]
      simp only [List.length_append, List.length_cons]
      omega

theorem length_expansion_le_sum_cost (raws : List Token) :
    (expansion M [] raws).length ≤ (raws.map (cost M)).sum := by
  induction raws with
  | nil => simp
  | cons t raws ih =>
      have ht := length_expansion_le_cost (M := M) t
      rw [expansion_cons, List.length_append, List.map_cons, List.sum_cons]
      omega

/-- **Macro expansion.** For every macro table and every list of raw tokens,
the lexer reaches the end of the input and hands out the guarded expansion if
and only if every macro name that an expansion queues after its first token is
one whose own expansion is that name alone. -/
theorem next_expands_iff (hM : PlainTable M) (raws : List Token)
    (hraws : ∀ t ∈ raws, Plain t) :
    ExpandsFully E M raws ↔ ∀ t ∈ raws, ∀ a, Requeued M t a → SelfNaming M a := by
  constructor
  · rintro ⟨ts, hy, hshape⟩ t ht a ha
    by_contra hself
    have hlen : ts.length = (expansion M [] raws).length := by
      simpa using congrArg List.length hshape
    have hcost := cost_le_of_yields hM raws [] ts hraws (by simp) hy
    obtain ⟨pre, post, rfl⟩ := List.append_of_mem ht
    have hlt := length_lt_cost hM (hraws t ht) ha hself
    have hpre := length_expansion_le_sum_cost (M := M) pre
    have hpost := length_expansion_le_sum_cost (M := M) post
    rw [expansion_append, expansion_cons] at hlen
    simp only [List.length_append] at hlen
    simp only [expansion_nil, List.length_nil, List.map_append, List.map_cons, List.sum_append,
      List.sum_cons] at hcost
    omega
  · exact expandsFully_of_requeued hM raws hraws

/-- `#define TWICE DOUBLE` and `#define DOUBLE 2*`, used as `TWICE 3`. -/
theorem next_expands_twice :
    ExpandsFully ⟨true, "", ""⟩
      [("TWICE", [.ofIdent "DOUBLE"]), ("DOUBLE", [.ofInt 2, .ofPunct .star])]
      [.ofIdent "TWICE", .ofInt 3] := by
  have hM : PlainTable
      [("TWICE", [.ofIdent "DOUBLE"]), ("DOUBLE", [.ofInt 2, .ofPunct .star])] := by
    apply plainTable_of_bodies
    simp only [List.mem_cons, List.not_mem_nil, or_false, forall_eq_or_imp, forall_eq]
    exact ⟨plain_ofIdent (by decide), plain_ofInt 2, plain_ofPunct .star⟩
  refine (next_expands_iff hM _ ?_).mpr ?_
  · simp only [List.mem_cons, List.not_mem_nil, or_false, forall_eq_or_imp, forall_eq]
    exact ⟨plain_ofIdent (by decide), plain_ofInt 3⟩
  · simp only [List.mem_cons, List.not_mem_nil, or_false, forall_eq_or_imp, forall_eq]
    refine ⟨fun a ha => ?_, fun a ha => ?_⟩
    · have htwice : expansion [("TWICE", [.ofIdent "DOUBLE"]),
          ("DOUBLE", [.ofInt 2, .ofPunct .star])] [] [.ofIdent "TWICE"] =
          [.ofInt 2, .ofPunct .star] := by
        simp [expansion, MacroTable.find, List.lookup_cons, Token.ofIdent, Token.ofInt,
          Token.ofPunct]
      rw [Requeued, htwice] at ha
      simp only [List.tail_cons, List.mem_singleton] at ha
      rw [ha.1] at ha
      exact absurd ha.2.1 (by decide)
    · rw [Requeued, expansion_other (Or.inl (by decide))] at ha
      simp at ha

/-- A macro whose expansion mentions itself after its first token is queued
again whenever it leaves the queue: no run ends. -/
theorem requeued_self_diverges (hM : PlainTable M) {n : String}
    (hn : ∀ t, t.kind = .ident → t.text = n → Mentions n (expansion M [] [t]).tail)
    (raw pending ts : List Token) (hpending : ∀ t ∈ pending, Plain t)
    (hmen : Mentions n pending) : ¬ Yields E M (between raw pending) ts := by
  intro hy
  match pending with
  | [] => simp [Mentions] at hmen
  | t :: rest =>
      have ht : Plain t := hpending t (by simp)
      have hrest : ∀ u ∈ rest, Plain u := fun u hu => hpending u (by simp [hu])
      rw [yields_pending hM ht] at hy
      cases hexp : expansion M [] [t] with
      | nil =>
          simp only [YieldsAfter, replaced, hexp, List.map_nil] at hy
          obtain ⟨u, hu, hk, hun⟩ := hmen
          rcases List.mem_cons.mp hu with rfl | hu
          · have hself := hn u hk hun
            rw [hexp] at hself
            simp [Mentions] at hself
          · exact requeued_self_diverges hM hn raw rest ts hrest ⟨u, hu, hk, hun⟩ hy
      | cons o out =>
          simp only [YieldsAfter, replaced, hexp, List.map_cons] at hy
          obtain ⟨us, rfl, hus⟩ := hy
          refine requeued_self_diverges hM hn raw _ us ?_ ?_ hus
          · intro u hu
            rcases List.mem_append.mp hu with hu | hu
            · exact replaced_plain hM ht u (by simp [replaced, hexp, List.mem_map.mp hu])
            · exact hrest u hu
          · obtain ⟨u, hu, hk, hun⟩ := hmen
            rcases List.mem_cons.mp hu with rfl | hu
            · obtain ⟨v, hv, hvk, hvn⟩ := hn u hk hun
              rw [hexp, List.tail_cons] at hv
              exact ⟨movedTo u.loc v, by simp [List.mem_map_of_mem hv], hvk, hvn⟩
            · exact ⟨u, by simp [hu], hk, hun⟩
termination_by (ts.length, pending.length)

/-- `#define A 1 A`, used once: the lexer never reaches the end of the input. -/
theorem self_reference_not_expandsFully :
    ¬ ExpandsFully ⟨true, "", ""⟩ [("A", [.ofInt 1, .ofIdent "A"])] [.ofIdent "A"] := by
  have hM : PlainTable [("A", [.ofInt 1, .ofIdent "A"])] := by
    apply plainTable_of_bodies
    simp only [List.mem_cons, List.not_mem_nil, or_false, forall_eq_or_imp, forall_eq]
    exact ⟨plain_ofInt 1, plain_ofIdent (by decide)⟩
  have hexp : ∀ t : Token, t.kind = .ident → t.text = "A" →
      expansion [("A", [.ofInt 1, .ofIdent "A"])] [] [t] = [.ofInt 1, .ofIdent "A"] := by
    intro t hk ht
    have hf : MacroTable.find [("A", [.ofInt 1, .ofIdent "A"])] t.text =
        some [.ofInt 1, .ofIdent "A"] := by
      rw [ht]
      decide
    rw [expansion_opened hk (by simp) hf, ht]
    simp [expansion, Token.ofIdent, Token.ofInt]
  have ha : Plain (.ofIdent "A") := plain_ofIdent (by decide)
  rintro ⟨ts, hy, -⟩
  have hy' := (yields_raw hM ha [] ts).mp hy
  simp only [YieldsAfter, replaced, hexp (.ofIdent "A") rfl rfl, List.map_cons,
    List.map_nil] at hy'
  obtain ⟨us, rfl, hus⟩ := hy'
  refine requeued_self_diverges hM (n := "A") ?_ [] _ us ?_ ?_ hus
  · intro t hk ht
    rw [hexp t hk ht]
    exact ⟨.ofIdent "A", by simp, rfl, rfl⟩
  · intro u hu
    simp only [List.append_nil, List.mem_singleton] at hu
    exact hu ▸ ha.movedTo _
  · exact ⟨movedTo (Token.ofIdent "A").loc (.ofIdent "A"), by simp, rfl, rfl⟩

end Runs

end Hlang.Lexer
