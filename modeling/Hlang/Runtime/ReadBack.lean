import Hlang.Lexer.Spelling
import Hlang.Runtime.IntField

/-!
# Hlang.Runtime.ReadBack — what the formatter prints, the lexer reads

A program can print source text for `#exe` to splice in: numbers with `%d`, `%u`
and `%X`, strings with `%Q`. The formatter and the lexer are two programs; here
what the one writes is given to the other. Numbers come back as they were.
A string comes back unless it holds two dollar signs in a row, which the lexer
takes for one and `%Q` does not double.
-/

namespace Hlang.Runtime

open Hlang.Lexer

/-- A byte as a character of the source. -/
def byteChar (b : Byte) : Char := Char.ofNat b.toNat

theorem ch_byteChar (b : Byte) : ch (byteChar b) = b := ch_ofNat b

theorem byteChar_injective : Function.Injective byteChar :=
  Function.LeftInverse.injective ch_byteChar

theorem byteChar_eq_iff {b : Byte} {c : Char} (hc : byteChar (ch c) = c) :
    byteChar b = c ↔ b = ch c := by
  constructor
  · rintro rfl
    exact (ch_byteChar b).symm
  · rintro rfl
    exact hc

/-! ## Quoted strings -/

/-- The escape of a character by `%q`. -/
def quoteChar (c : Char) : List Char :=
  if c = '"' ∨ c = '\\' then ['\\', c] else if c = '\n' then ['\\', 'n'] else [c]

/-- The text of `%q`, in characters. -/
theorem quoted_map (s : List Byte) :
    (quoted s).map byteChar = (s.map byteChar).flatMap quoteChar := by
  unfold quoted
  rw [List.map_flatMap, List.flatMap_map]
  congr 1
  funext b
  have h₁ := byteChar_eq_iff (b := b) (c := '"') (by decide)
  have h₂ := byteChar_eq_iff (b := b) (c := '\\') (by decide)
  have h₃ := byteChar_eq_iff (b := b) (c := '\n') (by decide)
  have hslash : byteChar (ch '\\') = '\\' := by decide
  have hn : byteChar (ch 'n') = 'n' := by decide
  unfold quoteChar
  simp only [h₁, h₂, h₃, Bool.or_eq_true, decide_eq_true_eq]
  split_ifs <;> simp [hslash, hn]

/-- Pairs of dollar signs made single, as the lexer reads them. -/
def collapse : List Char → List Char
  | [] => []
  | c :: cs =>
      if c = '$' && peekIs '$' cs then
        match cs with
        | _ :: cs' => '$' :: collapse cs'
        | [] => []
      else c :: collapse cs

/-- An escape begins with a dollar sign when its character is one. -/
theorem peekIs_quoted {s t : List Char} (ht : peekIs '$' t = false) :
    peekIs '$' (s.flatMap quoteChar ++ t) = peekIs '$' s := by
  cases s with
  | nil => exact ht
  | cons c s =>
      rw [List.flatMap_cons, quoteChar]
      split_ifs with h₁ h₂
      · rcases h₁ with rfl | rfl <;> rfl
      · subst h₂
        rfl
      · simp

/-- Reading a quoted text: its characters, with pairs of dollar signs made single, and then
what the lexer makes of the rest. -/
theorem lexCharsInto_quoted (s : List Char) {t : List Char} (ht : peekIs '$' t = false) :
    lexCharsInto '"' (s.flatMap quoteChar ++ t) =
      (collapse s).foldr Literal.push (lexCharsInto '"' t) := by
  fun_induction collapse s with
  | case1 => rfl
  | case2 c d cs h ih =>
      -- a pair of dollar signs
      have hc : c = '$' ∧ d = '$' := by simpa using h
      rw [hc.1, hc.2]
      exact (lexCharsInto_dollars (by decide)).trans (congrArg _ ih)
  | case3 c h => exact absurd h (by simp)
  | case4 c cs h ih =>
      rw [List.flatMap_cons, List.append_assoc, List.foldr_cons, ← ih]
      by_cases hesc : c = '"' ∨ c = '\\'
      · have hx : c ≠ 'x' := by
          rcases hesc with rfl | rfl <;> decide
        have hself : escape c = c := by
          rcases hesc with rfl | rfl <;> rfl
        rw [quoteChar, if_pos hesc]
        exact (lexCharsInto_escape (by decide) hx).trans (by rw [hself]; rfl)
      · have hne := not_or.mp hesc
        rw [quoteChar, if_neg hesc]
        by_cases hn : c = '\n'
        · subst hn
          exact lexCharsInto_escape (by decide) (by decide)
        · rw [if_neg hn, List.singleton_append]
          by_cases hd : c = '$'
          · -- a dollar sign by itself: what follows it begins no other
            subst hd
            have hpeek : peekIs '$' cs = false := by simpa using h
            exact lexCharsInto_dollar (by decide) ((peekIs_quoted ht).trans hpeek)
          · exact lexCharsInto_plain hne.1 hd hne.2

/-! ### What collapsing changes -/

theorem collapse_sublist (s : List Char) : (collapse s).Sublist s := by
  fun_induction collapse s with
  | case1 => exact List.Sublist.refl _
  | case2 c d cs h ih =>
      have hc : c = '$' ∧ d = '$' := by simpa using h
      rw [hc.1, hc.2]
      exact (ih.cons_cons '$').cons '$'
  | case3 c h => exact absurd h (by simp)
  | case4 c cs h ih => exact ih.cons_cons c

/-- Only dollar signs are lost. -/
theorem length_collapse (s : List Char) :
    (collapse s).length + s.count '$' = s.length + (collapse s).count '$' := by
  fun_induction collapse s with
  | case1 => rfl
  | case2 c d cs h ih =>
      have hc : c = '$' ∧ d = '$' := by simpa using h
      rw [hc.1, hc.2]
      simp only [List.count_cons_self, List.length_cons]
      omega
  | case3 c h => exact absurd h (by simp)
  | case4 c cs h ih =>
      simp only [List.count_cons, List.length_cons]
      omega

/-- Two dollar signs in a row. -/
def AdjacentDollars (s : List Char) : Prop := ['$', '$'] <:+: s

/-- A text keeps its characters exactly when it has no two dollar signs in a row. -/
theorem collapse_eq_self_iff (s : List Char) : collapse s = s ↔ ¬ AdjacentDollars s := by
  unfold AdjacentDollars
  fun_induction collapse s with
  | case1 => simp
  | case2 c d cs h ih =>
      have hc : c = '$' ∧ d = '$' := by simpa using h
      rw [hc.1, hc.2]
      constructor
      · intro heq
        have hlen := (collapse_sublist cs).length_le
        have hlen' := congrArg List.length heq
        simp only [List.length_cons] at hlen'
        omega
      · intro hno
        exact absurd ⟨[], cs, rfl⟩ hno
  | case3 c h => exact absurd h (by simp)
  | case4 c cs h ih =>
      rw [List.cons.injEq, List.infix_cons_iff, not_or, ← ih]
      constructor
      · rintro ⟨-, hcs⟩
        refine ⟨?_, hcs⟩
        rintro ⟨t, ht⟩
        rw [List.cons_append, List.cons_append, List.nil_append, List.cons.injEq] at ht
        rcases ht with ⟨rfl, rfl⟩
        exact h (by simp)
      · rintro ⟨-, hcs⟩
        exact ⟨rfl, hcs⟩

/-! ### Where the text of `%q` is cut -/

/-- A text cut after some of its characters: it ends behind a character or behind the
backslash of one that is escaped. -/
theorem take_quoted (s : List Char) (n : Nat) (hn : n ≤ (s.flatMap quoteChar).length) :
    ∃ s' s'', s = s' ++ s'' ∧
      ((s.flatMap quoteChar).take n = s'.flatMap quoteChar ∧
          n + (s''.flatMap quoteChar).length = (s.flatMap quoteChar).length ∨
        (s.flatMap quoteChar).take n = s'.flatMap quoteChar ++ ['\\'] ∧ ∃ c ∈ s'', c ≠ ' ') := by
  induction s generalizing n with
  | nil => exact ⟨[], [], rfl, Or.inl ⟨by simp, by simpa using hn⟩⟩
  | cons c s ih =>
      rw [List.flatMap_cons] at hn ⊢
      rcases Nat.lt_or_ge n (quoteChar c).length with hlt | hge
      · -- the cut is before the end of the first character
        refine ⟨[], c :: s, rfl, ?_⟩
        have htake : (quoteChar c ++ s.flatMap quoteChar).take n = (quoteChar c).take n :=
          List.take_append_of_le_length (Nat.le_of_lt hlt)
        rw [htake]
        rcases Nat.eq_zero_or_pos n with rfl | hpos
        · exact Or.inl ⟨rfl, by simp⟩
        · right
          have hne : c ≠ ' ' := by
            rintro rfl
            have hlen : (quoteChar ' ').length = 1 := rfl
            omega
          refine ⟨?_, c, List.mem_cons_self, hne⟩
          unfold quoteChar at hlt ⊢
          split_ifs at hlt ⊢
          · have h1 : n = 1 := by simp only [List.length_cons, List.length_nil] at hlt; omega
            rw [h1]
            rfl
          · have h1 : n = 1 := by simp only [List.length_cons, List.length_nil] at hlt; omega
            rw [h1]
            rfl
          · simp only [List.length_cons, List.length_nil] at hlt
            omega
      · have hn' : n - (quoteChar c).length ≤ (s.flatMap quoteChar).length := by
          rw [List.length_append] at hn
          omega
        rcases ih _ hn' with ⟨s', s'', rfl, hcut⟩
        refine ⟨c :: s', s'', rfl, ?_⟩
        have htake : (quoteChar c ++ (s' ++ s'').flatMap quoteChar).take n =
            quoteChar c ++ ((s' ++ s'').flatMap quoteChar).take (n - (quoteChar c).length) := by
          rw [List.take_append, List.take_of_length_le hge]
        rw [htake, List.flatMap_cons]
        rcases hcut with ⟨htext, hlen⟩ | ⟨htext, hc⟩
        · left
          rw [htext, List.length_append]
          exact ⟨rfl, by omega⟩
        · right
          rw [htext, List.append_assoc]
          exact ⟨rfl, hc⟩

/-- Every text of decoded characters before the closing quote. -/
theorem foldr_push (s : List Char) (L : Literal) :
    s.foldr Literal.push L = ⟨s ++ L.text, L.rest, L.errs⟩ := by
  induction s with
  | nil => rfl
  | cons c s ih =>
      rw [List.foldr_cons, ih]
      rfl

/-- A whole quoted text. -/
theorem lexCharsInto_whole (s : List Char) :
    lexCharsInto '"' (s.flatMap quoteChar ++ ['"']) = ⟨collapse s, [], []⟩ := by
  rw [lexCharsInto_quoted s (by decide), lexCharsInto_quote, foldr_push, List.append_nil]

/-- A text cut behind a backslash is no literal. -/
theorem lexCharsInto_half (s : List Char) :
    (lexCharsInto '"' (s.flatMap quoteChar ++ ['\\', '"'])).errs ≠ [] := by
  have hesc : lexCharsInto '"' ['\\', '"'] = (lexCharsInto '"' []).push '"' :=
    lexCharsInto_escape (by decide) (by decide)
  rw [lexCharsInto_quoted s (by decide), hesc, foldr_push]
  exact List.cons_ne_nil _ _

/-- A cut text is not read back. -/
theorem cut_not_read {s : List Char} {n : Nat} (hn : n < (s.flatMap quoteChar).length) :
    lexCharsInto '"' ((s.flatMap quoteChar).take n ++ ['"']) ≠ ⟨s, [], []⟩ := by
  rcases take_quoted s n (Nat.le_of_lt hn) with ⟨s', s'', rfl, ⟨htext, hlen⟩ | ⟨htext, _⟩⟩
  · rw [htext, lexCharsInto_whole]
    intro heq
    have hle := (collapse_sublist s').length_le
    have hcollapse : collapse s' = s' ++ s'' := congrArg Literal.text heq
    rw [hcollapse, List.length_append] at hle
    have hnil : s'' = [] := List.eq_nil_of_length_eq_zero (by omega)
    rw [hnil] at hlen hn
    simp only [List.flatMap_nil, List.length_nil, Nat.add_zero] at hlen
    omega
  · rw [htext, List.append_assoc]
    intro heq
    have herrs := lexCharsInto_half s'
    rw [show ['\\', '"'] = ['\\'] ++ ['"'] from rfl, heq] at herrs
    exact herrs rfl

/-! ### What `%q` emits -/

/-- The argument of `%q`: a string, empty for a null pointer. -/
def Host.strArg (H : Host) (v : I64) : List Byte := if v = 0 then [] else H.cstr (2 ^ 64) v

theorem cstr_ne_zero {H : Host} {fuel : Nat} {a : I64} : ∀ b ∈ H.cstr fuel a, b ≠ 0 := by
  induction fuel generalizing a with
  | zero =>
      intro b hb
      exact absurd hb (by simp [Host.cstr])
  | succ fuel ih =>
      intro b hb
      rw [Host.cstr] at hb
      split_ifs at hb with h
      · exact absurd hb (by simp)
      · rcases List.mem_cons.mp hb with rfl | hb
        · exact h
        · exact ih b hb

theorem strArg_ne_zero (H : Host) (v : I64) : ∀ b ∈ H.strArg v, b ≠ 0 := by
  unfold Host.strArg
  split_ifs
  · simp
  · exact cstr_ne_zero

/-- The field of `%q` without a width. -/
def quotedField (left : Bool) (s : List Byte) (old : Body) : List Byte :=
  fmtField (bodyOf (quoted s) old) (toInt32 (quoted s).length) 0 left false

theorem toInt32_eq (n : Nat) :
    toInt32 n = if n % 2 ^ 32 < 2 ^ 31 then ((n % 2 ^ 32 : Nat) : Int)
      else ((n % 2 ^ 32 : Nat) : Int) - 2 ^ 32 := by
  unfold toInt32
  rw [BitVec.toInt_eq_toNat_cond, BitVec.toNat_ofNat]
  split_ifs <;> omega

/-- A length that is an `int`. -/
theorem quotedField_short (left : Bool) {s : List Byte} (h : (quoted s).length < 2 ^ 31)
    (old : Body) : quotedField left s old = quoted s := by
  have hlen : toInt32 (quoted s).length = (quoted s).length := by
    rw [toInt32_eq]
    omega
  unfold quotedField
  rw [hlen]
  have hzero : (0 : I32).toInt = 0 := rfl
  have hlt : (quoted s).length < 2 ^ 63 := by omega
  have hfield := fmtField_padded ⟨left, false, false, false⟩ 0 hlt old
  rw [hzero] at hfield
  rw [hfield]
  have hpad : (0 - ((quoted s).length : Int)).toNat = 0 := by omega
  rw [hpad, padded_none]

/-- A length that an `int` wraps to one that is not negative: the text is cut. -/
theorem quotedField_cut (left : Bool) {s : List Byte} (h : 0 ≤ toInt32 (quoted s).length)
    (old : Body) :
    quotedField left s old = (quoted s).take (toInt32 (quoted s).length).toNat := by
  have hle : (toInt32 (quoted s).length).toNat ≤ (quoted s).length := by
    rw [toInt32_eq] at h ⊢
    omega
  have hlt : toInt32 (quoted s).length < 2 ^ 31 := by
    rw [toInt32_eq]
    omega
  have hsize : (BitVec.ofInt 64 (toInt32 (quoted s).length)).toNat =
      (toInt32 (quoted s).length).toNat := by
    rw [BitVec.toNat_ofInt]
    omega
  unfold quotedField fmtField
  simp only
  rw [if_pos h, hsize, outEmit_bodyOf _ _ (by omega), List.drop_zero]

/-- A length that an `int` wraps to a negative one: blanks stand for what is missing to
zero, and the size is one of 64 bits. -/
theorem quotedField_negative (left : Bool) {s : List Byte} {m : Nat} (hm : 0 < m)
    (h : toInt32 (quoted s).length = -(m : Int)) (old : Body) :
    let emitted := outEmit (bodyOf (quoted s) old) 0 (2 ^ 64 - m)
    let blanks := List.replicate m (ch ' ')
    quotedField left s old = if left then emitted ++ blanks else blanks ++ emitted := by
  have hle : m ≤ 2 ^ 31 := by
    rw [toInt32_eq] at h
    omega
  have hsize : (BitVec.ofInt 64 (-(m : Int))).toNat = 2 ^ 64 - m := by
    rw [BitVec.toNat_ofInt]
    omega
  have hpad : (0 - -(m : Int)).toNat = m := by omega
  unfold quotedField fmtField outPad
  simp only
  rw [h, if_neg (by omega), hsize, hpad]
  simp

/-! ### When a string comes back -/

/-- Nothing else has as many of the other characters: what is left of a string that would
come back shifted by blanks is blank. -/
theorem count_shifted {s' s'' u : List Char} {m : Nat}
    (hu : ∀ c, u.count c = s'.count c + (List.replicate m ' ').count c)
    (h : collapse u = s' ++ s'') : (∀ c ∈ s'', c = ' ') ∧ s''.length = m := by
  have hblank : ∀ c ∈ s'', c = ' ' := by
    intro c hc
    by_contra hne
    have hle := (collapse_sublist u).count_le c
    have hrep : (List.replicate m ' ').count c = 0 := by
      rw [List.count_replicate]
      simp [Ne.symm hne]
    rw [h, List.count_append, hu, hrep] at hle
    have hpos := List.count_pos_iff.mpr hc
    omega
  refine ⟨hblank, ?_⟩
  have hperm : u.length = s'.length + m := by
    have hp : u.Perm (s' ++ List.replicate m ' ') := by
      rw [List.perm_iff_count]
      intro c
      rw [hu, List.count_append]
    rw [hp.length_eq, List.length_append, List.length_replicate]
  have hlen := length_collapse u
  have hdollar : s''.count '$' = 0 := by
    rw [List.count_eq_zero]
    intro hmem
    exact absurd (hblank _ hmem) (by decide)
  have hrep : (List.replicate m ' ').count '$' = 0 := by
    rw [List.count_replicate]
    simp
  rw [h, hu, hrep, List.count_append, hdollar, List.length_append, hperm] at hlen
  omega

theorem quoted_blanks {s : List Char} (h : ∀ c ∈ s, c = ' ') : s.flatMap quoteChar = s := by
  induction s with
  | nil => rfl
  | cons c s ih =>
      have hc := h c List.mem_cons_self
      rw [List.flatMap_cons, ih fun c' hc' => h c' (List.mem_cons_of_mem _ hc'), hc]
      rfl

/-- A text moved by `m` blanks and cut to `2 ^ 64` bytes is not read back. -/
theorem shifted_not_read {s : List Char} {m : Nat} (hm : 0 < m) (hm' : m ≤ 2 ^ 31)
    (hlen : 2 ^ 64 - m ≤ (s.flatMap quoteChar).length)
    (hmod : (s.flatMap quoteChar).length % 2 ^ 32 ≠ 0) (left : Bool) :
    let emitted := (s.flatMap quoteChar).take (2 ^ 64 - m)
    let blanks := List.replicate m ' '
    lexCharsInto '"' ((if left then emitted ++ blanks else blanks ++ emitted) ++ ['"']) ≠
      ⟨s, [], []⟩ := by
  intro emitted blanks heq
  have hb : blanks.flatMap quoteChar = blanks :=
    quoted_blanks fun c hc => (List.mem_replicate.mp hc).2
  rcases take_quoted s (2 ^ 64 - m) hlen with ⟨s', s'', rfl, ⟨htext, hrest⟩ | ⟨htext, c, hc, hne⟩⟩
  · -- the cut is behind a character: the text is that of the first part, moved
    have hshift : (∀ c ∈ s'', c = ' ') ∧ s''.length = m := by
      cases left with
      | true =>
          have hread := lexCharsInto_whole (s' ++ blanks)
          rw [List.flatMap_append, hb, ← htext] at hread
          refine count_shifted (fun c => ?_) (congrArg Literal.text (hread.symm.trans heq))
          rw [List.count_append]
      | false =>
          have hread := lexCharsInto_whole (blanks ++ s')
          rw [List.flatMap_append, hb, ← htext] at hread
          refine count_shifted (fun c => ?_) (congrArg Literal.text (hread.symm.trans heq))
          rw [List.count_append, Nat.add_comm]
    rw [quoted_blanks hshift.1, hshift.2] at hrest
    omega
  · -- the cut is behind a backslash
    cases left with
    | true =>
        -- the backslash takes the first blank
        have hread : lexCharsInto '"' (emitted ++ blanks ++ ['"']) =
            ⟨collapse s' ++ ' ' :: collapse (List.replicate (m - 1) ' '), [], []⟩ := by
          have hsucc : blanks = ' ' :: List.replicate (m - 1) ' ' := by
            have hm1 : m = m - 1 + 1 := by omega
            have hrep : List.replicate (m - 1 + 1) ' ' = ' ' :: List.replicate (m - 1) ' ' := rfl
            rw [← hrep, ← hm1]
          have htail := lexCharsInto_whole (List.replicate (m - 1) ' ')
          rw [quoted_blanks fun c hc => (List.mem_replicate.mp hc).2] at htail
          have hesc : lexCharsInto '"' ('\\' :: ' ' :: (List.replicate (m - 1) ' ' ++ ['"'])) =
              (lexCharsInto '"' (List.replicate (m - 1) ' ' ++ ['"'])).push ' ' :=
            lexCharsInto_escape (by decide) (by decide)
          have hall := lexCharsInto_quoted s'
            (t := '\\' :: ' ' :: (List.replicate (m - 1) ' ' ++ ['"'])) (by simp)
          rw [hesc, htail, foldr_push] at hall
          have hchars : emitted ++ blanks ++ ['"'] =
              s'.flatMap quoteChar ++ '\\' :: ' ' :: (List.replicate (m - 1) ' ' ++ ['"']) := by
            rw [hsucc]
            show (((s' ++ s'').flatMap quoteChar).take (2 ^ 64 - m) ++ _) ++ _ = _
            rw [htext]
            simp
          rw [hchars]
          exact hall
        have htext' : collapse s' ++ ' ' :: collapse (List.replicate (m - 1) ' ') = s' ++ s'' :=
          congrArg Literal.text (hread.symm.trans heq)
        have hcount := congrArg (List.count c) htext'
        have hrep : (' ' :: collapse (List.replicate (m - 1) ' ')).count c = 0 := by
          rw [List.count_eq_zero]
          intro hmem
          rcases List.mem_cons.mp hmem with rfl | hmem
          · exact hne rfl
          · exact hne (List.mem_replicate.mp ((collapse_sublist _).subset hmem)).2
        rw [List.count_append, List.count_append, hrep] at hcount
        have hle := (collapse_sublist s').count_le c
        have hpos := List.count_pos_iff.mpr hc
        omega
    | false =>
        have herrs := lexCharsInto_half (blanks ++ s')
        have hsplit : ['\\', '"'] = ['\\'] ++ ['"'] := rfl
        rw [List.flatMap_append, hb, hsplit, ← List.append_assoc, List.append_assoc blanks,
          ← htext] at herrs
        exact herrs (congrArg Literal.errs heq)

/-- Between double quotes the text is one string literal, and its bytes are `s`. -/
def ReadsBack (E : ScanEnv) (name : String) (text s : List Byte) : Prop :=
  ∃ t S, Scanner.lexToken E 1
      (Scanner.fromBuffer ('"' :: (text.map byteChar ++ ['"'])) name) = some (t, S) ∧
    t.kind = .strLit ∧ t.text = String.ofList (s.map byteChar) ∧ S.chars = [] ∧
    S.dirs.errors = []

theorem readsBack_iff_literal (E : ScanEnv) (name : String) (text s : List Byte) :
    ReadsBack E name text s ↔
      lexCharsInto '"' (text.map byteChar ++ ['"']) = ⟨s.map byteChar, [], []⟩ := by
  let cs := text.map byteChar ++ ['"']
  let S₀ := Scanner.fromBuffer ('"' :: cs) name
  let L := lexCharsInto '"' cs
  have hchars : S₀.chars = '"' :: cs := rfl
  have hmoved : (S₀.moveTo cs).chars = cs := Scanner.moveTo_chars (List.suffix_cons _ _)
  have hrest : ((S₀.moveTo cs).moveTo L.rest).chars = L.rest := by
    apply Scanner.moveTo_chars
    rw [hmoved]
    exact lexCharsInto_suffix _ _
  have htoken : Scanner.lexToken E 1 S₀ = some
      ({ kind := .strLit, text := String.ofList L.text, loc := S₀.here },
        ((S₀.moveTo cs).moveTo L.rest).errors (S₀.moveTo cs).here L.errs) := by
    unfold Scanner.lexToken
    simp only [hchars]
    rfl
  have hdirs : (((S₀.moveTo cs).moveTo L.rest).errors (S₀.moveTo cs).here L.errs).dirs.errors =
      L.errs.map ((S₀.moveTo cs).here, ·) := by
    rw [Scanner.errors_dirs, Scanner.moveTo_dirs, Scanner.moveTo_dirs]
    rfl
  constructor
  · rintro ⟨t, S, hlex, -, htext, hend, herrs⟩
    rw [htoken] at hlex
    cases hlex
    rw [hdirs, List.map_eq_nil_iff] at herrs
    have hend : L.rest = [] := hrest.symm.trans hend
    have htext : L.text = s.map byteChar := by
      have h := congrArg String.toList htext
      simpa using h
    show L = _
    rw [← htext, ← hend, ← herrs]
  · intro h
    have h : L = ⟨s.map byteChar, [], []⟩ := h
    refine ⟨_, _, htoken, rfl, by rw [h], ?_, ?_⟩
    · show ((S₀.moveTo cs).moveTo L.rest).chars = []
      rw [hrest, h]
    · rw [hdirs, h]
      rfl

/-- A text with a NUL is not read as a string without one. -/
theorem nul_not_read {s : List Byte} (hs : ∀ b ∈ s, b ≠ 0) {cs : List Char}
    (h : '\x00' ∈ cs) : lexCharsInto '"' (cs ++ ['"']) ≠ ⟨s.map byteChar, [], []⟩ := by
  intro heq
  have hnul : (lexCharsInto '"' (cs ++ ['"'])).KeepsNul :=
    nul_lexCharsInto (by decide) (List.mem_append_left _ h)
  rw [heq] at hnul
  rcases hnul with hmem | hmem | herr
  · rcases List.mem_map.mp hmem with ⟨b, hb, hzero⟩
    have hch := congrArg ch hzero
    rw [ch_byteChar] at hch
    exact hs b hb hch
  · exact absurd hmem (by simp)
  · exact herr rfl

/-- With a negative length the field is not read back: either it holds the terminator of
the text, or it is the text moved by blanks. -/
theorem negative_not_read (left : Bool) {s : List Byte} (hs : ∀ b ∈ s, b ≠ 0)
    (hneg : toInt32 (quoted s).length < 0) (old : Body) :
    lexCharsInto '"' ((quotedField left s old).map byteChar ++ ['"']) ≠
      ⟨s.map byteChar, [], []⟩ := by
  have hlen : (quoted s).length = ((s.map byteChar).flatMap quoteChar).length := by
    rw [← quoted_map, List.length_map]
  let m := (-(toInt32 (quoted s).length)).toNat
  have hm : toInt32 (quoted s).length = -(m : Int) := by omega
  have hpos : 0 < m := by omega
  have hle : m ≤ 2 ^ 31 := by
    rw [toInt32_eq] at hm
    omega
  have hfield := quotedField_negative left hpos hm old
  simp only at hfield
  rcases Nat.lt_or_ge (quoted s).length (2 ^ 64 - m) with hlt | hge
  · apply nul_not_read hs
    have hemitted : (0 : Byte) ∈ outEmit (bodyOf (quoted s) old) 0 (2 ^ 64 - m) := by
      unfold outEmit
      rw [List.mem_map]
      exact ⟨(quoted s).length, List.mem_range.mpr hlt, by simp [bodyOf]⟩
    have hmem : (0 : Byte) ∈ quotedField left s old := by
      rw [hfield]
      split_ifs
      · exact List.mem_append_left _ hemitted
      · exact List.mem_append_right _ hemitted
    exact List.mem_map.mpr ⟨0, hmem, by decide⟩
  · have hmod : (quoted s).length % 2 ^ 32 ≠ 0 := by
      rw [toInt32_eq] at hm
      omega
    rw [hlen] at hge hmod
    have hshift := shifted_not_read hpos hle hge hmod left
    have hemitted : (outEmit (bodyOf (quoted s) old) 0 (2 ^ 64 - m)).map byteChar =
        ((s.map byteChar).flatMap quoteChar).take (2 ^ 64 - m) := by
      rw [outEmit_bodyOf _ _ (by omega), List.drop_zero, List.map_take, quoted_map]
    have hblank : byteChar (ch ' ') = ' ' := by decide
    have htext : (quotedField left s old).map byteChar =
        if left then ((s.map byteChar).flatMap quoteChar).take (2 ^ 64 - m) ++ List.replicate m ' '
        else List.replicate m ' ' ++ ((s.map byteChar).flatMap quoteChar).take (2 ^ 64 - m) := by
      rw [hfield]
      split_ifs <;> rw [List.map_append, hemitted, List.map_replicate, hblank]
    rw [htext]
    exact hshift

/-- What `%q` emits comes back exactly when there are no two dollar signs in a row and its
length is an `int`. -/
theorem readsBack_quotedField (E : ScanEnv) (name : String) (left : Bool) {s : List Byte}
    (hs : ∀ b ∈ s, b ≠ 0) (old : Body) :
    ReadsBack E name (quotedField left s old) s ↔
      ¬ AdjacentDollars (s.map byteChar) ∧ (quoted s).length < 2 ^ 31 := by
  rw [readsBack_iff_literal]
  have hlen : (quoted s).length = ((s.map byteChar).flatMap quoteChar).length := by
    rw [← quoted_map, List.length_map]
  rcases Nat.lt_or_ge (quoted s).length (2 ^ 31) with hshort | hlong
  · rw [quotedField_short left hshort, quoted_map, lexCharsInto_whole]
    constructor
    · intro h
      exact ⟨(collapse_eq_self_iff _).mp (congrArg Literal.text h), hshort⟩
    · rintro ⟨h, -⟩
      rw [(collapse_eq_self_iff _).mpr h]
  · refine iff_of_false ?_ (fun h => absurd h.2 (Nat.not_lt.mpr hlong))
    by_cases hneg : toInt32 (quoted s).length < 0
    · exact negative_not_read left hs hneg old
    · have hpos := Int.not_lt.mp hneg
      rw [quotedField_cut left hpos, List.map_take, quoted_map]
      apply cut_not_read
      rw [← hlen]
      rw [toInt32_eq] at hpos ⊢
      omega

theorem convert_quoted {H : Host} {V : ArgVec} {c : Byte} (hc : c = ch 'q' ∨ c = ch 'Q')
    (f : Flags) (pr : I32) (A : Args) :
    convert H V f 0 pr c A =
      (quotedField f.left (H.strArg (nextArg V A).1) H.tmp, (nextArg V A).2) := by
  rcases hc with rfl | rfl <;> rfl

/-- A conversion `%q` or `%Q` without a width: the scan goes past it, and what it emits comes
back exactly when there are no two dollar signs in a row in its string and the length of the
quoted text is an `int`. -/
theorem scan_quoted (E : ScanEnv) (name : String) {H : Host} {V : ArgVec} {fmt : Nat → Byte}
    {S : Scan} {P : Params} {c : Byte} (hc : c = ch 'q' ∨ c = ch 'Q') (hw : P.width = [])
    (hS : S.pc = .head) (hat : Holds fmt S.p (ch '%' :: (P.text ++ [c]))) :
    let s := H.strArg (nextArg V S.args).1
    ∃ (j : Nat) (text : List Byte),
      (let S' := (Scan.step H V fmt)^[j] S
       S'.pc = .head ∧ S'.p = S.p + (P.text.length + 2) ∧ S'.out = S.out ++ text ∧
         S'.args = (nextArg V S.args).2) ∧
      (ReadsBack E name text s ↔
        ¬ AdjacentDollars (s.map byteChar) ∧ (quoted s).length < 2 ^ 31) := by
  have hcode : P.Code c := by
    have hall : ∀ d : Byte, d = ch 'q' ∨ d = ch 'Q' → isDigit d = false ∧ d ≠ ch '.' ∧
        isFlag d = false ∧ d ≠ 0 ∧ d ≠ ch '%' := by
      rintro d (rfl | rfl) <;> decide
    rcases hall c hc with ⟨h₁, h₂, h₃, h₄, h₅⟩
    exact ⟨⟨h₁, fun _ => h₂, fun _ _ => h₃⟩, h₄, fun _ => h₅⟩
  have hscan := scan_convert (H := H) (V := V) hcode hS hat
  have hzero : addDigits 0 P.width = 0 := by
    rw [hw]
    rfl
  rw [hzero, convert_quoted hc] at hscan
  rcases hscan with ⟨j, hj⟩
  exact ⟨j, _, hj, readsBack_quotedField E name P.flagSet.left (strArg_ne_zero H _) H.tmp⟩

/-- A memory that holds the string `s` at address 1. -/
def Host.holding (s : List Byte) : Host := { Host.bare with mem := fun a => s.getD (a.toNat - 1) 0 }

/-- Every string without a NUL is the argument of some call. -/
theorem strArg_holding {s : List Byte} (hs : ∀ b ∈ s, b ≠ 0) (hlen : s.length + 1 < 2 ^ 64) :
    (Host.holding s).strArg 1 = s := by
  have hcstr : ∀ (fuel i : Nat), i ≤ s.length → s.length < fuel + i →
      (Host.holding s).cstr fuel (BitVec.ofNat 64 (i + 1)) = s.drop i := by
    intro fuel
    induction fuel with
    | zero => intro i hi hf; omega
    | succ fuel ih =>
        intro i hi hf
        have hmem : (Host.holding s).mem (BitVec.ofNat 64 (i + 1)) = s.getD i 0 := by
          show s.getD ((BitVec.ofNat 64 (i + 1)).toNat - 1) 0 = _
          rw [BitVec.toNat_ofNat, Nat.mod_eq_of_lt (by omega), Nat.add_sub_cancel]
        rw [Host.cstr, hmem]
        rcases Nat.lt_or_ge i s.length with hlt | hge
        · have hget : s.getD i 0 = s[i] := by simp [hlt]
          have hnext : BitVec.ofNat 64 (i + 1) + 1 = BitVec.ofNat 64 (i + 1 + 1) :=
            (BitVec.ofNat_add (i + 1) 1).symm
          rw [hget, if_neg (hs _ (List.getElem_mem hlt)), hnext, ih (i + 1) hlt (by omega),
            List.drop_eq_getElem_cons hlt]
        · have hend : s.getD i 0 = 0 := by simp [hge]
          rw [hend, if_pos rfl, List.drop_eq_nil_of_le hge]
  unfold Host.strArg
  rw [if_neg (by decide)]
  exact hcstr (2 ^ 64) 0 (Nat.zero_le _) (by omega)

/-- A string with a quotation mark and a dollar sign comes back. -/
theorem scan_quoted_mark : ∃ (j : Nat) (text : List Byte),
    ((Scan.step (.holding (chs "a\"$b")) ⟨1, fun _ => 1⟩ (formatOf "%Q"))^[j] {}).out = text ∧
      ReadsBack .bare "f" text (chs "a\"$b") := by
  let P : Params := ⟨[], [], none, by simp, by simp, by simp, by simp⟩
  have hat : Holds (formatOf "%Q") 0 (ch '%' :: (P.text ++ [ch 'Q'])) := ⟨rfl, rfl, trivial⟩
  have hscan := scan_quoted .bare "f" (H := .holding (chs "a\"$b")) (V := ⟨1, fun _ => 1⟩)
    (S := {}) (Or.inr rfl) rfl rfl hat
  have harg : (Host.holding (chs "a\"$b")).strArg 1 = chs "a\"$b" :=
    strArg_holding (by decide) (by decide)
  rcases hscan with ⟨j, text, ⟨-, -, hout, -⟩, hiff⟩
  have hnext : (nextArg ⟨1, fun _ => 1⟩ ({} : Scan).args).1 = 1 := rfl
  rw [hnext, harg] at hiff
  refine ⟨j, text, hout, hiff.mpr ⟨?_, by decide⟩⟩
  unfold AdjacentDollars
  decide

/-- Two dollar signs come back as one. -/
theorem dollars_not_read :
    (hcFormat (.holding (chs "$$")) ⟨1, fun _ => 1⟩ (formatOf "%Q") 7).out = chs "$$" ∧
      ¬ ReadsBack .bare "f" (chs "$$") (chs "$$") := by
  constructor
  · decide
  · rw [readsBack_iff_literal]
    intro h
    exact absurd (congrArg Literal.text h) (by decide)

end Hlang.Runtime
