import Hlang.Runtime.IntField

/-!
# Hlang.Runtime.Compose — formatting piece by piece

The scan of a format leaves each complete piece exactly behind its last
character, at the head of the outer loop, and all that later pieces see of it is
how many arguments it took. So the output of a sequence of pieces is the
concatenation of the outputs of the pieces, each formatted alone with the
arguments that are left.
-/

namespace Hlang.Runtime

/-! ## The arguments that are left -/

/-- The argument number `i`; missing ones are 0. -/
def ArgVec.arg (V : ArgVec) (i : Nat) : I64 := if (i : Int) < V.argc.toInt then V.argv i else 0

/-- The arguments from number `n` on. -/
def ArgVec.drop (V : ArgVec) (n : Nat) : ArgVec where
  argc := BitVec.ofInt 64 (max (V.argc.toInt - n) 0)
  argv := fun i => V.argv (n + i)

theorem ArgVec.arg_drop (V : ArgVec) (n i : Nat) : (V.drop n).arg i = V.arg (n + i) := by
  have hlt := BitVec.toInt_lt (x := V.argc)
  have hargc : (V.drop n).argc.toInt = max (V.argc.toInt - n) 0 := by
    apply BitVec.toInt_ofInt_eq_self (by decide)
    · omega
    · omega
  unfold arg
  rw [hargc]
  by_cases h : ((n + i : Nat) : Int) < V.argc.toInt
  · rw [if_pos h, if_pos (by omega)]
    rfl
  · rw [if_neg h, if_neg (by omega)]

/-- `n` arguments were asked for; those that exist were taken. -/
def Args.Taken (V : ArgVec) (A : Args) (n : Nat) : Prop := A.ai = min n V.argc.toInt.toNat

variable {H : Host} {V : ArgVec} {fmt : Nat → Byte}

theorem taken_zero : ({} : Args).Taken V 0 := (Nat.zero_min _).symm

theorem Args.Taken.nextArg {A : Args} {n : Nat} (h : A.Taken V n) :
    (nextArg V A).1 = V.arg n ∧ (nextArg V A).2.Taken V (n + 1) := by
  unfold Args.Taken at h ⊢
  unfold Runtime.nextArg ArgVec.arg
  by_cases hlt : (n : Int) < V.argc.toInt
  · have hai : A.ai = n := by omega
    rw [hai, if_pos hlt, if_pos hlt]
    refine ⟨rfl, ?_⟩
    show n + 1 = _
    omega
  · rw [if_neg hlt, if_neg (by omega)]
    refine ⟨rfl, ?_⟩
    show A.ai = _
    omega

/-! ## Conversions -/

/-- The arguments that a conversion takes: `%z` two, an unknown one none, any other one. -/
def takes (c : Byte) : Nat :=
  match Char.ofNat c.toNat with
  | 'd' | 'i' | 'u' | 'x' | 'X' | 'p' | 'P' | 'c' | 's' | 'q' | 'Q' | 'f' | 'e' | 'g' | 'D' | 'T' => 1
  | 'z' => 2
  | _ => 0

/-- A conversion sees its next two arguments only. -/
theorem convert_congr (f : Flags) (w pr : I32) (c : Byte) {V' : ArgVec} {A A' : Args}
    (h₁ : (nextArg V A).1 = (nextArg V' A').1)
    (h₂ : (nextArg V (nextArg V A).2).1 = (nextArg V' (nextArg V' A').2).1) :
    (convert H V f w pr c A).1 = (convert H V' f w pr c A').1 := by
  unfold convert
  simp only [h₁, h₂]
  split <;> first | rfl | (split_ifs <;> rfl)

/-- How far a conversion gets in the argument vector. -/
theorem convert_taken (f : Flags) (w pr : I32) (c : Byte) {A : Args} {n : Nat} (h : A.Taken V n) :
    (convert H V f w pr c A).2.Taken V (n + takes c) := by
  have h₁ := h.nextArg.2
  have h₂ := h₁.nextArg.2
  unfold convert takes
  dsimp only
  generalize Char.ofNat c.toNat = d
  split <;> first | exact h₁ | (split_ifs <;> exact h₂) | skip
  -- an unknown conversion
  split <;> first | exact h | contradiction

theorem convert_drop (f : Flags) (w pr : I32) (c : Byte) {A : Args} {n : Nat} (h : A.Taken V n) :
    (convert H V f w pr c A).1 = (convert H (V.drop n) f w pr c {}).1 := by
  have h₁ := h.nextArg
  have h₂ := h₁.2.nextArg
  have hd₁ := (taken_zero (V := V.drop n)).nextArg
  have hd₂ := hd₁.2.nextArg
  apply convert_congr
  · rw [h₁.1, hd₁.1, V.arg_drop]
    rfl
  · rw [h₂.1, hd₂.1, V.arg_drop]

/-! ## Pieces -/

/-- The arguments that a piece takes. -/
def Piece.takes : Piece → Nat
  | .lit _ _ | .percent => 0
  | .conv _ c _ => Runtime.takes c

/-- What a piece emits at the front of the argument vector. -/
def Piece.output (H : Host) (V : ArgVec) : Piece → List Byte
  | .lit c _ => [c]
  | .percent => [ch '%']
  | .conv P c _ => (convert H V P.flagSet (addDigits 0 P.width) P.precision c {}).1

/-- The outputs of the pieces in order, each with the arguments that are left of its
predecessors, of which `n` are gone before the first. -/
def outputs (H : Host) (V : ArgVec) : Nat → List Piece → List Byte
  | _, [] => []
  | n, q :: ps => q.output H (V.drop n) ++ outputs H V (n + q.takes) ps

/-- The scan goes past a piece. -/
theorem scan_piece {S : Scan} {q : Piece} {n : Nat} (hS : S.pc = .head)
    (hat : Holds fmt S.p q.text) (hn : S.args.Taken V n) :
    ∃ j, let S' := (Scan.step H V fmt)^[j] S
      S'.pc = .head ∧ S'.p = S.p + q.text.length ∧ S'.out = S.out ++ q.output H (V.drop n) ∧
        S'.args.Taken V (n + q.takes) := by
  cases q with
  | lit c hc =>
      have hchar : fmt S.p = c := hat.1
      refine ⟨1, ?_⟩
      simp only [Function.iterate_one, Scan.step, hS, hchar, if_neg hc.1, if_pos hc.2]
      exact ⟨trivial, rfl, rfl, hn⟩
  | percent =>
      have hfirst : fmt S.p = ch '%' := hat.1
      have hsecond : fmt (S.p + 1) = ch '%' := hat.2.1
      refine ⟨2, ?_⟩
      have hstep : Scan.step H V fmt S =
          { S with pc := .percent, p := S.p + 1, reads := S.reads ++ [S.p] } := by
        simp only [Scan.step, hS, hfirst, if_neg ch_percent_ne_zero, ne_eq, not_true, if_false]
      rw [Function.iterate_succ_apply, Function.iterate_one, hstep]
      simp only [Scan.step, hsecond, if_neg ch_percent_ne_zero, if_true]
      exact ⟨trivial, rfl, rfl, hn⟩
  | conv P c hc =>
      rcases scan_convert (H := H) (V := V) hc hS hat with ⟨j, hpc, hp, hout, hargs⟩
      refine ⟨j, hpc, ?_, ?_, ?_⟩
      · rw [hp]
        simp only [Piece.text, List.length_cons, List.length_append, List.length_nil]
      · rw [hout, convert_drop _ _ _ _ hn]
        rfl
      · rw [hargs]
        exact convert_taken _ _ _ _ hn

/-- The scan goes past the pieces, one after the other. -/
theorem scan_pieces {S : Scan} {ps : List Piece} {n : Nat} (hS : S.pc = .head)
    (hat : Holds fmt S.p (piecesText ps)) (hn : S.args.Taken V n) :
    ∃ j, let S' := (Scan.step H V fmt)^[j] S
      S'.pc = .head ∧ S'.p = S.p + (piecesText ps).length ∧ S'.out = S.out ++ outputs H V n ps := by
  induction ps generalizing S n with
  | nil => exact ⟨0, hS, rfl, (List.append_nil _).symm⟩
  | cons q ps ih =>
      rw [piecesText, List.flatMap_cons, holds_append] at hat
      rcases scan_piece (H := H) hS hat.1 hn with ⟨j, hpc, hp, hout, htaken⟩
      have hrest : Holds fmt ((Scan.step H V fmt)^[j] S).p (piecesText ps) := by
        rw [hp]
        exact hat.2
      rcases ih hpc hrest htaken with ⟨j', hpc', hp', hout'⟩
      refine ⟨j' + j, ?_⟩
      rw [Function.iterate_add_apply]
      refine ⟨hpc', ?_, ?_⟩
      · rw [hp', hp, piecesText, piecesText, List.flatMap_cons, List.length_append, Nat.add_assoc]
      · rw [hout', hout, outputs, List.append_assoc]

/-! ## Whole formats -/

/-- A NUL-terminated string. -/
def fmtText (s : List Byte) : Nat → Byte := fun i => s.getD i 0

/-- The formatter ends, and its output is `out`. -/
def Prints (H : Host) (V : ArgVec) (fmt : Nat → Byte) (out : List Byte) : Prop :=
  ∃ k, (hcFormat H V (some fmt) k).pc = .done ∧ (hcFormat H V (some fmt) k).out = out

theorem done_stays {S : Scan} (h : S.pc = .done) (j : Nat) : (Scan.step H V fmt)^[j] S = S := by
  have hstep : Scan.step H V fmt S = S := by
    simp only [Scan.step, h]
  exact Function.iterate_fixed hstep j

theorem hcFormat_some (k : Nat) : hcFormat H V (some fmt) k = (Scan.step H V fmt)^[k] {} := rfl

theorem hcFormat_add (j k : Nat) :
    hcFormat H V (some fmt) (j + k) = (Scan.step H V fmt)^[j] (hcFormat H V (some fmt) k) := by
  rw [hcFormat_some, hcFormat_some, Function.iterate_add_apply]

/-- The output is determined. -/
theorem Prints.unique {out out' : List Byte} (h : Prints H V fmt out) (h' : Prints H V fmt out') :
    out = out' := by
  rcases h with ⟨k, hpc, rfl⟩
  rcases h' with ⟨k', hpc', rfl⟩
  have hk := (hcFormat_add k' k).trans (done_stays hpc k')
  have hk' := (hcFormat_add k k').trans (done_stays hpc' k)
  rw [← hk, ← hk', Nat.add_comm]

theorem holds_fmtText (s : List Byte) : Holds (fmtText s) 0 (s ++ [0]) := by
  have hall : ∀ (t : List Byte) (p : Nat), (∀ i, fmtText s (p + i) = t.getD i 0) →
      Holds (fmtText s) p (t ++ [0]) := by
    intro t
    induction t with
    | nil =>
        intro p hp
        exact ⟨hp 0, trivial⟩
    | cons c t ih =>
        intro p hp
        refine ⟨hp 0, ih (p + 1) ?_⟩
        intro i
        rw [Nat.add_right_comm, Nat.add_assoc, hp (i + 1)]
        rfl
  apply hall s 0
  intro i
  rw [Nat.zero_add]
  rfl

/-- A format of pieces prints their outputs. -/
theorem prints_pieces {ps : List Piece} (hat : Holds fmt 0 (piecesText ps ++ [0])) :
    Prints H V fmt (outputs H V 0 ps) := by
  rw [holds_append] at hat
  rcases scan_pieces (H := H) (S := {}) rfl hat.1 (taken_zero (V := V)) with ⟨j, hpc, hp, hout⟩
  refine ⟨j + 1, ?_⟩
  have hnul : fmt ((Scan.step H V fmt)^[j] {}).p = 0 := by
    rw [hp]
    exact hat.2.1
  rw [hcFormat_some, Function.iterate_succ_apply']
  simp only [Scan.step, hpc, hnul, if_true]
  exact ⟨trivial, hout⟩

/-- A piece alone prints its output. -/
theorem prints_piece (q : Piece) : Prints H V (fmtText q.text) (q.output H V) := by
  have hat : Holds (fmtText q.text) 0 (piecesText [q] ++ [0]) := by
    have htext : piecesText [q] = q.text := List.append_nil _
    rw [htext]
    exact holds_fmtText q.text
  have hprints := prints_pieces (H := H) (V := V) hat
  have hsame : outputs H V 0 [q] = q.output H V := by
    rw [outputs, outputs, List.append_nil]
    cases q with
    | lit c hc => rfl
    | percent => rfl
    | conv P c hc => exact (convert_drop _ _ _ _ taken_zero).symm
  rwa [hsame] at hprints

/-! ## Doubled percent signs -/

/-- Every `%` doubled. -/
def doubled (s : List Byte) : List Byte :=
  s.flatMap fun c => if c = ch '%' then [ch '%', ch '%'] else [c]

/-- The pieces of a string whose percent signs are doubled. -/
theorem exists_doubled {s : List Byte} (h0 : ∀ c ∈ s, c ≠ 0) :
    ∃ ps : List Piece, piecesText ps = doubled s ∧ ∀ H V n, outputs H V n ps = s := by
  induction s with
  | nil => exact ⟨[], rfl, fun _ _ _ => rfl⟩
  | cons c s ih =>
      rcases ih fun d hd => h0 d (List.mem_cons_of_mem _ hd) with ⟨ps, htext, hout⟩
      have hpieces : ∀ q : Piece, piecesText (q :: ps) = q.text ++ doubled s := by
        intro q
        rw [← htext]
        rfl
      have hcons : doubled (c :: s) = (if c = ch '%' then [ch '%', ch '%'] else [c]) ++ doubled s :=
        List.flatMap_cons
      by_cases hc : c = ch '%'
      · refine ⟨.percent :: ps, ?_, ?_⟩
        · rw [hpieces, hcons, if_pos hc]
          rfl
        · intro H V n
          rw [outputs, hout, hc]
          rfl
      · refine ⟨.lit c ⟨h0 c List.mem_cons_self, hc⟩ :: ps, ?_, ?_⟩
        · rw [hpieces, hcons, if_neg hc]
          rfl
        · intro H V n
          rw [outputs, hout]
          rfl

/-- Formatting is compositional: pieces print their outputs one after the other, each what it
prints alone with the arguments that are left. A string with its percent signs doubled prints
itself. -/
theorem format_compositional {ps : List Piece} (hat : Holds fmt 0 (piecesText ps ++ [0]))
    (H : Host) (V : ArgVec) :
    Prints H V fmt (outputs H V 0 ps) ∧
      (∀ (q : Piece) (V' : ArgVec), Prints H V' (fmtText q.text) (q.output H V')) ∧
      ∀ s : List Byte, (∀ c ∈ s, c ≠ 0) → Prints H V (fmtText (doubled s)) s := by
  refine ⟨prints_pieces hat, fun q V' => prints_piece q, ?_⟩
  intro s hs
  rcases exists_doubled hs with ⟨ps', htext, hout⟩
  have hprints : Prints H V (fmtText (doubled s)) (outputs H V 0 ps') :=
    prints_pieces (htext ▸ holds_fmtText (doubled s))
  rwa [hout] at hprints

/-- The pieces of `%d|%5s%%%z`. -/
def samplePieces : List Piece :=
  [.conv ⟨[], [], none, by decide, by decide, by decide, by simp⟩ (ch 'd')
      ⟨⟨by decide, fun _ => by decide, fun _ _ => by decide⟩, by decide, fun _ => by decide⟩,
    .lit (ch '|') (by decide),
    .conv ⟨[], chs "5", none, by decide, by decide, by decide, by simp⟩ (ch 's')
      ⟨⟨by decide, fun _ => by decide, fun _ _ => by decide⟩, by decide, fun _ => by decide⟩,
    .percent,
    .conv ⟨[], [], none, by decide, by decide, by decide, by simp⟩ (ch 'z')
      ⟨⟨by decide, fun _ => by decide, fun _ _ => by decide⟩, by decide, fun _ => by decide⟩]

theorem sample_compositional :
    Prints .bare ⟨1, fun _ => 7⟩ (formatOf "%d|%5s%%%z")
        (outputs .bare ⟨1, fun _ => 7⟩ 0 samplePieces) ∧
      (∀ (q : Piece) (V' : ArgVec), Prints .bare V' (fmtText q.text) (q.output .bare V')) ∧
      ∀ s : List Byte, (∀ c ∈ s, c ≠ 0) → Prints .bare ⟨1, fun _ => 7⟩ (fmtText (doubled s)) s := by
  have hat : Holds (formatOf "%d|%5s%%%z") 0 (piecesText samplePieces ++ [0]) :=
    ⟨rfl, rfl, rfl, rfl, rfl, rfl, rfl, rfl, rfl, rfl, rfl, trivial⟩
  exact format_compositional hat _ _

example : outputs .bare ⟨1, fun _ => 7⟩ 0 samplePieces = chs "7|(null)%" := by decide +kernel

end Hlang.Runtime
