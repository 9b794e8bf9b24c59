import Hlang.Runtime.Format
import Mathlib.Data.List.TakeWhile
import Mathlib.Tactic.Common

/-!
# Hlang.Runtime.FormatScan — what the scan of a format reads

A format string is a sequence of pieces (literal bytes, `%%` and complete
conversions) and a tail: nothing, a lone `%`, or a conversion that ends before
its character. The scan goes through the pieces one after the other; it leaves
the string exactly when the tail is a cut conversion, whose terminator the
`default` branch of the `switch` consumes.
-/

namespace Hlang.Runtime

/-! ## The grammar of formats -/

/-- The characters of the loop over the flags. -/
def isFlag (c : Byte) : Bool := c = ch '-' || c = ch '0' || c = ch ',' || c = ch '+'

/-- The characters of the loops over width and precision. -/
def isDigit (c : Byte) : Bool := (digit? c).isSome

theorem add_isSome (f : Flags) (c : Byte) : (f.add c).isSome = isFlag c := by
  unfold Flags.add isFlag
  split_ifs with h₁ h₂ h₃ h₄ <;> simp [*]

/-- What stands between a `%` and the character of the conversion. -/
structure Params where
  flags : List Byte
  width : List Byte
  prec : Option (List Byte)
  flags_ok : ∀ c ∈ flags, isFlag c = true
  width_ok : ∀ c ∈ width, isDigit c = true
  width_head : ∀ c ∈ width.head?, isFlag c = false
  prec_ok : ∀ ds ∈ prec, ∀ c ∈ ds, isDigit c = true

namespace Params

theorem no_flags : ∀ c ∈ ([] : List Byte), isFlag c = true := List.forall_mem_nil _

theorem no_width : ∀ c ∈ ([] : List Byte), isDigit c = true := List.forall_mem_nil _

theorem no_head : ∀ c ∈ ([] : List Byte).head?, isFlag c = false :=
  fun c h => absurd h (Option.not_mem_none c)

theorem no_prec : ∀ ds ∈ (none : Option (List Byte)), ∀ c ∈ ds, isDigit c = true :=
  fun ds h => absurd h (Option.not_mem_none ds)

/-- The dot and the digits of the precision. -/
def precText (P : Params) : List Byte := P.prec.elim [] (ch '.' :: ·)

def text (P : Params) : List Byte := P.flags ++ (P.width ++ P.precText)

/-- The character `c` does not continue the parameters. -/
structure Ends (P : Params) (c : Byte) : Prop where
  digit : isDigit c = false
  dot : P.prec = none → c ≠ ch '.'
  flag : P.prec = none → P.width = [] → isFlag c = false

/-- The character `c` makes a conversion of the parameters. -/
structure Code (P : Params) (c : Byte) : Prop extends P.Ends c where
  ne_zero : c ≠ 0
  ne_percent : P.text = [] → c ≠ ch '%'

end Params

/-- A complete piece of a format. -/
inductive Piece where
  | lit (c : Byte) (h : c ≠ 0 ∧ c ≠ ch '%')
  /-- `%%` -/
  | percent
  | conv (P : Params) (c : Byte) (h : P.Code c)

def Piece.text : Piece → List Byte
  | .lit c _ => [c]
  | .percent => [ch '%', ch '%']
  | .conv P c _ => ch '%' :: (P.text ++ [c])

/-- What a format ends in. -/
inductive Tail where
  | nothing
  | percent
  /-- a conversion without its character -/
  | cut (P : Params) (h : P.text ≠ [])

def Tail.text : Tail → List Byte
  | .nothing => []
  | .percent => [ch '%']
  | .cut P _ => ch '%' :: P.text

/-- The text of a sequence of pieces. -/
def piecesText (ps : List Piece) : List Byte := ps.flatMap Piece.text

/-- A character of the parameters is no terminator and no `%`. -/
theorem Params.mem_text {P : Params} {c : Byte} (h : c ∈ P.text) : c ≠ 0 ∧ c ≠ ch '%' := by
  have hflag : isFlag c = true → c ≠ 0 ∧ c ≠ ch '%' := by
    intro hc
    constructor <;> rintro rfl <;> exact absurd hc (by decide)
  have hdigit : isDigit c = true → c ≠ 0 ∧ c ≠ ch '%' := by
    intro hc
    constructor <;> rintro rfl <;> exact absurd hc (by decide)
  unfold Params.text Params.precText at h
  rcases List.mem_append.mp h with h | h
  · exact hflag (P.flags_ok c h)
  · rcases List.mem_append.mp h with h | h
    · exact hdigit (P.width_ok c h)
    · cases hpr : P.prec with
      | none => simp [hpr] at h
      | some ds =>
          rw [hpr] at h
          rcases List.mem_cons.mp h with rfl | h
          · decide
          · exact hdigit (P.prec_ok ds hpr c h)

theorem ch_percent_ne_zero : ch '%' ≠ 0 := by decide

theorem isFlag_zero : isFlag 0 = false := by decide

theorem isDigit_zero : isDigit 0 = false := by decide

theorem isFlag_percent : isFlag (ch '%') = false := by decide

/-! ## Every string is pieces and a tail -/

/-- The first element after the longest prefix does not continue it. -/
theorem head_dropWhile {p : Byte → Bool} {s rest : List Byte} {c : Byte}
    (h : s.dropWhile p = c :: rest) : p c = false := by
  have hne : s.dropWhile p ≠ [] := by
    rw [h]
    exact List.cons_ne_nil _ _
  have hhead := List.head_dropWhile_not p hne
  simpa [h] using hhead

/-- The flags, the width and the precision at the start of a string. -/
theorem exists_params (s : List Byte) :
    ∃ (P : Params) (rest : List Byte), s = P.text ++ rest ∧
      ∀ c rest', rest = c :: rest' → P.Ends c := by
  let fs := s.takeWhile isFlag
  let s₁ := s.dropWhile isFlag
  let ws := s₁.takeWhile isDigit
  let s₂ := s₁.dropWhile isDigit
  have hs : s = fs ++ (ws ++ s₂) := by
    rw [List.takeWhile_append_dropWhile, List.takeWhile_append_dropWhile]
  have hfs : ∀ c ∈ fs, isFlag c = true := fun c hc => List.mem_takeWhile_imp hc
  have hws : ∀ c ∈ ws, isDigit c = true := fun c hc => List.mem_takeWhile_imp hc
  have hhead : ∀ c ∈ ws.head?, isFlag c = false := by
    intro c hc
    cases hs₁ : s₁ with
    | nil => simp [ws, hs₁] at hc
    | cons d t =>
        have hd := head_dropWhile hs₁
        simp only [ws, hs₁, List.takeWhile_cons] at hc
        split at hc
        · rcases Option.some.inj hc with rfl
          exact hd
        · cases hc
  have hflag : ws = [] → ∀ c t, s₂ = c :: t → isFlag c = false := by
    intro hnil c t hs₂
    have hs₁ : s₁ = c :: t := by
      rw [← hs₂, ← List.takeWhile_append_dropWhile (p := isDigit) (l := s₁)]
      exact (congrArg (· ++ s₂) hnil).trans rfl
    exact head_dropWhile hs₁
  by_cases hdot : ∃ t, s₂ = ch '.' :: t
  · rcases hdot with ⟨t, hdot⟩
    have hds : ∀ ds ∈ some (t.takeWhile isDigit), ∀ c ∈ ds, isDigit c = true := by
      intro ds hmem c hc
      rcases Option.some.inj hmem with rfl
      exact List.mem_takeWhile_imp hc
    refine ⟨⟨fs, ws, some (t.takeWhile isDigit), hfs, hws, hhead, hds⟩, t.dropWhile isDigit,
      ?_, ?_⟩
    · unfold Params.text Params.precText
      rw [hs, hdot]
      simp [List.takeWhile_append_dropWhile]
    · intro c rest' hrest
      constructor
      · exact head_dropWhile hrest
      · intro h
        cases h
      · intro h
        cases h
  · refine ⟨⟨fs, ws, none, hfs, hws, hhead, by simp⟩, s₂, ?_, ?_⟩
    · unfold Params.text Params.precText
      simpa using hs
    · intro c rest' hrest
      constructor
      · exact head_dropWhile hrest
      · intro _ hc
        exact hdot ⟨rest', by rw [hrest, hc]⟩
      · intro _ hnil
        exact hflag hnil c rest' hrest

/-- A format is pieces and a tail. -/
theorem exists_pieces (s : List Byte) (h0 : ∀ c ∈ s, c ≠ 0) :
    ∃ (ps : List Piece) (t : Tail), s = piecesText ps ++ t.text := by
  -- the induction is on the length, since a conversion takes several characters
  induction hn : s.length using Nat.strongRecOn generalizing s with
  | _ n ih =>
    have hnext : ∀ (p : Piece) (rest : List Byte), s = p.text ++ rest → p.text ≠ [] →
        ∃ (ps : List Piece) (t : Tail), s = piecesText ps ++ t.text := by
      intro p rest hs hne
      have hpos := List.length_pos_iff.mpr hne
      have hlen : rest.length < n := by
        rw [← hn, hs, List.length_append]
        omega
      have h0' : ∀ c ∈ rest, c ≠ 0 := by
        intro c hc
        apply h0
        rw [hs]
        exact List.mem_append_right _ hc
      rcases ih _ hlen rest h0' rfl with ⟨ps, t, hrest⟩
      refine ⟨p :: ps, t, ?_⟩
      rw [hs, hrest]
      simp [piecesText]
    match s, hnext with
    | [], _ => exact ⟨[], .nothing, rfl⟩
    | c :: s', hnext =>
        by_cases hc : c = ch '%'
        · subst hc
          rcases exists_params s' with ⟨P, rest, hs', hends⟩
          match rest, hends with
          | [], _ =>
              rw [List.append_nil] at hs'
              by_cases hP : P.text = []
              · refine ⟨[], .percent, ?_⟩
                rw [hs', hP]
                rfl
              · refine ⟨[], .cut P hP, ?_⟩
                rw [hs']
                rfl
          | d :: rest', hends =>
              by_cases hd : P.text = [] ∧ d = ch '%'
              · refine hnext .percent rest' ?_ (by simp [Piece.text])
                rw [hs', hd.1, hd.2]
                rfl
              · have hd0 : d ≠ 0 := by
                  apply h0
                  rw [hs']
                  simp
                have hcode : P.Code d := by
                  refine ⟨hends d rest' rfl, hd0, ?_⟩
                  intro hP hpct
                  exact hd ⟨hP, hpct⟩
                refine hnext (.conv P d hcode) rest' ?_ (by simp [Piece.text])
                rw [hs']
                simp [Piece.text]
        · have hc0 := h0 c (by simp)
          exact hnext (.lit c ⟨hc0, hc⟩) s' rfl (by simp [Piece.text])

/-! ## Steps of the scan -/

/-- The bytes `s` stand at offset `p` of the format. -/
def Holds (fmt : Nat → Byte) (p : Nat) : List Byte → Prop
  | [] => True
  | c :: s => fmt p = c ∧ Holds fmt (p + 1) s

@[simp] theorem holds_nil (fmt : Nat → Byte) (p : Nat) : Holds fmt p [] := trivial

@[simp] theorem holds_cons {fmt : Nat → Byte} {p : Nat} {c : Byte} {s : List Byte} :
    Holds fmt p (c :: s) ↔ fmt p = c ∧ Holds fmt (p + 1) s := Iff.rfl

theorem holds_append {fmt : Nat → Byte} {p : Nat} {s t : List Byte} :
    Holds fmt p (s ++ t) ↔ Holds fmt p s ∧ Holds fmt (p + s.length) t := by
  induction s generalizing p with
  | nil => simp
  | cons c s ih =>
      rw [List.cons_append, holds_cons, holds_cons, ih, and_assoc, List.length_cons,
        Nat.add_assoc, Nat.add_comm 1]

variable {H : Host} {V : ArgVec} {fmt : Nat → Byte}

/-- Some number of steps leads from `S` to the position `pc` at offset `p`. -/
def Leads (H : Host) (V : ArgVec) (fmt : Nat → Byte) (S : Scan) (pc : Pc) (p : Nat) : Prop :=
  ∃ k, ((Scan.step H V fmt)^[k] S).pc = pc ∧ ((Scan.step H V fmt)^[k] S).p = p

theorem Leads.refl (H : Host) (V : ArgVec) (fmt : Nat → Byte) (S : Scan) :
    Leads H V fmt S S.pc S.p := ⟨0, rfl, rfl⟩

/-- Where a run goes depends on the position and the offset it has reached only. -/
theorem Leads.trans {S : Scan} {pc pc' : Pc} {p p' : Nat} (h : Leads H V fmt S pc p)
    (h' : ∀ S', S'.pc = pc → S'.p = p → Leads H V fmt S' pc' p') : Leads H V fmt S pc' p' := by
  rcases h with ⟨k, hpc, hp⟩
  rcases h' _ hpc hp with ⟨k', hpc', hp'⟩
  refine ⟨k' + k, ?_⟩
  rw [Function.iterate_add_apply]
  exact ⟨hpc', hp'⟩

theorem Leads.step {S : Scan} {pc pc' : Pc} {p p' : Nat} (h : Leads H V fmt S pc p)
    (h' : ∀ S', S'.pc = pc → S'.p = p →
      (Scan.step H V fmt S').pc = pc' ∧ (Scan.step H V fmt S').p = p') :
    Leads H V fmt S pc' p' :=
  h.trans fun S' hpc hp => ⟨1, h' S' hpc hp⟩

/-- Some number of steps leads from `S` to the position `pc` at offset `p`, and emits and
takes nothing. -/
def Moves (H : Host) (V : ArgVec) (fmt : Nat → Byte) (S : Scan) (pc : Pc) (p : Nat) : Prop :=
  ∃ k, let S' := (Scan.step H V fmt)^[k] S
    S'.pc = pc ∧ S'.p = p ∧ S'.out = S.out ∧ S'.args = S.args

theorem Moves.leads {S : Scan} {pc : Pc} {p : Nat} (h : Moves H V fmt S pc p) :
    Leads H V fmt S pc p := by
  rcases h with ⟨k, hpc, hp, _⟩
  exact ⟨k, hpc, hp⟩

theorem Moves.refl {S : Scan} {pc : Pc} {p : Nat} (hpc : S.pc = pc) (hp : S.p = p) :
    Moves H V fmt S pc p := ⟨0, hpc, hp, rfl, rfl⟩

/-- A step, and then some more. -/
theorem Moves.cons {S : Scan} {pc : Pc} {p : Nat}
    (hout : (Scan.step H V fmt S).out = S.out) (hargs : (Scan.step H V fmt S).args = S.args)
    (h : Moves H V fmt (Scan.step H V fmt S) pc p) : Moves H V fmt S pc p := by
  rcases h with ⟨k, hpc, hp, ho, ha⟩
  refine ⟨k + 1, ?_⟩
  rw [Function.iterate_succ_apply]
  exact ⟨hpc, hp, ho.trans hout, ha.trans hargs⟩

theorem Moves.trans {S : Scan} {pc pc' : Pc} {p p' : Nat} (h : Moves H V fmt S pc p)
    (h' : ∀ S', S'.pc = pc → S'.p = p → Moves H V fmt S' pc' p') : Moves H V fmt S pc' p' := by
  rcases h with ⟨k, hpc, hp, ho, ha⟩
  rcases h' _ hpc hp with ⟨k', hpc', hp', ho', ha'⟩
  refine ⟨k' + k, ?_⟩
  rw [Function.iterate_add_apply]
  exact ⟨hpc', hp', ho'.trans ho, ha'.trans ha⟩

/-- The flags after a text of flags. -/
def Flags.addAll (f : Flags) (fs : List Byte) : Flags := fs.foldl (fun f c => (f.add c).getD f) f

/-- A number after more of its digits. -/
def addDigits (w : I32) (ds : List Byte) : I32 :=
  ds.foldl (fun w c => w * 10 + (digit? c).getD 0) w

/-- The loop over the flags. -/
theorem Moves.flags {fs : List Byte} (hfs : ∀ c ∈ fs, isFlag c = true) {S : Scan} {f : Flags}
    (hpc : S.pc = .flags f) (hat : Holds fmt S.p fs) :
    Moves H V fmt S (.flags (f.addAll fs)) (S.p + fs.length) := by
  induction fs generalizing S f with
  | nil => exact .refl hpc rfl
  | cons c fs ih =>
      have hc : (f.add c).isSome = true := by
        rw [add_isSome]
        exact hfs c List.mem_cons_self
      rcases Option.isSome_iff_exists.mp hc with ⟨f₁, hf₁⟩
      have hstep : Scan.step H V fmt S =
          { S with pc := .flags f₁, p := S.p + 1, reads := S.reads ++ [S.p] } := by
        simp [Scan.step, hpc, hat.1, hf₁]
      have hrest := ih (fun c' hc' => hfs c' (List.mem_cons_of_mem _ hc'))
        (S := Scan.step H V fmt S) (f := f₁) (by rw [hstep]) (by rw [hstep]; exact hat.2)
      refine Moves.cons (by rw [hstep]) (by rw [hstep]) ?_
      rw [hstep] at hrest ⊢
      rw [List.length_cons, Nat.add_comm fs.length, ← Nat.add_assoc]
      simpa [Flags.addAll, hf₁] using hrest

/-- The loop over the digits of the width. -/
theorem Moves.width {ws : List Byte} (hws : ∀ c ∈ ws, isDigit c = true) {S : Scan} {f : Flags}
    {w : I32} (hpc : S.pc = .width f w) (hat : Holds fmt S.p ws) :
    Moves H V fmt S (.width f (addDigits w ws)) (S.p + ws.length) := by
  induction ws generalizing S w with
  | nil => exact .refl hpc rfl
  | cons c ws ih =>
      rcases Option.isSome_iff_exists.mp (hws c List.mem_cons_self) with ⟨d, hd⟩
      have hstep : Scan.step H V fmt S =
          { S with pc := .width f (w * 10 + d), p := S.p + 1, reads := S.reads ++ [S.p] } := by
        simp [Scan.step, hpc, hat.1, hd]
      have hrest := ih (fun c' hc' => hws c' (List.mem_cons_of_mem _ hc'))
        (S := Scan.step H V fmt S) (w := w * 10 + d) (by rw [hstep]) (by rw [hstep]; exact hat.2)
      refine Moves.cons (by rw [hstep]) (by rw [hstep]) ?_
      rw [hstep] at hrest ⊢
      rw [List.length_cons, Nat.add_comm ws.length, ← Nat.add_assoc]
      simpa [addDigits, hd] using hrest

/-- The loop over the digits of the precision. -/
theorem Moves.prec {ds : List Byte} (hds : ∀ c ∈ ds, isDigit c = true) {S : Scan} {f : Flags}
    {w pr : I32} (hpc : S.pc = .prec f w pr) (hat : Holds fmt S.p ds) :
    Moves H V fmt S (.prec f w (addDigits pr ds)) (S.p + ds.length) := by
  induction ds generalizing S pr with
  | nil => exact .refl hpc rfl
  | cons c ds ih =>
      rcases Option.isSome_iff_exists.mp (hds c List.mem_cons_self) with ⟨d, hd⟩
      have hstep : Scan.step H V fmt S =
          { S with pc := .prec f w (pr * 10 + d), p := S.p + 1, reads := S.reads ++ [S.p] } := by
        simp [Scan.step, hpc, hat.1, hd]
      have hrest := ih (fun c' hc' => hds c' (List.mem_cons_of_mem _ hc'))
        (S := Scan.step H V fmt S) (by rw [hstep]) (by rw [hstep]; exact hat.2)
      refine Moves.cons (by rw [hstep]) (by rw [hstep]) ?_
      rw [hstep] at hrest ⊢
      rw [List.length_cons, Nat.add_comm ds.length, ← Nat.add_assoc]
      simpa [addDigits, hd] using hrest

/-- The precision that the parameters give. -/
def Params.precision (P : Params) : I32 := P.prec.elim (-1) (addDigits 0)

/-- After the parameters, at a character that does not continue them, the scan is
at the `switch`. -/
theorem Moves.params {S : Scan} {P : Params} {c : Byte} {f : Flags} (hpc : S.pc = .flags f)
    (hat : Holds fmt S.p (P.text ++ [c])) (hc : P.Ends c) :
    Moves H V fmt S (.conv (f.addAll P.flags) (addDigits 0 P.width) P.precision)
      (S.p + P.text.length) := by
  unfold Params.text at hat ⊢
  rw [List.append_assoc, List.append_assoc, holds_append, holds_append] at hat
  rcases hat with ⟨hfs, hws, hrest⟩
  -- the character after the flags is the first of the rest, and no flag
  have hend : isFlag (fmt (S.p + P.flags.length)) = false := by
    cases hw : P.width with
    | cons d ws =>
        rw [hw] at hws
        rw [hws.1]
        exact P.width_head d (by simp [hw])
    | nil =>
        rw [hw] at hrest
        cases hpr : P.prec with
        | some ds =>
            rw [Params.precText, hpr] at hrest
            have hdot : fmt (S.p + P.flags.length) = ch '.' := hrest.1
            rw [hdot]
            decide
        | none =>
            rw [Params.precText, hpr] at hrest
            have hcode : fmt (S.p + P.flags.length) = c := hrest.1
            rw [hcode]
            exact hc.flag hpr hw
  refine (Moves.flags P.flags_ok hpc hfs).trans ?_
  intro S₁ hpc₁ hp₁
  have hadd : (f.addAll P.flags).add (fmt S₁.p) = none := by
    rw [← Option.not_isSome_iff_eq_none, add_isSome, hp₁, hend]
    exact Bool.false_ne_true
  have hstep₁ : Scan.step H V fmt S₁ =
      { S₁ with pc := .width (f.addAll P.flags) 0, reads := S₁.reads ++ [S₁.p] } := by
    simp [Scan.step, hpc₁, hadd]
  refine Moves.cons (by rw [hstep₁]) (by rw [hstep₁]) ?_
  rw [hstep₁]
  refine (Moves.width P.width_ok rfl (hp₁ ▸ hws)).trans ?_
  intro S₂ hpc₂ hp₂
  have hp₂ : S₂.p = S.p + P.flags.length + P.width.length := hp₂.trans (hp₁ ▸ rfl)
  have hdig : digit? c = none := by
    rw [← Option.not_isSome_iff_eq_none]
    exact Bool.eq_false_iff.mp hc.digit
  cases hpr : P.prec with
  | none =>
      rw [Params.precText, hpr] at hrest
      have hcode : fmt S₂.p = c := by
        rw [hp₂]
        exact hrest.1
      have hdot := hc.dot hpr
      have hstep₂ : Scan.step H V fmt S₂ =
          { S₂ with pc := .conv (f.addAll P.flags) (addDigits 0 P.width) (-1),
                    reads := S₂.reads ++ [S₂.p] } := by
        simp [Scan.step, hpc₂, hcode, hdig, hdot]
      refine Moves.cons (by rw [hstep₂]) (by rw [hstep₂]) ?_
      rw [hstep₂]
      refine .refl ?_ ?_
      · simp [Params.precision, hpr]
      · simp only [Params.precText, hpr, hp₂, List.length_append, Option.elim, List.length_nil]
        omega
  | some ds =>
      rw [Params.precText, hpr] at hrest
      have hdot : fmt S₂.p = ch '.' := by
        rw [hp₂]
        exact hrest.1
      have hdig' : digit? (ch '.') = none := by decide
      have hrest₂ : Holds fmt (S.p + P.flags.length + P.width.length + 1) (ds ++ [c]) := hrest.2
      rw [← hp₂, holds_append] at hrest₂
      have hstep₂ : Scan.step H V fmt S₂ =
          { S₂ with pc := .prec (f.addAll P.flags) (addDigits 0 P.width) 0, p := S₂.p + 1,
                    reads := S₂.reads ++ [S₂.p] } := by
        simp [Scan.step, hpc₂, hdot, hdig']
      refine Moves.cons (by rw [hstep₂]) (by rw [hstep₂]) ?_
      rw [hstep₂]
      refine (Moves.prec (P.prec_ok ds hpr) rfl hrest₂.1).trans ?_
      intro S₃ hpc₃ hp₃
      have hp₃ : S₃.p = S₂.p + 1 + ds.length := hp₃
      have hcode : fmt S₃.p = c := by
        rw [hp₃]
        exact hrest₂.2.1
      have hstep₃ : Scan.step H V fmt S₃ =
          { S₃ with pc := .conv (f.addAll P.flags) (addDigits 0 P.width) (addDigits 0 ds),
                    reads := S₃.reads ++ [S₃.p] } := by
        simp [Scan.step, hpc₃, hcode, hdig]
      refine Moves.cons (by rw [hstep₃]) (by rw [hstep₃]) ?_
      rw [hstep₃]
      refine .refl ?_ ?_
      · simp [Params.precision, hpr]
      · simp only [Params.precText, hpr, hp₃, hp₂, List.length_append, List.length_cons,
          Option.elim]
        omega

/-- After the parameters, from anywhere. -/
theorem Leads.params {S : Scan} {P : Params} {p : Nat} {c : Byte}
    (hat : Holds fmt p (P.text ++ [c])) (hc : P.Ends c) {f : Flags}
    (h : Leads H V fmt S (.flags f) p) :
    ∃ f w pr, Leads H V fmt S (.conv f w pr) (p + P.text.length) := by
  refine ⟨f.addAll P.flags, addDigits 0 P.width, P.precision, h.trans ?_⟩
  intro S' hpc hp
  have hmoves := Moves.params (H := H) (V := V) hpc (by rw [hp]; exact hat) hc
  rw [hp] at hmoves
  exact hmoves.leads

/-- The scan goes past a `%`. -/
theorem Leads.head_percent {S : Scan} {p : Nat} (hp : fmt p = ch '%')
    (h : Leads H V fmt S .head p) : Leads H V fmt S .percent (p + 1) := by
  refine h.step ?_
  intro S' hpc hp'
  simp only [Scan.step, hpc, hp', hp, if_neg ch_percent_ne_zero, ne_eq, not_true,
    if_false, and_self]

/-- A `%` that begins no `%%` leads to the parameters. -/
theorem Leads.percent {S : Scan} {p : Nat} (hp : fmt p = ch '%') (h0 : fmt (p + 1) ≠ 0)
    (hne : fmt (p + 1) ≠ ch '%') (h : Leads H V fmt S .head p) :
    Leads H V fmt S (.flags {}) (p + 1) := by
  refine (h.head_percent hp).step ?_
  intro S' hpc hp'
  simp only [Scan.step, hpc, hp', if_neg h0, if_neg hne, and_self]

/-- After a `%` and the parameters the scan is at the `switch`. -/
theorem Leads.conversion {S : Scan} {P : Params} {p : Nat} {c : Byte}
    (hat : Holds fmt p (ch '%' :: (P.text ++ [c]))) (hc : P.Ends c)
    (hfirst : P.text = [] → c ≠ 0 ∧ c ≠ ch '%') (h : Leads H V fmt S .head p) :
    ∃ f w pr, Leads H V fmt S (.conv f w pr) (p + 1 + P.text.length) := by
  rcases hat with ⟨hpct, hat⟩
  -- the character after the `%` is the first of the parameters, or the code
  have hnext : fmt (p + 1) ≠ 0 ∧ fmt (p + 1) ≠ ch '%' := by
    cases htext : P.text with
    | nil =>
        rw [htext] at hat
        rw [hat.1]
        exact hfirst htext
    | cons d t =>
        rw [htext] at hat
        rw [hat.1]
        apply Params.mem_text (P := P)
        rw [htext]
        exact List.mem_cons_self
  exact (h.percent hpct hnext.1 hnext.2).params hat hc

/-- The scan goes past a complete piece. -/
theorem Leads.piece {S : Scan} {q : Piece} {p : Nat} (hat : Holds fmt p q.text)
    (h : Leads H V fmt S .head p) : Leads H V fmt S .head (p + q.text.length) := by
  cases q with
  | lit c hc =>
      refine h.step ?_
      intro S' hpc hp
      have hat' : fmt p = c := hat.1
      simp only [Scan.step, hpc, hp, hat', if_neg hc.1, if_pos hc.2, Piece.text,
        List.length_singleton, and_self]
  | percent =>
      refine (h.head_percent hat.1).step ?_
      intro S' hpc hp
      have hpct : fmt (p + 1) = ch '%' := hat.2.1
      simp only [Scan.step, hpc, hp, hpct, if_neg ch_percent_ne_zero, if_true, Piece.text,
        List.length_cons, List.length_nil, true_and]
  | conv P c hc =>
      have hfirst : P.text = [] → c ≠ 0 ∧ c ≠ ch '%' := fun h => ⟨hc.ne_zero, hc.ne_percent h⟩
      rcases h.conversion hat hc.toEnds hfirst with ⟨f, w, pr, h₂⟩
      refine h₂.step ?_
      intro S' hpc hp
      simp only [Scan.step, hpc, hp, Piece.text, List.length_cons, List.length_append]
      exact ⟨trivial, by simp; omega⟩

theorem Leads.pieces {S : Scan} {ps : List Piece} {p : Nat} (hat : Holds fmt p (piecesText ps))
    (h : Leads H V fmt S .head p) : Leads H V fmt S .head (p + (piecesText ps).length) := by
  induction ps generalizing p with
  | nil => exact h
  | cons q ps ih =>
      rw [piecesText, List.flatMap_cons, holds_append] at hat
      rw [piecesText, List.flatMap_cons, List.length_append, ← Nat.add_assoc]
      exact ih hat.2 (h.piece hat.1)

/-! ## Bounds -/

/-- The format ends at offset `n`. -/
structure Terminated (fmt : Nat → Byte) (n : Nat) : Prop where
  nul : fmt n = 0
  before : ∀ i, i < n → fmt i ≠ 0

/-- The bytes of the format before its terminator. -/
def formatText (fmt : Nat → Byte) (n : Nat) : List Byte := (List.range n).map fmt

theorem holds_range (fmt : Nat → Byte) (p n : Nat) :
    Holds fmt p ((List.range n).map fun i => fmt (p + i)) := by
  induction n generalizing p with
  | zero => trivial
  | succ n ih =>
      rw [List.range_succ_eq_map, List.map_cons, holds_cons, List.map_map]
      refine ⟨rfl, ?_⟩
      have hnext := ih (p + 1)
      have heq : (fun i => fmt (p + i)) ∘ Nat.succ = fun i => fmt (p + 1 + i) := by
        funext i
        change fmt (p + (i + 1)) = _
        rw [Nat.add_comm i, Nat.add_assoc]
      rwa [heq]

theorem holds_formatText (fmt : Nat → Byte) (n : Nat) : Holds fmt 0 (formatText fmt n) := by
  have h := holds_range fmt 0 n
  simpa [formatText] using h

/-- The formatter stays inside its format of `n` bytes and inside its argument
vector, and its scan ends at the terminator. -/
structure InBounds (H : Host) (V : ArgVec) (fmt : Nat → Byte) (n : Nat) : Prop where
  format : ∀ k, ∀ i ∈ (hcFormat H V (some fmt) k).reads, i ≤ n
  args : ∀ k, ∀ i ∈ (hcFormat H V (some fmt) k).args.reads, (i : Int) < V.argc.toInt
  ends : ∃ k, (hcFormat H V (some fmt) k).pc = .done ∧ (hcFormat H V (some fmt) k).p = n

/-- The slots read so far are slots of the vector. -/
def ArgVec.Covers (V : ArgVec) (A : Args) : Prop := ∀ i ∈ A.reads, (i : Int) < V.argc.toInt

theorem covers_nextArg {A : Args} (h : V.Covers A) : V.Covers (nextArg V A).2 := by
  unfold nextArg
  split_ifs with hlt
  · intro i hi
    rcases List.mem_append.mp hi with hi | hi
    · exact h i hi
    · rcases List.mem_singleton.mp hi with rfl
      exact hlt
  · exact h

/-- A conversion takes no argument, one or two. -/
theorem convert_args (f : Flags) (w pr : I32) (c : Byte) (A : Args) :
    (convert H V f w pr c A).2 = A ∨ (convert H V f w pr c A).2 = (nextArg V A).2 ∨
      (convert H V f w pr c A).2 = (nextArg V (nextArg V A).2).2 := by
  unfold convert
  dsimp only
  split <;> first
    | exact .inl rfl
    | exact .inr (.inl rfl)
    | (split_ifs <;> exact .inr (.inr rfl))

theorem covers_convert {A : Args} (h : V.Covers A) (f : Flags) (w pr : I32) (c : Byte) :
    V.Covers (convert H V f w pr c A).2 := by
  rcases convert_args (H := H) (V := V) f w pr c A with heq | heq | heq <;> rw [heq]
  · exact h
  · exact covers_nextArg h
  · exact covers_nextArg (covers_nextArg h)

/-- What a step does: it reads the byte at the pointer and does not move back. -/
theorem scan_step (H : Host) (V : ArgVec) (fmt : Nat → Byte) (S : Scan) :
    (S.pc = .done ∧ Scan.step H V fmt S = S) ∨
    (S.pc ≠ .done ∧ S.p ≤ (Scan.step H V fmt S).p ∧
      (Scan.step H V fmt S).reads = S.reads ++ [S.p] ∧
      ((Scan.step H V fmt S).args = S.args ∨ ∃ f w pr,
        (Scan.step H V fmt S).args = (convert H V f w pr (fmt S.p) S.args).2)) := by
  cases hpc : S.pc with
  | done =>
      refine .inl ⟨rfl, ?_⟩
      simp only [Scan.step, hpc]
  | conv f w pr =>
      refine .inr ⟨Pc.noConfusion, ?_⟩
      simp only [Scan.step, hpc]
      exact ⟨Nat.le_succ _, trivial, .inr ⟨f, w, pr, rfl⟩⟩
  | head =>
      refine .inr ⟨Pc.noConfusion, ?_⟩
      simp only [Scan.step, hpc]
      split_ifs <;> simp
  | percent =>
      refine .inr ⟨Pc.noConfusion, ?_⟩
      simp only [Scan.step, hpc]
      split_ifs <;> simp
  | flags f =>
      refine .inr ⟨Pc.noConfusion, ?_⟩
      simp only [Scan.step, hpc]
      split <;> simp
  | width f w =>
      refine .inr ⟨Pc.noConfusion, ?_⟩
      simp only [Scan.step, hpc]
      split
      · simp
      · split_ifs <;> simp
  | prec f w pr =>
      refine .inr ⟨Pc.noConfusion, ?_⟩
      simp only [Scan.step, hpc]
      split <;> simp

/-- What is read lies behind the pointer, and in the argument vector. -/
structure Behind (V : ArgVec) (S : Scan) : Prop where
  reads : ∀ i ∈ S.reads, i ≤ S.p
  args : V.Covers S.args

theorem Behind.step {S : Scan} (h : Behind V S) : Behind V (Scan.step H V fmt S) := by
  rcases scan_step H V fmt S with ⟨_, heq⟩ | ⟨_, hp, hreads, hargs⟩
  · rwa [heq]
  · constructor
    · intro i hi
      rw [hreads] at hi
      rcases List.mem_append.mp hi with hi | hi
      · exact (h.reads i hi).trans hp
      · rcases List.mem_singleton.mp hi with rfl
        exact hp
    · rcases hargs with hargs | ⟨f, w, pr, hargs⟩ <;> rw [hargs]
      · exact h.args
      · exact covers_convert h.args f w pr _

theorem behind_hcFormat (k : Nat) : Behind V (hcFormat H V (some fmt) k) := by
  induction k with
  | zero => constructor <;> exact fun _ h => absurd h List.not_mem_nil
  | succ k ih =>
      change Behind V ((Scan.step H V fmt)^[k + 1] {})
      rw [Function.iterate_succ_apply']
      exact ih.step

/-- What has been read stays read. -/
theorem reads_kept (k j : Nat) :
    (hcFormat H V (some fmt) k).reads <+: (hcFormat H V (some fmt) (k + j)).reads := by
  induction j with
  | zero => exact List.prefix_refl _
  | succ j ih =>
      refine ih.trans ?_
      change _ <+: ((Scan.step H V fmt)^[k + j + 1] {}).reads
      rw [Function.iterate_succ_apply']
      rcases scan_step H V fmt ((Scan.step H V fmt)^[k + j] {}) with
        ⟨_, heq⟩ | ⟨_, _, hreads, _⟩
      · rw [heq]
        exact List.prefix_refl _
      · rw [hreads]
        exact List.prefix_append _ _

/-- A scan that has ended has read all it ever reads. -/
theorem hcFormat_done {k : Nat} (h : (hcFormat H V (some fmt) k).pc = .done) (j : Nat) :
    hcFormat H V (some fmt) (k + j) = hcFormat H V (some fmt) k := by
  induction j with
  | zero => rfl
  | succ j ih =>
      change (Scan.step H V fmt)^[k + j + 1] {} = _
      rw [Function.iterate_succ_apply']
      change Scan.step H V fmt (hcFormat H V (some fmt) (k + j)) = _
      rw [ih]
      rcases scan_step H V fmt (hcFormat H V (some fmt) k) with
        ⟨_, heq⟩ | ⟨hne, _⟩
      · exact heq
      · exact absurd h hne

/-- A scan that ends at the terminator has stayed inside the format. -/
theorem inBounds_of_leads {n : Nat} (h : Leads H V fmt {} .done n) : InBounds H V fmt n := by
  rcases h with ⟨k, hpc, hp⟩
  refine ⟨?_, fun k => (behind_hcFormat k).args, ⟨k, hpc, hp⟩⟩
  intro j i hi
  have hk : ∀ i ∈ (hcFormat H V (some fmt) k).reads, i ≤ n := by
    intro i hi
    rw [← hp]
    exact (behind_hcFormat k).reads i hi
  rcases Nat.le_total j k with hle | hle
  · rcases Nat.exists_eq_add_of_le hle with ⟨d, rfl⟩
    exact hk i ((reads_kept j d).subset hi)
  · rcases Nat.exists_eq_add_of_le hle with ⟨d, rfl⟩
    rw [hcFormat_done hpc] at hi
    exact hk i hi

/-- A scan that comes to the head of the loop behind the terminator has left the
format. -/
theorem not_inBounds_of_leads {n : Nat} (h : Leads H V fmt {} .head (n + 1)) :
    ¬ InBounds H V fmt n := by
  intro hin
  rcases h with ⟨k, hpc, hp⟩
  have hmem : n + 1 ∈ (hcFormat H V (some fmt) (k + 1)).reads := by
    change n + 1 ∈ ((Scan.step H V fmt)^[k + 1] {}).reads
    rw [Function.iterate_succ_apply']
    rcases scan_step H V fmt ((Scan.step H V fmt)^[k] {}) with
      ⟨hdone, _⟩ | ⟨_, _, hreads, _⟩
    · rw [hpc] at hdone
      cases hdone
    · rw [hreads, hp]
      exact List.mem_append_right _ (List.mem_singleton.mpr rfl)
  exact absurd (hin.format _ _ hmem) (Nat.not_succ_le_self n)

/-- The scan stays inside the format and the argument vector, and ends at the
terminator, exactly when the format does not end in a cut conversion. -/
theorem inBounds_iff {n : Nat} (hn : Terminated fmt n) :
    InBounds H V fmt n ↔ ∃ ps : List Piece,
      formatText fmt n = piecesText ps ∨ formatText fmt n = piecesText ps ++ [ch '%'] := by
  have h0 : ∀ c ∈ formatText fmt n, c ≠ 0 := by
    intro c hc
    rcases List.mem_map.mp hc with ⟨i, hi, rfl⟩
    exact hn.before i (List.mem_range.mp hi)
  have hlen : (formatText fmt n).length = n := by
    unfold formatText
    rw [List.length_map, List.length_range]
  have hholds := holds_formatText fmt n
  constructor
  · intro hin
    rcases exists_pieces (formatText fmt n) h0 with ⟨ps, t, heq⟩
    rw [heq, List.length_append] at hlen
    rw [heq, holds_append] at hholds
    have hhead := (Leads.refl H V fmt {}).pieces hholds.1
    cases t with
    | nothing => exact ⟨ps, .inl (by rw [heq]; simp [Tail.text])⟩
    | percent => exact ⟨ps, .inr heq⟩
    | cut P hP =>
        -- the terminator is the character of the cut conversion
        exfalso
        have hends : P.Ends 0 := ⟨isDigit_zero, fun _ => by decide, fun _ _ => isFlag_zero⟩
        have hnul : Holds fmt (0 + (piecesText ps).length + (ch '%' :: P.text).length) [0] := by
          refine ⟨?_, trivial⟩
          rw [Nat.zero_add]
          exact (congrArg fmt hlen).trans hn.nul
        have hat := holds_append.mpr ⟨hholds.2, hnul⟩
        rcases hhead.conversion hat hends (fun h => absurd h hP) with ⟨f, w, pr, hconv⟩
        refine not_inBounds_of_leads (hconv.step ?_) hin
        intro S' hpc hp
        have hp' : S'.p = n := by
          rw [hp, ← hlen]
          change 0 + (piecesText ps).length + 1 + P.text.length =
            (piecesText ps).length + (P.text.length + 1)
          omega
        simp only [Scan.step, hpc, hp', and_self]
  · rintro ⟨ps, heq | heq⟩
    · rw [heq] at hholds hlen
      have hhead := (Leads.refl H V fmt {}).pieces hholds
      apply inBounds_of_leads
      refine hhead.step ?_
      intro S' hpc hp
      have hp' : S'.p = n := by
        rw [hp, ← hlen]
        exact Nat.zero_add _
      simp only [Scan.step, hpc, hp', hn.nul, if_true, and_self]
    · rw [heq, holds_append] at hholds
      rw [heq, List.length_append, List.length_singleton] at hlen
      have hhead := (Leads.refl H V fmt {}).pieces hholds.1
      apply inBounds_of_leads
      have hpct := hhead.head_percent hholds.2.1
      refine hpct.step ?_
      intro S' hpc hp
      have hp' : S'.p = n := by
        rw [hp, ← hlen]
        omega
      simp only [Scan.step, hpc, hp', hn.nul, if_true, and_self]

/-- A host without strings and doubles. -/
def Host.bare : Host := ⟨fun _ => 0, fun _ => 0, fun _ _ _ _ => []⟩

/-- The format `s` in a memory that is zero behind it. -/
def formatOf (s : String) : Nat → Byte := fun i => (chs s).getD i 0

theorem inBounds_iff_width : InBounds .bare ⟨1, fun _ => 7⟩ (formatOf "%5d") 3 := by
  have hcode : (⟨[], [ch '5'], none, by decide, by decide, by decide, by decide⟩ : Params).Code
      (ch 'd') := ⟨⟨by decide, fun _ => by decide, fun _ h => by cases h⟩, by decide, fun _ => by decide⟩
  exact (inBounds_iff ⟨by decide, by decide⟩).mpr ⟨[.conv _ _ hcode], .inl rfl⟩

/-- Behind `%5` the scan reads the byte after the terminator. -/
theorem cut_width_not_inBounds :
    Terminated (formatOf "%5") 2 ∧ ¬ InBounds .bare ⟨0, fun _ => 0⟩ (formatOf "%5") 2 := by
  refine ⟨⟨by decide, by decide⟩, ?_⟩
  intro h
  exact absurd (h.format 7 3 (by decide)) (by decide)

end Hlang.Runtime
