import Hlang.Runtime.Format
import Mathlib.Data.List.Infix

/-!
# Hlang.Runtime.OutBuffer — the buffer that output is collected in

An `HCOut` in memory is a block of `cap` bytes of which `len` are used. `out_emit` makes the block
larger by doubling and puts the new bytes and a NUL behind the used ones; a write outside the block,
or a loop that does not end, has no result here. What the buffer is for is a text that only grows
(`OutCall.text`). The buffer holds the text (`Holds`) through all calls, and `HC_StreamGet` hands it
over and begins anew.
-/

namespace Hlang.Runtime

/-- `HCOut`. -/
structure HCOut where
  /-- the bytes of the block, unless it is `NULL` -/
  buf : Option (List Byte) := none
  len : BitVec 64 := 0
  cap : BitVec 64 := 0
  toStdout : Bool := false

/-- `realloc`, where it succeeds: what was in the block stays, and bytes that were not there before
are any (`junk`). -/
def realloc (junk : Nat → Byte) (buf : Option (List Byte)) (n : Nat) : List Byte :=
  (List.range n).map fun i => (buf.getD [])[i]?.getD (junk i)

/-- Write `s` at `off`, inside a block. -/
def writeAt (buf : Option (List Byte)) (off : Nat) (s : List Byte) : Option (List Byte) :=
  match buf with
  | none => none
  | some b =>
      if off + s.length ≤ b.length then some (b.take off ++ s ++ b.drop (off + s.length)) else none

/-- The loop that doubles `nc` until it is not below `need`. -/
def growLoop : Nat → BitVec 64 → BitVec 64 → Option (BitVec 64)
  | 0, _, _ => none
  | fuel + 1, need, nc => if nc < need then growLoop fuel need (nc * 2) else some nc

/-- The part of `out_emit` that makes room for `need` bytes. -/
def HCOut.reserve (o : HCOut) (fuel : Nat) (junk : Nat → Byte) (need : BitVec 64) : Option HCOut :=
  if o.cap < need then do
    let nc ← growLoop fuel need (if o.cap ≠ 0 then o.cap else 64)
    pure { o with buf := some (realloc junk o.buf nc.toNat), cap := nc }
  else pure o

/-- `out_emit` of `n` bytes `s`: the buffer, and what goes to `stdout`. -/
def HCOut.outEmit (o : HCOut) (fuel : Nat) (junk : Nat → Byte) (s : List Byte) :
    Option (HCOut × List Byte) :=
  if o.toStdout then some (o, s)
  else do
    let n := BitVec.ofNat 64 s.length
    let o ← o.reserve fuel junk (o.len + n + 1)
    let buf ← writeAt o.buf o.len.toNat s
    let len := o.len + n
    let buf ← writeAt (some buf) len.toNat [0]
    return ({ o with buf := some buf, len := len }, [])

/-- The loop of `out_pad`, `n` times. -/
def HCOut.padLoop (fuel : Nat) (junk : Nat → Nat → Byte) (c : Byte) :
    HCOut → Nat → Option (HCOut × List Byte)
  | o, 0 => some (o, [])
  | o, n + 1 => do
      let (o, out) ← o.outEmit fuel (junk n) [c]
      let (o, rest) ← padLoop fuel junk c o n
      return (o, out ++ rest)

/-- `out_pad`. -/
def HCOut.outPad (o : HCOut) (fuel : Nat) (junk : Nat → Nat → Byte) (c : Byte) (n : I64) :
    Option (HCOut × List Byte) :=
  padLoop fuel junk c o n.toInt.toNat

/-- `HC_StreamGet`: the block that is handed over, and what is left in `hc_stream`. -/
def hcStreamGet (o : HCOut) : List Byte × HCOut :=
  (o.buf.getD [0], { o with buf := none, len := 0, cap := 0 })

/-! ## Blocks -/

section Blocks

variable {b : List Byte} {s : List Byte} {off : Nat}

theorem length_realloc (junk : Nat → Byte) (buf : Option (List Byte)) (n : Nat) :
    (realloc junk buf n).length = n := by
  unfold realloc
  rw [List.length_map, List.length_range]

/-- What was in the block stays. -/
theorem take_realloc (junk : Nat → Byte) {n k : Nat} (hb : k ≤ b.length) (hn : k ≤ n) :
    (realloc junk (some b) n).take k = b.take k := by
  refine List.ext_getElem? fun i => ?_
  rcases Nat.lt_or_ge i k with hi | hi
  · rw [List.getElem?_take_of_lt hi, List.getElem?_take_of_lt hi]
    unfold realloc
    have hin : i < n := by omega
    have hib : i < b.length := by omega
    rw [List.getElem?_map, List.getElem?_range hin, Option.getD_some]
    change some (b[i]?.getD (junk i)) = b[i]?
    rw [List.getElem?_eq_getElem hib]
    rfl
  · rw [List.getElem?_eq_none (Nat.le_trans (List.length_take_le _ _) hi),
      List.getElem?_eq_none (Nat.le_trans (List.length_take_le _ _) hi)]

/-- A write inside the block. -/
theorem writeAt_some (h : off + s.length ≤ b.length) :
    ∃ b', writeAt (some b) off s = some b' ∧ b'.length = b.length ∧
      b'.take (off + s.length) = b.take off ++ s := by
  refine ⟨_, if_pos h, ?_, ?_⟩
  · rw [List.length_append, List.length_append, List.length_take, List.length_drop]
    omega
  · have hlen : (b.take off ++ s).length = off + s.length := by
      rw [List.length_append, List.length_take]
      omega
    rw [← hlen]
    exact List.take_left

end Blocks

/-- The loop ends with a capacity that is enough, where doubling does not run over. -/
theorem growLoop_some (k : Nat) : ∀ {fuel : Nat} {need nc : BitVec 64}, k < fuel → nc ≠ 0 →
    need.toNat ≤ 2 ^ 62 → need.toNat ≤ nc.toNat * 2 ^ k →
      ∃ cap, growLoop fuel need nc = some cap ∧ need.toNat ≤ cap.toNat := by
  induction k with
  | zero =>
      intro fuel need nc hk _ _ hle
      rcases Nat.exists_eq_add_one.mpr hk with ⟨fuel, rfl⟩
      have hstop : ¬ nc < need := by
        rw [BitVec.lt_def]
        omega
      exact ⟨nc, if_neg hstop, by omega⟩
  | succ k ih =>
      intro fuel need nc hk hne hsmall hle
      rcases Nat.exists_eq_add_one.mpr (Nat.lt_of_le_of_lt (Nat.zero_le _) hk) with ⟨fuel, rfl⟩
      by_cases hlt : nc < need
      · have hlt' := BitVec.lt_def.mp hlt
        have hdouble : (nc * 2).toNat = nc.toNat * 2 := by
          rw [BitVec.toNat_mul]
          exact Nat.mod_eq_of_lt (by change nc.toNat * 2 < 2 ^ 64; omega)
        have hpos : nc.toNat ≠ 0 := fun h => hne (BitVec.eq_of_toNat_eq h)
        have hne' : nc * 2 ≠ 0 := by
          intro h
          rw [h] at hdouble
          change 0 = _ at hdouble
          omega
        have hle' : need.toNat ≤ (nc * 2).toNat * 2 ^ k := by
          rw [hdouble, Nat.mul_assoc, ← Nat.pow_succ']
          exact hle
        rcases ih (Nat.lt_of_succ_lt_succ hk) hne' hsmall hle' with ⟨cap, heq, hcap⟩
        exact ⟨cap, (if_pos hlt).trans heq, hcap⟩
      · have hge : need.toNat ≤ nc.toNat := by
          rw [BitVec.lt_def] at hlt
          omega
        exact ⟨nc, if_neg hlt, hge⟩

/-! ## The text -/

/-- The block holds the text `t`, with a NUL behind it and inside the capacity. -/
structure HCOut.Ends (o : HCOut) (t : List Byte) : Prop where
  block : ∃ b, o.buf = some b ∧ b.length = o.cap.toNat ∧ b.take t.length = t ∧
    b[t.length]? = some 0
  len : o.len.toNat = t.length
  room : o.len.toNat + 1 ≤ o.cap.toNat

/-- The buffer holds the text `t`: in a block, or there is neither. -/
structure HCOut.Holds (o : HCOut) (t : List Byte) : Prop where
  mem : o.toStdout = false
  text : o.Ends t ∨ t = [] ∧ o.buf = none ∧ o.len = 0 ∧ o.cap = 0

theorem HCOut.Holds.len {o : HCOut} {t : List Byte} (h : o.Holds t) : o.len.toNat = t.length := by
  rcases h.text with hends | ⟨rfl, -, hlen, -⟩
  · exact hends.len
  · rw [hlen]
    rfl

/-- There is room in the block then, and the text is in it. -/
theorem HCOut.Holds.reserve {o : HCOut} {t : List Byte} (h : o.Holds t) {fuel : Nat}
    (hfuel : 64 ≤ fuel) (junk : Nat → Byte) {need : BitVec 64} (hneed : need.toNat ≤ 2 ^ 62)
    (hlt : t.length < need.toNat) : ∃ o' b, o.reserve fuel junk need = some o' ∧
      o'.toStdout = false ∧ o'.len = o.len ∧ o'.buf = some b ∧ b.length = o'.cap.toNat ∧
      need.toNat ≤ o'.cap.toNat ∧ b.take t.length = t := by
  unfold HCOut.reserve
  by_cases hcap : o.cap < need
  · rw [if_pos hcap]
    have hne : (if o.cap ≠ 0 then o.cap else 64) ≠ 0 := by
      split_ifs with hzero
      · exact hzero
      · decide
    have hpos : 1 ≤ (if o.cap ≠ 0 then o.cap else 64).toNat :=
      Nat.one_le_iff_ne_zero.mpr fun h => hne (BitVec.eq_of_toNat_eq h)
    have hle : need.toNat ≤ (if o.cap ≠ 0 then o.cap else 64).toNat * 2 ^ 62 :=
      Nat.le_trans hneed (Nat.le_mul_of_pos_left _ hpos)
    have hturns : 62 < fuel := by omega
    rcases growLoop_some 62 hturns hne hneed hle with ⟨nc, hgrow, hnc⟩
    rw [hgrow]
    refine ⟨_, _, rfl, h.mem, rfl, rfl, length_realloc _ _ _, hnc, ?_⟩
    -- the text was in the old block, or is empty
    rcases h.text with hends | ⟨rfl, -, -, -⟩
    · rcases hends.block with ⟨b, hb, hlength, htake, -⟩
      have hroom := hends.room
      rw [hends.len] at hroom
      rw [hb, take_realloc junk (by omega) (by omega)]
      exact htake
    · rfl
  · rw [if_neg hcap]
    have hge : need.toNat ≤ o.cap.toNat := by
      rw [BitVec.lt_def] at hcap
      omega
    rcases h.text with hends | ⟨-, -, -, hzero⟩
    · rcases hends.block with ⟨b, hb, hlength, htake, -⟩
      exact ⟨o, b, rfl, h.mem, rfl, hb, hlength, hge, htake⟩
    · rw [hzero] at hge
      change _ ≤ 0 at hge
      omega

/-- `out_emit` puts `s` behind the text. -/
theorem HCOut.Holds.outEmit {o : HCOut} {t s : List Byte} (h : o.Holds t) {fuel : Nat}
    (hfuel : 64 ≤ fuel) (hsmall : (t ++ s).length < 2 ^ 62) (junk : Nat → Byte) :
    ∃ o', o.outEmit fuel junk s = some (o', []) ∧ o'.toStdout = false ∧ o'.Ends (t ++ s) := by
  rw [List.length_append] at hsmall
  have hlen := h.len
  have hn : (BitVec.ofNat 64 s.length).toNat = s.length := by
    rw [BitVec.toNat_ofNat]
    exact Nat.mod_eq_of_lt (by omega)
  have hlen' : (o.len + BitVec.ofNat 64 s.length).toNat = t.length + s.length := by
    rw [BitVec.toNat_add, hn, hlen]
    exact Nat.mod_eq_of_lt (by omega)
  have hneed : (o.len + BitVec.ofNat 64 s.length + 1).toNat = t.length + s.length + 1 := by
    rw [BitVec.toNat_add, hlen']
    exact Nat.mod_eq_of_lt (by change t.length + s.length + 1 < 2 ^ 64; omega)
  have hneed_le : (o.len + BitVec.ofNat 64 s.length + 1).toNat ≤ 2 ^ 62 := by omega
  rcases h.reserve hfuel junk hneed_le (by omega)
    with ⟨o₁, b, hreserve, hmem, hlen₁, hb, hlength, hroom, htake⟩
  -- both writes are inside the block
  have hfirst : t.length + s.length ≤ b.length := by omega
  rcases writeAt_some hfirst with ⟨b₁, hw₁, hl₁, ht₁⟩
  have hsecond : t.length + s.length + [(0 : Byte)].length ≤ b₁.length := by
    rw [List.length_singleton]
    omega
  rcases writeAt_some hsecond with ⟨b₂, hw₂, hl₂, ht₂⟩
  refine ⟨{ o₁ with buf := some b₂, len := o.len + BitVec.ofNat 64 s.length }, ?_, hmem, ?_⟩
  · unfold HCOut.outEmit
    rw [h.mem, if_neg Bool.false_ne_true]
    change (o.reserve fuel junk (o.len + BitVec.ofNat 64 s.length + 1)).bind _ = _
    rw [hreserve]
    change (writeAt o₁.buf o₁.len.toNat s).bind _ = _
    rw [hb, hlen₁, hlen, hw₁]
    change (writeAt (some b₁) (o.len + BitVec.ofNat 64 s.length).toNat [0]).bind _ = _
    rw [hlen', hw₂]
    rfl
  · rw [List.length_singleton] at ht₂
    have htext : b₁.take (t.length + s.length) = t ++ s := by
      rw [ht₁, htake]
    have hend : b₂.take (t.length + s.length + 1) = t ++ s ++ [0] := by
      rw [ht₂, htext]
    constructor
    case block =>
      refine ⟨b₂, rfl, ?_, ?_, ?_⟩
      · change b₂.length = o₁.cap.toNat
        omega
      · rw [List.length_append, ← Nat.min_eq_left (Nat.le_succ (t.length + s.length)),
          ← List.take_take, hend, ← List.length_append]
        exact List.take_left
      · have hget : (b₂.take (t.length + s.length + 1))[(t ++ s).length]? = some 0 := by
          rw [hend]
          exact List.getElem?_concat_length ..
        rw [List.getElem?_take_of_lt (by rw [List.length_append]; omega)] at hget
        exact hget
    case len =>
      rw [List.length_append]
      exact hlen'
    case room =>
      change (o.len + BitVec.ofNat 64 s.length).toNat + 1 ≤ o₁.cap.toNat
      omega

/-- `out_pad` puts `n` times `c` behind the text. -/
theorem HCOut.Holds.padLoop {fuel : Nat} (hfuel : 64 ≤ fuel) (junk : Nat → Nat → Byte) (c : Byte)
    (n : Nat) : ∀ {o : HCOut} {t : List Byte}, o.Holds t →
      (t ++ List.replicate n c).length < 2 ^ 62 →
        ∃ o', o.padLoop fuel junk c n = some (o', []) ∧ o'.Holds (t ++ List.replicate n c) := by
  induction n with
  | zero =>
      intro o t h _
      rw [List.replicate_zero, List.append_nil]
      exact ⟨o, rfl, h⟩
  | succ n ih =>
      intro o t h hsmall
      rw [List.replicate_succ, List.append_cons] at hsmall ⊢
      have hfirst : (t ++ [c]).length < 2 ^ 62 := by
        rw [List.length_append] at hsmall
        omega
      rcases h.outEmit hfuel hfirst (junk n) with ⟨o₁, heq, hmem, hends⟩
      rcases ih ⟨hmem, .inl hends⟩ hsmall with ⟨o₂, heq', hholds⟩
      refine ⟨o₂, ?_, hholds⟩
      unfold HCOut.padLoop
      rw [heq]
      change (o₁.padLoop fuel junk c n).bind _ = _
      rw [heq']
      rfl

/-- A block is read as a string up to the first NUL. -/
def cString (b : List Byte) : List Byte := b.takeWhile (· ≠ 0)

/-- `HC_StreamGet` hands the text over and leaves the empty buffer. -/
theorem HCOut.Holds.streamGet {o : HCOut} {t : List Byte} (h : o.Holds t) :
    (hcStreamGet o).1.take t.length = t ∧ (hcStreamGet o).1[t.length]? = some 0 ∧
      (hcStreamGet o).2 = {} := by
  have hempty : (hcStreamGet o).2 = {} := by
    unfold hcStreamGet
    rw [h.mem]
  rcases h.text with hends | ⟨rfl, hbuf, -, -⟩
  · rcases hends.block with ⟨b, hb, -, htake, hend⟩
    have hget : (hcStreamGet o).1 = b := by
      unfold hcStreamGet
      rw [hb]
      rfl
    rw [hget]
    exact ⟨htake, hend, hempty⟩
  · have hget : (hcStreamGet o).1 = [0] := by
      unfold hcStreamGet
      rw [hbuf]
      rfl
    rw [hget]
    exact ⟨rfl, rfl, hempty⟩

/-- What is read of a block that begins with a text without NULs and a NUL. -/
theorem cString_eq {b t : List Byte} (htake : b.take t.length = t) (hend : b[t.length]? = some 0)
    (hzero : (0 : Byte) ∉ t) : cString b = t := by
  have hdrop : b.drop t.length = 0 :: b.drop (t.length + 1) := by
    rw [List.drop_eq_getElem?_toList_append, hend]
    rfl
  have hsplit : b = t ++ 0 :: b.drop (t.length + 1) := by
    rw [← hdrop]
    exact ((List.take_append_drop _ _).symm.trans (by rw [htake]))
  unfold cString
  rw [hsplit, List.takeWhile_append_of_pos]
  · exact (congrArg (t ++ ·) (List.takeWhile_cons_of_neg (by decide))).trans (List.append_nil t)
  · intro x hx
    exact decide_eq_true fun h => hzero (h ▸ hx)

/-! ## Runs -/

/-- A call on `hc_stream`, with what `realloc` finds. -/
inductive OutCall where
  | emit (s : List Byte) (junk : Nat → Byte)
  | pad (c : Byte) (n : I64) (junk : Nat → Nat → Byte)
  | get

/-- One call: the buffer it leaves. -/
def OutCall.run (fuel : Nat) (o : HCOut) : OutCall → Option HCOut
  | .emit s junk => (o.outEmit fuel junk s).map Prod.fst
  | .pad c n junk => (o.outPad fuel junk c n).map Prod.fst
  | .get => some (hcStreamGet o).2

/-- The calls in order. -/
def OutCall.runAll (fuel : Nat) : HCOut → List OutCall → Option HCOut
  | o, [] => some o
  | o, call :: calls => (call.run fuel o).bind fun o' => runAll fuel o' calls

/-- What a call does to the text. -/
def OutCall.text (t : List Byte) : OutCall → List Byte
  | .emit s _ => t ++ s
  | .pad c n _ => t ++ List.replicate n.toInt.toNat c
  | .get => []

/-- The text behind some calls. -/
def OutCall.textAll (t : List Byte) (calls : List OutCall) : List Byte := calls.foldl text t

/-- One call on a buffer that holds a text. -/
theorem HCOut.Holds.run {o : HCOut} {t : List Byte} (h : o.Holds t) {fuel : Nat} (hfuel : 64 ≤ fuel)
    {call : OutCall} (hsmall : (call.text t).length < 2 ^ 62) : ∃ o', call.run fuel o = some o' ∧
      o'.Holds (call.text t) ∧ ∀ s junk, call = .emit s junk → o'.Ends (call.text t) := by
  cases call with
  | emit s junk =>
      rcases h.outEmit hfuel hsmall junk with ⟨o', heq, hmem, hends⟩
      refine ⟨o', ?_, ⟨hmem, .inl hends⟩, fun _ _ _ => hends⟩
      change (o.outEmit fuel junk s).map _ = _
      rw [heq]
      rfl
  | pad c n junk =>
      rcases HCOut.Holds.padLoop hfuel junk c n.toInt.toNat h hsmall with ⟨o', heq, hholds⟩
      refine ⟨o', ?_, hholds, fun _ _ h => nomatch h⟩
      change (o.padLoop fuel junk c n.toInt.toNat).map _ = _
      rw [heq]
      rfl
  | get =>
      refine ⟨(hcStreamGet o).2, rfl, ?_, fun _ _ h => nomatch h⟩
      rw [h.streamGet.2.2]
      exact ⟨rfl, .inr ⟨rfl, rfl, rfl, rfl⟩⟩

/-- The calls of a run, one after the other. -/
theorem HCOut.Holds.runAll {fuel : Nat} (hfuel : 64 ≤ fuel) (calls : List OutCall) :
    ∀ {o : HCOut} {t : List Byte}, o.Holds t →
      (∀ pre, pre <+: calls → (OutCall.textAll t pre).length < 2 ^ 62) →
        ∃ o', OutCall.runAll fuel o calls = some o' ∧ o'.Holds (OutCall.textAll t calls) ∧
          ∀ s junk, calls.getLast? = some (.emit s junk) → o'.Ends (OutCall.textAll t calls) := by
  induction calls with
  | nil =>
      intro o t h _
      exact ⟨o, rfl, h, fun _ _ h => nomatch h⟩
  | cons call calls ih =>
      intro o t h hsmall
      have hfirst : (call.text t).length < 2 ^ 62 :=
        hsmall [call] (List.cons_prefix_cons.mpr ⟨rfl, List.nil_prefix⟩)
      rcases h.run hfuel hfirst with ⟨o₁, heq, hholds, hends⟩
      have hrest : ∀ pre, pre <+: calls → (OutCall.textAll (call.text t) pre).length < 2 ^ 62 :=
        fun pre hpre => hsmall (call :: pre) (List.cons_prefix_cons.mpr ⟨rfl, hpre⟩)
      rcases ih hholds hrest with ⟨o₂, heq', hholds', hends'⟩
      refine ⟨o₂, ?_, hholds', ?_⟩
      · change (call.run fuel o).bind _ = _
        rw [heq]
        exact heq'
      · intro s junk hlast
        cases calls with
        | nil =>
            -- the call was the last one
            rcases Option.some.inj heq' with rfl
            exact hends s junk (Option.some.inj hlast)
        | cons c calls => exact hends' s junk hlast

/-- On the stream, from the empty buffer, no call writes outside its block or fails to end, as long
as the text stays short of `2 ^ 62` bytes. The buffer holds the text, after `out_emit` with a NUL
behind it inside the capacity; `HC_StreamGet` returns it and leaves the empty buffer. -/
theorem stream_holds_text {fuel : Nat} (hfuel : 64 ≤ fuel) (calls : List OutCall)
    (hsmall : ∀ pre, pre <+: calls → (OutCall.textAll [] pre).length < 2 ^ 62) :
    ∃ o, OutCall.runAll fuel {} calls = some o ∧ o.Holds (OutCall.textAll [] calls) ∧
      (∀ s junk, calls.getLast? = some (.emit s junk) → o.Ends (OutCall.textAll [] calls)) ∧
      (hcStreamGet o).1.take (OutCall.textAll [] calls).length = OutCall.textAll [] calls ∧
      (hcStreamGet o).1[(OutCall.textAll [] calls).length]? = some 0 ∧
      ((0 : Byte) ∉ OutCall.textAll [] calls →
        cString (hcStreamGet o).1 = OutCall.textAll [] calls) ∧
      (hcStreamGet o).2 = {} := by
  have hempty : HCOut.Holds {} [] := ⟨rfl, .inr ⟨rfl, rfl, rfl, rfl⟩⟩
  rcases HCOut.Holds.runAll hfuel calls hempty hsmall with ⟨o, heq, hholds, hends⟩
  rcases hholds.streamGet with ⟨htake, hend, hleft⟩
  exact ⟨o, heq, hholds, hends, htake, hend, cString_eq htake hend, hleft⟩

/-- A block that is enlarged, handed over and begun anew. -/
def sampleCalls : List OutCall :=
  [.pad (ch ' ') 70 fun _ _ => 0, .emit (chs "end") fun _ => 1, .get,
    .pad (ch '-') (-1) fun _ _ => 2, .emit (chs "next") fun _ => 3]

theorem sample_holds_text :
    ∃ o, OutCall.runAll 64 {} sampleCalls = some o ∧ o.Ends (chs "next") := by
  have hsmall : ∀ pre ∈ sampleCalls.inits, (OutCall.textAll [] pre).length < 2 ^ 62 := by decide
  rcases stream_holds_text (Nat.le_refl 64) sampleCalls
    (fun pre hpre => hsmall pre ((List.mem_inits pre _).mpr hpre)) with ⟨o, heq, -, hends, -⟩
  exact ⟨o, heq, hends (chs "next") (fun _ => 3) rfl⟩

end Hlang.Runtime
