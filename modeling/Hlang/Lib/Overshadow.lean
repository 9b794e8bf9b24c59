import Mathlib.Data.List.Basic
import Mathlib.Data.Nat.Find

/-!
# Overshadow — names that are declared again

A name may be declared any number of times. At each place of a file one declaration of it is in
force: the last one so far, or the first of all where there is none yet (`InForce`); a table that
starts with the first declarations and gets each declaration where it stands finds just that one
(`lookup_inForce`). Each declaration is about an object: that of the first declaration of its key
where the signatures agree and it does not define the object once more, else one of its own
(`owner`). So a definition has its object to itself and the prototypes that stand for it
(`ownerAt_eq_iff`).
-/

namespace Overshadow

variable {κ ν σ : Type}

/-! ## What is in force -/

/-- Declaration `j` of `n` is in force behind the first `k` declarations. -/
structure InForce (names : List κ) (k : Nat) (n : κ) (j : Nat) : Prop where
  declares : names[j]? = some n
  /-- it is the last one so far; or none is so far, and it is the first of all -/
  latest : (j < k ∧ ∀ i, j < i → i < k → names[i]? ≠ some n) ∨
    ∀ i, i < k ∨ i < j → names[i]? ≠ some n

section Tables

variable [DecidableEq κ]

theorem lookup_take_none {l : List (κ × ν)} {k : Nat} {n : κ}
    (h : ∀ i, i < k → (l.map Prod.fst)[i]? ≠ some n) : (l.take k).reverse.lookup n = none := by
  rw [List.lookup_eq_none_iff]
  intro p hp
  rcases List.mem_iff_getElem?.mp (List.mem_reverse.mp hp) with ⟨i, hi⟩
  have hik : i < k := by
    by_contra hle
    rw [List.getElem?_take_eq_none (Nat.le_of_not_lt hle)] at hi
    cases hi
  rw [List.getElem?_take_of_lt hik] at hi
  have hne := h i hik
  rw [List.getElem?_map, hi] at hne
  exact bne_iff_ne.mpr fun hn => hne (congrArg some hn.symm)

/-- The last declaration of `n` before `k`. -/
theorem lookup_take_some {l : List (κ × ν)} {k j : Nat} {n : κ} {v : ν}
    (hj : l[j]? = some (n, v)) (hjk : j < k)
    (hlast : ∀ i, j < i → i < k → (l.map Prod.fst)[i]? ≠ some n) :
    (l.take k).reverse.lookup n = some v := by
  induction k with
  | zero => exact absurd hjk (Nat.not_lt_zero j)
  | succ k ih =>
      rcases Nat.lt_succ_iff_lt_or_eq.mp hjk with hlt | rfl
      · have hrest := ih hlt fun i hi hik => hlast i hi (Nat.lt_succ_of_lt hik)
        have hne := hlast k hlt (Nat.lt_succ_self k)
        rw [List.take_add_one, List.reverse_append, List.lookup_append]
        rw [List.getElem?_map] at hne
        cases hk : l[k]? with
        | none => simpa using hrest
        | some p =>
            rcases p with ⟨m, w⟩
            rw [hk] at hne
            have hpn : (n == m) = false := beq_eq_false_iff_ne.mpr fun hn =>
              hne (congrArg some hn.symm)
            simpa [List.lookup_cons, hpn] using hrest
      · rw [List.take_add_one, hj, List.reverse_append, List.lookup_append]
        simp

/-- The first declaration of `n`. -/
theorem lookup_first {l : List (κ × ν)} {j : Nat} {n : κ} {v : ν} (hj : l[j]? = some (n, v))
    (hfirst : ∀ i, i < j → (l.map Prod.fst)[i]? ≠ some n) : l.lookup n = some v := by
  induction l generalizing j with
  | nil => cases hj
  | cons p l ih =>
      cases j with
      | zero =>
          rcases Option.some.inj hj with rfl
          exact List.lookup_cons_self
      | succ j =>
          have hp : p.1 ≠ n := fun hp => hfirst 0 (Nat.succ_pos j) (congrArg some hp)
          have hrest : l.lookup n = some v :=
            ih (List.getElem?_cons_succ ▸ hj) fun i hi => hfirst (i + 1) (Nat.succ_lt_succ hi)
          rcases p with ⟨m, w⟩
          rw [List.lookup_cons, beq_eq_false_iff_ne.mpr (Ne.symm hp)]
          exact hrest

/-- A table that has the first declarations, and over them those of the first `k` in order, finds
the declaration that is in force. -/
theorem lookup_inForce {l T : List (κ × ν)} {k j : Nat} {n : κ} {v : ν}
    (hT : T.lookup n = l.lookup n) (h : InForce (l.map Prod.fst) k n j)
    (hv : (l.map Prod.snd)[j]? = some v) : ((l.take k).reverse ++ T).lookup n = some v := by
  have hj : l[j]? = some (n, v) := by
    have hname := h.declares
    rw [List.getElem?_map] at hname hv
    cases hp : l[j]? with
    | none =>
        rw [hp] at hv
        cases hv
    | some p =>
        rw [hp] at hname hv
        exact congrArg some (Prod.ext (Option.some.inj hname) (Option.some.inj hv))
  rw [List.lookup_append]
  rcases h.latest with ⟨hjk, hlast⟩ | hnone
  · rw [lookup_take_some hj hjk hlast]
    exact Option.some_or
  · rw [lookup_take_none fun i hi => hnone i (.inl hi), Option.none_or, hT]
    exact lookup_first hj fun i hi => hnone i (.inr hi)

/-- A name that is not declared is not found. -/
theorem lookup_undeclared {l T : List (κ × ν)} {k : Nat} {n : κ} (hT : T.lookup n = l.lookup n)
    (hn : n ∉ l.map Prod.fst) : ((l.take k).reverse ++ T).lookup n = none := by
  have hl : l.lookup n = none := by
    rw [List.lookup_eq_none_iff]
    intro p hp
    exact bne_iff_ne.mpr fun h => hn (List.mem_map.mpr ⟨p, hp, h.symm⟩)
  rw [List.lookup_append, lookup_take_none, Option.none_or, hT, hl]
  intro i _ hi
  exact hn (List.mem_of_getElem? hi)

/-- There is one in force at every place, of a name that is declared. -/
theorem exists_inForce {names : List κ} (k : Nat) {n : κ} (hn : n ∈ names) :
    ∃ j, InForce names k n j := by
  have hex : ∃ i : Nat, names[i]? = some n := List.mem_iff_getElem?.mp hn
  by_cases hbefore : ∃ i : Nat, i < k ∧ names[i]? = some n
  · -- the last one before `k`
    rcases hbefore with ⟨i, hik, hi⟩
    have hspec : Nat.findGreatest (fun i => i < k ∧ names[i]? = some n) k < k ∧
        names[Nat.findGreatest (fun i => i < k ∧ names[i]? = some n) k]? = some n :=
      Nat.findGreatest_spec (P := fun i => i < k ∧ names[i]? = some n) (Nat.le_of_lt hik) ⟨hik, hi⟩
    refine ⟨_, hspec.2, .inl ⟨hspec.1, ?_⟩⟩
    intro i hlt hik heq
    exact Nat.findGreatest_is_greatest hlt (Nat.le_of_lt hik) ⟨hik, heq⟩
  · -- the first of all
    refine ⟨Nat.find hex, Nat.find_spec hex, .inr ?_⟩
    rintro i (hik | hlt) heq
    · exact hbefore ⟨i, hik, heq⟩
    · exact Nat.find_min hex hlt heq

end Tables

/-! ## Objects -/

/-- A declaration of the object with a key. -/
structure Decl (κ σ : Type) where
  key : κ
  sig : σ
  /-- it defines the object -/
  defines : Bool

/-- `f` is the first declaration of `k`. -/
structure IsFirst (ds : List (Decl κ σ)) (k : κ) (f : Nat) : Prop where
  key : ds[f]?.map (·.key) = some k
  first : ∀ i, i < f → ds[i]?.map (·.key) ≠ some k

/-- Declaration `j` is about the object of the first declaration `f` of its key. -/
structure Primary (ds : List (Decl κ σ)) (f j : Nat) : Prop where
  sig : ds[f]?.map (·.sig) = ds[j]?.map (·.sig)
  /-- it does not define the object once more -/
  once : ∀ d ∈ ds[j]?, d.defines = true → ∀ i, i < j → ∀ e ∈ ds[i]?, e.key = d.key → e.defines = false

section First

variable {ds : List (Decl κ σ)}

theorem IsFirst.le {k : κ} {f j : Nat} (hf : IsFirst ds k f) (hj : ds[j]?.map (·.key) = some k) :
    f ≤ j := by
  by_contra h
  exact hf.first j (Nat.lt_of_not_le h) hj

theorem IsFirst.unique {k : κ} {f g : Nat} (hf : IsFirst ds k f) (hg : IsFirst ds k g) : f = g :=
  Nat.le_antisymm (hf.le hg.key) (hg.le hf.key)

/-- There is a first declaration of every key that is declared. -/
theorem exists_isFirst {d : Decl κ σ} {j : Nat} (hj : ds[j]? = some d) :
    ∃ f, IsFirst ds d.key f := by
  classical
  have hex : ∃ i : Nat, ds[i]?.map (·.key) = some d.key := ⟨j, by rw [hj]; exact rfl⟩
  exact ⟨Nat.find hex, Nat.find_spec hex, fun i hi => Nat.find_min hex hi⟩

theorem IsFirst.primary {k : κ} {f : Nat} (hf : IsFirst ds k f) : Primary ds f f where
  sig := rfl
  once := by
    intro d hd _ i hi e he hkey
    have hk : d.key = k := by
      have := hf.key
      rw [Option.mem_def.mp hd] at this
      exact Option.some.inj this
    refine absurd ?_ (hf.first i hi)
    rw [Option.mem_def.mp he]
    exact congrArg some (hkey.trans hk)

/-- Definition `d` is what declaration `j` stands for: `j` defines nothing, `d` is the first
definition of its key, and both agree with the first declaration of the key. -/
structure StandsFor (ds : List (Decl κ σ)) (j d : Nat) : Prop where
  plain : ds[j]?.map (·.defines) = some false
  key : ds[j]?.map (·.key) = ds[d]?.map (·.key)
  earliest : ∀ i, i < d → ∀ e ∈ ds[i]?, ds[d]?.map (·.key) = some e.key → e.defines = false
  sig : ds[j]?.map (·.sig) = ds[d]?.map (·.sig)
  first : ∀ k f, ds[d]?.map (·.key) = some k → IsFirst ds k f → ds[f]?.map (·.sig) = ds[d]?.map (·.sig)

theorem Primary.standsFor {a b : Decl κ σ} {f d j : Nat} (hd : ds[d]? = some a)
    (hj : ds[j]? = some b) (hf : IsFirst ds a.key f) (hpd : Primary ds f d) (hpj : Primary ds f j)
    (hkey : b.key = a.key) (hdef : a.defines = true) (hplain : b.defines = false) :
    StandsFor ds j d where
  plain := by rw [hj]; exact congrArg some hplain
  key := by rw [hj, hd]; exact congrArg some hkey
  earliest := by
    intro i hi e he hk
    rw [hd] at hk
    exact hpd.once a hd hdef i hi e he (Option.some.inj hk).symm
  sig := hpj.sig.symm.trans hpd.sig
  first := by
    intro k g hk hg
    rw [hd] at hk
    rcases Option.some.inj hk with rfl
    rw [hg.unique hf]
    exact hpd.sig

end First

section Find

variable [DecidableEq κ] {ds : List (Decl κ σ)}

/-- The index that `owner` looks for. -/
theorem findIdx?_take {d : Decl κ σ} {f j : Nat} (hf : IsFirst ds d.key f) (hfj : f < j)
    (hj : j ≤ ds.length) : (ds.take j).findIdx? (·.key = d.key) = some f := by
  have hlt : f < (ds.take j).length := by
    rw [List.length_take]
    omega
  rw [List.findIdx?_eq_some_iff_getElem]
  refine ⟨hlt, ?_, ?_⟩
  · have hkey := hf.key
    rw [List.getElem?_eq_getElem (by omega)] at hkey
    rw [List.getElem_take]
    exact decide_eq_true (Option.some.inj hkey)
  · intro i hi
    have hne := hf.first i hi
    rw [List.getElem?_eq_getElem (by omega)] at hne
    rw [List.getElem_take]
    exact ne_true_of_eq_false (decide_eq_false fun h => hne (congrArg some h))

theorem findIdx?_take_none {d : Decl κ σ} {j : Nat} (hf : IsFirst ds d.key j) :
    (ds.take j).findIdx? (·.key = d.key) = none := by
  rw [List.findIdx?_eq_none_iff]
  intro e he
  rcases List.mem_iff_getElem?.mp he with ⟨i, hi⟩
  have hij : i < j := by
    by_contra hle
    rw [List.getElem?_take_eq_none (Nat.le_of_not_lt hle)] at hi
    cases hi
  rw [List.getElem?_take_of_lt hij] at hi
  have hne := hf.first i hij
  rw [hi] at hne
  exact decide_eq_false fun h => hne (congrArg some h)

end Find

variable [DecidableEq κ] [DecidableEq σ]

/-- The declaration that introduces the object of `d`, behind the declarations of `pre`: the first
of its key, or `d` itself. -/
def owner (pre : List (Decl κ σ)) (d : Decl κ σ) : Nat :=
  match pre.findIdx? (·.key = d.key) with
  | none => pre.length
  | some i =>
      if pre[i]?.map (·.sig) = some d.sig ∧ ¬ (d.defines ∧ ∃ e ∈ pre, e.key = d.key ∧ e.defines)
      then i else pre.length

/-- The declaration that introduces the object of declaration `j`. -/
def ownerAt (ds : List (Decl κ σ)) (j : Nat) : Nat :=
  match ds[j]? with
  | some d => owner (ds.take j) d
  | none => j

theorem owner_le (pre : List (Decl κ σ)) (d : Decl κ σ) : owner pre d ≤ pre.length := by
  unfold owner
  split
  case h_1 => exact Nat.le_refl _
  case h_2 i hi =>
    split
    · exact Nat.le_of_lt (List.findIdx?_eq_some_iff_findIdx_eq.mp hi).1
    · exact Nat.le_refl _

theorem ownerAt_append {ds : List (Decl κ σ)} {j : Nat} (hj : j < ds.length)
    (es : List (Decl κ σ)) : ownerAt (ds ++ es) j = ownerAt ds j := by
  unfold ownerAt
  rw [List.getElem?_append_left hj, List.take_append_of_le_length (Nat.le_of_lt hj)]

theorem ownerAt_last (ds : List (Decl κ σ)) (d : Decl κ σ) :
    ownerAt (ds ++ [d]) ds.length = owner ds d := by
  unfold ownerAt
  rw [List.getElem?_concat_length, List.take_left]

theorem ownerAt_le (ds : List (Decl κ σ)) (j : Nat) : ownerAt ds j ≤ j := by
  unfold ownerAt
  split
  case h_1 d _ =>
    exact Nat.le_trans (owner_le _ d) (by rw [List.length_take]; exact Nat.min_le_left _ _)
  case h_2 => exact Nat.le_refl j

section Owner

variable {ds : List (Decl κ σ)}

theorem ownerAt_primary {d : Decl κ σ} {f j : Nat} (hj : ds[j]? = some d)
    (hf : IsFirst ds d.key f) (hp : Primary ds f j) : ownerAt ds j = f := by
  have hlen : j < ds.length := (List.getElem?_eq_some_iff.mp hj).1
  unfold ownerAt
  rw [hj]
  show owner (ds.take j) d = f
  unfold owner
  rcases Nat.lt_or_eq_of_le (hf.le (by rw [hj]; rfl)) with hfj | rfl
  · rw [findIdx?_take hf hfj (Nat.le_of_lt hlen)]
    refine if_pos ⟨?_, ?_⟩
    · have hsig := hp.sig
      rw [hj] at hsig
      rw [List.getElem?_take_of_lt hfj]
      exact hsig
    · rintro ⟨hd, e, he, hkey, hdef⟩
      rcases List.mem_iff_getElem?.mp he with ⟨i, hi⟩
      have hij : i < j := by
        by_contra hle
        rw [List.getElem?_take_eq_none (Nat.le_of_not_lt hle)] at hi
        cases hi
      rw [List.getElem?_take_of_lt hij] at hi
      have hno := hp.once d hj hd i hij e hi hkey
      rw [hno] at hdef
      cases hdef
  · rw [findIdx?_take_none hf]
    show (ds.take f).length = f
    rw [List.length_take]
    omega

theorem ownerAt_own {d : Decl κ σ} {f j : Nat} (hj : ds[j]? = some d)
    (hf : IsFirst ds d.key f) (hp : ¬ Primary ds f j) : ownerAt ds j = j := by
  have hlen : j < ds.length := (List.getElem?_eq_some_iff.mp hj).1
  have hfj : f < j := by
    rcases Nat.lt_or_eq_of_le (hf.le (by rw [hj]; rfl)) with h | rfl
    · exact h
    · exact absurd hf.primary hp
  have htake : (ds.take j).length = j := by
    rw [List.length_take]
    omega
  unfold ownerAt
  rw [hj]
  show owner (ds.take j) d = j
  unfold owner
  rw [findIdx?_take hf hfj (Nat.le_of_lt hlen)]
  show (if _ then f else _) = j
  rw [if_neg, htake]
  rintro ⟨hsig, hdef⟩
  refine hp ⟨?_, ?_⟩
  · rw [List.getElem?_take_of_lt hfj] at hsig
    rw [hj]
    exact hsig
  · intro d' hd' hdefines i hij e he hkey
    rcases Option.some.inj (hj.symm.trans hd') with rfl
    by_contra hne
    refine hdef ⟨hdefines, e, ?_, hkey, Bool.not_eq_false _ ▸ hne⟩
    rw [List.mem_iff_getElem?]
    exact ⟨i, (List.getElem?_take_of_lt hij).trans he⟩

/-- Who introduces an object has the object's key. -/
theorem ownerAt_key (j : Nat) : ds[ownerAt ds j]?.map (·.key) = ds[j]?.map (·.key) := by
  cases hj : ds[j]? with
  | none =>
      have : ownerAt ds j = j := by
        unfold ownerAt
        rw [hj]
      rw [this, hj]
  | some d =>
      rcases exists_isFirst hj with ⟨f, hf⟩
      by_cases hp : Primary ds f j
      · rw [ownerAt_primary hj hf hp]
        exact hf.key
      · rw [ownerAt_own hj hf hp, hj]

/-- The first declaration of a key introduces its own object. -/
theorem ownerAt_first {k : κ} {f : Nat} (hf : IsFirst ds k f) : ownerAt ds f = f := by
  have hkey := hf.key
  cases hd : ds[f]? with
  | none =>
      rw [hd] at hkey
      cases hkey
  | some d =>
      rw [hd] at hkey
      rcases Option.some.inj hkey with rfl
      exact ownerAt_primary hd hf hf.primary

/-- An owner that came before owns itself. -/
theorem ownerAt_owner {d : Decl κ σ} (h : owner ds d < ds.length) :
    ownerAt ds (owner ds d) = owner ds d := by
  unfold owner at h ⊢
  cases hi : ds.findIdx? (·.key = d.key) with
  | none =>
      rw [hi] at h
      exact absurd h (Nat.lt_irrefl _)
  | some i =>
      rw [hi] at h
      have hfirst : IsFirst ds d.key i := by
        rcases List.findIdx?_eq_some_iff_getElem.mp hi with ⟨hlt, hkey, hno⟩
        constructor
        · rw [List.getElem?_eq_getElem hlt]
          exact congrArg some (of_decide_eq_true hkey)
        · intro j hj heq
          rw [List.getElem?_eq_getElem (Nat.lt_trans hj hlt)] at heq
          exact hno j hj (decide_eq_true (Option.some.inj heq))
      show ownerAt ds (if _ then i else _) = if _ then i else _
      split
      case isTrue => exact ownerAt_first hfirst
      case isFalse hno =>
        change (if _ then i else _) < _ at h
        rw [if_neg hno] at h
        exact absurd h (Nat.lt_irrefl _)

/-- The declarations that are about the object of a definition. -/
theorem ownerAt_eq_iff {a : Decl κ σ} {d j : Nat} (hd : ds[d]? = some a) (hdef : a.defines = true)
    (hj : j < ds.length) : ownerAt ds j = ownerAt ds d ↔ j = d ∨ StandsFor ds j d := by
  have hb : ∃ b, ds[j]? = some b := ⟨_, List.getElem?_eq_getElem hj⟩
  rcases hb with ⟨b, hb⟩
  constructor
  · intro heq
    have hkey : b.key = a.key := by
      have h : ds[ownerAt ds j]?.map (·.key) = ds[j]?.map (·.key) := ownerAt_key j
      rw [heq, ownerAt_key, hd, hb] at h
      exact (Option.some.inj h).symm
    rcases exists_isFirst hd with ⟨f, hf⟩
    have hfj : IsFirst ds b.key f := hkey ▸ hf
    by_cases hpd : Primary ds f d
    · by_cases hpj : Primary ds f j
      · rcases Nat.lt_trichotomy j d with hlt | rfl | hgt
        · -- an earlier declaration: it does not define, since `d` is the first definition
          have hno := hpd.once a hd hdef j hlt b hb hkey
          exact .inr (hpd.standsFor hd hb hf hpj hkey hdef hno)
        · exact .inl rfl
        · have hno : b.defines = false := by
            by_contra hne
            have := hpj.once b hb (Bool.not_eq_false _ ▸ hne) d hgt a hd hkey.symm
            rw [hdef] at this
            cases this
          exact .inr (hpd.standsFor hd hb hf hpj hkey hdef hno)
      · rw [ownerAt_own hb hfj hpj, ownerAt_primary hd hf hpd] at heq
        exact absurd hf.primary (heq ▸ hpj)
    · rw [ownerAt_own hd hf hpd] at heq
      by_cases hpj : Primary ds f j
      · rw [ownerAt_primary hb hfj hpj] at heq
        exact absurd hf.primary (heq ▸ hpd)
      · rw [ownerAt_own hb hfj hpj] at heq
        exact .inl heq
  · rintro (rfl | hs)
    · rfl
    · have hkey : b.key = a.key := by
        have := hs.key
        rw [hb, hd] at this
        exact Option.some.inj this
      rcases exists_isFirst hd with ⟨f, hf⟩
      have hsig := hs.first a.key f (by rw [hd]; rfl) hf
      have hpd : Primary ds f d := ⟨hsig, fun a' ha' _ i hi e he hk => hs.earliest i hi e he (by
        rw [Option.mem_def.mp ha', hk]
        rfl)⟩
      have hpj : Primary ds f j := ⟨hsig.trans hs.sig.symm, fun b' hb' hdef' => by
        have := hs.plain
        rw [Option.mem_def.mp hb'] at this
        have hno : b'.defines = false := Option.some.inj this
        rw [hno] at hdef'
        cases hdef'⟩
      rw [ownerAt_primary hb (hkey ▸ hf) hpj, ownerAt_primary hd hf hpd]

end Owner

end Overshadow
