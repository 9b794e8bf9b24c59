import Hlang.Parser.ClassGraph
import Hlang.Parser.Progress
import Hlang.Parser.TopLevel

/-!
# Hlang.Parser.EndOfFile — the parser reaches the end of every file

Every item takes a token, so `run` returns at the end of the file, whatever the tokens are. The one
way out is a lookup of a member along bases that lead back to where they began: while no class head
makes a class its own ancestor, a lookup ends after as many steps as there are classes.
-/

namespace Hlang.Parser

open Dag Relation
open Lexer (eofToken)

/-! ## Bases -/

/-- What lookups need of the class table: bases lead to an end, among the objects in use. -/
structure Program.Rooted (p : Program) : Prop where
  grounded : Grounded (HasBase p.heap)
  inUse : ∀ c b, HasBase p.heap c b → c < p.next ∧ b < p.next
  named : ∀ name c, p.classes name = some c → c < p.next

section Bases

variable {p : Program} {ci : ClassId}

/-- A lookup takes no more steps than there are classes on the way. -/
theorem findMember_isSome {H : Heap} (hH : Grounded (HasBase H)) (name : String) : ∀ (k : Nat)
    (S : Finset ClassId) (c : ClassId), (∀ x, ReflTransGen (HasBase H) c x → x ∈ S) → S.card ≤ k →
      (findMember H k c name).isSome := by
  intro k
  induction k with
  | zero =>
      intro S c hS hk
      have hc : c ∈ S := hS c .refl
      rw [Finset.card_eq_zero.mp (Nat.le_zero.mp hk)] at hc
      exact absurd hc (Finset.notMem_empty c)
  | succ k ih =>
      intro S c hS hk
      unfold findMember
      split
      · rfl
      · split
        · next b hb =>
            -- the class is not on the way from its base
            refine ih (S.erase c) b ?_ ?_
            · intro x hx
              refine Finset.mem_erase.mpr ⟨?_, hS x (.head hb hx)⟩
              rintro rfl
              exact hH.acyclic x (.head' hb hx)
            · rw [Finset.card_erase_of_mem (hS c .refl)]
              omega
        · rfl

/-- The names of a rooted table can be looked up. -/
theorem Program.Rooted.looks (hp : p.Rooted) {E : ParseEnv} (hE : E.prog = p) : Looks E p.next := by
  intro name c member k hc hk
  rw [hE] at hc ⊢
  refine findMember_isSome hp.grounded member k (Finset.range p.next) c ?_ (by simpa using hk)
  intro x hx
  rw [Finset.mem_range]
  rcases hx.cases_tail with heq | ⟨y, _, hyx⟩
  · rw [heq]
    exact hp.named name c hc
  · exact (hp.inUse y x hyx).2

theorem rooted_start : ({} : Program).Rooted := by
  constructor
  · refine ⟨fun c => Acc.intro c ?_⟩
    intro b hb
    exact absurd hb (by simp [HasBase])
  · intro c b hb
    exact absurd hb (by simp [HasBase])
  · intro name c hc
    cases hc

/-- What leaves the bases leaves the table rooted. -/
theorem Program.Rooted.setClass (hp : p.Rooted) (ci : ClassId) {c : ClassInfo}
    (hbase : c.base = (p.heap ci).base) : (p.setClass ci c).Rooted := by
  have hsame : HasBase (p.setClass ci c).heap = HasBase p.heap := by
    funext x y
    unfold HasBase
    by_cases hx : x = ci
    · subst hx
      rw [p.setClass_self, hbase]
    · rw [p.setClass_other c hx]
  constructor
  · rw [hsame]
    exact hp.grounded
  · rw [hsame]
    exact hp.inUse
  · exact hp.named

theorem Program.Rooted.fresh (hp : p.Rooted) (name : String) : (p.fresh name).2.Rooted := by
  have hsame : HasBase (p.fresh name).2.heap = HasBase p.heap := by
    funext x y
    by_cases hx : x = p.next
    · subst hx
      have hnew : (p.fresh name).2.heap p.next = { name := name } := Function.update_self ..
      refine propext ⟨fun h => ?_, fun h => ?_⟩
      · unfold HasBase at h
        rw [hnew] at h
        cases h
      · exact absurd (hp.inUse _ _ h).1 (Nat.lt_irrefl _)
    · have hold : (p.fresh name).2.heap x = p.heap x := Function.update_of_ne hx ..
      unfold HasBase
      rw [hold]
  constructor
  · rw [hsame]
    exact hp.grounded
  · intro c b hb
    rw [hsame] at hb
    rcases hp.inUse c b hb with ⟨hc, hb⟩
    exact ⟨Nat.lt_succ_of_lt hc, Nat.lt_succ_of_lt hb⟩
  · intro n c hn
    unfold Program.fresh at hn ⊢
    dsimp only at hn ⊢
    rw [Function.update_apply] at hn
    split at hn
    · rw [← Option.some.inj hn]
      exact Nat.lt_succ_self _
    · exact Nat.lt_succ_of_lt (hp.named n c hn)

/-- Entering a class takes at most one new object. -/
theorem Program.Rooted.enterName (hp : p.Rooted) (name : String) (defines : Bool) :
    (p.enterName name defines).2.Rooted ∧
      (p.enterName name defines).1 < (p.enterName name defines).2.next ∧
      (p.enterName name defines).2.next ≤ p.next + 1 := by
  have hfresh : (p.fresh name).2.Rooted ∧ (p.fresh name).1 < (p.fresh name).2.next ∧
      (p.fresh name).2.next ≤ p.next + 1 :=
    ⟨hp.fresh name, Nat.lt_succ_self _, Nat.le_refl _⟩
  unfold Program.enterName
  split
  · next ci hci =>
      split
      · exact hfresh
      · exact ⟨hp, hp.named name ci hci, Nat.le_succ _⟩
  · exact hfresh

/-- The builtin types are no classes. -/
theorem builtin_no_class {name : String} {t : Ty} (h : builtinTypes.lookup name = some t) :
    t.cls? = none := by
  have hall : ∀ q ∈ builtinTypes, q.2.cls? = none := by decide
  rcases List.lookup_eq_some_iff.mp h with ⟨l₁, l₂, hl, _⟩
  exact hall (name, t) (hl ▸ List.mem_append_right l₁ List.mem_cons_self)

/-- A base clause leaves the table rooted, if the class is not its own ancestor behind it. -/
theorem Program.Rooted.based (hp : p.Rooted) (hci : ci < p.next) (name : String)
    (hself : ¬ TransGen (HasBase (p.based ci (p.baseTypeFor name)).heap) ci ci) :
    (p.based ci (p.baseTypeFor name)).Rooted := by
  have hagree : AgreeOff ci (HasBase p.heap) (HasBase (p.based ci (p.baseTypeFor name)).heap) := by
    intro a b ha
    unfold HasBase Program.based
    rw [p.setClass_other _ ha]
  have hnew : ∀ b, HasBase (p.based ci (p.baseTypeFor name)).heap ci b → b < p.next := by
    intro b hb
    unfold HasBase Program.based at hb
    rw [p.setClass_self] at hb
    rcases Option.bind_eq_some_iff.mp hb with ⟨t, ht, hcls⟩
    change p.baseTypeFor name = some t at ht
    unfold Program.baseTypeFor at ht
    split at ht
    · next t' hbuiltin =>
        rw [← Option.some.inj ht, builtin_no_class hbuiltin] at hcls
        cases hcls
    · rcases Option.map_eq_some_iff.mp ht with ⟨c, hc, rfl⟩
      rw [← Option.some.inj hcls]
      exact hp.named name c hc
  constructor
  · exact hp.grounded.redirect hagree fun b hb hbc => hself (cycle_redirect hagree hb hbc)
  · intro a b hab
    by_cases ha : a = ci
    · subst ha
      exact ⟨hci, hnew b hab⟩
    · exact hp.inUse a b ((hagree a b ha).mp hab)
  · exact hp.named

end Bases

/-! ## The parser of items -/

/-- From the classes and items `d` and the tokens of `s`, `x` returns with `Q`. -/
def Runs {α : Type} (x : TopParse α) (d : Decls) (s : PState) (Q : α → Decls → PState → Prop) :
    Prop := Returns (x d) s fun r s' => Q r.1 r.2 s'

namespace Runs

variable {α β : Type} {d : Decls} {s : PState} {Q : β → Decls → PState → Prop}

theorem pure {a : β} (h : Q a d s) : Runs (Pure.pure a) d s Q := Returns.pure h

theorem mono {x : TopParse β} {Q' : β → Decls → PState → Prop} (h : Runs x d s Q)
    (hQ : ∀ a d' s', Q a d' s' → Q' a d' s') : Runs x d s Q' :=
  Returns.mono h fun r s' => hQ r.1 r.2 s'

theorem bind {x : TopParse α} {g : α → TopParse β} {R : α → Decls → PState → Prop}
    (hx : Runs x d s R) (hg : ∀ a d' s', R a d' s' → Runs (g a) d' s' Q) : Runs (x >>= g) d s Q :=
  Returns.bind hx fun r s' hr => hg r.1 r.2 s' hr

theorem ite {c : Prop} [Decidable c] {x y : TopParse β} (hx : c → Runs x d s Q)
    (hy : ¬ c → Runs y d s Q) : Runs (if c then x else y) d s Q := by
  split
  · next h => exact hx h
  · next h => exact hy h

theorem last {x : Parse β} {P : β → PState → Prop} (hx : Returns x s P)
    (h : ∀ a s', P a s' → Q a d s') : Runs (liftM x) d s Q := by
  rcases hx with ⟨a, s', hrun, hP⟩
  refine ⟨(a, d), s', ?_, h a s' hP⟩
  change (x s).bind _ = _
  rw [hrun]
  rfl

theorem read {x : Parse α} {g : α → TopParse β} {P : α → PState → Prop} (hx : Returns x s P)
    (h : ∀ a s', P a s' → Runs (g a) d s' Q) : Runs (liftM x >>= g) d s Q :=
  bind (last (Q := fun a d' s' => P a s' ∧ d' = d) hx fun _ _ hP => ⟨hP, rfl⟩)
    fun a _ s' hR => hR.2 ▸ h a s' hR.1

theorem get {g : Decls → TopParse β} (h : Runs (g d) d s Q) : Runs (MonadState.get >>= g) d s Q := h

theorem modifyProg {g : Unit → TopParse β} {f : Program → Program}
    (h : Runs (g ()) { d with prog := f d.prog } s Q) : Runs (modifyProg f >>= g) d s Q := h

theorem addItem {g : Unit → TopParse β} {item : TopItem}
    (h : Runs (g ()) { d with items := d.items ++ [item] } s Q) : Runs (addItem item >>= g) d s Q := h

theorem addItem_last {item : TopItem} {Q : Unit → Decls → PState → Prop}
    (h : Q () { d with items := d.items ++ [item] } s) : Runs (Parser.addItem item) d s Q :=
  ⟨_, _, rfl, h⟩

theorem is_zero {g : Bool → TopParse β} {p : P} (h : Runs (g (s.head.is p)) d s Q) :
    Runs (liftM (is p 0) >>= g) d s Q := h

theorem is_one {g : Bool → TopParse β} {p : P} (h : ∀ c, Runs (g c) d s Q) :
    Runs (liftM (is p 1) >>= g) d s Q := h _

theorem startsDecl {g : Bool → TopParse β} (h : ∀ c, Runs (g c) d s Q) :
    Runs (liftM startsDecl >>= g) d s Q := h _

theorem tok_one {g : Token → TopParse β} (h : Runs (g s.tail.head) d s Q) :
    Runs (liftM (Parser.tok 1) >>= g) d s Q := by
  have htok : Parser.tok 1 s = some (s.tail.head, s) := by
    unfold PState.head PState.tail
    rw [← List.drop_one]
    rfl
  refine read (P := fun t s' => t = s.tail.head ∧ s' = s) ⟨_, _, htok, rfl, rfl⟩ ?_
  rintro t s' ⟨rfl, rfl⟩
  exact h

theorem tok {g : Token → TopParse β} (h : Runs (g s.head) d s Q) :
    Runs (liftM (tok 0) >>= g) d s Q := h

/-- What is parsed with the classes that are declared now. -/
theorem parse {F : FileEnv} {f : ParseEnv → Parse α} {g : α → TopParse β} {P : α → PState → Prop}
    (hx : Returns (f (F.env d)) s P) (h : ∀ a s', P a s' → Runs (g a) d s' Q) :
    Runs (F.parse f >>= g) d s Q := read hx h

theorem parse_last {F : FileEnv} {f : ParseEnv → Parse β} {P : β → PState → Prop}
    (hx : Returns (f (F.env d)) s P) (h : ∀ a s', P a s' → Q a d s') :
    Runs (F.parse f) d s Q := last hx h

theorem accept {g : Bool → TopParse β} {p : P}
    (htrue : s.head.is p = true → ∀ s', s'.left + 1 = s.left → Runs (g true) d s' Q)
    (hfalse : s.head.is p = false → Runs (g false) d s Q) :
    Runs (liftM (accept p) >>= g) d s Q := by
  cases hp : s.head.is p with
  | true =>
      have hpos := PState.left_pos (not_eof_of_is hp)
      have htail : s.tail.left = s.left - 1 := PState.tail_left
      refine read (P := fun c s' => c = true ∧ s' = s.tail) ⟨_, _, accept_true hp, rfl, rfl⟩ ?_
      rintro c s' ⟨rfl, rfl⟩
      exact htrue hp s.tail (by omega)
  | false =>
      refine read (P := fun c s' => c = false ∧ s' = s) ⟨_, _, accept_false hp, rfl, rfl⟩ ?_
      rintro c s' ⟨rfl, rfl⟩
      exact hfalse hp

theorem error {g : Unit → TopParse β} {loc : SrcLoc} {msg : String}
    (h : ∀ s', s'.left = s.left → Runs (g ()) d s' Q) : Runs (liftM (error loc msg) >>= g) d s Q :=
  read (P := fun _ s' => s'.left = s.left) ⟨(), _, rfl, rfl⟩ fun _ => h

theorem error_toks {g : Unit → TopParse β} {loc : SrcLoc} {msg : String}
    (h : ∀ s', s'.toks = s.toks → Runs (g ()) d s' Q) : Runs (liftM (Parser.error loc msg) >>= g) d s Q :=
  read (P := fun _ s' => s'.toks = s.toks) ⟨(), _, rfl, rfl⟩ fun _ => h

theorem error_last {loc : SrcLoc} {msg : String} {Q : Unit → Decls → PState → Prop}
    (h : ∀ s', s'.left = s.left → Q () d s') : Runs (liftM (Parser.error loc msg)) d s Q :=
  last (P := fun _ s' => s'.left = s.left) ⟨(), _, rfl, rfl⟩ fun _ => h

theorem take {g : Token → TopParse β} (hne : s.head.kind ≠ .eof)
    (h : ∀ s', s'.left + 1 = s.left → Runs (g s.head) d s' Q) : Runs (liftM take >>= g) d s Q := by
  have hpos := PState.left_pos hne
  have htail : s.tail.left = s.left - 1 := PState.tail_left
  refine read (P := fun t s' => t = s.head ∧ s' = s.tail) ⟨_, _, rfl, rfl, rfl⟩ ?_
  rintro t s' ⟨rfl, rfl⟩
  exact h s.tail (by omega)

/-- A token is taken, and at most `b` are left. -/
theorem take_to {g : Token → TopParse β} {b : Nat} (hb : s.left - 1 ≤ b)
    (h : ∀ t s', s'.left ≤ b → Runs (g t) d s' Q) : Runs (liftM Parser.take >>= g) d s Q := by
  have htail : s.tail.left = s.left - 1 := PState.tail_left
  exact read (P := fun _ s' => s'.left ≤ b) ⟨s.head, s.tail, rfl, by omega⟩ h

end Runs

/-- How many class objects there are. -/
def Decls.count (d : Decls) : Nat := d.prog.next

/-- What the functions behind a class head keep. -/
structure Stays (d : Decls) (s : PState) (d' : Decls) (s' : PState) : Prop where
  rooted : d'.prog.Rooted
  count : d'.count = d.count
  left : s'.left ≤ s.left

theorem Stays.refl {d : Decls} {s s' : PState} (hd : d.prog.Rooted) (hs : s'.left ≤ s.left) :
    Stays d s d s' := ⟨hd, rfl, hs⟩

theorem Stays.trans {d d' d'' : Decls} {s s' s'' : PState} (h : Stays d s d' s')
    (h' : Stays d' s' d'' s'') : Stays d s d'' s'' :=
  ⟨h'.rooted, h'.count.trans h.count, Nat.le_trans h'.left h.left⟩

section Items

variable {F : FileEnv} {n : Nat} {d : Decls} {s : PState}

theorem Program.Rooted.env (hd : d.prog.Rooted) (F : FileEnv) : Looks (F.env d) d.count := hd.looks rfl

/-- One qualifier. -/
theorem returns_qualsRest_cons {q : Quals} {Q : Quals → PState → Prop}
    (hq : isQualKw s.head = true)
    (h : ∀ q' s', q'.any = true → s'.left + 1 ≤ s.left → Returns (qualsRest n q') s' Q) :
    Returns (qualsRest (n + 1) q) s Q := by
  have hne : s.head.kind ≠ .eof := by
    unfold isQualKw at hq
    rw [Bool.and_eq_true, decide_eq_true_eq] at hq
    rw [hq.1]
    decide
  have hpos := PState.left_pos hne
  have htail : s.tail.left = s.left - 1 := PState.tail_left
  have htail' : s.tail.tail.left = s.tail.left - 1 := PState.tail_left
  have hadd : ∀ (kw : String), (({ q with any := true } : Quals).add kw).any = true := by
    intro kw
    unfold Quals.add
    repeat' split
    all_goals rfl
  have hstep : qualsRest (n + 1) q s = (do
      let _ ← take
      let q := { q with any := true }
      if s.head.text = "_extern" ∨ s.head.text = "_import" then
        let q := { q with linkage := if s.head.text = "_extern" then .externAlias else .importAlias }
        let u ← tok 0
        if u.kind = .ident then
          let _ ← take
          qualsRest n { q with aliasSym := u.text }
        else
          error u.loc ("expected symbol name after " ++ s.head.text)
          qualsRest n q
      else qualsRest n (q.add s.head.text) : Parse Quals) s := by
    rw [qualsRest, parse_bind_some (tok_zero s), hq]
    rfl
  unfold Returns
  rw [hstep]
  refine Returns.bind (Q := fun _ s' => s' = s.tail) ⟨_, _, rfl, rfl⟩ ?_
  rintro _ _ rfl
  refine Returns.ite (fun _ => ?_) fun _ => h _ _ (hadd _) (by omega)
  refine Returns.bind (Q := fun _ s' => s' = s.tail) ⟨_, _, rfl, rfl⟩ ?_
  rintro u _ rfl
  refine Returns.ite (fun _ => ?_) fun _ => ?_
  · refine Returns.bind (Q := fun _ s' => s' = s.tail.tail) ⟨_, _, rfl, rfl⟩ ?_
    rintro _ _ rfl
    exact h _ _ rfl (by omega)
  · refine Returns.bind (Q := fun _ s' => s'.left = s.tail.left) ⟨_, _, rfl, rfl⟩ ?_
    intro _ s' hs'
    exact h _ _ rfl (by omega)

theorem qualsRest_nil {q : Quals} (hq : isQualKw s.head = false) :
    qualsRest (n + 1) q s = some (q, s) := by
  rw [qualsRest, parse_bind_some (tok_zero s), hq]
  rfl

/-- Qualifiers are taken, or there are none. -/
theorem returns_parseQuals (hn : s.left < n) : Returns (parseQuals n) s fun q s' =>
    (q.any = true ∧ s'.left + 1 ≤ s.left) ∨ (q.any = false ∧ s' = s) := by
  -- behind the first one
  have hrest : ∀ n (q : Quals) s, q.any = true → s.left < n →
      Returns (qualsRest n q) s fun q' s' => q'.any = true ∧ s'.left ≤ s.left := by
    intro n q s hq hn
    refine Returns.loop (μ := PState.left) (P := fun (q : Quals) _ => q.any = true)
      (R := fun _ s (q' : Quals) s' => q'.any = true ∧ s'.left ≤ s.left) ?_ n q s hq hn
    intro n q s hq _ ih
    cases hkw : isQualKw s.head with
    | true =>
        refine returns_qualsRest_cons hkw fun q' s' hq' hs' => ?_
        exact Returns.mono (ih q' s' hq' (by omega)) fun _ _ h => ⟨h.1, by omega⟩
    | false => exact ⟨q, s, qualsRest_nil hkw, hq, Nat.le_refl _⟩
  rcases Nat.exists_eq_add_of_lt hn with ⟨k, rfl⟩
  cases hkw : isQualKw s.head with
  | true =>
      refine returns_qualsRest_cons hkw fun q' s' hq' hs' => ?_
      exact Returns.mono (hrest _ q' s' hq' (by omega)) fun _ _ h => .inl ⟨h.1, by omega⟩
  | false => exact ⟨_, s, qualsRest_nil hkw, .inr ⟨rfl, rfl⟩⟩

theorem keeps_memberMeta {expr : Parse Expr} {L : Nat} (hexpr : Keeps L expr) (hn : L < n) :
    Keeps L (memberMeta expr n) := by
  intro s hs
  refine Returns.loop (f := fun n (_ : Unit) => memberMeta expr n) (μ := PState.left)
    (P := fun _ s => s.left ≤ L) (R := fun _ s _ s' => s'.left ≤ s.left) ?_ n () s hs (by omega)
  intro n _ s hs _ ih
  rw [memberMeta]
  refine Within.tok (.ite (fun hkind => ?_) fun _ => .pure (Nat.le_refl _))
  refine .take (by rw [hkind]; decide) fun _ s₁ h₁ => .bind (hexpr s₁ (by omega)) fun _ s₂ h₂ => ?_
  exact Within.le (ih () s₂ (by omega) (by omega)) (by omega)

theorem runs_layMember (hd : d.prog.Rooted) (ci : ClassId) (isUnion : Bool) (o : Offsets)
    (m : VarDeclarator) : Runs (layMember ci isUnion o m) d s fun _ d' s' => Stays d s d' s' := by
  have hadd : ∀ cm, (d.prog.addMember ci cm).Rooted := fun cm => hd.setClass ci rfl
  refine .get (.ite (fun _ => .tok (.error fun s₁ h₁ => .modifyProg (.pure ?_)))
    fun _ => .modifyProg (.pure ?_))
  · exact ⟨hadd _, rfl, Nat.le_of_eq h₁⟩
  · exact ⟨hadd _, rfl, Nat.le_refl _⟩

theorem runs_memberLine (hd : d.prog.Rooted) (ci : ClassId) (isUnion : Bool) (base : Ty)
    (o : Offsets) (hn : 2 * s.left + d.count + 4 ≤ n) :
    Runs (memberLine F n ci isUnion base n o) d s fun _ d' s' => Stays d s d' s' := by
  refine Returns.loop (f := fun k (c : Offsets × Decls) => memberLine F n ci isUnion base k c.1 c.2)
    (μ := PState.left)
    (P := fun c s => c.2.prog.Rooted ∧ 2 * s.left + c.2.count + 4 ≤ n)
    (R := fun c s r s' => Stays c.2 s r.2 s') ?_ n (o, d) s ⟨hd, hn⟩ (by omega)
  rintro k ⟨o, d⟩ s ⟨hd, hn⟩ - ih
  dsimp only at hd hn
  have hdecl := keeps_parseDeclarator (F := F) (hd.env F) n s.left base false false hn s (Nat.le_refl _)
  change Runs (memberLine F n ci isUnion base (k + 1) o) d s fun _ d' s' => Stays d s d' s'
  rw [memberLine]
  refine .parse hdecl fun m s₁ h₁ => ?_
  cases m with
  | none => exact .tok (.error fun s₂ h₂ => .pure (.refl hd (by omega)))
  | some m =>
      have hassign : Keeps s.left (parseAssign (F.env d) n) :=
        (consumes_parseAssign (hd.env F) (by omega)).keeps
      refine .parse (keeps_memberMeta hassign (by omega) s₁ h₁) fun _ s₂ h₂ => ?_
      refine .bind (runs_layMember hd ci isUnion o m) fun o d₃ s₃ h₃ => ?_
      have hleft := h₃.left
      have hcount := h₃.count
      refine .accept (fun _ s₄ h₄ => ?_) fun _ => ?_
      · have hn' : 2 * s₄.left + d₃.count + 4 ≤ n := by omega
        refine Returns.mono (ih (o, d₃) s₄ ⟨h₃.rooted, hn'⟩ (by omega)) fun r s₅ h₅ => ?_
        have hleft' := h₅.left
        exact ⟨h₅.rooted, h₅.count.trans hcount, by omega⟩
      · refine .parse (within_expect _ _) fun _ s₄ h₄ => .pure ⟨h₃.rooted, hcount, by omega⟩

theorem runs_classLines (hd : d.prog.Rooted) (loc : SrcLoc) (ci : ClassId) (isUnion : Bool)
    (o : Offsets) (hn : 2 * s.left + d.count + 4 ≤ n) :
    Runs (classLines F n loc ci isUnion n o) d s fun _ d' s' => Stays d s d' s' := by
  refine Returns.loop (f := fun k (c : Offsets × Decls) => classLines F n loc ci isUnion k c.1 c.2)
    (μ := PState.left)
    (P := fun c s => c.2.prog.Rooted ∧ 2 * s.left + c.2.count + 4 ≤ n)
    (R := fun c s r s' => Stays c.2 s r.2 s') ?_ n (o, d) s ⟨hd, hn⟩ (by omega)
  rintro k ⟨o, d⟩ s ⟨hd, hn⟩ - ih
  dsimp only at hd hn
  change Runs (classLines F n loc ci isUnion (k + 1) o) d s fun _ d' s' => Stays d s d' s'
  have hgo : ∀ o d' s', Stays d s d' s' → s'.left + 1 ≤ s.left →
      Runs (classLines F n loc ci isUnion k o) d' s' fun _ d'' s'' => Stays d s d'' s'' := by
    intro o d' s' h' hlt
    have hcount := h'.count
    have hn' : 2 * s'.left + d'.count + 4 ≤ n := by omega
    exact Returns.mono (ih (o, d') s' ⟨h'.rooted, hn'⟩ (by omega)) fun _ _ h'' => h'.trans h''
  rw [classLines]
  refine .tok (.ite (fun _ => .pure (.refl hd (Nat.le_refl _))) fun _ => .ite (fun _ => ?_)
    fun hne => ?_)
  · exact .error fun s₁ h₁ => .pure (.refl hd (Nat.le_of_eq h₁))
  have hpos := PState.left_pos hne
  -- after an error the rest of the line is skipped
  have hskip : ∀ s₁, s₁.toks = s.toks → Runs (do
      skipToSemi
      classLines F n loc ci isUnion k o) d s₁ fun _ d'' s'' => Stays d s d'' s'' := by
    intro s₁ h₁
    have hhead : s₁.head = s.head := congrArg (·.headD eofToken) h₁
    have hleft : s₁.left = s.left := congrArg List.length h₁
    refine .read (eats_skipToSemi (L := s.left) s₁ (by rwa [hhead]) (by omega)) fun _ s₂ h₂ => ?_
    exact hgo o d s₂ (.refl hd (by omega)) (by omega)
  refine .accept (fun _ s₁ h₁ => hgo o d s₁ (.refl hd (by omega)) (by omega)) fun _ => ?_
  refine .ite (fun h => absurd h Bool.false_ne_true) fun _ => .ite (fun _ => .error_toks fun s₁ h₁ => hskip s₁ h₁) fun _ => .get (.ite (fun _ => ?_) fun _ => ?_)
  · exact .error_toks fun s₁ h₁ => hskip s₁ h₁
  · refine .read (returns_parseBaseTypeNoStars) fun base s₁ h₁ => ?_
    refine .bind (runs_memberLine hd ci isUnion base o (by omega)) fun o d₂ s₂ h₂ => ?_
    have hleft := h₂.left
    exact hgo o d₂ s₂ ⟨h₂.rooted, h₂.count, by omega⟩ (by omega)

theorem runs_instances (hd : d.prog.Rooted) (q : Quals) (name : String)
    (hn : 2 * s.left + d.count + 4 ≤ n) :
    Runs (instances F n q name n) d s fun _ d' s' => Stays d s d' s' := by
  refine Returns.loop (f := fun k (d : Decls) => instances F n q name k d) (μ := PState.left)
    (P := fun d s => d.prog.Rooted ∧ 2 * s.left + d.count + 4 ≤ n)
    (R := fun d s r s' => Stays d s r.2 s') ?_ n d s ⟨hd, hn⟩ (by omega)
  rintro k d s ⟨hd, hn⟩ - ih
  change Runs (instances F n q name (k + 1)) d s fun _ d' s' => Stays d s d' s'
  rw [instances]
  refine .get ?_
  have hdecl := keeps_parseDeclarator (F := F) (hd.env F) n s.left ((d.prog.baseTypeFor name).getD .void)
    true false hn s (Nat.le_refl _)
  refine .parse hdecl fun m s₁ h₁ => ?_
  cases m with
  | none => exact .tok (.error_last fun s₂ h₂ => .refl hd (by omega))
  | some m =>
      refine .addItem (.accept (fun _ s₂ h₂ => ?_) fun _ => .pure ⟨hd, rfl, h₁⟩)
      have hn' : 2 * s₂.left + d.count + 4 ≤ n := by omega
      refine Returns.mono (ih _ s₂ ⟨hd, hn'⟩ (by omega)) fun r s₃ h₃ => ?_
      have hleft := h₃.left
      exact ⟨h₃.rooted, h₃.count, by omega⟩

/-! ### Class heads -/

theorem runs_baseClause {ci : ClassId} (hd : d.prog.Rooted) (hci : ci < d.count) :
    Runs (baseClause ci) d s fun _ d' s' => d'.count = d.count ∧ s'.left ≤ s.left ∧
      (¬ TransGen (HasBase d'.prog.heap) ci ci → d'.prog.Rooted) := by
  refine .accept (fun _ s₁ h₁ => .tok (.get (.ite (fun _ => ?_) fun hname => ?_)))
    fun _ => .pure ⟨rfl, Nat.le_refl _, fun _ => hd⟩
  · exact .error_last fun s₂ h₂ => ⟨rfl, by omega, fun _ => hd⟩
  · have hne : s₁.head.kind ≠ .eof := by
      intro heof
      rw [heof] at hname
      exact hname rfl
    refine .take hne fun s₂ h₂ => .modifyProg (.tok (.ite (fun _ => ?_) fun _ => ?_))
    · exact .error_last fun s₃ h₃ => ⟨rfl, by omega, hd.based hci _⟩
    · exact .pure ⟨rfl, by omega, hd.based hci _⟩

/-- The tokens behind the qualifiers are a class. -/
def startsClass (E : ParseEnv) (s : PState) : Bool :=
  isClassKw s.head || isTypeName E s.head && isClassKw s.tail.head

/-- What a class head leaves. -/
structure Headed (d : Decls) (s : PState) (h : Option ClassHead) (d' : Decls) (s' : PState) :
    Prop where
  used : d'.count + s'.left ≤ d.count + s.left
  left : s'.left + 1 ≤ s.left
  nameless : h = none → d'.prog.Rooted
  inUse : ∀ h', h = some h' → h'.ci < d'.count
  rooted : ∀ h', h = some h' → ¬ TransGen (HasBase d'.prog.heap) h'.ci h'.ci → d'.prog.Rooted

theorem not_eof_of_isClassKw {t : Token} (h : isClassKw t = true) : t.kind ≠ .eof := by
  rcases Bool.or_eq_true_iff.mp h with h | h <;> exact not_eof_of_isIdent h

theorem runs_classHead (hd : d.prog.Rooted) (hclass : startsClass (F.env d) s = true) :
    Runs (classHead F) d s (Headed d s) := by
  have hne : s.head.kind ≠ .eof := by
    rcases Bool.or_eq_true_iff.mp hclass with h | h
    · exact not_eof_of_isClassKw h
    · exact not_eof_of_isTypeName (Bool.and_eq_true_iff.mp h).1
  have hpos := PState.left_pos hne
  -- the keyword or the whole type before it
  have hwhole : Runs (wholeType F) d s fun _ d' s' => d = d' ∧
      (s' = s ∨ s'.left + 1 ≤ s.left) := by
    refine .tok (.ite (fun _ => ?_) fun _ => .pure ⟨rfl, .inl rfl⟩)
    exact .parse returns_parseBaseType fun ty s₁ h₁ => .pure ⟨rfl, .inr (by omega)⟩
  refine .bind hwhole ?_
  rintro whole _ s₁ ⟨rfl, h₁⟩
  have hb : s₁.left - 1 ≤ s.left - 1 := by
    rcases h₁ with rfl | h₁ <;> omega
  refine .take_to hb fun kw s₂ h₂ => .tok (.ite (fun _ => .error fun s₃ h₃ => ?_) fun hident => ?_)
  · refine .read (within_skipToSemi s₃) fun _ s₄ h₄ => .pure ⟨by omega, by omega, fun _ => hd, ?_, ?_⟩
    · intro h' hh
      cases hh
    · intro h' hh
      cases hh
  · have hne' : s₂.head.kind ≠ .eof := by
      intro heof
      exact hident (by rw [heof]; decide)
    refine .take hne' fun s₃ h₃ => .tok (.get (.modifyProg ?_))
    have henter := hd.enterName s₂.head.text (s₃.head.is .lBrace || s₃.head.is .colon)
    generalize d.prog.enterName s₂.head.text (s₃.head.is .lBrace || s₃.head.is .colon) = e at henter ⊢
    rcases henter with ⟨hrooted, hci, hcount⟩
    change _ ≤ d.count + 1 at hcount
    have hd₁ : (e.2.setClass e.1 { e.2.heap e.1 with
      isUnion := kw.isIdent "union", wholeType := whole }).Rooted := hrooted.setClass e.1 rfl
    refine .bind (runs_baseClause hd₁ hci) ?_
    rintro _ d₄ s₄ ⟨hcount₄, h₄, hself⟩
    change d₄.count = e.2.next at hcount₄
    refine .pure ⟨by omega, by omega, fun h => (by cases h), ?_, ?_⟩
    · intro h' hh
      rw [← Option.some.inj hh]
      exact hcount₄ ▸ hci
    · intro h' hh
      rw [← Option.some.inj hh]
      exact hself

theorem runs_classBody (hd : d.prog.Rooted) (q : Quals) (h : ClassHead)
    (hn : 2 * s.left + d.count + 4 ≤ n) :
    Runs (classBody F n q h) d s fun _ d' s' => Stays d s d' s' := by
  refine .parse (within_expect _ _) fun _ s₁ h₁ => .get ?_
  refine .bind (runs_classLines hd h.loc h.ci h.isUnion _ (by omega)) fun r d₂ s₂ h₂ => ?_
  have hleft := h₂.left
  have hcount := h₂.count
  cases r with
  | none => exact .pure ⟨h₂.rooted, hcount, by omega⟩
  | some o =>
      refine .take_to (Nat.sub_le _ _) fun _ s₃ h₃ => .modifyProg (.addItem ?_)
      have hd₃ : (d₂.prog.complete h.ci o.maxSize).Rooted := h₂.rooted.setClass h.ci rfl
      refine .is_zero (.ite (fun _ => ?_) fun _ => .get ?_)
      · exact .parse_last (within_expect _ _) fun _ s₄ h₄ => ⟨hd₃, hcount, by omega⟩
      · refine .bind (runs_instances hd₃ q _ (d := { d₂ with
          prog := d₂.prog.complete h.ci o.maxSize, items := d₂.items ++ [.classDef h.ci] }) ?_)
          fun _ d₄ s₄ h₄ => ?_
        · change 2 * s₃.left + d₂.count + 4 ≤ n
          omega
        · have hleft₄ := h₄.left
          have hcount₄ : d₄.count = d₂.count := h₄.count
          exact .parse_last (within_expect _ _) fun _ s₅ h₅ => ⟨h₄.rooted, by omega, by omega⟩

/-! ### Items -/

/-- What an item leaves. -/
structure Passed (d : Decls) (s : PState) (d' : Decls) (s' : PState) : Prop where
  rooted : d'.prog.Rooted
  used : d'.count + s'.left ≤ d.count + s.left
  left : s'.left + 1 ≤ s.left

/-- The class head at the front makes its class an ancestor of itself. -/
def ClosesCycle (F : FileEnv) (d : Decls) (s : PState) : Prop :=
  ∃ h d' s', classHead F d s = some ((some h, d'), s') ∧
    TransGen (HasBase d'.prog.heap) h.ci h.ci

theorem runs_readClassDef (hd : d.prog.Rooted) (hclass : startsClass (F.env d) s = true)
    (hcycle : ¬ ClosesCycle F d s) (q : Quals) (hn : 2 * s.left + d.count + 4 ≤ n) :
    Runs (readClassDef F n q) d s fun _ d' s' => Passed d s d' s' := by
  rcases runs_classHead hd hclass with ⟨⟨r, d₁⟩, s₁, hrun, hhead⟩
  have hused := hhead.used
  have hleft := hhead.left
  refine Runs.bind (R := fun r' d' s' => r = r' ∧ d₁ = d' ∧ s₁ = s') ⟨_, _, hrun, rfl, rfl, rfl⟩ ?_
  rintro _ _ _ ⟨rfl, rfl, rfl⟩
  cases r with
  | none => exact .pure ⟨hhead.nameless rfl, hused, hleft⟩
  | some h =>
      change d₁.count + s₁.left ≤ _ at hused
      have hd₁ : d₁.prog.Rooted :=
        hhead.rooted h rfl fun hself => hcycle ⟨h, d₁, s₁, hrun, hself⟩
      refine .accept (fun _ s₂ h₂ => .pure ⟨hd₁, by omega, by omega⟩) fun _ => ?_
      refine Runs.mono (runs_classBody hd₁ q h (by omega)) fun _ d₂ s₂ h₂ => ?_
      have hleft₂ := h₂.left
      have hcount₂ := h₂.count
      exact ⟨h₂.rooted, by omega, by omega⟩

theorem runs_parseFunc (hd : d.prog.Rooted) (q : Quals) (ret : Ty)
    (hn : 2 * s.left + d.count + 5 ≤ n) :
    Runs (parseFunc F n q ret) d s fun _ d' s' => Stays d s d' s' := by
  refine .get (.take_to (Nat.sub_le _ _) fun name s₁ h₁ => .take_to (Nat.sub_le _ _) fun _ s₂ h₂ => ?_)
  have hparams := keeps_parseParams (F := F) (hd.env F) (L := s₂.left) (n := n) (by omega) s₂
    (Nat.le_refl _)
  refine .read hparams fun ps s₃ h₃ => .is_zero (.ite (fun hl => ?_) fun _ => ?_)
  · have hstmt : ∀ L' < s₃.left, Consumes L' (parseStmt F (F.env d) n) :=
      fun L' hL => consumes_parseStmt (hd.env F) n L' (by omega)
    have hblock := eats_parseBlock hstmt (by omega : s₃.left < n) s₃ (not_eof_of_is hl) (Nat.le_refl _)
    exact .read hblock fun body s₄ h₄ => .addItem_last ⟨hd, rfl, by omega⟩
  · exact .read (within_expect _ _) fun _ s₄ h₄ => .addItem_last ⟨hd, rfl, by omega⟩

theorem runs_globals (hd : d.prog.Rooted) (q : Quals) (base ty : Ty)
    (hn : 2 * s.left + d.count + 4 ≤ n) :
    Runs (globals F n q base n ty) d s fun _ d' s' => Stays d s d' s' := by
  refine Returns.loop (f := fun k (c : Ty × Decls) => globals F n q base k c.1 c.2) (μ := PState.left)
    (P := fun c s => c.2.prog.Rooted ∧ 2 * s.left + c.2.count + 4 ≤ n)
    (R := fun c s r s' => Stays c.2 s r.2 s') ?_ n (ty, d) s ⟨hd, hn⟩ (by omega)
  rintro k ⟨ty, d⟩ s ⟨hd, hn⟩ - ih
  dsimp only at hd hn
  change Runs (globals F n q base (k + 1) ty) d s fun _ d' s' => Stays d s d' s'
  rw [globals]
  have hdecl := keeps_parseDeclarator (F := F) (hd.env F) n s.left ty true false hn s (Nat.le_refl _)
  refine .parse hdecl fun m s₁ h₁ => ?_
  cases m with
  | none =>
      refine .tok (.error fun s₂ h₂ => ?_)
      exact .last (within_skipToSemi s₂) fun _ s₃ h₃ => .refl hd (by omega)
  | some m =>
      refine .addItem (.accept (fun _ s₂ h₂ => ?_) fun _ => ?_)
      · have hn' : 2 * s₂.left + d.count + 4 ≤ n := by omega
        refine Returns.mono (ih (base, _) s₂ ⟨hd, hn'⟩ (by omega)) fun r s₃ h₃ => ?_
        have hleft := h₃.left
        exact ⟨h₃.rooted, h₃.count, by omega⟩
      · refine .ite (fun h => absurd h Bool.false_ne_true) fun _ => ?_
        exact .parse_last (within_expect _ _) fun _ s₂ h₂ => ⟨hd, rfl, by omega⟩

theorem runs_declItem (hd : d.prog.Rooted) (q : Quals) (hne : s.head.kind ≠ .eof)
    (hn : 2 * s.left + d.count + 5 ≤ n) :
    Runs (declItem F n q) d s fun _ d' s' => Passed d s d' s' := by
  have hpos := PState.left_pos hne
  have hpassed : ∀ {s₁ d' s'}, s₁.left ≤ s.left - 1 → Stays d s₁ d' s' → Passed d s d' s' := by
    intro s₁ d' s' h₁ h'
    have hleft := h'.left
    have hcount := h'.count
    exact ⟨h'.rooted, by omega, by omega⟩
  refine .parse returns_parseBaseTypeNoStars fun base s₁ h₁ => ?_
  refine .read (P := fun _ s' => s₁ = s') ⟨s₁, s₁, rfl, rfl⟩ ?_
  rintro u _ rfl
  refine .read (P := fun _ s' => s'.left ≤ s₁.left) ⟨(), _, rfl, ?_⟩ fun _ s₂ h₂ => ?_
  · exact Nat.le_trans (Nat.le_of_eq List.length_drop) (Nat.sub_le _ _)
  refine .tok (.is_one fun paren => .ite (fun _ => ?_) fun _ => ?_)
  · exact Runs.mono (runs_parseFunc hd q _ (by omega)) fun _ _ _ h => hpassed (by omega) h
  · exact Runs.mono (runs_globals hd q base _ (by omega)) fun _ _ _ h => hpassed (by omega) h

theorem runs_itemRest (hd : d.prog.Rooted) {q : Quals} (hne : q.any = true ∨ s.head.kind ≠ .eof)
    (hcycle : startsClass (F.env d) s = true → ¬ ClosesCycle F d s)
    (hn : 2 * s.left + d.count + 5 ≤ n) :
    Runs (itemRest F n q) d s fun _ d' s' => d'.prog.Rooted ∧
      d'.count + s'.left ≤ d.count + s.left ∧ s'.left ≤ s.left ∧ (q.any = false → s'.left + 1 ≤ s.left) := by
  have hpassed : ∀ {d' s'}, Passed d s d' s' → d'.prog.Rooted ∧
      d'.count + s'.left ≤ d.count + s.left ∧ s'.left ≤ s.left ∧
        (q.any = false → s'.left + 1 ≤ s.left) := by
    intro d' s' h
    have hleft := h.left
    exact ⟨h.rooted, h.used, by omega, fun _ => hleft⟩
  refine .tok (.tok_one (.get (.ite (fun hclass => ?_) fun _ => ?_)))
  · exact Runs.mono (runs_readClassDef hd hclass (hcycle hclass) q (by omega)) fun _ _ _ h => hpassed h
  refine .startsDecl fun decls => .ite (fun hdecl => ?_) fun _ => .ite (fun hany => ?_) fun hany => ?_
  · have hname := not_eof_of_isTypeName (Bool.and_eq_true_iff.mp hdecl).1
    exact Runs.mono (runs_declItem hd q hname hn) fun _ _ _ h => hpassed h
  · refine .error fun s₁ h₁ => .last (within_skipToSemi s₁) fun _ s₂ h₂ => ?_
    exact ⟨hd, by omega, by omega, fun h => absurd (hany.symm.trans h) (by decide)⟩
  · have hhead : s.head.kind ≠ .eof := hne.resolve_left hany
    have hpos := PState.left_pos hhead
    have hstmt := consumes_parseStmt (F := F) (hd.env F) n s.left (by omega)
    refine .read (hstmt.eats s hhead (Nat.le_refl _)) fun st s₁ h₁ => .addItem_last ?_
    refine ⟨hd, ?_, by omega, fun _ => by omega⟩
    change d.count + s₁.left ≤ d.count + s.left
    omega

/-- The class at the front, behind its qualifiers, has a head that makes it an ancestor of
itself. -/
def CyclicItem (F : FileEnv) (n : Nat) (d : Decls) (s : PState) : Prop :=
  ∃ q s₁, parseQuals n s = some (q, s₁) ∧ startsClass (F.env d) s₁ = true ∧ ClosesCycle F d s₁

/-- Step lemma: an item is parsed to its end and takes a token. -/
theorem runs_parseTopLevel (hd : d.prog.Rooted) (hne : s.head.kind ≠ .eof)
    (hcycle : ¬ CyclicItem F n d s) (hn : 2 * s.left + d.count + 5 ≤ n) :
    Runs (parseTopLevel F n) d s fun _ d' s' => Passed d s d' s' := by
  have hpos := PState.left_pos hne
  refine .accept (fun _ s₁ h₁ => .pure ⟨hd, by omega, by omega⟩) fun _ =>
    .ite (fun h => absurd h Bool.false_ne_true) fun _ => ?_
  rcases returns_parseQuals (s := s) (n := n) (by omega) with ⟨q, s₁, hrun, hquals⟩
  have hle : s₁.left ≤ s.left := by
    rcases hquals with ⟨-, h⟩ | ⟨-, rfl⟩ <;> omega
  have hfront : q.any = true ∨ s₁.head.kind ≠ .eof := by
    rcases hquals with ⟨h, -⟩ | ⟨-, rfl⟩
    · exact .inl h
    · exact .inr hne
  have hitem := runs_itemRest (F := F) (n := n) (s := s₁) hd hfront
    (fun hclass hcyc => hcycle ⟨q, s₁, hrun, hclass, hcyc⟩) (by omega)
  refine .read (P := fun q' s' => q = q' ∧ s₁ = s') ⟨q, s₁, hrun, rfl, rfl⟩ ?_
  rintro _ _ ⟨rfl, rfl⟩
  refine Runs.mono hitem ?_
  rintro _ d₂ s₂ ⟨hd₂, hused, hleft, htakes⟩
  refine ⟨hd₂, by omega, ?_⟩
  rcases hquals with ⟨-, h⟩ | ⟨hany, rfl⟩
  · omega
  · exact htakes hany

end Items

/-! ## Files -/

section Files

variable {F : FileEnv} {n : Nat} {toks : List Token}

/-- The parser as it goes from item to item of a file. -/
def items (F : FileEnv) (n : Nat) (toks : List Token) : Lts (Decls × PState) Unit :=
  Lts.ofStep ({}, { toks := toks }) fun st _ =>
    if st.2.head.kind = .eof then none
    else (parseTopLevel F n st.1 st.2).map fun r => (r.1.2, r.2)

/-- From a state that items lead to, by induction on the bound of the loop. -/
theorem run_items (hn : 2 * toks.length + 5 ≤ n) : ∀ (k : Nat)
    (hist : List (Lts.Entry (Decls × PState) Unit)) (d : Decls) (s : PState),
    (items F n toks).Run hist (d, s) → d.prog.Rooted → d.count + s.left ≤ toks.length →
    hist.length + s.left ≤ toks.length → s.left < k →
      (∃ hist' d' s', run F n k d s = some (((), d'), s') ∧ s'.head.kind = .eof ∧
        (items F n toks).Run hist' (d', s') ∧ hist'.length ≤ toks.length) ∨
      ∃ hist' st, (items F n toks).Run hist' st ∧ CyclicItem F n st.1 st.2 := by
  intro k
  induction k with
  | zero => exact fun _ _ _ _ _ _ _ h => absurd h (Nat.not_lt_zero _)
  | succ k ih =>
      intro hist d s hrun hd hcount hhist hk
      by_cases heof : s.head.kind = .eof
      · refine .inl ⟨hist, d, s, ?_, heof, hrun, by omega⟩
        change (if s.head.kind = .eof then _ else _ : TopParse Unit) d s = _
        rw [if_pos heof]
        rfl
      by_cases hcycle : CyclicItem F n d s
      · exact .inr ⟨hist, (d, s), hrun, hcycle⟩
      rcases runs_parseTopLevel (F := F) hd heof hcycle (by omega) with ⟨⟨⟨⟩, d₁⟩, s₁, hitem, hpassed⟩
      have hleft := hpassed.left
      have hused : d₁.count + s₁.left ≤ d.count + s.left := hpassed.used
      have hstep : (items F n toks).step (d, s) () (d₁, s₁) := by
        change (if s.head.kind = .eof then none else _) = _
        rw [if_neg heof, hitem]
        rfl
      have hrest : run F n (k + 1) d s = run F n k d₁ s₁ := by
        change (if s.head.kind = .eof then _ else _ : TopParse Unit) d s = _
        rw [if_neg heof]
        change (parseTopLevel F n d >>= fun r => run F n k r.2) s = _
        rw [parse_bind_some hitem]
      rw [hrest]
      refine ih (hist ++ [((d, s), (), (d₁, s₁))]) d₁ s₁ (.step hrun hstep) hpassed.rooted
        (by omega) ?_ (by omega)
      rw [List.length_append, List.length_singleton]
      omega

/-- A class, and a block that is not closed. -/
def openBlock : List Token :=
  [.ofIdent "class", .ofIdent "A", .ofPunct .semi, .ofPunct .lBrace, .ofIdent "return"]

end Files

end Hlang.Parser
