import Hlang.Codegen.Dispatch

/-!
# Hlang.Codegen.Switch — what a switch does

The code of a switch runs the items as `Enters` says. `Served` is what the code of the items
from some item on does: falling into it, arriving at the end porch of the group that is
open, and entering at its labels. It is proved backwards, item by item; what has been
generated of the front porch of the open group comes along forwards (`Porch`).
-/

namespace Hlang.Codegen

open Ir Gen Cg Machine

variable {σ : Type}

/-! ## Statements that act -/

/-- What the code of a statement leaves alone. -/
structure Appends (S : ScopesIn) (F F' : FnCtx) : Prop where
  log : F.b.log <+: F'.b.log
  slots : F.b.slots <+: F'.b.slots
  errors : F.b.errors <+: F'.b.errors
  tables : F.tables <+: F'.tables
  scopes : S F'.scopes

/-- The selectors of the groups are the slots of type `i32`; a word is the same. -/
def SameSelectors (O : Oracle) (slots : List LTy) (st st' : St) : Prop :=
  ∀ m, slots[m]? = some (.int 32) →
    st'.1.read (O.world.slotAddr m) 4 = st.1.read (O.world.slotAddr m) 4

/-- The view of the state shows nothing of the selectors. -/
def Blind (O : Oracle) (slots : List LTy) (view : St → σ) : Prop :=
  ∀ m, slots[m]? = some (.int 32) → ∀ (M : Mem) (es : List Event) (x : I64),
    view (M.write (O.world.slotAddr m) 4 (byteOf x), es) = view (M, es)

/-- The code that `x` generates acts as `f` on what is in view, and goes on behind it. -/
def Performs (O : Oracle) (S : ScopesIn) (view : St → σ) (x : Cg Unit) (f : σ → σ) : Prop :=
  ∀ ps ts F F', F.At ps ts true → S F.scopes → x F = .ok ((), F') → Appends S F F' ∧
    ∀ T : Switches, (∀ n, F.tables.length ≤ n → n < F'.tables.length → T n = F'.switches n) →
      ∀ st, ∃ st', Goes O T F'.b.log 0 F.b.point st F'.b.point st' ∧ view st' = f (view st) ∧
        SameSelectors O F.b.slots st st'

theorem Appends.extends {S : ScopesIn} {F F' : FnCtx} (h : Appends S F F') (swc : SwitchCtx) :
    Extends S swc F F' where
  log := h.log
  slots := h.slots
  errors := h.errors
  scopes := fun _ => h.scopes
  len := h.tables.length_le
  keep := fun n hn _ _ => (List.prefix_iff_getElem?.mp h.tables n hn).trans
    (List.getElem?_eq_getElem hn).symm
  cases := by
    intro n t ht
    rcases h.tables with ⟨rest, hrest⟩
    refine ⟨t, ?_, List.prefix_refl _⟩
    rw [← hrest, List.getElem?_append_left (List.getElem?_eq_some_iff.mp ht).1]
    exact ht

/-! ## All items -/

section Items

variable {O : Oracle} {Γ : Env} {d : Nat} {fnName : String} {S : ScopesIn} {view : St → σ}
  {eff : Stmt → σ → σ} {breaks : List BreakTarget} {ps ts ts₀ : List Blk} {exitBB : Blk}

/-- The items that are no labels act as `eff` says. -/
def Acting (O : Oracle) (Γ : Env) (d : Nat) (fnName : String) (S : ScopesIn) (view : St → σ)
    (eff : Stmt → σ → σ) (breaks : List BreakTarget) (items : List Stmt) : Prop :=
  ∀ it ∈ items, it.isMarker = false → ∀ t,
    Performs O S view (genStmt Γ d fnName (t :: breaks) it) (eff it)

theorem genItem_eff {it : Stmt} (h : it.isMarker = false) (stmt : BreakTarget → Cg Unit)
    (swc : SwitchCtx) :
    genItem Γ it stmt swc = (do stmt ⟨swc.exitBB, some swc⟩; return swc) := by
  cases it <;> first | rfl | cases h

theorem onward_genItem {it : Stmt} {swc swc' : SwitchCtx} {F F' : FnCtx}
    (hact : it.isMarker = false → ∀ t,
      Performs O S view (genStmt Γ d fnName (t :: breaks) it) (eff it))
    (hF : AtItem exitBB swc ps ts F) (hin : S F.scopes)
    (hx : genItem Γ it (fun t => genStmt Γ d fnName (t :: breaks) it) swc F = .ok (swc', F')) :
    Onward S swc F swc' F' := by
  by_cases hm : it.isMarker = false
  · rw [genItem_eff hm] at hx
    rcases Cg.bind_eq_ok.mp hx with ⟨_, F₁, hstmt, hret⟩
    rcases Prod.mk.inj (Except.ok.inj hret) with ⟨rfl, rfl⟩
    rcases hF with ⟨_, ts', _, _, hat⟩
    have happ := (hact hm _ _ _ F F₁ hat hin hstmt).1
    exact ⟨happ.extends swc, .refl swc F, rfl⟩
  · cases it with
    | caseS loc c => exact onward_genCaseLabel Γ loc c swc F (.refl swc F) swc' F' hx
    | defaultS loc => exact onward_genDefault loc swc F (.refl swc F) swc' F' hx
    | subStart loc => exact onward_genSubStart loc swc F (.refl swc F) swc' F' hx
    | subEnd loc => exact onward_genSubEnd loc swc F (.refl swc F) swc' F' hx
    | breakS loc =>
        rcases Cg.bind_eq_ok.mp hx with ⟨_, F₁, hbreak, hret⟩
        rcases Prod.mk.inj (Except.ok.inj hret) with ⟨rfl, rfl⟩
        have hext := extends_genBreak (S := S) loc _ F (.refl swc F) _ F₁ hbreak
        exact ⟨hext, .refl swc F, rfl⟩
    | _ => exact absurd rfl hm

theorem atItem_genItem (hΓ : ({ Γ with scopes := [] } : Env).Chained) {it : Stmt}
    {swc swc' : SwitchCtx} {F F' : FnCtx} (hc : it.Chained) (hb : ∀ t ∈ breaks, t.In ts)
    (hexit : exitBB ∈ ts) (hF : AtItem exitBB swc ps ts F)
    (hx : genItem Γ it (fun t => genStmt Γ d fnName (t :: breaks) it) swc F = .ok (swc', F')) :
    AtItem exitBB swc' ps ts F' := by
  have hstmt : KeepsIn ts fun t => genStmt Γ d fnName (t :: breaks) it := fun t ts₁ hts ht =>
    keeps_genStmt hΓ fnName it _ ts₁ hc (in_cons hb hts ht)
  exact keeps_genItem it hstmt (List.Subset.refl _) hexit swc F hF swc' F' hx

theorem onward_genItems (hΓ : ({ Γ with scopes := [] } : Env).Chained) {items : List Stmt} :
    ∀ {swc swc' : SwitchCtx} {F F' : FnCtx}, (∀ it ∈ items, it.Chained) →
      (∀ t ∈ breaks, t.In ts) → exitBB ∈ ts →
      Acting O Γ d fnName S view eff breaks items → AtItem exitBB swc ps ts F → S F.scopes →
      genItems Γ d fnName breaks items swc F = .ok (swc', F') → Onward S swc F swc' F' := by
  induction items with
  | nil =>
      intro swc swc' F F' _ _ _ _ _ _ hx
      rcases Prod.mk.inj (Except.ok.inj hx) with ⟨rfl, rfl⟩
      exact .refl swc F
  | cons it items ih =>
      intro swc swc' F F' hc hb hexit hact hF hin hx
      rcases Cg.bind_eq_ok.mp hx with ⟨swc₁, F₁, hit, hitems⟩
      have hF₁ := atItem_genItem hΓ (hc it List.mem_cons_self) hb hexit hF hit
      have hon := onward_genItem (hact it List.mem_cons_self) hF hin hit
      exact hon.trans (ih (fun it h => hc it (List.mem_cons_of_mem _ h)) hb hexit
        (fun it h => hact it (List.mem_cons_of_mem _ h)) hF₁ (hon.1.scopes hin) hitems)

end Items

/-! ## Served items -/

section Served

variable (O : Oracle) (Γ : Env) (T : Switches) (l : Log) (view : St → σ) (eff : Stmt → σ → σ)
  (exitBB : Blk)

/-- The code at `p` goes to the end of the switch and does `f`. -/
def Leads (p : Point) (f : σ → σ) (st : St) : Prop :=
  ∃ st', Goes O T l 0 p st (exitBB, 0) st' ∧ view st' = f (view st)

/-- The group has case `n` selected. -/
def Selects (m n : Nat) (st : St) : Prop :=
  st.1.read (O.world.slotAddr m) 4 = BitVec.ofNat 64 n

/-- With case `n` selected, the code from the start of the group runs `porch` and goes to
`q`, or it breaks to the end of the group. -/
def Porch (swc : SwitchCtx) (m : Nat) (porch : List Stmt) (n : Nat) (q : Point) : Prop :=
  ∀ st, Selects O m n st → ∃ st',
    (runItems eff porch (.grouped, view st) = (.grouped, view st') ∧ Selects O m n st' ∧
      Goes O T l 0 (swc.groupStartBB, 0) st q st') ∨
    (runItems eff porch (.grouped, view st) = (.leaving, view st') ∧
      Goes O T l 0 (swc.groupStartBB, 0) st (swc.groupEndBB, 0) st')

/-- The group that is open, before `items`: its selector, and its front porch as far as it
is generated. -/
structure GroupAt (swc : SwitchCtx) (F : FnCtx) (porch items : List Stmt) (m : Nat) : Prop where
  sel : swc.groupSel = .slot m
  slot : F.b.slots[m]? = some (.int 32)
  small : swc.nextGroupId < 2 ^ 31
  first : swc.groupSw = none → swc.nextGroupId = 0 ∧ ∃ done, porch = done ++ frontPorch items ∧
    ∀ n, Porch O T l view eff swc m done n F.b.point
  later : ∀ g, swc.groupSw = some g →
    (∀ t, F.tables[g]? = some t → ∀ n, swc.nextGroupId ≤ n → n < 2 ^ 31 →
      t.cases.lookup (BitVec.ofNat 64 n) = none) ∧
    ∀ n b, T g (BitVec.ofNat 64 n) = some b → Porch O T l view eff swc m porch n (b, 0)

/-- What is known before `items`. -/
structure Before (S : ScopesIn) (ps ts : List Blk) (swc : SwitchCtx) (F : FnCtx)
    (group : Option (List Stmt)) (items : List Stmt) : Prop where
  atItem : AtItem exitBB swc ps ts F
  scopes : S F.scopes
  sw : swc.sw < F.tables.length
  groupSw : ∀ g, swc.groupSw = some g → swc.sw < g ∧ g < F.tables.length
  inGroup : swc.inGroup = group.isSome
  groupAt : ∀ porch, group = some porch → ∃ m, GroupAt O T l view eff swc F porch items m

/-- What the code of `items` does. -/
structure Served (swc : SwitchCtx) (F F' : FnCtx) (group : Option (List Stmt))
    (items : List Stmt) : Prop where
  here : ∀ st, (∀ m, group.isSome → swc.groupSw = none → swc.groupSel = .slot m →
      Selects O m 0 st) →
    Leads O T l view exitBB F.b.point
      (fun s => (runItems eff items (if group.isSome then .grouped else .plain, s)).2) st
  last : group.isSome → ∀ st, Leads O T l view exitBB (swc.groupEndBB, 0)
    (fun s => (runItems eff items (.leaving, s)).2) st
  label : ∀ x t t', F.tables[swc.sw]? = some t → F'.tables[swc.sw]? = some t' →
    t.cases.lookup x = none →
    match (entries Γ swc.nextCaseVal group items).find? (·.Matches x) with
    | some en => ∃ b, t'.cases.lookup x = some b ∧ ∀ st, Leads O T l view exitBB (b, 0) (en.run eff) st
    | none => t'.cases.lookup x = none
  dflt : ∀ t t', F.tables[swc.sw]? = some t → F'.tables[swc.sw]? = some t' →
    match defaultOf items with
    | some rest => ∀ st, Leads O T l view exitBB (t'.dflt, 0)
        (fun s => (runItems eff rest (.plain, s)).2) st
    | none => t'.dflt = t.dflt

end Served

section Cases

variable {O : Oracle} {Γ : Env} {d : Nat} {fnName : String} {S : ScopesIn} {T : Switches} {l : Log}
  {view : St → σ} {eff : Stmt → σ → σ} {breaks : List BreakTarget} {ps ts : List Blk}
  {exitBB bb : Blk} {swc swc' : SwitchCtx} {F F' F₁ : FnCtx} {items : List Stmt} {it : Stmt}
  {group : Option (List Stmt)} {loc : SrcLoc} {f : σ → σ} {p q : Point} {st st' : St} {m n : Nat}

theorem Leads.goes (hg : Goes O T l n p st q st') (hview : view st' = view st)
    (h : Leads O T l view exitBB q f st') : Leads O T l view exitBB p f st := by
  rcases h with ⟨st'', hgo, hv⟩
  exact ⟨st'', (hg.trans hgo).weaken (Nat.zero_le _), hv.trans (congrArg f hview)⟩

/-- Nothing is left to do. -/
theorem served_nil (hin : group = none) (hend : ∀ st, Goes O T l 0 F.b.point st (exitBB, 0) st) :
    Served O Γ T l view eff exitBB swc F F group [] := by
  subst hin
  constructor
  case here => exact fun st _ => ⟨st, hend st, rfl⟩
  case last => exact fun h => nomatch h
  case label =>
    intro x t t' ht ht' hnone
    rcases Option.some.inj (ht.symm.trans ht') with rfl
    exact hnone
  case dflt =>
    intro t t' ht ht'
    rcases Option.some.inj (ht.symm.trans ht') with rfl
    rfl

/-- What is known before the next item. -/
theorem Before.next {group' : Option (List Stmt)}
    (hB : Before O T l view eff exitBB S ps ts swc F group (it :: items))
    (hon : Onward S swc F swc' F₁) (hat : AtItem exitBB swc' ps ts F₁)
    (hg : ∀ g, swc'.groupSw = some g → g < F₁.tables.length) (hin : swc'.inGroup = group'.isSome)
    (hgroup : ∀ porch, group' = some porch →
      ∃ m, GroupAt O T l view eff swc' F₁ porch items m) :
    Before O T l view eff exitBB S ps ts swc' F₁ group' items where
  atItem := hat
  scopes := hon.1.scopes hB.scopes
  sw := by
    rw [hon.2.1.1]
    exact Nat.lt_of_lt_of_le hB.sw hon.1.len
  groupSw := by
    intro g hswc
    refine ⟨?_, hg g hswc⟩
    rw [hon.2.1.1]
    rcases hon.2.1.2 g hswc with hold | hnew
    · exact (hB.groupSw g hold).1
    · exact Nat.lt_of_lt_of_le hB.sw hnew
  inGroup := hin
  groupAt := hgroup

/-- The open block and the pending ones, before an item. -/
theorem Before.at (hB : Before O T l view eff exitBB S ps ts swc F group items) :
    ∃ ps' ts', F.At ps' ts' true ∧ (swc.inGroup = true → swc.groupStartBB ∈ ts') := by
  rcases hB.atItem with ⟨_, ts', _, hgroup, hat⟩
  exact ⟨_, ts', hat, fun h => (hgroup h).1⟩

/-- A case label is found where it matches, or else a label behind it. -/
theorem Served.caseLabel {c : Option (Expr × Option Expr)} {b : Blk} {r : I64 × I64}
    (h : Served O Γ T l view eff exitBB swc' F₁ F' group items) (hext : Extends S swc' F₁ F')
    (hr : r = caseRange Γ c swc.nextCaseVal) (hsw : swc'.sw = swc.sw)
    (hnext : swc'.nextCaseVal = r.2 + 1)
    (htab : ∀ t, F.tables[swc.sw]? = some t →
      F₁.tables[swc.sw]? = some (SwitchTable.add (caseVals r.1 r.2) b t))
    (henter : ∀ st, Leads O T l view exitBB (b, 0) (Entry.run eff ⟨r.1, r.2, group, items⟩) st)
    {x : I64} {t t' : SwitchTable} (ht : F.tables[swc.sw]? = some t)
    (ht' : F'.tables[swc.sw]? = some t') (hnone : t.cases.lookup x = none) :
    match (entries Γ swc.nextCaseVal group (.caseS loc c :: items)).find? (·.Matches x) with
    | some en => ∃ b, t'.cases.lookup x = some b ∧
        ∀ st, Leads O T l view exitBB (b, 0) (en.run eff) st
    | none => t'.cases.lookup x = none := by
  have ht₁ := htab t ht
  have hlookup : (SwitchTable.add (caseVals r.1 r.2) b t).cases.lookup x =
      if x ∈ caseVals r.1 r.2 then some b else none :=
    (lookup_append_none hnone).trans lookup_caseVals
  have hlabels := h.label x _ t' (hsw ▸ ht₁) (hsw ▸ ht')
  rw [hnext] at hlabels
  have hentries : entries Γ swc.nextCaseVal group (.caseS loc c :: items) =
      ⟨r.1, r.2, group, items⟩ :: entries Γ (r.2 + 1) group items := by
    rw [hr]
    rfl
  rw [hentries]
  by_cases hm : Entry.Matches ⟨r.1, r.2, group, items⟩ x
  · rw [List.find?_cons_of_pos (p := fun en : Entry => decide (en.Matches x)) (decide_eq_true hm)]
    rw [if_pos (mem_caseVals.mpr hm)] at hlookup
    rcases hext.cases _ _ ht₁ with ⟨t'', ht'', rest, hrest⟩
    rcases Option.some.inj (ht'.symm.trans ht'') with rfl
    refine ⟨b, ?_, henter⟩
    rw [← hrest, List.lookup_append, hlookup]
    rfl
  · rw [List.find?_cons_of_neg (p := fun en : Entry => decide (en.Matches x))
      (fun h => hm (of_decide_eq_true h))]
    rw [if_neg (mt mem_caseVals.mp hm)] at hlookup
    exact hlabels hlookup

/-- An item that is no case label. -/
theorem Served.skipLabel {group' : Option (List Stmt)}
    (h : Served O Γ T l view eff exitBB swc' F₁ F' group' items) (hsw : swc'.sw = swc.sw)
    (hentries : entries Γ swc.nextCaseVal group (it :: items) =
      entries Γ swc'.nextCaseVal group' items)
    (htab : ∀ t, F.tables[swc.sw]? = some t → ∃ t₁, F₁.tables[swc.sw]? = some t₁ ∧ t₁.cases = t.cases)
    {x : I64} {t t' : SwitchTable} (ht : F.tables[swc.sw]? = some t)
    (ht' : F'.tables[swc.sw]? = some t') (hnone : t.cases.lookup x = none) :
    match (entries Γ swc.nextCaseVal group (it :: items)).find? (·.Matches x) with
    | some en => ∃ b, t'.cases.lookup x = some b ∧
        ∀ st, Leads O T l view exitBB (b, 0) (en.run eff) st
    | none => t'.cases.lookup x = none := by
  rcases htab t ht with ⟨t₁, ht₁, hcases⟩
  rw [hentries]
  exact h.label x t₁ t' (hsw ▸ ht₁) (hsw ▸ ht') (hcases ▸ hnone)

/-- An item that is no `default`. -/
theorem Served.skipDefault {group' : Option (List Stmt)}
    (h : Served O Γ T l view eff exitBB swc' F₁ F' group' items) (hsw : swc'.sw = swc.sw)
    (hit : ∀ loc, it ≠ .defaultS loc)
    (htab : ∀ t, F.tables[swc.sw]? = some t → ∃ t₁, F₁.tables[swc.sw]? = some t₁ ∧ t₁.dflt = t.dflt)
    {t t' : SwitchTable} (ht : F.tables[swc.sw]? = some t) (ht' : F'.tables[swc.sw]? = some t') :
    match defaultOf (it :: items) with
    | some rest => ∀ st, Leads O T l view exitBB (t'.dflt, 0)
        (fun s => (runItems eff rest (.plain, s)).2) st
    | none => t'.dflt = t.dflt := by
  rcases htab t ht with ⟨t₁, ht₁, hdflt⟩
  rw [defaultOf_other hit, ← hdflt]
  exact h.dflt t₁ t' (hsw ▸ ht₁) (hsw ▸ ht')

/-- A label outside of groups. -/
theorem served_plainCase {c : Option (Expr × Option Expr)}
    (hB : Before O T l view eff exitBB S ps ts swc F none (.caseS loc c :: items))
    (hx : genCaseLabel Γ loc c swc F = .ok (swc', F₁)) (he : F₁.b.errors = [])
    (hon : Onward S swc F swc' F₁) (hat : AtItem exitBB swc' ps ts F₁)
    (hl : F₁.b.log <+: l) (hext : Extends S swc' F₁ F')
    (hrest : Before O T l view eff exitBB S ps ts swc' F₁ none items →
      Served O Γ T l view eff exitBB swc' F₁ F' none items) :
    Served O Γ T l view eff exitBB swc F F' none (.caseS loc c :: items) := by
  rcases hB.at with ⟨ps', ts', hF, _⟩
  have hin : swc.inGroup = false := hB.inGroup
  rcases genCaseLabel_plain hF hin hx he with ⟨r, bb, hr, rfl, hpoint, htables, hcode⟩
  have hserved := hrest (hB.next hon hat (fun g hg => ?_) hin fun _ h => nomatch h)
  · have hhere : ∀ st, Leads O T l view exitBB (bb, 0)
        (fun s => (runItems eff items (.plain, s)).2) st := by
      intro st
      have h := hserved.here st fun _ h => nomatch h
      rwa [hpoint] at h
    have htab : ∀ t, F.tables[swc.sw]? = some t →
        F₁.tables[swc.sw]? = some (SwitchTable.add (caseVals r.1 r.2) bb t) := by
      intro t ht
      rw [htables, List.getElem?_modify_eq, ht]
      rfl
    constructor
    case here => exact fun st _ => (hhere st).goes (Goes.br (code_extend hcode hl) st) rfl
    case last => exact fun h => nomatch h
    case label =>
      exact fun x t t' ht ht' hnone => hserved.caseLabel hext hr rfl rfl htab hhere ht ht' hnone
    case dflt =>
      refine fun t t' => hserved.skipDefault rfl (fun _ => Stmt.noConfusion) ?_
      exact fun t ht => ⟨_, htab t ht, rfl⟩
  · rw [htables, List.length_modify]
    exact (hB.groupSw g hg).2

/-- Case `n` of the group is stored in the selector. -/
theorem selects_write {m : Nat} (hn : n < 2 ^ 31) (st : St) :
    Selects O m n (st.1.write (O.world.slotAddr m) 4 (byteOf (BitVec.ofNat 64 n)), st.2) := by
  refine Mem.read_write _ _ ?_
  rw [BitVec.toNat_ofNat, Nat.mod_eq_of_lt (by omega)]
  omega

/-- A case in a group is entered by its stub: the front porch runs first. -/
theorem leads_stub {porch : List Stmt} {stub : Blk} {r : I64 × I64}
    (hblind : view (st.1.write (O.world.slotAddr m) 4 (byteOf (BitVec.ofNat 64 n)), st.2) = view st)
    (hn : n < 2 ^ 31)
    (hstore : (l.code stub)[0]? = some (.store (.int 32) (.int 32 (BitVec.ofNat 64 n)) (.slot m)))
    (hbr : (l.code stub)[1]? = some (.br swc.groupStartBB))
    (hporch : Porch O T l view eff swc m porch n (bb, 0))
    (hhere : ∀ st, Leads O T l view exitBB (bb, 0)
      (fun s => (runItems eff items (.grouped, s)).2) st)
    (hlast : ∀ st, Leads O T l view exitBB (swc.groupEndBB, 0)
      (fun s => (runItems eff items (.leaving, s)).2) st) :
    Leads O T l view exitBB (stub, 0) (Entry.run eff ⟨r.1, r.2, some porch, items⟩) st := by
  have hgo : ∀ st, Goes O T l 1 (stub, 1) st (swc.groupStartBB, 0) st := fun st =>
    Goes.br (p := (stub, 1)) hbr st
  refine Leads.goes ((Goes.store (p := (stub, 0)) hstore st).trans (hgo _)) hblind ?_
  rcases hporch _ (selects_write hn st) with ⟨st', ⟨hrun, _, hg⟩ | ⟨hrun, hg⟩⟩
  · rcases hhere st' with ⟨st'', hg', hview⟩
    refine ⟨st'', hg.trans hg', ?_⟩
    change view st'' = (runItems eff items (runItems eff porch (.grouped, _))).2
    rw [hrun]
    exact hview
  · rcases hlast st' with ⟨st'', hg', hview⟩
    refine ⟨st'', hg.trans hg', ?_⟩
    change view st'' = (runItems eff items (runItems eff porch (.grouped, _))).2
    rw [hrun]
    exact hview

/-- The dispatch on the case that is selected, behind the front porch. -/
theorem Porch.dispatch {m k g : Nat} {porch : List Stmt} {reg : Reg}
    (h : Porch O T l view eff swc m porch k p)
    (hload : (l.code p.1)[p.2]? = some (.op reg (.load (.int 32) (.slot m))))
    (hswitch : (l.code p.1)[p.2 + 1]? = some (.switch g (.reg (.int 32) reg))) {b : Blk}
    (hT : T g (BitVec.ofNat 64 k) = some b) : Porch O T l view eff swc m porch k (b, 0) := by
  intro st hsel
  rcases h st hsel with ⟨st', ⟨hrun, hsel', hg⟩ | hleave⟩
  · have hT' : T g (st'.1.read (O.world.slotAddr m) 4) = some b := by
      rw [show st'.1.read (O.world.slotAddr m) 4 = _ from hsel']
      exact hT
    exact ⟨st', .inl ⟨hrun, hsel', (hg.trans (Goes.switch hload hswitch hT')).weaken (Nat.zero_le _)⟩⟩
  · exact ⟨st', .inr hleave⟩

/-- The cases of a group have different numbers. -/
theorem ofNat_inj {a b : Nat} (ha : a < 2 ^ 31) (hb : b < 2 ^ 31)
    (h : BitVec.ofNat 64 a = BitVec.ofNat 64 b) : a = b := by
  have h' := congrArg BitVec.toNat h
  rw [BitVec.toNat_ofNat, BitVec.toNat_ofNat, Nat.mod_eq_of_lt (by omega),
    Nat.mod_eq_of_lt (by omega)] at h'
  exact h'

/-- A table of which later ones have more cases, where they are looked up. -/
theorem lookup_extends (hext : Extends S swc F F') {k : Nat} {t : SwitchTable} {x : I64} {b : Blk}
    (ht : F.tables[k]? = some t) (hx : t.cases.lookup x = some b) : F'.switches k x = some b := by
  rcases hext.cases k t ht with ⟨t', ht', rest, hrest⟩
  unfold FnCtx.switches
  rw [ht']
  change some ((t'.cases.lookup x).getD _) = _
  rw [← hrest, List.lookup_append, hx]
  rfl

/-- A label in a group. -/
theorem served_groupCase {c : Option (Expr × Option Expr)} {porch : List Stmt}
    (hblind : Blind O F'.b.slots view)
    (hB : Before O T l view eff exitBB S ps ts swc F (some porch) (.caseS loc c :: items))
    (hx : genCaseLabel Γ loc c swc F = .ok (swc', F₁)) (he : F₁.b.errors = [])
    (hon : Onward S swc F swc' F₁) (hat : AtItem exitBB swc' ps ts F₁)
    (hl : F₁.b.log <+: l) (hext : Extends S swc' F₁ F')
    (hT : ∀ n, swc.sw ≤ n → n < F'.tables.length → T n = F'.switches n)
    (hrest : Before O T l view eff exitBB S ps ts swc' F₁ (some porch) items →
      Served O Γ T l view eff exitBB swc' F₁ F' (some porch) items) :
    Served O Γ T l view eff exitBB swc F F' (some porch) (.caseS loc c :: items) := by
  rcases hB.at with ⟨ps', ts', hF, hstart⟩
  have hin : swc.inGroup = true := hB.inGroup
  rcases hB.groupAt porch rfl with ⟨m, hgroup⟩
  rcases genCaseLabel_group hF hin (hstart hin) hx he with
    ⟨r, bb, stub, g, ts₁, hr, rfl, hid, hpoint, hstub, htables, hdispatch⟩
  have hsmall := hgroup.small
  -- the table of the group before: this case is new in it
  have htable : swc.sw < g ∧ g < ts₁.length ∧ ts₁[swc.sw]? = F.tables[swc.sw]? ∧
      ∃ t, ts₁[g]? = some t ∧ ∀ n, swc.nextGroupId ≤ n → n < 2 ^ 31 →
        t.cases.lookup (BitVec.ofNat 64 n) = none := by
    rcases hdispatch with ⟨hsw, rfl, _⟩ | ⟨_, rfl, rfl, _⟩
    · rcases hB.groupSw g hsw with ⟨hlt, hlt'⟩
      refine ⟨hlt, hlt', rfl, F.tables[g], List.getElem?_eq_getElem hlt', ?_⟩
      exact (hgroup.later g hsw).1 _ (List.getElem?_eq_getElem hlt')
    · refine ⟨hB.sw, ?_, List.getElem?_append_left hB.sw, ⟨bb, []⟩, ?_, fun _ _ _ => rfl⟩
      · rw [List.length_append]
        exact Nat.lt_succ_self _
      · rw [List.getElem?_append_right (Nat.le_refl _), Nat.sub_self]
        rfl
  rcases htable with ⟨hlt, hlen, hsame, tg, htg, hfresh⟩
  have htab : ∀ t, F.tables[swc.sw]? = some t →
      F₁.tables[swc.sw]? = some (SwitchTable.add (caseVals r.1 r.2) stub t) := by
    intro t ht
    rw [htables, List.getElem?_modify_ne _ _ (Nat.ne_of_gt hlt), List.getElem?_modify_eq, hsame, ht]
    rfl
  have htabg : F₁.tables[g]? =
      some (SwitchTable.add [BitVec.ofNat 64 swc.nextGroupId] bb tg) := by
    rw [htables, List.getElem?_modify_eq, List.getElem?_modify_ne _ _ (Nat.ne_of_lt hlt), htg]
    rfl
  have hlen₁ : g < F₁.tables.length := (List.getElem?_eq_some_iff.mp htabg).1
  have hTg : T g (BitVec.ofNat 64 swc.nextGroupId) = some bb := by
    rw [hT g (Nat.le_of_lt hlt) (Nat.lt_of_lt_of_le hlen₁ hext.len)]
    refine lookup_extends hext htabg ?_
    refine (lookup_append_none (hfresh _ (Nat.le_refl _) hsmall)).trans ?_
    exact List.lookup_cons_self
  -- the front porch, run for any case, goes to the block of the case
  have hporch : ∀ n b, T g (BitVec.ofNat 64 n) = some b →
      Porch O T l view eff swc m porch n (b, 0) := by
    rcases hdispatch with ⟨hsw, _⟩ | ⟨hsw, rfl, _, reg, hload, hswitch⟩
    · exact (hgroup.later g hsw).2
    · intro n b hb
      rcases hgroup.first hsw with ⟨_, done, hdone, hto⟩
      have hall : porch = done := by
        rw [hdone]
        exact List.append_nil _
      rw [hall]
      rw [hgroup.sel] at hload
      exact (hto n).dispatch (code_extend hload hl)
        (code_extend (p := (F.b.point.1, F.b.point.2 + 1)) hswitch hl) hb
  have hslot : F₁.b.slots[m]? = some (.int 32) := by
    rcases hon.1.slots with ⟨rest, hrest'⟩
    rw [← hrest', List.getElem?_append_left (List.getElem?_eq_some_iff.mp hgroup.slot).1]
    exact hgroup.slot
  have hserved := hrest (hB.next hon hat ?_ hin ?_)
  · have hhere : ∀ st, Leads O T l view exitBB (bb, 0)
        (fun s => (runItems eff items (.grouped, s)).2) st := by
      intro st
      have h := hserved.here st fun _ _ h => nomatch h
      rwa [hpoint] at h
    have henter : ∀ st, Leads O T l view exitBB (stub, 0)
        (Entry.run eff ⟨r.1, r.2, some porch, items⟩) st := by
      intro st
      have hslot' : F'.b.slots[m]? = some (.int 32) := by
        rcases hext.slots with ⟨rest, hrest'⟩
        rw [← hrest', List.getElem?_append_left (List.getElem?_eq_some_iff.mp hslot).1]
        exact hslot
      rcases hstub with ⟨hstore, hbr⟩
      rw [hgroup.sel] at hstore
      exact leads_stub (hblind m hslot' st.1 st.2 _) hsmall
        (code_extend (p := (stub, 0)) hstore hl) (code_extend (p := (stub, 1)) hbr hl)
        (hporch _ bb hTg) hhere (hserved.last rfl)
    constructor
    case here =>
      intro st hzero
      rcases hdispatch with ⟨_, _, hbr⟩ | ⟨hsw, rfl, _, reg, hload, hswitch⟩
      · exact (hhere st).goes (Goes.br (code_extend hbr hl) st) rfl
      · have hsel := hzero m rfl hsw hgroup.sel
        rw [(hgroup.first hsw).1] at hTg
        have hT' : T F.tables.length (st.1.read (O.world.slotAddr m) 4) = some bb := by
          rw [show st.1.read (O.world.slotAddr m) 4 = _ from hsel]
          exact hTg
        rw [hgroup.sel] at hload
        exact (hhere st).goes (Goes.switch (code_extend hload hl)
          (code_extend (p := (F.b.point.1, F.b.point.2 + 1)) hswitch hl) hT') rfl
    case last => exact fun _ => hserved.last rfl
    case label =>
      exact fun x t t' ht ht' hnone => hserved.caseLabel hext hr rfl rfl htab henter ht ht' hnone
    case dflt =>
      refine fun t t' => hserved.skipDefault rfl (fun _ => Stmt.noConfusion) ?_
      exact fun t ht => ⟨_, htab t ht, rfl⟩
  · intro g' hg'
    rcases Option.some.inj hg' with rfl
    exact hlen₁
  · intro porch' hp
    rcases Option.some.inj hp with rfl
    refine ⟨m, hgroup.sel, hslot, by change swc.nextGroupId + 1 < 2 ^ 31; omega,
      (fun h => nomatch h), ?_⟩
    intro g' hg'
    rcases Option.some.inj hg' with rfl
    refine ⟨?_, hporch⟩
    intro t ht n hn hn'
    rcases Option.some.inj (htabg.symm.trans ht) with rfl
    have hle : swc.nextGroupId + 1 ≤ n := hn
    refine (lookup_append_none (hfresh n (by omega) hn')).trans ?_
    refine List.lookup_eq_none_iff.mpr fun p hp => ?_
    rcases List.mem_singleton.mp hp with rfl
    refine bne_iff_ne.mpr fun heq => ?_
    have hne := ofNat_inj hn' hsmall heq
    omega

/-- An item that changes neither the table of the switch nor the labels behind it. -/
theorem Served.item {group' : Option (List Stmt)}
    (h : Served O Γ T l view eff exitBB swc' F₁ F' group' items) (hsw : swc'.sw = swc.sw)
    (hit : ∀ loc, it ≠ .defaultS loc) (htables : F.tables <+: F₁.tables)
    (hentries : entries Γ swc.nextCaseVal group (it :: items) =
      entries Γ swc'.nextCaseVal group' items)
    (hhere : ∀ st, (∀ m, group.isSome → swc.groupSw = none → swc.groupSel = .slot m →
      Selects O m 0 st) → Leads O T l view exitBB F.b.point (fun s =>
        (runItems eff (it :: items) (if group.isSome then .grouped else .plain, s)).2) st)
    (hlast : group.isSome → ∀ st, Leads O T l view exitBB (swc.groupEndBB, 0)
      (fun s => (runItems eff (it :: items) (.leaving, s)).2) st) :
    Served O Γ T l view eff exitBB swc F F' group (it :: items) := by
  have htab : ∀ t, F.tables[swc.sw]? = some t → F₁.tables[swc.sw]? = some t := by
    intro t ht
    rcases htables with ⟨rest, hrest⟩
    rw [← hrest, List.getElem?_append_left (List.getElem?_eq_some_iff.mp ht).1]
    exact ht
  constructor
  case here => exact hhere
  case last => exact hlast
  case label =>
    refine fun x t t' => h.skipLabel hsw hentries ?_
    exact fun t ht => ⟨t, htab t ht, rfl⟩
  case dflt =>
    refine fun t t' => h.skipDefault hsw hit ?_
    exact fun t ht => ⟨t, htab t ht, rfl⟩

theorem served_default
    (hB : Before O T l view eff exitBB S ps ts swc F group (.defaultS loc :: items))
    (hx : genDefault loc swc F = .ok (swc', F₁)) (he : F₁.b.errors = [])
    (hon : Onward S swc F swc' F₁) (hat : AtItem exitBB swc' ps ts F₁) (hl : F₁.b.log <+: l)
    (hrest : group = none → Before O T l view eff exitBB S ps ts swc' F₁ none items →
      Served O Γ T l view eff exitBB swc' F₁ F' none items) :
    Served O Γ T l view eff exitBB swc F F' group (.defaultS loc :: items) := by
  rcases hB.at with ⟨ps', ts', hF, _⟩
  rcases genDefault_eq hF hx he with ⟨hin, rfl, bb, hpoint, htables, hcode⟩
  have hnone : group = none := by
    rw [hB.inGroup] at hin
    exact Option.not_isSome_iff_eq_none.mp (by rw [hin]; exact Bool.false_ne_true)
  subst hnone
  have hserved := hrest rfl (hB.next hon hat (fun g hg => ?_) hin fun _ h => nomatch h)
  · have hhere : ∀ st, Leads O T l view exitBB (bb, 0)
        (fun s => (runItems eff items (.plain, s)).2) st := by
      intro st
      have h := hserved.here st fun _ h => nomatch h
      rwa [hpoint] at h
    have htab : ∀ t, F.tables[swc'.sw]? = some t →
        F₁.tables[swc'.sw]? = some { t with dflt := bb } := by
      intro t ht
      rw [htables, List.getElem?_modify_eq, ht]
      rfl
    constructor
    case here => exact fun st _ => (hhere st).goes (Goes.br (code_extend hcode hl) st) rfl
    case last => exact fun h => nomatch h
    case label =>
      refine fun x t t' => hserved.skipLabel rfl (entries_other (.inr (.inl ⟨loc, rfl⟩))) ?_
      exact fun t ht => ⟨_, htab t ht, rfl⟩
    case dflt =>
      -- a later `default` takes its place
      intro t t' ht ht'
      have h := hserved.dflt _ t' (htab t ht) ht'
      unfold defaultOf
      cases hd : defaultOf items with
      | none =>
          rw [hd] at h
          intro st
          rw [show t'.dflt = bb from h]
          exact hhere st
      | some rest =>
          rw [hd] at h
          exact h
  · rw [htables, List.length_modify]
    exact (hB.groupSw g hg).2

/-- A group begins: the code before falls into its front porch, with its first case
selected. -/
theorem served_subStart (hblind : Blind O F'.b.slots view)
    (hB : Before O T l view eff exitBB S ps ts swc F group (.subStart loc :: items))
    (hx : genSubStart loc swc F = .ok (swc', F₁)) (he : F₁.b.errors = [])
    (hon : Onward S swc F swc' F₁) (hat : AtItem exitBB swc' ps ts F₁) (hl : F₁.b.log <+: l)
    (hext : Extends S swc' F₁ F')
    (hrest : Before O T l view eff exitBB S ps ts swc' F₁ (some (frontPorch items)) items →
      Served O Γ T l view eff exitBB swc' F₁ F' (some (frontPorch items)) items) :
    Served O Γ T l view eff exitBB swc F F' group (.subStart loc :: items) := by
  rcases hB.at with ⟨ps', ts', hF, _⟩
  rcases genSubStart_eq hF hx he with
    ⟨hin, start, endBB, rfl, hpoint, htables, hslots, hstore, hbr⟩
  have hnone : group = none := by
    rw [hB.inGroup] at hin
    exact Option.not_isSome_iff_eq_none.mp (by rw [hin]; exact Bool.false_ne_true)
  subst hnone
  have hslot : F₁.b.slots[F.b.slots.length]? = some (.int 32) := by
    rw [hslots, List.getElem?_append_right (Nat.le_refl _), Nat.sub_self]
    rfl
  have hserved := hrest (hB.next hon hat (fun g hg => nomatch hg) rfl ?_)
  · refine hserved.item rfl (fun _ => Stmt.noConfusion)
      (by rw [htables]) rfl ?_ fun h => nomatch h
    intro st _
    have hgo := (Goes.store (O := O) (T := T) (code_extend hstore hl) st).trans
      (Goes.br (code_extend (p := (F.b.point.1, F.b.point.2 + 1)) hbr hl) _)
    have hslot' : F'.b.slots[F.b.slots.length]? = some (.int 32) := by
      rcases hext.slots with ⟨rest, hrest'⟩
      rw [← hrest', List.getElem?_append_left (List.getElem?_eq_some_iff.mp hslot).1]
      exact hslot
    refine Leads.goes hgo (hblind _ hslot' st.1 st.2 0) ?_
    have h := hserved.here (st.1.write (O.world.slotAddr F.b.slots.length) 4 (byteOf 0), st.2) ?_
    · rwa [hpoint] at h
    · intro m _ _ hm
      rcases Value.slot.inj hm with rfl
      exact selects_write (by decide) st
  · intro porch hp
    rcases Option.some.inj hp with rfl
    refine ⟨F.b.slots.length, rfl, hslot, by change 0 < 2 ^ 31; decide, ?_, fun _ h => nomatch h⟩
    refine fun _ => ⟨rfl, [], rfl, ?_⟩
    intro n st hsel
    refine ⟨st, .inl ⟨rfl, hsel, ?_⟩⟩
    rw [hpoint]
    exact .refl _ st

/-- A group ends: the code before falls into its end porch. -/
theorem served_subEnd
    (hB : Before O T l view eff exitBB S ps ts swc F group (.subEnd loc :: items))
    (hx : genSubEnd loc swc F = .ok (swc', F₁)) (he : F₁.b.errors = [])
    (hon : Onward S swc F swc' F₁) (hat : AtItem exitBB swc' ps ts F₁) (hl : F₁.b.log <+: l)
    (hrest : Before O T l view eff exitBB S ps ts swc' F₁ none items →
      Served O Γ T l view eff exitBB swc' F₁ F' none items) :
    Served O Γ T l view eff exitBB swc F F' group (.subEnd loc :: items) := by
  have hpending : swc.inGroup = true → ∃ ts', F.At (swc.groupEndBB :: ps) ts' true := by
    intro hin
    rcases hB.atItem with ⟨_, ts', _, _, hF⟩
    rw [if_pos hin] at hF
    exact ⟨ts', hF⟩
  have hin : swc.inGroup = true := by
    by_contra hne
    rcases hB.at with ⟨ps', ts', hF, _⟩
    have hnever : swc.inGroup = true → F.At (swc.groupEndBB :: ps) ts true := fun h => absurd h hne
    exact hne (genSubEnd_eq hnever hx he).1
  rcases hpending hin with ⟨ts', hF⟩
  rcases genSubEnd_eq (fun _ => hF) hx he with ⟨_, rfl, hpoint, htables, hcode⟩
  have hserved := hrest (hB.next hon hat (fun g hg => ?_) rfl fun _ h => nomatch h)
  · have hhere : ∀ st, Leads O T l view exitBB (swc.groupEndBB, 0)
        (fun s => (runItems eff items (.plain, s)).2) st := by
      intro st
      have h := hserved.here st fun _ h => nomatch h
      rwa [hpoint] at h
    have hsome : group.isSome = true := hB.inGroup ▸ hin
    refine hserved.item rfl (fun _ => Stmt.noConfusion)
      (by rw [htables]) rfl ?_ fun _ => hhere
    intro st _
    rw [hsome]
    exact (hhere st).goes (Goes.br (code_extend hcode hl) st) rfl
  · rw [htables]
    exact (hB.groupSw g hg).2

/-! ### In the front porch -/

theorem runItems_append_one {done : List Stmt} {r : Mode × σ} :
    runItems eff (done ++ [it]) r = runItem eff (runItems eff done r) it := List.foldl_concat ..

/-- A statement more in the front porch. -/
theorem Porch.act {k : Nat} {done : List Stmt}
    (h : Porch O T l view eff swc m done k p) (hit : it.isMarker = false)
    (hstep : ∀ st, ∃ st', Goes O T l 0 p st q st' ∧ view st' = eff it (view st) ∧
      (Selects O m k st → Selects O m k st')) :
    Porch O T l view eff swc m (done ++ [it]) k q := by
  intro st hsel
  rw [runItems_append_one]
  rcases h st hsel with ⟨st', ⟨hrun, hsel', hg⟩ | ⟨hrun, hg⟩⟩
  · rcases hstep st' with ⟨st'', hg', hview, hkeep⟩
    refine ⟨st'', .inl ⟨?_, hkeep hsel', hg.trans hg'⟩⟩
    rw [hrun, runItem_eff hit (.inr rfl), hview]
  · refine ⟨st', .inr ⟨?_, hg⟩⟩
    rw [hrun]
    refine runItem_leaving fun loc hloc => ?_
    rw [hloc] at hit
    cases hit

/-- A `break` in the front porch: what follows is left out. -/
theorem Porch.brk {k : Nat} {done : List Stmt} (h : Porch O T l view eff swc m done k p)
    (hgo : ∀ st, Goes O T l 0 p st (swc.groupEndBB, 0) st) :
    Porch O T l view eff swc m (done ++ [.breakS loc]) k q := by
  intro st hsel
  rw [runItems_append_one]
  rcases h st hsel with ⟨st', ⟨hrun, _, hg⟩ | ⟨hrun, hg⟩⟩
  · refine ⟨st', .inr ⟨?_, hg.trans (hgo st')⟩⟩
    rw [hrun]
    rfl
  · refine ⟨st', .inr ⟨?_, hg⟩⟩
    rw [hrun]
    rfl

/-- The group behind an item that is no label. -/
theorem GroupAt.next {porch : List Stmt} (h : GroupAt O T l view eff swc F porch (it :: items) m)
    (hit : it.isCase = false) (hslots : F.b.slots <+: F₁.b.slots) (htables : F.tables <+: F₁.tables)
    (hlt : ∀ g, swc.groupSw = some g → g < F.tables.length)
    (hstep : ∀ done k, Porch O T l view eff swc m done k F.b.point →
      Porch O T l view eff swc m (done ++ [it]) k F₁.b.point) :
    GroupAt O T l view eff swc F₁ porch items m where
  sel := h.sel
  slot := by
    rcases hslots with ⟨rest, hrest⟩
    rw [← hrest, List.getElem?_append_left (List.getElem?_eq_some_iff.mp h.slot).1]
    exact h.slot
  small := h.small
  first := by
    intro hsw
    rcases h.first hsw with ⟨hzero, done, hdone, hto⟩
    refine ⟨hzero, done ++ [it], ?_, fun k => hstep done k (hto k)⟩
    have hporch : frontPorch (it :: items) = it :: frontPorch items := by
      unfold frontPorch
      rw [List.takeWhile_cons_of_pos]
      rw [hit]
      rfl
    rw [hdone, hporch, List.append_assoc]
    rfl
  later := by
    intro g hg
    refine ⟨fun t ht => (h.later g hg).1 t ?_, (h.later g hg).2⟩
    rcases htables with ⟨rest, hrest⟩
    rw [← hrest, List.getElem?_append_left (hlt g hg)] at ht
    exact ht

theorem isCase_of_marker (h : it.isMarker = false) : it.isCase = false := by
  cases it <;> first | rfl | cases h

/-- A statement that acts. -/
theorem served_eff {x : Cg Unit} (hit : it.isMarker = false) (hact : Performs O S view x (eff it))
    (hB : Before O T l view eff exitBB S ps ts swc F group (it :: items))
    (hx : x F = .ok ((), F₁)) (hat : AtItem exitBB swc ps ts F₁) (hl : F₁.b.log <+: l)
    (hext : Extends S swc F₁ F')
    (hT : ∀ n, swc.sw ≤ n → n < F'.tables.length → T n = F'.switches n)
    (hrest : Before O T l view eff exitBB S ps ts swc F₁ group items →
      Served O Γ T l view eff exitBB swc F₁ F' group items) :
    Served O Γ T l view eff exitBB swc F F' group (it :: items) := by
  rcases hB.at with ⟨ps', ts', hF, _⟩
  rcases hact ps' ts' F F₁ hF hB.scopes hx with ⟨happ, hrun⟩
  -- the switches in the statement are left alone behind it
  have hTs : ∀ n, F.tables.length ≤ n → n < F₁.tables.length → T n = F₁.switches n := by
    intro n hle hlt
    rw [hT n (Nat.le_trans (Nat.le_of_lt hB.sw) hle) (Nat.lt_of_lt_of_le hlt hext.len)]
    have hkeep := hext.keep n hlt (Nat.ne_of_gt (Nat.lt_of_lt_of_le hB.sw hle))
      fun hg => Nat.not_le_of_lt (hB.groupSw n hg).2 hle
    unfold FnCtx.switches
    rw [hkeep]
  have hstep : ∀ st, ∃ st', Goes O T l 0 F.b.point st F₁.b.point st' ∧
      view st' = eff it (view st) ∧ SameSelectors O F.b.slots st st' := by
    intro st
    rcases hrun T hTs st with ⟨st', hg, hview, hsame⟩
    exact ⟨st', hg.extend hl, hview, hsame⟩
  have hselects : ∀ {m k : Nat} {st st' : St}, F.b.slots[m]? = some (.int 32) →
      SameSelectors O F.b.slots st st' → Selects O m k st → Selects O m k st' :=
    fun hm hsame hsel => (hsame _ hm).trans hsel
  have hnocase := isCase_of_marker hit
  have hleave : ∀ loc, it ≠ .subEnd loc := by
    rintro loc rfl
    cases hit
  have hnodefault : ∀ loc, it ≠ .defaultS loc := by
    rintro loc rfl
    cases hit
  have hserved := hrest (hB.next ⟨happ.extends swc, .refl swc F, rfl⟩ hat (fun g hg => ?_)
    hB.inGroup fun porch hp => ?_)
  · refine hserved.item rfl hnodefault happ.tables (entries_other (.inl hit)) ?_ ?_
    · intro st hzero
      rcases hstep st with ⟨st', hg, hview, hsame⟩
      have hzero' : ∀ m, group.isSome → swc.groupSw = none → swc.groupSel = .slot m →
          Selects O m 0 st' := by
        intro m hsome hsw hm
        rcases Option.isSome_iff_exists.mp hsome with ⟨porch, hp⟩
        rcases hB.groupAt porch hp with ⟨m', hgroup⟩
        rcases Value.slot.inj (hgroup.sel.symm.trans hm) with rfl
        exact hselects hgroup.slot hsame (hzero _ hsome hsw hm)
      have hmode : (if group.isSome then Mode.grouped else .plain) = .plain ∨
          (if group.isSome then Mode.grouped else .plain) = .grouped := by
        split
        · exact .inr rfl
        · exact .inl rfl
      rcases hserved.here st' hzero' with ⟨st'', hg', hview'⟩
      refine ⟨st'', hg.trans hg', ?_⟩
      change view st'' = (runItems eff items (runItem eff (_, view st) it)).2
      rw [runItem_eff hit hmode, ← hview]
      exact hview'
    · intro hsome st
      have h := hserved.last hsome st
      rcases h with ⟨st', hg, hview⟩
      refine ⟨st', hg, ?_⟩
      change view st' = (runItems eff items (runItem eff (_, view st) it)).2
      rw [runItem_leaving hleave]
      exact hview
  · exact Nat.lt_of_lt_of_le (hB.groupSw g hg).2 happ.tables.length_le
  · rcases hB.groupAt porch hp with ⟨m, hgroup⟩
    refine ⟨m, hgroup.next hnocase happ.slots happ.tables (fun g hg => (hB.groupSw g hg).2) ?_⟩
    intro done k hdone
    refine hdone.act hit fun st => ?_
    rcases hstep st with ⟨st', hg, hview, hsame⟩
    exact ⟨st', hg, hview, hselects hgroup.slot hsame⟩

/-- A `break`. -/
theorem served_break
    (hB : Before O T l view eff exitBB S ps ts swc F group (.breakS loc :: items))
    (hx : genBreak loc (⟨swc.exitBB, some swc⟩ :: breaks) F = .ok ((), F₁))
    (hon : Onward S swc F swc F₁) (hat : AtItem exitBB swc ps ts F₁) (hl : F₁.b.log <+: l)
    (hrest : Before O T l view eff exitBB S ps ts swc F₁ group items →
      Served O Γ T l view eff exitBB swc F₁ F' group items) :
    Served O Γ T l view eff exitBB swc F F' group (.breakS loc :: items) := by
  rcases genBreak_eq hx with ⟨htables, hcode⟩
  have hgo : ∀ st, Goes O T l 0 F.b.point st
      (if swc.inGroup then swc.groupEndBB else swc.exitBB, 0) st := fun st =>
    (Goes.br (code_extend hcode hl) st).weaken (Nat.zero_le _)
  have hserved := hrest (hB.next hon hat (fun g hg => ?_) hB.inGroup fun porch hp => ?_)
  · refine hserved.item rfl (fun _ => Stmt.noConfusion) (by rw [htables])
      (entries_other (.inr (.inr ⟨loc, rfl⟩))) ?_ hserved.last
    intro st _
    have hgo' := hgo st
    rw [hB.inGroup] at hgo'
    cases group with
    | none =>
        refine ⟨st, ?_, ?_⟩
        · rw [← hB.atItem.1]
          exact hgo'
        · exact congrArg Prod.snd (runItems_left (s := view st)).symm
    | some porch => exact (hserved.last rfl st).goes hgo' rfl
  · rw [htables]
    exact (hB.groupSw g hg).2
  · rcases hB.groupAt porch hp with ⟨m, hgroup⟩
    refine ⟨m, hgroup.next rfl hon.1.slots (by rw [htables]) (fun g hg => (hB.groupSw g hg).2) ?_⟩
    intro done k hdone
    have hin : swc.inGroup = true := by
      rw [hB.inGroup, hp]
      rfl
    rw [hin] at hgo
    exact hdone.brk hgo

/-! ### All items -/

/-- What the code of the items does. -/
theorem served_genItems (hΓ : ({ Γ with scopes := [] } : Env).Chained) (hb : ∀ t ∈ breaks, t.In ts)
    (hexit : exitBB ∈ ts) (hblind : Blind O F'.b.slots view) (he : F'.b.errors = [])
    (hl : F'.b.log <+: l) (hclosed : swc'.inGroup = false)
    (hend : ∀ st, Goes O T l 0 F'.b.point st (exitBB, 0) st) :
    ∀ {items : List Stmt} {swc : SwitchCtx} {F : FnCtx} {group : Option (List Stmt)},
      (∀ it ∈ items, it.Chained) → Acting O Γ d fnName S view eff breaks items →
      (∀ n, swc.sw ≤ n → n < F'.tables.length → T n = F'.switches n) →
      genItems Γ d fnName breaks items swc F = .ok (swc', F') →
      Before O T l view eff exitBB S ps ts swc F group items →
      Served O Γ T l view eff exitBB swc F F' group items := by
  intro items
  induction items with
  | nil =>
      intro swc F group _ _ _ hx hB
      rcases Prod.mk.inj (Except.ok.inj hx) with ⟨rfl, rfl⟩
      refine served_nil ?_ hend
      have hin := hB.inGroup
      rw [hclosed] at hin
      exact Option.not_isSome_iff_eq_none.mp (by rw [← hin]; exact Bool.false_ne_true)
  | cons it items ih =>
      intro swc F group hc hact hT hx hB
      rcases Cg.bind_eq_ok.mp hx with ⟨swc₁, F₁, hit, hitems⟩
      have hat := atItem_genItem hΓ (hc it List.mem_cons_self) hb hexit hB.atItem hit
      have hon := onward_genItem (hact it List.mem_cons_self) hB.atItem hB.scopes hit
      have hc' : ∀ it ∈ items, it.Chained := fun it h => hc it (List.mem_cons_of_mem _ h)
      have hact' : Acting O Γ d fnName S view eff breaks items :=
        fun it h => hact it (List.mem_cons_of_mem _ h)
      have hext := (onward_genItems hΓ hc' hb hexit hact' hat (hon.1.scopes hB.scopes) hitems).1
      have he₁ := hext.clean he
      have hl₁ := hext.log.trans hl
      have hrest := fun (group' : Option (List Stmt)) =>
        @ih swc₁ F₁ group' hc' hact' (hon.2.1.1 ▸ hT) hitems
      by_cases hm : it.isMarker = false
      · rw [genItem_eff hm] at hit
        rcases Cg.bind_eq_ok.mp hit with ⟨_, F₂, hstmt, hret⟩
        rcases Prod.mk.inj (Except.ok.inj hret) with ⟨rfl, rfl⟩
        exact served_eff hm (hact it List.mem_cons_self hm _) hB hstmt hat hl₁ hext hT (hrest group)
      · cases it with
        | caseS loc c =>
            cases group with
            | none => exact served_plainCase hB hit he₁ hon hat hl₁ hext (hrest none)
            | some porch =>
                exact served_groupCase hblind hB hit he₁ hon hat hl₁ hext hT (hrest (some porch))
        | defaultS loc => exact served_default hB hit he₁ hon hat hl₁ fun _ => hrest none
        | subStart loc => exact served_subStart hblind hB hit he₁ hon hat hl₁ hext (hrest _)
        | subEnd loc => exact served_subEnd hB hit he₁ hon hat hl₁ (hrest none)
        | breakS loc =>
            rcases Cg.bind_eq_ok.mp hit with ⟨_, F₂, hbreak, hret⟩
            rcases Prod.mk.inj (Except.ok.inj hret) with ⟨rfl, rfl⟩
            exact served_break hB hbreak hon hat hl₁ (hrest group)
        | _ => exact absurd rfl hm

end Cases

/-! ## The switch -/

section Switch

variable {O : Oracle} {Γ : Env} {d : Nat} {fnName : String} {S : ScopesIn} {T : Switches} {l : Log}
  {view : St → σ} {eff : Stmt → σ → σ} {breaks : List BreakTarget} {ps ts : List Blk}
  {exitBB : Blk} {swc : SwitchCtx} {F F' : FnCtx} {items : List Stmt} {loc : SrcLoc} {e : Expr}
  {E : Sem} {u : Unit}

/-- Where no error is reported, every group is closed, and the code falls out of the
switch. -/
theorem endSwitch_eq (hF : AtItem exitBB swc (exitBB :: ps) ts F) (hexit : exitBB ∈ ts)
    (hx : endSwitch loc swc F = .ok (u, F')) (he : F'.b.errors = []) :
    swc.inGroup = false ∧ F.b.errors = [] ∧ F'.b.point = (exitBB, 0) ∧ F'.tables = F.tables ∧
      F'.b.slots = F.b.slots ∧ F.b.log <+: F'.b.log ∧
      (F'.b.log.code F.b.point.1)[F.b.point.2]? = some (.br exitBB) := by
  rcases hF with ⟨rfl, ts', hts, _, hat⟩
  unfold endSwitch checkGroup at hx
  rcases Cg.bind_eq_ok.mp hx with ⟨_, F₁, hcheck, hx⟩
  rcases Cg.bind_eq_ok.mp hx with ⟨_, F₂, hbr, hset⟩
  split_ifs at hcheck with hin
  · -- the error of the open group is still there
    have he₂ := (extends_setInsertPoint (S := fun _ => True) _ _ (.refl swc F₂) _ _ hset).clean he
    have he₁ := (extends_brIfOpen (S := fun _ => True) _ _ (.refl swc F₁) _ _ hbr).clean he₂
    rcases Prod.mk.inj (Except.ok.inj hcheck) with ⟨_, rfl⟩
    exact absurd (List.append_eq_nil_iff.mp he₁).2 (List.cons_ne_nil _ _)
  · rcases Prod.mk.inj (Except.ok.inj hcheck) with ⟨_, rfl⟩
    rw [if_neg hin] at hat
    have hat₂ := keeps_brIfOpen (hts hexit) F hat _ F₂ hbr
    have hpoint := hat₂.point List.mem_cons_self hset
    have hbr' := brIfOpen_eq hat hbr
    have hcode := code_emit hbr'
    rcases Prod.mk.inj (Except.ok.inj hbr') with ⟨_, rfl⟩
    rcases Prod.mk.inj (Except.ok.inj hset) with ⟨_, rfl⟩
    exact ⟨Bool.eq_false_iff.mpr hin, he, hpoint, rfl, rfl, List.prefix_append _ _, hcode⟩

/-- The head of a switch: the condition, and the branch on its value. -/
theorem switch_head (hΓ : ({ Γ with scopes := [] } : Env).Chained) (hce : e.Chained)
    (he : Gives O Γ d F.scopes E e) (hF : F.At ps ts true) {rv : RV}
    {w : Value} {firstBB : Blk} {sw : Nat} {F₁ F₂ F₃ F₄ F₅ F₆ F₇ F₈ : FnCtx}
    (hcond : genExpr Γ d e F = .ok (rv, F₁)) (hconv : ir (convert rv .i64 false) F₁ = .ok (w, F₂))
    (hexitBB : ir newBlock F₂ = .ok (exitBB, F₃)) (hfirstBB : ir newBlock F₃ = .ok (firstBB, F₄))
    (hbr : ir (emit (.br firstBB)) F₄ = .ok (u, F₅))
    (hset : ir (setInsertPoint firstBB) F₅ = .ok (u, F₆))
    (hswitch : createSwitch w exitBB F₆ = .ok (sw, F₇)) (hdead : startDeadBlock F₇ = .ok (u, F₈)) :
    F₈.At (exitBB :: ps) (firstBB :: exitBB :: ts) true ∧ sw = F.tables.length ∧
      F₈.tables = F.tables ++ [⟨exitBB, []⟩] ∧ F₈.scopes = F.scopes ∧
      ∀ l T st x b, F₈.b.log <+: l → (E e st).1 = .int x → T sw x = some b →
        Goes O T l 0 F.b.point st (b, 0) (E e st).2 := by
  have hF₁ := keeps_genExpr hΓ hce F hF _ _ hcond
  have hF₂ := keeps_spec (silent_convert rv .i64 false) F₁ hF₁ _ _ hconv
  have hF₄ := keeps_newBlock _ (keeps_newBlock _ hF₂ _ _ hexitBB) _ _ hfirstBB
  have hF₅ := keeps_br List.mem_cons_self _ hF₄ _ _ hbr
  have hF₆ := keeps_setInsertPoint (List.Perm.refl _) _ hF₅ _ _ hset
  have hF₇ := keeps_createSwitch w (List.mem_cons_of_mem _ List.mem_cons_self) _ hF₆ _ _ hswitch
  have hp₄ := (frame_newBlock hfirstBB).2.trans (frame_newBlock hexitBB).2
  have hp₆ := hF₅.point List.mem_cons_self hset
  have htables : F₆.tables = F.tables ∧ F₆.scopes = F.scopes := by
    rcases genExpr_eq hcond with ⟨B, _, rfl⟩
    unfold ir at hconv
    split at hconv
    · rcases Prod.mk.inj (Except.ok.inj hconv) with ⟨_, rfl⟩
      rcases Prod.mk.inj (Except.ok.inj hexitBB) with ⟨_, rfl⟩
      rcases Prod.mk.inj (Except.ok.inj hfirstBB) with ⟨_, rfl⟩
      rcases Prod.mk.inj (Except.ok.inj hbr) with ⟨_, rfl⟩
      rcases Prod.mk.inj (Except.ok.inj hset) with ⟨_, rfl⟩
      exact ⟨rfl, rfl⟩
    · cases hconv
  have hle₅ : F₂.b.log <+: F₅.b.log :=
    (frame_newBlock hexitBB).1.log.trans ((frame_newBlock hfirstBB).1.log.trans (frame_emit hbr).log)
  have hle₆ := (frame_setInsertPoint hset).log
  have hle₇ : F₆.b.log <+: F₇.b.log := by
    rcases Prod.mk.inj (Except.ok.inj hswitch) with ⟨_, rfl⟩
    exact List.prefix_append _ _
  have hle₈ := (frame_startDeadBlock hdead).log
  have hcode := code_emit hbr
  have hcode' : (F₇.b.log.code F₆.b.point.1)[F₆.b.point.2]? = some (.switch F₆.tables.length w) := by
    rcases Prod.mk.inj (Except.ok.inj hswitch) with ⟨_, rfl⟩
    exact code_push F₆.b _
  have hsw : sw = F.tables.length ∧ F₇.tables = F.tables ++ [⟨exitBB, []⟩] ∧
      F₇.scopes = F.scopes := by
    rcases Prod.mk.inj (Except.ok.inj hswitch) with ⟨rfl, rfl⟩
    rw [← htables.1, ← htables.2]
    exact ⟨rfl, rfl, rfl⟩
  have hdead' : F₈.tables = F₇.tables ∧ F₈.scopes = F₇.scopes := by
    rcases Cg.bind_eq_ok.mp hdead with ⟨b, G, hnew, hat⟩
    rcases Prod.mk.inj (Except.ok.inj hat) with ⟨_, rfl⟩
    rcases Prod.mk.inj (Except.ok.inj hnew) with ⟨_, rfl⟩
    exact ⟨rfl, rfl⟩
  refine ⟨keeps_startDeadBlock _ hF₇ _ _ hdead, hsw.1, hdead'.1.trans hsw.2.1,
    hdead'.2.trans hsw.2.2, ?_⟩
  intro l T st x b hl hval hTx prev ρ
  have hl₇ := hle₈.trans hl
  have hl₅ := hle₆.trans (hle₇.trans hl₇)
  rcases yields_genExpr he hF ⟨rfl, 0, rfl⟩ hcond T with ⟨v, hv, hrun⟩
  have hcalc : Calc O (fun ρ => v.eval O.world ρ = (E e st).1) (convert rv .i64 false)
      fun w ρ => w.eval O.world ρ = (E e st).1 := by
    have hfits := (hrun st).1
    rw [hval] at hfits ⊢
    exact calc_toI64 hv hfits
  rcases yields_calc (Q := fun x w ρ => w.eval O.world ρ = x) T (hrun st).2 hcalc hconv prev ρ with
    ⟨k, prev', ρ', hk, hw⟩
  rw [hval] at hw
  rw [hp₄] at hcode
  rw [hp₆] at hcode'
  rw [hsw.1] at hTx
  rw [htables.1] at hcode'
  refine ⟨k + (1 + 1), firstBB, ρ', Nat.zero_le _, ?_⟩
  refine (hk.mono fun _ _ => eventStep_extend (hle₅.trans hl₅)).trans ?_
  refine (After.single (eventStep_br (code_extend hcode hl₅) prev' ρ' _)).trans ?_
  exact .single (eventStep_switch (p := (firstBB, 0)) (code_extend hcode' hl₇) hw hTx _ _)

/-- What the tables of a served switch make of a value. -/
theorem Served.enters {f : σ → σ} {t t' : SwitchTable} {x : I64} (hdisj : DisjointCases Γ items)
    (h : Served O Γ T l view eff exitBB swc F F' none items) (hnext : swc.nextCaseVal = 0)
    (ht : F.tables[swc.sw]? = some t) (ht' : F'.tables[swc.sw]? = some t') (hcases : t.cases = [])
    (hdflt : t.dflt = exitBB) (hf : Enters eff Γ items x f) (st : St) :
    Leads O T l view exitBB ((t'.cases.lookup x).getD t'.dflt, 0) f st := by
  have hlabel := h.label x t t' ht ht' (by rw [hcases]; rfl)
  have hd := h.dflt t t' ht ht'
  rw [hnext] at hlabel
  rcases hf with ⟨hen, hm⟩ | ⟨hno, hrest⟩ | ⟨hno, hrest⟩
  · rw [find_label hdisj hen hm] at hlabel
    rcases hlabel with ⟨b, hb, hlead⟩
    rw [hb]
    exact hlead st
  · rw [find_no_label.mpr hno] at hlabel
    rw [hrest] at hd
    rw [show t'.cases.lookup x = none from hlabel]
    exact hd st
  · rw [find_no_label.mpr hno] at hlabel
    rw [hrest] at hd
    rw [show t'.cases.lookup x = none from hlabel]
    refine ⟨st, ?_, rfl⟩
    change Goes O T l 0 (t'.dflt, 0) st (exitBB, 0) st
    rw [show t'.dflt = t.dflt from hd, hdflt]
    exact .refl _ st

theorem genStmt_switch (body : Stmt) : genStmt Γ d fnName breaks (.switchS loc e body) =
    genSwitch Γ d loc e (genItems Γ d fnName breaks body.items) := by
  have hone : ∀ it : Stmt, genItems Γ d fnName breaks [it] =
      genItem Γ it fun t => genStmt Γ d fnName (t :: breaks) it := by
    intro it
    funext swc
    exact bind_pure _
  cases body with
  | block loc' items =>
      unfold genStmt
      rfl
  | _ =>
      unfold genStmt
      exact congrArg _ (hone _).symm

theorem chained_items {body : Stmt} (h : body.Chained) : ∀ it ∈ body.items, it.Chained := by
  cases h with
  | block h => exact h
  | _ =>
      intro it hit
      rcases List.mem_singleton.mp hit with rfl
      constructor <;> assumption

/-- The code of a switch: it runs the condition, branches on its value, and enters the items
where `Enters` says. -/
theorem genSwitch_enters (hΓ : ({ Γ with scopes := [] } : Env).Chained) (hce : e.Chained)
    {body : Stmt} (hbody : body.Chained) (hb : ∀ t ∈ breaks, t.In ts) (hF : F.At ps ts true)
    (he : Gives O Γ d F.scopes E e) (hact : Acting O Γ d fnName S view eff breaks body.items)
    (hS : S ([] :: F.scopes)) (hdisj : DisjointCases Γ body.items)
    (hx : genStmt Γ d fnName breaks (.switchS loc e body) F = .ok ((), F'))
    (hclean : F'.b.errors = []) (hblind : Blind O F'.b.slots view) (hl : F'.b.log <+: l)
    (hT : ∀ n, F.tables.length ≤ n → n < F'.tables.length → T n = F'.switches n)
    (st : St) (x : I64) (hval : (E e st).1 = .int x) :
    (∃! f, Enters eff Γ body.items x f) ∧ ∀ f, Enters eff Γ body.items x f →
      ∃ st', Goes O T l 0 F.b.point st F'.b.point st' ∧ view st' = f (view (E e st).2) := by
  refine ⟨existsUnique_enters eff hdisj x, ?_⟩
  intro f hf
  have hc := chained_items hbody
  have hgen : genSwitch Γ d loc e (genItems Γ d fnName breaks body.items) F = .ok ((), F') := by
    rw [genStmt_switch] at hx
    exact hx
  unfold genSwitch at hgen
  rcases Cg.bind_eq_ok.mp hgen with ⟨rv, F₁, hcond, hgen⟩
  rcases Cg.bind_eq_ok.mp hgen with ⟨w, F₂, hconv, hgen⟩
  rcases Cg.bind_eq_ok.mp hgen with ⟨exitBB, F₃, hexitBB, hgen⟩
  rcases Cg.bind_eq_ok.mp hgen with ⟨firstBB, F₄, hfirstBB, hgen⟩
  rcases Cg.bind_eq_ok.mp hgen with ⟨_, F₅, hbr, hgen⟩
  rcases Cg.bind_eq_ok.mp hgen with ⟨_, F₆, hset, hgen⟩
  rcases Cg.bind_eq_ok.mp hgen with ⟨sw, F₇, hswitch, hgen⟩
  rcases Cg.bind_eq_ok.mp hgen with ⟨_, F₈, hdead, hgen⟩
  rcases Cg.bind_eq_ok.mp hgen with ⟨_, F₉, hpush, hgen⟩
  rcases Cg.bind_eq_ok.mp hgen with ⟨swc, F₁₀, hitems, hgen⟩
  rcases Cg.bind_eq_ok.mp hgen with ⟨_, F₁₁, hpop, hend⟩
  rcases switch_head hΓ hce he hF hcond hconv hexitBB hfirstBB hbr hset hswitch hdead with
    ⟨hF₈, hsw, htables₈, hscopes₈, hhead⟩
  have hF₉ := keeps_pushScope F₈ hF₈ _ F₉ hpush
  have hpush' : F₉.tables = F₈.tables ∧ F₉.scopes = [] :: F₈.scopes ∧ F₉.b = F₈.b := by
    rcases Prod.mk.inj (Except.ok.inj hpush) with ⟨_, rfl⟩
    exact ⟨rfl, rfl, rfl⟩
  have hpop' : F₁₁.tables = F₁₀.tables ∧ F₁₁.b = F₁₀.b := by
    rcases Prod.mk.inj (Except.ok.inj hpop) with ⟨_, rfl⟩
    exact ⟨rfl, rfl⟩
  have hS₉ : S F₉.scopes := by
    rw [hpush'.2.1, hscopes₈]
    exact hS
  have hts : ts ⊆ firstBB :: exitBB :: ts :=
    List.subset_cons_of_subset _ (List.subset_cons_self _ _)
  have hexit : exitBB ∈ firstBB :: exitBB :: ts := List.mem_cons_of_mem _ List.mem_cons_self
  have hb' : ∀ t ∈ breaks, t.In (firstBB :: exitBB :: ts) := fun t ht => In.mono (hb t ht) hts
  have hat₉ : AtItem exitBB { sw := sw, exitBB := exitBB } (exitBB :: ps) (firstBB :: exitBB :: ts)
      F₉ := ⟨rfl, _, List.Subset.refl _, fun h => Bool.noConfusion h, hF₉⟩
  have hon := onward_genItems hΓ hc hb' hexit hact hat₉ hS₉ hitems
  have hat₁₁ : AtItem exitBB swc (exitBB :: ps) (firstBB :: exitBB :: ts) F₁₁ := by
    have hkeep := keeps_genItems hΓ fnName body.items breaks ts hc hb exitBB _ _
      { sw := sw, exitBB := exitBB } hts hexit F₉ hat₉ swc F₁₀ hitems
    rcases hkeep with ⟨hex, ts', hts', hgroup, hF₁₀⟩
    exact ⟨hex, ts', hts', hgroup, keeps_popScope F₁₀ hF₁₀ _ F₁₁ hpop⟩
  rcases endSwitch_eq hat₁₁ hexit hend hclean with
    ⟨hclosed, hclean₁₁, hpoint, htables', hslots', hle', hcode⟩
  have htables₁₀ : F'.tables = F₁₀.tables := htables'.trans hpop'.1
  rw [hpop'.2] at hclean₁₁ hcode hle' hslots'
  have hl₁₀ := hle'.trans hl
  have hT' : ∀ n, sw ≤ n → n < F₁₀.tables.length → T n = F₁₀.switches n := by
    intro n hn hlt
    rw [hT n (hsw ▸ hn) (htables₁₀ ▸ hlt)]
    unfold FnCtx.switches
    rw [htables₁₀]
  have hserved := served_genItems hΓ hb' hexit (hslots' ▸ hblind) hclean₁₁ hl₁₀ hclosed
    (fun st => (Goes.br (code_extend hcode hl) st).weaken (Nat.zero_le _)) hc hact hT' hitems
    (⟨hat₉, hS₉, ?_, (fun g hg => nomatch hg), rfl, fun _ h => nomatch h⟩ :
      Before O T l view eff exitBB S _ _ _ _ none body.items)
  · have ht₉ : F₉.tables[sw]? = some ⟨exitBB, []⟩ := by
      rw [hpush'.1, htables₈, hsw, List.getElem?_append_right (Nat.le_refl _), Nat.sub_self]
      rfl
    rcases hon.1.cases sw _ ht₉ with ⟨t', ht', _⟩
    have hTx : T sw x = some ((t'.cases.lookup x).getD t'.dflt) := by
      rw [hT' sw (Nat.le_refl _) (List.getElem?_eq_some_iff.mp ht').1]
      unfold FnCtx.switches
      rw [ht']
      rfl
    rcases hserved.enters hdisj rfl ht₉ ht' rfl rfl hf (E e st).2 with ⟨st', hg, hview⟩
    have hgo := hhead l T st x _ (hpush'.2.2 ▸ hon.1.log.trans hl₁₀) hval hTx
    refine ⟨st', ?_, hview⟩
    rw [hpoint]
    exact hgo.trans hg
  · change sw < F₉.tables.length
    rw [hpush'.1, htables₈, hsw, List.length_append]
    exact Nat.lt_succ_self _

/-- A call of a function that leaves the memory alone is a statement that acts: what is in
view is the calls. -/
theorem performs_call {name f : String} {E : Sem} (m : Node)
    (hvar : ∀ scopes, S scopes → ({ Γ with scopes := scopes } : Env).lookupVar name = none)
    (hfunc : Γ.findFunc name = some ⟨some (.fn f), ⟨.i64, [], false⟩⟩)
    (hans : ∀ st : St, ∃ i, O.answer st.2 (.int (O.world.fnAddr f)) [] st.1 =
      some (some (.int i), st.1) ∧
        E (.ident m name) st = (.int i, (st.1, st.2 ++ [⟨.int (O.world.fnAddr f), []⟩]))) :
    Performs O S Prod.snd (genStmt Γ (d + 1) fnName breaks (.expr loc (.ident m name)))
      fun es => es ++ [⟨.int (O.world.fnAddr f), []⟩] := by
  intro ps ts F F' hF hS hx
  have hgen : (genExpr Γ (d + 1) (.ident m name) >>= fun _ => pure ()) F = .ok ((), F') := by
    unfold genStmt at hx
    exact hx
  rcases Cg.bind_eq_ok.mp hgen with ⟨rv, F₁, hexpr, hret⟩
  rcases Prod.mk.inj (Except.ok.inj hret) with ⟨_, rfl⟩
  rcases genExpr_eq hexpr with ⟨B, hB, rfl⟩
  have hvar' := hvar F.scopes hS
  have hfunc' : ({ Γ with scopes := F.scopes } : Env).findFunc name =
      some ⟨some (.fn f), ⟨.i64, [], false⟩⟩ := hfunc
  rcases Prod.mk.inj (Except.ok.inj (hB.symm.trans (genExpr_call hvar' hfunc'))) with ⟨rfl, rfl⟩
  refine ⟨⟨?_, List.prefix_refl _, List.prefix_refl _, List.prefix_refl _, hS⟩, ?_⟩
  · exact (List.prefix_append _ _).trans (List.prefix_append _ _)
  · intro T _ st
    have hyields : Yields O { Γ with scopes := F.scopes } (d + 1) E (.ident m name) := by
      refine yields_call hvar' hfunc' fun st => ?_
      rcases hans st with ⟨i, hanswer, hE⟩
      exact ⟨i, st.1, hanswer, hE⟩
    have hwf : F.b.Wf := by
      rcases hF with ⟨stray, hg, _⟩
      exact hg.wf
    rcases hans st with ⟨i, _, hE⟩
    have hgo := hyields.acts T F.b _ _ hwf hB st
    rw [hE] at hgo
    exact ⟨_, hgo, rfl, fun _ _ => rfl⟩

end Switch

/-! ## A group -/

/-- `switch (c) { start: f; case: f; break; case 1: c; end: f; break; default: c; }` -/
def groupItems : List Stmt :=
  [.subStart {}, .expr {} (.ident {} "f"), .caseS {} none, .expr {} (.ident {} "f"), .breakS {},
    .caseS {} (some (.intLit {} 1, none)), .expr {} (.ident {} "c"), .subEnd {},
    .expr {} (.ident {} "f"), .breakS {}, .defaultS {}, .expr {} (.ident {} "c")]

def groupStmt : Stmt := .switchS {} (.ident {} "c") (.block {} groupItems)

/-- The call that a statement makes. -/
def callsEff : Stmt → List Event → List Event
  | .expr _ (.ident _ s), es => es ++ [⟨.int (callsOracle.world.fnAddr s), []⟩]
  | _, es => es

def groupEnd : FnCtx := ((genStmt callsEnv 3 "F" [] groupStmt callsStart).toOption.getD ((), {})).2

theorem groupItems_acting : Acting callsOracle callsEnv 3 "F"
    (fun scopes => ∃ j, scopes = List.replicate j [] ++ callsStart.scopes) Prod.snd callsEff []
    groupItems := by
  have hcalls : ∀ it ∈ groupItems, it.isMarker = false →
      it = .expr {} (.ident {} "c") ∨ it = .expr {} (.ident {} "f") := by
    simp [groupItems, Stmt.isMarker]
  have hans : ∀ (s : String) (st : St), ∃ i, callsOracle.answer st.2
      (.int (callsOracle.world.fnAddr s)) [] st.1 = some (some (.int i), st.1) ∧
        callsSem (.ident {} s) st =
          (.int i, (st.1, st.2 ++ [⟨.int (callsOracle.world.fnAddr s), []⟩])) :=
    fun s st => ⟨_, rfl, rfl⟩
  intro it hit hm t
  rcases hcalls it hit hm with rfl | rfl
  · exact performs_call {} (fun _ h => callsEnv_lookupVar h _) rfl (hans "c")
  · exact performs_call {} (fun _ h => callsEnv_lookupVar h _) rfl (hans "f")

theorem groupItems_chained : ∀ it ∈ groupItems, it.Chained := by
  intro it hit
  simp only [groupItems, List.mem_cons, List.not_mem_nil, or_false] at hit
  rcases hit with rfl | rfl | rfl | rfl | rfl | rfl | rfl | rfl | rfl | rfl | rfl | rfl
  all_goals constructor
  all_goals constructor

/-- Without calls before, `c` is 0: the switch enters at the null case. It runs the front
porch, the case and the end porch. -/
theorem genSwitch_enters_group : ∃ st' : St,
    Goes callsOracle groupEnd.switches groupEnd.b.log 0 callsStart.b.point (fun _ => 0, [])
      groupEnd.b.point st' ∧
    st'.2 = ["c", "f", "f", "f"].map fun s => ⟨.int (callsOracle.world.fnAddr s), []⟩ := by
  have hsome : (genStmt callsEnv 3 "F" [] groupStmt callsStart).toOption.isSome = true := by
    decide +kernel
  have hgen : genStmt callsEnv 3 "F" [] groupStmt callsStart = .ok ((), groupEnd) := by
    rw [groupEnd]
    exact eq_ok_snd hsome _
  have hclean : groupEnd.b.errors = [] := by
    decide +kernel
  have hdisj : DisjointCases callsEnv groupItems := by
    refine List.pairwise_pair.mpr ?_
    rintro x ⟨_, hle⟩ ⟨hle', _⟩
    change x.toInt ≤ 0 at hle
    change 1 ≤ x.toInt at hle'
    omega
  have h := (genSwitch_enters callsEnv_chained (.ident _ _) (.block groupItems_chained)
    (fun _ h => absurd h List.not_mem_nil) (at_beginFn _) (callsStmt_gives (.inl rfl))
    groupItems_acting ⟨1, rfl⟩ hdisj hgen hclean (fun _ _ _ _ _ => rfl) (List.prefix_refl _)
    (fun _ _ _ => rfl) (fun _ => 0, []) 0 rfl).2 _ (.label (List.mem_cons_self ..) ?_)
  · exact h
  · decide

end Hlang.Codegen
