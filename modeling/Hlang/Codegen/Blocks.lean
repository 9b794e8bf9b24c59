import Hlang.Codegen.Stmt
import Hlang.Codegen.Straight

/-!
# Hlang.Codegen.Blocks — the blocks of a function under construction

`FnCtx.Good F ps ts o` is the invariant of code generation: the current block is open
(`o`) or just ended; the blocks of `ps` and those of labels not yet placed are pending,
all others are ended; branches go to blocks of the function and never to a block with a
phi that was closed before. One rule for each step of the builder.
-/

namespace Hlang.Codegen

open Ir Gen Cg

namespace FnCtx

/-- The blocks of the labels that are not placed yet. -/
def undefinedLabels (F : FnCtx) : List Blk :=
  (F.labels.filter fun l => l.1 ∉ F.labelsDefined).map Prod.snd

/-- The blocks an instruction may branch to. -/
def targets (F : FnCtx) : Instr → List Blk
  | .switch n _ =>
      match F.tables[n]? with
      | some t => t.blocks
      | none => []
  | i => i.targets

/-- There is an edge from block `p` to block `b`. -/
def Pred (F : FnCtx) (p b : Blk) : Prop := ∃ i, (p, i) ∈ F.b.log ∧ b ∈ F.targets i

/-- The block has no phi. -/
def NoPhi (F : FnCtx) (b : Blk) : Prop := ∀ dst inc, (b, Instr.phi dst inc) ∉ F.b.log

/-- The block may be branched to. -/
structure Target (F : FnCtx) (b : Blk) : Prop where
  pos : 0 < b
  lt : b < F.b.nextBlk
  phi : F.NoPhi b

/-- The invariant of code generation. -/
structure Good (F : FnCtx) (ps ts : List Blk) (o : Bool) : Prop where
  wf : F.b.Wf
  cur : if o then Unended (F.b.code F.b.cur) else Ended (F.b.code F.b.cur)
  ended : ∀ b, b < F.b.nextBlk → b ≠ F.b.cur → b ∉ ps → b ∉ F.undefinedLabels →
    Ended (F.b.code b)
  pending : ∀ b, b ∈ ps ∨ b ∈ F.undefinedLabels → F.b.Pending b
  nodup : (ps ++ F.undefinedLabels).Nodup
  names : (F.labels.map Prod.fst).Nodup
  defined : ∀ n ∈ F.labelsDefined, n ∈ F.labels.map Prod.fst
  target : ∀ b, b ∈ ts ∨ b ∈ F.labels.map Prod.snd → F.Target b
  edges : ∀ p b, F.Pred p b → 0 < b ∧ b < F.b.nextBlk
  phis : ∀ b dst inc, (b, .phi dst inc) ∈ F.b.log →
    (inc.map Prod.snd).Nodup ∧ ∀ p, p ∈ inc.map Prod.snd ↔ F.Pred p b
  tables : ∀ p n v, (p, .switch n v) ∈ F.b.log → n < F.tables.length
  dests : ∀ t ∈ F.tables, ∀ b ∈ t.blocks, F.Target b
  scopes : ∀ sc ∈ F.scopes, ∀ v ∈ sc, v.2.type.Chained
  live : ScopeEvent.skip ∉ F.scopeLog

section Good

variable {F F' : FnCtx} {ps ts : List Blk} {o : Bool}

/-- The log has entries for blocks that exist. -/
theorem lt_of_mem (hwf : F.b.Wf) {b : Blk} {i : Instr} (h : (b, i) ∈ F.b.log) :
    b < F.b.nextBlk := by
  by_contra hge
  have hcode := Log.mem_code.mpr h
  have hnil : F.b.log.code b = [] := hwf.fresh b (Nat.le_of_not_lt hge)
  rw [hnil] at hcode
  cases hcode

theorem noPhi_of_code {b : Blk} (h : F.b.code b = []) : F.NoPhi b := by
  intro dst inc hmem
  have hcode : Instr.phi dst inc ∈ F.b.code b := Log.mem_code.mpr hmem
  rw [h] at hcode
  cases hcode

theorem Pending.target {b : Blk} (h : F.b.Pending b) (hpos : 0 < b) : F.Target b :=
  ⟨hpos, h.lt, noPhi_of_code h.code⟩

/-- New edges go to blocks without a phi. -/
theorem Good.phis_step (h : F.Good ps ts o)
    (hphi : ∀ b dst inc, (b, Instr.phi dst inc) ∈ F'.b.log → (b, Instr.phi dst inc) ∈ F.b.log)
    (hold : ∀ p b, F.Pred p b → F'.Pred p b ∨ F.NoPhi b)
    (hnew : ∀ p b, F'.Pred p b → F.Pred p b ∨ F.NoPhi b) (b : Blk) (dst : Reg)
    (inc : List (Value × Blk)) (hmem : (b, Instr.phi dst inc) ∈ F'.b.log) :
    (inc.map Prod.snd).Nodup ∧ ∀ p, p ∈ inc.map Prod.snd ↔ F'.Pred p b := by
  have hmem' := hphi b dst inc hmem
  rcases h.phis b dst inc hmem' with ⟨hnd, hpred⟩
  refine ⟨hnd, ?_⟩
  intro p
  rw [hpred]
  constructor
  · intro hp
    rcases hold p b hp with hp | hno
    · exact hp
    · exact absurd hmem' (hno dst inc)
  · intro hp
    rcases hnew p b hp with hp | hno
    · exact hp
    · exact absurd hmem' (hno dst inc)

theorem Good.perm {ps' : List Blk} (h : F.Good ps ts o) (hp : ps.Perm ps') : F.Good ps' ts o where
  wf := h.wf
  cur := h.cur
  ended := fun b hlt hne hps => h.ended b hlt hne fun hmem => hps (hp.mem_iff.mp hmem)
  pending := fun b hb => h.pending b (hb.imp_left hp.mem_iff.mpr)
  nodup := (hp.append_right _).nodup_iff.mp h.nodup
  names := h.names
  defined := h.defined
  target := h.target
  edges := h.edges
  phis := h.phis
  tables := h.tables
  dests := h.dests
  scopes := h.scopes
  live := h.live

theorem Good.weaken {ts' : List Blk} (h : F.Good ps ts o) (hts : ts' ⊆ ts) :
    F.Good ps ts' o where
  wf := h.wf
  cur := h.cur
  ended := h.ended
  pending := h.pending
  nodup := h.nodup
  names := h.names
  defined := h.defined
  target := fun b hb => h.target b (hb.imp_left fun hb => hts hb)
  edges := h.edges
  phis := h.phis
  tables := h.tables
  dests := h.dests
  scopes := h.scopes
  live := h.live

/-- A change that the invariant does not see. -/
theorem Good.congr (h : F.Good ps ts o) (hlog : F'.b.log = F.b.log) (hcur : F'.b.cur = F.b.cur)
    (hblk : F'.b.nextBlk = F.b.nextBlk) (hlabels : F'.labels = F.labels)
    (hdefined : F'.labelsDefined = F.labelsDefined) (htables : F'.tables = F.tables)
    (hscopes : ∀ sc ∈ F'.scopes, ∀ v ∈ sc, v.2.type.Chained)
    (hlive : ScopeEvent.skip ∉ F'.scopeLog) : F'.Good ps ts o := by
  have hcode : ∀ b, F'.b.code b = F.b.code b := by
    intro b
    unfold Builder.code
    rw [hlog]
  have hund : F'.undefinedLabels = F.undefinedLabels := by
    unfold undefinedLabels
    rw [hlabels, hdefined]
  have htargets : ∀ i, F'.targets i = F.targets i := by
    intro i
    unfold targets
    rw [htables]
  have hpred : ∀ p b, F'.Pred p b ↔ F.Pred p b := by
    intro p b
    unfold Pred
    simp only [hlog, htargets]
  have hpend : ∀ b, F.b.Pending b → F'.b.Pending b := by
    intro b hb
    exact ⟨hblk ▸ hb.lt, (hcode b).trans hb.code, hcur ▸ hb.ne⟩
  have htarget : ∀ b, F.Target b → F'.Target b := by
    intro b ht
    refine ⟨ht.pos, hblk ▸ ht.lt, ?_⟩
    unfold NoPhi
    rw [hlog]
    exact ht.phi
  constructor
  case wf =>
    refine ⟨by rw [hcur, hblk]; exact h.wf.cur, ?_⟩
    intro b hb
    rw [hcode]
    exact h.wf.fresh b (hblk ▸ hb)
  case cur =>
    rw [hcur, hcode]
    exact h.cur
  case ended =>
    rw [hblk, hcur, hund]
    intro b
    rw [hcode]
    exact h.ended b
  case pending =>
    rw [hund]
    exact fun b hb => hpend b (h.pending b hb)
  case nodup => rw [hund]; exact h.nodup
  case names => rw [hlabels]; exact h.names
  case defined => rw [hlabels, hdefined]; exact h.defined
  case target =>
    rw [hlabels]
    exact fun b hb => htarget b (h.target b hb)
  case edges =>
    intro p b hp
    rw [hblk]
    exact h.edges p b ((hpred p b).mp hp)
  case phis =>
    refine h.phis_step ?_ (fun p b hp => .inl ((hpred p b).mpr hp))
      fun p b hp => .inl ((hpred p b).mp hp)
    rw [hlog]
    exact fun _ _ _ => id
  case tables => rw [hlog, htables]; exact h.tables
  case dests =>
    rw [htables]
    exact fun t ht b hb => htarget b (h.dests t ht b hb)
  case scopes => exact hscopes
  case live => exact hlive

/-- A new block is pending. -/
theorem Good.newBlock (h : F.Good ps ts o) (hF : F' = { F with b := F.b.alloc 1 }) :
    F'.Good (F.b.nextBlk :: ps) (F.b.nextBlk :: ts) o := by
  subst hF
  have hnew : (F.b.alloc 1).Pending F.b.nextBlk :=
    h.wf.pending (Nat.le_refl _) (Nat.lt_succ_self _)
  have hpend : ∀ b, F.b.Pending b → (F.b.alloc 1).Pending b :=
    fun b hb => ⟨Nat.lt_succ_of_lt hb.lt, hb.code, hb.ne⟩
  have hlt : ∀ b, b ∈ ps ∨ b ∈ F.undefinedLabels → b ≠ F.b.nextBlk :=
    fun b hb => Nat.ne_of_lt (h.pending b hb).lt
  have hold : ∀ b, F.Target b → Target { F with b := F.b.alloc 1 } b :=
    fun b hb => ⟨hb.pos, Nat.lt_succ_of_lt hb.lt, hb.phi⟩
  constructor
  case wf => exact h.wf.alloc 1
  case cur => exact h.cur
  case ended =>
    intro b hb hne hps hund
    have hb' : b < F.b.nextBlk := by
      rcases Nat.lt_or_eq_of_le (Nat.le_of_lt_succ hb) with hb | hb
      · exact hb
      · exact absurd (List.mem_cons.mpr (.inl hb)) hps
    exact h.ended b hb' hne (fun hmem => hps (List.mem_cons_of_mem _ hmem)) hund
  case pending =>
    rintro b (hb | hb)
    · rcases List.mem_cons.mp hb with rfl | hb
      · exact hnew
      · exact hpend b (h.pending b (.inl hb))
    · exact hpend b (h.pending b (.inr hb))
  case nodup =>
    change (F.b.nextBlk :: (ps ++ F.undefinedLabels)).Nodup
    refine List.nodup_cons.mpr ⟨?_, h.nodup⟩
    intro hmem
    rcases List.mem_append.mp hmem with hmem | hmem
    · exact hlt _ (.inl hmem) rfl
    · exact hlt _ (.inr hmem) rfl
  case names => exact h.names
  case defined => exact h.defined
  case target =>
    rintro b (hb | hb)
    · rcases List.mem_cons.mp hb with rfl | hb
      · exact ⟨Nat.lt_of_le_of_lt (Nat.zero_le _) h.wf.cur, Nat.lt_succ_self _,
          noPhi_of_code (h.wf.fresh _ (Nat.le_refl _))⟩
      · exact hold b (h.target b (.inl hb))
    · exact hold b (h.target b (.inr hb))
  case edges =>
    intro p b hp
    have he := h.edges p b hp
    exact ⟨he.1, Nat.lt_succ_of_lt he.2⟩
  case phis => exact h.phis
  case tables => exact h.tables
  case dests => exact fun t ht b hb => hold b (h.dests t ht b hb)
  case scopes => exact h.scopes
  case live => exact h.live

/-- The current block is ended by `i`. -/
theorem Good.terminate (h : F.Good ps ts true) {i : Instr} (hi : i.isTerminator = true)
    (hb : F'.b = F.b.push i) (hlabels : F'.labels = F.labels)
    (hdefined : F'.labelsDefined = F.labelsDefined) (htables : F.tables <+: F'.tables)
    (hscopes : F'.scopes = F.scopes) (hscopeLog : F'.scopeLog = F.scopeLog)
    (hsw : ∀ n v, i = .switch n v → n < F'.tables.length)
    (ht : ∀ t ∈ F'.targets i, F.Target t)
    (hdests : ∀ t ∈ F'.tables, ∀ b ∈ t.blocks, F.Target b) : F'.Good ps ts false := by
  have hund : F'.undefinedLabels = F.undefinedLabels := by
    unfold undefinedLabels
    rw [hlabels, hdefined]
  have hcode : ∀ b, b ≠ F.b.cur → F'.b.code b = F.b.code b := by
    intro b hne
    rw [hb]
    exact Builder.code_push_other hne i
  have hcur : F'.b.cur = F.b.cur := by rw [hb]; rfl
  have hblk : F'.b.nextBlk = F.b.nextBlk := by rw [hb]; rfl
  have hlog : F'.b.log = F.b.log ++ [(F.b.cur, i)] := by rw [hb]; rfl
  -- the tables of the switches before are kept
  have htargets : ∀ p j, (p, j) ∈ F.b.log → F'.targets j = F.targets j := by
    intro p j hj
    cases j with
    | switch n v =>
        have hn := h.tables p n v hj
        rcases htables with ⟨T, hT⟩
        dsimp only [targets]
        rw [← hT, List.getElem?_append_left hn]
    | _ => rfl
  have hpred : ∀ p b, F'.Pred p b ↔ F.Pred p b ∨ (p = F.b.cur ∧ b ∈ F'.targets i) := by
    intro p b
    constructor
    · rintro ⟨j, hj, hjb⟩
      rw [hlog] at hj
      rcases List.mem_append.mp hj with hj | hj
      · rw [htargets p j hj] at hjb
        exact .inl ⟨j, hj, hjb⟩
      · rcases Prod.mk.inj (List.mem_singleton.mp hj) with ⟨rfl, rfl⟩
        exact .inr ⟨rfl, hjb⟩
    · rintro (⟨j, hj, hjb⟩ | ⟨rfl, hib⟩)
      · refine ⟨j, ?_, ?_⟩
        · rw [hlog]
          exact List.mem_append_left _ hj
        · rw [htargets p j hj]
          exact hjb
      · refine ⟨i, ?_, hib⟩
        rw [hlog]
        exact List.mem_append_right _ (List.mem_singleton.mpr rfl)
  have hphi : ∀ b dst inc, (b, Instr.phi dst inc) ∈ F'.b.log → (b, Instr.phi dst inc) ∈ F.b.log := by
    intro b dst inc hmem
    rw [hlog] at hmem
    rcases List.mem_append.mp hmem with hmem | hmem
    · exact hmem
    · rcases Prod.mk.inj (List.mem_singleton.mp hmem) with ⟨_, rfl⟩
      cases hi
  have htarget : ∀ b, F.Target b → F'.Target b := by
    intro b hb'
    exact ⟨hb'.pos, hblk ▸ hb'.lt, fun dst inc hmem => hb'.phi dst inc (hphi b dst inc hmem)⟩
  constructor
  case wf => rw [hb]; exact h.wf.push i
  case cur =>
    rw [hcur, hb, Builder.code_push_self]
    exact ⟨_, i, rfl, h.cur, hi⟩
  case ended =>
    rw [hblk, hcur, hund]
    intro b hlt hne
    rw [hcode b hne]
    exact h.ended b hlt hne
  case pending =>
    rw [hund]
    intro b hb'
    have hp := h.pending b hb'
    exact ⟨hblk ▸ hp.lt, (hcode b hp.ne).trans hp.code, hcur ▸ hp.ne⟩
  case nodup => rw [hund]; exact h.nodup
  case names => rw [hlabels]; exact h.names
  case defined => rw [hlabels, hdefined]; exact h.defined
  case target =>
    rw [hlabels]
    exact fun b hb' => htarget b (h.target b hb')
  case edges =>
    intro p b hp
    rw [hblk]
    rcases (hpred p b).mp hp with hp | ⟨_, hp⟩
    · exact h.edges p b hp
    · exact ⟨(ht b hp).pos, (ht b hp).lt⟩
  case phis =>
    refine h.phis_step hphi (fun p b hp => .inl ((hpred p b).mpr (.inl hp))) ?_
    intro p b hp
    rcases (hpred p b).mp hp with hp | ⟨_, hp⟩
    · exact .inl hp
    · exact .inr (ht b hp).phi
  case tables =>
    intro p n v hmem
    rw [hlog] at hmem
    rcases List.mem_append.mp hmem with hmem | hmem
    · exact Nat.lt_of_lt_of_le (h.tables p n v hmem) htables.length_le
    · rcases Prod.mk.inj (List.mem_singleton.mp hmem) with ⟨_, heq⟩
      exact hsw n v heq.symm
  case dests => exact fun t htab b hb' => htarget b (hdests t htab b hb')
  case scopes => rw [hscopes]; exact h.scopes
  case live => rw [hscopeLog]; exact h.live

/-- A pending block becomes the current one. -/
theorem Good.setInsertPoint {b : Blk} (h : F.Good (b :: ps) ts false)
    (hF : F' = { F with b := { F.b with cur := b } }) : F'.Good ps ts true := by
  subst hF
  have hb := h.pending b (.inl List.mem_cons_self)
  have hnd := List.nodup_cons.mp h.nodup
  constructor
  case wf => exact ⟨hb.lt, h.wf.fresh⟩
  case cur =>
    change Unended (F.b.code b)
    rw [hb.code]
    exact unended_nil
  case ended =>
    intro c hc hne hps hund
    by_cases hcur : c = F.b.cur
    · rw [hcur]
      exact h.cur
    · refine h.ended c hc hcur ?_ hund
      intro hmem
      rcases List.mem_cons.mp hmem with rfl | hmem
      · exact hne rfl
      · exact hps hmem
  case pending =>
    intro c hc
    have hp := h.pending c (hc.imp_left (List.mem_cons_of_mem _))
    refine ⟨hp.lt, hp.code, ?_⟩
    rintro rfl
    exact hnd.1 (List.mem_append.mpr hc)
  case nodup => exact hnd.2
  case names => exact h.names
  case defined => exact h.defined
  case target =>
    intro c hc
    have ht := h.target c hc
    exact ⟨ht.pos, ht.lt, ht.phi⟩
  case edges => exact h.edges
  case phis => exact h.phis
  case tables => exact h.tables
  case dests =>
    intro t ht c hc
    have ht' := h.dests t ht c hc
    exact ⟨ht'.pos, ht'.lt, ht'.phi⟩
  case scopes => exact h.scopes
  case live => exact h.live

/-- A stretch of code, such as that of an expression. -/
theorem Good.stretch {B : Builder} {ms : List Site} (h : F.Good ps ts true)
    (hst : Stretch F.b B ms) (hF : F' = { F with b := B }) : F'.Good ps ts true := by
  subst hF
  rcases hst.seg with ⟨seg, hseg, _⟩
  have hle := hst.le
  have hblk : F.b.nextBlk ≤ B.nextBlk := hle.blk
  have htargets : ∀ p i, (p, i) ∈ seg → ({ F with b := B } : FnCtx).targets i = i.targets := by
    intro p i hi
    cases i with
    | switch n v => exact absurd rfl ((hseg.plain _ hi).1 n v)
    | _ => rfl
  have hnew : ∀ p b, seg.Pred p b → F.b.nextBlk ≤ b ∧ b < B.nextBlk := by
    rintro p b ⟨i, hi, hb⟩
    exact hseg.targets _ hi b hb
  have hpred : ∀ p b, ({ F with b := B } : FnCtx).Pred p b ↔ F.Pred p b ∨ seg.Pred p b := by
    intro p b
    constructor
    · rintro ⟨i, hi, hb⟩
      change (p, i) ∈ B.log at hi
      rw [hseg.log] at hi
      rcases List.mem_append.mp hi with hi | hi
      · exact .inl ⟨i, hi, hb⟩
      · rw [htargets p i hi] at hb
        exact .inr ⟨i, hi, hb⟩
    · rintro (⟨i, hi, hb⟩ | ⟨i, hi, hb⟩)
      · refine ⟨i, ?_, hb⟩
        change (p, i) ∈ B.log
        rw [hseg.log]
        exact List.mem_append_left _ hi
      · refine ⟨i, ?_, ?_⟩
        · change (p, i) ∈ B.log
          rw [hseg.log]
          exact List.mem_append_right _ hi
        · rw [htargets p i hi]
          exact hb
  have hcode : ∀ b, B.code b = F.b.code b ++ seg.code b := code_of_log hseg.log
  have hfresh : ∀ b, F.b.nextBlk ≤ b → F.b.code b = [] := h.wf.fresh
  have hopen : Unended (F.b.code F.b.cur) := h.cur
  have htarget : ∀ b, F.Target b → ({ F with b := B } : FnCtx).Target b := by
    intro b ht
    refine ⟨ht.pos, Nat.lt_of_lt_of_le ht.lt hblk, ?_⟩
    intro dst inc hmem
    change (b, Instr.phi dst inc) ∈ B.log at hmem
    rw [hseg.log] at hmem
    rcases List.mem_append.mp hmem with hmem | hmem
    · exact ht.phi dst inc hmem
    · exact absurd ht.lt (Nat.not_lt_of_le (hseg.phis b dst inc hmem).1)
  constructor
  case wf => exact hst.wf
  case cur =>
    change Unended (B.code B.cur)
    rw [hcode]
    rcases hle.cur with hcur | hcur
    · have hun := hseg.unended
      rw [hcur] at hun ⊢
      exact hopen.append hun
    · rw [hfresh _ hcur]
      exact hseg.unended
  case ended =>
    intro b hlt hne hps hund
    change Ended (B.code b)
    by_cases hold : b < F.b.nextBlk
    · by_cases hcur : b = F.b.cur
      · rw [hcode, hcur]
        exact hopen.ended (hseg.ended _ (.inl rfl) (hcur ▸ hlt) (hcur ▸ hne))
      · rw [hle.kept b hold hcur]
        exact h.ended b hold hcur hps hund
    · have hge := Nat.le_of_not_lt hold
      rw [hcode, hfresh b hge]
      exact hseg.ended b (.inr hge) hlt hne
  case pending => exact fun b hb => hst.pending (h.pending b hb)
  case nodup => exact h.nodup
  case names => exact h.names
  case defined => exact h.defined
  case target => exact fun b hb => htarget b (h.target b hb)
  case edges =>
    intro p b hp
    rcases (hpred p b).mp hp with hp | hp
    · have he := h.edges p b hp
      exact ⟨he.1, Nat.lt_of_lt_of_le he.2 hblk⟩
    · have he := hnew p b hp
      exact ⟨Nat.lt_of_lt_of_le (Nat.lt_of_le_of_lt (Nat.zero_le _) h.wf.cur) he.1, he.2⟩
  case phis =>
    intro b dst inc hmem
    change (b, Instr.phi dst inc) ∈ B.log at hmem
    rw [hseg.log] at hmem
    rcases List.mem_append.mp hmem with hmem | hmem
    · rcases h.phis b dst inc hmem with ⟨hnd, hinc⟩
      refine ⟨hnd, ?_⟩
      intro p
      rw [hinc, hpred, or_iff_left]
      intro hp
      exact absurd (lt_of_mem h.wf hmem) (Nat.not_lt_of_le (hnew p b hp).1)
    · rcases hseg.phis b dst inc hmem with ⟨hge, hnd, hinc⟩
      refine ⟨hnd, ?_⟩
      intro p
      rw [hinc, hpred, or_iff_right]
      intro hp
      exact absurd (h.edges p b hp).2 (Nat.not_lt_of_le hge)
  case tables =>
    intro p n v hmem
    change (p, Instr.switch n v) ∈ B.log at hmem
    rw [hseg.log] at hmem
    rcases List.mem_append.mp hmem with hmem | hmem
    · exact h.tables p n v hmem
    · exact absurd rfl ((hseg.plain _ hmem).1 n v)
  case dests => exact fun t ht b hb => htarget b (h.dests t ht b hb)
  case scopes => exact h.scopes
  case live => exact h.live

/-- A table is changed. -/
theorem Good.modifyTable (h : F.Good ps ts o) {sw : Nat} {f : SwitchTable → SwitchTable}
    (hf : ∀ t, ∀ b ∈ (f t).blocks, b ∈ t.blocks ∨ F.Target b)
    (hF : F' = { F with tables := F.tables.modify sw f }) : F'.Good ps ts o := by
  subst hF
  have hdests : ∀ t ∈ F.tables.modify sw f, ∀ b ∈ t.blocks, F.Target b := by
    intro t ht b hb
    rcases List.mem_iff_getElem?.mp ht with ⟨n, hn⟩
    rw [List.getElem?_modify] at hn
    rcases Option.map_eq_some_iff.mp hn with ⟨t', ht', rfl⟩
    have hmem : t' ∈ F.tables := List.mem_of_getElem? ht'
    split_ifs at hb
    · rcases hf t' b hb with hb | hb
      · exact h.dests t' hmem b hb
      · exact hb
    · exact h.dests t' hmem b hb
  let F' : FnCtx := { F with tables := F.tables.modify sw f }
  -- the edges of a switch, before and after
  have hswitch : ∀ (G : FnCtx), (∀ t ∈ G.tables, ∀ b ∈ t.blocks, F.Target b) → ∀ n v b,
      b ∈ G.targets (.switch n v) → F.Target b := by
    intro G hG n v b hb
    dsimp only [targets] at hb
    split at hb
    · next t ht => exact hG t (List.mem_of_getElem? ht) b hb
    · cases hb
  have hpred : ∀ (G G' : FnCtx), (∀ t ∈ G.tables, ∀ b ∈ t.blocks, F.Target b) →
      G.b.log = G'.b.log → ∀ p b, G.Pred p b → G'.Pred p b ∨ F.Target b := by
    rintro G G' hG hlog p b ⟨i, hi, hb⟩
    rw [hlog] at hi
    cases i with
    | switch n v => exact .inr (hswitch G hG n v b hb)
    | _ => exact .inl ⟨_, hi, hb⟩
  constructor
  case wf => exact h.wf
  case cur => exact h.cur
  case ended => exact h.ended
  case pending => exact h.pending
  case nodup => exact h.nodup
  case names => exact h.names
  case defined => exact h.defined
  case target =>
    intro b hb
    have ht := h.target b hb
    exact ⟨ht.pos, ht.lt, ht.phi⟩
  case edges =>
    intro p b hp
    rcases hpred F' F hdests rfl p b hp with hp | ht
    · exact h.edges p b hp
    · exact ⟨ht.pos, ht.lt⟩
  case phis =>
    refine h.phis_step (fun _ _ _ => id) ?_ ?_
    · intro p b hp
      exact (hpred F F' h.dests rfl p b hp).imp_right fun ht => ht.phi
    · intro p b hp
      exact (hpred F' F hdests rfl p b hp).imp_right fun ht => ht.phi
  case tables =>
    intro p n v hmem
    change n < (F.tables.modify sw f).length
    rw [List.length_modify]
    exact h.tables p n v hmem
  case dests =>
    intro t ht b hb
    have ht' := hdests t ht b hb
    exact ⟨ht'.pos, ht'.lt, ht'.phi⟩
  case scopes => exact h.scopes
  case live => exact h.live

/-- A pending block is filled. -/
theorem Good.fill {b : Blk} (h : F.Good (b :: ps) ts o) (is : List Instr) (his : Ended is)
    (hplain : ∀ i ∈ is, (∀ dst inc, i ≠ .phi dst inc) ∧ ∀ n v, i ≠ .switch n v)
    (ht : ∀ i ∈ is, ∀ t ∈ i.targets, F.Target t)
    (hF : F' = { F with b := { F.b with log := F.b.log ++ is.map fun i => (b, i) } }) :
    F'.Good ps ts o := by
  subst hF
  let B : Builder := { F.b with log := F.b.log ++ is.map fun i => (b, i) }
  let F' : FnCtx := { F with b := B }
  have hb := h.pending b (.inl List.mem_cons_self)
  have hnd := List.nodup_cons.mp h.nodup
  have hself : B.code b = is := by
    have hcode : Log.code (is.map fun i => (b, i)) b = is := by
      unfold Log.code
      rw [List.filterMap_map]
      simp
    change Log.code (F.b.log ++ is.map fun i => (b, i)) b = is
    rw [Log.code_append, hcode]
    exact congrArg (· ++ is) hb.code
  have hcode : ∀ c, c ≠ b → B.code c = F.b.code c := by
    intro c hc
    have hnil : Log.code (is.map fun i => (b, i)) c = [] := by
      refine Log.code_eq_nil ?_
      intro e he
      rcases List.mem_map.mp he with ⟨i, _, rfl⟩
      exact Ne.symm hc
    change Log.code (F.b.log ++ is.map fun i => (b, i)) c = _
    rw [Log.code_append, hnil, List.append_nil]
    rfl
  have hmem : ∀ c i, (c, i) ∈ B.log → (c, i) ∈ F.b.log ∨ (c = b ∧ i ∈ is) := by
    intro c i hci
    rcases List.mem_append.mp hci with hci | hci
    · exact .inl hci
    · rcases List.mem_map.mp hci with ⟨j, hj, heq⟩
      rcases Prod.mk.inj heq with ⟨rfl, rfl⟩
      exact .inr ⟨rfl, hj⟩
  have hphi : ∀ c dst inc, (c, Instr.phi dst inc) ∈ B.log → (c, Instr.phi dst inc) ∈ F.b.log := by
    intro c dst inc hc
    rcases hmem c _ hc with hc | ⟨_, hc⟩
    · exact hc
    · exact absurd rfl ((hplain _ hc).1 dst inc)
  have hpred : ∀ p c, F'.Pred p c → F.Pred p c ∨ F.Target c := by
    rintro p c ⟨i, hi, hc⟩
    rcases hmem p i hi with hi | ⟨_, hi⟩
    · exact .inl ⟨i, hi, hc⟩
    · refine .inr (ht i hi c ?_)
      cases i with
      | switch n v => exact absurd rfl ((hplain _ hi).2 n v)
      | _ => exact hc
  have htarget : ∀ c, F.Target c → F'.Target c :=
    fun c hc => ⟨hc.pos, hc.lt, fun dst inc hmem => hc.phi dst inc (hphi c dst inc hmem)⟩
  constructor
  case wf =>
    refine ⟨h.wf.cur, ?_⟩
    intro c hc
    change B.code c = []
    rw [hcode c (Nat.ne_of_gt (Nat.lt_of_lt_of_le hb.lt hc))]
    exact h.wf.fresh c hc
  case cur =>
    change if o = true then Unended (B.code F.b.cur) else Ended (B.code F.b.cur)
    rw [hcode _ hb.ne.symm]
    exact h.cur
  case ended =>
    intro c hc hne hps hund
    change Ended (B.code c)
    by_cases hcb : c = b
    · rw [hcb, hself]
      exact his
    · rw [hcode c hcb]
      refine h.ended c hc hne ?_ hund
      intro hmem
      rcases List.mem_cons.mp hmem with hmem | hmem
      · exact hcb hmem
      · exact hps hmem
  case pending =>
    intro c hc
    have hp := h.pending c (hc.imp_left (List.mem_cons_of_mem _))
    refine ⟨hp.lt, ?_, hp.ne⟩
    change B.code c = []
    rw [hcode c ?_]
    · exact hp.code
    · rintro rfl
      exact hnd.1 (List.mem_append.mpr hc)
  case nodup => exact hnd.2
  case names => exact h.names
  case defined => exact h.defined
  case target => exact fun c hc => htarget c (h.target c hc)
  case edges =>
    intro p c hp
    rcases hpred p c hp with hp | hc
    · exact h.edges p c hp
    · exact ⟨hc.pos, hc.lt⟩
  case phis =>
    refine h.phis_step hphi ?_ fun p c hp => (hpred p c hp).imp_right fun hc => hc.phi
    rintro p c ⟨i, hi, hc⟩
    exact .inl ⟨i, List.mem_append_left _ hi, hc⟩
  case tables =>
    intro p n v hsw
    rcases hmem p _ hsw with hsw | ⟨_, hsw⟩
    · exact h.tables p n v hsw
    · exact absurd rfl ((hplain _ hsw).2 n v)
  case dests => exact fun t ht c hc => htarget c (h.dests t ht c hc)
  case scopes => exact h.scopes
  case live => exact h.live

/-- What is left to place when the label `name` of block `b` is placed. -/
theorem undefined_cons {labels : List (String × Blk)} {D : List String} {name : String} {b : Blk}
    (hnames : (labels.map Prod.fst).Nodup) (hmem : (name, b) ∈ labels) (hD : name ∉ D) :
    ((labels.filter fun l => l.1 ∉ D).map Prod.snd).Perm
      (b :: (labels.filter fun l => l.1 ∉ name :: D).map Prod.snd) := by
  induction labels with
  | nil => cases hmem
  | cons l labels ih =>
      rw [List.map_cons, List.nodup_cons] at hnames
      rcases List.mem_cons.mp hmem with rfl | hmem
      · -- no other label has this name
        have hrest : (labels.filter fun l => l.1 ∉ name :: D) = labels.filter fun l => l.1 ∉ D := by
          refine List.filter_congr ?_
          intro l hl
          have hne : l.1 ≠ name := fun heq => hnames.1 (List.mem_map.mpr ⟨l, hl, heq⟩)
          simp [hne]
        rw [List.filter_cons_of_pos (by simpa using hD), List.filter_cons_of_neg (by simp), hrest]
        exact List.Perm.refl _
      · have hne : l.1 ≠ name := fun heq => hnames.1 (List.mem_map.mpr ⟨_, hmem, heq.symm⟩)
        by_cases hl : l.1 ∈ D
        · rw [List.filter_cons_of_neg (by simpa using hl),
            List.filter_cons_of_neg (by simp [hl])]
          exact ih hnames.2 hmem
        · rw [List.filter_cons_of_pos (by simpa using hl),
            List.filter_cons_of_pos (by simp [hl, hne]), List.map_cons, List.map_cons]
          exact ((ih hnames.2 hmem).cons _).trans (List.Perm.swap _ _ _)

/-- The block of a label is made, or was made before. -/
theorem Good.labelBlock (h : F.Good ps ts o) {name : String} {b : Blk}
    (hx : getLabelBlock name F = .ok (b, F')) :
    F'.Good ps (b :: ts) o ∧ (name, b) ∈ F'.labels ∧ F'.labelsDefined = F.labelsDefined ∧
      F'.b.errors = F.b.errors := by
  unfold getLabelBlock at hx
  split at hx
  · next bb hbb =>
      rcases Prod.mk.inj (Except.ok.inj hx) with ⟨rfl, rfl⟩
      rcases List.lookup_eq_some_iff.mp hbb with ⟨l₁, l₂, heq, _⟩
      have hmem : (name, bb) ∈ F.labels := by
        rw [heq]
        exact List.mem_append_right _ List.mem_cons_self
      refine ⟨?_, hmem, rfl, rfl⟩
      refine { h with target := ?_ }
      rintro c (hc | hc)
      · rcases List.mem_cons.mp hc with rfl | hc
        · exact h.target c (.inr (List.mem_map.mpr ⟨_, hmem, rfl⟩))
        · exact h.target c (.inl hc)
      · exact h.target c (.inr hc)
  · next hnone =>
      rcases Prod.mk.inj (Except.ok.inj hx) with ⟨rfl, rfl⟩
      have hfresh : name ∉ F.labels.map Prod.fst := by
        intro hmem
        rcases List.mem_map.mp hmem with ⟨l, hl, rfl⟩
        have hne := List.lookup_eq_none_iff.mp hnone l hl
        exact absurd rfl (bne_iff_ne.mp hne)
      have hD : name ∉ F.labelsDefined := fun hmem => hfresh (h.defined name hmem)
      have h' := h.newBlock rfl
      refine ⟨?_, List.mem_cons_self, rfl, rfl⟩
      have hund : ({ F with
          b := { F.b with nextBlk := F.b.nextBlk + 1 }
          labels := (name, F.b.nextBlk) :: F.labels } : FnCtx).undefinedLabels =
          F.b.nextBlk :: F.undefinedLabels := by
        unfold undefinedLabels
        rw [List.filter_cons_of_pos (by simpa using hD)]
        rfl
      constructor
      case wf => exact h'.wf
      case cur => exact h'.cur
      case ended =>
        rw [hund]
        intro c hc hne hps hund'
        refine h'.ended c hc hne ?_ fun hmem => hund' (List.mem_cons_of_mem _ hmem)
        intro hmem
        rcases List.mem_cons.mp hmem with rfl | hmem
        · exact hund' List.mem_cons_self
        · exact hps hmem
      case pending =>
        rw [hund]
        rintro c (hc | hc)
        · exact h'.pending c (.inl (List.mem_cons_of_mem _ hc))
        · rcases List.mem_cons.mp hc with rfl | hc
          · exact h'.pending _ (.inl List.mem_cons_self)
          · exact h'.pending c (.inr hc)
      case nodup =>
        rw [hund]
        exact List.perm_middle.nodup_iff.mpr h'.nodup
      case names => exact List.nodup_cons.mpr ⟨hfresh, h.names⟩
      case defined => exact fun n hn => List.mem_cons_of_mem _ (h.defined n hn)
      case target =>
        have htarget : ∀ c, c ∈ F.b.nextBlk :: ts ∨ c ∈ F.labels.map Prod.snd →
            Target { F with
              b := { F.b with nextBlk := F.b.nextBlk + 1 }
              labels := (name, F.b.nextBlk) :: F.labels } c :=
          fun c hc => ⟨(h'.target c hc).pos, (h'.target c hc).lt, (h'.target c hc).phi⟩
        rintro c (hc | hc)
        · exact htarget c (.inl hc)
        · rcases List.mem_cons.mp hc with rfl | hc
          · exact htarget _ (.inl List.mem_cons_self)
          · exact htarget c (.inr hc)
      case edges => exact h'.edges
      case phis => exact h'.phis
      case tables => exact h'.tables
      case dests =>
        intro t ht c hc
        have ht' := h'.dests t ht c hc
        exact ⟨ht'.pos, ht'.lt, ht'.phi⟩
      case scopes => exact h'.scopes
      case live => exact h'.live

/-- A label is placed: its block is pending on its own. -/
theorem Good.placeLabel (h : F.Good ps ts o) {name : String} {b : Blk}
    (hmem : (name, b) ∈ F.labels) (hD : name ∉ F.labelsDefined)
    (hF : F' = { F with labelsDefined := name :: F.labelsDefined }) : F'.Good (b :: ps) ts o := by
  subst hF
  have hperm := undefined_cons h.names hmem hD
  let F' : FnCtx := { F with labelsDefined := name :: F.labelsDefined }
  have hund : F.undefinedLabels.Perm (b :: F'.undefinedLabels) := hperm
  constructor
  case wf => exact h.wf
  case cur => exact h.cur
  case ended =>
    intro c hc hne hps hund'
    refine h.ended c hc hne (fun hmem => hps (List.mem_cons_of_mem _ hmem)) ?_
    intro hmem
    rcases List.mem_cons.mp (hund.mem_iff.mp hmem) with rfl | hmem
    · exact hps List.mem_cons_self
    · exact hund' hmem
  case pending =>
    rintro c (hc | hc)
    · rcases List.mem_cons.mp hc with rfl | hc
      · exact h.pending c (.inr (hund.mem_iff.mpr List.mem_cons_self))
      · exact h.pending c (.inl hc)
    · exact h.pending c (.inr (hund.mem_iff.mpr (List.mem_cons_of_mem _ hc)))
  case nodup =>
    exact ((hund.append_left ps).trans List.perm_middle).nodup_iff.mp h.nodup
  case names => exact h.names
  case defined =>
    intro n hn
    rcases List.mem_cons.mp hn with rfl | hn
    · exact List.mem_map.mpr ⟨_, hmem, rfl⟩
    · exact h.defined n hn
  case target =>
    intro c hc
    have ht := h.target c hc
    exact ⟨ht.pos, ht.lt, ht.phi⟩
  case edges => exact h.edges
  case phis => exact h.phis
  case tables => exact h.tables
  case dests =>
    intro t ht c hc
    have ht' := h.dests t ht c hc
    exact ⟨ht'.pos, ht'.lt, ht'.phi⟩
  case scopes => exact h.scopes
  case live => exact h.live

end Good

end FnCtx

end Hlang.Codegen
