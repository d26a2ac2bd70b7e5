import Xv6.Fs.Cached
import Xv6.Fs.Tidy

/-!
# Coherence of the buffer cache

The calls of the file system on the buffer cache and the log of one machine, each inside its own
transaction.  As long as a copy fails only at the start of a block or of the request, a valid buffer has
the contents of its block on disk whenever the log is empty.
-/

namespace Xv6.Fs

open List BState

section EndOp

variable {E : Env} {p : ℕ} {ℓ : Local} {s s' : BState}

theorem Alone.ops (inv : Alone E p ℓ s) (inOp : ℓ.inOp = true) : s.ops = [p] := by
  have only : ∀ q ∈ s.ops, q = p := by
    intro q hq
    by_contra other
    have inside := (inv.locals q).inOp.1 hq
    rw [Function.update_of_ne other] at inside
    cases inside
  have replicate := eq_replicate_of_mem only
  have nodup := inv.state.opsNodup
  rw [replicate, nodup_replicate] at nodup
  have member := length_pos_of_mem (inv.local.inOp.2 inOp)
  rw [replicate, le_antisymm nodup member]
  rfl

/-- `end_op` of the only process commits: every block of the file system has its contents on disk. -/
theorem Alone.endOp (inv : Alone E p ℓ s) (admits : ∀ base blocks new, E.T base blocks new)
    (inOp : ℓ.inOp = true) (work : ℓ.work = none)
    (returns : Xv6.endOp.run (exec p) s = (.ok (), s')) :
    Alone E p { ℓ with inOp := false, mine := [] } s' ∧ ∀ b, E.Home b → s'.disk b = s.view b := by
  have idle := inv.notCommitting work
  have last : s.log.outstanding - 1 = 0 := by
    rw [inv.state.outstanding, inv.ops inOp]
    rfl
  obtain ⟨doCommit, s₁, ends, commits⟩ := (Prog.run_bind_eq_ok _).mp returns
  obtain ⟨ℓ₁, inv₁, post⟩ := inv.run (Q := fun r ℓ₁ => r = true → ∃ blocks new base, ℓ₁ =
      { ℓ with inOp := false, mine := [], work := some ⟨blocks, new, base, 0, 0, false⟩ })
    (safe_endOp (k := Prog.ret) inOp admits (fun h => nomatch h)
      fun blocks new base _ => ⟨blocks, new, base, rfl⟩) ends
  have step : exec p .endOp s = .ok (true, { s with
      log := { s.log with outstanding := s.log.outstanding - 1, committing := true }
      ops := s.ops.erase p, tx := [] }) := by
    simp [exec, Log.endOp, idle, last]
  change Prog.run (exec p) (.op .endOp .ret) s = _ at ends
  rw [Prog.run_op_ok _ step] at ends
  cases ends
  obtain ⟨blocks, new, base, rfl⟩ := post rfl
  have begun := inv₁.local.work _ rfl
  obtain rfl : s.log.lh.blocks = blocks := begun.blocks
  obtain rfl : s.latest = new := begun.latest
  obtain rfl : s.disk = base := begun.disk
  obtain ⟨⟨⟩, s₂, commit, finish⟩ := (Prog.run_bind_eq_ok _).mp commits
  obtain ⟨ℓ₂, inv₂, wrote, cleared, rfl, done⟩ := inv₁.run
    (Q := fun _ ℓ₂ => ∃ wrote cleared, ℓ₂ = { ℓ with
        inOp := false
        mine := []
        work := some ⟨s.log.lh.blocks, s.latest, s.disk, wrote, 0, cleared⟩ } ∧
      (s.log.lh.blocks = [] ∧ wrote = 0 ∨
        wrote = 2 * s.log.lh.blocks.length + 2 ∧ cleared = true))
    (safe_commit rfl rfl rfl rfl rfl (fun nil => ⟨_, _, rfl, .inl ⟨nil, rfl⟩⟩)
      (fun _ => ⟨_, _, rfl, .inr ⟨rfl, rfl⟩⟩)) commit
  have committed := inv₂.local.work _ rfl
  obtain ⟨ℓ₃, inv₃, rfl⟩ := inv₂.run (Q := fun _ ℓ₃ => ℓ₃ = { ℓ with inOp := false, mine := [] })
    (safe_endCommit (k := Prog.ret) rfl rfl (done.imp And.left And.right) (by
      show _ = _
      rw [← work]
      rfl)) finish
  refine ⟨inv₃, fun b home => ?_⟩
  have disk : s'.disk = s₂.disk := by
    cases finish
    rfl
  rw [disk, committed.disk]
  unfold view
  split_ifs with logged
  · obtain ⟨j, hj⟩ := mem_iff_getElem?.mp logged
    have bound := (List.getElem?_eq_some_iff.mp hj).1
    refine committed.writes.home (fun b hb => (committed.home b hb).2) committed.fits.2
      committed.nodup hj ?_
    rw [committed.wrote]
    rcases done with ⟨nil, -⟩ | ⟨rfl, -⟩
    · rw [nil] at logged
      cases logged
    · dsimp only
      omega
  · exact committed.writes.rest committed.fits.2 home.2 logged

end EndOp

/-! ## Between two calls -/

abbrev Quiet (E : Env) (s : BState) : Prop := BInv E (fun _ => Local.init) s

section Rest

variable {E : Env} {p : ℕ} {ℓ : Local} {s : BState} {t : FsState} {h : ℕ → ℕ}

theorem Quiet.alone (rest : Quiet E s) (p : ℕ) : Alone E p Local.init s := by
  have same := Function.update_eq_self p fun _ : ℕ => Local.init
  rwa [Alone, same]

theorem Quiet.ops (rest : Quiet E s) : s.ops = [] :=
  eq_nil_iff_forall_not_mem.mpr fun q hq => nomatch (rest.locals q).inOp.1 hq

theorem Quiet.empty (rest : Quiet E s) : s.log.lh.blocks = [] := by
  have n := rest.state.empty ((rest.alone 0).notCommitting rfl) rest.ops
  rw [← length_eq_zero_iff, LogHeader.length_blocks, n]

theorem beginOp_same {s' : BState} (returns : Xv6.beginOp.run (exec p) s = (.ok (), s')) :
    s'.disk = s.disk ∧ s'.log.lh = s.log.lh := by
  change Prog.run (exec p) (.op .beginOp .ret) s = _ at returns
  cases begins : s.log.beginOp with
  | none =>
    rw [Prog.run_op_error (e := .blocked) _ (by simp only [exec, begins])] at returns
    cases returns
  | some l =>
    have step : exec p .beginOp s = .ok ((), { s with log := l, ops := p :: s.ops }) := by
      simp only [exec, begins]
    rw [Prog.run_op_ok _ step] at returns
    cases returns
    unfold Log.beginOp at begins
    split_ifs at begins
    cases begins
    exact ⟨rfl, rfl⟩

theorem view_of_empty (empty : s.log.lh.blocks = []) (b : ℕ) : s.view b = s.disk b :=
  if_neg (empty ▸ not_mem_nil)

theorem Cached.start {inOp : Bool} (inv : Alone E p ⟨inOp, [], [], fun _ => none, none⟩ s)
    (empty : s.log.lh.blocks = []) :
    Cached E p (.start s.disk) s ⟨inOp, [], [], fun _ => none, none⟩ h :=
  ⟨inv, rfl, rfl, fun _ hb => absurd hb not_mem_nil, nofun, nodup_nil,
    fun _ hb => absurd hb not_mem_nil, fun b _ _ => (view_of_empty empty b).symm⟩

theorem Cached.unlocked (c : Cached E p t s ℓ h) (held : t.held = []) (i : ℕ) : ℓ.held i = none := by
  cases locked : ℓ.held i with
  | none => rfl
  | some x =>
    have mem := (c.only i x locked).1
    rw [held] at mem
    cases mem

theorem Alone.rest (inv : Alone E p ℓ s) (inOp : ℓ.inOp = false) (extra : ℓ.extra = [])
    (unlocked : ∀ i, ℓ.held i = none) (work : ℓ.work = none) : Quiet E s := by
  have init : ℓ = Local.init := by
    refine Local.ext inOp (eq_nil_iff_forall_not_mem.mpr fun b hb => ?_) extra unlocked work
    have inside := (inv.local.mine b hb).1
    rw [inOp] at inside
    cases inside
  subst init
  have same := Function.update_eq_self p fun _ : ℕ => Local.init
  rwa [Alone, same] at inv

end Rest

/-! ## The blocks that an image depends on -/

section Congr

variable {L : Layout} {σ σ' : Store}

theorem inodes_congr (same : ∀ b, L.Home b → σ' b = σ b) {i : ℕ} (hi : i < L.ninodes) :
    inodes L σ' i = inodes L σ i := by
  rw [inodes, same _ (L.home_iblock hi), inodes]

theorem WellFormed.slot_congr (h : WellFormed L σ) (same : ∀ b, L.Home b → σ' b = σ b) {i : ℕ}
    (hi : i < L.ninodes) (type : (inodes L σ i).type ≠ 0) (k : ℕ) :
    slot σ' (inodes L σ i) k = slot σ (inodes L σ i) k := by
  unfold slot
  split_ifs with direct zero
  · rfl
  · rfl
  · have addr : slot σ (inodes L σ i) NDIRECT = (inodes L σ i).addr NDIRECT :=
      slot_addr (le_refl NDIRECT)
    have data := (h 0).alloc.inside _ _ (refs_of_slot hi type (by decide) (addr ▸ zero))
    rw [addr] at data
    rw [same _ data.home]

theorem WellFormed.congr (h : WellFormed L σ) (same : ∀ b, L.Home b → σ' b = σ b) :
    WellFormed L σ' := by
  have references : refs L σ' (inodes L σ') = refs L σ (inodes L σ) := by
    funext ⟨i, k⟩
    by_cases live : i < L.ninodes ∧ (inodes L σ i).type ≠ 0
    · simp only [refs, inodes_congr same live.1, h.slot_congr same live.1 live.2]
    · unfold refs
      rw [if_neg, if_neg]
      · exact fun ref => live ⟨ref.1, ref.2.1⟩
      · exact fun ref => live ⟨ref.1, inodes_congr same ref.1 ▸ ref.2.1⟩
  obtain ⟨own, full⟩ := wellFormed_iff.mp h
  refine wellFormed_iff.mpr ⟨⟨?_, ?_, fun b hb => ?_⟩, fun i hi type => ?_⟩
  · rw [references]
    exact own.injective
  · rw [references]
    exact own.range
  · rw [references, Used, same _ (L.home_bblock hb)]
    exact own.bitmap b hb
  · rw [inodes_congr same hi] at type ⊢
    intro bn hbn
    rw [h.slot_congr same hi type]
    exact full i hi type bn hbn

theorem FsSys.Inv.congr {icache : ℕ → Option Inode} (inv : FsSys.Inv L ⟨σ, icache⟩)
    (same : ∀ b, L.Home b → σ' b = σ b) : FsSys.Inv L ⟨σ', icache⟩ := by
  refine ⟨inv.image.congr same, fun i ip hip => ?_⟩
  obtain ⟨bound, rfl, type⟩ := inv.cache i ip hip
  exact ⟨bound, (inodes_congr same bound).symm, type⟩

end Congr

/-! ## Calls on a machine -/

/-- The buffer cache, the log and the disk, and the valid inodes of the inode table. -/
structure DiskSys where
  machine : BState
  icache : ℕ → Option Inode

def FsCall.reads : FsCall → Bool
  | readi .. => true
  | _ => false

/-- The program of a call on the buffer cache, in a transaction unless it only reads. -/
def FsCall.body (L : Layout) (icache : ℕ → Option Inode) (c : FsCall) :
    BProg (List (ℕ × Option Inode)) :=
  if c.reads then onCache (fun _ => 0) (c.prog L icache)
  else do
    Xv6.beginOp
    let entries ← onCache (fun _ => 0) (c.prog L icache)
    Xv6.endOp
    pure entries

namespace DiskSys

variable {L : Layout}

/-- A call runs to its end on the disk. -/
def call (L : Layout) (p : ℕ) (c : FsCall) (s : DiskSys) : Except (Halt Panic) DiskSys :=
  match (c.body L s.icache).run (exec p) s.machine with
  | (.ok entries, t) => .ok ⟨t, withEntries s.icache entries⟩
  | (.error e, _) => .error e

def boot (L : Layout) (σ : Store) : DiskSys := ⟨.init σ L.logstart L.nlog, fun _ => none⟩

/-- The states that calls reach whose copies fail only at the start of the request or of a block. -/
inductive Reachable (L : Layout) (σ : Store) : DiskSys → Prop where
  | boot : Reachable L σ (boot L σ)
  | call {s s' : DiskSys} (p : ℕ) (c : FsCall) (before : Reachable L σ s)
      (inode : c.inum < L.ninodes) (aligned : c.Aligned) (returns : s.call L p c = .ok s') :
      Reachable L σ s'

/-- The invariant between two calls: nothing is in progress, every valid buffer agrees with the
disk, and the image on disk is well formed. -/
structure Inv (L : Layout) (s : DiskSys) : Prop where
  rest : Quiet (strictEnv L.logstart L.nlog) s.machine
  files : FsSys.Inv L ⟨s.machine.disk, s.icache⟩

theorem home_env {b : ℕ} (home : L.Home b) : (strictEnv L.logstart L.nlog).Home b := by
  have size := L.size_lt
  have log := L.log_le
  refine ⟨?_, .inr (le_trans log home.1)⟩
  have bound := home.2
  omega

theorem Inv.looks {s : FsSys} (inv : s.Inv L) {c : FsCall} (inode : c.inum < L.ninodes)
    (reads : c.reads = true) :
    Looks Benign L.Home (c.prog L s.icache) s.store fun entries =>
      FsSys.Inv L ⟨s.store, withEntries s.icache entries⟩ := by
  cases c with
  | readi inum dst off n =>
    refine Looks.bind ((looks_ilock inode _ fun ip hip => (inv.cache inum ip hip).2).mono ?_)
    rintro ip ⟨rfl, typed⟩
    refine Looks.bind (((looks_readi inv.image inode typed dst off n).weaken (fun _ => nofun)
      fun _ hb => hb.home).mono ?_)
    rintro ⟨_, ip⟩ ⟨rfl, -⟩
    exact looks_ret ⟨inv.image, inv.cache.wrote (Wrote.refl inv.image inum) _ inode fun ip' hip' =>
      ⟨(Option.some.inj hip').symm, typed⟩⟩
  | create | dirlink | writei | setNlink | itrunc | iput => cases reads

/-- A call on the machine does what it does on the block store. -/
theorem Inv.call {s s' : DiskSys} {p : ℕ} {c : FsCall} (inv : Inv L s) (inode : c.inum < L.ninodes)
    (aligned : c.Aligned) (returns : s.call L p c = .ok s') :
    Inv L s' ∧ ∃ u : FsSys, FsSys.call L c ⟨s.machine.disk, s.icache⟩ = .ok u ∧
      u.icache = s'.icache ∧ ∀ b, L.Home b → s'.machine.disk b = u.store b := by
  obtain ⟨m, icache⟩ := s
  obtain ⟨rest, files⟩ := inv
  have keeps : ((c.prog L icache).run FsState.exec (.start m.disk)).2.lost = [] :=
    Tidy.lost (aligned.tidy L icache)
  unfold DiskSys.call at returns
  split at returns
  swap
  · cases returns
  rename_i entries m' run
  cases returns
  have nothing : ∀ b : ℕ, b ∉ ([] : List ℕ) := fun _ => not_mem_nil
  suffices ∃ t', (c.prog L icache).run FsState.exec (.start m.disk) = (.ok entries, t') ∧
      Quiet (strictEnv L.logstart L.nlog) m' ∧
      FsSys.Inv L ⟨t'.store, withEntries icache entries⟩ ∧
      ∀ b, L.Home b → m'.disk b = t'.store b by
    obtain ⟨t', store, rest', files', same⟩ := this
    refine ⟨⟨rest', files'.congr same⟩, ⟨t'.store, _⟩, ?_, rfl, same⟩
    rw [FsSys.call]
    dsimp only
    rw [store]
  change (c.body L icache).run (exec p) m = _ at run
  unfold FsCall.body at run
  split_ifs at run with reads
  · -- a call that only reads changes no buffer and leaves the log empty
    have start := Cached.start (h := fun _ => 0) (rest.alone p) rest.empty
    have total := Inv.looks files inode reads (.start m.disk) [] []
      ⟨rfl, rfl, fun _ h => h, fun b h => absurd h (nothing b)⟩ rfl
    obtain ⟨t', ℓ', h', store, inOp, cached, reading, held, files'⟩ := start.run trivial
      (by decide) total (fun u hu b hb => home_env (hb.elim (hu.held b)
        fun logged => absurd (hu.logged ▸ logged) (nothing b)))
      (.inr fun u hu => ⟨subset_nil.mp hu.dirty, hu.logged⟩) keeps run
    have rest' := Alone.rest cached.inv inOp cached.extra (cached.unlocked held) cached.work
    refine ⟨t', store, rest', reading.store ▸ files', fun b home => ?_⟩
    rw [cached.view b (home_env home) (held ▸ nothing b), view_of_empty (rest'.empty)]
  · obtain ⟨⟨⟩, m₁, begins, run⟩ := (Prog.run_bind_eq_ok _).mp run
    obtain ⟨_, m₂, body, run⟩ := (Prog.run_bind_eq_ok _).mp run
    obtain ⟨⟨⟩, _, ends, run⟩ := (Prog.run_bind_eq_ok _).mp run
    cases run
    obtain ⟨ℓ₁, inv₁, rfl⟩ := (rest.alone p).run
      (Q := fun _ ℓ₁ => ℓ₁ = ⟨true, [], [], fun _ => none, none⟩)
      (safe_beginOp (k := Prog.ret) rfl (by exact rfl)) begins
    obtain ⟨disk, lh⟩ := beginOp_same begins
    have start := Cached.start (h := fun _ => 0) inv₁ (lh ▸ rest.empty)
    have total := files.does c inode (.start m.disk) ⟨rfl, rfl, fun b h => absurd h (nothing b),
      fun b h => absurd h (nothing b)⟩
    rw [disk] at start
    obtain ⟨t', ℓ', h', store, inOp, cached, σ', K', shows, rfl, files'⟩ := start.run trivial
      (by decide) total (fun u hu b hb => home_env (hb.elim (hu.2 b) (hu.1 b))) (.inl rfl) keeps body
    obtain ⟨inv₂, committed⟩ := Alone.endOp cached.inv (fun _ _ _ => trivial) inOp cached.work ends
    refine ⟨t', store, ?_, shows.store ▸ files', fun b home => ?_⟩
    · exact inv₂.rest rfl cached.extra (cached.unlocked shows.held) cached.work
    · rw [committed b (home_env home), cached.view b (home_env home) (shows.held ▸ nothing b)]

theorem Inv.boot {σ : Store} (image : WellFormed L σ) (log : 0 < L.nlog) : Inv L (boot L σ) := by
  have booted := @booted_init σ L.logstart L.nlog log
  refine ⟨⟨booted.stateOk fun _ => rfl, booted.localOk, nofun, fun _ _ h => absurd rfl h, ?_⟩,
    image, fun _ _ => nofun⟩
  exact fun _ _ _ dev => absurd dev (show (0 : ℕ) ≠ 1 by decide)

theorem Reachable.inv {σ : Store} (image : WellFormed L σ) (log : 0 < L.nlog) {s : DiskSys}
    (reach : Reachable L σ s) : Inv L s := by
  induction reach with
  | boot => exact .boot image log
  | call p c before inode aligned returns ih => exact (ih.call inode aligned returns).1

def calls (L : Layout) (p : ℕ) (cs : List FsCall) (s : DiskSys) : Except (Halt Panic) DiskSys :=
  cs.foldlM (fun s c => s.call L p c) s

theorem Reachable.calls {σ : Store} {p : ℕ} {s s' : DiskSys} (before : Reachable L σ s)
    {cs : List FsCall} (inodes : ∀ c ∈ cs, c.inum < L.ninodes) (aligned : ∀ c ∈ cs, c.Aligned)
    (returns : s.calls L p cs = .ok s') : Reachable L σ s' := by
  induction cs generalizing s with
  | nil => exact Except.ok.inj returns ▸ before
  | cons c cs ih =>
    obtain ⟨here, rest⟩ := forall_mem_cons.mp inodes
    obtain ⟨logs, logs'⟩ := forall_mem_cons.mp aligned
    rw [DiskSys.calls, foldlM_cons] at returns
    cases hc : s.call L p c with
    | error e =>
      rw [hc] at returns
      cases returns
    | ok s₁ =>
      rw [hc] at returns
      exact ih (.call p c before here logs hc) rest logs' returns

end DiskSys

/-- Every valid buffer has the contents of its block on disk. -/
def Coherent (s : BState) : Prop :=
  ∀ i < NBUF, (s.cache.buf i).dev = ROOTDEV → (s.cache.buf i).valid = true →
    (s.cache.buf i).data = s.disk (s.cache.buf i).blockno

/-- In every state that calls reach the log is empty, and every valid buffer has the contents of its
block on disk, as has every buffer that `bread` returns. -/
theorem cache_coherent {L : Layout} {σ : Store} (image : BlockOwnership L σ) (full : NoHoles L σ)
    (log : 0 < L.nlog) {s : DiskSys} (reach : DiskSys.Reachable L σ s) :
    s.machine.log.lh.n = 0 ∧ s.machine.log.outstanding = 0 ∧ Coherent s.machine ∧
      ∀ p b i t, (Xv6.bread b).run (exec p) s.machine = (.ok i, t) →
        (t.cache.buf i).data = s.machine.disk b := by
  obtain ⟨rest, -⟩ := reach.inv (wellFormed_iff.mpr ⟨image, full⟩) log
  have empty := rest.empty
  have alone := rest.alone 0
  refine ⟨?_, ?_, fun i hi dev valid => ?_, fun p b i t returns => ?_⟩
  · rw [← LogHeader.length_blocks, empty, length_nil]
  · rw [rest.state.outstanding, rest.ops]
    rfl
  · rw [alone.contents rfl trivial hi ⟨dev, rfl⟩ valid nofun, view_of_empty empty]
  · obtain ⟨-, -, -, data⟩ := (rest.alone p).bread rfl trivial returns
    rw [data, view_of_empty empty]

def writeCalls : List FsCall :=
  [.create ROOTINO (Name.ofChars [97]) T_FILE 0 0, .writei 2 (fun _ => some 7) 0 5]

theorem cache_coherent_writeCalls :
    ∃ s, DiskSys.calls .mkfs 0 writeCalls (.boot .mkfs emptyImage) = .ok s ∧
      s.machine.log.lh.n = 0 ∧ Coherent s.machine := by
  have returns : (DiskSys.calls .mkfs 0 writeCalls (.boot .mkfs emptyImage)).isOk = true := by
    set_option maxRecDepth 10000 in decide
  cases h : DiskSys.calls .mkfs 0 writeCalls (.boot .mkfs emptyImage) with
  | error e =>
    rw [h] at returns
    cases returns
  | ok s =>
    have aligned : ∀ c ∈ writeCalls, c.Aligned := by
      refine forall_mem_cons.mpr ⟨trivial, forall_mem_singleton.mpr ?_⟩
      exact alignedFault_of_mapped (fun u => Option.some_ne_none _) _ _
    have reach := DiskSys.Reachable.boot.calls (by decide) aligned h
    obtain ⟨empty, -, coherent, -⟩ :=
      cache_coherent emptyImage_ownership emptyImage_noHoles (by decide) reach
    exact ⟨s, rfl, empty, coherent⟩

/-- A `writei` to an allocated block fails after three of five bytes: the log is empty and the buffer
of the block differs from the disk. -/
theorem incoherent_after_failed_copy :
    ∃ s, DiskSys.calls .mkfs 0
        (writeCalls ++ [.writei 2 (fun i => if i < 3 then some 9 else none) 0 5])
        (.boot .mkfs emptyImage) = .ok s ∧
      s.machine.log.lh.n = 0 ∧ s.machine.log.outstanding = 0 ∧ ¬ Coherent s.machine := by
  have facts : (match DiskSys.calls .mkfs 0
        (writeCalls ++ [.writei 2 (fun i => if i < 3 then some 9 else none) 0 5])
        (.boot .mkfs emptyImage) with
      | .ok s => decide (s.machine.log.lh.n = 0 ∧ s.machine.log.outstanding = 0 ∧
          (s.machine.cache.buf 7).dev = ROOTDEV ∧ (s.machine.cache.buf 7).valid = true ∧
          (s.machine.cache.buf 7).data.byte 0 = 9 ∧
          (s.machine.disk (s.machine.cache.buf 7).blockno).byte 0 = 7)
      | .error _ => false) = true := by
    decide +kernel
  split at facts
  case h_1 s returns =>
    obtain ⟨empty, idle, dev, valid, cached, disk⟩ := of_decide_eq_true facts
    refine ⟨s, returns, empty, idle, fun coherent => ?_⟩
    rw [coherent 7 (by decide) dev valid, disk] at cached
    cases cached
  case h_2 => cases facts

/-! ## The machine refines the block store -/

/-- In every state that calls reach, a call does to the inode table and to the blocks on disk what it
does to a store of blocks. -/
theorem machine_refines_store {L : Layout} {σ : Store} (image : BlockOwnership L σ)
    (full : NoHoles L σ) (log : 0 < L.nlog) {s s' : DiskSys} (reach : DiskSys.Reachable L σ s) {p : ℕ}
    {c : FsCall} (inode : c.inum < L.ninodes) (aligned : c.Aligned) (returns : s.call L p c = .ok s') :
    ∃ u : FsSys, FsSys.call L c ⟨s.machine.disk, s.icache⟩ = .ok u ∧ u.icache = s'.icache ∧
      ∀ b, L.Home b → s'.machine.disk b = u.store b :=
  ((reach.inv (wellFormed_iff.mpr ⟨image, full⟩) log).call inode aligned returns).2

theorem machine_refines_store_create :
    ∃ s' u, DiskSys.call .mkfs 0 (.create ROOTINO (Name.ofChars [97]) T_FILE 0 0)
        (.boot .mkfs emptyImage) = .ok s' ∧
      FsSys.call .mkfs (.create ROOTINO (Name.ofChars [97]) T_FILE 0 0) ⟨emptyImage, fun _ => none⟩ =
        .ok u ∧ u.icache = s'.icache := by
  have returns : (DiskSys.call .mkfs 0 (.create ROOTINO (Name.ofChars [97]) T_FILE 0 0)
      (.boot .mkfs emptyImage)).isOk = true := by
    set_option maxRecDepth 10000 in decide
  cases h : DiskSys.call .mkfs 0 (.create ROOTINO (Name.ofChars [97]) T_FILE 0 0)
      (.boot .mkfs emptyImage) with
  | error e =>
    rw [h] at returns
    cases returns
  | ok s' =>
    obtain ⟨u, store, same, -⟩ := machine_refines_store emptyImage_ownership emptyImage_noHoles
      (by decide) .boot (by decide) (show FsCall.Aligned (.create ROOTINO _ T_FILE 0 0) from trivial) h
    exact ⟨s', u, rfl, store, same⟩

end Xv6.Fs
