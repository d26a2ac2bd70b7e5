import Xv6.Block.GroupCommit
import Xv6.Block.Recovery

/-!
# Crash atomicity

The machine may stop at any point of `commit`, and again at any point of each `recover_from_log`
that follows.  Once a recovery completes, the disk holds either the file system before the
transaction or the one after it.
-/

namespace Xv6

open Function List BState

/-- A transaction in memory that `commit` is about to write to a disk with an empty log. -/
structure Transaction (s : BState) : Prop extends AtRest s where
  committing : s.log.committing = true
  fresh : s.tx = []
  header : LogHeader.count (s.disk s.log.start) = 0

/-- The disk after recoveries that were stopped after `ns` operations. -/
def interrupted (p start size : ℕ) (ns : List ℕ) (d : ℕ → Block) : ℕ → Block :=
  ns.foldl (fun d n => (recoverFromLog.stop (exec p) n (.init d start size)).disk) d

/-- The first recovery that is not stopped, after a commit stopped after `n` operations. -/
def recovered (p : ℕ) (s : BState) (n : ℕ) (ns : List ℕ) : Except (Halt Panic) Unit × BState :=
  recoverFromLog.run (exec p) (.init
    (interrupted p s.log.start s.log.size ns (commit.stop (exec p) n s).disk)
    s.log.start s.log.size)

/-- What the recovered machine `final` has to be, for the transaction of `s` and a commit that was
stopped in `stopped`. -/
structure CrashAtomic (s stopped final : BState) : Prop where
  header : LogHeader.count (final.disk s.log.start) = 0
  rest : ∀ b, b < s.log.start ∨ s.log.start + s.log.size ≤ b → b ∉ s.log.lh.blocks →
    final.disk b = s.disk b
  /-- All contents are old or all contents are new, … -/
  all : (∀ b ∈ s.log.lh.blocks, final.disk b = s.disk b) ∨
    ∀ b ∈ s.log.lh.blocks, final.disk b = s.latest b
  /-- … and new as soon as the header has been written. -/
  committed : (∃ w ∈ stopped.tx, w.1 = s.log.start) →
    ∀ b ∈ s.log.lh.blocks, final.disk b = s.latest b
  /-- The machine can go on. -/
  booted : Booted final

/-! ## The disk during a commit -/

theorem heads_nil {x : Block} (empty : LogHeader.count x = 0) : Heads x [] := by
  refine ⟨empty, fun lh => ?_⟩
  unfold LogHeader.read LogHeader.blocks
  rw [empty]
  rfl

section

variable {start size : ℕ} {blocks : List ℕ} {new base : ℕ → Block} {ws : List (ℕ × Block)}

section

variable (writes : CommitWrites start blocks new ws)
include writes

theorem CommitWrites.before (fits : blocks.length < size) (header : Heads (base start) [])
    (few : ws.length ≤ blocks.length) : Pending start size [] new base (applyWrites base ws) := by
  have addr : ∀ k w, ws[k]? = some w → w.1 = start + k + 1 ∧ k < blocks.length := by
    intro k w hw
    have lt := (List.getElem?_eq_some_iff.1 hw).1
    rw [(writes k w hw).addr]
    unfold commitAddr
    rw [if_pos (by omega)]
    exact ⟨rfl, by omega⟩
  refine ⟨?_, nofun, fun b hb _ => ?_⟩
  · rw [applyWrites_of_forall_ne fun k w hw => ?_]
    · exact header
    · have := (addr k w hw).1
      omega
  · refine applyWrites_of_forall_ne fun k w hw => ?_
    have := addr k w hw
    omega

theorem CommitWrites.rest (fits : blocks.length < size) {b : ℕ} (outside : b < start ∨ start + size ≤ b)
    (out : b ∉ blocks) : applyWrites base ws b = base b := by
  refine applyWrites_of_forall_ne fun k w hw eq => ?_
  rw [(writes k w hw).addr] at eq
  by_cases home : blocks.length < k ∧ k ≤ 2 * blocks.length
  · exact out (eq ▸ (commitAddr_home start home.1 home.2).2)
  · unfold commitAddr at eq
    split_ifs at eq <;> omega

theorem CommitWrites.bound {k : ℕ} {w : ℕ × Block}
    (hw : ws[k]? = some w) : k ≤ 2 * blocks.length + 1 := by
  have := writes k w hw
  unfold CommitWrite at this
  split_ifs at this <;> omega

theorem CommitWrites.after (fits : blocks.length < size)
    (outside : ∀ b ∈ blocks, b < start ∨ start + size ≤ b) (nodup : blocks.Nodup)
    (many : blocks.length < ws.length) :
    Recoverable start size blocks new base (applyWrites base ws) := by
  by_cases cleared : ws.length ≤ 2 * blocks.length + 1
  · refine .inl ⟨?_, fun j b entry => ?_, fun b hb out => writes.rest fits hb out⟩
    · obtain ⟨w, hw⟩ : ∃ w, ws[blocks.length]? = some w := ⟨_, getElem?_eq_getElem many⟩
      have write := writes _ _ hw
      unfold CommitWrite at write
      rw [if_neg (lt_irrefl _), if_pos rfl] at write
      rw [show w = (start, w.2) from Prod.ext write.1 rfl] at hw
      rw [applyWrites_last hw fun k' w' later hw' => ?_]
      · exact write.2
      · have lt := (List.getElem?_eq_some_iff.1 hw').1
        have := outside _ (commitAddr_home start later (by omega)).2
        rw [(writes k' w' hw').addr]
        omega
    · have lt := (List.getElem?_eq_some_iff.1 entry).1
      rw [writes.log outside fits lt (by omega), getD_eq_getElem?_getD, entry]
      rfl
  · refine .inr ⟨?_, nofun, fun b hb _ => ?_⟩
    · obtain ⟨w, hw⟩ : ∃ w, ws[2 * blocks.length + 1]? = some w :=
        ⟨_, getElem?_eq_getElem (by omega)⟩
      have write := writes _ _ hw
      unfold CommitWrite at write
      rw [if_neg (by omega), if_neg (by omega), if_neg (by omega)] at write
      rw [show w = (start, w.2) from Prod.ext write.2.1 rfl] at hw
      rw [applyWrites_last hw fun k' w' later hw' => ?_]
      · exact write.2.2
      · have := writes.bound hw'
        omega
    · rw [installed]
      split_ifs with mem
      · obtain ⟨j, entry⟩ := mem_iff_getElem?.1 mem
        have := (List.getElem?_eq_some_iff.1 entry).1
        exact writes.home outside fits nodup entry (by omega)
      · exact writes.rest fits hb mem

end

end

/-! ## Recovery, interrupted any number of times -/

theorem calm_init (p : ℕ) (d : ℕ → Block) (start size : ℕ) : Calm p (.init d start size) [] :=
  ⟨Bcache.wf_binit, nodup_nil, nofun, fun _ => rfl, fun _ _ => rfl,
    fun _ _ dev => absurd dev (show (0 : ℕ) ≠ 1 by decide), rfl⟩

section

variable {p start size : ℕ} {bs : List ℕ} {new base d : ℕ → Block}

theorem installed_nil (new base : ℕ → Block) : installed [] new base = base := by
  funext b
  rw [installed, if_neg not_mem_nil]

theorem Recoverable.stop (rec : Recoverable start size bs new base d)
    (outside : ∀ b ∈ bs, b < start ∨ start + size ≤ b) (fits : bs.length < size) (n : ℕ) :
    Recoverable start size bs new base
      (recoverFromLog.stop (exec p) n (.init d start size)).disk := by
  rcases rec with pending | clean
  · exact (total_recoverFromLog (calm_init p d start size) rfl outside fits pending).stop n
  · have := (total_recoverFromLog (calm_init p d start size) rfl
      (fun _ h => absurd h not_mem_nil) (Nat.zero_lt_of_lt fits) clean).stop n
    rw [Recoverable, installed_nil, or_self] at this
    exact .inr this

theorem Recoverable.interrupted (outside : ∀ b ∈ bs, b < start ∨ start + size ≤ b)
    (fits : bs.length < size) (ns : List ℕ) (rec : Recoverable start size bs new base d) :
    Recoverable start size bs new base (interrupted p start size ns d) := by
  induction ns generalizing d with
  | nil => exact rec
  | cons n ns ih => exact ih (rec.stop outside fits n)

theorem Recoverable.run (rec : Recoverable start size bs new base d)
    (outside : ∀ b ∈ bs, b < start ∨ start + size ≤ b) (fits : bs.length < size) :
    (recoverFromLog.run (exec p) (.init d start size)).1 = .ok () ∧
      Recovering p start [] (.init d start size)
        (recoverFromLog.run (exec p) (.init d start size)).2 ∧
      Pending start size [] new (installed bs new base)
        (recoverFromLog.run (exec p) (.init d start size)).2.disk := by
  rcases rec with pending | clean
  · obtain ⟨⟨⟩, ok, post⟩ | ⟨_, -, ⟨⟩⟩ :=
      (total_recoverFromLog (calm_init p d start size) rfl outside fits pending).run
    exact ⟨ok, post⟩
  · obtain ⟨⟨⟩, ok, post⟩ | ⟨_, -, ⟨⟩⟩ := (total_recoverFromLog (calm_init p d start size) rfl
      (fun _ h => absurd h not_mem_nil) (Nat.zero_lt_of_lt fits) clean).run
    rw [installed_nil] at post
    exact ⟨ok, post⟩

end

/-! ## Crashes during a commit -/

section

variable {s : BState}

def BOp.Commits (o : BOp) : Prop := o ≠ .endCommit

theorem bread_only (b : ℕ) : (bread b).Only BOp.Commits := by
  refine ⟨nofun, fun i => ⟨nofun, fun _ => ⟨nofun, fun valid => ?_⟩⟩⟩
  cases valid with
  | true => trivial
  | false => exact ⟨nofun, fun _ => trivial⟩

theorem bwrite_only (i : ℕ) : (bwrite i).Only BOp.Commits := by
  refine ⟨nofun, fun holding => ?_⟩
  cases holding with
  | true => exact ⟨nofun, fun _ => trivial⟩
  | false => exact ⟨nofun, nofun⟩

theorem brelse_only (i : ℕ) : (brelse i).Only BOp.Commits := by
  refine ⟨nofun, fun holding => ?_⟩
  cases holding with
  | true => exact ⟨nofun, fun _ => ⟨nofun, fun _ => trivial⟩⟩
  | false => exact ⟨nofun, nofun⟩

theorem logBlock_only (k : ℕ) : (logBlock k).Only BOp.Commits :=
  ⟨nofun, fun _ => (bread_only _).bind fun _ => ⟨nofun, fun _ => (bread_only _).bind fun _ =>
    ⟨nofun, fun _ => ⟨nofun, fun _ => (bwrite_only _).bind fun _ => (brelse_only _).bind fun _ =>
      brelse_only _⟩⟩⟩⟩

theorem installBlock_only (k : ℕ) : (installBlock false k).Only BOp.Commits :=
  ⟨nofun, fun _ => (bread_only _).bind fun _ => ⟨nofun, fun _ => (bread_only _).bind fun _ =>
    ⟨nofun, fun _ => ⟨nofun, fun _ => (bwrite_only _).bind fun _ => ⟨nofun, fun _ =>
      (brelse_only _).bind fun _ => brelse_only _⟩⟩⟩⟩⟩

theorem writeHead_only : writeHead.Only BOp.Commits :=
  ⟨nofun, fun _ => (bread_only _).bind fun _ => ⟨nofun, fun _ => ⟨nofun, fun _ => ⟨nofun, fun _ =>
    (bwrite_only _).bind fun _ => brelse_only _⟩⟩⟩⟩

theorem commit_only : commit.Only BOp.Commits := by
  refine ⟨nofun, fun lh => ?_⟩
  show (if lh.n > 0 then _ else _ : BProg Unit).Only _
  split
  · exact Prog.Only.bind ⟨nofun, fun _ => .loop logBlock_only _ _⟩ fun _ =>
      writeHead_only.bind fun _ =>
      Prog.Only.bind ⟨nofun, fun _ => .loop installBlock_only _ _⟩ fun _ =>
      Prog.Only.bind ⟨nofun, fun _ => ⟨nofun, fun _ => trivial⟩⟩ fun _ => writeHead_only
  · trivial

theorem exec_committing {p : ℕ} {o : BOp} {s s' : BState} {r : o.Res} (commits : o.Commits)
    (busy : s.log.committing = true) (step : exec p o s = .ok (r, s')) :
    s'.log.committing = true := by
  cases o with
  | bget b =>
    simp only [exec] at step
    split at step <;> cases step
    exact busy
  | acquiresleep i =>
    simp only [exec] at step
    split at step <;> cases step
    exact busy
  | beginOp =>
    simp only [exec] at step
    split at step
    · rename_i l hl
      rw [(Log.beginOp_some hl).1] at busy
      cases busy
    · cases step
  | endOp =>
    have blocked : s.log.endOp = .error .logCommitting := by
      unfold Log.endOp
      exact if_pos busy
    simp only [exec, blocked] at step
    cases step
  | endCommit => exact absurd rfl commits
  | logWrite i =>
    simp only [exec] at step
    split at step
    · rename_i new l hl
      obtain ⟨-, -, lh, rfl, -⟩ := Log.logWrite_ok hl
      cases step
      exact busy
    · cases step
  | panic e => cases step
  | _ =>
    cases step
    exact busy

def BState.work (s : BState) : Work := ⟨s.log.lh.blocks, s.latest, s.disk, 0, 0, false⟩

/-- The environment in which exactly the transaction of `s` is committed. -/
def BState.commitEnv (s : BState) : Env :=
  s.log.env fun base blocks new => base = s.disk ∧ blocks = s.log.lh.blocks ∧ new = s.latest

theorem Transaction.inv (tx : Transaction s) (p : ℕ) :
    BInv s.commitEnv (update (fun _ => Local.init) p (Local.init.setWork (some s.work)))
      s := by
  refine ⟨tx.stateOk fun idle => ?_, fun q => ?_, fun _ => worker_update rfl,
    single_update fun _ _ => rfl, fun i hi tracked dev valid _ _ => ?_⟩
  · rw [tx.committing] at idle
    cases idle
  · by_cases hq : q = p
    · subst hq
      rw [update_self]
      have ok : LocalOk s.commitEnv s q Local.init := tx.localOk q
      refine ⟨ok.lock, ok.held, ok.extra, ok.gets, ok.inOp, ok.mine, ?_⟩
      rintro w hw
      cases hw
      refine ⟨tx.committing, ⟨rfl, rfl, rfl⟩, rfl, tx.installed, by rw [tx.fresh]; rfl, ?_, ?_, rfl,
        tx.nodup, tx.home, ?_, fun h => absurd rfl h⟩
      · rw [tx.fresh]
        rfl
      · rw [tx.fresh]
        exact nofun
      · exact LogHeader.length_blocks _ ▸ tx.fits
    · rw [update_of_ne hq]
      exact tx.localOk q
  · exact tx.coherent i hi (tracked.resolve_left id) dev valid

theorem Transaction.stop (tx : Transaction s) (p n : ℕ) :
    (commit.stop (exec p) n s).disk =
        applyWrites s.disk (commit.stop (exec p) n s).tx ∧
      CommitWrites s.log.start s.log.lh.blocks s.latest (commit.stop (exec p) n s).tx := by
  have safe : BSafe s.commitEnv p commit (Local.init.setWork (some s.work)) fun _ _ => True :=
    safe_commit rfl rfl rfl rfl rfl (fun _ => trivial) fun _ => trivial
  obtain ⟨ℓ, inv⟩ := safe.stop_inv n (tx.inv p) (update_self ..)
  have busy : (commit.stop (exec p) n s).log.committing = true :=
    commit_only.stop (fun o s r s' => exec_committing) n tx.committing
  obtain ⟨w, ok⟩ := inv.work busy
  obtain ⟨base, blocks, new⟩ := ok.admitted
  have disk := ok.disk
  have writes := ok.writes
  rw [base] at disk
  rw [blocks, new] at writes
  exact ⟨disk, writes⟩

end

theorem Recovering.booted {p start size : ℕ} {d : ℕ → Block} {s : BState} (pos : 0 < size)
    (rec : Recovering p start [] (.init d start size) s) : Booted s := by
  have calm := rec.calm
  have log := rec.log
  have n : s.log.lh.n = 0 := by rw [← LogHeader.length_blocks, rec.blocks, length_nil]
  refine ⟨⟨calm.wf, calm.lock, fun i hi => ?_, calm.gets, rec.ops, ?_, ?_, fun b => ?_, ?_, ?_,
    rec.clean.2, ?_, fun i hi _ => calm.coherent i hi⟩, ?_, n⟩
  · rw [rec.blocks, count_nil, ite_self]
    exact calm.refs i hi
  · rw [log]
    rfl
  · rw [rec.blocks]
    exact nodup_nil
  · rw [rec.blocks, rec.clean.1]
  · rw [rec.blocks]
    exact nofun
  · rw [n, log]
    exact ⟨Nat.zero_le _, pos⟩
  · rw [rec.blocks]
    exact nofun
  · rw [log]
    rfl

/-- Wherever `commit` is stopped, and wherever the recoveries that follow are stopped, the next recovery
returns and leaves the file system before or after the transaction. -/
theorem crash_atomicity {s : BState} (tx : Transaction s) (p n : ℕ) (ns : List ℕ) :
    (recovered p s n ns).1 = .ok () ∧
      CrashAtomic s (commit.stop (exec p) n s) (recovered p s n ns).2 := by
  obtain ⟨commits, writes⟩ := tx.stop p n
  have fits : s.log.lh.blocks.length < s.log.size := LogHeader.length_blocks _ ▸ tx.fits.2
  have pos : 0 < s.log.size := Nat.zero_lt_of_lt fits
  have outside : ∀ b ∈ s.log.lh.blocks, b < s.log.start ∨ s.log.start + s.log.size ≤ b :=
    fun b hb => (tx.home b hb).2
  have none : ∀ b ∈ ([] : List ℕ), b < s.log.start ∨ s.log.start + s.log.size ≤ b :=
    fun b hb => absurd hb not_mem_nil
  by_cases few : (commit.stop (exec p) n s).tx.length ≤ s.log.lh.blocks.length
  · -- the header was not written: the old file system
    have old := writes.before fits (heads_nil tx.header) few
    rw [← commits] at old
    have possible : Recoverable s.log.start s.log.size [] s.latest s.disk _ := .inl old
    obtain ⟨ok, rec, clean⟩ := (possible.interrupted (p := p) none pos ns).run (p := p) none pos
    rw [installed_nil] at clean
    refine ⟨ok, clean.header.1, fun b hb _ => ?_, .inl fun b hb => ?_, ?_, rec.booted pos⟩
    · exact clean.rest b hb not_mem_nil
    · exact clean.rest b (outside b hb) not_mem_nil
    · rintro ⟨w, hw, eq⟩
      obtain ⟨k, hk⟩ := mem_iff_getElem?.1 hw
      have lt := (List.getElem?_eq_some_iff.1 hk).1
      rw [(writes k w hk).addr] at eq
      unfold commitAddr at eq
      rw [if_pos (by omega)] at eq
      omega
  · have new : Recoverable s.log.start s.log.size s.log.lh.blocks s.latest s.disk
        (applyWrites s.disk _) := writes.after fits outside tx.nodup (Nat.lt_of_not_le few)
    rw [← commits] at new
    obtain ⟨ok, rec, clean⟩ := (new.interrupted (p := p) outside fits ns).run (p := p) outside fits
    have all : ∀ b ∈ s.log.lh.blocks, (recovered p s n ns).2.disk b = s.latest b := fun b hb =>
      (clean.rest b (outside b hb) not_mem_nil).trans (if_pos hb)
    refine ⟨ok, clean.header.1, fun b hb out => ?_, .inr all, fun _ => all, rec.booted pos⟩
    exact (clean.rest b hb not_mem_nil).trans (if_neg out)

/-- Block 100 is logged with new contents and its commit is about to start. -/
def BState.oneBlock : BState :=
  ⟨fun _ _ => 0, Bcache.binit.modify 0 fun _ => ⟨true, ROOTDEV, 100, none, 1, fun _ => 7⟩,
    ⟨2, 30, 0, true, ⟨1, fun _ => 100⟩⟩, [], [], [100], fun _ _ => 7, 0, []⟩

theorem transaction_oneBlock : Transaction .oneBlock := by
  have buf : ∀ i, i ≠ 0 → oneBlock.cache.buf i = Bcache.emptyBuf :=
    fun i hi => update_of_ne hi ..
  refine ⟨⟨?_, fun i => ?_, by decide +kernel, rfl, rfl, rfl, by decide, fun _ => Iff.rfl, ?_,
    by decide, rfl, fun b hb => ⟨0, by decide, ?_, rfl, rfl⟩, fun i _ log dev => ?_⟩, rfl, rfl,
    by decide +kernel⟩
  · exact Bcache.wf_binit.recycle (i := 0) (b := 100)
      (f := fun _ => ⟨true, ROOTDEV, 100, none, 1, fun _ => 7⟩)
      (fun j _ h => absurd h.1 (show (0 : ℕ) ≠ 1 by decide)) fun b' h => h.2.symm
  · by_cases hi : i = 0
    · rw [hi]
      rfl
    · rw [buf i hi]
      rfl
  · exact fun b hb => mem_singleton.1 hb ▸ (by decide)
  · rw [mem_singleton.1 hb]
    exact ⟨rfl, rfl⟩
  · by_cases hi : i = 0
    · subst hi
      exact absurd (by decide : oneBlock.log.Home 100) log
    · rw [buf i hi] at dev
      exact absurd dev (show (0 : ℕ) ≠ 1 by decide)

/-- A crash after the header write and two interrupted recoveries. -/
theorem crash_atomicity_oneBlock :
    (commit.stop (exec 0) 40 .oneBlock).tx.map Prod.fst = [3, 2] ∧
      (recovered 0 .oneBlock 40 [7, 21]).1 = .ok () ∧
      CrashAtomic .oneBlock (commit.stop (exec 0) 40 .oneBlock)
        (recovered 0 .oneBlock 40 [7, 21]).2 :=
  ⟨by set_option maxRecDepth 10000 in decide, crash_atomicity transaction_oneBlock 0 40 [7, 21]⟩

end Xv6
