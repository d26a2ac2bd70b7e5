import Xv6.Block.Commit
import Xv6.Lib.Interleave

/-!
# Group commit

The system of all processes that use the log.  A process may change a buffer, log it or end its
operation only between its own `begin_op` and `end_op`.  Every call runs in separate steps, so the
commit of the last `end_op` is interleaved with everything the other processes do meanwhile.
-/

namespace Xv6

open List Local BState

/-- The log area does not contain block `b` of the file system. -/
def Log.Home (l : Log) (b : ℕ) : Prop := b < 2 ^ 32 ∧ (b < l.start ∨ l.start + l.size ≤ b)

instance (l : Log) (b : ℕ) : Decidable (l.Home b) := inferInstanceAs (Decidable (_ ∧ _))

/-- The calls process `p` may make in state `s`. -/
inductive Call (p : ℕ) (s : BState) : BProg Unit → Prop
  | bread (b : ℕ) : Call p s (bread b >>= fun _ => .ret ())
  | modify {i : ℕ} (d : Block) (locked : (s.cache.buf i).lock = some p) (inside : p ∈ s.ops)
      (home : s.log.Home (s.cache.buf i).blockno) : Call p s (atomic (.setData i d))
  | brelse {i : ℕ} (locked : (s.cache.buf i).lock = some p) : Call p s (brelse i)
  | beginOp (outside : p ∉ s.ops) : Call p s beginOp
  | logWrite {i : ℕ} (locked : (s.cache.buf i).lock = some p) (inside : p ∈ s.ops)
      (home : s.log.Home (s.cache.buf i).blockno) : Call p s (logWrite i)
  | endOp (inside : p ∈ s.ops) : Call p s endOp

/-- No process uses a buffer or the log, and the cache agrees with the log and the disk. -/
structure AtRest (s : BState) : Prop where
  wf : s.cache.WF
  unlocked : ∀ i, (s.cache.buf i).lock = none
  refs : ∀ i < NBUF, (s.cache.buf i).refcnt =
    if (s.cache.buf i).dev = ROOTDEV then s.log.lh.blocks.count (s.cache.buf i).blockno else 0
  gets : s.gets = []
  ops : s.ops = []
  outstanding : s.log.outstanding = 0
  nodup : s.log.lh.blocks.Nodup
  logged : ∀ b, b ∈ s.log.lh.blocks ↔ b ∈ s.logged
  home : ∀ b ∈ s.log.lh.blocks, s.log.Home b
  fits : s.log.lh.n ≤ LOGSIZE ∧ s.log.lh.n < s.log.size
  installed : s.installed = 0
  cached : ∀ b ∈ s.log.lh.blocks, ∃ i < NBUF, (s.cache.buf i).Caches b ∧
    (s.cache.buf i).valid = true ∧ (s.cache.buf i).data = s.latest b
  coherent : ∀ i < NBUF, ¬ s.log.Home (s.cache.buf i).blockno → (s.cache.buf i).dev = ROOTDEV →
    (s.cache.buf i).valid = true → (s.cache.buf i).data = s.disk (s.cache.buf i).blockno

/-- The state in which `initlog` returns: the log is empty. -/
structure Booted (s : BState) : Prop extends AtRest s where
  committing : s.log.committing = false
  empty : s.log.lh.n = 0

/-- No process is in a system call. -/
def Booted.conf (s : BState) : Conf BSig BState := ⟨s, fun _ => none⟩

/-- What the group-commit protocol guarantees in every state. -/
structure GroupCommit (s : BState) : Prop where
  /-- While a commit runs, no operation is outstanding, … -/
  exclusive : s.log.committing = true → s.log.outstanding = 0 ∧ s.ops = []
  /-- … none is admitted, … -/
  refuses : s.log.committing = true → s.log.beginOp = none
  /-- … and no `log_write` takes effect. -/
  frozen : s.log.committing = true → ∀ b r, s.log.logWrite b ≠ .ok r
  nodup : s.log.lh.blocks.Nodup
  /-- The header lists the blocks passed to `log_write` since the last commit. -/
  logged : ∀ b, b ∈ s.log.lh.blocks ↔ b ∈ s.logged
  /-- A logged block that is not installed yet has exactly one pin, so that its latest contents stay in
the cache. -/
  pinned : ∀ k b, s.log.lh.blocks[k]? = some b → s.installed ≤ k →
    ∃ i < NBUF, (s.cache.buf i).Caches b ∧ (s.cache.buf i).valid = true ∧
      (s.cache.buf i).data = s.latest b ∧
      (s.cache.buf i).refcnt = s.gets.countP (fun g => g.2 = i) + 1 ∧
      ∀ b' j c, s.cache.bget b' = some (j, c) →
        (c.buf i).Caches b ∧ (c.buf i).valid = true ∧ (c.buf i).data = s.latest b
  /-- A buffer of any other block has no pin. -/
  unpinned : ∀ i < NBUF, (s.cache.buf i).dev = ROOTDEV →
    (∀ k, s.log.lh.blocks[k]? = some (s.cache.buf i).blockno → k < s.installed) →
    (s.cache.buf i).refcnt = s.gets.countP fun g => g.2 = i
  /-- `write_log` copies the latest contents. -/
  copies : s.log.committing = true → ∀ k b, s.log.lh.blocks[k]? = some b → k < s.tx.length →
    s.tx[k]? = some (s.log.start + k + 1, s.latest b)
  /-- A block that has lost its pin during the commit is on the disk. -/
  home : s.log.committing = true → ∀ k b, s.log.lh.blocks[k]? = some b → k < s.installed →
    s.disk b = s.latest b
  /-- After the commit the log is empty and no buffer is pinned. -/
  released : s.log.committing = false → s.ops = [] →
    s.log.lh.n = 0 ∧ ∀ i < NBUF, (s.cache.buf i).refcnt = s.gets.countP fun g => g.2 = i

/-! ## The invariant gives the guarantees -/

section

variable {E : Env} {ls : ℕ → Local} {s : BState}

theorem BInv.work (inv : BInv E ls s) (busy : s.log.committing = true) : ∃ w, WorkOk E s w := by
  obtain ⟨q, w, hw⟩ := inv.worker busy
  exact ⟨w, (inv.locals q).work w hw⟩

theorem Bcache.bget_keeps {c c' : Bcache} (wf : c.WF) {b j i : ℕ} (h : c.bget b = some (j, c'))
    (used : (c.buf i).refcnt ≠ 0) : (c'.buf i).Same (c.buf i) := by
  obtain ⟨-, ⟨-, rfl⟩ | ⟨-, zero, rfl⟩⟩ := Bcache.bget_cases wf h
  · exact (same_refcnt c j (· + 1) i).1
  · rw [Bcache.modify_buf_of_ne _ _ (by rintro rfl; exact used zero)]
    exact ⟨rfl, rfl, rfl, rfl⟩

theorem mem_pins {k b : ℕ} (entry : s.log.lh.blocks[k]? = some b) (hk : s.installed ≤ k) :
    b ∈ s.pins := by
  refine mem_of_getElem? (i := k - s.installed) ?_
  rw [pins, getElem?_drop, Nat.add_sub_cancel' hk, entry]

theorem BInv.groupCommit (inv : BInv E ls s) : GroupCommit s := by
  have st := inv.state
  have outstanding : s.log.committing = true → s.log.outstanding = 0 := by
    intro busy
    rw [st.outstanding, st.quiet busy]
    rfl
  refine ⟨fun busy => ⟨outstanding busy, st.quiet busy⟩, fun busy => ?_, fun busy b r ok => ?_,
    st.lhNodup, st.logged, fun k b entry hk => ?_, fun i hi dev done => ?_,
    fun busy k b entry hk => ?_, fun busy k b entry hk => ?_, fun idle none => ?_⟩
  · unfold Log.beginOp
    rw [if_pos busy]
  · have := outstanding busy
    unfold Log.logWrite at ok
    split at ok
    · cases ok
    · rw [if_pos (by omega)] at ok
      cases ok
  · have mem := mem_pins entry hk
    obtain ⟨i, hi, hc, hv, hd⟩ := st.pinned b mem
    have refs := st.refs i hi
    have nodup : s.pins.Nodup := st.lhNodup.sublist (drop_sublist ..)
    rw [if_pos hc.1, hc.2, nodup.count, if_pos mem] at refs
    refine ⟨i, hi, hc, hv, hd, refs, fun b' j c hb' => ?_⟩
    have same := Bcache.bget_keeps st.wf hb' (i := i) (by omega)
    exact ⟨same.caches hc, same.2.2.1.trans hv, same.2.2.2.trans hd⟩
  · rw [st.refs i hi, if_pos dev, count_eq_zero_of_not_mem, add_zero]
    intro mem
    obtain ⟨k, entry⟩ := mem_iff_getElem?.1 mem
    rw [pins, getElem?_drop] at entry
    have := done _ entry
    omega
  · obtain ⟨w, ok⟩ := inv.work busy
    have blocks := ok.blocks
    cases cleared : w.cleared with
    | true =>
      rw [cleared, if_pos rfl] at blocks
      rw [blocks] at entry
      cases entry
    | false =>
      rw [cleared, if_neg (by decide)] at blocks
      rw [blocks] at entry
      have write := ok.writes k _ (getElem?_eq_getElem hk)
      unfold CommitWrite at write
      rw [if_pos (List.getElem?_eq_some_iff.1 entry).1, List.getD_eq_getElem?_getD, entry] at write
      rw [getElem?_eq_getElem hk, write, st.start, ok.latest]
      rfl
  · obtain ⟨w, ok⟩ := inv.work busy
    have blocks := ok.blocks
    cases cleared : w.cleared with
    | true =>
      rw [cleared, if_pos rfl] at blocks
      rw [blocks] at entry
      cases entry
    | false =>
      rw [cleared, if_neg (by decide)] at blocks
      rw [blocks] at entry
      rw [ok.installed] at hk
      have progress := ok.progress (by omega)
      rw [ok.disk, ok.latest]
      exact ok.writes.home (fun b hb => (ok.home b hb).2) ok.fits.2 ok.nodup entry
        (by rw [ok.wrote]; omega)
  · have n := st.empty idle none
    refine ⟨n, fun i hi => ?_⟩
    have pins : s.pins = [] := by
      rw [pins, eq_nil_of_length_eq_zero (s.log.lh.length_blocks.trans n), drop_nil]
    rw [st.refs i hi, pins, count_nil, ite_self, add_zero]

/-! ## Every call is safe -/

/-- A process between two calls has read every buffer it holds, and a buffer it has changed belongs to
the file system. -/
structure Local.Idle (E : Env) (ℓ : Local) : Prop where
  extra : ℓ.extra = []
  work : ℓ.work = none
  held : ∀ i h, ℓ.held i = some h →
    (∃ d, h.known = .data d) ∧ (h.dirty = true → E.Home h.blockno)

theorem Local.Idle.hold {ℓ : Local} (idle : ℓ.Idle E) {i b : ℕ} {d : Block} {dty : Bool}
    (home : dty = true → E.Home b) : (ℓ.hold i ⟨b, .data d, dty⟩).Idle E := by
  refine ⟨idle.extra, idle.work, fun j h hj => ?_⟩
  by_cases hji : j = i
  · subst hji
    rw [hold_self] at hj
    cases hj
    exact ⟨⟨d, rfl⟩, home⟩
  · rw [hold_of_ne _ _ hji] at hj
    exact idle.held j h hj

theorem Local.Idle.logs {ℓ : Local} (idle : ℓ.Idle E) (i b : ℕ) (d : Block) : (ℓ.logs i b d).Idle E :=
  have hold : (ℓ.hold i ⟨b, .data d, false⟩).Idle E := idle.hold nofun
  ⟨hold.extra, hold.work, hold.held⟩

theorem Local.Idle.unhold {ℓ : Local} (idle : ℓ.Idle E) (i : ℕ) : (ℓ.unhold i).Idle E := by
  refine ⟨idle.extra, idle.work, fun j h hj => ?_⟩
  by_cases hji : j = i
  · subst hji
    rw [unhold_self] at hj
    cases hj
  · rw [unhold_of_ne _ hji] at hj
    exact idle.held j h hj

theorem BInv.held_of_lock (inv : BInv E ls s) {p i : ℕ} (idle : (ls p).Idle E)
    (locked : (s.cache.buf i).lock = some p) :
    ∃ d dty, (ls p).held i = some ⟨(s.cache.buf i).blockno, .data d, dty⟩ := by
  obtain ⟨⟨b, kn, dty⟩, hh⟩ := Option.isSome_iff_exists.1 (((inv.locals p).lock i).1 locked)
  obtain ⟨⟨d, rfl⟩, -⟩ := idle.held i _ hh
  obtain ⟨-, hc, -⟩ := (inv.locals p).held i _ hh
  exact ⟨d, dty, by rw [hh, hc.2]⟩

theorem BInv.home (inv : BInv E ls s) {b : ℕ} (home : s.log.Home b) : E.Home b := by
  unfold Log.Home at home
  rw [inv.state.start, inv.state.size] at home
  exact home

theorem Call.safe (lax : ¬ E.strict) (admits : ∀ base blocks new, E.T base blocks new) {p : ℕ}
    {body : BProg Unit} (inv : BInv E ls s) (idle : (ls p).Idle E) (call : Call p s body) :
    BSafe E p body (ls p) fun _ ℓ => ℓ.Idle E := by
  cases call with
  | bread b => exact Prog.Safe.bind (safe_bread fun i d _ _ => idle.hold nofun)
  | modify d locked inside home =>
    obtain ⟨d', dty, held⟩ := inv.held_of_lock idle locked
    exact safe_setData ((inv.locals p).inOp.1 inside) held (idle.hold fun _ => inv.home home)
  | @brelse i locked =>
    obtain ⟨d, dty, held⟩ := inv.held_of_lock idle locked
    refine safe_brelse held (fun tracked dirty => ?_) (idle.unhold i)
    exact absurd ((idle.held i _ held).2 dirty) (tracked.resolve_left lax)
  | beginOp outside =>
    refine safe_beginOp ?_ ⟨idle.extra, idle.work, idle.held⟩
    have := mt (inv.locals p).inOp.2 outside
    simpa using this
  | logWrite locked inside home =>
    obtain ⟨d, dty, held⟩ := inv.held_of_lock idle locked
    exact safe_logWrite ((inv.locals p).inOp.1 inside) held (inv.home home) (idle.logs _ _ _)
  | endOp inside =>
    exact endOp_safe ((inv.locals p).inOp.1 inside) idle.work admits
      ⟨idle.extra, idle.work, idle.held⟩

end

section AtRest

variable {T : (ℕ → Block) → List ℕ → (ℕ → Block) → Prop} {strict : Prop} {s : BState}

def Log.env (l : Log) (T : (ℕ → Block) → List ℕ → (ℕ → Block) → Prop) : Env :=
  ⟨l.start, l.size, T, False⟩

theorem AtRest.stateOk (rest : AtRest s) (empty : s.log.committing = false → s.log.lh.n = 0) :
    StateOk ⟨s.log.start, s.log.size, T, strict⟩ s := by
  have pins : s.pins = s.log.lh.blocks := by rw [pins, rest.installed, drop_zero]
  refine ⟨rfl, rfl, rest.wf, fun i hi => ?_, ?_, ?_, fun _ => rest.ops, rest.nodup, rest.logged,
    rest.home, rest.fits, fun _ => rest.installed, by rw [pins]; exact rest.cached,
    fun idle _ => empty idle⟩
  · rw [rest.refs i hi, rest.gets, pins, countP_nil, zero_add]
  · rw [rest.ops]
    exact nodup_nil
  · rw [rest.outstanding, rest.ops]
    rfl

theorem AtRest.localOk (rest : AtRest s) (q : ℕ) :
    LocalOk ⟨s.log.start, s.log.size, T, strict⟩ s q init := by
  refine ⟨fun i => ?_, nofun, nofun, fun i => ?_, ?_, nofun, nofun⟩
  · rw [rest.unlocked i]
    simp [init]
  · rw [rest.gets]
    rfl
  · rw [rest.ops]
    simp [init]

theorem Booted.inv (boot : Booted s) : BInv (s.log.env T) (fun _ => init) s := by
  refine ⟨boot.stateOk fun _ => boot.empty, boot.localOk, fun busy => ?_, fun _ _ h => absurd rfl h,
    fun i hi tracked dev valid _ _ => ?_⟩
  · rw [boot.committing] at busy
    cases busy
  · exact boot.coherent i hi (tracked.resolve_left id) dev valid

end AtRest

/-- In every state of every interleaving the guarantees of the log hold, and the panics for a misuse of
it are unreachable. -/
theorem group_commit {s₀ : BState} (boot : Booted s₀) {c : Conf BSig BState}
    (run : Conf.Reachable exec Call (Booted.conf s₀) c) :
    GroupCommit c.state ∧ ¬ Conf.Panics exec c .logCommitting ∧
      ¬ Conf.Panics exec c .logWriteOutsideTrans := by
  have start : Conf.Inv exec (BInv (s₀.log.env fun _ _ _ => True)) Allowed
      (Local.Idle (s₀.log.env fun _ _ _ => True)) (Booted.conf s₀) :=
    ⟨_, boot.inv, fun _ => ⟨rfl, rfl, nofun⟩⟩
  have inv := start.reachable
    (fun ls s p body inv idle call => ⟨ls p, by rwa [Function.update_eq_self],
      Call.safe id (fun _ _ _ => trivial) inv idle call⟩) run
  refine ⟨?_, fun panics => ?_, fun panics => ?_⟩
  · obtain ⟨ls, inv, -⟩ := inv
    exact inv.groupCommit
  · rcases inv.panics panics with h | h <;> cases h
  · rcases inv.panics panics with h | h <;> cases h

def BState.init (disk : ℕ → Block) (start size : ℕ) : BState :=
  ⟨disk, .binit, ⟨start, size, 0, false, ⟨0, fun _ => 0⟩⟩, [], [], [], disk, 0, []⟩

theorem booted_init (disk : ℕ → Block) {start size : ℕ} (pos : 0 < size) :
    Booted (.init disk start size) := by
  refine ⟨⟨Bcache.wf_binit, fun _ => rfl, fun _ _ => rfl, rfl, rfl, rfl, nodup_nil,
    fun _ => Iff.rfl, nofun, ⟨Nat.zero_le _, pos⟩, rfl, nofun, fun _ _ _ dev => ?_⟩, rfl, rfl⟩
  exact absurd dev (show (0 : ℕ) ≠ 1 by decide)

/-- Two operations share a commit: the second one logs block 100 and ends last. -/
theorem group_commit_two_operations :
    ∃ c, Conf.Reachable exec Call (Booted.conf (.init (fun _ _ => 0) 2 30)) c ∧
      c.state.tx.map Prod.fst = [3, 2, 100, 2] ∧ GroupCommit c.state ∧
      ¬ Conf.Panics exec c .logCommitting ∧
      ¬ Conf.Panics exec c .logWriteOutsideTrans := by
  have begin₀ : Conf.Reachable exec Call (Booted.conf (.init (fun _ _ => 0) 2 30)) _ :=
    .call (p := 0) rfl (.beginOp (by decide)) (by decide +kernel)
  have begin₁ := begin₀.trans (.call (p := 1) rfl (.beginOp (by decide)) (by decide +kernel))
  have read := begin₁.trans (.call (p := 1) rfl (.bread 100) (by decide +kernel))
  have write := read.trans (.call (p := 1) rfl
    (.modify (i := 0) (fun _ => 7) (by decide +kernel) (by decide +kernel) (by decide +kernel))
    (by decide +kernel))
  have log := write.trans (.call (p := 1) rfl
    (.logWrite (i := 0) (by decide +kernel) (by decide +kernel) (by decide +kernel))
    (by decide +kernel))
  have release := log.trans (.call (p := 1) rfl (.brelse (i := 0) (by decide +kernel))
    (by decide +kernel))
  have end₀ := release.trans (.call (p := 0) rfl (.endOp (by decide +kernel)) (by decide +kernel))
  have end₁ := end₀.trans (.call (p := 1) rfl (.endOp (by decide +kernel)) (by decide +kernel))
  exact ⟨_, end₁, by decide +kernel, group_commit (booted_init _ (by decide)) end₁⟩

/-- In every interleaving no two buffers hold the same block, a locked buffer is counted as in use by
its holder, and the only panics are those for too few buffers and for too big a transaction. -/
theorem buffers_in_use {s₀ : BState} (boot : Booted s₀) {c : Conf BSig BState}
    (run : Conf.Reachable exec Call (Booted.conf s₀) c) :
    c.state.cache.WF ∧
      (∀ i p, (c.state.cache.buf i).lock = some p →
        i < NBUF ∧ (p, i) ∈ c.state.gets ∧ 0 < (c.state.cache.buf i).refcnt) ∧
      ∀ e, Conf.Panics exec c e → e = .bgetNoBuffers ∨ e = .tooBigTransaction := by
  have start : Conf.Inv exec (BInv (s₀.log.env fun _ _ _ => True)) Allowed
      (Local.Idle (s₀.log.env fun _ _ _ => True)) (Booted.conf s₀) :=
    ⟨_, boot.inv, fun _ => ⟨rfl, rfl, nofun⟩⟩
  have safe := start.reachable
    (fun ls s p body inv idle call => ⟨ls p, by rwa [Function.update_eq_self],
      Call.safe id (fun _ _ _ => trivial) inv idle call⟩) run
  refine ⟨?_, fun i p locked => ?_, fun e raised => safe.panics raised⟩
  · obtain ⟨ls, inv, -⟩ := safe
    exact inv.state.wf
  · obtain ⟨ls, inv, -⟩ := safe
    have mine := inv.locals p
    obtain ⟨h, held⟩ := Option.isSome_iff_exists.mp ((mine.lock i).mp locked)
    have inside := (mine.held i h held).1
    have count := mine.gets i
    rw [held, Option.elim_some] at count
    have got : (p, i) ∈ c.state.gets := count_pos_iff.mp (by omega)
    refine ⟨inside, got, ?_⟩
    rw [inv.state.refs i inside]
    exact Nat.add_pos_left (countP_pos_iff.mpr ⟨_, got, decide_eq_true rfl⟩) _

theorem buffers_in_use_bread :
    ∃ c, Conf.Reachable exec Call (Booted.conf (.init (fun _ _ => 0) 2 30)) c ∧
      (c.state.cache.buf 0).lock = some 1 ∧ (1, 0) ∈ c.state.gets := by
  have read : Conf.Reachable exec Call (Booted.conf (.init (fun _ _ => 0) 2 30)) _ :=
    .call (p := 1) rfl (.bread 100) (by decide +kernel)
  refine ⟨_, read, by decide +kernel, ?_⟩
  exact ((buffers_in_use (booted_init _ (by decide)) read).2.1 0 1 (by decide +kernel)).2.1

end Xv6
