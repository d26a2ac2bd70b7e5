import Xv6.Proc.System

/-!
# Sleeping, killing and the pipe

What every run guarantees about sleeping processes, the flag `killed` and the bytes that go through the
pipe.  Where the code loses a wakeup or kills the wrong process, a run shows it, and the guarantee is
for the runs that avoid it.
-/

namespace Xv6.Proc

open Runs

open Conf (Move)

variable {N : ℕ} {care : Care} {oracle : List Bool} {c : Conf PSig State}

theorem Good.sleeping {ls : ℕ → Local} {s : State} (good : Good N care ls s) {q : ℕ}
    (sleeping : s.pstate q = .sleeping) : ∃ k, s.chan q = some k ∧ s.sleep q = some k := by
  obtain ⟨k, -, chan, sleep⟩ := (good.phases.fits q).of_sleeping sleeping
  exact ⟨k, chan, sleep⟩

theorem Good.not_ready {ls : ℕ → Local} {s : State} (good : Good N care ls s) {k : Chan} {l : Lock}
    (guard : k.guard = some l) (watches : care.Watches k) (free : s.locks l = none) {q : ℕ}
    (sleeping : s.pstate q = .sleeping) (chan : s.chan q = some k) : ¬ s.conds.Ready k := by
  intro ready
  obtain ⟨k', chan', sleep⟩ := good.sleeping sleeping
  cases chan.symm.trans chan'
  obtain ⟨h, held, -⟩ := good.monitor.owed k l guard watches ⟨⟨q, sleep⟩, ready⟩
  cases free.symm.trans (((good.locks h).owner l).mpr held)

/-! ## No lost wakeup -/

/-- Every `wakeup` that has returned has ended the sleeps on its channel that were in progress when it
started, and nobody sleeps in `wait` while a child is a zombie. -/
theorem no_lost_wakeup (run : Runs N care oracle c) :
    (∀ w snap, (w, snap) ∈ c.state.woke → ∀ q k, (q, k) ∈ snap → q ≠ w → k ≤ c.state.roused q) ∧
    (c.state.locks .wait = none → ∀ q r, c.state.pstate q = .sleeping →
      c.state.chan q = some (.proc q) → c.state.parent r = some q → c.state.pstate r ≠ .zombie) := by
  obtain ⟨ls, good⟩ := good run
  refine ⟨fun w snap ended q k mem other => good.wake.ended (w, snap) ended (q, k) mem other, ?_⟩
  intro free q r sleeping chan child zombie
  exact good.not_ready (k := .proc q) rfl nofun free sleeping chan ⟨r, child, zombie⟩

def reapScene : List (Move Act) :=
  [.start 0 .forkret, .run 0 9, .start 0 (.call .fork), .run 0 99, .start 1 .forkret, .run 1 9,
    .start 0 (.call (.wait 3)), .run 0 13, .start 1 (.call (.exit 7)), .run 1 99]

theorem no_lost_wakeup_reapScene :
    ∃ c, Runs 2 .none [] c ∧ (1, [(0, 1)]) ∈ c.state.woke ∧ 1 ≤ c.state.roused 0 := by
  have ⟨c, run, woke⟩ : ∃ c, Runs 2 .none [] c ∧ (1, [(0, 1)]) ∈ c.state.woke :=
    reaches reapScene (by decide)
  exact ⟨c, run, woke, (no_lost_wakeup run).1 1 [(0, 1)] woke 0 1 (by simp) (by decide)⟩

/-! ## The pipe's sleepers -/

/-- While the pipe's lock is free, nobody sleeps on a pipe that is ready, if no `pipewrite` finds itself
killed after it has put bytes without a `wakeup`. -/
theorem no_sleeper_on_ready_pipe (prompt : care.prompt = true) (run : Runs N care oracle c)
    (free : c.state.locks .pipe = none) {q : ℕ} (sleeping : c.state.pstate q = .sleeping) :
    (c.state.chan q = some .nread → c.state.pipe.Empty ∧ c.state.pipe.writeopen = true) ∧
    (c.state.chan q = some .nwrite → c.state.pipe.Full ∧ c.state.pipe.readopen = true) := by
  obtain ⟨ls, good⟩ := good run
  constructor
  · intro chan
    have ready := good.not_ready (k := .nread) rfl (fun _ => prompt) free sleeping chan
    simpa [Conds.Ready, State.conds] using ready
  · intro chan
    have ready := good.not_ready (k := .nwrite) rfl (by rintro ⟨⟩) free sleeping chan
    simpa [Conds.Ready, State.conds] using ready

def readScene : List (Move Act) :=
  [.start 0 .forkret, .run 0 9, .start 0 (.call (.piperead 3 1)), .run 0 10]

theorem no_sleeper_on_ready_pipe_readScene :
    ∃ c, Runs 1 ⟨true, false, false⟩ [] c ∧ c.state.pstate 0 = .sleeping ∧
      c.state.chan 0 = some .nread ∧ c.state.pipe.Empty ∧ c.state.pipe.writeopen = true := by
  have ⟨c, run, free, sleeping, chan⟩ : ∃ c, Runs 1 ⟨true, false, false⟩ [] c ∧
      c.state.locks .pipe = none ∧ c.state.pstate 0 = .sleeping ∧ c.state.chan 0 = some .nread :=
    reaches readScene (by decide)
  exact ⟨c, run, sleeping, chan, (no_sleeper_on_ready_pipe rfl run free sleeping).1 chan⟩

/-- Process 0 sleeps in `piperead`, process 1 puts a byte, and process 2 kills process 1 before it puts
the next one. -/
def strandScene : List (Move Act) :=
  [.start 0 .forkret, .run 0 9, .start 0 (.call .fork), .run 0 99, .start 0 (.call .fork), .run 0 99,
    .start 1 .forkret, .run 1 9, .start 2 .forkret, .run 2 9,
    .start 0 (.call (.piperead 3 1)), .run 0 10,
    .start 1 (.call (.pipewrite 5 [7, 8])), .run 1 9,
    .start 2 (.call (.kill 2)), .run 2 99, .run 1 99]

theorem reader_stranded :
    ∃ c, Runs 3 .none [] c ∧ c.state.locks .pipe = none ∧ (∀ q < 3, c.state.locks (.proc q) = none) ∧
      c.state.pstate 0 = .sleeping ∧ c.state.chan 0 = some .nread ∧ ¬ c.state.pipe.Empty :=
  reaches strandScene (by decide)

/-! ## Sleeping with the flag set -/

/-- A process that sleeps in a loop that tests `killed` has the flag clear, if nobody is killed between
its test of the flag and its sleep. -/
theorem killed_not_asleep (heed : care.heed = true) (run : Runs N care oracle c) {q : ℕ} {k : Chan}
    (sleeping : c.state.pstate q = .sleeping) (chan : c.state.chan q = some k)
    (loop : k.inLoop = true) : c.state.killed q = false := by
  obtain ⟨ls, good⟩ := good run
  obtain ⟨k', chan', sleep⟩ := good.sleeping sleeping
  cases chan.symm.trans chan'
  exact (good.heed heed).asleep q k sleep loop

theorem killed_not_asleep_readScene :
    ∃ c, Runs 1 ⟨false, true, false⟩ [] c ∧ c.state.pstate 0 = .sleeping ∧
      c.state.chan 0 = some .nread ∧ c.state.killed 0 = false := by
  have ⟨c, run, sleeping, chan⟩ : ∃ c, Runs 1 ⟨false, true, false⟩ [] c ∧
      c.state.pstate 0 = .sleeping ∧ c.state.chan 0 = some .nread :=
    reaches readScene (by decide)
  exact ⟨c, run, sleeping, chan, killed_not_asleep rfl run sleeping chan rfl⟩

/-- Process 1 finds `killed` clear in `piperead`, is killed, and goes to sleep. -/
def heedlessScene : List (Move Act) :=
  [.start 0 .forkret, .run 0 9, .start 0 (.call .fork), .run 0 99, .start 1 .forkret, .run 1 9,
    .start 1 (.call (.piperead 3 1)), .run 1 6, .start 0 (.call (.kill 2)), .run 0 99, .run 1 4]

theorem killed_asleep :
    ∃ c, Runs 2 .none [] c ∧ (∀ q < 2, c.state.locks (.proc q) = none) ∧
      c.state.pstate 1 = .sleeping ∧ c.state.chan 1 = some .nread ∧ c.state.killed 1 = true :=
  reaches heedlessScene (by decide)

/-! ## Who is killed -/

theorem traces_kill {pid : BitVec 32} {t : List ((o : Step) × o.Res)}
    (trace : (kill N pid).Traces t 0) : ∃ q, ⟨.killIf q pid, true⟩ ∈ t := by
  suffices ∀ k q t, (killFrom pid k q).Traces t 0 → ∃ q, ⟨.killIf q pid, true⟩ ∈ t from
    this N 0 t trace
  intro k
  induction k with
  | zero => exact fun q t trace => absurd trace.2 (by decide)
  | succ k ih =>
    rintro q _ ⟨_, _, rfl, found, _, rfl, _, _, rfl, rest⟩
    cases found
    · obtain ⟨q', mem⟩ := ih (q + 1) _ rest
      exact ⟨q', by simp [mem]⟩
    · exact ⟨q, by simp⟩

/-- If nobody calls `kill(0)`, a process with the flag set has been killed, or has faulted, since its
slot was taken, a process starts with the flag clear, and `kill` returns 0 only after it has found a
process with this pid. -/
theorem killed_only_by_kill (nonzero : care.nonzero = true) (run : Runs N care oracle c) :
    (∀ q, c.state.pstate q ≠ .unused → c.state.killed q = true →
      .kill (c.state.pid q) ∈ since c.state.events q ∨ .fault q ∈ since c.state.events q) ∧
    (∀ q, since c.state.events q = [] → c.state.killed q = false) ∧
    (∀ pid t, (kill N pid).Traces t 0 → ∃ q, ⟨.killIf q pid, true⟩ ∈ t) ∧
    (∀ p q pid s, care.Admits (.kill pid) →
      State.exec N care p (.killIf q pid) c.state = .ok (true, s) →
      c.state.pid q = pid ∧ c.state.pstate q ≠ .unused) := by
  obtain ⟨ls, good⟩ := good run
  have blame := good.blame nonzero
  refine ⟨blame.due, fun q fresh => ?_, fun _ _ => traces_kill, fun p q pid s admitted done => ?_⟩
  · by_cases free : c.state.pstate q = .unused
    · exact (blame.unused q free).2
    · by_contra killed
      have due := blame.due q free ((Bool.not_eq_false _).mp killed)
      simp [Blame.Due, State.blame, fresh] at due
  · have found : c.state.pid q = pid := by
      by_contra other
      simp [State.exec, Step.exec, State.careful, other] at done
    refine ⟨found, fun free => admitted nonzero ?_⟩
    rw [← found]
    exact (blame.unused q free).1

def killScene : List (Move Act) :=
  [.start 0 .forkret, .run 0 9, .start 0 (.call .fork), .run 0 99, .start 0 (.call (.kill 2)),
    .run 0 99]

theorem killed_only_by_kill_killScene :
    ∃ c, Runs 2 ⟨false, false, true⟩ [] c ∧ c.state.pstate 1 ≠ .unused ∧ c.state.killed 1 = true ∧
      (.kill (c.state.pid 1) ∈ since c.state.events 1 ∨ .fault 1 ∈ since c.state.events 1) := by
  have ⟨c, run, taken, killed⟩ : ∃ c, Runs 2 ⟨false, false, true⟩ [] c ∧
      c.state.pstate 1 ≠ .unused ∧ c.state.killed 1 = true :=
    reaches killScene (by decide)
  exact ⟨c, run, taken, killed, (killed_only_by_kill rfl run).1 1 taken killed⟩

def killZeroScene : List (Move Act) :=
  [.start 0 .forkret, .run 0 9, .start 0 (.call (.kill 0)), .run 0 99, .start 0 (.call .fork),
    .run 0 99]

theorem killed_at_birth :
    ∃ c, Runs 2 .none [] c ∧ c.state.pstate 1 = .runnable ∧ c.state.killed 1 = true ∧
      since c.state.events 1 = [] :=
  reaches killZeroScene (by decide)

/-! ## The bytes of the pipe -/

/-- The pipe never holds more than its size, what has been taken out of it is an initial part of what
has been put into it, and the bytes of a `pipewrite` that has not slept are contiguous. -/
theorem pipe_bounded_fifo (run : Runs N care oracle c) :
    (c.state.pipe.nwrite - c.state.pipe.nread).toNat ≤ PIPESIZE ∧
    c.state.taken <+: c.state.put.map Prod.snd ∧
    ∀ w, c.state.slept w = false → c.state.trade.Contiguous w := by
  obtain ⟨ls, good⟩ := good run
  exact ⟨RingOk.toNat_sub_le good.fifo.fifo (by decide), RingOk.fifo good.fifo.fifo,
    good.fifo.contiguous⟩

def pipeScene : List (Move Act) :=
  [.start 0 .forkret, .run 0 9, .start 0 (.call (.pipewrite 5 [7, 8])), .run 0 99,
    .start 0 (.call (.piperead 3 1)), .run 0 99]

theorem pipe_bounded_fifo_pipeScene :
    ∃ c, Runs 1 .none [] c ∧ c.state.taken = [7] ∧ c.state.taken <+: c.state.put.map Prod.snd := by
  have ⟨c, run, taken⟩ : ∃ c, Runs 1 .none [] c ∧ c.state.taken = [7] :=
    reaches pipeScene (by decide)
  exact ⟨c, run, taken, (pipe_bounded_fifo run).2.1⟩

/-! ## Locks and panics -/

/-- Outside the kernel a process holds no lock, and the only panic of any run is that of an exiting
`init`. -/
theorem locks_balanced (run : Runs N care oracle c) :
    (∀ q, c.prog q = none → c.state.noff q = 0 ∧ ∀ l, c.state.locks l ≠ some q) ∧
      ∀ e, c.Panics (State.exec N care) e → e = .initExiting := by
  refine ⟨fun q outside => ?_, fun e raised => (inv run).panics raised⟩
  obtain ⟨ls, good, ready⟩ := inv run
  have idle := ready q
  rw [outside] at idle
  obtain ⟨φ, -, rest⟩ := idle
  have holds := good.locks q
  rw [rest] at holds
  exact ⟨holds.count, fun l held => List.not_mem_nil ((holds.owner l).mp held)⟩

/-- Process 0 writes and reads the pipe and returns; process 1 stops in `pipewrite` with two locks. -/
def tradeScene : List (Move Act) :=
  [.start 0 .forkret, .run 0 9, .start 0 (.call .fork), .run 0 99, .start 1 .forkret, .run 1 9,
    .start 0 (.call (.pipewrite 5 [7, 8])), .run 0 99, .start 0 (.call (.piperead 3 1)), .run 0 99,
    .start 1 (.call (.pipewrite 5 [9])), .run 1 4]

theorem locks_balanced_tradeScene :
    ∃ c, Runs 2 .none [] c ∧ c.state.taken = [7] ∧ c.state.locks .pipe = some 1 ∧ c.state.noff 1 = 2 ∧
      c.state.noff 0 = 0 ∧ ∀ l, c.state.locks l ≠ some 0 := by
  have ⟨c, run, taken, inside, count, outside⟩ : ∃ c, Runs 2 .none [] c ∧ c.state.taken = [7] ∧
      c.state.locks .pipe = some 1 ∧ c.state.noff 1 = 2 ∧ (c.prog 0).isNone = true :=
    reaches tradeScene (by decide)
  exact ⟨c, run, taken, inside, count,
    (locks_balanced run).1 0 (Option.isNone_iff_eq_none.mp outside)⟩

end Xv6.Proc
