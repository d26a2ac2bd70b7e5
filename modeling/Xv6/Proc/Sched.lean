import Xv6.Proc.System

/-!
# The CPUs

The processes of `proc.c` on the CPUs that execute them.  A CPU is in the loop of `scheduler` as long as
its `c->proc` is zero.  When it finds a runnable process it takes `p->lock` and switches to the process,
which releases the lock; a process that gives up the CPU takes `p->lock` and switches back.
-/

namespace Xv6.Proc

open Step

open Function (update update_eq_self update_of_ne update_self)

variable {o : Step}

/-- The state of the kernel and of its CPUs. -/
structure Machine where
  kernel : State
  proc : ℕ → Option ℕ
  /-- The CPU that a process was switched to last. -/
  cpu : ℕ → ℕ
  /-- The CPUs whose schedulers find the processes to come. -/
  finders : List ℕ

/-- One step of process `p`, which resumes on a free CPU. -/
def Machine.exec (N ncpu : ℕ) (care : Care) (p : ℕ) : Handler PSig Machine Panic := fun o m =>
  match State.exec N care p o m.kernel with
  | .error e => .error e
  | .ok (r, s) =>
      match o with
      | .resume =>
          match m.finders with
          | [] => .error .blocked
          | c :: finders =>
              if c < ncpu ∧ m.proc c = none then
                .ok (r, ⟨s, update m.proc c (some p), update m.cpu p c, finders⟩)
              else .error .blocked
      | .swtch => .ok (r, { m with kernel := s, proc := update m.proc (m.cpu p) none })
      | _ => .ok (r, { m with kernel := s })

/-- The configuration after boot, with all CPUs in `scheduler`. -/
def Machine.boot (oracle : List Bool) (finders : List ℕ) : Conf PSig Machine :=
  ⟨⟨(Proc.boot oracle).state, fun _ => none, fun _ => 0, finders⟩, fun _ => none⟩

/-- The programs of the kernel. -/
def Machine.Start (N : ℕ) (care : Care) (p : ℕ) (m : Machine) : PProg Unit → Prop :=
  Proc.Start N care p m.kernel

/-- The states that the processes on the CPUs can reach. -/
abbrev Machine.Runs (N ncpu : ℕ) (care : Care) (oracle : List Bool) (finders : List ℕ) :
    Conf PSig Machine → Prop :=
  Conf.Reachable (Machine.exec N ncpu care) (Machine.Start N care) (Machine.boot oracle finders)

variable {N ncpu : ℕ} {care : Care} {p q : ℕ} {ls : ℕ → Local} {s : State} {m : Machine}
  {oracle : List Bool} {finders : List ℕ}

/-! ## Who is on a CPU -/

/-- Process `p` executes the kernel's or the user's code, or is on its way to the scheduler. -/
def Local.OnCpu (p : ℕ) (ℓ : Local) : Prop :=
  ℓ.phase = .run ∨ (∃ c, ℓ.phase = .falling c) ∨ .proc p ∈ ℓ.held

/-- A CPU has `c->proc = p` if and only if it executes `p`. -/
structure CpusOk (ncpu : ℕ) (ls : ℕ → Local) (proc : ℕ → Option ℕ) (cpu : ℕ → ℕ) : Prop where
  executes : ∀ c p, proc c = some p → c < ncpu ∧ cpu p = c ∧ (ls p).OnCpu p
  executed : ∀ p, (ls p).OnCpu p → proc (cpu p) = some p

namespace CpusOk

variable {ℓ : Local} {proc : ℕ → Option ℕ} {cpu : ℕ → ℕ}

theorem keep (ok : CpusOk ncpu ls proc cpu) (same : ℓ.OnCpu p ↔ (ls p).OnCpu p) :
    CpusOk ncpu (update ls p ℓ) proc cpu := by
  have key (q : ℕ) : (update ls p ℓ q).OnCpu q ↔ (ls q).OnCpu q := by
    by_cases hq : q = p
    · subst hq
      rwa [update_self]
    · rw [update_of_ne hq]
  constructor
  · intro c q hq
    rw [key]
    exact ok.executes c q hq
  · intro q hq
    rw [key] at hq
    exact ok.executed q hq

theorem swtch (ok : CpusOk ncpu ls proc cpu) (own : .proc p ∈ (ls p).held) (left : ¬ℓ.OnCpu p) :
    CpusOk ncpu (update ls p ℓ) (update proc (cpu p) none) cpu := by
  have mine := ok.executed p (.inr (.inr own))
  constructor
  · intro c q hq
    by_cases hc : c = cpu p
    · subst hc
      rw [update_self] at hq
      cases hq
    rw [update_of_ne hc] at hq
    have other : q ≠ p := by
      rintro rfl
      exact hc (ok.executes c q hq).2.1.symm
    rw [update_of_ne other]
    exact ok.executes c q hq
  · intro q hq
    have other : q ≠ p := by
      rintro rfl
      rw [update_self] at hq
      exact left hq
    rw [update_of_ne other] at hq
    have theirs := ok.executed q hq
    have apart : cpu q ≠ cpu p := by
      intro e
      rw [e, mine] at theirs
      exact other (Option.some.inj theirs).symm
    rw [update_of_ne apart]
    exact theirs

theorem resume (ok : CpusOk ncpu ls proc cpu) (away : ¬(ls p).OnCpu p) (on : ℓ.OnCpu p) {c : ℕ}
    (present : c < ncpu) (idle : proc c = none) :
    CpusOk ncpu (update ls p ℓ) (update proc c (some p))
      (update cpu p c) := by
  constructor
  · intro c' q hq
    by_cases hc : c' = c
    · subst hc
      rw [update_self] at hq
      cases hq
      rw [update_self, update_self]
      exact ⟨present, rfl, on⟩
    · rw [update_of_ne hc] at hq
      have other : q ≠ p := by
        rintro rfl
        exact away (ok.executes c' q hq).2.2
      rw [update_of_ne other, update_of_ne other]
      exact ok.executes c' q hq
  · intro q hq
    by_cases other : q = p
    · subst other
      rw [update_self, update_self]
    · rw [update_of_ne other] at hq
      have theirs := ok.executed q hq
      have busy : cpu q ≠ c := by
        rintro rfl
        rw [idle] at theirs
        cases theirs
      rw [update_of_ne other, update_of_ne busy]
      exact theirs

theorem still {r : o.Res} (phase : ((ls p).next p o r).phase = (ls p).phase)
    (held : .proc p ∈ ((ls p).next p o r).held ↔ .proc p ∈ (ls p).held) :
    ((ls p).next p o r).OnCpu p ↔ (ls p).OnCpu p := by
  rw [Local.OnCpu, Local.OnCpu, phase, held]

theorem stays (phases : PhasesOk N ls s.rota) (allowed : (ls p).Allows N care p o) (swtch : o ≠ .swtch)
    (resume : o ≠ .resume) (r : o.Res) : ((ls p).next p o r).OnCpu p ↔ (ls p).OnCpu p := by
  have on {ℓ : Local} (h : ℓ.phase = .run) : ℓ.OnCpu p := .inl h
  cases o with
  | swtch => exact absurd rfl swtch
  | resume => exact absurd rfl resume
  | acquire l =>
    by_cases own : l = .proc p
    · have run := allowed.2.2 own
      exact iff_of_true (on run) (on run)
    · exact still rfl (by simp [Ne.symm own])
  | release l =>
    by_cases own : l = .proc p
    · have run := allowed.2.2.2.2 own
      exact iff_of_true (on run) (on run)
    · exact still rfl (List.mem_erase_of_ne (Ne.symm own))
  | releaseFor l c => exact iff_of_true (.inr (.inl ⟨c, rfl⟩)) (on allowed.2.2.2.1)
  | sleeping c =>
    have own := phases.own p c allowed
    exact iff_of_true (.inr (.inr own)) (.inr (.inr own))
  | yielding => exact iff_of_true (.inr (.inr allowed.1)) (.inr (.inr allowed.1))
  | zombie status => exact iff_of_true (.inr (.inr allowed.2.1)) (.inr (.inr allowed.2.1))
  | _ => exact still rfl Iff.rfl

theorem step (ok : CpusOk ncpu ls m.proc m.cpu) (phases : PhasesOk N ls m.kernel.rota)
    (allowed : (ls p).Allows N care p o) :
    Halt.Post (fun _ => True)
      (fun r m' => CpusOk ncpu (update ls p ((ls p).next p o r)) m'.proc m'.cpu)
      (Machine.exec N ncpu care p o m) := by
  rw [Machine.exec]
  cases done : State.exec N care p o m.kernel with
  | error e => cases e <;> trivial
  | ok x =>
    obtain ⟨r, s⟩ := x
    cases o with
    | swtch =>
      obtain ⟨held, awake, fallen⟩ := allowed
      refine ok.swtch (by rw [held]; exact List.mem_cons_self) ?_
      rintro (run | ⟨c, falling⟩ | own)
      · exact awake run
      · exact fallen c falling
      · cases own
    | resume =>
      obtain ⟨-, held, awake, fallen⟩ := allowed
      have away : ¬(ls p).OnCpu p := by
        rintro (run | ⟨c, falling⟩ | own)
        · exact awake run
        · exact fallen c falling
        · rw [held] at own
          cases own
      dsimp only
      cases m.finders with
      | nil => trivial
      | cons c finders =>
        dsimp only
        by_cases found : c < ncpu ∧ m.proc c = none
        · rw [if_pos found]
          exact ok.resume away (.inl rfl) found.1 found.2
        · rw [if_neg found]
          trivial
    | _ => exact ok.keep (stays phases allowed nofun nofun r)

end CpusOk

/-! ## Zombies -/

theorem Good.zombie (good : Good N care ls s) (allowed : (ls p).Allows N care p o) {r : o.Res}
    {s' : State} (done : exec N p o s = .ok (r, s')) (q : ℕ) (zombie : s.pstate q = .zombie) :
    s'.pstate q = .zombie ∨ s'.pstate q = .unused ∧ o = .reap q ∧ s.parent q = some p := by
  have other {x : ℕ} {state : ProcState} (hx : s.pstate x ≠ .zombie) :
      update s.pstate x state q = .zombie := by
    rw [update_of_ne (by rintro rfl; exact hx zombie), zombie]
  have running (run : (ls p).phase = .run) : s.pstate p ≠ .zombie := by
    rw [good.phases.running run]
    rintro ⟨⟩
  have forked {x : ℕ} {b : Bool} (child : (ls p).family.child = some (x, b)) :
      s.pstate x ≠ .zombie := by
    have used : s.pstate x = .used := good.phases.child p x b child
    rw [used]
    rintro ⟨⟩
  cases o with
  | sleeping c =>
    have fits := good.phases.fits p
    rw [show (ls p).phase = .falling c from allowed] at fits
    have falling : s.pstate p = .running := fits.2
    cases done
    exact .inl (other (by rw [falling]; rintro ⟨⟩))
  | yielding =>
    cases done
    exact .inl (other (running allowed.2))
  | resume =>
    simp only [exec] at done
    split at done
    · rename_i ready
      cases done
      exact .inl (other (by rw [ready.1]; rintro ⟨⟩))
    · cases done
  | wakeIf x c =>
    simp only [exec] at done
    split at done
    · rename_i asleep
      cases done
      exact .inl (other (by rw [asleep.1]; rintro ⟨⟩))
    · cases done
      exact .inl zombie
  | killIf x pid =>
    simp only [exec] at done
    split at done
    · cases done
      split
      · rename_i asleep
        exact .inl (other (by rw [asleep]; rintro ⟨⟩))
      · exact .inl zombie
    · cases done
      exact .inl zombie
  | allocSlot x =>
    simp only [exec] at done
    split at done
    · rename_i unused
      cases done
      exact .inl (other (by rw [unused]; rintro ⟨⟩))
    · cases done
      exact .inl zombie
  | freeSlot x =>
    cases done
    exact .inl (other (forked allowed.2.2))
  | startSlot x =>
    cases done
    exact .inl (other (forked allowed.2.2))
  | zombie status =>
    cases done
    exact .inl (other (running allowed.2.2.1))
  | reap x =>
    simp only [exec] at done
    split at done
    · split at done
      · cases done
        by_cases same : q = x
        · subst same
          exact .inr ⟨update_self .., rfl, ((good.tree.kin p).kin q allowed.2.2.2.2).2⟩
        · exact .inl ((update_of_ne same ..).trans zombie)
      · cases done
        exact .inl zombie
    · cases done
      exact .inl zombie
  | acquire | release | releaseFor | swtch | exiting | reparent | more =>
    simp only [exec] at done
    repeat' split at done
    all_goals cases done
    all_goals exact .inl zombie
  | _ =>
    cases done
    exact .inl zombie

/-! ## Every run -/

theorem Machine.exec_post (ncpu : ℕ) {A : Panic → Prop} {Q : o.Res → State → Prop}
    (post : Halt.Post A Q (State.exec N care p o m.kernel)) :
    Halt.Post A (fun r m' => Q r m'.kernel) (Machine.exec N ncpu care p o m) := by
  rw [Machine.exec]
  cases done : State.exec N care p o m.kernel with
  | error e =>
    rw [done] at post
    cases e with
    | blocked => trivial
    | panic e => exact post
  | ok x =>
    rw [done] at post
    cases o with
    | resume =>
      dsimp only
      cases m.finders with
      | nil => trivial
      | cons c finders =>
        dsimp only
        by_cases found : c < ncpu ∧ m.proc c = none
        · rw [if_pos found]
          exact post
        · rw [if_neg found]
          trivial
    | _ => exact post

def MachineOk (N ncpu : ℕ) (care : Care) (ls : ℕ → Local) (m : Machine) : Prop :=
  Good N care ls m.kernel ∧ CpusOk ncpu ls m.proc m.cpu

theorem MachineOk.keeps : (protocol N care).Keeps (Machine.exec N ncpu care) (MachineOk N ncpu care)
    (· = .initExiting) := by
  intro ls m p o ok allowed
  have good := Machine.exec_post ncpu (Good.keeps ls m.kernel p o ok.1 allowed)
  have cpus := ok.2.step ok.1.phases (show (ls p).Allows N care p o from allowed)
  refine (good.and cpus).mono ?_
  rintro r m' ⟨⟨ℓ, next, good⟩, cpus⟩
  refine ⟨ℓ, next, good, ?_⟩
  rw [next.2]
  exact cpus

theorem Machine.Runs.obeys {c : Conf PSig Machine} (run : Machine.Runs N ncpu care oracle finders c) :
    Conf.Obeys (protocol N care) (MachineOk N ncpu care) Local.Idle c := by
  refine Conf.Obeys.reachable MachineOk.keeps (fun ls m p body ok idle start => ?_) ?_ run
  · exact ⟨ls p, by rwa [update_eq_self], ok.1.entry idle start⟩
  · refine ⟨fun _ => .rest .off, ⟨Good.boot, nofun, ?_⟩, fun _ => ⟨.off, .inr rfl, rfl⟩⟩
    rintro p (run | ⟨c, falling⟩ | own)
    · cases run
    · cases falling
    · cases own

/-- While `p->lock` is free, process `p` is in `RUNNING` if and only if exactly one CPU executes it, and
a zombie stays one until its parent frees it in `wait`. -/
theorem scheduler_exclusive {c : Conf PSig Machine} (run : Machine.Runs N ncpu care oracle finders c) :
    (∀ p, c.state.kernel.locks (.proc p) = none →
      (c.state.kernel.pstate p = .running ↔ ∃! i, c.state.proc i = some p) ∧
      ∀ i, c.state.proc i = some p → i < ncpu ∧ c.state.kernel.pstate p = .running) ∧
    ∀ c', Conf.Step (Machine.exec N ncpu care) (Machine.Start N care) c c' → ∀ q,
      c.state.kernel.pstate q = .zombie → c'.state.kernel.pstate q ≠ .zombie →
      c'.state.kernel.pstate q = .unused ∧
        ∃ p k, c.prog p = some (.op (.reap q) k) ∧ c.state.kernel.parent q = some p := by
  obtain ⟨ls, ⟨good, cpus⟩, ready⟩ := Machine.Runs.obeys run
  refine ⟨fun p free => ?_, fun c' step q zombie left => ?_⟩
  · have unlocked : .proc p ∉ (ls p).held := by
      intro own
      rw [((good.locks p).owner _).mpr own] at free
      cases free
    have executed (i : ℕ) (hi : c.state.proc i = some p) : c.state.kernel.pstate p = .running := by
      have fits := good.phases.fits p
      obtain ⟨-, -, on | ⟨k, falling⟩ | own⟩ := cpus.executes i p hi
      · rw [on] at fits
        exact fits.2
      · rw [falling] at fits
        exact fits.2
      · exact absurd own unlocked
    refine ⟨⟨fun running => ?_, fun ⟨i, hi, _⟩ => executed i hi⟩,
      fun i hi => ⟨(cpus.executes i p hi).1, executed i hi⟩⟩
    have on : (ls p).OnCpu p := by
      obtain ⟨on, -⟩ | ⟨k, falling, -⟩ := (good.phases.fits p).of_running running
      · exact .inl on
      · exact .inr (.inl ⟨k, falling⟩)
    refine ⟨c.state.cpu p, cpus.executed p on, fun i hi => ?_⟩
    exact (cpus.executes i p hi).2.1.symm
  · cases step with
    | start idle admitted => exact absurd zombie left
    | finish returned => exact absurd zombie left
    | @op p o k r m running done =>
      have follows := ready p
      rw [running] at follows
      have kernel : Halt.Post (fun _ => True) (fun r' s' => exec N p o c.state.kernel = .ok (r', s'))
          (State.exec N care p o c.state.kernel) := by
        rw [State.exec]
        split
        · cases exec N p o c.state.kernel with
          | ok x => exact rfl
          | error e => cases e <;> trivial
        · trivial
      have post := Machine.exec_post ncpu kernel
      rw [done] at post
      obtain zombie' | ⟨unused, rfl, parent⟩ := good.zombie follows.1 post q zombie
      · exact absurd zombie' left
      · exact ⟨unused, p, k, running, parent⟩

def dispatchScene : List (Conf.Move Act) :=
  [.start 0 .forkret, .run 0 9, .start 0 (.call .fork), .run 0 99, .start 1 .forkret, .run 1 9]

theorem scheduler_exclusive_dispatchScene :
    ∃ c, Machine.Runs 2 4 .none [] [3, 1] c ∧ c.state.kernel.pstate 1 = .running ∧
      ∃! i, c.state.proc i = some 1 := by
  have ⟨c, run, free, running⟩ : ∃ c, Machine.Runs 2 4 .none [] [3, 1] c ∧
      c.state.kernel.locks (.proc 1) = none ∧ c.state.kernel.pstate 1 = .running :=
    Conf.Reachable.reaches (fun p m a => Act.enter 2 .none p m.kernel a)
      (fun _ _ _ _ entered => Act.enter_start entered) dispatchScene (by decide)
  exact ⟨c, run, running, ((scheduler_exclusive run).1 1 free).1.mp running⟩

end Xv6.Proc
