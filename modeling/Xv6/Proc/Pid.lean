import Xv6.Proc.System

/-!
# Process identifiers

`allocpid` hands out the values of a counter of 32 bits.  As long as fewer than `2 ^ 31` have been
handed out, the pids of the processes are different and positive.  Nothing stops the counter there.
-/

namespace Xv6.Proc

open Function BitVec State Proc List

variable {N : ℕ} {care : Care} {p : ℕ} {ls : ℕ → Local} {s : State} {o : Step} {oracle : List Bool}
  {c : Conf PSig State}

/-- The pid of a process is its identity, counted from 1 in 32 bits. -/
structure PidsOk (s : State) : Prop where
  pid : ∀ q, s.pstate q ≠ .unused → s.pid q = BitVec.ofNat 32 (s.uid q + 1)
  next : s.nextpid = BitVec.ofNat 32 (s.nuid + 1)

namespace PidsOk

theorem put (inv : PidsOk s) {q : ℕ} {state : ProcState} (used : s.pstate q ≠ .unused) (r : ℕ)
    (hr : update s.pstate q state r ≠ .unused) : s.pid r = BitVec.ofNat 32 (s.uid r + 1) := by
  by_cases hq : r = q
  · exact inv.pid r (hq ▸ used)
  · rw [update_of_ne hq] at hr
    exact inv.pid r hr

theorem free (inv : PidsOk s) (q : ℕ) : PidsOk (s.free q) where
  pid r hr := by
    simp only [State.free] at hr ⊢
    by_cases hq : r = q
    · rw [hq, update_self] at hr
      exact absurd rfl hr
    · rw [update_of_ne hq] at hr ⊢
      exact inv.pid r hr
  next := inv.next

theorem alloc (inv : PidsOk s) (p q : ℕ) : PidsOk (s.alloc p q) where
  pid r hr := by
    simp only [State.alloc] at hr ⊢
    by_cases hq : r = q
    · rw [hq, update_self, update_self]
      exact inv.next
    · rw [update_of_ne hq] at hr
      rw [update_of_ne hq, update_of_ne hq]
      exact inv.pid r hr
  next := by
    simp only [State.alloc, inv.next]
    rw [ofNat_add (s.nuid + 1)]
    rfl

theorem step (inv : PidsOk s) (phases : PhasesOk N ls s.rota) (allowed : (ls p).Allows N care p o) :
    o.After N p s fun _ s' => PidsOk s' := by
  have used (run : (ls p).phase = .run) : s.pstate p ≠ .unused := by
    rw [show s.pstate p = .running from phases.running run]
    rintro ⟨⟩
  cases o with
  | sleeping c =>
    have fits := phases.fits p
    rw [show (ls p).phase = .falling c from allowed] at fits
    refine ⟨inv.put ?_, inv.next⟩
    rw [show s.pstate p = .running from fits.2]
    rintro ⟨⟩
  | resume =>
    refine .guard fun ready => ⟨inv.put ?_, inv.next⟩
    rw [ready.1]
    rintro ⟨⟩
  | yielding => exact ⟨inv.put (used allowed.2), inv.next⟩
  | zombie status => exact ⟨inv.put (used allowed.2.2.1), inv.next⟩
  | startSlot q =>
    refine ⟨inv.put ?_, inv.next⟩
    rw [show s.pstate q = .used from phases.child p q true allowed.2.2]
    rintro ⟨⟩
  | wakeIf q c =>
    refine .ite (fun asleep => ⟨inv.put ?_, inv.next⟩) fun _ => inv
    rw [asleep.1]
    rintro ⟨⟩
  | killIf q pid =>
    refine after_killIf inv (fun _ _ => ⟨inv.pid, inv.next⟩) fun _ asleep => ⟨inv.put ?_, inv.next⟩
    rw [asleep]
    rintro ⟨⟩
  | allocSlot q => exact .ite (fun _ => inv.alloc p q) fun _ => inv
  | freeSlot q => exact inv.free q
  | reap q =>
    have asked : PidsOk s.asked := ⟨inv.pid, inv.next⟩
    exact .ite (fun _ => .ite (fun _ => ⟨(asked.free q).pid, (asked.free q).next⟩) fun _ => asked)
      fun _ => inv
  | acquire | release | releaseFor | swtch | exiting | reparent =>
    simp only [Step.After, Step.exec]
    repeat' split
    all_goals first | trivial | exact ⟨inv.pid, inv.next⟩
  | more => trivial
  | _ => exact ⟨inv.pid, inv.next⟩

theorem boot : PidsOk (boot oracle).state where
  pid q hq := by
    simp only [Proc.boot] at hq ⊢
    split at hq
    · rename_i first
      rw [if_pos first]
      rfl
    · exact absurd rfl hq
  next := rfl

theorem run (run : Runs N care oracle c) : ∃ ls, Good N care ls c.state ∧ PidsOk c.state := by
  have keeps : (protocol N care).Keeps (exec N care)
      (fun ls s => Good N care ls s ∧ PidsOk s) (· = .initExiting) := by
    rintro ls s p o ⟨good, inv⟩ allowed
    rw [exec]
    split
    · rename_i careful
      refine ((good.step careful allowed).and (inv.step good.phases allowed)).mono ?_
      rintro r s' ⟨⟨expected, good'⟩, inv'⟩
      exact ⟨_, ⟨expected, rfl⟩, good', inv'⟩
    · trivial
  have inv : Conf.Inv (exec N care) (fun ls s => Good N care ls s ∧ PidsOk s)
      (· = .initExiting) Local.Idle c := by
    refine Conf.Inv.follows keeps (fun ls _ p _ good idle start => ?_)
      ⟨_, ⟨Good.boot, boot⟩, fun _ => ⟨.off, .inr rfl, rfl⟩⟩ run
    exact ⟨ls p, by rwa [update_eq_self], good.1.entry idle start⟩
  obtain ⟨ls, good, -⟩ := inv
  exact ⟨ls, good⟩

end PidsOk

/-! ## The return value of `fork` -/

theorem traces_allocprocFrom {k q np : ℕ} {pid : BitVec 32} {t : List ((o : Step) × o.Res)}
    (trace : (allocprocFrom k q).Traces t (some (np, pid))) : ⟨.allocSlot np, some pid⟩ ∈ t := by
  induction k generalizing q t with
  | zero => cases trace.2
  | succ k ih =>
    obtain ⟨_, _, rfl, found, t, rfl, trace⟩ := trace
    cases found with
    | none =>
      obtain ⟨_, t, rfl, trace⟩ := trace
      simp only [mem_cons]
      exact .inr (.inr (.inr (ih trace)))
    | some pid' =>
      obtain ⟨t₁, ok, t₂, rfl, -, rest⟩ := Prog.Traces.bind (x := allocPages q) trace
      cases ok with
      | false => cases rest.2
      | true =>
        cases rest.2
        simp only [mem_cons, mem_append, true_or, or_true]

theorem traces_fork {t : List ((o : Step) × o.Res)} {v : ℤ} (trace : (fork N).Traces t v) :
    v = -1 ∨ ∃ q pid, ⟨.allocSlot q, some pid⟩ ∈ t ∧ v = pid.toInt := by
  obtain ⟨t₁, found, t₂, rfl, alloc, rest⟩ := Prog.Traces.bind trace
  cases found with
  | none => exact .inl rest.2.symm
  | some found =>
    obtain ⟨np, pid⟩ := found
    obtain ⟨copied, t, rfl, rest⟩ := rest
    cases copied with
    | false =>
      obtain ⟨_, _, -, _, _, -, -, rfl⟩ := rest
      exact .inl rfl
    | true =>
      obtain ⟨_, _, -, _, _, -, _, _, -, _, _, -, _, _, -, _, _, -, _, _, -, -, rfl⟩ := rest
      exact .inr ⟨np, pid, mem_append_left _ (traces_allocprocFrom alloc), rfl⟩

/-! ## Distinct and positive pids -/

theorem toInt_pos {n : ℕ} (pos : 0 < n) (small : n < 2 ^ 31) : 0 < (BitVec.ofNat 32 n).toInt := by
  have toNat : (BitVec.ofNat 32 n).toNat = n := by
    rw [toNat_ofNat]
    exact Nat.mod_eq_of_lt (by omega)
  rw [toInt_eq_toNat_of_lt (by omega), toNat]
  omega

/-- As long as fewer than `2 ^ 31` pids have been handed out, the processes have different and positive
pids; `fork` returns -1 or the pid that it has handed out. -/
theorem pids_distinct_positive (run : Runs N care oracle c) (few : c.state.nuid < 2 ^ 31) :
    (∀ q, c.state.pstate q ≠ .unused → 0 < (c.state.pid q).toInt) ∧
    (∀ q r, c.state.pstate q ≠ .unused → c.state.pstate r ≠ .unused →
      c.state.pid q = c.state.pid r → q = r) ∧
    (∀ p q pid s, exec N care p (.allocSlot q) c.state = .ok (some pid, s) →
      s.nuid < 2 ^ 31 → 0 < pid.toInt ∧ s.pid q = pid ∧ s.pstate q = .used) ∧
    ∀ t v, (fork N).Traces t v →
      v = -1 ∨ ∃ q pid, ⟨.allocSlot q, some pid⟩ ∈ t ∧ v = pid.toInt := by
  obtain ⟨ls, good, pids⟩ := PidsOk.run run
  have known (q : ℕ) (used : c.state.pstate q ≠ .unused) : c.state.uid q < c.state.nuid :=
    good.tree.ids.known q used
  refine ⟨fun q used => ?_, fun q r hq hr same => ?_, fun p q pid s done few' => ?_,
    fun t v trace => traces_fork trace⟩
  · have := known q used
    rw [pids.pid q used]
    exact toInt_pos (Nat.succ_pos _) (by omega)
  · have := known q hq
    have := known r hr
    rw [pids.pid q hq, pids.pid r hr, ← toNat_inj, toNat_ofNat, toNat_ofNat,
      Nat.mod_eq_of_lt (by omega), Nat.mod_eq_of_lt (by omega)] at same
    exact good.tree.ids.unique q r hq hr (Nat.succ.inj same)
  · simp only [exec, careful, if_true, Step.exec] at done
    split at done
    · cases done
      refine ⟨?_, update_self .., update_self ..⟩
      rw [pids.next]
      exact toInt_pos (Nat.succ_pos _) few'
    · cases done

theorem pids_distinct_positive_waitScene :
    ∃ c, Runs 2 .none [] c ∧ c.state.nuid < 2 ^ 31 ∧ c.state.pstate 1 ≠ .unused ∧
      0 < (c.state.pid 1).toInt := by
  obtain ⟨c, run, few, used⟩ : ∃ c, Runs 2 .none [] c ∧ c.state.nuid < 2 ^ 31 ∧
      c.state.pstate 1 ≠ .unused :=
    Runs.reaches [.start 0 .forkret, .run 0 9, .start 0 (.call .fork), .run 0 99]
      (by decide)
  exact ⟨c, run, few, used, (pids_distinct_positive run few).1 1 used⟩

/-! ## A run of `2 ^ 31` forks -/

/-- The first process is running, slot 1 is free, and nobody holds their locks. -/
structure Ready (s : State) : Prop where
  first : s.pstate 0 = .running
  second : s.pstate 1 = .unused
  lock : s.locks (.proc 0) = none
  lock' : s.locks (.proc 1) = none
  wait : s.locks .wait = none

theorem fork_fails (k : ℕ) (ready : Ready s) {rest : List Bool} (oracle : s.oracle = false :: rest) :
    ∃ s', (Call.fork.prog (k + 2) 0).run (exec (k + 2) .none 0) s = (.ok (), s') ∧ Ready s' ∧
      s'.oracle = rest ∧ s'.nextpid = s.nextpid + 1 := by
  obtain ⟨first, second, lock, lock', wait⟩ := ready
  simp [Call.prog, fork, allocprocFrom, allocPages, acquire, release, Prog.run,
    exec, careful, Step.exec, alloc, lucky, asked, free, first,
    second, lock, lock', oracle]
  exact ⟨by simp [first], by simp, by simp, by simp, by simp [wait]⟩

theorem fork_succeeds (k : ℕ) (ready : Ready s) (oracle : s.oracle = []) :
    ∃ s', (Call.fork.prog (k + 2) 0).run (exec (k + 2) .none 0) s = (.ok (), s') ∧
      s'.pstate 1 = .runnable ∧ s'.pid 1 = s.nextpid := by
  obtain ⟨first, second, lock, lock', wait⟩ := ready
  simp [Call.prog, fork, allocprocFrom, allocPages, acquire, release, Prog.run,
    exec, careful, Step.exec, alloc, lucky, asked, first,
    second, lock, lock', wait, oracle]

theorem forkret_first (k : ℕ) (oracle : List Bool) :
    ∃ s', (forkret 0).run (exec (k + 2) .none 0) (boot oracle).state = (.ok (), s') ∧
      Ready s' ∧ s'.oracle = oracle ∧ s'.nextpid = 2 := by
  simp [forkret, boot, release, Prog.run, exec, careful, Step.exec]
  exact ⟨by simp, by simp, by simp, by simp, by simp⟩

theorem reachable_run (k : ℕ) {body : PProg Unit} {s' : State} (admitted : Start (k + 2) .none 0 s body)
    (run : body.run (exec (k + 2) .none 0) s = (.ok (), s')) :
    Conf.Reachable (exec (k + 2) .none) (Start (k + 2) .none) ⟨s, fun _ => none⟩
      ⟨s', fun _ => none⟩ := by
  have call := Conf.Reachable.call (h := exec (k + 2) .none) (c := ⟨s, fun _ => none⟩) (p := 0)
    rfl admitted (by rw [run]; rfl)
  rwa [run] at call

theorem forks_fail (k n : ℕ) (rest : List Bool) (ready : Ready s)
    (oracle : s.oracle = replicate n false ++ rest) :
    ∃ s', Conf.Reachable (exec (k + 2) .none) (Start (k + 2) .none) ⟨s, fun _ => none⟩
        ⟨s', fun _ => none⟩ ∧ Ready s' ∧ s'.oracle = rest ∧
      s'.nextpid = s.nextpid + BitVec.ofNat 32 n := by
  induction n generalizing s with
  | zero => exact ⟨s, .refl, ready, oracle, (add_zero _).symm⟩
  | succ n ih =>
    obtain ⟨s₁, run₁, ready₁, oracle₁, next₁⟩ := fork_fails k ready oracle
    obtain ⟨s₂, run₂, ready₂, oracle₂, next₂⟩ := ih ready₁ oracle₁
    have call := reachable_run k (.call (Nat.succ_pos _) ready.first .fork trivial (.refl _)) run₁
    refine ⟨s₂, call.trans run₂, ready₂, oracle₂, ?_⟩
    rw [next₂, next₁, add_assoc, Nat.add_comm n 1, ofNat_add]
    rfl

/-- After `2 ^ 31 - 2` calls of `fork` that fail for lack of memory the next child has a negative
pid. -/
theorem pid_wraps :
    ∃ oracle c, Runs NPROC .none oracle c ∧ c.state.pstate 1 = .runnable ∧
      (c.state.pid 1).toInt < 0 := by
  obtain ⟨s₁, run₁, ready₁, oracle₁, next₁⟩ :=
    forkret_first 62 (replicate (2 ^ 31 - 2) false ++ [])
  obtain ⟨s₂, run₂, ready₂, oracle₂, next₂⟩ := forks_fail 62 _ _ ready₁ oracle₁
  obtain ⟨s₃, run₃, used, pid⟩ := fork_succeeds 62 ready₂ oracle₂
  have start := reachable_run 62 (.forkret (Nat.succ_pos _) rfl (.refl _)) run₁
  have last := reachable_run 62 (.call (Nat.succ_pos _) ready₂.first .fork trivial (.refl _)) run₃
  refine ⟨_, _, (start.trans run₂).trans last, used, ?_⟩
  rw [pid, next₂, next₁]
  decide

end Xv6.Proc
