import Xv6.Proc.Monitor

/-!
# Killing

As long as nobody calls `kill(0)`, the flag `killed` of a slot goes back to a `kill` of the process in
it, or to a fault of that process.  As long as nobody is killed between its test of the flag and its
sleep, a process that sleeps in a loop that tests the flag has it clear.
-/

namespace Xv6.Proc

open Function State List

variable {N : ℕ} {care : Care} {p : ℕ} {ls : ℕ → Local} {s : State} {o : Step}

attribute [local grind =] update_apply

/-! ## Who set the flag -/

/-- What the `killed` flags depend on. -/
structure Blame where
  pstate : ℕ → ProcState
  pid : ℕ → BitVec 32
  killed : ℕ → Bool
  events : List Event

def State.blame (s : State) : Blame := ⟨s.pstate, s.pid, s.killed, s.events⟩

/-- What happened since slot `q` was taken last. -/
def since (events : List Event) (q : ℕ) : List Event := events.takeWhile (· ≠ .alloc q)

theorem mem_since_cons {events : List Event} {q : ℕ} {e e' : Event} (other : e ≠ .alloc q)
    (mem : e' = e ∨ e' ∈ since events q) : e' ∈ since (e :: events) q := by
  rw [since, takeWhile_cons_of_pos (by simpa using other)]
  exact mem_cons.mpr mem

/-- The process in slot `q` has been killed, or it has faulted. -/
def Blame.Due (v : Blame) (q : ℕ) : Prop :=
  .kill (v.pid q) ∈ since v.events q ∨ .fault q ∈ since v.events q

/-- Whoever is marked has been killed. -/
structure BlameOk (v : Blame) : Prop where
  unused : ∀ q, v.pstate q = .unused → v.pid q = 0 ∧ v.killed q = false
  due : ∀ q, v.pstate q ≠ .unused → v.killed q = true → v.Due q

namespace BlameOk

variable {v v' : Blame} {q : ℕ}

theorem keep (inv : BlameOk v) (slots : ∀ q, v'.pstate q = .unused ↔ v.pstate q = .unused)
    (pid : v'.pid = v.pid) (killed : v'.killed = v.killed) (events : v'.events = v.events) :
    BlameOk v' := by
  obtain ⟨unused, due⟩ := inv
  refine ⟨fun q hq => ?_, fun q hq hk => ?_⟩
  · rw [pid, killed]
    exact unused q ((slots q).mp hq)
  · rw [killed] at hk
    rw [Blame.Due, pid, events]
    exact due q (fun h => hq ((slots q).mpr h)) hk

theorem move (inv : BlameOk v) {state state' : ProcState} (before : v.pstate q = state)
    (taken : state ≠ .unused) (taken' : state' ≠ .unused) :
    BlameOk ⟨update v.pstate q state', v.pid, v.killed, v.events⟩ := by
  refine inv.keep (fun r => ?_) rfl rfl rfl
  grind

theorem kill (inv : BlameOk v) (taken : v.pstate q ≠ .unused) {e : Event} (other : ∀ r, e ≠ .alloc r)
    (cause : e = .kill (v.pid q) ∨ e = .fault q) :
    BlameOk ⟨v.pstate, v.pid, update v.killed q true, e :: v.events⟩ := by
  obtain ⟨unused, due⟩ := inv
  refine ⟨fun r hr => ?_, fun r hr hk => ?_⟩
  · simp only at hr ⊢
    grind
  · by_cases hq : r = q
    · subst hq
      rcases cause with rfl | rfl
      · exact .inl (mem_since_cons (other r) (.inl rfl))
      · exact .inr (mem_since_cons (other r) (.inl rfl))
    · simp only [update_of_ne hq] at hk
      exact (due r hr hk).imp (fun h => mem_since_cons (other r) (.inr h))
        fun h => mem_since_cons (other r) (.inr h)

theorem alloc (inv : BlameOk v) (free : v.pstate q = .unused) {pid : BitVec 32} :
    BlameOk ⟨update v.pstate q .used, update v.pid q pid, v.killed, .alloc q :: v.events⟩ := by
  have clear := (inv.unused q free).2
  obtain ⟨unused, due⟩ := inv
  refine ⟨fun r hr => ?_, fun r hr hk => ?_⟩
  · simp only at hr ⊢
    grind
  · have other : r ≠ q := by
      rintro rfl
      cases clear.symm.trans hk
    have taken : Event.alloc q ≠ .alloc r := fun h => other (Event.alloc.inj h).symm
    simp only [Blame.Due, update_of_ne other] at hr hk ⊢
    exact (due r hr hk).imp (fun h => mem_since_cons taken (.inr h))
      fun h => mem_since_cons taken (.inr h)

theorem free (inv : BlameOk v) :
    BlameOk ⟨update v.pstate q .unused, update v.pid q 0, update v.killed q false, v.events⟩ := by
  obtain ⟨unused, due⟩ := inv
  refine ⟨fun r hr => ?_, fun r hr hk => ?_⟩
  · simp only at hr ⊢
    grind
  · have other : r ≠ q := by
      rintro rfl
      simp at hr
    simp only [Blame.Due, update_of_ne other] at hr hk ⊢
    exact due r hr hk

theorem step (inv : BlameOk s.blame) (nonzero : care.nonzero = true) (phases : PhasesOk N ls s.rota)
    (allowed : (ls p).Allows N care p o) : o.After N p s fun _ s' => BlameOk s'.blame := by
  cases o with
  | acquire l => exact after_acquire fun _ => inv
  | release | releaseFor | swtch => exact .guard fun _ => inv
  | exiting status => exact .ite (fun _ => trivial) fun _ => inv
  | reparent q => exact .ite (fun _ => inv) fun _ => inv
  | more => trivial
  | sleeping c =>
    have fits := phases.fits p
    rw [show (ls p).phase = .falling c from allowed] at fits
    exact inv.move fits.2 (by rintro ⟨⟩) (by rintro ⟨⟩)
  | resume => exact .guard fun ready => inv.move ready.1 (by rintro ⟨⟩) (by rintro ⟨⟩)
  | yielding => exact inv.move (phases.running allowed.2) (by rintro ⟨⟩) (by rintro ⟨⟩)
  | wakeIf q c =>
    exact .ite (fun asleep => inv.move asleep.1 (by rintro ⟨⟩) (by rintro ⟨⟩)) fun _ => inv
  | killIf q pid =>
    have taken (found : s.pid q = pid) : s.pstate q ≠ .unused := fun free =>
      allowed.2.1 nonzero (found.symm.trans (inv.unused q free).1)
    have killed (found : s.pid q = pid) : BlameOk (s.kill q pid).blame :=
      inv.kill (taken found) (by rintro _ ⟨⟩) (.inl (congrArg Event.kill found.symm))
    exact after_killIf inv (fun found _ => killed found)
      fun found _ => (killed found).move rfl (taken found) (by rintro ⟨⟩)
  | setKilled =>
    have running : s.blame.pstate p = .running := phases.running allowed.2.1
    exact inv.kill (by rw [running]; rintro ⟨⟩) (by rintro _ ⟨⟩) (.inr rfl)
  | allocSlot q => exact .ite (fun free => inv.alloc free) fun _ => inv
  | freeSlot q => exact inv.free
  | startSlot q =>
    exact inv.move (phases.child p q true allowed.2.2) (by rintro ⟨⟩) (by rintro ⟨⟩)
  | zombie status => exact inv.move (phases.running allowed.2.2.1) (by rintro ⟨⟩) (by rintro ⟨⟩)
  | reap q => exact .ite (fun _ => .ite (fun _ => inv.free) fun _ => inv) fun _ => inv
  | _ => exact inv

end BlameOk

/-! ## Sleeping with the flag set -/

/-- What the tests of the `killed` flag depend on. -/
structure Tests where
  killed : ℕ → Bool
  tested : ℕ → Option Loop
  sleep : ℕ → Option Chan
  pipe : Pipe

def State.tests (s : State) : Tests := ⟨s.killed, s.tested, s.sleep, s.pipe⟩

/-- Process `q` has found its flag clear and sleeps next. -/
def Tests.Window (v : Tests) (q : ℕ) : Prop :=
  ∃ loop, v.tested q = some loop ∧ (loop = .pipewrite → v.pipe.Full)

theorem window_iff (q : ℕ) : s.window q = true ↔ s.tests.Window q := by
  simp only [window, Tests.Window, tests]
  cases s.tested q with
  | none => simp
  | some loop => cases loop <;> simp

theorem window_of_decided {q : ℕ} (know : KnowOk ls s.pipe) (tested : s.tested q = (ls q).test.tested)
    (decided : (ls q).decided = true) : s.tests.Window q := by
  simp only [Local.decided, ← tested] at decided
  cases h : s.tested q with
  | none => simp [h] at decided
  | some loop =>
    refine ⟨loop, h, ?_⟩
    rintro rfl
    simp only [h, beq_iff_eq] at decided
    exact of_decide_eq_true ((know q).full true decided).2

/-- What the processes know of their `killed` flags. -/
structure HeedOk (ls : ℕ → Local) (v : Tests) : Prop where
  tested : ∀ q, v.tested q = (ls q).test.tested
  writer : ∀ q, (ls q).test.tested = some .pipewrite → .pipe ∈ (ls q).held ∧ (ls q).writing ≠ .no
  window : ∀ q, v.Window q → v.killed q = false
  sure : ∀ q, (ls q).test.sure = true → .proc q ∈ (ls q).held ∧ v.killed q = false
  asleep : ∀ q c, v.sleep q = some c → c.inLoop = true → v.killed q = false

namespace HeedOk

variable {v v' : Tests} {ℓ : Local}

theorem ghost (inv : HeedOk ls v) (test : ℓ.test = (ls p).test)
    (writing : (ls p).writing ≠ .no → ℓ.writing ≠ .no)
    (held : ∀ l ∈ (ls p).held, l = .pipe ∨ l = .proc p → l ∈ ℓ.held) : HeedOk (update ls p ℓ) v := by
  obtain ⟨tested, writer, window, sure, asleep⟩ := inv
  refine ⟨?_, ?_, window, ?_, asleep⟩ <;> grind

theorem fewer (inv : HeedOk ls v) (tested : v'.tested = v.tested) (pipe : v'.pipe = v.pipe)
    (killed : ∀ q, v.killed q = false → v'.killed q = false)
    (sleep : ∀ q c, v'.sleep q = some c → v.sleep q = some c) : HeedOk ls v' := by
  obtain ⟨tested', writer, window, sure, asleep⟩ := inv
  refine ⟨?_, writer, fun q hq => ?_, ?_, fun q c hc inLoop => ?_⟩
  · grind
  · simp only [Tests.Window, tested, pipe] at hq
    exact killed q (window q hq)
  · grind
  · exact killed q (asleep q c (sleep q c hc) inLoop)

theorem test (inv : HeedOk ls v) (others : ∀ q, q ≠ p → v'.tested q = v.tested q)
    (mine : v'.tested p = ℓ.test.tested) (killed : v'.killed = v.killed) (sleep : v'.sleep = v.sleep)
    (pipe : ∀ q, q ≠ p → v.tested q = some .pipewrite → v'.pipe.Full → v.pipe.Full)
    (writer : ℓ.test.tested = some .pipewrite → .pipe ∈ ℓ.held ∧ ℓ.writing ≠ .no)
    (window : ∀ loop, ℓ.test.tested = some loop → (loop = .pipewrite → v'.pipe.Full) →
      v.killed p = false)
    (sure : ℓ.test.sure = true → .proc p ∈ ℓ.held ∧ v.killed p = false) :
    HeedOk (update ls p ℓ) v' := by
  obtain ⟨tested', writer', window', sure', asleep'⟩ := inv
  refine ⟨?_, ?_, fun q ⟨loop, hq, full⟩ => ?_, ?_, ?_⟩
  · grind
  · grind
  · rw [killed]
    by_cases hp : q = p
    · subst hp
      exact window loop (mine ▸ hq) full
    · rw [others q hp] at hq
      refine window' q ⟨loop, hq, fun h => ?_⟩
      subst h
      exact pipe q hp hq (full rfl)
  · grind
  · rw [killed]
    rw [sleep]
    exact asleep'

theorem fall (inv : HeedOk ls v) (tested : v'.tested = v.tested) (pipe : v'.pipe = v.pipe)
    (killed : v'.killed = v.killed) {c : Chan}
    (sleep : ∀ q, v'.sleep q = if q = p then some c else v.sleep q)
    (sure : c.inLoop = true → (ls p).test.sure = true) (test : ℓ.test = (ls p).test)
    (none' : ℓ.test.tested = none) (held : .proc p ∈ ℓ.held) : HeedOk (update ls p ℓ) v' := by
  obtain ⟨tested', writer, window, sure', asleep⟩ := inv
  refine ⟨?_, ?_, fun q hq => ?_, fun q hq => ?_, fun q c' hc inLoop => ?_⟩
  · rw [tested]
    grind
  · grind
  · rw [killed]
    simp only [Tests.Window, tested, pipe] at hq
    exact window q hq
  · rw [killed]
    grind
  · rw [killed]
    rw [sleep] at hc
    split at hc
    · subst q
      cases hc
      exact (sure' p (sure inLoop)).2
    · exact asleep q c' hc inLoop

theorem kill (inv : HeedOk ls v) (tested : v'.tested = v.tested) (pipe : v'.pipe = v.pipe) {q : ℕ}
    (killed : ∀ r, v'.killed r = if r = q then true else v.killed r)
    (sleep : ∀ r, v'.sleep r = if r = q then none else v.sleep r) (shut : ¬ v.Window q)
    (unsure : (ls q).test.sure = false) : HeedOk ls v' := by
  obtain ⟨tested', writer, window, sure, asleep⟩ := inv
  refine ⟨by rwa [tested], writer, fun r hr => ?_, ?_, ?_⟩
  · simp only [Tests.Window, tested, pipe] at hr
    rw [killed, if_neg]
    · exact window r hr
    · rintro rfl
      exact shut hr
  · grind
  · grind

section Steps

/-- The step keeps the invariant. -/
abbrev Kept (N p : ℕ) (ls : ℕ → Local) (s : State) (o : Step) : Prop :=
  o.After N p s fun r s' => HeedOk (update ls p ((ls p).next p o r)) s'.tests

variable (inv : HeedOk ls s.tests)
include inv

theorem window_of_tested {loop : Loop} (tested : (ls p).test.tested = some loop)
    (full : loop = .pipewrite → s.pipe.Full) : s.killed p = false :=
  inv.window p ⟨loop, (inv.tested p).trans tested, full⟩

/-- Nobody else is in `pipewrite` while `p` has the lock of the pipe. -/
theorem away (locks : LocksOk ls s) (lock : .pipe ∈ (ls p).held) (q : ℕ) (other : q ≠ p)
    (tested : s.tested q = some .pipewrite) : False :=
  other (locks.unique (inv.writer q ((inv.tested q).symm.trans tested)).1 lock)

theorem kept_acquire (know : KnowOk ls s.pipe) (l : Lock) : Kept N p ls s (.acquire l) := by
  refine after_acquire fun _ => ?_
  by_cases hl : l = .proc p
  · subst hl
    have test : ((ls p).next p (.acquire (.proc p)) ()).test = ⟨none, (ls p).decided⟩ := by simp
    refine inv.test (fun q other => ?_) ?_ rfl rfl (fun _ _ _ => id) ?_ ?_ fun sure => ?_
    · simp [tests, other]
    · simp [tests]
    · simp
    · simp
    · rw [test] at sure
      exact ⟨mem_cons_self, inv.window p (window_of_decided know (inv.tested p) sure)⟩
  · simp only [if_neg hl]
    exact inv.ghost (by simp [hl]) (by simp; grind) fun _ h _ => mem_cons_of_mem _ h

theorem kept_release (l : Lock) : Kept N p ls s (.release l) := by
  have erased (sure : ((ls p).next p (.release l) ()).test.sure = true) :
      .proc p ∈ ((ls p).next p (.release l) ()).held ∧ s.killed p = false := by
    simp only [Local.next, Test.next, Bool.and_eq_true, decide_eq_true_eq] at sure
    obtain ⟨held, clear⟩ := inv.sure p sure.1
    exact ⟨(mem_erase_of_ne sure.2.symm).mpr held, clear⟩
  refine .guard fun _ => ?_
  by_cases isProc : l.isProc = true
  · have other : l ≠ .pipe := by
      rintro rfl
      cases isProc
    have tested : ((ls p).next p (.release l) ()).test.tested = (ls p).test.tested := by
      simp only [Local.next, Test.next, if_pos isProc]
    simp only [if_pos isProc]
    refine inv.test (fun _ _ => rfl) ((inv.tested p).trans tested.symm) rfl rfl (fun _ _ _ => id)
      (fun h => ?_) (fun loop h full => inv.window_of_tested (tested.symm.trans h) full) erased
    obtain ⟨held, writing⟩ := inv.writer p (tested.symm.trans h)
    exact ⟨(mem_erase_of_ne other.symm).mpr held, by simpa [other] using writing⟩
  · have tested : ((ls p).next p (.release l) ()).test.tested = none := by
      simp only [Local.next, Test.next, if_neg isProc]
    simp only [if_neg isProc]
    refine inv.test (fun q other => ?_) (tested ▸ update_self ..) rfl rfl
      (fun _ _ _ => id) (by rw [tested]; rintro ⟨⟩) (by rw [tested]; rintro _ ⟨⟩) erased
    simp [tests, other]

theorem kept_swtch (held : (ls p).held = [.proc p]) : Kept N p ls s .swtch := by
  refine .guard fun _ => inv.test (fun _ _ => rfl) (inv.tested p) rfl rfl (fun _ _ _ => id)
    (fun tested => ?_) (fun loop tested full => inv.window_of_tested tested full) (by rintro ⟨⟩)
  have := (inv.writer p tested).1
  simp [held] at this

theorem kept_wakeIf {q : ℕ} {c : Chan} : Kept N p ls s (.wakeIf q c) := by
  refine .ite (fun _ => ?_) fun _ => inv.ghost rfl id fun _ h _ => h
  refine fewer (ghost inv rfl id fun _ h _ => h) rfl rfl (fun _ => id) fun r c' hr => ?_
  simp only [tests, wake] at hr ⊢
  grind

theorem kept_killIf {q : ℕ} {pid : BitVec 32} (locks : LocksOk ls s) (phases : PhasesOk N ls s.rota)
    (shut : s.pid q = pid → ¬ s.tests.Window q) (lock : .proc q ∈ (ls p).held)
    (test : (ls p).test = ⟨none, false⟩) (run : (ls p).phase = .run) :
    Kept N p ls s (.killIf q pid) := by
  have sleepless (awake : s.pstate q ≠ .sleeping) : s.sleep q = none := by
    by_contra h
    obtain ⟨c, hc⟩ := Option.ne_none_iff_exists'.mp h
    by_cases hq : q = p
    · exact h (hq ▸ phases.awake run)
    · exact awake (phases.asleep locks hq lock hc).1
  have unsure : (update ls p ((ls p).next p (.killIf q pid) true) q).test.sure = false := by
    by_cases hq : q = p
    · rw [hq, update_self]
      simp [test]
    · rw [update_of_ne hq]
      by_contra h
      exact hq (locks.unique (inv.sure q (by simpa using h)).1 lock)
  refine after_killIf (inv.ghost rfl id fun _ h _ => h) (fun found awake => ?_) fun found _ => ?_
  · refine kill (ghost inv rfl id fun _ h _ => h) rfl rfl (update_apply _ _ _)
      (fun r => ?_) (shut found) unsure
    split
    · subst r
      exact sleepless awake
    · rfl
  · exact kill (ghost inv rfl id fun _ h _ => h) rfl rfl (update_apply _ _ _)
      (update_apply _ _ _) (shut found) unsure

theorem kept_isKilled {loop : Loop}
    (writer : loop = .pipewrite → .pipe ∈ (ls p).held ∧ (ls p).writing ≠ .no) :
    Kept N p ls s (.isKilled loop) := by
  refine inv.test (fun q other => ?_) ?_ rfl rfl (fun _ _ _ => id) (fun tested => ?_)
      (fun loop' tested _ => ?_) (by rintro ⟨⟩)
  · simp [tests, other]
  · simp [tests]
  · refine writer ?_
    simp at tested
    exact tested.2
  · simp at tested
    exact tested.1

theorem kept_setKilled (phases : PhasesOk N ls s.rota) (run : (ls p).phase = .run)
    (test : (ls p).test = ⟨none, false⟩) : Kept N p ls s .setKilled := by
  refine kill (ghost inv rfl id fun _ h _ => h) rfl rfl (update_apply _ _ _)
    (fun r => ?_) ?_ (by simp [test])
  · split
    · subst r
      exact phases.awake run
    · rfl
  · rintro ⟨loop, tested, -⟩
    rw [show s.tests.tested p = none by rw [inv.tested, test]] at tested
    cases tested

theorem kept_free {q : ℕ} {ℓ : Local} (test : ℓ.test = (ls p).test)
    (writing : ℓ.writing = (ls p).writing) (held : ℓ.held = (ls p).held) :
    HeedOk (update ls p ℓ) (s.free q).tests := by
  refine fewer (ghost inv test (writing ▸ id) fun _ h _ => held ▸ h) rfl rfl (fun r hr => ?_)
    fun _ _ => id
  simp only [tests, free] at hr ⊢
  grind

theorem kept_putByte {ch : Byte} (locks : LocksOk ls s) (lock : .pipe ∈ (ls p).held) :
    Kept N p ls s (.putByte ch) := by
  refine inv.test (fun q other => ?_) ?_ rfl rfl (fun q other h => (inv.away locks lock q other h).elim)
    (by rintro ⟨⟩) (by rintro _ ⟨⟩) (inv.sure p)
  · simp [tests, other]
  · simp [tests]

theorem kept_takeByte (locks : LocksOk ls s) (lock : .pipe ∈ (ls p).held)
    (idle : (ls p).writing = .no) : Kept N p ls s .takeByte := by
  refine inv.test (fun _ _ => rfl) (inv.tested p) rfl rfl
    (fun q other h => (inv.away locks lock q other h).elim) (inv.writer p)
    (fun loop tested full => inv.window_of_tested tested ?_) (inv.sure p)
  rintro rfl
  exact absurd idle (inv.writer p tested).2

theorem kept_closeEnd (writable : Bool) : Kept N p ls s (.closeEnd writable) := by
  refine inv.test (fun _ _ => rfl) (inv.tested p) rfl rfl (fun q other _ => ?_) (inv.writer p)
    (fun loop tested full => inv.window_of_tested tested fun h => ?_) (inv.sure p)
  · cases writable <;> exact id
  · have := full h
    cases writable <;> exact this

theorem step (heed : care.heed = true) (careful : s.careful care p o = true) (locks : LocksOk ls s)
    (phases : PhasesOk N ls s.rota) (know : KnowOk ls s.pipe) (allowed : (ls p).Allows N care p o) :
    Kept N p ls s o := by
  cases o with
  | acquire l => exact inv.kept_acquire know l
  | release l => exact inv.kept_release l
  | releaseFor l c =>
    obtain ⟨-, own, proper, -, -, -, -, -, sure, -, -, -, tested⟩ := allowed
    exact .guard fun _ => inv.fall rfl rfl rfl (update_apply _ _ _) sure rfl tested
      ((mem_erase_of_ne (proper p).symm).mpr own)
  | swtch => exact inv.kept_swtch allowed.1
  | resume => exact .guard fun _ => inv.ghost rfl id fun l hl => by simp [allowed.2.1] at hl
  | wakeIf q c => exact inv.kept_wakeIf
  | killIf q pid =>
    obtain ⟨lock, -, test, run⟩ := allowed
    refine inv.kept_killIf locks phases (fun found => ?_) lock test run
    rw [← window_iff]
    simpa [State.careful, heed, found] using careful
  | isKilled loop => exact inv.kept_isKilled allowed.2.2.2.1
  | setKilled => exact inv.kept_setKilled phases allowed.2.1 allowed.2.2
  | freeSlot q => exact inv.kept_free rfl rfl rfl
  | reap q =>
    refine .ite (fun _ => .ite (fun _ => inv.kept_free rfl rfl rfl) fun _ => ?_) fun _ => ?_
    all_goals exact inv.ghost rfl id fun _ h _ => h
  | putByte ch => exact inv.kept_putByte locks allowed.1
  | takeByte => exact inv.kept_takeByte locks allowed.1 allowed.2.2.1
  | closeEnd writable => exact inv.kept_closeEnd writable
  | writeBegin => exact inv.ghost rfl (fun _ => by rintro ⟨⟩) fun _ h _ => h
  | allocSlot | reparent =>
    refine .ite (fun _ => ?_) fun _ => ?_
    all_goals exact inv.ghost rfl id fun _ h _ => h
  | exiting status => exact .ite (fun _ => trivial) fun _ => inv.ghost rfl id fun _ h _ => h
  | more => trivial
  | _ => exact inv.ghost rfl id fun _ h _ => h

end Steps

end HeedOk

end Xv6.Proc
