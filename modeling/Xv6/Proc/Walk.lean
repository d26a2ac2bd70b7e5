import Xv6.Proc.Protocol

/-!
# The programs follow the protocol
-/

namespace Xv6.Proc

open Prog List Proc.Local Follows Debt Family

variable {c : Chan} {status : BitVec 32} {tested : Option Loop}

theorem Chan.guard_ne_proc (c : Chan) (q : ℕ) : c.guard ≠ some (.proc q) := by
  cases c <;> simp [guard]

@[simp] theorem Debt.drop_proc (d : Debt) (q : ℕ) : d.drop (.proc q) = d := by
  have never (x : Option Chan) : x.bind Chan.guard ≠ some (.proc q) := by
    cases x with
    | none => simp
    | some c => exact c.guard_ne_proc q
  simp only [drop, if_neg (never _)]

theorem Debt.settled_proc (d : Debt) (care : Care) (q : ℕ) : d.Settled care (.proc q) :=
  fun c _ guarded => absurd guarded (c.guard_ne_proc q)

theorem Phase.Awake.not_falling {φ : Phase} (awake : φ.Awake) (c : Chan) : φ ≠ .falling c := by
  rcases awake with rfl | rfl <;> nofun

variable {N : ℕ} {care : Care} {p : ℕ} {ℓ : Local}

theorem mayRelease {q : ℕ} (mem : .proc q ∈ ℓ.held) (run : ℓ.phase = .run) :
    ℓ.Allows N care p (.release (.proc q)) :=
  ⟨mem, settled_proc _ _ _, nofun, Phase.Awake.not_falling (.inl run), fun _ => run⟩

/-- The program follows the protocol from one ghost value to the other. -/
abbrev Leads {α : Type} (N : ℕ) (care : Care) (p : ℕ) (x : PProg α) (ℓ ℓ' : Local) : Prop :=
  x.Follows (protocol N care) p ℓ fun _ ℓ₁ => ℓ₁ = ℓ'

/-! ## Sleep and wakeup -/

theorem follows_wakeup (awake : ℓ.phase.Awake) (idle : ℓ.scan = none)
    (free : ∀ q, q ≠ p → .proc q ∉ ℓ.held) :
    Leads N care p (wakeup N p c) ℓ { ℓ with debt := ℓ.debt.woken ℓ.held c } := by
  refine .step ⟨idle, awake⟩ fun _ _ => ?_
  -- the slots between the last one visited and the current one are the caller's own
  let J : ℕ → Local → Prop := fun i ℓ' =>
    ∃ j, (∀ k, j ≤ k → k < i → k = p) ∧ ℓ' = { ℓ with scan := some (c, j) }
  refine (loop (J := J) N ?_ ⟨0, by omega, rfl⟩).bind ?_
  · rintro i _ - - ⟨j, passed, rfl⟩
    by_cases hi : i = p
    · rw [wakeSlot, if_pos hi]
      exact ⟨j, fun k lower upper => by
        rcases Nat.lt_succ_iff_lt_or_eq.mp upper with lt | rfl
        · exact passed k lower lt
        · exact hi, rfl⟩
    · rw [wakeSlot, if_neg hi]
      refine .step ⟨free i hi, nofun, fun own => absurd (Lock.proc.inj own) hi⟩ fun _ _ => ?_
      refine .step ⟨hi, mem_cons_self, j, rfl, passed⟩ fun _ _ => ?_
      refine .step ⟨mem_cons_self, settled_proc _ _ _, nofun, awake.not_falling,
        fun own => absurd (Lock.proc.inj own) hi⟩
        fun _ _ => ?_
      refine ⟨i + 1, fun k lower upper => by omega, ?_⟩
      simp [hi]
  · rintro _ _ ⟨j, passed, rfl⟩
    rw [zero_add] at passed
    refine .step ⟨awake, c, j, rfl, passed⟩ fun _ _ => ?_
    refine .ret ?_
    simp [idle]

theorem follows_killed (loop : Loop) (run : ℓ.phase = .run) (idle : ℓ.scan = none)
    {l : Lock} (held : ℓ.held = [l]) (proper : l.isProc = false)
    (lock : loop = .pipewrite → l = .pipe ∧ ℓ.writing ≠ .no) :
    (killed p loop).Follows (protocol N care) p ℓ fun r ℓ' =>
      ℓ' = { ℓ with test := ⟨if r then none else some loop, false⟩ } ∧
        (loop = .pipewrite → care.prompt = true → ℓ.debt.dirty = some .nread →
          ℓ.writing ≠ .no → r = false) := by
  have free : .proc p ∉ ℓ.held := by
    rw [held, mem_singleton]
    rintro rfl
    cases proper
  refine .step ⟨free, nofun, fun _ => run⟩ fun _ _ => ?_
  refine .step ⟨mem_cons_self, run, idle, fun h => ?_, l, by simp [held], proper⟩ fun r hr => ?_
  · exact ⟨by simp [held, (lock h).1], by simpa using (lock h).2⟩
  refine .step (mayRelease mem_cons_self run) fun _ _ => ?_
  refine ⟨by simp, ?_⟩
  rintro rfl
  exact hr

def Local.slept (ℓ : Local) (l : Lock) (c : Chan) : Local :=
  ⟨[l], .run, none, ℓ.debt.drop l, ℓ.know.next (.releaseFor l c) (),
    ℓ.writing.next (.releaseFor l c), ℓ.family.next (.releaseFor l c) (), ⟨none, false⟩⟩

theorem follows_sleep {l : Lock} (slot : p < N) (held : ℓ.held = [l]) (proper : ∀ q, l ≠ .proc q)
    (run : ℓ.phase = .run) (idle : ℓ.scan = none) (paid : ℓ.debt.dirty = none)
    (guarded : ∀ l', c.guard = some l' → l' = l) (unready : ℓ.Unready N p c)
    (tested : c.inLoop = true → ℓ.decided = true) (staying : ℓ.family.exit = none)
    (writer : c = .nwrite → ℓ.writing = .block ∨ ℓ.writing = .loose)
    (reader : c ≠ .nwrite → ℓ.writing = .no) : Leads N care p (sleep p c l) ℓ (ℓ.slept l c) := by
  have other : l ≠ .proc p := proper p
  have settled (d : Debt) : d.Settled care (.proc p) := settled_proc _ _ _
  refine .step ⟨by simpa [held] using other.symm, nofun, fun _ => run⟩ fun _ _ => ?_
  refine .step ?_ fun _ _ => ?_
  · refine ⟨by simp [held], by simp, proper, run, idle, paid, guarded, ?_, ?_, staying, writer, ?_, ?_⟩
    · cases c <;> exact unready
    · simpa using tested
    · simpa using reader
    · simp
  refine .step rfl fun _ _ => ?_
  refine .step ?_ fun _ _ => ?_
  · simp [held, other.symm]
  refine .step ⟨slot, rfl, nofun, nofun⟩ fun _ _ => ?_
  refine .step rfl fun _ _ => ?_
  refine .step ⟨mem_cons_self, settled _, nofun, nofun, fun _ => rfl⟩ fun _ _ => ?_
  refine .step ⟨by simp, fun _ => idle, fun _ => rfl⟩ fun _ _ => ?_
  have begun : (if c = .nwrite then .loose else ℓ.writing) ≠ Writing.fresh := by
    split_ifs with h
    · nofun
    · rw [reader h]
      nofun
  refine .ret ?_
  simp [slept, other, idle, begun]

theorem follows_yield (slot : p < N) (free : ℓ.held = []) (run : ℓ.phase = .run)
    (untested : ℓ.test = ⟨none, false⟩) : Leads N care p (yield p) ℓ ℓ := by
  refine .step ⟨by simp [free], nofun, fun _ => run⟩ fun _ _ => ?_
  refine .step ⟨mem_cons_self, run⟩ fun _ _ => ?_
  refine .step ⟨by simp [free], nofun, nofun⟩ fun _ _ => ?_
  refine .step ⟨slot, rfl, nofun, nofun⟩ fun _ _ => ?_
  refine .step (mayRelease mem_cons_self rfl) fun _ _ => ?_
  obtain ⟨held, phase, scan, debt, know, writing, family, test⟩ := ℓ
  obtain rfl : held = [] := free
  obtain rfl : phase = .run := run
  obtain rfl : test = ⟨none, false⟩ := untested
  refine .ret ?_
  simp

theorem follows_forkret (slot : p < N) : Leads N care p (forkret p) (.rest .off) (.rest .run) := by
  refine .step ⟨slot, rfl, nofun, nofun⟩ fun _ _ => ?_
  refine .step (mayRelease mem_cons_self rfl) fun _ _ => ?_
  refine .ret ?_
  simp [rest]

theorem next_acquire_proc (q : ℕ) :
    (rest .run).next p (.acquire (.proc q)) () = { rest .run with held := [.proc q] } := by
  simp [rest, decided]

theorem follows_kill {pid : BitVec 32} (admitted : care.nonzero = true → pid ≠ 0) :
    Leads N care p (kill N pid) (.rest .run) (.rest .run) := by
  suffices ∀ k q, (killFrom pid k q).Follows (protocol N care) p (.rest .run)
      fun _ ℓ' => ℓ' = .rest .run from this N 0
  intro k
  induction k with
  | zero => exact fun _ => rfl
  | succ k ih =>
    intro q
    refine .step ⟨not_mem_nil, fun _ => rfl, fun _ => rfl⟩ fun _ _ => ?_
    rw [next_acquire_proc]
    refine .step ⟨mem_cons_self, admitted, rfl, rfl⟩ fun found _ => ?_
    refine .step (mayRelease mem_cons_self rfl) fun _ _ => ?_
    have back : next p (next p
        { rest .run with held := [.proc q] } (.killIf q pid) found)
        (.release (.proc q)) () = .rest .run := by
      simp [rest]
    rw [back]
    cases found
    · exact ih (q + 1)
    · exact rfl

theorem follows_setkilled : Leads N care p (setkilled p) (.rest .run) (.rest .run) := by
  refine .step ⟨not_mem_nil, fun _ => rfl, fun _ => rfl⟩ fun _ _ => ?_
  rw [next_acquire_proc]
  refine .step ⟨mem_cons_self, rfl, rfl⟩ fun _ _ => ?_
  refine .step (mayRelease mem_cons_self rfl) fun _ _ => ?_
  refine .ret ?_
  simp [rest]

/-! ## Fork, exit and wait -/

/-- In `fork`, with the lock of the child in slot `q`. -/
def Local.forking (q : ℕ) : Local :=
  { rest .run with held := [.proc q], family := ⟨0, none, some (q, false), none, none⟩ }

theorem follows_abandon {α : Type} {q : ℕ} {a : α} :
    (do
      atomic (.freeSlot q)
      release (.proc q)
      pure a : PProg α).Follows (protocol N care) p (.forking q) fun r ℓ' =>
        r = a ∧ ℓ' = .rest .run := by
  refine .step ⟨mem_cons_self, rfl, rfl⟩ fun _ _ => ?_
  refine .step (mayRelease mem_cons_self rfl) fun _ _ => ?_
  refine ⟨rfl, ?_⟩
  simp [rest, forking]

theorem follows_allocPages {q : ℕ} :
    (allocPages q).Follows (protocol N care) p (.forking q) fun ok ℓ' =>
      ℓ' = if ok then .forking q else .rest .run := by
  refine .step trivial fun trapframe _ => ?_
  cases trapframe
  · refine follows_abandon.mono ?_
    rintro _ _ ⟨rfl, rfl⟩
    rfl
  · refine .step trivial fun pagetable _ => ?_
    cases pagetable
    · refine follows_abandon.mono ?_
      rintro _ _ ⟨rfl, rfl⟩
      rfl
    · exact rfl

theorem follows_allocprocFrom (k q : ℕ) (rest : q + k = N) :
    (allocprocFrom k q).Follows (protocol N care) p (.rest .run) fun r ℓ' =>
      ℓ' = r.elim (.rest .run) fun x => .forking x.1 := by
  induction k generalizing q with
  | zero => exact rfl
  | succ k ih =>
    refine .step ⟨not_mem_nil, fun _ => rfl, fun _ => rfl⟩ fun _ _ => ?_
    rw [next_acquire_proc]
    refine .step ⟨by omega, mem_cons_self, rfl, rfl⟩ fun r _ => ?_
    cases r with
    | some pid =>
      refine follows_allocPages.bind ?_
      rintro ok _ rfl
      cases ok
      · exact rfl
      · exact rfl
    | none =>
      refine .step (mayRelease mem_cons_self rfl) fun _ _ => ?_
      have back : Local.next p (Local.next p
          { Local.rest .run with held := [.proc q] } (.allocSlot q) none)
          (.release (.proc q)) () = .rest .run := by
        simp [Local.rest]
      rw [back]
      exact ih (q + 1) (by omega)

theorem follows_fork : Leads N care p (fork N) (.rest .run) (.rest .run) := by
  refine (follows_allocprocFrom N 0 (zero_add N)).bind ?_
  rintro (_ | ⟨np, pid⟩) _ rfl
  · exact rfl
  · refine .step trivial fun copied _ => ?_
    cases copied
    · exact follows_abandon.mono fun _ _ h => h.2
    · refine .step (mayRelease mem_cons_self rfl) fun _ _ => ?_
      refine .step ⟨by simp [forking], fun _ => rfl, nofun⟩ fun _ _ => ?_
      refine .step ⟨mem_cons_self, rfl, rfl, rfl, rfl⟩ fun _ _ => ?_
      refine .step ⟨mem_cons_self, nofun, fun _ => rfl, nofun, nofun⟩ fun _ _ => ?_
      refine .step ⟨by simp [forking, rest], nofun, fun _ => rfl⟩ fun _ _ => ?_
      refine .step ⟨mem_cons_self, rfl, rfl⟩ fun _ _ => ?_
      refine .step (mayRelease mem_cons_self rfl) fun _ _ => ?_
      refine .ret ?_
      simp [rest, forking, decided, forget, Debt.drop]

/-- In `exit`, with `wait_lock`, with the slots below `j` visited and after a `wakeup(cleared)`. -/
def Local.exiting (status : BitVec 32) (j : ℕ) (cleared : Option ℕ) : Local :=
  { rest .run with
    held := [.wait]
    debt := ⟨none, cleared.map .proc⟩
    family := ⟨0, none, none, some (status, j), none⟩ }

theorem follows_reparentSlot {j : ℕ} {cleared : Option ℕ} :
    (reparentSlot N p j).Follows (protocol N care) p (.exiting status j cleared) fun _ ℓ' =>
      ∃ cleared', ℓ' = .exiting status (j + 1) cleared' := by
  refine .step ⟨mem_cons_self, rfl, rfl, rfl, rfl, rfl, status, rfl⟩ fun child _ => ?_
  cases child
  · exact .ret ⟨cleared, rfl⟩
  · refine (follows_wakeup (.inl rfl) rfl (by simp [exiting])).mono ?_
    rintro _ _ rfl
    refine ⟨some initproc, ?_⟩
    simp [exiting, woken, owe, Chan.guard]

theorem follows_wakeupParent {j : ℕ} {cleared : Option ℕ} :
    (wakeupParent N p).Follows (protocol N care) p (.exiting status j cleared) fun _ ℓ' =>
      ∃ r cleared', (∀ q, r = some q → cleared' = some q) ∧
        ℓ' = { exiting status j cleared' with
          family := ⟨0, none, none, some (status, j), some r⟩ } := by
  refine .step mem_cons_self fun r _ => ?_
  cases r with
  | none => exact .ret ⟨none, cleared, nofun, rfl⟩
  | some q =>
    refine (follows_wakeup (.inl rfl) rfl (by simp [exiting])).mono ?_
    rintro _ _ rfl
    refine ⟨some q, some q, fun _ h => h, ?_⟩
    simp [exiting, woken, Chan.guard]

theorem follows_exit : Leads N care p (exit N p status) (.rest .run) (.rest .off) := by
  refine .step ⟨rfl, rfl, rfl⟩ fun _ _ => ?_
  refine .step ⟨not_mem_nil, fun _ => rfl, fun _ => rfl⟩ fun _ _ => ?_
  refine (loop (J := fun j ℓ => ∃ cleared, ℓ = .exiting status j cleared) N ?_
    ⟨none, rfl⟩).bind ?_
  · rintro j _ - - ⟨cleared, rfl⟩
    exact follows_reparentSlot
  rintro _ _ ⟨cleared, rfl⟩
  rw [zero_add]
  refine follows_wakeupParent.bind ?_
  rintro _ _ ⟨r, cleared, quiet, rfl⟩
  refine .step ⟨by simp [exiting], nofun, fun _ => rfl⟩ fun _ _ => ?_
  refine .step ⟨by simp [exiting], by simp, rfl, rfl, rfl, r, rfl, fun q hq => ?_⟩ fun _ _ => ?_
  · exact congrArg (Option.map Chan.proc) (quiet q hq)
  refine .step ⟨by simp [exiting], nofun, fun _ => rfl, nofun, nofun⟩ fun _ _ => ?_
  refine .step ⟨by simp [exiting], nofun, nofun⟩ fun _ _ => ?_
  refine .ret ?_
  cases cleared <;>
    simp [exiting, rest, decided, forget, Debt.drop, Chan.guard]

/-- In `wait`, with `wait_lock` and with the slots below `j` visited. -/
def Local.waiting (j : ℕ) : Local :=
  { rest .run with held := [.wait], family := ⟨j, none, none, none, none⟩ }

theorem follows_waitReturn {q : ℕ} {v : ℤ} :
    (do
      release (.proc q)
      release .wait
      pure (.inl v) : PProg (ℤ ⊕ Bool)).Follows (protocol N care) p
        { waiting q with held := [.proc q, .wait] } fun a ℓ' =>
          ℓ' = a.elim (fun _ => .rest .run) fun _ => .waiting N := by
  refine .step (mayRelease mem_cons_self rfl) fun _ _ => ?_
  refine .step ⟨by simp, nofun, fun _ => rfl, nofun, nofun⟩ fun _ _ => ?_
  refine .ret ?_
  simp [waiting, rest, forget, Debt.drop]

theorem follows_waitScan (k q : ℕ) (rest : q + k = N) (havekids : Bool) :
    (waitScan k q havekids).Follows (protocol N care) p (.waiting q) fun a ℓ' =>
      ℓ' = a.elim (fun _ => .rest .run) fun _ => .waiting N := by
  induction k generalizing q havekids with
  | zero =>
    refine .ret ?_
    rw [← rest]
    rfl
  | succ k ih =>
    refine .step ⟨mem_cons_self, rfl⟩ fun child _ => ?_
    cases child
    · exact ih (q + 1) (by omega) havekids
    · refine .step ⟨by simp [Local.waiting], nofun, fun _ => rfl⟩ fun _ _ => ?_
      refine .step ⟨by simp [Local.waiting], by simp, rfl, rfl, rfl⟩ fun r _ => ?_
      have locked : Local.next p (Local.next p (Local.next p
          (.waiting q) (.isChild q) true) (.acquire (.proc q)) ()) (.reap q) r =
          { Local.waiting (if r = .alive then q + 1 else q) with held := [.proc q, .wait] } := by
        simp [Local.waiting, Local.rest, Local.decided]
      rw [locked]
      cases r with
      | reaped pid => exact follows_waitReturn
      | copyFails => exact follows_waitReturn
      | alive =>
        refine .step (mayRelease mem_cons_self rfl) fun _ _ => ?_
        have back : Local.next p { Local.waiting (q + 1) with held := [.proc q, .wait] }
            (.release (.proc q)) () = .waiting (q + 1) := by
          simp [Local.waiting, Local.rest]
        exact back ▸ ih (q + 1) (by omega) true

theorem follows_waitLoop (slot : p < N) (k : ℕ) :
    Leads N care p (waitLoop N p k) (.waiting 0) (.rest .run) := by
  induction k with
  | zero => exact .step trivial nofun
  | succ k ih =>
    refine (follows_waitScan N 0 (zero_add N) false).bind ?_
    rintro (v | havekids) _ rfl
    · exact rfl
    cases havekids
    · refine .step ⟨mem_cons_self, nofun, fun _ => rfl, nofun, nofun⟩ fun _ _ => ?_
      refine .ret ?_
      simp [waiting, rest, forget, Debt.drop]
    · refine (follows_killed .wait rfl rfl rfl rfl nofun).bind ?_
      rintro r _ ⟨rfl, -⟩
      cases r
      · refine bind (follows_sleep slot rfl nofun rfl rfl rfl (by simp [Chan.guard])
          ⟨rfl, rfl⟩ (fun _ => rfl) rfl nofun fun _ => rfl) ?_
        rintro _ _ rfl
        exact ih
      · refine .step ⟨mem_cons_self, nofun, fun _ => rfl, nofun, nofun⟩ fun _ _ => ?_
        refine .ret ?_
        simp [waiting, rest, forget, Debt.drop]

theorem follows_wait (slot : p < N) (fuel : ℕ) :
    Leads N care p (wait N p fuel) (.rest .run) (.rest .run) :=
  .step ⟨not_mem_nil, fun _ => rfl, nofun⟩ fun _ _ => follows_waitLoop slot fuel

/-! ## The pipe -/

def Local.piping (w : Writing) (d : Debt) (k : Know) (tested : Option Loop) : Local :=
  { rest .run with held := [.pipe], debt := d, know := k, writing := w, test := ⟨tested, false⟩ }

theorem Debt.drop_pipe (d : Debt) (dirty : d.dirty = none ∨ d.dirty = some .nread)
    (cleared : d.cleared.bind Chan.guard = some .pipe ∨ d.cleared = none) :
    d.drop .pipe = ⟨none, none⟩ := by
  rcases dirty with h | h <;> rcases cleared with h' | h' <;> simp [drop, h, h', Chan.guard]

theorem follows_pipeReturn {α : Type} {w : Writing} {d : Debt} {k : Know}
    {a : α} (settled : d.Settled care .pipe) (dropped : d.drop .pipe = ⟨none, none⟩) :
    Leads N care p (do
      release .pipe
      pure a : PProg α) (.piping w d k tested) (.rest .run) := by
  refine .step ⟨mem_cons_self, settled, nofun, nofun, nofun⟩ fun _ _ => ?_
  refine .ret ?_
  simp [piping, rest, dropped]

theorem follows_pipeEnd {α : Type} {w : Writing} {d : Debt} {k : Know}
    {a : α} (channel : c = .nread ∨ c = .nwrite)
    (dirty : d.dirty = none ∨ d.dirty = some c) :
    Leads N care p (do
      wakeup N p c
      release .pipe
      pure a : PProg α) (.piping w d k tested) (.rest .run) := by
  refine (follows_wakeup (.inl rfl) rfl (by simp [piping])).bind ?_
  rintro _ _ rfl
  have woken : d.woken [.pipe] c = ⟨none, some c⟩ := by
    rcases channel with rfl | rfl <;> rcases dirty with h | h <;> simp [woken, h, Chan.guard]
  refine follows_pipeReturn (d := d.woken [.pipe] c) ?_ ?_
  · rw [woken]
    nofun
  · rw [woken]
    rcases channel with rfl | rfl <;> simp [Debt.drop, Chan.guard]

/-- What a `pipewrite` owes its readers: it has put bytes only after it found the read end open. -/
def Owing (d : Debt) (k : Know) : Prop :=
  d.cleared = none ∧ (d.dirty = none ∨ d.dirty = some .nread ∧ k.readopen = true)

theorem follows_pipewriteLoop (slot : p < N) (fuel : ℕ) (bytes : List Byte) (i : ℕ) {w : Writing}
    {d : Debt} {k : Know} (begun : w = .block ∨ w = .loose) (owing : Owing d k) :
    Leads N care p (pipewriteLoop N p fuel bytes i) (.piping w d k tested) (.rest .run) := by
  induction fuel generalizing bytes i w d k tested with
  | zero =>
    cases bytes
    · exact .step trivial nofun
    · exact .step trivial nofun
  | succ fuel ih =>
    obtain ⟨clear, dirty⟩ := owing
    have dropped : d.drop .pipe = ⟨none, none⟩ :=
      d.drop_pipe (dirty.imp id And.left) (.inr clear)
    cases bytes with
    | nil => exact follows_pipeEnd (.inl rfl) (dirty.imp id And.left)
    | cons ch rest =>
      refine .step mem_cons_self fun open' expected => ?_
      cases open'
      · -- the read end was open when bytes were put, so there are none
        refine follows_pipeReturn (d := d) (fun c hc => ?_) dropped
        rcases dirty with h | ⟨-, h⟩
        · rw [h] at hc
          cases hc
        · cases expected h
      let known : Know := ⟨true, k.writeopen, k.full, k.empty⟩
      have writing : w ≠ .no := by rcases begun with rfl | rfl <;> nofun
      refine bind (ℓ := .piping w d known tested) (follows_killed .pipewrite rfl rfl rfl rfl
        fun _ => ⟨rfl, writing⟩) ?_
      rintro r _ ⟨rfl, expected⟩
      cases r
      · refine .step mem_cons_self fun full _ => ?_
        cases full
        · refine .step trivial fun ok _ => ?_
          cases ok
          · exact follows_pipeEnd (.inl rfl) (dirty.imp id And.left)
          · refine .step ⟨mem_cons_self, rfl, begun, dirty.imp id And.left, rfl⟩ fun _ _ => ?_
            exact ih rest (i + 1) (d := d.owe .nread) (k := ⟨true, k.writeopen, none, none⟩) begun
              ⟨clear, .inr ⟨rfl, rfl⟩⟩
        · have woken : d.woken [.pipe] .nread = ⟨none, some .nread⟩ := by
            rcases dirty with h | ⟨h, -⟩ <;> simp [woken, h, Chan.guard]
          refine bind
            (ℓ := .piping w d ⟨true, k.writeopen, some true, k.empty⟩ (some .pipewrite))
            (follows_wakeup (.inl rfl) rfl (by simp [piping])) ?_
          rintro _ _ rfl
          refine bind (follows_sleep slot rfl nofun rfl rfl (congrArg Debt.dirty woken)
            (by simp [Chan.guard]) ⟨rfl, rfl⟩ (fun _ => rfl) rfl (fun _ => begun)
            fun h => absurd rfl h) ?_
          rintro _ _ rfl
          have slept : (d.woken [.pipe] .nread).drop .pipe = ⟨none, none⟩ := by
            rw [woken]
            simp [Debt.drop, Chan.guard]
          exact ih (ch :: rest) i (w := .loose) (d := (d.woken [.pipe] .nread).drop .pipe)
            (k := .nothing) (.inr rfl) ⟨by rw [slept], by rw [slept]; exact .inl rfl⟩
      · refine follows_pipeReturn (d := d) (fun c hc _ => ?_) dropped
        have nread : c = .nread := by
          rcases dirty with h | ⟨h, -⟩
          · rw [h] at hc
            cases hc
          · rw [h] at hc
            exact (Option.some.inj hc).symm
        refine ⟨?_, nread⟩
        by_contra prompt
        cases expected rfl (by simpa using prompt) (nread ▸ hc) writing

theorem follows_pipewrite (slot : p < N) (fuel : ℕ) (bytes : List Byte) :
    Leads N care p (pipewrite N p fuel bytes) (.rest .run) (.rest .run) := by
  refine .step ⟨rfl, rfl⟩ fun _ _ => ?_
  refine .step ⟨not_mem_nil, fun _ => rfl, fun _ => rfl⟩ fun _ _ => ?_
  exact follows_pipewriteLoop (d := ⟨none, none⟩) (k := .nothing) slot fuel bytes 0 (.inl rfl)
    ⟨rfl, .inl rfl⟩

/-- In `piperead`, after some bytes have been taken. -/
def Taking (ℓ : Local) : Prop :=
  ∃ d k tested, ℓ = .piping .no d k tested ∧ (d.dirty = none ∨ d.dirty = some .nwrite)

theorem follows_pipereadCopy (n i : ℕ) (taking : Taking ℓ) :
    (pipereadCopy n i).Follows (protocol N care) p ℓ fun _ ℓ' => Taking ℓ' := by
  induction n generalizing i ℓ with
  | zero => exact .ret taking
  | succ n ih =>
    obtain ⟨d, k, tested, rfl, dirty⟩ := taking
    refine .step mem_cons_self fun empty _ => ?_
    cases empty
    · refine .step ⟨mem_cons_self, rfl, rfl, dirty⟩ fun _ _ => ?_
      refine .step trivial fun ok _ => ?_
      have taken : Taking (.piping .no (d.owe .nwrite) ⟨k.readopen, k.writeopen, none, none⟩ tested) :=
        ⟨_, _, _, rfl, .inr rfl⟩
      cases ok
      · exact .ret taken
      · exact ih (i + 1) taken
    · exact .ret ⟨d, _, tested, rfl, dirty⟩

theorem follows_pipereadEnd (n : ℕ) (taking : Taking ℓ) :
    Leads N care p (pipereadEnd N p n) ℓ (.rest .run) := by
  refine (follows_pipereadCopy n 0 taking).bind ?_
  rintro _ _ ⟨d, k, tested, rfl, dirty⟩
  exact follows_pipeEnd (.inr rfl) dirty

theorem follows_pipereadLoop (slot : p < N) (n fuel : ℕ) {k : Know} :
    Leads N care p (pipereadLoop N p n fuel) (.piping .no ⟨none, none⟩ k tested) (.rest .run) := by
  induction fuel generalizing k tested with
  | zero => exact .step trivial nofun
  | succ fuel ih =>
    refine .step mem_cons_self fun empty _ => ?_
    cases empty
    · exact follows_pipereadEnd n ⟨_, _, _, rfl, .inl rfl⟩
    refine .step mem_cons_self fun open' _ => ?_
    cases open'
    · exact follows_pipereadEnd n ⟨_, _, _, rfl, .inl rfl⟩
    refine bind (ℓ := .piping .no ⟨none, none⟩ ⟨k.readopen, true, k.full, some true⟩ tested)
      (follows_killed .piperead rfl rfl rfl rfl nofun) ?_
    rintro r _ ⟨rfl, -⟩
    cases r
    · refine bind (follows_sleep slot rfl nofun rfl rfl rfl (by simp [Chan.guard])
        ⟨rfl, rfl⟩ (fun _ => rfl) rfl nofun fun _ => rfl) ?_
      rintro _ _ rfl
      exact ih
    · exact follows_pipeReturn (d := ⟨none, none⟩) nofun rfl

theorem follows_piperead (slot : p < N) (fuel n : ℕ) :
    Leads N care p (piperead N p fuel n) (.rest .run) (.rest .run) :=
  .step ⟨not_mem_nil, fun _ => rfl, nofun⟩ fun _ _ => follows_pipereadLoop slot n fuel

theorem follows_pipeclose (writable : Bool) :
    Leads N care p (pipeclose N p writable) (.rest .run) (.rest .run) := by
  refine .step ⟨not_mem_nil, fun _ => rfl, fun _ => rfl⟩ fun _ _ => ?_
  refine .step ⟨mem_cons_self, rfl, rfl⟩ fun _ _ => ?_
  refine follows_pipeEnd (a := ()) (w := .no)
    (d := owe ⟨none, none⟩ (if writable then .nread else .nwrite)) ?_ (.inr rfl)
  cases writable
  · exact .inr rfl
  · exact .inl rfl

/-! ## Clock, console and other sleepers -/

/-- With a lock that guards none of the conditions above. -/
def Local.under (φ : Phase) (l : Lock) (tested : Option Loop) : Local :=
  { rest φ with held := [l], test := ⟨tested, false⟩ }

def Lock.Plain (l : Lock) : Prop := l = .ticks ∨ l = .cons ∨ ∃ k, l = .other k

theorem follows_return {α : Type} {φ : Phase} {l : Lock} {a : α} (awake : φ.Awake) (plain : l.Plain) :
    Leads N care p (do
      release l
      pure a : PProg α) (.under φ l tested) (.rest φ) := by
  have proper : l ≠ .proc p := by
    rcases plain with rfl | rfl | ⟨k, rfl⟩ <;> nofun
  refine .step ⟨mem_cons_self, nofun, fun _ => rfl, awake.not_falling,
    fun own => absurd own proper⟩ fun _ _ => ?_
  refine .ret ?_
  rcases plain with rfl | rfl | ⟨k, rfl⟩ <;> simp [under, rest, Debt.drop]

theorem follows_sleepUnder {l : Lock} (slot : p < N) (plain : l.Plain) (free : c.guard = none)
    (decided : c.inLoop = true → ∃ loop, tested = some loop ∧ loop ≠ .pipewrite) :
    Leads N care p (sleep p c l) (.under .run l tested) (.under .run l none) := by
  have proper : ∀ q, l ≠ .proc q := by
    rcases plain with rfl | rfl | ⟨k, rfl⟩ <;> nofun
  have unready : (under .run l tested).Unready N p c := by
    cases c <;> trivial
  have test : c.inLoop = true → (under .run l tested).decided = true := by
    intro inLoop
    obtain ⟨loop, rfl, other⟩ := decided inLoop
    cases loop <;> first | rfl | exact absurd rfl other
  have nwrite : c ≠ .nwrite := by
    rintro rfl
    cases free
  refine (follows_sleep slot rfl proper rfl rfl rfl (by simp [free]) unready test rfl
    (fun h => absurd h nwrite) fun _ => rfl).mono ?_
  rintro _ _ rfl
  rcases plain with rfl | rfl | ⟨k, rfl⟩ <;>
    simp [slept, under, rest, Debt.drop, nwrite]

theorem follows_sleepLoop (slot : p < N) (ticks0 n : BitVec 32) (fuel : ℕ) :
    Leads N care p (sleepLoop p ticks0 n fuel) (.under .run .ticks tested) (.rest .run) := by
  induction fuel generalizing tested with
  | zero => exact .step trivial nofun
  | succ fuel ih =>
    refine .step trivial fun ticks _ => ?_
    change Follows _ _ (if ticks - ticks0 < n then _ else _) _ _
    split
    · refine bind (ℓ := under .run .ticks tested)
        (follows_killed .sleep rfl rfl rfl rfl nofun) ?_
      rintro r _ ⟨rfl, -⟩
      cases r
      · refine bind (ℓ := under .run .ticks (some .sleep))
          (follows_sleepUnder slot (.inl rfl) rfl fun _ => ⟨_, rfl, nofun⟩) ?_
        rintro _ _ rfl
        exact ih
      · exact follows_return (.inl rfl) (.inl rfl)
    · exact follows_return (.inl rfl) (.inl rfl)

theorem follows_sysSleep (slot : p < N) (fuel : ℕ) (n : BitVec 32) :
    Leads N care p (sysSleep p fuel n) (.rest .run) (.rest .run) :=
  .step ⟨not_mem_nil, fun _ => rfl, nofun⟩ fun _ _ =>
    .step trivial fun ticks0 _ => follows_sleepLoop slot ticks0 n fuel

theorem follows_wakeUnder {φ : Phase} {l : Lock}
    (awake : φ.Awake) (plain : l.Plain) (free : c.guard = none) :
    Leads N care p (wakeup N p c) (.under φ l tested) (.under φ l tested) := by
  refine (follows_wakeup awake rfl ?_).mono ?_
  · rcases plain with rfl | rfl | ⟨k, rfl⟩ <;> simp [under]
  · rintro _ _ rfl
    simp [under, rest, woken, free]

theorem follows_clockintr : Leads N care p (clockintr N p) (.rest .off) (.rest .off) := by
  refine .step ⟨not_mem_nil, fun _ => rfl, nofun⟩ fun _ _ => ?_
  refine .step trivial fun _ _ => ?_
  refine bind (x := wakeup N p .ticks) (ℓ := under .off .ticks none)
    (follows_wakeUnder (.inr rfl) (.inl rfl) rfl) ?_
  rintro _ _ rfl
  exact follows_return (a := ()) (.inr rfl) (.inl rfl)

theorem follows_consolereadEnd (target n : ℕ) :
    Leads N care p (consolereadEnd target n) (.under .run .cons tested) (.rest .run) :=
  follows_return (.inl rfl) (.inr (.inl rfl))

theorem follows_consolereadLoop (slot : p < N) (target fuel n : ℕ) :
    Leads N care p (consolereadLoop p target fuel n) (.under .run .cons tested) (.rest .run) := by
  induction fuel generalizing n tested with
  | zero =>
    cases n
    · exact .step trivial nofun
    · exact .step trivial nofun
  | succ fuel ih =>
    cases n with
    | zero => exact follows_consolereadEnd target 0
    | succ n =>
      refine .step trivial fun empty _ => ?_
      cases empty
      · refine .step trivial fun c _ => ?_
        change Follows _ _ (if c = 4 then _ else _) _ _
        split
        · split
          · exact .step trivial fun _ _ => follows_consolereadEnd target (n + 1)
          · exact follows_consolereadEnd target (n + 1)
        · refine .step trivial fun ok _ => ?_
          cases ok
          · exact follows_consolereadEnd target (n + 1)
          · change Follows _ _ (if c = 10 then _ else _) _ _
            split
            · exact follows_consolereadEnd target n
            · exact ih n
      · refine bind (x := killed p .consoleread) (ℓ := under .run .cons tested)
          (follows_killed .consoleread rfl rfl rfl rfl nofun) ?_
        rintro r _ ⟨rfl, -⟩
        cases r
        · refine bind (ℓ := under .run .cons (some .consoleread))
            (follows_sleepUnder slot (.inr (.inl rfl)) rfl fun _ => ⟨_, rfl, nofun⟩) ?_
          rintro _ _ rfl
          exact ih (n + 1)
        · exact follows_return (.inl rfl) (.inr (.inl rfl))

theorem follows_consoleread (slot : p < N) (fuel n : ℕ) :
    Leads N care p (consoleread p fuel n) (.rest .run) (.rest .run) :=
  .step ⟨not_mem_nil, fun _ => rfl, nofun⟩ fun _ _ => follows_consolereadLoop slot n fuel n

theorem follows_consoleintr (c : Byte) :
    Leads N care p (consoleintr N p c) (.rest .off) (.rest .off) := by
  refine .step ⟨not_mem_nil, fun _ => rfl, nofun⟩ fun _ _ => ?_
  refine .step trivial fun line _ => ?_
  have woken : Leads N care p (consoleWake N p line) (.under .off .cons none) (.under .off .cons none) := by
    cases line
    · exact rfl
    · exact follows_wakeUnder (.inr rfl) (.inr (.inl rfl)) rfl
  refine bind (x := consoleWake N p line) (ℓ := under .off .cons none) woken ?_
  rintro _ _ rfl
  exact follows_return (a := ()) (.inr rfl) (.inr (.inl rfl))

theorem follows_sleepWhile (slot : p < N) (k l n : ℕ) :
    Leads N care p (sleepWhile p k l n) (.under .run (.other l) none) (.rest .run) := by
  induction n with
  | zero => exact .step trivial nofun
  | succ n ih =>
    refine .step trivial fun again _ => ?_
    cases again
    · exact follows_return (a := ()) (.inl rfl) (.inr (.inr ⟨l, rfl⟩))
    · refine bind (x := sleep p (.other k) (.other l)) (ℓ := under .run (.other l) none)
        (follows_sleepUnder slot (.inr (.inr ⟨l, rfl⟩)) rfl nofun) ?_
      rintro _ _ rfl
      exact ih

theorem follows_wakeupOther {φ : Phase} (awake : φ.Awake) (k : ℕ) :
    Leads N care p (wakeup N p (.other k)) (.rest φ) (.rest φ) := by
  refine (follows_wakeup awake rfl (fun _ _ => not_mem_nil)).mono ?_
  rintro _ _ rfl
  simp [rest, woken, Chan.guard]

/-! ## Preemption -/

/-- The ghost value of a process at a point of its program, as far as `yield` depends on it. -/
structure Point.Fits (p : ℕ) (x : Point) (ℓ : Local) : Prop where
  held : ℓ.held = x.held
  run : x.runs = true → .proc p ∉ ℓ.held → ℓ.phase = .run
  untested : (∀ l ∈ ℓ.held, l.isProc = true) → ℓ.test.tested = none
  unsure : .proc p ∉ ℓ.held → ℓ.test.sure = false

theorem Point.Fits.rest {φ : Phase} {runs : Bool} (run : runs = true → φ = .run) :
    Point.Fits p ⟨[], runs⟩ (.rest φ) :=
  ⟨rfl, fun h _ => run h, fun _ => rfl, fun _ => rfl⟩

theorem Point.Fits.next {x : Point} {o : Step} (fits : x.Fits p ℓ) (allowed : ℓ.Allows N care p o)
    (r : o.Res) : (x.next p o).Fits p (ℓ.next p o r) := by
  obtain ⟨held, run, untested, unsure⟩ := fits
  have before {l l' : Lock} (ne : l' ≠ l) (free : l' ∉ ℓ.held.erase l) : l' ∉ ℓ.held :=
    fun mem => free ((mem_erase_of_ne ne).mpr mem)
  refine ⟨by simp only [Local.next, Point.next, held], fun runs free => ?_, fun procs => ?_,
    fun free => ?_⟩
  · cases o with
    | acquire l => exact run runs fun mem => free (mem_cons_of_mem _ mem)
    | release l =>
      by_cases own : l = .proc p
      · exact allowed.2.2.2.2 own
      · exact run runs (before (Ne.symm own) free)
    | releaseFor l c => exact absurd allowed.2.1 (before (allowed.2.2.1 p).symm free)
    | sleeping c => cases (run runs free).symm.trans allowed
    | yielding => exact absurd allowed.1 free
    | zombie status => exact absurd allowed.2.1 free
    | swtch => cases runs
    | resume => rfl
    | _ => exact run runs free
  · cases o with
    | acquire l =>
      have tested := untested fun l' mem => procs l' (mem_cons_of_mem _ mem)
      dsimp only [Local.next, Test.next]
      split_ifs
      · rfl
      · exact tested
    | release l =>
      dsimp only [Local.next, Test.next]
      split_ifs with proc
      · refine untested fun l' mem => ?_
        by_cases e : l' = l
        · rw [e, proc]
        · exact procs l' ((mem_erase_of_ne e).mpr mem)
      · rfl
    | releaseFor l c => exact allowed.2.2.2.2.2.2.2.2.2.2.2.2
    | swtch => exact untested fun l mem => by rw [allowed.1, mem_singleton] at mem; rw [mem]; rfl
    | resume => exact untested fun l mem => by rw [allowed.2.1] at mem; cases mem
    | isKilled loop =>
      obtain ⟨l, mem, other⟩ := allowed.2.2.2.2
      cases other.symm.trans (procs l mem)
    | putByte b => rfl
    | _ => exact untested procs
  · cases o with
    | acquire l =>
      obtain ⟨ne, free⟩ := ne_and_not_mem_of_not_mem_cons free
      simp [Ne.symm ne, unsure free]
    | release l =>
      by_cases own : l = .proc p
      · simp [own]
      · simp [unsure (before (Ne.symm own) free)]
    | releaseFor l c => exact absurd allowed.2.1 (before (allowed.2.2.1 p).symm free)
    | resume => exact unsure (by rw [allowed.2.1]; exact not_mem_nil)
    | swtch | isKilled => rfl
    | _ => exact unsure free

theorem Point.Fits.yield {x : Point} (fits : x.Fits p ℓ) (here : x.Open) (slot : p < N) :
    Leads N care p (yield p) ℓ ℓ := by
  have held : ℓ.held = [] := fits.held.trans here.1
  have idle : .proc p ∉ ℓ.held := by
    rw [held]
    exact not_mem_nil
  have tested := fits.untested fun l mem => by rw [held] at mem; cases mem
  refine follows_yield slot held (fits.run here.2 idle) ?_
  rw [← tested, ← fits.unsure idle]

theorem follows_preempted {x y : PProg Unit} {point : Point} {Q : Unit → Local → Prop} (slot : p < N)
    (hx : x.Follows (protocol N care) p ℓ Q) (preempted : Preempted p point x y)
    (fits : point.Fits p ℓ) : y.Follows (protocol N care) p ℓ Q := by
  refine hx.inserts (J := fun point ℓ => point.Fits p ℓ) ?_ ?_ preempted fits
  · rintro point ℓ o r _ fits allowed ⟨-, rfl⟩
    exact fits.next allowed r
  · exact fun point ℓ fits here => fits.yield here slot

/-! ## Everything that may start -/

theorem follows_call {c : Call} (slot : p < N) (admitted : care.Admits c) :
    (c.prog N p).Follows (protocol N care) p (.rest .run) fun _ ℓ' => ℓ'.Idle := by
  have running {α : Type} {x : PProg α}
      (hx : Leads N care p x (.rest .run) (.rest .run)) :
      x.Follows (protocol N care) p (.rest .run) fun _ ℓ' => ℓ'.Idle :=
    hx.mono fun _ _ h => ⟨.run, .inl rfl, h⟩
  have drop {α : Type} {x : PProg α}
      (hx : Leads N care p x (.rest .run) (.rest .run)) :
      (x >>= fun _ => Prog.ret ()).Follows (protocol N care) p (.rest .run) fun _ ℓ' => ℓ'.Idle :=
    (running hx).bind fun _ _ h => h
  cases c with
  | fork => exact drop follows_fork
  | exit status => exact follows_exit.mono fun _ _ h => ⟨.off, .inr rfl, h⟩
  | wait fuel => exact drop (follows_wait slot fuel)
  | getppid => exact .step trivial fun _ _ => ⟨.run, .inl rfl, rfl⟩
  | kill pid => exact drop (follows_kill admitted)
  | fault => exact running follows_setkilled
  | yield => exact running (follows_yield slot rfl rfl rfl)
  | pipewrite fuel bytes => exact drop (follows_pipewrite slot fuel bytes)
  | piperead fuel n => exact drop (follows_piperead slot fuel n)
  | pipeclose writable => exact running (follows_pipeclose writable)
  | sleep fuel n => exact drop (follows_sysSleep slot fuel n)
  | consoleread fuel n => exact drop (follows_consoleread slot fuel n)
  | sleepOn k l fuel =>
    exact running (.step ⟨not_mem_nil, fun _ => rfl, nofun⟩ fun _ _ => follows_sleepWhile slot k l fuel)
  | wakeup k => exact running (follows_wakeupOther (.inl rfl) k)

theorem follows_interrupt (i : Interrupt) :
    (i.prog N p).Follows (protocol N care) p (.rest .off) fun _ ℓ' => ℓ'.Idle := by
  have off {x : PProg Unit}
      (hx : Leads N care p x (.rest .off) (.rest .off)) :
      x.Follows (protocol N care) p (.rest .off) fun _ ℓ' => ℓ'.Idle :=
    hx.mono fun _ _ h => ⟨.off, .inr rfl, h⟩
  cases i with
  | clock => exact off follows_clockintr
  | console c => exact off (follows_consoleintr c)
  | device k => exact off (follows_wakeupOther (.inr rfl) k)

end Xv6.Proc
