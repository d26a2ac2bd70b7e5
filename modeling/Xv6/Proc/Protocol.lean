import Xv6.Proc.Prog
import Xv6.Lib.Protocol

/-!
# The protocol of a process

What a process in the kernel knows and owes at each point of its program: the locks it holds, how far a
call has got, what it has read under a lock that it still holds, and which channel it has made ready and
not yet woken.  `Local.Allows` lists what each step requires of the process that takes it, and
`Local.next` what it learns and owes afterwards.
-/

namespace Xv6.Proc

/-- The lock that guards the condition that the sleepers on a channel wait for. -/
def Chan.guard : Chan → Option Lock
  | proc _ => some .wait
  | nread | nwrite => some .pipe
  | _ => none

/-- The sleepers on the channel are in one of the loops that test `killed`. -/
def Chan.inLoop : Chan → Bool
  | other _ => false
  | _ => true

/-- What a process does with its own `p->state`. -/
inductive Phase where
  /-- It has not started, has exited, or is a CPU. -/
  | off
  | run
  /-- In `sleep`, after the release of the lock. -/
  | falling (c : Chan)
  /-- In `sleep`, after `p->state = SLEEPING`. -/
  | asleep (c : Chan)
  /-- In `yield`, after `p->state = RUNNABLE`. -/
  | paused
  deriving DecidableEq

def Phase.Awake (φ : Phase) : Prop := φ = .run ∨ φ = .off

/-- Conditions that a process has changed or knows of, under their lock. -/
structure Debt where
  /-- The channel that it has made ready and still has to wake. -/
  dirty : Option Chan
  /-- The channel that nobody sleeps on. -/
  cleared : Option Chan

/-- What a process that holds the pipe's lock knows about the pipe. -/
structure Know where
  readopen : Bool
  writeopen : Bool
  full : Option Bool
  empty : Option Bool

/-- How far a call of `pipewrite` has got. -/
inductive Writing where
  | no
  /-- Before it has taken the pipe's lock. -/
  | fresh
  /-- It has held the lock ever since. -/
  | block
  /-- It has slept. -/
  | loose
  deriving DecidableEq

/-- What a process knows about its family. -/
structure Family where
  /-- `wait`: the slots below hold no zombie child. -/
  scanned : ℕ
  /-- `wait`: a slot that holds a child. -/
  kin : Option ℕ
  /-- `fork`: the slot of the child, and whether its parent has been set. -/
  child : Option (ℕ × Bool)
  /-- `exit`: the status, and the slots below hold no child. -/
  exit : Option (BitVec 32 × ℕ)
  /-- `exit`: the parent. -/
  parent : Option (Option ℕ)

/-- What a process knows of its `killed` flag. -/
structure Test where
  /-- The loop in which it has found the flag clear. -/
  tested : Option Loop
  /-- The flag is clear as long as the process holds its own lock. -/
  sure : Bool

/-- What a process has done so far, as far as the invariants need it. -/
structure Local where
  held : List Lock
  phase : Phase
  scan : Option (Chan × ℕ)
  debt : Debt
  know : Know
  writing : Writing
  family : Family
  test : Test

namespace Debt

def drop (d : Debt) (l : Lock) : Debt where
  dirty := if d.dirty.bind Chan.guard = some l then none else d.dirty
  cleared := if d.cleared.bind Chan.guard = some l then none else d.cleared

def woken (d : Debt) (held : List Lock) (c : Chan) : Debt where
  dirty := if d.dirty = some c then none else d.dirty
  cleared := if c.guard.any (· ∈ held) then some c else d.cleared

def owe (d : Debt) (c : Chan) : Debt := ⟨some c, d.cleared⟩

/-- Nothing is owed on the conditions under `l`, except that a killed `pipewrite` owes its readers a
`wakeup`. -/
def Settled (d : Debt) (care : Care) (l : Lock) : Prop :=
  ∀ c, d.dirty = some c → c.guard = some l → care.prompt = false ∧ c = .nread

end Debt

def Know.nothing : Know := ⟨false, false, none, none⟩

/-- What is left of the knowledge when `wait_lock` is released. -/
@[simp, grind] def Family.forget (f : Family) : Family := ⟨0, none, f.child, f.exit, none⟩

namespace Local

variable (ℓ : Local)

/-- The process is about to sleep on a condition that it has found not to hold. -/
def Unready (N p : ℕ) : Chan → Prop
  | .proc q => q = p ∧ ℓ.family.scanned = N
  | .nread => ℓ.know.empty = some true ∧ ℓ.know.writeopen = true
  | .nwrite => ℓ.know.full = some true ∧ ℓ.know.readopen = true
  | _ => True

def decided : Bool :=
  match ℓ.test.tested with
  | none => false
  | some .pipewrite => ℓ.know.full == some true
  | some _ => true

/-- What a step requires of the process that takes it. -/
@[simp] def Allows (N : ℕ) (care : Care) (p : ℕ) : Step → Prop
  | .acquire l =>
      l ∉ ℓ.held ∧ (l.isProc = false → ℓ.scan = none) ∧ (l = .proc p → ℓ.phase = .run)
  | .release l =>
      l ∈ ℓ.held ∧ ℓ.debt.Settled care l ∧ (l = .wait → ℓ.family.exit = none) ∧
        (∀ c, ℓ.phase ≠ .falling c) ∧ (l = .proc p → ℓ.phase = .run)
  | .releaseFor l c =>
      l ∈ ℓ.held ∧ .proc p ∈ ℓ.held ∧ (∀ q, l ≠ .proc q) ∧ ℓ.phase = .run ∧ ℓ.scan = none ∧
        ℓ.debt.dirty = none ∧ (∀ l', c.guard = some l' → l' = l) ∧ ℓ.Unready N p c ∧
        (c.inLoop = true → ℓ.test.sure = true) ∧ ℓ.family.exit = none ∧
        (c = .nwrite → ℓ.writing = .block ∨ ℓ.writing = .loose) ∧
        (c ≠ .nwrite → ℓ.writing = .no) ∧ ℓ.test.tested = none
  | .sleeping c => ℓ.phase = .falling c
  | .swtch => ℓ.held = [.proc p] ∧ ℓ.phase ≠ .run ∧ ∀ c, ℓ.phase ≠ .falling c
  | .resume => p < N ∧ ℓ.held = [] ∧ ℓ.phase ≠ .run ∧ ∀ c, ℓ.phase ≠ .falling c
  | .clearChan => ℓ.phase = .run
  | .yielding => .proc p ∈ ℓ.held ∧ ℓ.phase = .run
  | .wakeupBegin _ => ℓ.scan = none ∧ ℓ.phase.Awake
  | .wakeIf q c =>
      q ≠ p ∧ .proc q ∈ ℓ.held ∧
        ∃ j, ℓ.scan = some (c, j) ∧ ∀ i, j ≤ i → i < q → i = p
  | .wakeupEnd => ℓ.phase.Awake ∧ ∃ c j, ℓ.scan = some (c, j) ∧ ∀ i, j ≤ i → i < N → i = p
  | .killIf q pid =>
      .proc q ∈ ℓ.held ∧ (care.nonzero = true → pid ≠ 0) ∧ ℓ.test = ⟨none, false⟩ ∧ ℓ.phase = .run
  | .isKilled loop =>
      .proc p ∈ ℓ.held ∧ ℓ.phase = .run ∧ ℓ.scan = none ∧
        (loop = .pipewrite → .pipe ∈ ℓ.held ∧ ℓ.writing ≠ .no) ∧ ∃ l ∈ ℓ.held, l.isProc = false
  | .setKilled => .proc p ∈ ℓ.held ∧ ℓ.phase = .run ∧ ℓ.test = ⟨none, false⟩
  | .allocSlot q => q < N ∧ .proc q ∈ ℓ.held ∧ ℓ.phase = .run ∧ ℓ.family.child = none
  | .freeSlot q => .proc q ∈ ℓ.held ∧ ℓ.phase = .run ∧ ℓ.family.child = some (q, false)
  | .setParent q =>
      .wait ∈ ℓ.held ∧ ℓ.phase = .run ∧ ℓ.family.child = some (q, false) ∧ ℓ.family.exit = none ∧
        ℓ.family.scanned = 0
  | .startSlot q => .proc q ∈ ℓ.held ∧ ℓ.phase = .run ∧ ℓ.family.child = some (q, true)
  | .exiting _ => ℓ.phase = .run ∧ ℓ.family.exit = none ∧ ℓ.family.child = none
  | .reparent q =>
      .wait ∈ ℓ.held ∧ ℓ.phase = .run ∧ ℓ.debt.dirty = none ∧ ℓ.family.child = none ∧
        ℓ.family.kin = none ∧ ℓ.family.parent = none ∧ ∃ status, ℓ.family.exit = some (status, q)
  | .myParent => .wait ∈ ℓ.held
  | .zombie status =>
      .wait ∈ ℓ.held ∧ .proc p ∈ ℓ.held ∧ ℓ.phase = .run ∧ ℓ.family.exit = some (status, N) ∧
        ℓ.family.child = none ∧
        ∃ r, ℓ.family.parent = some r ∧ ∀ q, r = some q → ℓ.debt.cleared = some (.proc q)
  | .isChild q => .wait ∈ ℓ.held ∧ ℓ.family.scanned = q
  | .reap q =>
      .wait ∈ ℓ.held ∧ .proc q ∈ ℓ.held ∧ ℓ.phase = .run ∧ ℓ.family.scanned = q ∧
        ℓ.family.kin = some q
  | .writeBegin => ℓ.writing = .no ∧ ℓ.debt.dirty = none
  | .readopen | .writeopen | .full | .empty => .pipe ∈ ℓ.held
  | .putByte _ =>
      .pipe ∈ ℓ.held ∧ ℓ.know.full = some false ∧ (ℓ.writing = .block ∨ ℓ.writing = .loose) ∧
        (ℓ.debt.dirty = none ∨ ℓ.debt.dirty = some .nread) ∧ ℓ.scan = none
  | .takeByte =>
      .pipe ∈ ℓ.held ∧ ℓ.know.empty = some false ∧ ℓ.writing = .no ∧
        (ℓ.debt.dirty = none ∨ ℓ.debt.dirty = some .nwrite)
  | .closeEnd _ => .pipe ∈ ℓ.held ∧ ℓ.debt.dirty = none ∧ ℓ.writing = .no
  | .getppid | .attempt | .more | .ticks | .tick | .consEmpty | .consTake | .consUntake
  | .consIntr _ => True

def Expects (care : Care) : (o : Step) → o.Res → Prop
  | .readopen, r => ℓ.know.readopen = true → r = true
  | .isKilled .pipewrite, r =>
      care.prompt = true → ℓ.debt.dirty = some .nread → ℓ.writing ≠ .no → r = false
  | _, _ => True

end Local

/-! ## What a step changes -/

@[simp, grind] def Phase.next (φ : Phase) : Step → Phase
  | .releaseFor _ c => .falling c
  | .sleeping c => .asleep c
  | .resume => .run
  | .yielding => .paused
  | .zombie _ => .off
  | _ => φ

@[simp, grind] def scanNext (scan : Option (Chan × ℕ)) : Step → Option (Chan × ℕ)
  | .wakeupBegin c => some (c, 0)
  | .wakeIf q c => some (c, q + 1)
  | .wakeupEnd => none
  | _ => scan

@[simp, grind] def Debt.next (d : Debt) (held : List Lock) (scan : Option (Chan × ℕ)) :
    (o : Step) → o.Res → Debt
  | .release l, _ | .releaseFor l _, _ => d.drop l
  | .wakeupEnd, _ => scan.elim d fun x => d.woken held x.1
  | .reparent _, r => if r then d.owe (.proc initproc) else d
  | .putByte _, _ => d.owe .nread
  | .takeByte, _ => d.owe .nwrite
  | .closeEnd writable, _ => d.owe (if writable then .nread else .nwrite)
  | _, _ => d

@[simp, grind] def Know.next (k : Know) : (o : Step) → o.Res → Know
  | .release l, _ | .releaseFor l _, _ => if l = .pipe then .nothing else k
  | .readopen, r => ⟨r, k.writeopen, k.full, k.empty⟩
  | .writeopen, r => ⟨k.readopen, r, k.full, k.empty⟩
  | .full, r => ⟨k.readopen, k.writeopen, some r, k.empty⟩
  | .empty, r => ⟨k.readopen, k.writeopen, k.full, some r⟩
  | .putByte _, _ | .takeByte, _ => ⟨k.readopen, k.writeopen, none, none⟩
  | .closeEnd writable, _ => ⟨k.readopen && writable, k.writeopen && !writable, k.full, k.empty⟩
  | _, _ => k

@[simp, grind] def Writing.next (w : Writing) : Step → Writing
  | .writeBegin => .fresh
  | .acquire l => if l = .pipe ∧ w = .fresh then .block else w
  | .release l => if l = .pipe then .no else w
  | .releaseFor _ c => if c = .nwrite then .loose else w
  | _ => w

@[simp, grind] def Family.next (f : Family) : (o : Step) → o.Res → Family
  | .release l, _ | .releaseFor l _, _ => if l = .wait then f.forget else f
  | .isChild q, r => if r then { f with kin := some q } else { f with scanned := q + 1, kin := none }
  | .reap q, r => { f with scanned := if r = .alive then q + 1 else q, kin := none }
  | .allocSlot q, r => { f with child := if r.isSome then some (q, false) else none }
  | .freeSlot _, _ | .startSlot _, _ => { f with child := none }
  | .setParent q, _ => { f with child := some (q, true) }
  | .exiting status, _ => { f with exit := some (status, 0) }
  | .reparent q, _ => { f with exit := f.exit.map fun x => (x.1, q + 1) }
  | .myParent, r => { f with parent := some r }
  | .zombie _, _ => { f with exit := none, parent := none }
  | _, _ => f

/-- The test after a step of `p`; `decided` tells whether a sleep has to follow. -/
@[simp, grind] def Test.next (p : ℕ) (decided : Bool) (t : Test) : (o : Step) → o.Res → Test
  | .acquire l, _ => if l = .proc p then ⟨none, decided⟩ else t
  | .release l, _ => ⟨if l.isProc then t.tested else none, t.sure && decide (l ≠ .proc p)⟩
  | .swtch, _ => ⟨t.tested, false⟩
  | .isKilled loop, r => ⟨if r then none else some loop, false⟩
  | .putByte _, _ => ⟨none, t.sure⟩
  | _, _ => t

@[simp, grind] def Local.next (p : ℕ) (ℓ : Local) (o : Step) (r : o.Res) : Local where
  held := heldNext p ℓ.held o
  phase := ℓ.phase.next o
  scan := scanNext ℓ.scan o
  debt := ℓ.debt.next ℓ.held ℓ.scan o r
  know := ℓ.know.next o r
  writing := ℓ.writing.next o
  family := ℓ.family.next o r
  test := ℓ.test.next p ℓ.decided o r

def protocol (N : ℕ) (care : Care) : Protocol PSig Local where
  Allowed p ℓ o := ℓ.Allows N care p o
  Next p ℓ o r ℓ' := ℓ.Expects care o r ∧ ℓ' = ℓ.next p o r

def Local.rest (φ : Phase) : Local :=
  ⟨[], φ, none, ⟨none, none⟩, .nothing, .no, ⟨0, none, none, none, none⟩, ⟨none, false⟩⟩

def Local.Idle (ℓ : Local) : Prop := ∃ φ : Phase, φ.Awake ∧ ℓ = .rest φ

end Xv6.Proc

theorem Prog.Follows.step {α : Type} {N : ℕ} {care : Xv6.Proc.Care} {p : ℕ} {ℓ : Xv6.Proc.Local}
    {o : Xv6.Proc.Step} {k : o.Res → Xv6.Proc.PProg α} {Q : α → Xv6.Proc.Local → Prop}
    (allowed : ℓ.Allows N care p o)
    (rest : ∀ r, ℓ.Expects care o r → (k r).Follows (Xv6.Proc.protocol N care) p (ℓ.next p o r) Q) :
    (Prog.op o k : Xv6.Proc.PProg α).Follows (Xv6.Proc.protocol N care) p ℓ Q :=
  .op allowed fun r _ next => next.2 ▸ rest r next.1
