import Xv6.Lib.Crash
import Xv6.Proc.System

/-!
# The first process

The first process runs `user/init.c`: it starts a shell, waits for it and starts the next one.  Its
system calls go through `usertrap`, which calls `exit` when it finds the flag `killed` set.  All other
processes make any calls they like.
-/

namespace Xv6.Proc

/-! ## The program -/

/-- The steps of a process in the kernel, and its test of `killed` at a trap. -/
inductive UStep where
  | kernel (o : Step)
  /-- `usertrap`: `killed(p)`, under `p->lock`. -/
  | isKilled

@[reducible] def UStep.Res : UStep → Type
  | kernel o => o.Res
  | isKilled => Bool

abbrev USig : Sig := ⟨UStep, UStep.Res⟩

abbrev UProg := Prog USig

def kernel {α : Type} (x : PProg α) : UProg α := x.lift (T := USig) fun o => .op (.kernel o) .ret

def trapKilled (p : ℕ) : UProg Bool := do
  kernel (acquire (.proc p))
  let k ← Prog.perform (S := USig) .isKilled
  kernel (release (.proc p))
  pure k

def leave {α : Type} (N p : ℕ) (status : BitVec 32) : UProg (Option α) := do
  kernel (exit N p status)
  pure none

/-- A system call from user mode; `none` if the process has exited. -/
def syscall {α : Type} (N p : ℕ) (x : PProg α) : UProg (Option α) := do
  let before ← trapKilled p
  if before then leave N p (-1)
  else
    let r ← kernel x
    let after ← trapKilled p
    if after then leave N p (-1) else pure (some r)

def timer (N p : ℕ) : UProg (Option Unit) := do
  let k ← trapKilled p
  if k then leave N p (-1)
  else
    kernel (yield p)
    pure (some ())

/-- What else the first process does: a timer interrupts it, or it makes a call that may sleep under
lock `l` on `k`. -/
inductive Item where
  | timer
  | file (k l fuel : ℕ)

def Item.prog (N : ℕ) : Item → UProg (Option Unit)
  | timer => Proc.timer N initproc
  | file k l fuel => syscall N initproc do
      acquire (.other l)
      sleepWhile initproc k l fuel

def items (N : ℕ) : List Item → UProg (Option Unit)
  | [] => pure (some ())
  | i :: is => do
      match ← i.prog N with
      | some () => items N is
      | none => pure none

def unfollowed {α : Type} : UProg α := kernel more

/-- The inner loop of `init.c`, which waits for the shell `pid`. -/
def awaitShell (N fuel : ℕ) (busy : ℕ → List Item) (pid : ℤ) : ℕ → UProg (Option Unit)
  | 0 => unfollowed
  | k + 1 => do
      match ← items N (busy k) with
      | none => pure none
      | some () =>
          match ← syscall N initproc (wait N initproc fuel) with
          | none => pure none
          | some wpid =>
              if wpid = pid then pure (some ())
              else if wpid < 0 then leave N initproc 1
              else awaitShell N fuel busy pid k

/-- `exec("sh", argv)`; what the shell does is not followed. -/
def execShell (N : ℕ) : UProg (Option Unit) := do
  match ← syscall N initproc (atomic .attempt) with
  | none => pure none
  | some done => if done then unfollowed else leave N initproc 1

/-- The outer loop of `init.c`.  With `forks`, only the runs in which its `fork` succeeds are
followed. -/
def initLoop (N fuel : ℕ) (busy : ℕ → ℕ → List Item) (forks : Bool) : ℕ → UProg (Option Unit)
  | 0 => unfollowed
  | n + 1 => do
      match ← items N (busy n fuel) with
      | none => pure none
      | some () =>
          match ← syscall N initproc (fork N) with
          | none => pure none
          | some pid =>
              if pid < 0 then if forks then unfollowed else leave N initproc 1
              else if pid = 0 then execShell N
              else
                match ← awaitShell N fuel (busy n) pid fuel with
                | none => pure none
                | some () => initLoop N fuel busy forks n

def initMain (N fuel : ℕ) (busy : ℕ → ℕ → List Item) (forks : Bool) (n : ℕ) : UProg Unit := do
  kernel (forkret initproc)
  let _ ← initLoop N fuel busy forks n
  pure ()

/-! ## The runs -/

/-- What the runs under consideration avoid: a call `kill(1)`, a failing `fork` of the first process, and
the reuse of process ids after `2 ^ 31` processes. -/
structure Mercy where
  spares : Bool
  forks : Bool
  fresh : Bool

def State.merciful (s : State) (mercy : Mercy) : Step → Bool
  | .killIf _ pid => !(mercy.spares && pid == 1)
  | .allocSlot _ => !(mercy.fresh && decide (s.nextpid.toInt ≤ 0))
  | _ => true

/-- `wait(0)` of the first process has no status to copy, so that its copy succeeds. -/
def State.uncopied (s : State) (p : ℕ) : Step → State
  | .reap _ => if p = initproc then { s with oracle := true :: s.oracle } else s
  | _ => s

/-- One step of process `p`, in user mode or in the kernel. -/
def UStep.exec (N : ℕ) (mercy : Mercy) (p : ℕ) : Handler USig State Panic
  | .kernel o, s =>
      if s.merciful mercy o then Step.exec N p o (s.uncopied p o) else .error .blocked
  | .isKilled, s => .ok (s.killed p, s)

def Point.after (p : ℕ) (x : Point) : UStep → Point
  | .kernel o => x.next p o
  | .isKilled => x

/-- The program of the first process with the calls of `yield` that timer interrupts add to it. -/
abbrev UPreempted (p : ℕ) : Point → UProg Unit → UProg Unit → Prop :=
  Prog.Inserts (Point.after p) Point.Open (kernel (yield p))

/-- What a process does next: the first one runs `init`. -/
inductive UStart (N : ℕ) (mercy : Mercy) (p : ℕ) (s : State) : UProg Unit → Prop
  | init (first : p = initproc) (slot : initproc < N) (ready : s.pstate p = .runnable) (fuel : ℕ)
      (busy : ℕ → ℕ → List Item) (n : ℕ) {body : UProg Unit}
      (preempted : UPreempted p ⟨[], false⟩ (initMain N fuel busy mercy.forks n) body) :
      UStart N mercy p s body
  | other {body : PProg Unit} (other : p ≠ initproc) (start : Start N .none p s body) :
      UStart N mercy p s (kernel body)

def initBoot (oracle : List Bool) : Conf USig State := ⟨(boot oracle).state, fun _ => none⟩

/-- The states that the system with `init` can reach. -/
abbrev InitRuns (N : ℕ) (mercy : Mercy) (oracle : List Bool) : Conf USig State → Prop :=
  Conf.Reachable (UStep.exec N mercy) (UStart N mercy) (initBoot oracle)

/-! ## What the first process knows -/

/-- What the first process knows about its children. -/
structure Watch where
  /-- `fork`: the slot of the new process and its pid. -/
  fresh : Option (ℕ × BitVec 32)
  /-- The slot of the shell and its pid. -/
  shell : Option (ℕ × BitVec 32)

namespace Watch

variable (w : Watch)

def Allows : Step → Prop
  | .exiting _ | .setKilled => False
  | _ => True

def Expects : (o : Step) → o.Res → Prop
  | .isKilled _, r => r = false
  | .isChild q, r => ∀ pid, w.shell = some (q, pid) → r = true
  | .reap q, r => r ≠ .copyFails ∧ ∀ pid, r = .reaped pid →
      0 ≤ pid.toInt ∧ ∀ pid', w.shell = some (q, pid') → pid' = pid
  | .allocSlot _, r => ∀ pid, r = some pid → 0 < pid.toInt
  | _, _ => True

def next : (o : Step) → o.Res → Watch
  | .allocSlot q, r => { w with fresh := r.map fun pid => (q, pid) }
  | .freeSlot _, _ => { w with fresh := none }
  | .setParent _, _ => ⟨none, w.fresh⟩
  | .reap q, .reaped _ => if w.shell.map Prod.fst = some q then { w with shell := none } else w
  | _, _ => w

end Watch

def watch : Protocol PSig Watch where
  Allowed _ _ o := Watch.Allows o
  Next _ w o r w' := w.Expects o r ∧ w' = w.next o r

section Watch

open Prog

variable {N p : ℕ} {w : Watch}

/-- The steps that tell the first process nothing about its children. -/
def Step.Plain : Step → Prop
  | .exiting _ | .setKilled | .allocSlot _ | .freeSlot _ | .setParent _ | .reap _ => False
  | _ => True

theorem watch_step {α : Type} {o : Step} {k : o.Res → PProg α} {Q : α → Watch → Prop}
    (plain : o.Plain) (rest : ∀ r, w.Expects o r → (k r).Follows watch p w Q) :
    (Prog.op o k : PProg α).Follows watch p w Q := by
  have allowed : Watch.Allows o := by
    cases o <;> trivial
  have same (r : o.Res) : w.next o r = w := by
    cases o <;> first | rfl | exact plain.elim
  refine .op allowed fun r w' next => ?_
  rw [next.2, same]
  exact rest r next.1

theorem watch_plain {α : Type} {x : PProg α} (plain : x.Only Step.Plain) :
    x.Follows watch p w fun _ w' => w' = w := by
  induction x with
  | ret a => exact rfl
  | op o k ih => exact watch_step plain.1 fun r _ => ih r (plain.2 r)

theorem plain_sleep (p : ℕ) (c : Chan) (l : Lock) : (sleep p c l).Only Step.Plain :=
  ⟨trivial, fun _ => ⟨trivial, fun _ => ⟨trivial, fun _ => ⟨trivial, fun _ => ⟨trivial, fun _ =>
    ⟨trivial, fun _ => ⟨trivial, fun _ => ⟨trivial, fun _ => trivial⟩⟩⟩⟩⟩⟩⟩⟩

theorem plain_yield (p : ℕ) : (yield p).Only Step.Plain :=
  ⟨trivial, fun _ => ⟨trivial, fun _ => ⟨trivial, fun _ => ⟨trivial, fun _ =>
    ⟨trivial, fun _ => trivial⟩⟩⟩⟩⟩

theorem plain_sleepWhile (p k l n : ℕ) : (sleepWhile p k l n).Only Step.Plain := by
  induction n with
  | zero => exact ⟨trivial, nofun⟩
  | succ n ih =>
    refine ⟨trivial, fun again => ?_⟩
    cases again
    · exact ⟨trivial, fun _ => trivial⟩
    · exact (plain_sleep p (.other k) (.other l)).bind fun _ => ih

theorem watch_allocPages {q : ℕ} {x : ℕ × BitVec 32} (fresh : w.fresh = some x) :
    (allocPages q).Follows watch p w fun ok w' => ok = true → w'.fresh = some x := by
  have give : (do
      atomic (.freeSlot q)
      release (.proc q)
      pure false : PProg Bool).Follows watch p w fun ok w' => ok = true → w'.fresh = some x :=
    .op trivial fun _ _ _ => watch_step trivial fun _ _ => nofun
  refine watch_step trivial fun trapframe _ => ?_
  cases trapframe
  · exact give
  · refine watch_step trivial fun pagetable _ => ?_
    cases pagetable
    · exact give
    · exact fun _ => fresh

theorem watch_allocprocFrom (k q : ℕ) (rest : q + k = N) :
    (allocprocFrom k q).Follows watch p w fun r w' =>
      ∀ x, r = some x → x.1 < N ∧ 0 < x.2.toInt ∧ w'.fresh = some x := by
  induction k generalizing q w with
  | zero => exact nofun
  | succ k ih =>
    refine watch_step trivial fun _ _ => ?_
    refine .op trivial fun r w' next => ?_
    cases r with
    | none => exact watch_step trivial fun _ _ => ih (q + 1) (by omega)
    | some pid =>
      have fresh : w'.fresh = some (q, pid) := by
        rw [next.2]
        rfl
      refine (watch_allocPages fresh).bind fun ok w'' known => ?_
      cases ok
      · exact nofun
      · rintro x same
        cases same
        exact ⟨by omega, next.1 pid rfl, known rfl⟩

theorem watch_fork : (fork N).Follows watch p w fun r w' =>
    r = -1 ∨ ∃ x : ℕ × BitVec 32, x.1 < N ∧ 0 < x.2.toInt ∧ r = x.2.toInt ∧ w'.shell = some x := by
  refine (watch_allocprocFrom N 0 (zero_add N)).bind ?_
  rintro (_ | ⟨np, pid⟩) w' found
  · exact .inl rfl
  obtain ⟨slot, positive, fresh⟩ := found _ rfl
  refine watch_step trivial fun copied _ => ?_
  cases copied
  · exact .op trivial fun _ _ _ => watch_step trivial fun _ _ => .inl rfl
  · refine watch_step trivial fun _ _ => watch_step trivial fun _ _ => ?_
    refine .op trivial fun _ w'' next => ?_
    have shell : w''.shell = some (np, pid) := by
      rw [next.2]
      exact fresh
    refine watch_step trivial fun _ _ => watch_step trivial fun _ _ => ?_
    refine watch_step trivial fun _ _ => watch_step trivial fun _ _ => ?_
    exact .inr ⟨(np, pid), slot, positive, rfl, shell⟩

def Watch.Reaps (w w' : Watch) (r : ℤ) : Prop :=
  0 ≤ r ∧ (w'.shell = w.shell ∨ ∃ q pid, w.shell = some (q, pid) ∧ r = pid.toInt)

theorem watch_waitScan (k q : ℕ) (havekids : Bool) :
    (waitScan k q havekids).Follows watch p w fun a w' =>
      a.elim (fun v => w.Reaps w' v) fun b => w' = w ∧ (havekids = true → b = true) ∧
        ∀ x pid, w.shell = some (x, pid) → q ≤ x → x < q + k → b = true := by
  induction k generalizing q havekids with
  | zero => exact ⟨rfl, id, by omega⟩
  | succ k ih =>
    refine watch_step trivial fun child expected => ?_
    cases child
    · refine (ih (q + 1) havekids).mono ?_
      rintro (v | b) w' post
      · exact post
      · obtain ⟨same, more, found⟩ := post
        refine ⟨same, more, fun x pid shell lower upper => ?_⟩
        by_cases e : x = q
        · subst e
          cases expected pid shell
        · exact found x pid shell (by omega) (by omega)
    · refine watch_step trivial fun _ _ => ?_
      refine .op trivial fun r w' next => ?_
      obtain ⟨⟨copied, reaped⟩, same⟩ := next
      cases r with
      | alive =>
        have same : w' = w := same
        subst same
        refine watch_step trivial fun _ _ => (ih (q + 1) true).mono ?_
        rintro (v | b) w' post
        · exact post
        · exact ⟨post.1, fun _ => post.2.1 rfl, fun _ _ _ _ _ => post.2.1 rfl⟩
      | copyFails => exact absurd rfl copied
      | reaped pid =>
        obtain ⟨positive, mine⟩ := reaped pid rfl
        refine watch_step trivial fun _ _ => watch_step trivial fun _ _ => ⟨positive, ?_⟩
        rw [same, Watch.next]
        split
        · rename_i found
          obtain ⟨⟨x, pid'⟩, shell, rfl⟩ := Option.map_eq_some_iff.mp found
          exact .inr ⟨x, pid', shell, by rw [mine pid' shell]⟩
        · exact .inl rfl

theorem watch_wait {x : ℕ × BitVec 32} (shell : w.shell = some x) (slot : x.1 < N) (fuel : ℕ) :
    (wait N p fuel).Follows watch p w fun r w' => w.Reaps w' r := by
  refine watch_step trivial fun _ _ => ?_
  induction fuel with
  | zero => exact watch_step trivial nofun
  | succ fuel ih =>
    refine (watch_waitScan N 0 false).bind ?_
    rintro (v | havekids) w' post
    · exact post
    obtain ⟨rfl, -, found⟩ := post
    cases found x.1 x.2 shell (Nat.zero_le _) (by omega)
    refine watch_step trivial fun _ _ => watch_step trivial fun k expected => ?_
    cases (expected : k = false)
    refine watch_step trivial fun _ _ => ?_
    refine (watch_plain (plain_sleep p (.proc p) .wait)).bind ?_
    rintro _ _ rfl
    exact ih

end Watch

/-! ## The programs of all processes -/

/-- The protocol of all processes; only the first one watches its children. -/
def guard (N : ℕ) : Protocol USig (Local × Option Watch) where
  Allowed p m
    | .kernel o => m.1.Allows N .none p o ∧ ∀ w, m.2 = some w → Watch.Allows o
    | .isKilled => True
  Next p m
    | .kernel o, r, m' => m.1.Expects .none o r ∧ (∀ w, m.2 = some w → w.Expects o r) ∧
        m' = (m.1.next p o r, m.2.map fun w => w.next o r)
    | .isKilled, r, m' => (m.2 ≠ none → r = false) ∧ m' = m

section Guard

open Prog

variable {α : Type} {N p : ℕ} {ℓ : Local} {w : Watch} {x : PProg α} {R : α → Watch → Prop}

theorem guard_other {Q : α → Local → Prop} (hx : x.Follows (protocol N .none) p ℓ Q) :
    (kernel x).Follows (guard N) p (ℓ, none) fun a m => Q a m.1 := by
  refine (Follows.lift (R := fun ℓ m => m = (ℓ, none)) ?_ hx rfl).mono ?_
  · rintro o ℓ _ allowed rfl
    refine .op ⟨allowed, nofun⟩ fun r m' next => ?_
    exact ⟨_, ⟨next.1, rfl⟩, next.2.2⟩
  · rintro a _ ⟨ℓ', done, rfl⟩
    exact done

theorem guard_init {Q : α → Local → Prop}
    (hx : x.Follows (protocol N .none) p ℓ Q) (hx' : x.Follows watch p w R) :
    (kernel x).Follows (guard N) p (ℓ, some w) fun a m =>
      ∃ ℓ' w', m = (ℓ', some w') ∧ Q a ℓ' ∧ R a w' := by
  refine (Follows.lift (R := fun n m => m = (n.1, some n.2)) ?_ (hx.prod hx') rfl).mono ?_
  · rintro o n _ allowed rfl
    refine .op ⟨allowed.1, fun _ _ => allowed.2⟩ fun r m' next => ?_
    exact ⟨(_, _), ⟨⟨next.1, rfl⟩, next.2.1 _ rfl, rfl⟩, next.2.2⟩
  · rintro a _ ⟨n, done, rfl⟩
    exact ⟨n.1, n.2, rfl, done⟩

abbrev resting (w : Watch) : Local × Option Watch := (.rest .run, some w)

theorem guard_call (hx : Leads N .none p x (.rest .run) (.rest .run)) (hx' : x.Follows watch p w R) :
    (kernel x).Follows (guard N) p (resting w) fun a m => ∃ w', m = resting w' ∧ R a w' := by
  refine (guard_init hx hx').mono ?_
  rintro a _ ⟨_, w', rfl, rfl, done⟩
  exact ⟨w', rfl, done⟩

theorem guard_trapKilled : (trapKilled p).Follows (guard N) p (resting w) fun k m =>
    k = false ∧ m = resting w := by
  refine .op ⟨⟨List.not_mem_nil, fun _ => rfl, fun _ => rfl⟩, fun _ _ => trivial⟩ ?_
  rintro _ _ ⟨-, -, rfl⟩
  refine .op trivial ?_
  rintro k _ ⟨clear, rfl⟩
  refine .op ⟨mayRelease List.mem_cons_self rfl, fun _ _ => trivial⟩ ?_
  rintro _ _ ⟨-, -, rfl⟩
  refine ⟨clear nofun, ?_⟩
  simp [resting, Local.rest, Local.decided, Watch.next]

theorem guard_syscall (hx : Leads N .none p x (.rest .run) (.rest .run)) (hx' : x.Follows watch p w R) :
    (syscall N p x).Follows (guard N) p (resting w) fun a m =>
      ∃ r w', a = some r ∧ m = resting w' ∧ R r w' := by
  refine guard_trapKilled.bind ?_
  rintro _ _ ⟨rfl, rfl⟩
  refine (guard_call hx hx').bind ?_
  rintro r _ ⟨w', rfl, done⟩
  refine guard_trapKilled.bind ?_
  rintro _ _ ⟨rfl, rfl⟩
  exact ⟨r, w', rfl, rfl, done⟩

theorem guard_unfollowed {Q : α → Local × Option Watch → Prop} {m : Local × Option Watch} :
    (unfollowed : UProg α).Follows (guard N) p m Q :=
  .op ⟨trivial, fun _ _ => trivial⟩ nofun

variable (slot : initproc < N)
include slot

theorem guard_item (i : Item) : (i.prog N).Follows (guard N) initproc (resting w) fun a m =>
    a = some () ∧ m = resting w := by
  cases i with
  | timer =>
    refine guard_trapKilled.bind ?_
    rintro _ _ ⟨rfl, rfl⟩
    refine (guard_call (follows_yield slot rfl rfl rfl) (watch_plain (plain_yield _))).bind ?_
    rintro _ _ ⟨_, rfl, rfl⟩
    exact ⟨rfl, rfl⟩
  | file k l fuel =>
    let x : PProg Unit := do
      acquire (.other l)
      sleepWhile initproc k l fuel
    have follows : Leads N .none initproc x (.rest .run) (.rest .run) :=
      .step ⟨List.not_mem_nil, fun _ => rfl, nofun⟩ fun _ _ => follows_sleepWhile slot k l fuel
    have plain : x.Only Step.Plain := ⟨trivial, fun _ => plain_sleepWhile initproc k l fuel⟩
    refine (guard_syscall follows (watch_plain plain)).mono ?_
    rintro _ _ ⟨_, _, rfl, rfl, rfl⟩
    exact ⟨rfl, rfl⟩

theorem guard_items (is : List Item) : (items N is).Follows (guard N) initproc (resting w) fun a m =>
    a = some () ∧ m = resting w := by
  induction is with
  | nil => exact ⟨rfl, rfl⟩
  | cons i is ih =>
    refine (guard_item slot i).bind ?_
    rintro _ _ ⟨rfl, rfl⟩
    exact ih

theorem guard_awaitShell (fuel : ℕ) (busy : ℕ → List Item) {x : ℕ × BitVec 32} (inside : x.1 < N)
    (shell : w.shell = some x) (k : ℕ) :
    (awaitShell N fuel busy x.2.toInt k).Follows (guard N) initproc (resting w) fun a m =>
      a = some () ∧ ∃ w', m = resting w' := by
  induction k generalizing w with
  | zero => exact guard_unfollowed
  | succ k ih =>
    refine (guard_items slot (busy k)).bind ?_
    rintro _ _ ⟨rfl, rfl⟩
    refine (guard_syscall (follows_wait slot fuel) (watch_wait shell inside fuel)).bind ?_
    rintro _ _ ⟨wpid, w', rfl, rfl, positive, reaped⟩
    dsimp only
    by_cases mine : wpid = x.2.toInt
    · rw [if_pos mine]
      exact ⟨rfl, w', rfl⟩
    · rw [if_neg mine, if_neg (by omega)]
      refine ih ?_
      rcases reaped with same | ⟨q, pid, shell', rfl⟩
      · rw [same, shell]
      · rw [shell] at shell'
        cases shell'
        exact absurd rfl mine

theorem guard_initLoop (fuel : ℕ) (busy : ℕ → ℕ → List Item) (n : ℕ) :
    (initLoop N fuel busy true n).Follows (guard N) initproc (resting w) fun _ m =>
      ∃ w', m = resting w' := by
  induction n generalizing w with
  | zero => exact guard_unfollowed
  | succ n ih =>
    refine (guard_items slot (busy n fuel)).bind ?_
    rintro _ _ ⟨rfl, rfl⟩
    refine (guard_syscall follows_fork watch_fork).bind ?_
    rintro _ _ ⟨_, w', rfl, rfl, rfl | ⟨x, inside, positive, rfl, shell⟩⟩
    · exact guard_unfollowed
    · dsimp only
      rw [if_neg (by omega), if_neg (by omega)]
      refine (guard_awaitShell slot fuel (busy n) inside shell fuel).bind ?_
      rintro _ _ ⟨rfl, w'', rfl⟩
      exact ih

theorem guard_initMain (fuel : ℕ) (busy : ℕ → ℕ → List Item) (n : ℕ) :
    (initMain N fuel busy true n).Follows (guard N) initproc (.rest .off, some w) fun _ m =>
      m.1.Idle := by
  have plain : (forkret initproc).Only Step.Plain :=
    ⟨trivial, fun _ => ⟨trivial, fun _ => trivial⟩⟩
  refine (guard_init (follows_forkret slot) (watch_plain plain)).bind ?_
  rintro _ _ ⟨_, _, rfl, rfl, rfl⟩
  refine (guard_initLoop slot fuel busy n).bind ?_
  rintro _ _ ⟨w', rfl⟩
  exact ⟨.run, .inl rfl, rfl⟩

theorem guard_preempted {x y : UProg Unit} {point : Point} {Q : Unit → Local × Option Watch → Prop}
    (hx : x.Follows (guard N) initproc (ℓ, some w) Q) (preempted : UPreempted initproc point x y)
    (fits : point.Fits initproc ℓ) : y.Follows (guard N) initproc (ℓ, some w) Q := by
  refine hx.inserts (J := fun point m => point.Fits initproc m.1 ∧ ∃ w, m.2 = some w) ?_ ?_ preempted
    ⟨fits, w, rfl⟩
  · rintro point ⟨ℓ, _⟩ o r m' ⟨fits, w, rfl⟩ allowed next
    cases o with
    | kernel o =>
      obtain ⟨-, -, rfl⟩ := next
      exact ⟨fits.next allowed.1 r, _, rfl⟩
    | isKilled =>
      obtain ⟨-, rfl⟩ := next
      exact ⟨fits, w, rfl⟩
  · rintro point ⟨ℓ, _⟩ ⟨fits, w, rfl⟩ here
    refine (guard_init (fits.yield here slot) (watch_plain (plain_yield _))).mono ?_
    rintro _ _ ⟨_, _, rfl, rfl, rfl⟩
    rfl

end Guard

end Xv6.Proc
