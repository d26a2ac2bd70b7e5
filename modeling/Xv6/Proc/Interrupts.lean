import Mathlib.Data.Nat.Notation
import Mathlib.Logic.Function.Basic
import Mathlib.Logic.Relation
import Mathlib.Tactic.SplitIfs

/-!
# Interrupts and spin locks

`push_off` and `pop_off` of `kernel/spinlock.c`, and the switches between a process's kernel thread and
the scheduler of a CPU.  The count of nested calls and the old interrupt state are fields of the CPU,
while the nesting belongs to the thread.
-/

namespace Xv6.Intr

open Function (update update_of_ne update_self)

/-! ## The code -/

/-- `struct cpu`, with the interrupt-enable bit. -/
structure Cpu where
  noff : ℕ
  intena : Bool
  intr : Bool

def pushOff (c : Cpu) (old : Bool) : Cpu :=
  ⟨c.noff + 1, if c.noff = 0 then old else c.intena, false⟩

/-- `pop_off()`. -/
def popOff (c : Cpu) : Except String Cpu :=
  if c.intr then .error "pop_off - interruptible"
  else if c.noff < 1 then .error "pop_off"
  else .ok ⟨c.noff - 1, c.intena, c.noff - 1 = 0 && c.intena⟩

/-- `sched` up to `swtch`: the saved `intena`, or the text of the panic. -/
def sched (c : Cpu) : Except String Bool :=
  if c.noff ≠ 1 then .error "sched locks"
  else if c.intr then .error "sched interruptible"
  else .ok c.intena

/-- What can run on a CPU: its own `scheduler`, or the kernel thread of a process. -/
inductive Ctx where
  | scheduler (c : ℕ)
  | thread (t : ℕ)
  deriving DecidableEq

/-- The state of one of them. -/
structure Flow where
  /-- The calls of `push_off` without their `pop_off`. -/
  depth : ℕ
  /-- The local variable `old` of a `push_off` in progress. -/
  old : Option Bool
  /-- The same for every handler, down to the code that was interrupted first. -/
  traps : List (Option Bool)
  /-- Whether interrupts were enabled at the last `push_off` at depth 0. -/
  entry : Option Bool
  /-- The local variable `intena` of `sched`, if the thread is in `swtch`. -/
  saved : Option Bool

/-- The CPUs, what each of them runs, and how far that has come. -/
structure State where
  cpu : ℕ → Cpu
  now : ℕ → Ctx
  flow : Ctx → Flow

namespace State

variable (s : State) (c : ℕ)

/-- The state of what runs on the CPU. -/
def here : Flow := s.flow (s.now c)

def put (cpu : Cpu) (f : Flow) : State :=
  ⟨update s.cpu c cpu, s.now, update s.flow (s.now c) f⟩

/-- `swtch` on CPU `c` to `x`, with `intena` as it is then. -/
def switch (x : Ctx) (intena : Bool) (saved : Option Bool) (t : ℕ) : State :=
  ⟨update s.cpu c { s.cpu c with intena := intena }, update s.now c x,
    update s.flow (.thread t) { s.flow (.thread t) with saved := saved }⟩

end State

/-- After the boot every CPU is in `scheduler`, and a thread that has never run will start in
`forkret` with `p->lock` held. -/
def boot (intr : ℕ → Bool) : State where
  cpu c := ⟨0, false, intr c⟩
  now := .scheduler
  flow
    | .scheduler _ => ⟨0, none, [], none, none⟩
    | .thread _ => ⟨1, none, [], none, none⟩

/-- One step of CPU `c`. -/
inductive Step (s : State) (c : ℕ) : State → Prop
  | read (idle : (s.here c).old = none) :
      Step s c (s.put c (s.cpu c) { s.here c with old := some (s.cpu c).intr })
  | push (old : Bool) (busy : (s.here c).old = some old) :
      Step s c (s.put c (pushOff (s.cpu c) old) { s.here c with
        depth := (s.here c).depth + 1
        old := none
        entry := if (s.here c).depth = 0 then some (s.cpu c).intr else (s.here c).entry })
  | pop (cpu : Cpu) (idle : (s.here c).old = none) (deep : 0 < (s.here c).depth)
      (done : popOff (s.cpu c) = .ok cpu) :
      Step s c (s.put c cpu { s.here c with depth := (s.here c).depth - 1 })
  -- `intr_on` and `intr_off`
  | set (on : Bool) (idle : (s.here c).old = none) (flat : (s.here c).depth = 0) :
      Step s c (s.put c { s.cpu c with intr := on } (s.here c))
  -- an interrupt, and the return from its handler, which enables interrupts again
  | trap (enabled : (s.cpu c).intr = true) :
      Step s c (s.put c { s.cpu c with intr := false }
        { s.here c with old := none, traps := (s.here c).old :: (s.here c).traps })
  | sret (old : Option Bool) (rest : List (Option Bool)) (idle : (s.here c).old = none)
      (flat : (s.here c).depth = 0) (inside : (s.here c).traps = old :: rest) :
      Step s c (s.put c { s.cpu c with intr := true } { s.here c with old := old, traps := rest })
  | sched (t : ℕ) (intena : Bool) (on : s.now c = .thread t) (idle : (s.here c).old = none)
      (flat : (s.here c).depth = 1) (done : sched (s.cpu c) = .ok intena) :
      Step s c (s.switch c (.scheduler c) (s.cpu c).intena (some intena) t)
  -- the scheduler holds `p->lock`; a thread that was in `sched` goes on after `swtch`
  | swtch (t : ℕ) (on : s.now c = .scheduler c) (idle : (s.here c).old = none)
      (flat : (s.here c).depth = 1) (off : ∀ d, s.now d ≠ .thread t) :
      Step s c (s.switch c (.thread t)
        ((s.flow (.thread t)).saved.getD (s.cpu c).intena) none t)

/-- The states that the CPUs can reach in any interleaving. -/
def Reaches : State → State → Prop := Relation.ReflTransGen fun s s' => ∃ c, Step s c s'

/-! ## The invariant -/

/-- The CPU agrees with what runs on it. -/
structure Running (c : Cpu) (f : Flow) : Prop where
  noff : c.noff = f.depth
  off : 0 < f.depth → c.intr = false
  old : ∀ b, f.old = some b → c.intr = b
  -- only code with interrupts enabled is interrupted
  traps : ∀ o ∈ f.traps, o ≠ some false

/-- `intena` is what the thread needs when it returns to depth 0. -/
def Restores (c : Cpu) (f : Flow) : Prop := 0 < f.depth → ∀ b, f.entry = some b → c.intena = b

/-- The state of a flow that no CPU runs. -/
structure Parked (f : Flow) : Prop where
  depth : f.depth = 1
  old : f.old = none
  traps : ∀ o ∈ f.traps, o ≠ some false

/-- The invariant of the CPUs. -/
structure Inv (s : State) : Prop where
  running : ∀ c, Running (s.cpu c) (s.here c)
  restores : ∀ c t, s.now c = .thread t → Restores (s.cpu c) (s.here c)
  parked : ∀ x, (∀ c, s.now c ≠ x) → Parked (s.flow x)
  saved : ∀ t, (∀ c, s.now c ≠ .thread t) → ∀ b, (s.flow (.thread t)).entry = some b →
    (s.flow (.thread t)).saved = some b
  home : ∀ c d, s.now c = .scheduler d → d = c
  alone : ∀ c d, s.now c = s.now d → c = d

theorem inv_boot (intr : ℕ → Bool) : Inv (boot intr) where
  running _ := ⟨rfl, nofun, nofun, nofun⟩
  restores _ _ on := nomatch on
  parked
    | .scheduler c, off => absurd rfl (off c)
    | .thread _, _ => ⟨rfl, rfl, nofun⟩
  saved _ _ _ := nofun
  home _ _ on := (Ctx.scheduler.inj on).symm
  alone _ _ same := Ctx.scheduler.inj same

variable {s s' : State} {c : ℕ}

theorem Inv.put (inv : Inv s) {cpu : Cpu} {f : Flow} (running : Running cpu f)
    (restores : Restores (s.cpu c) (s.here c) → Restores cpu f) : Inv (s.put c cpu f) := by
  have there (d : ℕ) (ne : d ≠ c) : s.now d ≠ s.now c := fun same => ne (inv.alone d c same)
  have kept (x : Ctx) (off : ∀ d, s.now d ≠ x) : (s.put c cpu f).flow x = s.flow x :=
    update_of_ne (off c).symm _ _
  refine ⟨fun d => ?_, fun d t on => ?_, fun x off => ?_, fun t off => ?_, inv.home, inv.alone⟩
  · by_cases e : d = c
    · subst e
      simpa [State.put, State.here] using running
    · simpa [State.put, State.here, e, there d e] using inv.running d
  · by_cases e : d = c
    · subst e
      simpa [State.put, State.here] using restores (inv.restores d t on)
    · simpa [State.put, State.here, e, there d e] using inv.restores d t on
  · rw [kept x off]
    exact inv.parked x off
  · rw [kept _ off]
    exact inv.saved t off

theorem Inv.switch (inv : Inv s) {x : Ctx} {intena : Bool} {saved : Option Bool} {t : ℕ}
    (idle : (s.here c).old = none) (flat : (s.here c).depth = 1) (off : ∀ d, s.now d ≠ x)
    (home : ∀ d, x = .scheduler d → d = c) (pair : s.now c = .thread t ∨ x = .thread t)
    (resumes : ∀ u, x = .thread u → ∀ b, (s.flow x).entry = some b → intena = b)
    (saves : ∀ u, s.now c = .thread u → u = t ∧ saved = some (s.cpu c).intena) :
    Inv (s.switch c x intena saved t) := by
  have me := inv.running c
  have same (y : Ctx) : ∃ v, (s.switch c x intena saved t).flow y = { s.flow y with saved := v } := by
    by_cases e : y = .thread t
    · subst e
      exact ⟨saved, update_self ..⟩
    · exact ⟨_, update_of_ne e _ _⟩
  have on : (s.switch c x intena saved t).now c = x := update_self ..
  have stay {d : ℕ} (e : d ≠ c) : (s.switch c x intena saved t).now d = s.now d ∧
      (s.switch c x intena saved t).cpu d = s.cpu d :=
    ⟨update_of_ne e _ _, update_of_ne e _ _⟩
  -- what was parked before, unless it is `x`
  have before {y : Ctx} (ne : s.now c ≠ y)
      (off' : ∀ d, (s.switch c x intena saved t).now d ≠ y) (d : ℕ) : s.now d ≠ y := by
    by_cases e : d = c
    · rwa [e]
    · exact (stay e).1 ▸ off' d
  refine ⟨fun d => ?_, fun d u hu => ?_, fun y off' => ?_, fun u off' b hb => ?_, fun d e hd => ?_,
    fun d e hd => ?_⟩
  · rw [State.here]
    by_cases e : d = c
    · obtain ⟨v, flow⟩ := same x
      obtain ⟨depth, old, traps⟩ := inv.parked x off
      rw [e, on, flow, show (s.switch c x intena saved t).cpu c = _ from update_self ..]
      refine ⟨?_, fun _ => me.off (by omega), fun b hb => ?_, traps⟩
      · exact me.noff.trans (flat.trans depth.symm)
      · cases old.symm.trans hb
    · obtain ⟨v, flow⟩ := same (s.now d)
      rw [(stay e).1, (stay e).2, flow]
      exact { inv.running d with }
  · rw [State.here]
    by_cases e : d = c
    · obtain ⟨v, flow⟩ := same x
      rw [e, on, flow, show (s.switch c x intena saved t).cpu c = _ from update_self ..]
      exact fun _ => resumes u (on.symm.trans (e ▸ hu))
    · obtain ⟨v, flow⟩ := same (s.now d)
      rw [(stay e).1, (stay e).2, flow]
      exact inv.restores d u ((stay e).1 ▸ hu)
  · obtain ⟨v, flow⟩ := same y
    rw [flow]
    by_cases e : s.now c = y
    · subst e
      exact ⟨flat, idle, me.traps⟩
    · exact { inv.parked y (before e off') with }
  · by_cases e : s.now c = .thread u
    · obtain ⟨rfl, rfl⟩ := saves u e
      have flow : (s.switch c x intena (some (s.cpu c).intena) u).flow (.thread u) = _ :=
        update_self ..
      rw [flow] at hb ⊢
      have entry : (s.here c).entry = some b := by rwa [State.here, e]
      exact congrArg some (inv.restores c u e (by omega) b entry)
    · have ne : u ≠ t := by
        rintro rfl
        exact pair.elim e fun hx => off' c (on.trans hx)
      have flow : (s.switch c x intena saved t).flow (.thread u) = s.flow (.thread u) :=
        update_of_ne (fun h => ne (Ctx.thread.inj h)) _ _
      rw [flow] at hb ⊢
      exact inv.saved u (before e off') b hb
  · by_cases hc : d = c
    · exact (home e (on.symm.trans (hc ▸ hd))).trans hc.symm
    · exact inv.home d e ((stay hc).1 ▸ hd)
  · by_cases hc : d = c <;> by_cases he : e = c
    · exact hc.trans he.symm
    · rw [hc, on, (stay he).1] at hd
      exact absurd hd.symm (off e)
    · rw [he, on, (stay hc).1] at hd
      exact absurd hd (off d)
    · rw [(stay hc).1, (stay he).1] at hd
      exact inv.alone d e hd

theorem Inv.step (inv : Inv s) (step : Step s c s') : Inv s' := by
  have me := inv.running c
  cases step with
  | read idle => exact inv.put ⟨me.noff, me.off, fun b hb => Option.some.inj hb, me.traps⟩ id
  | push old busy =>
    refine inv.put ⟨by rw [pushOff, me.noff], fun _ => rfl, nofun, me.traps⟩ fun restores _ b hb => ?_
    simp only [pushOff, me.noff] at hb ⊢
    split_ifs at hb ⊢ with flat
    · rw [← Option.some.inj hb, me.old old busy]
    · exact restores (Nat.pos_of_ne_zero flat) b hb
  | pop cpu idle deep done =>
    rw [popOff, me.noff, me.off deep, if_neg (by decide), if_neg (by omega)] at done
    cases done
    refine inv.put ⟨rfl, fun (more : 0 < (s.here c).depth - 1) => ?_, fun b hb => ?_, me.traps⟩
      fun restores _ => restores deep
    · rw [decide_eq_false (by omega : ¬(s.here c).depth - 1 = 0), Bool.false_and]
    · cases idle.symm.trans hb
  | set on idle flat =>
    refine inv.put ⟨me.noff, fun deep => ?_, fun b hb => ?_, me.traps⟩ id
    · omega
    · cases idle.symm.trans hb
  | trap enabled =>
    have flat : (s.here c).depth = 0 := by
      by_contra deep
      rw [me.off (Nat.pos_of_ne_zero deep)] at enabled
      cases enabled
    refine inv.put ⟨me.noff, fun _ => rfl, nofun, ?_⟩ id
    rintro o (_ | ⟨_, mem⟩)
    · intro hb
      cases enabled.symm.trans (me.old _ hb)
    · exact me.traps o mem
  | sret old rest idle flat inside =>
    refine inv.put ⟨me.noff, fun (deep : 0 < (s.here c).depth) => ?_, ?_, fun o mem => ?_⟩ id
    · omega
    · rintro b rfl
      have := me.traps (some b) (by rw [inside]; exact List.mem_cons_self)
      cases b with
      | true => rfl
      | false => exact absurd rfl this
    · exact me.traps o (by rw [inside]; exact List.mem_cons_of_mem _ mem)
  | sched t intena on idle flat done =>
    rw [sched, me.noff, flat, me.off (by omega), if_neg (by decide), if_neg (by decide)] at done
    cases done
    refine inv.switch idle flat (fun d hd => ?_) (fun d hd => (Ctx.scheduler.inj hd).symm) (.inl on)
      nofun fun u hu => ⟨Ctx.thread.inj (hu.symm.trans on), rfl⟩
    obtain rfl := inv.home d c hd
    cases on.symm.trans hd
  | swtch t on idle flat off =>
    refine inv.switch idle flat off nofun (.inr rfl) ?_ fun u hu => nomatch on.symm.trans hu
    rintro u - b hb
    rw [inv.saved t off b hb, Option.getD_some]

theorem Reaches.inv {intr : ℕ → Bool} (reaches : Reaches (boot intr) s) : Inv s := by
  induction reaches with
  | refl => exact inv_boot intr
  | tail _ step ih =>
    obtain ⟨c, step⟩ := step
    exact ih.step step

/-- Interrupts are off where `noff` is positive, `noff` counts the calls of `push_off` of the thread
that runs there, `pop_off` does not panic, and at depth 0 it restores the interrupts of the thread. -/
theorem interrupts_restored {intr : ℕ → Bool} (reaches : Reaches (boot intr) s) :
    (∀ c, 0 < (s.cpu c).noff → (s.cpu c).intr = false) ∧
    (∀ c t, s.now c = .thread t → (s.cpu c).noff = (s.flow (.thread t)).depth) ∧
    ∀ c, 0 < (s.here c).depth → ∃ cpu, popOff (s.cpu c) = .ok cpu ∧
      ∀ t, s.now c = .thread t → (s.here c).depth = 1 → ∀ b, (s.here c).entry = some b →
        cpu.intr = b := by
  have inv := reaches.inv
  refine ⟨fun c pos => ?_, fun c t on => ?_, fun c deep => ?_⟩
  · exact (inv.running c).off ((inv.running c).noff ▸ pos)
  · rw [(inv.running c).noff, State.here, on]
  · obtain ⟨noff, off, -, -⟩ := inv.running c
    refine ⟨⟨(s.cpu c).noff - 1, (s.cpu c).intena, (s.cpu c).noff - 1 = 0 && (s.cpu c).intena⟩, ?_,
      fun t on flat b hb => ?_⟩
    · rw [popOff, off deep, noff, if_neg (by decide), if_neg (by omega)]
    · rw [noff, flat]
      exact inv.restores c t on deep b hb

/-- A new thread returns from `forkret`, acquires a lock and releases it. -/
theorem interrupts_restored_forkret :
    ∃ s, Reaches (boot fun _ => true) s ∧ s.now 0 = .thread 0 ∧ (s.here 0).entry = some true ∧
      ∃ cpu, popOff (s.cpu 0) = .ok cpu ∧ cpu.intr = true := by
  have start : Reaches (boot fun _ => true) _ :=
    ((Relation.ReflTransGen.refl.tail ⟨0, .read rfl⟩).tail ⟨0, .push true rfl⟩).tail
      ⟨0, .swtch 0 rfl rfl rfl nofun⟩
  have run := ((start.tail ⟨0, .pop _ rfl Nat.one_pos rfl⟩).tail ⟨0, .read rfl⟩).tail
    ⟨0, .push true rfl⟩
  obtain ⟨-, -, pops⟩ := interrupts_restored run
  obtain ⟨cpu, popped, same⟩ := pops 0 Nat.one_pos
  exact ⟨_, run, rfl, rfl, cpu, popped, same 0 rfl rfl true rfl⟩

end Xv6.Intr
