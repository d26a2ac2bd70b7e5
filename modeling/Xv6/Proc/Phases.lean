import Xv6.Proc.Walk

/-!
# Locks and process states

The two invariants that all others rest on: the holders of the locks are the processes that have taken
them, and `p->state` agrees with what the process is doing.
-/

namespace Xv6.Proc

open Function State

variable {N : ℕ} {care : Care} {p : ℕ} {ls : ℕ → Local} {s : State} {o : Step}

abbrev Step.After (N p : ℕ) (o : Step) (s : State) (Q : o.Res → State → Prop) : Prop :=
  Halt.Post (fun _ => True) Q (Step.exec N p o s)

def State.kill (s : State) (q : ℕ) (pid : BitVec 32) : State :=
  { s with killed := update s.killed q true, events := .kill pid :: s.events }

theorem after_acquire {l : Lock} {Q : Unit → State → Prop} (taken : s.locks l = none → Q () { s with
      locks := update s.locks l (some p)
      noff := update s.noff p (s.noff p + 1)
      tested := if l = .proc p then update s.tested p none else s.tested }) :
    (Step.acquire l).After N p s Q :=
  .ite taken fun _ => .ite (fun _ => trivial) fun _ => trivial

theorem after_killIf {A : Panic → Prop} {q : ℕ} {pid : BitVec 32} {Q : Bool → State → Prop}
    (other : Q false s) (killed : s.pid q = pid → s.pstate q ≠ .sleeping → Q true (s.kill q pid))
    (woken : s.pid q = pid → s.pstate q = .sleeping → Q true ((s.kill q pid).wake q)) :
    Halt.Post A Q ((Step.killIf q pid).exec N p s) := by
  refine .ite (fun found => ?_) fun _ => other
  simp only [Halt.Post]
  split
  · exact woken found ‹_›
  · exact killed found ‹_›

/-! ## Locks -/

/-- The locks that process `q` holds. -/
structure Holds (held : List Lock) (locks : Lock → Option ℕ) (noff q : ℕ) : Prop where
  nodup : held.Nodup
  count : noff = held.length
  owner : ∀ l, locks l = some q ↔ l ∈ held

def LocksOk (ls : ℕ → Local) (s : State) : Prop :=
  ∀ q, Holds (ls q).held s.locks (s.noff q) q

theorem LocksOk.unique (locks : LocksOk ls s) {l : Lock} {q r : ℕ} (hq : l ∈ (ls q).held)
    (hr : l ∈ (ls r).held) : q = r := by
  have := ((locks q).owner l).mpr hq
  rw [((locks r).owner l).mpr hr] at this
  exact (Option.some.inj this).symm

namespace Holds

variable {held : List Lock} {locks : Lock → Option ℕ} {noff q : ℕ}

theorem take (holds : Holds held locks noff q) {l : Lock} (free : locks l = none) :
    Holds (l :: held) (update locks l (some q)) (noff + 1) q where
  nodup := by
    refine List.nodup_cons.mpr ⟨fun mem => ?_, holds.nodup⟩
    rw [(holds.owner l).mpr mem] at free
    cases free
  count := by rw [holds.count, List.length_cons]
  owner k := by
    by_cases hk : k = l
    · subst hk
      simp
    · simp [holds.owner k, hk]

theorem drop (holds : Holds held locks noff q) {l : Lock} (mem : l ∈ held) :
    Holds (held.erase l) (update locks l none) (noff - 1) q where
  nodup := holds.nodup.erase l
  count := by rw [holds.count, List.length_erase_of_mem mem]
  owner k := by
    by_cases hk : k = l
    · subst hk
      simp [holds.nodup.mem_erase_iff]
    · simp [holds.owner k, holds.nodup.mem_erase_iff, hk]

theorem other (holds : Holds held locks noff q) {l : Lock} {x : Option ℕ} (free : locks l ≠ some q)
    (hx : x ≠ some q) : Holds held (update locks l x) noff q where
  nodup := holds.nodup
  count := holds.count
  owner k := by
    by_cases hk : k = l
    · subst hk
      rw [update_self, ← holds.owner k]
      simp [free, hx]
    · rw [update_of_ne hk, holds.owner k]

end Holds

/-! ## Process states -/

/-- The state of a process, its channel and its sleep agree with what it is doing. -/
@[grind] def Phase.Fits (φ : Phase) (state : ProcState) (chan sleep : Option Chan) : Prop :=
  match φ with
  | .off => sleep = none ∧ state ≠ .running ∧ state ≠ .sleeping
  | .run => sleep = none ∧ state = .running
  | .falling c => sleep = some c ∧ state = .running
  | .asleep c => chan = some c ∧
      (state = .sleeping ∧ sleep = some c ∨ state = .runnable ∧ sleep = none)
  | .paused => sleep = none ∧ state = .runnable

namespace Phase.Fits

variable {φ : Phase} {state : ProcState} {chan sleep : Option Chan}

section

variable (fits : φ.Fits state chan sleep)
include fits

theorem of_sleeping (hs : state = .sleeping) : ∃ c, φ = .asleep c ∧ chan = some c ∧ sleep = some c := by
  cases φ <;> simp_all [Fits]

theorem of_running (hs : state = .running) :
    φ = .run ∧ sleep = none ∨ ∃ c, φ = .falling c ∧ sleep = some c := by
  cases φ <;> simp_all [Fits]

theorem of_runnable (hs : state = .runnable) : sleep = none ∧ φ ≠ .run := by
  cases φ <;> simp_all [Fits]

theorem of_off (hs : state = .unused ∨ state = .used ∨ state = .zombie) : φ = .off ∧ sleep = none := by
  rcases hs with rfl | rfl | rfl <;> cases φ <;> simp_all [Fits]

theorem stopped (h₁ : φ ≠ .run) (h₂ : ∀ c, φ ≠ .falling c) : state ≠ .running := by
  cases φ <;> simp_all [Fits]
  grind

end

end Phase.Fits

/-- The part of the state about sleeping and running. -/
structure Rota where
  pstate : ℕ → ProcState
  chan : ℕ → Option Chan
  sleep : ℕ → Option Chan
  sleeps : ℕ → ℕ
  roused : ℕ → ℕ

def State.rota (s : State) : Rota := ⟨s.pstate, s.chan, s.sleep, s.sleeps, s.roused⟩

/-- Each process is in the state that its program has come to. -/
structure PhasesOk (N : ℕ) (ls : ℕ → Local) (v : Rota) : Prop where
  fits : ∀ q, (ls q).phase.Fits (v.pstate q) (v.chan q) (v.sleep q)
  /-- A process that falls asleep holds its own lock. -/
  own : ∀ q c, (ls q).phase = .falling c → .proc q ∈ (ls q).held
  cpu : ∀ q, N ≤ q → (ls q).phase = .off
  child : ∀ q r b, (ls q).family.child = some (r, b) → v.pstate r = .used
  /-- Two processes fork different children. -/
  distinct : ∀ q q' r b b', (ls q).family.child = some (r, b) → (ls q').family.child = some (r, b') →
    q = q'
  /-- Every sleep but the one in progress has been made runnable. -/
  count : ∀ q, v.sleeps q = v.roused q + if v.sleep q = none then 0 else 1

/-- The two agree about every process but `q`. -/
def Rota.Agree (v v' : Rota) (q : ℕ) : Prop :=
  ∀ r, r ≠ q → v'.pstate r = v.pstate r ∧ v'.chan r = v.chan r ∧ v'.sleep r = v.sleep r ∧
    v'.sleeps r = v.sleeps r ∧ v'.roused r = v.roused r

attribute [local grind =] update_apply

namespace PhasesOk

variable {v v' : Rota} {ℓ : Local} {q : ℕ}

theorem ghost (inv : PhasesOk N ls v) (phase : ℓ.phase = (ls p).phase)
    (child : ℓ.family.child = (ls p).family.child)
    (held : ∀ c, (ls p).phase = .falling c → .proc p ∈ (ls p).held → .proc p ∈ ℓ.held) :
    PhasesOk N (update ls p ℓ) v := by
  obtain ⟨fits, own, cpu, children, distinct, count⟩ := inv
  constructor <;> grind

theorem move (inv : PhasesOk N ls v) (agree : v.Agree v' p) (slot : N ≤ p → ℓ.phase = .off)
    (fits : ℓ.phase.Fits (v'.pstate p) (v'.chan p) (v'.sleep p))
    (own : ∀ c, ℓ.phase = .falling c → .proc p ∈ ℓ.held) (busy : v.pstate p ≠ .used)
    (child : ℓ.family.child = (ls p).family.child)
    (count : v'.sleeps p = v'.roused p + if v'.sleep p = none then 0 else 1) :
    PhasesOk N (update ls p ℓ) v' := by
  obtain ⟨fits', own', cpu, children, distinct, count'⟩ := inv
  constructor <;> grind [Rota.Agree]

theorem slot (inv : PhasesOk N ls v) (agree : v.Agree v' q) (off : (ls q).phase = .off)
    (fits : v'.pstate q ≠ .running ∧ v'.pstate q ≠ .sleeping) (sleep : v'.sleep q = v.sleep q)
    (sleeps : v'.sleeps q = v.sleeps q) (roused : v'.roused q = v.roused q) (other : q ≠ p)
    (phase : ℓ.phase = (ls p).phase) (held : ℓ.held = (ls p).held)
    (mine : ∀ r b, ℓ.family.child = some (r, b) → v'.pstate r = .used)
    (theirs : ∀ r b, r ≠ p → (ls r).family.child ≠ some (q, b))
    (distinct : ∀ r r' b b', r ≠ p → (ls r).family.child = some (r', b) →
      ℓ.family.child ≠ some (r', b')) :
    PhasesOk N (update ls p ℓ) v' := by
  have fitsq := inv.fits q
  obtain ⟨fits', own', cpu, children, distinct', count'⟩ := inv
  constructor <;> grind [Rota.Agree]

theorem wake (inv : PhasesOk N ls s.rota) (sleeping : s.pstate q = .sleeping) :
    PhasesOk N ls (s.wake q).rota := by
  obtain ⟨fits, own, cpu, child, distinct, count⟩ := inv
  obtain ⟨c, asleep, chan, sleep⟩ := (fits q).of_sleeping sleeping
  simp only [State.rota] at fits child count sleep
  refine ⟨fun r => ?_, own, cpu, fun r x b h => ?_, distinct, fun r => ?_⟩
  · have := fits r
    simp only [State.rota, State.wake]
    grind
  · have := child r x b h
    simp only [State.rota, State.wake]
    grind
  · have := count r
    simp only [State.rota, State.wake]
    grind

theorem keep (inv : PhasesOk N ls v) (phase : ℓ.phase = (ls p).phase) (held : ℓ.held = (ls p).held)
    (child : ℓ.family.child = (ls p).family.child) : PhasesOk N (update ls p ℓ) v :=
  inv.ghost phase child fun _ _ h => held ▸ h

section Steps

/-- The step keeps the invariant. -/
abbrev Kept (N p : ℕ) (ls : ℕ → Local) (s : State) (o : Step) : Prop :=
  o.After N p s fun r s' => PhasesOk N (update ls p ((ls p).next p o r)) s'.rota

variable (inv : PhasesOk N ls s.rota)
include inv

theorem running (run : (ls p).phase = .run) : s.pstate p = .running := by
  have := inv.fits p
  rw [run] at this
  exact this.2

theorem awake (run : (ls p).phase = .run) : s.sleep p = none := by
  have := inv.fits p
  rw [run] at this
  exact this.1

theorem slot_lt (started : (ls p).phase ≠ .off) : p < N := by
  by_contra h
  exact started (inv.cpu p (by omega))

/-- The child that a process creates is another slot, which does not run. -/
theorem child_slot {b : Bool} (run : (ls p).phase = .run) (child : (ls p).family.child = some (q, b)) :
    s.pstate q = .used ∧ (ls q).phase = .off ∧ q ≠ p ∧
      ∀ r b', r ≠ p → (ls r).family.child ≠ some (q, b') := by
  have used : s.pstate q = .used := inv.child p q b child
  refine ⟨used, ((inv.fits q).of_off (.inr (.inl used))).1, ?_, fun r b' hr h => ?_⟩
  · rintro rfl
    rw [inv.running run] at used
    cases used
  · exact hr (inv.distinct r p q b' b h child)

theorem kept_releaseFor {l : Lock} {c : Chan} (own : .proc p ∈ (ls p).held) (proper : ∀ q, l ≠ .proc q)
    (run : (ls p).phase = .run) : Kept N p ls s (.releaseFor l c) := by
  have running := inv.running run
  have countp := inv.count p
  have slot := inv.slot_lt (p := p) (by simp [run])
  refine .guard fun _ => inv.move ?_ (by omega) ⟨by simp [rota], running⟩ ?_ ?_ ?_ ?_
  · intro r hr
    simp [rota, hr]
  · exact fun c' _ => (List.mem_erase_of_ne (proper p).symm).mpr own
  · simp [rota, running]
  · simp
    grind
  · simp only [rota] at countp ⊢
    simp [countp, inv.awake run]

theorem kept_sleeping {c : Chan} (falling : (ls p).phase = .falling c) :
    Kept N p ls s (.sleeping c) := by
  have fits := inv.fits p
  have slot := inv.slot_lt (p := p) (by simp [falling])
  rw [falling] at fits
  refine inv.move ?_ (by omega) ?_ nofun ?_ rfl (inv.count p)
  · intro r hr
    simp [rota, hr]
  · simp only [rota] at fits
    simp [rota, Phase.Fits, fits.1]
  · rw [fits.2]
    nofun

theorem kept_resume (slot : p < N) : Kept N p ls s .resume := by
  refine .guard fun ready => ?_
  have sleep := ((inv.fits p).of_runnable ready.1).1
  refine inv.move ?_ (by omega) ⟨sleep, by simp [rota]⟩ nofun ?_ rfl (inv.count p)
  · intro r hr
    simp [rota, hr]
  · simp [rota, ready.1]

section

variable (run : (ls p).phase = .run)
include run

theorem kept_clearChan : Kept N p ls s .clearChan := by
  have running := inv.running run
  have slot := inv.slot_lt (p := p) (by simp [run])
  refine inv.move ?_ (by omega) ?_ (by simp [run]) ?_ rfl (inv.count p)
  · intro r hr
    simp [rota, hr]
  · simp [rota, run, Phase.Fits, running, inv.awake run]
  · simp [rota, running]

theorem kept_yielding : Kept N p ls s .yielding := by
  have slot := inv.slot_lt (p := p) (by simp [run])
  refine inv.move ?_ (by omega) ⟨inv.awake run, by simp [rota]⟩ nofun ?_ rfl (inv.count p)
  · intro r hr
    simp [rota, hr]
  · simp [rota, inv.running run]

theorem kept_zombie (status : BitVec 32) : Kept N p ls s (.zombie status) := by
  refine inv.move ?_ (fun _ => rfl) ⟨inv.awake run, by simp [rota]⟩ nofun ?_ rfl (inv.count p)
  · intro r hr
    simp [rota, hr]
  · simp [rota, inv.running run]

theorem kept_allocSlot (child : (ls p).family.child = none) (q : ℕ) : Kept N p ls s (.allocSlot q) := by
  refine .ite (fun unused => ?_) fun _ => inv.keep rfl rfl (by simp [child])
  have theirs (r : ℕ) (b : Bool) : (ls r).family.child ≠ some (q, b) := by
    intro h
    have used := inv.child r q b h
    simp only [rota, unused] at used
    cases used
  refine inv.slot (q := q) ?_ ((inv.fits q).of_off (.inl unused)).1 ?_ rfl rfl rfl ?_ rfl rfl ?_
    (fun r b _ => theirs r b) ?_
  · intro r hr
    simp [rota, alloc, hr]
  · simp [rota, alloc]
  · rintro rfl
    rw [inv.running run] at unused
    cases unused
  · rintro r b h
    have : r = q := by grind
    simp [this, rota, alloc]
  · rintro r r' b b' - h h'
    have : r' = q := by grind
    exact theirs r b (this ▸ h)

theorem kept_freeSlot (child : (ls p).family.child = some (q, false)) :
    Kept N p ls s (.freeSlot q) := by
  obtain ⟨used, off, other, theirs⟩ := inv.child_slot run child
  refine inv.slot (q := q) ?_ off ?_ rfl rfl rfl other rfl rfl nofun theirs nofun
  · intro r hr
    simp [rota, free, hr]
  · simp [rota, free]

theorem kept_setParent (child : (ls p).family.child = some (q, false)) :
    Kept N p ls s (.setParent q) := by
  obtain ⟨used, off, other, theirs⟩ := inv.child_slot run child
  refine inv.slot (q := q) (fun _ _ => ⟨rfl, rfl, rfl, rfl, rfl⟩) off ?_ rfl rfl rfl other rfl rfl ?_
    theirs ?_
  · simp [rota, used]
  · rintro r b h
    cases h
    exact used
  · rintro r r' b b' hr h h'
    cases h'
    exact theirs r b hr h

theorem kept_startSlot (child : (ls p).family.child = some (q, true)) :
    Kept N p ls s (.startSlot q) := by
  obtain ⟨used, off, other, theirs⟩ := inv.child_slot run child
  refine inv.slot (q := q) ?_ off ?_ rfl rfl rfl other rfl rfl nofun theirs nofun
  · intro r hr
    simp [rota, hr]
  · simp [rota]

theorem kept_reap (q : ℕ) : Kept N p ls s (.reap q) := by
  refine .ite (fun zombie => .ite (fun _ => ?_) fun _ => inv.keep rfl rfl rfl)
    fun _ => inv.keep rfl rfl rfl
  have free (r r' : ℕ) (b : Bool) (h : (ls r).family.child = some (r', b)) : r' ≠ q := by
    rintro rfl
    have used := inv.child r r' b h
    simp only [State.rota, zombie] at used
    cases used
  refine inv.slot (q := q) ?_ ((inv.fits q).of_off (.inr (.inr zombie))).1 ?_ rfl rfl rfl ?_
    rfl rfl ?_ (fun r b _ h => free r q b h rfl) ?_
  · intro r hr
    simp [State.rota, State.free, State.asked, hr]
  · simp [State.rota, State.free]
  · rintro rfl
    rw [inv.running run] at zombie
    cases zombie
  · intro r b h
    have used := inv.child p r b h
    simpa [State.rota, State.free, State.asked, free p r b h] using used
  · exact fun r r' b b' hr h h' => hr (inv.distinct r p r' b b' h h')

end

theorem step (allowed : (ls p).Allows N care p o) : Kept N p ls s o := by
  cases o with
  | acquire l => exact after_acquire fun _ => inv.ghost rfl rfl fun _ _ h => List.mem_cons_of_mem _ h
  | release l =>
    exact .guard fun _ => inv.ghost rfl (by grind) fun c h => absurd h (allowed.2.2.2.1 c)
  | releaseFor l c => exact inv.kept_releaseFor allowed.2.1 allowed.2.2.1 allowed.2.2.2.1
  | sleeping c => exact inv.kept_sleeping allowed
  | swtch => exact .guard fun _ => inv.ghost rfl rfl fun c h => absurd h (allowed.2.2 c)
  | resume => exact inv.kept_resume allowed.1
  | clearChan => exact inv.kept_clearChan allowed
  | yielding => exact inv.kept_yielding allowed.2
  | wakeIf q c =>
    exact .ite (fun ready => (inv.wake ready.1).keep rfl rfl rfl) fun _ => inv.keep rfl rfl rfl
  | killIf q pid =>
    exact after_killIf (inv.keep rfl rfl rfl) (fun _ _ => inv.keep rfl rfl rfl)
      fun _ ready => (inv.wake ready).keep rfl rfl rfl
  | allocSlot q => exact inv.kept_allocSlot allowed.2.2.1 allowed.2.2.2 q
  | freeSlot q => exact inv.kept_freeSlot allowed.2.1 allowed.2.2
  | setParent q => exact inv.kept_setParent allowed.2.1 allowed.2.2.1
  | startSlot q => exact inv.kept_startSlot allowed.2.1 allowed.2.2
  | exiting status => exact .ite (fun _ => trivial) fun _ => inv.keep rfl rfl rfl
  | reparent q => exact .ite (fun _ => inv.keep rfl rfl rfl) fun _ => inv.keep rfl rfl rfl
  | zombie status => exact inv.kept_zombie allowed.2.2.1 status
  | isChild q => exact inv.keep rfl rfl (by grind)
  | reap q => exact inv.kept_reap allowed.2.2.1 q
  | more => trivial
  | _ => exact inv.keep rfl rfl rfl

end Steps

end PhasesOk

/-- Every step keeps the holders of the locks, and no step raises a panic of the locks or of the
scheduler. -/
theorem LocksOk.step (inv : LocksOk ls s) (phases : PhasesOk N ls s.rota)
    (allowed : (ls p).Allows N care p o) :
    Halt.Post (· = .initExiting)
      (fun r s' => LocksOk (update ls p ((ls p).next p o r)) s') (o.exec N p s) := by
  have keep {ℓ : Local} {s' : State} (held : ℓ.held = (ls p).held) (inv : LocksOk ls s') :
      LocksOk (update ls p ℓ) s' := by
    intro q
    by_cases hq : q = p
    · subst hq
      rw [update_self, held]
      exact inv q
    · rw [update_of_ne hq]
      exact inv q
  have change {ℓ : Local} {s' : State} (mine : Holds ℓ.held s'.locks (s'.noff p) p)
      (others : ∀ q, q ≠ p → Holds (ls q).held s'.locks (s'.noff q) q) :
      LocksOk (update ls p ℓ) s' := by
    intro q
    by_cases hq : q = p
    · subst hq
      rwa [update_self]
    · rw [update_of_ne hq]
      exact others q hq
  have release {l : Lock} (mem : l ∈ (ls p).held) (q : ℕ) (hq : q ≠ p) :
      Holds (ls q).held (update s.locks l none) (s.noff q) q := by
    refine (inv q).other ?_ nofun
    rw [((inv p).owner l).mpr mem]
    exact fun h => hq (Option.some.inj h).symm
  cases o with
  | acquire l =>
    simp only [Step.exec]
    split
    · rename_i free
      refine change ?_ fun q hq => ?_
      · simpa using (inv p).take free
      · simpa [hq] using (inv q).other (by simp [free]) fun h => hq (Option.some.inj h).symm
    · split
      · rename_i mine
        exact absurd (((inv p).owner l).mp mine) allowed.1
      · trivial
  | release l =>
    have mem : l ∈ (ls p).held := allowed.1
    simp only [Step.exec, ((inv p).owner l).mpr mem, if_true]
    refine change ?_ fun q hq => ?_
    · simpa using (inv p).drop mem
    · simpa [hq] using release mem q hq
  | releaseFor l c =>
    have mem : l ∈ (ls p).held := allowed.1
    simp only [Step.exec, ((inv p).owner l).mpr mem, if_true]
    refine change ?_ fun q hq => ?_
    · simpa using (inv p).drop mem
    · simpa [hq] using release mem q hq
  | swtch =>
    obtain ⟨held, run, falling⟩ := allowed
    have mem : .proc p ∈ (ls p).held := by simp [held]
    have count := (inv p).count
    rw [held] at count
    have stopped := (phases.fits p).stopped run falling
    simp only [Step.exec]
    rw [if_pos ⟨((inv p).owner _).mpr mem, count, stopped⟩]
    refine change ?_ fun q hq => ?_
    · simpa [held, count] using (inv p).drop mem
    · simpa [hq] using release mem q hq
  | resume =>
    obtain ⟨-, held, -⟩ := allowed
    have count := (inv p).count
    rw [held] at count
    simp only [Step.exec]
    split
    · rename_i free
      refine change ?_ fun q hq => ?_
      · simpa [held, count] using (inv p).take free.2
      · simpa [hq] using (inv q).other (by simp [free.2]) fun h => hq (Option.some.inj h).symm
    · trivial
  | wakeIf | allocSlot | reparent => exact .ite (fun _ => keep rfl inv) fun _ => keep rfl inv
  | killIf q pid =>
    exact after_killIf (keep rfl inv) (fun _ _ => keep rfl inv) fun _ _ => keep rfl inv
  | exiting status => exact .ite (fun _ => rfl) fun _ => keep rfl inv
  | reap q =>
    exact .ite (fun _ => .ite (fun _ => keep rfl inv) fun _ => keep rfl inv) fun _ => keep rfl inv
  | more => trivial
  | _ => exact keep rfl inv

theorem PhasesOk.asleep (phases : PhasesOk N ls s.rota) (locks : LocksOk ls s) {q : ℕ} {c : Chan}
    (other : q ≠ p) (held : .proc q ∈ (ls p).held) (hc : s.sleep q = some c) :
    s.pstate q = .sleeping ∧ s.chan q = some c := by
  have fits := phases.fits q
  simp only [rota] at fits
  cases hφ : (ls q).phase with
  | falling c' => exact absurd (locks.unique (phases.own q c' hφ) held) other
  | _ => simp_all [Phase.Fits]

end Xv6.Proc
