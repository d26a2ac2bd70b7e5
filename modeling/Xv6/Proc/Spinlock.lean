import Mathlib.Data.Nat.Notation
import Mathlib.Logic.Function.Basic
import Mathlib.Logic.Relation

/-!
# Spin locks

`acquire`, `release` and `holding` of `kernel/spinlock.c` on any number of CPUs, with every read and
write of `struct spinlock` as one step.
-/

namespace Xv6.Spin

open Function (update update_of_ne update_self)

/-- Where a CPU is: `acq` says whether it is in `acquire`, `held` whether it had the lock when it
called. -/
inductive Pc where
  | idle (held : Bool)
  -- the two reads of `holding`
  | readLocked (acq held : Bool)
  | readCpu (acq held : Bool)
  -- `acquire`: the atomic swap, and `lk->cpu = mycpu()`
  | swap
  | setCpu
  -- `release`: `lk->cpu = 0`, and `lk->locked = 0`
  | clearCpu
  | unlock
  | panic (acq held : Bool)

/-- The CPU has the lock. -/
@[grind] def Pc.owns : Pc → Bool
  | idle h | readLocked _ h | readCpu _ h | panic _ h => h
  | setCpu | clearCpu | unlock => true
  | swap => false

/-- The CPU has the lock, and `lk->cpu` says so. -/
@[grind] def Pc.recorded : Pc → Bool
  | setCpu | unlock => false
  | pc => pc.owns

@[grind →] theorem Pc.owns_of_recorded {pc : Pc} (h : pc.recorded = true) : pc.owns = true := by
  cases pc <;> first | exact h | rfl

@[grind] def Pc.after (acq held holding : Bool) : Pc :=
  if holding = acq then .panic acq held else if acq then .swap else .clearCpu

/-- A spin lock and the CPUs. -/
structure State where
  locked : Bool
  cpu : Option ℕ
  pc : ℕ → Pc

def init : State := ⟨false, none, fun _ => .idle false⟩

def State.go (s : State) (c : ℕ) (pc : Pc) : State := { s with pc := update s.pc c pc }

/-- One step of CPU `c`.  It calls `acquire` and `release` whether it has the lock or not. -/
inductive Step (s : State) (c : ℕ) : State → Prop
  | call (acq held : Bool) (here : s.pc c = .idle held) : Step s c (s.go c (.readLocked acq held))
  | readLocked (acq held : Bool) (here : s.pc c = .readLocked acq held) :
      Step s c (s.go c (if s.locked then .readCpu acq held else .after acq held false))
  | readCpu (acq held : Bool) (here : s.pc c = .readCpu acq held) :
      Step s c (s.go c (.after acq held (s.cpu = some c)))
  | swap (here : s.pc c = .swap) :
      Step s c { s.go c (if s.locked then .swap else .setCpu) with locked := true }
  | setCpu (here : s.pc c = .setCpu) : Step s c { s.go c (.idle true) with cpu := some c }
  | clearCpu (here : s.pc c = .clearCpu) : Step s c { s.go c .unlock with cpu := none }
  | unlock (here : s.pc c = .unlock) : Step s c { s.go c (.idle false) with locked := false }

/-- The states of the lock. -/
def Reaches : State → Prop := Relation.ReflTransGen (fun s s' => ∃ c, Step s c s') init

/-- The state of the lock when `w` has it: this determines both fields. -/
structure Refines (s : State) (w : Option ℕ) : Prop where
  owns : ∀ c, (s.pc c).owns = true ↔ w = some c
  locked : s.locked = w.isSome
  cpu : ∀ c, s.cpu = some c ↔ (s.pc c).recorded = true
  panic : ∀ c acq held, s.pc c = .panic acq held → held = acq

/-- A step of CPU `c` on the atomic lock. -/
inductive Atomic (c : ℕ) : Option ℕ → Option ℕ → Prop
  | stay (w : Option ℕ) : Atomic c w w
  | acquire : Atomic c none (some c)
  | release : Atomic c (some c) none

variable {s s' : State} {c : ℕ} {w : Option ℕ}

theorem Refines.go (inv : Refines s w) {pc : Pc} (owns : pc.owns = (s.pc c).owns)
    (recorded : pc.recorded = (s.pc c).recorded)
    (panic : ∀ acq held, pc = .panic acq held → held = acq) : Refines (s.go c pc) w := by
  obtain ⟨owners, locked, cpu, calm⟩ := inv
  constructor <;> simp only [State.go] <;> grind

/-- Every step is one of the atomic lock. -/
theorem Refines.step (inv : Refines s w) (step : Step s c s') :
    ∃ w', Atomic c w w' ∧ Refines s' w' := by
  have ⟨owners, locked, cpu, calm⟩ := inv
  have mine := owners c
  have recorded := cpu c
  cases step with
  | call acq held here => exact ⟨w, .stay w, inv.go (by grind) (by grind) nofun⟩
  | readLocked acq held here => exact ⟨w, .stay w, inv.go (by grind) (by grind) (by grind)⟩
  | readCpu acq held here => exact ⟨w, .stay w, inv.go (by grind) (by grind) (by grind)⟩
  | swap here =>
    cases w with
    | some d => exact ⟨_, .stay _, { inv.go (by grind) (by grind) (by grind) with locked := rfl }⟩
    | none =>
      refine ⟨_, .acquire, ?_, rfl, ?_, ?_⟩ <;> simp only [State.go] <;> grind
  | setCpu here =>
    refine ⟨w, .stay w, ?_, locked, ?_, ?_⟩ <;> simp only [State.go] <;> grind
  | clearCpu here =>
    refine ⟨w, .stay w, ?_, locked, ?_, ?_⟩ <;> simp only [State.go] <;> grind
  | unlock here =>
    obtain rfl : w = some c := mine.mp (by grind)
    refine ⟨none, .release, ?_, rfl, ?_, ?_⟩ <;> simp only [State.go] <;> grind

theorem Reaches.refines (reaches : Reaches s) : ∃ w, Refines s w := by
  induction reaches with
  | refl => exact ⟨none, fun _ => iff_of_false nofun nofun, rfl, fun _ => iff_of_false nofun nofun, nofun⟩
  | tail _ step ih =>
    obtain ⟨⟨w, inv⟩, c, step⟩ := ih, step
    obtain ⟨w', -, inv'⟩ := inv.step step
    exact ⟨w', inv'⟩

/-- In every interleaving one CPU at most has the lock, every step is one of the atomic lock, `holding`
tells the truth, and only an `acquire` of a lock that the CPU has and a `release` of one that it does
not have panic. -/
theorem spinlock_refines_atomic (reaches : Reaches s) :
    ∃ w : Option ℕ, (∀ c, (s.pc c).owns = true ↔ w = some c) ∧
      (∀ c held, s.pc c = .idle held → (held = true ↔ s.locked = true ∧ s.cpu = some c)) ∧
      (∀ c acq held, s.pc c = .panic acq held → held = acq) ∧
      ∀ c s', Step s c s' → ∃ w', Atomic c w w' ∧ ∀ d, (s'.pc d).owns = true ↔ w' = some d := by
  obtain ⟨w, inv⟩ := reaches.refines
  refine ⟨w, inv.owns, fun c held here => ?_, inv.panic, fun c s' step => ?_⟩
  · have := inv.owns c
    have := inv.cpu c
    have := inv.locked
    grind
  · obtain ⟨w', atomic, inv'⟩ := inv.step step
    exact ⟨w', atomic, inv'.owns⟩

/-- CPU 1 spins on the lock that CPU 0 has acquired. -/
theorem spinlock_refines_atomic_held : ∃ s, Reaches s ∧ (s.pc 0).owns = true ∧ s.pc 1 = .swap ∧
    s.locked = true ∧ s.cpu = some 0 := by
  have call₁ : Reaches _ := Relation.ReflTransGen.refl.tail ⟨1, .call true false rfl⟩
  have call₀ := (call₁.tail ⟨1, .readLocked true false rfl⟩).tail ⟨0, .call true false rfl⟩
  have swap₀ := (call₀.tail ⟨0, .readLocked true false rfl⟩).tail ⟨0, .swap rfl⟩
  have run : Reaches _ := (swap₀.tail ⟨0, .setCpu rfl⟩).tail ⟨1, .swap rfl⟩
  obtain ⟨w, -, holding, -⟩ := spinlock_refines_atomic run
  exact ⟨_, run, rfl, rfl, (holding 0 true rfl).mp rfl⟩

end Xv6.Spin
