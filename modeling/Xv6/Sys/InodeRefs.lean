import Mathlib.Data.Finset.Card

/-!
# References and locks of an inode

`iget`, `idup`, `ilock`, `iunlock` and `iput` of `kernel/fs.c` on one entry of the inode table in any
interleaving.
-/

namespace Xv6.Sys.Entry

open Finset

open Function (update update_apply)

variable {P R : Type}

/-- Where a process is; `iput` drops the reference `r`. -/
inductive Pc (R : Type) where
  | idle
  -- `ilock` before `acquiresleep`
  | wait
  -- `iput` with `itable.lock`: before the test, before and after `acquiresleep`
  | test (r : R)
  | acquiresleep (r : R)
  | release (r : R)
  -- `iput` while it frees the inode, and before it acquires `itable.lock` again
  | itrunc (r : R)
  | acquire (r : R)
  -- before `ip->ref--`
  | drop (r : R)

/-- The process has `itable.lock`. -/
def Pc.spins : Pc R → Bool
  | test _ | acquiresleep _ | release _ | drop _ => true
  | _ => false

/-- The process has the sleep-lock because it frees the inode. -/
def Pc.frees : Pc R → Bool
  | release _ | itrunc _ => true
  | _ => false

def Pc.drops : Pc R → Option R
  | idle | wait => none
  | test r | acquiresleep r | release r | itrunc r | acquire r | drop r => some r

/-- The entry, the references to it that files, directories and processes have, and the reference under
which a process locks it. -/
structure State (P R : Type) where
  ref : ℕ
  spin : Option P
  lock : Option P
  live : Finset R
  uses : P → Option R
  pc : P → Pc R

section

variable [DecidableEq P] [DecidableEq R]

def init : State P R := ⟨0, none, none, ∅, fun _ => none, fun _ => .idle⟩

def State.go (s : State P R) (p : P) (pc : Pc R) : State P R := { s with pc := update s.pc p pc }

/-- One step of process `p`.  A reference is dropped once, and not while a process locks the inode under
it; whether `iput` frees the inode is left open. -/
inductive Step (s : State P R) (p : P) : State P R → Prop
  -- also `idup`
  | iget (r : R) (new : r ∉ s.live) (here : s.pc p = .idle) (free : s.spin = none) :
      Step s p { s with ref := s.ref + 1, live := insert r s.live }
  | ilock (r : R) (live : r ∈ s.live) (kept : ∀ q, (s.pc q).drops ≠ some r) (here : s.pc p = .idle)
      (other : s.lock ≠ some p) : Step s p { s.go p .wait with uses := update s.uses p (some r) }
  | lock (here : s.pc p = .wait) (free : s.lock = none) :
      Step s p { s.go p .idle with lock := some p }
  | iunlock (here : s.pc p = .idle) (mine : s.lock = some p) :
      Step s p { s with lock := none, uses := update s.uses p none }
  | iput (r : R) (live : r ∈ s.live) (kept : ∀ q, (s.pc q).drops ≠ some r)
      (unused : ∀ q, s.uses q ≠ some r) (here : s.pc p = .idle) (free : s.spin = none) :
      Step s p { s.go p (.test r) with spin := some p }
  | last (r : R) (here : s.pc p = .test r) (one : s.ref = 1) : Step s p (s.go p (.acquiresleep r))
  | more (r : R) (here : s.pc p = .test r) : Step s p (s.go p (.drop r))
  | acquiresleep (r : R) (here : s.pc p = .acquiresleep r) (free : s.lock = none) :
      Step s p { s.go p (.release r) with lock := some p }
  | release (r : R) (here : s.pc p = .release r) : Step s p { s.go p (.itrunc r) with spin := none }
  | itrunc (r : R) (here : s.pc p = .itrunc r) : Step s p { s.go p (.acquire r) with lock := none }
  | acquire (r : R) (here : s.pc p = .acquire r) (free : s.spin = none) :
      Step s p { s.go p (.drop r) with spin := some p }
  | drop (r : R) (here : s.pc p = .drop r) :
      Step s p { s.go p .idle with ref := s.ref - 1, live := s.live.erase r, spin := none }

/-- The states of the entry. -/
def Reaches : State P R → Prop := Relation.ReflTransGen (fun s s' => ∃ p, Step s p s') init

end

/-- What the place of process `p` says about the locks. -/
structure Fits (s : State P R) (p : P) : Prop where
  spin : (s.pc p).spins = true ↔ s.spin = some p
  frees : (s.pc p).frees = true → s.lock = some p
  wait : s.pc p = .wait → s.uses p ≠ none
  lock : s.lock = some p → (s.pc p).frees = false → s.uses p ≠ none
  -- `ip->ref` changes only under `itable.lock`
  alone : ∀ r, s.pc p = .acquiresleep r → s.ref = 1

/-- No reference in use is dropped, and none is dropped twice. -/
structure Refs (s : State P R) : Prop where
  count : s.ref = s.live.card
  uses : ∀ p r, s.uses p = some r → r ∈ s.live ∧ ∀ q, (s.pc q).drops ≠ some r
  drops : ∀ p r, (s.pc p).drops = some r → r ∈ s.live ∧ ∀ q, (s.pc q).drops = some r → q = p

/-- The invariant of the entry. -/
structure Inv (s : State P R) : Prop extends Refs s where
  fits : ∀ p, Fits s p

variable {s s' : State P R} {p q : P}

theorem Pc.frees_drops : ∀ {pc : Pc R}, pc.frees = true → ∃ r, pc.drops = some r
  | .release r, _ | .itrunc r, _ => ⟨r, rfl⟩

theorem Inv.live_of_uses (inv : Inv s) (uses : s.uses p ≠ none) : ∃ r, r ∈ s.live := by
  obtain ⟨r, used⟩ := Option.ne_none_iff_exists'.mp uses
  exact ⟨r, (inv.uses p r used).1⟩

theorem Inv.live_of_lock (inv : Inv s) (held : s.lock = some p) : ∃ r, r ∈ s.live := by
  cases freeing : (s.pc p).frees with
  | false => exact inv.live_of_uses ((inv.fits p).lock held freeing)
  | true =>
    obtain ⟨r, drops⟩ := Pc.frees_drops freeing
    exact ⟨r, (inv.drops p r drops).1⟩

section

variable {r : R} (inv : Inv s) (here : s.pc p = .acquiresleep r)

include inv here

/-- The reference that `iput` drops is the only one when it frees the inode. -/
theorem Inv.only {r' : R} (live : r' ∈ s.live) : r' = r := by
  have one := inv.count.symm.trans ((inv.fits p).alone r here)
  exact card_le_one.mp one.le _ live _ (inv.drops p r (here ▸ rfl)).1

theorem Inv.unused (q : P) : s.uses q = none := by
  refine Option.eq_none_iff_forall_ne_some.mpr fun r' used => ?_
  obtain ⟨live, kept⟩ := inv.uses q r' used
  exact kept p (inv.only here live ▸ here ▸ rfl)

theorem Inv.unlocked : s.lock = none := by
  refine Option.eq_none_iff_forall_ne_some.mpr fun q held => ?_
  cases freeing : (s.pc q).frees with
  | false => exact (inv.fits q).lock held freeing (inv.unused here q)
  | true =>
    obtain ⟨r', drops⟩ := Pc.frees_drops freeing
    obtain ⟨live, once⟩ := inv.drops q r' drops
    obtain rfl := once p (inv.only here live ▸ here ▸ rfl)
    rw [here] at freeing
    exact Bool.false_ne_true freeing

end

variable [DecidableEq P] [DecidableEq R]

theorem Fits.step (fits : Fits s p) (step : Step s p s') : Fits s' p := by
  obtain ⟨spin, frees, wait, lock, alone⟩ := fits
  cases step <;> constructor <;> simp_all [State.go, Pc.spins, Pc.frees]

/-- What a step of `p` leaves alone for another process. -/
theorem Step.frame (mine : Fits s p) (ne : q ≠ p) (step : Step s p s') :
    s'.pc q = s.pc q ∧ s'.uses q = s.uses q ∧ (s'.spin = some q ↔ s.spin = some q) ∧
      (s'.lock = some q ↔ s.lock = some q) ∧ (s.spin = some q → s'.ref = s.ref) := by
  obtain ⟨spin, frees, -, -, -⟩ := mine
  have ne' := ne.symm
  cases step <;> simp_all [State.go, Pc.spins, Pc.frees]

theorem Refs.step (refs : Refs s) (step : Step s p s') : Refs s' := by
  obtain ⟨count, uses, drops⟩ := refs
  cases step with
  | iget r new here free =>
    refine ⟨?_, ?_, ?_⟩
    · rw [card_insert_of_notMem new, count]
    all_goals grind only [mem_insert]
  | drop r here =>
    have mine : (s.pc p).drops = some r := by rw [here, Pc.drops]
    refine ⟨?_, ?_, ?_⟩
    · exact (congrArg (· - 1) count).trans (card_erase_of_mem (drops p r mine).1).symm
    all_goals
      simp only [State.go, update_apply, mem_erase]
      grind only [Pc.drops]
  | _ =>
    refine ⟨count, ?_, ?_⟩ <;> simp only [State.go, update_apply] <;> grind only [Pc.drops]

theorem Reaches.inv (run : Reaches s) : Inv s := by
  induction run with
  | refl =>
    refine ⟨⟨rfl, ?_, ?_⟩, fun p => ⟨?_, ?_, ?_, ?_, ?_⟩⟩ <;>
      simp [init, Pc.spins, Pc.frees, Pc.drops]
  | tail _ step inv =>
    obtain ⟨p, step⟩ := step
    refine ⟨inv.toRefs.step step, fun q => ?_⟩
    rcases eq_or_ne q p with rfl | ne
    · exact (inv.fits q).step step
    · obtain ⟨pc, uses, spin, lock, ref⟩ := step.frame (inv.fits p) ne
      obtain ⟨spins, frees, waits, held, alone⟩ := inv.fits q
      rw [← pc, ← spin, ← lock, ← uses] at *
      refine ⟨spins, frees, waits, held, fun r here => ?_⟩
      rw [ref (spins.mp (here ▸ rfl)), alone r here]

/-- `ip->ref` counts the references; `iput` does not wait for the sleep-lock while it has `itable.lock`,
nobody else gets it until `iput` has freed the inode, and `ilock` and `iunlock` find a positive
`ip->ref`. -/
theorem iput_never_waits (run : Reaches s) : s.ref = s.live.card ∧
    (∀ p r, s.pc p = .acquiresleep r → s.lock = none ∧ ∀ q, s.pc q ≠ .wait) ∧
    (∀ p, (s.pc p).frees = true → s.lock = some p) ∧
    ∀ p, s.pc p = .wait ∨ s.lock = some p → 1 ≤ s.ref := by
  have inv := run.inv
  refine ⟨inv.count, fun p r here => ⟨inv.unlocked here, fun q waits => ?_⟩,
    fun p => (inv.fits p).frees, fun p locks => ?_⟩
  · exact (inv.fits q).wait waits (inv.unused here q)
  · have live : ∃ r, r ∈ s.live :=
      locks.elim (fun waits => inv.live_of_uses ((inv.fits p).wait waits)) inv.live_of_lock
    exact inv.count ▸ card_pos.mpr live

theorem iput_never_waits_last : ∃ s : State Bool Bool,
    Reaches s ∧ s.pc true = .acquiresleep true ∧ s.lock = none := by
  have run : Reaches (P := Bool) (R := Bool) _ :=
    ((Relation.ReflTransGen.single ⟨true, .iget true (by decide) rfl rfl⟩).tail
      ⟨true, .iput true (by decide) nofun nofun rfl rfl⟩).tail ⟨true, .last true rfl rfl⟩
  exact ⟨_, run, rfl, ((iput_never_waits run).2.1 true true rfl).1⟩

end Xv6.Sys.Entry
