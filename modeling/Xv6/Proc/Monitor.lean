import Xv6.Proc.Family
import Xv6.Proc.Wakeup

/-!
# Nobody sleeps on a condition that holds

A process sleeps on a channel after it has found, under the lock that guards the channel's condition,
that the condition does not hold.  Whoever makes it hold has the lock, and calls `wakeup` before it
gives the lock back; the only exception is a `pipewrite` that finds itself killed.
-/

namespace Xv6.Proc

open Function State Debt Option

variable {N p q : ℕ} {care : Care} {ls : ℕ → Local} {ℓ : Local} {s : State} {o : Step} {c : Chan}

/-! ## What is known about the pipe -/

/-- What a process that holds the pipe's lock knows about the pipe is so. -/
structure Sees (x : Pipe) (ℓ : Local) : Prop where
  readopen : ℓ.know.readopen = true → .pipe ∈ ℓ.held ∧ x.readopen = true
  writeopen : ℓ.know.writeopen = true → .pipe ∈ ℓ.held ∧ x.writeopen = true
  full : ∀ b, ℓ.know.full = some b → .pipe ∈ ℓ.held ∧ decide x.Full = b
  empty : ∀ b, ℓ.know.empty = some b → .pipe ∈ ℓ.held ∧ decide x.Empty = b

def KnowOk (ls : ℕ → Local) (x : Pipe) : Prop := ∀ q, Sees x (ls q)

theorem Sees.nothing {x : Pipe} (h : ℓ.know = .nothing) : Sees x ℓ := by
  constructor <;> simp [h, Know.nothing]

namespace KnowOk

variable {x x' : Pipe}

theorem ghost (know : KnowOk ls x) (mine : Sees x ℓ) : KnowOk (update ls p ℓ) x :=
  (forall_update_iff ls fun _ => Sees x).mpr ⟨mine, fun q _ => know q⟩

theorem keep (know : KnowOk ls x) (same : ℓ.know = (ls p).know)
    (held : .pipe ∈ (ls p).held → .pipe ∈ ℓ.held) : KnowOk (update ls p ℓ) x := by
  obtain ⟨h₁, h₂, h₃, h₄⟩ := know p
  rw [← same] at h₁ h₂ h₃ h₄
  exact know.ghost ⟨fun h => (h₁ h).imp held id, fun h => (h₂ h).imp held id,
    fun b h => (h₃ b h).imp held id, fun b h => (h₄ b h).imp held id⟩

theorem holder (know : KnowOk ls x) (alone : ∀ q, .pipe ∈ (ls q).held → q = p) (mine : Sees x' ℓ) :
    KnowOk (update ls p ℓ) x' := by
  refine (forall_update_iff ls fun _ => Sees x').mpr ⟨mine, fun q hq => ?_⟩
  have free : .pipe ∉ (ls q).held := fun h => hq (alone q h)
  exact ⟨fun h => absurd ((know q).readopen h).1 free, fun h => absurd ((know q).writeopen h).1 free,
    fun b h => absurd ((know q).full b h).1 free, fun b h => absurd ((know q).empty b h).1 free⟩

theorem step (know : KnowOk ls s.pipe) (locks : LocksOk ls s) (allowed : (ls p).Allows N care p o) :
    o.After N p s fun r s' => KnowOk (update ls p ((ls p).next p o r)) s'.pipe := by
  have alone (lock : .pipe ∈ (ls p).held) (q : ℕ) (hq : .pipe ∈ (ls q).held) : q = p :=
    locks.unique hq lock
  have release (l : Lock) {ℓ : Local} (forget : ℓ.know = if l = .pipe then .nothing else (ls p).know)
      (held : ℓ.held = (ls p).held.erase l) : KnowOk (update ls p ℓ) s.pipe := by
    by_cases pipe : l = .pipe
    · exact know.ghost (.nothing (by rw [forget, if_pos pipe]))
    · refine know.keep (by rw [forget, if_neg pipe]) fun h => ?_
      rw [held]
      exact (List.mem_erase_of_ne (Ne.symm pipe)).mpr h
  obtain ⟨readopen, writeopen, full, empty⟩ := know p
  cases o with
  | acquire l => exact after_acquire fun _ => know.keep rfl fun h => List.mem_cons_of_mem _ h
  | release l | releaseFor l c => exact .guard fun _ => release l rfl rfl
  | swtch => exact .guard fun _ => know.keep rfl (by simp [allowed.1])
  | resume => exact .guard fun _ => know.keep rfl (by simp [allowed.2.1])
  | readopen => exact know.ghost ⟨fun h => ⟨allowed, h⟩, writeopen, full, empty⟩
  | writeopen => exact know.ghost ⟨readopen, fun h => ⟨allowed, h⟩, full, empty⟩
  | full =>
    refine know.ghost ⟨readopen, writeopen, ?_, empty⟩
    rintro b ⟨⟩
    exact ⟨allowed, rfl⟩
  | empty =>
    refine know.ghost ⟨readopen, writeopen, full, ?_⟩
    rintro b ⟨⟩
    exact ⟨allowed, rfl⟩
  | putByte ch => exact know.holder (alone allowed.1) ⟨readopen, writeopen, by rintro _ ⟨⟩, by rintro _ ⟨⟩⟩
  | takeByte => exact know.holder (alone allowed.1) ⟨readopen, writeopen, by rintro _ ⟨⟩, by rintro _ ⟨⟩⟩
  | closeEnd writable =>
    have lock := allowed.1
    cases writable
    · refine know.holder (alone lock) ⟨?_, ?_, full, empty⟩
      · simp
      · simpa using writeopen
    · refine know.holder (alone lock) ⟨?_, ?_, full, empty⟩
      · simpa using readopen
      · simp
  | wakeIf | allocSlot | exiting | reparent | reap | more =>
    simp only [Step.After, Step.exec]
    repeat' split
    all_goals first | exact know.keep rfl id | trivial
  | killIf q pid =>
    exact after_killIf (know.keep rfl id) (fun _ _ => know.keep rfl id) fun _ _ => know.keep rfl id
  | _ => exact know.keep rfl id

end KnowOk

/-! ## Conditions and their sleepers -/

/-- The part of the state that the conditions and the sleepers consist of. -/
structure Conds where
  sleep : ℕ → Option Chan
  pstate : ℕ → ProcState
  parent : ℕ → Option ℕ
  pipe : Pipe

def State.conds (s : State) : Conds := ⟨s.sleep, s.pstate, s.parent, s.pipe⟩

/-- The condition that the sleepers on a channel wait for. -/
def Conds.Ready (v : Conds) : Chan → Prop
  | .proc x => ∃ r, v.parent r = some x ∧ v.pstate r = .zombie
  | .nread => ¬ v.pipe.Empty ∨ v.pipe.writeopen = false
  | .nwrite => ¬ v.pipe.Full ∨ v.pipe.readopen = false
  | _ => False

/-- Somebody sleeps although the condition holds. -/
def Conds.Stuck (v : Conds) (c : Chan) : Prop := (∃ q, v.sleep q = some c) ∧ v.Ready c

/-- The channels on which the runs under consideration lose no wakeup. -/
def Care.Watches (care : Care) (c : Chan) : Prop := c = .nread → care.prompt = true

theorem Debt.dirty_drop {d : Debt} {l : Lock} :
    (d.drop l).dirty = some c ↔ d.dirty = some c ∧ c.guard ≠ some l := by
  simp only [drop]
  grind

theorem Debt.cleared_drop {d : Debt} {l : Lock} :
    (d.drop l).cleared = some c ↔ d.cleared = some c ∧ c.guard ≠ some l := by
  simp only [drop]
  grind

/-- Nobody sleeps through the event that it waits for. -/
structure MonitorOk (care : Care) (ls : ℕ → Local) (v : Conds) : Prop where
  /-- Somebody who holds the lock still has to call `wakeup`. -/
  owed : ∀ c l, c.guard = some l → care.Watches c → v.Stuck c →
    ∃ h, l ∈ (ls h).held ∧ (ls h).debt.dirty = some c
  dirty : ∀ h c, (ls h).debt.dirty = some c → ∃ l, c.guard = some l ∧ l ∈ (ls h).held
  cleared : ∀ h c, (ls h).debt.cleared = some c →
    ∃ l, c.guard = some l ∧ l ∈ (ls h).held ∧ ∀ q, v.sleep q ≠ some c
  passed : ∀ h c j l, (ls h).scan = some (c, j) → c.guard = some l → l ∈ (ls h).held →
    ∀ q, q < j → q ≠ h → v.sleep q ≠ some c

namespace MonitorOk

variable {v v' : Conds}

attribute [local grind =] update_apply

theorem move (inv : MonitorOk care ls v) (fewer : ∀ q c, v'.sleep q = some c → v.sleep q = some c)
    (owed : ∀ c l, c.guard = some l → care.Watches c → v'.Stuck c →
      (l ∈ ℓ.held ∧ ℓ.debt.dirty = some c) ∨
        (v.Ready c ∧ ¬ (l ∈ (ls p).held ∧ (ls p).debt.dirty = some c)))
    (dirty : ∀ c, ℓ.debt.dirty = some c → ∃ l, c.guard = some l ∧ l ∈ ℓ.held)
    (cleared : ∀ c, ℓ.debt.cleared = some c →
      ∃ l, c.guard = some l ∧ l ∈ ℓ.held ∧ ∀ q, v'.sleep q ≠ some c)
    (passed : ∀ c j l, ℓ.scan = some (c, j) → c.guard = some l → l ∈ ℓ.held →
      ∀ q, q < j → q ≠ p → v'.sleep q ≠ some c) :
    MonitorOk care (update ls p ℓ) v' where
  owed c l guard watches stuck := by
    rcases owed c l guard watches stuck with mine | ⟨ready, notMine⟩
    · exact ⟨p, by rwa [update_self]⟩
    · obtain ⟨⟨q, hq⟩, -⟩ := stuck
      obtain ⟨h, hh⟩ := inv.owed c l guard watches ⟨⟨q, fewer q c hq⟩, ready⟩
      have : h ≠ p := by
        rintro rfl
        exact notMine hh
      exact ⟨h, by rwa [update_of_ne this]⟩
  dirty h c hc := by
    by_cases hp : h = p
    · subst hp
      rw [update_self] at hc ⊢
      exact dirty c hc
    · rw [update_of_ne hp] at hc ⊢
      exact inv.dirty h c hc
  cleared h c hc := by
    by_cases hp : h = p
    · subst hp
      rw [update_self] at hc ⊢
      exact cleared c hc
    · rw [update_of_ne hp] at hc ⊢
      obtain ⟨l, h₁, h₂, h₃⟩ := inv.cleared h c hc
      exact ⟨l, h₁, h₂, fun q hq => h₃ q (fewer q c hq)⟩
  passed h c j l scan guard held q hq other := by
    by_cases hp : h = p
    · subst hp
      rw [update_self] at scan held
      exact passed c j l scan guard held q hq other
    · rw [update_of_ne hp] at scan held
      exact fun hc => inv.passed h c j l scan guard held q hq other (fewer q c hc)

theorem keep (inv : MonitorOk care ls v) (fewer : ∀ q c, v'.sleep q = some c → v.sleep q = some c)
    (ready : ∀ c, v'.Ready c → v.Ready c) (debt : ℓ.debt = (ls p).debt) (scan : ℓ.scan = (ls p).scan)
    (held : ∀ c l, Chan.guard c = some l → l ∈ (ls p).held → l ∈ ℓ.held)
    (taken : (ls p).scan ≠ none → ∀ c l, Chan.guard c = some l → l ∈ ℓ.held → l ∈ (ls p).held) :
    MonitorOk care (update ls p ℓ) v' := by
  refine inv.move fewer (fun c l guard _ stuck => ?_) (fun c hc => ?_) (fun c hc => ?_) ?_
  · by_cases mine : l ∈ (ls p).held ∧ (ls p).debt.dirty = some c
    · exact .inl ⟨held c l guard mine.1, debt ▸ mine.2⟩
    · exact .inr ⟨ready c stuck.2, mine⟩
  · obtain ⟨l, h₁, h₂⟩ := inv.dirty p c (debt ▸ hc)
    exact ⟨l, h₁, held c l h₁ h₂⟩
  · obtain ⟨l, h₁, h₂, h₃⟩ := inv.cleared p c (debt ▸ hc)
    exact ⟨l, h₁, held c l h₁ h₂, fun q hq => h₃ q (fewer q c hq)⟩
  · intro c j l hs guard hl q hq other hc
    have hs' := scan ▸ hs
    exact inv.passed p c j l hs' guard (taken (by simp [hs']) c l guard hl) q hq other (fewer q c hc)

theorem ghost (inv : MonitorOk care ls v) (debt : ℓ.debt = (ls p).debt) (scan : ℓ.scan = (ls p).scan)
    (held : ℓ.held = (ls p).held) : MonitorOk care (update ls p ℓ) v :=
  inv.keep (fun _ _ => id) (fun _ => id) debt scan (fun _ _ _ => held ▸ id) fun _ _ _ _ => held ▸ id

theorem ready_mono (pipe : v'.pipe = v.pipe)
    (zombie : ∀ r x, v'.parent r = some x → v'.pstate r = .zombie →
      v.parent r = some x ∧ v.pstate r = .zombie) (ready : v'.Ready c) : v.Ready c := by
  cases c with
  | proc x =>
    obtain ⟨r, h₁, h₂⟩ := ready
    exact ⟨r, zombie r x h₁ h₂⟩
  | nread => simpa only [Conds.Ready, pipe] using ready
  | nwrite => simpa only [Conds.Ready, pipe] using ready
  | ticks => exact ready
  | cons => exact ready
  | other k => exact ready

theorem owe (inv : MonitorOk care ls v) {l : Lock} (guard : c.guard = some l) (lock : l ∈ ℓ.held)
    (dirty : ℓ.debt.dirty = some c) (paid : (ls p).debt.dirty = none ∨ (ls p).debt.dirty = some c)
    (sleep : v'.sleep = v.sleep) (ready : ∀ c', c' ≠ c → v'.Ready c' → v.Ready c')
    (cleared : ℓ.debt.cleared = (ls p).debt.cleared) (scan : ℓ.scan = (ls p).scan)
    (held : ℓ.held = (ls p).held) : MonitorOk care (update ls p ℓ) v' := by
  refine inv.move (by rw [sleep]; exact fun _ _ => id) (fun c' l' guard' _ stuck => ?_)
    (fun c' hc => ?_) (by rw [sleep, cleared, held]; exact inv.cleared p)
    (by rw [sleep, scan, held]; exact inv.passed p)
  · by_cases hc : c' = c
    · subst hc
      obtain rfl := some.inj (guard.symm.trans guard')
      exact .inl ⟨lock, dirty⟩
    · refine .inr ⟨ready c' hc stuck.2, fun mine => ?_⟩
      rcases paid with h | h <;> rw [h] at mine
      · cases mine.2
      · exact hc (some.inj mine.2).symm
  · obtain rfl := some.inj (dirty.symm.trans hc)
    exact ⟨l, guard, lock⟩

theorem release (inv : MonitorOk care ls v) {l : Lock} (settled : (ls p).debt.Settled care l)
    (debt : ℓ.debt = (ls p).debt.drop l) (scan : ℓ.scan = (ls p).scan)
    (held : ∀ l', l' ∈ ℓ.held ↔ l' ∈ (ls p).held ∧ l' ≠ l) : MonitorOk care (update ls p ℓ) v := by
  refine inv.move (fun _ _ => id) (fun c l' guard watches stuck => ?_) (fun c hc => ?_)
    (fun c hc => ?_) ?_
  · by_cases mine : l' ∈ (ls p).held ∧ (ls p).debt.dirty = some c
    · have other : l' ≠ l := by
        rintro rfl
        obtain ⟨prompt, rfl⟩ := settled c mine.2 guard
        rw [watches rfl] at prompt
        cases prompt
      refine .inl ⟨(held l').mpr ⟨mine.1, other⟩, ?_⟩
      rw [debt, dirty_drop]
      exact ⟨mine.2, by rw [guard]; exact fun h => other (some.inj h)⟩
    · exact .inr ⟨stuck.2, mine⟩
  · rw [debt, dirty_drop] at hc
    obtain ⟨l', h₁, h₂⟩ := inv.dirty p c hc.1
    exact ⟨l', h₁, (held l').mpr ⟨h₂, fun h => hc.2 (h ▸ h₁)⟩⟩
  · rw [debt, cleared_drop] at hc
    obtain ⟨l', h₁, h₂, h₃⟩ := inv.cleared p c hc.1
    exact ⟨l', h₁, (held l').mpr ⟨h₂, fun h => hc.2 (h ▸ h₁)⟩, h₃⟩
  · exact fun c j l' hs guard hl => inv.passed p c j l' (scan ▸ hs) guard ((held l').mp hl).1

theorem fall (inv : MonitorOk care ls v) {l : Lock} (alone : ∀ h, l ∈ (ls h).held → h = p)
    (guarded : ∀ l', c.guard = some l' → l' = l) (unready : ¬ v.Ready c) (awake : v.sleep p = none)
    (paid : (ls p).debt.dirty = none) (debt : ℓ.debt = (ls p).debt.drop l) (scan : ℓ.scan = none)
    (held : ∀ l', l' ∈ ℓ.held ↔ l' ∈ (ls p).held ∧ l' ≠ l) :
    MonitorOk care (update ls p ℓ)
      { v with sleep := update v.sleep p (some c) } where
  owed c' l' guard watches stuck := by
    obtain ⟨⟨q, hq⟩, ready⟩ := stuck
    have same : c' ≠ c := fun h => unready (h ▸ ready)
    have other : q ≠ p := by
      rintro rfl
      simp only [update_self] at hq
      exact same (some.inj hq).symm
    simp only [update_of_ne other] at hq
    obtain ⟨h, hh⟩ := inv.owed c' l' guard watches ⟨⟨q, hq⟩, ready⟩
    have notMe : h ≠ p := by
      rintro rfl
      rw [paid] at hh
      cases hh.2
    exact ⟨h, by rwa [update_of_ne notMe]⟩
  dirty h c' hc := by
    by_cases hp : h = p
    · subst hp
      rw [update_self, debt, dirty_drop, paid] at hc
      cases hc.1
    · rw [update_of_ne hp] at hc ⊢
      exact inv.dirty h c' hc
  cleared h c' hc := by
    by_cases hp : h = p
    · subst hp
      rw [update_self] at hc ⊢
      rw [debt, cleared_drop] at hc
      obtain ⟨l', h₁, h₂, h₃⟩ := inv.cleared h c' hc.1
      refine ⟨l', h₁, (held l').mpr ⟨h₂, fun e => hc.2 (e ▸ h₁)⟩, fun q hq => ?_⟩
      by_cases hqp : q = h
      · subst hqp
        simp only [update_self] at hq
        cases hq
        exact hc.2 (guarded l' h₁ ▸ h₁)
      · simp only [update_of_ne hqp] at hq
        exact h₃ q hq
    · rw [update_of_ne hp] at hc ⊢
      obtain ⟨l', h₁, h₂, h₃⟩ := inv.cleared h c' hc
      refine ⟨l', h₁, h₂, fun q hq => ?_⟩
      by_cases hqp : q = p
      · subst hqp
        simp only [update_self] at hq
        cases hq
        exact hp (alone h (guarded l' h₁ ▸ h₂))
      · simp only [update_of_ne hqp] at hq
        exact h₃ q hq
  passed h c' j l' hs guard hl q hq other hc := by
    by_cases hp : h = p
    · subst hp
      rw [update_self, scan] at hs
      cases hs
    · rw [update_of_ne hp] at hs hl
      by_cases hqp : q = p
      · subst hqp
        simp only [update_self] at hc
        cases hc
        exact hp (alone h (guarded l' guard ▸ hl))
      · simp only [update_of_ne hqp] at hc
        exact inv.passed h c' j l' hs guard hl q hq other hc

theorem not_ready (tree : TreeOk N ls s.tree) (know : KnowOk ls s.pipe)
    (unready : (ls p).Unready N p c) : ¬ s.conds.Ready c := by
  cases c with
  | proc x =>
    obtain ⟨rfl, scanned⟩ := unready
    rintro ⟨r, child, zombie⟩
    have slot : r < N := by
      by_contra h
      rw [show s.conds.parent r = none from tree.parents.slot r (by omega)] at child
      cases child
    exact ((tree.kin x).scanned r (by omega)).2 child zombie
  | nread =>
    obtain ⟨empty, writeopen⟩ := unready
    have h₁ := ((know p).empty true empty).2
    have h₂ := ((know p).writeopen writeopen).2
    simp [Conds.Ready, conds, of_decide_eq_true h₁, h₂]
  | nwrite =>
    obtain ⟨full, readopen⟩ := unready
    have h₁ := ((know p).full true full).2
    have h₂ := ((know p).readopen readopen).2
    simp [Conds.Ready, conds, of_decide_eq_true h₁, h₂]
  | ticks => exact id
  | cons => exact id
  | other k => exact id

/-- Nobody becomes a zombie or the parent of one. -/
theorem same (inv : MonitorOk care ls s.conds) {s' : State} (pipe : s'.pipe = s.pipe)
    (zombie : ∀ r x, s'.parent r = some x → s'.pstate r = .zombie →
      s.parent r = some x ∧ s.pstate r = .zombie)
    (fewer : ∀ q c, s'.sleep q = some c → s.sleep q = some c) (debt : ℓ.debt = (ls p).debt)
    (scan : ℓ.scan = (ls p).scan)
    (held : ∀ c l, Chan.guard c = some l → (l ∈ ℓ.held ↔ l ∈ (ls p).held)) :
    MonitorOk care (update ls p ℓ) s'.conds :=
  inv.keep fewer (fun _ => ready_mono pipe zombie) debt scan (fun c l h => (held c l h).mpr)
    fun _ c l h => (held c l h).mp

section Steps

/-- The step keeps the invariant. -/
abbrev Kept (N : ℕ) (care : Care) (p : ℕ) (ls : ℕ → Local) (s : State) (o : Step) : Prop :=
  o.After N p s fun r s' => MonitorOk care (update ls p ((ls p).next p o r)) s'.conds

variable (inv : MonitorOk care ls s.conds)
include inv

theorem kept_acquire {l : Lock} (idle : l.isProc = false → (ls p).scan = none) :
    Kept N care p ls s (.acquire l) := by
  refine after_acquire fun _ => inv.keep (fun _ _ => id) (fun _ => id) rfl rfl
    (fun _ _ _ h => List.mem_cons_of_mem _ h) ?_
  intro scan c l' guard mem
  rcases List.mem_cons.mp mem with rfl | mem
  · refine absurd (idle ?_) scan
    cases l' <;> first | rfl | exact absurd guard (c.guard_ne_proc _)
  · exact mem

theorem kept_swtch (held : (ls p).held = [.proc p]) : Kept N care p ls s .swtch := by
  refine .guard fun _ => inv.keep (fun _ _ => id) (fun _ => id) rfl rfl (fun c l guard mem => ?_)
    (by simp)
  rw [held, List.mem_singleton] at mem
  exact absurd (mem ▸ guard) (c.guard_ne_proc p)

theorem kept_resume (held : (ls p).held = []) : Kept N care p ls s .resume := by
  refine .guard fun _ => inv.same rfl (fun r x h hz => ⟨h, ?_⟩) (fun _ _ => id) rfl rfl
    fun c l guard => ?_
  · simp only at hz
    grind
  · have other : l ≠ .proc p := fun h => c.guard_ne_proc p (h ▸ guard)
    simp [held, other]

theorem kept_wakeupBegin : Kept N care p ls s (.wakeupBegin c) := by
  refine inv.move (fun _ _ => id) (fun c l guard _ stuck => ?_) (inv.dirty p) (inv.cleared p) ?_
  · by_cases mine : l ∈ (ls p).held ∧ (ls p).debt.dirty = some c
    · exact .inl mine
    · exact .inr ⟨stuck.2, mine⟩
  · rintro c' j l ⟨⟩ - - q hq
    omega

theorem kept_wakeIf (locks : LocksOk ls s) (phases : PhasesOk N ls s.rota)
    (allowed : (ls p).Allows N care p (.wakeIf q c)) : Kept N care p ls s (.wakeIf q c) := by
  obtain ⟨other, held, j, scan, own⟩ := allowed
  have visited {s' : State} (fewer : ∀ x c', s'.sleep x = some c' → s.sleep x = some c')
      (ready : ∀ c', s'.conds.Ready c' → s.conds.Ready c') (done : s'.sleep q ≠ some c) :
      MonitorOk care (update ls p ((ls p).next p (.wakeIf q c) ())) s'.conds := by
    refine inv.move fewer (fun c' l guard _ stuck => ?_) (inv.dirty p) (fun c' hc => ?_) ?_
    · by_cases mine : l ∈ (ls p).held ∧ (ls p).debt.dirty = some c'
      · exact .inl mine
      · exact .inr ⟨ready c' stuck.2, mine⟩
    · obtain ⟨l, h₁, h₂, h₃⟩ := inv.cleared p c' hc
      exact ⟨l, h₁, h₂, fun x hx => h₃ x (fewer x c' hx)⟩
    · rintro c' j' l ⟨⟩ guard hl x hx hp hc
      rcases Nat.lt_succ_iff_lt_or_eq.mp hx with lt | rfl
      · refine inv.passed p c j l scan guard hl x ?_ hp (fewer x c hc)
        by_contra late
        exact hp (own x (by omega) lt)
      · exact done hc
  refine .ite (fun _ => visited (fun x c' hx => ?_)
    (fun c' => ready_mono rfl fun r y h hz => ⟨h, ?_⟩) ?_) fun notReady => ?_
  · simp only [wake] at hx
    grind
  · simp only [conds, wake] at hz ⊢
    grind
  · simp [wake]
  · exact visited (fun _ _ => id) (fun _ => id) fun h => notReady (phases.asleep locks other held h)

theorem kept_wakeupEnd (phases : PhasesOk N ls s.rota) (allowed : (ls p).Allows N care p .wakeupEnd) :
    Kept N care p ls s .wakeupEnd := by
  obtain ⟨awake, c, j, scan, own⟩ := allowed
  have idle (x : ℕ) (h : (ls x).phase.Awake) : s.sleep x = none := by
    have fits := phases.fits x
    rcases h with h | h <;> rw [h] at fits <;> exact fits.1
  have nobody (l : Lock) (guard : c.guard = some l) (hl : l ∈ (ls p).held) (x : ℕ) :
      s.sleep x ≠ some c := by
    by_cases hp : x = p
    · rw [hp, idle p awake]
      rintro ⟨⟩
    by_cases slot : x < N
    · refine inv.passed p c j l scan guard hl x ?_ hp
      by_contra late
      exact hp (own x (by omega) slot)
    · rw [idle x (.inr (phases.cpu x (by omega)))]
      rintro ⟨⟩
  have debt : ((ls p).next p .wakeupEnd ()).debt = (ls p).debt.woken (ls p).held c := by
    simp [scan]
  refine inv.move (fun _ _ => id) (fun c' l guard _ stuck => ?_) (fun c' hc => ?_) (fun c' hc => ?_)
    (by rintro _ _ _ ⟨⟩)
  · by_cases mine : l ∈ (ls p).held ∧ (ls p).debt.dirty = some c'
    · have other : c' ≠ c := by
        rintro rfl
        obtain ⟨x, hx⟩ := stuck.1
        exact nobody l guard mine.1 x hx
      refine .inl ⟨mine.1, ?_⟩
      rw [debt]
      simp [woken, mine.2, other]
    · exact .inr ⟨stuck.2, mine⟩
  · rw [debt] at hc
    refine inv.dirty p c' ?_
    simp only [woken] at hc
    grind
  · rw [debt] at hc
    simp only [woken] at hc
    split at hc
    · rename_i lock
      obtain ⟨l, guard, hl⟩ := (any_eq_true _ _).mp lock
      cases hc
      exact ⟨l, guard, of_decide_eq_true hl, nobody l guard (of_decide_eq_true hl)⟩
    · exact inv.cleared p c' hc

theorem kept_killIf {pid : BitVec 32} : Kept N care p ls s (.killIf q pid) := by
  refine after_killIf (inv.ghost rfl rfl rfl) (fun _ _ => inv.ghost rfl rfl rfl) fun _ _ =>
    inv.same rfl (fun r x h hz => ⟨h, ?_⟩) (fun x c hx => ?_) rfl rfl fun _ _ _ => .rfl
  · simp only [State.wake, State.kill] at hz
    grind
  · simp only [State.wake, State.kill] at hx
    grind

theorem kept_setParent (phases : PhasesOk N ls s.rota)
    (child : (ls p).family.child = some (q, false)) : Kept N care p ls s (.setParent q) := by
  have used : s.pstate q = .used := phases.child p q false child
  refine inv.same rfl (fun r x h hz => ⟨?_, hz⟩) (fun _ _ => id) rfl rfl fun _ _ _ => .rfl
  simp only at h hz
  grind

theorem kept_reparent (lock : .wait ∈ (ls p).held) (paid : (ls p).debt.dirty = none) :
    Kept N care p ls s (.reparent q) := by
  refine .ite (fun _ => ?_) fun _ => inv.ghost rfl rfl rfl
  refine inv.owe (c := .proc initproc) rfl lock rfl (.inl paid) rfl (fun c hc ready => ?_) rfl rfl rfl
  cases c with
  | proc x =>
    obtain ⟨r, h, hz⟩ := ready
    refine ⟨r, ?_, hz⟩
    simp only [conds] at h ⊢
    grind
  | _ => exact ready

theorem kept_zombie (tree : TreeOk N ls s.tree) {r : Option ℕ} {status : BitVec 32}
    (known : (ls p).family.parent = some r)
    (cleared : ∀ q, r = some q → (ls p).debt.cleared = some (.proc q)) :
    Kept N care p ls s (.zombie status) := by
  have parent := ((tree.kin p).parent r known).2
  refine inv.move (fun _ _ => id) (fun c l guard _ stuck => ?_) (inv.dirty p) (inv.cleared p)
    (inv.passed p)
  by_cases mine : l ∈ (ls p).held ∧ (ls p).debt.dirty = some c
  · exact .inl mine
  · refine .inr ⟨?_, mine⟩
    obtain ⟨⟨x, hx⟩, ready⟩ := stuck
    cases c with
    | proc y =>
      obtain ⟨z, h, hz⟩ := ready
      have other : z ≠ p := by
        rintro rfl
        obtain ⟨-, -, -, nobody⟩ := inv.cleared z _ (cleared y (parent.symm.trans h))
        exact nobody x hx
      refine ⟨z, h, ?_⟩
      simpa [conds, other] using hz
    | _ => exact ready

theorem kept_reap : Kept N care p ls s (.reap q) := by
  refine .ite (fun _ => .ite (fun _ => ?_) fun _ => inv.ghost rfl rfl rfl)
    fun _ => inv.ghost rfl rfl rfl
  refine inv.same rfl (fun r x h hz => ?_) (fun _ _ => id) rfl rfl fun _ _ _ => .rfl
  simp only [free, asked] at h hz
  grind

variable (know : KnowOk ls s.pipe)
include know

theorem kept_putByte {ch : Byte} (lock : .pipe ∈ (ls p).held) (room : (ls p).know.full = some false)
    (dirty : (ls p).debt.dirty = none ∨ (ls p).debt.dirty = some .nread) :
    Kept N care p ls s (.putByte ch) := by
  have notFull := of_decide_eq_false ((know p).full false room).2
  refine inv.owe (c := .nread) rfl lock rfl dirty rfl (fun c hc ready => ?_) rfl rfl rfl
  cases c with
  | nread => exact absurd rfl hc
  | nwrite => exact .inl notFull
  | _ => exact ready

theorem kept_takeByte (lock : .pipe ∈ (ls p).held) (some' : (ls p).know.empty = some false)
    (dirty : (ls p).debt.dirty = none ∨ (ls p).debt.dirty = some .nwrite) :
    Kept N care p ls s .takeByte := by
  have notEmpty := of_decide_eq_false ((know p).empty false some').2
  refine inv.owe (c := .nwrite) rfl lock rfl dirty rfl (fun c hc ready => ?_) rfl rfl rfl
  cases c with
  | nread => exact .inl notEmpty
  | nwrite => exact absurd rfl hc
  | _ => exact ready

theorem step (locks : LocksOk ls s) (phases : PhasesOk N ls s.rota) (tree : TreeOk N ls s.tree)
    (allowed : (ls p).Allows N care p o) : Kept N care p ls s o := by
  have erased (l l' : Lock) : l' ∈ (ls p).held.erase l ↔ l' ∈ (ls p).held ∧ l' ≠ l := by
    rw [(locks p).nodup.mem_erase_iff, and_comm]
  cases o with
  | acquire l => exact inv.kept_acquire allowed.2.1
  | release l => exact .guard fun _ => inv.release allowed.2.1 rfl rfl (erased l)
  | releaseFor l c =>
    obtain ⟨lock, -, -, run, scan, paid, guarded, unready, -⟩ := allowed
    exact .guard fun _ => inv.fall (fun _ hq => locks.unique hq lock) guarded
      (not_ready tree know unready) (phases.awake run) paid rfl scan (erased l)
  | sleeping | yielding | startSlot =>
    refine inv.same rfl (fun r x h hz => ⟨h, ?_⟩) (fun _ _ => id) rfl rfl fun _ _ _ => .rfl
    simp only at hz
    grind
  | swtch => exact inv.kept_swtch allowed.1
  | resume => exact inv.kept_resume allowed.2.1
  | wakeupBegin c => exact inv.kept_wakeupBegin
  | wakeIf q c => exact inv.kept_wakeIf locks phases allowed
  | wakeupEnd => exact inv.kept_wakeupEnd phases allowed
  | killIf q pid => exact inv.kept_killIf
  | allocSlot q =>
    refine .ite (fun _ => ?_) fun _ => inv.ghost rfl rfl rfl
    refine inv.same rfl (fun r x h hz => ⟨h, ?_⟩) (fun _ _ => id) rfl rfl fun _ _ _ => .rfl
    simp only [alloc] at hz
    grind
  | freeSlot q =>
    refine inv.same rfl (fun r x h hz => ?_) (fun _ _ => id) rfl rfl fun _ _ _ => .rfl
    simp only [free] at h hz
    grind
  | setParent q => exact inv.kept_setParent phases allowed.2.2.1
  | exiting status => exact .ite (fun _ => trivial) fun _ => inv.ghost rfl rfl rfl
  | reparent q => exact inv.kept_reparent allowed.1 allowed.2.2.1
  | zombie status =>
    obtain ⟨-, -, -, -, -, r, known, cleared⟩ := allowed
    exact inv.kept_zombie tree known cleared
  | reap q => exact inv.kept_reap
  | putByte ch => exact inv.kept_putByte know allowed.1 allowed.2.1 allowed.2.2.2.1
  | takeByte => exact inv.kept_takeByte know allowed.1 allowed.2.1 allowed.2.2.2
  | closeEnd writable =>
    refine inv.owe (c := if writable then .nread else .nwrite) (l := .pipe) (by cases writable <;> rfl)
      allowed.1 rfl (.inl allowed.2.1) rfl (fun c hc ready => ?_) rfl rfl rfl
    cases writable <;> cases c <;> first | exact absurd rfl hc | exact ready
  | more => trivial
  | _ => exact inv.ghost rfl rfl rfl

end Steps

end MonitorOk

/-! ## What a killed `pipewrite` owes -/

/-- A `pipewrite` that has put bytes and not called `wakeup` since is on record. -/
def OwesOk (ls : ℕ → Local) (owes : ℕ → Bool) : Prop :=
  ∀ q, (ls q).writing ≠ .no → (ls q).debt.dirty = some .nread →
    (∀ j, (ls q).scan ≠ some (.nread, j)) → owes q = true

namespace OwesOk

theorem own {owes owes' : ℕ → Bool} (inv : OwesOk ls owes) (others : ∀ q, q ≠ p → owes' q = owes q)
    (mine : ℓ.writing ≠ .no → ℓ.debt.dirty = some .nread → (∀ j, ℓ.scan ≠ some (.nread, j)) →
      owes' p = true) : OwesOk (update ls p ℓ) owes' := by
  intro q h₁ h₂ h₃
  by_cases hq : q = p
  · subst hq
    rw [update_self] at h₁ h₂ h₃
    exact mine h₁ h₂ h₃
  · rw [update_of_ne hq] at h₁ h₂ h₃
    rw [others q hq]
    exact inv q h₁ h₂ h₃

theorem ghost {owes : ℕ → Bool} (inv : OwesOk ls owes)
    (mine : ℓ.writing ≠ .no → ℓ.debt.dirty = some .nread → (∀ j, ℓ.scan ≠ some (.nread, j)) →
      (ls p).writing ≠ .no ∧ (ls p).debt.dirty = some .nread ∧
        ∀ j, (ls p).scan ≠ some (.nread, j)) : OwesOk (update ls p ℓ) owes := by
  refine inv.own (fun _ _ => rfl) fun h₁ h₂ h₃ => ?_
  obtain ⟨h₁, h₂, h₃⟩ := mine h₁ h₂ h₃
  exact inv p h₁ h₂ h₃

theorem step (inv : OwesOk ls s.owes) (allowed : (ls p).Allows N care p o) :
    o.After N p s fun r s' => OwesOk (update ls p ((ls p).next p o r)) s'.owes := by
  cases o with
  | acquire l =>
    refine after_acquire fun _ => inv.ghost fun h₁ h₂ h₃ => ⟨fun h => h₁ ?_, h₂, h₃⟩
    simp [h]
  | release l =>
    refine .guard fun _ => inv.ghost fun h₁ h₂ h₃ =>
      ⟨fun h => h₁ ?_, (dirty_drop.mp h₂).1, h₃⟩
    simp [h]
  | releaseFor l c =>
    obtain ⟨-, -, -, -, -, paid, -⟩ := allowed
    refine .guard fun _ => inv.ghost fun _ h₂ _ => ?_
    have dirty := (dirty_drop.mp h₂).1
    rw [paid] at dirty
    cases dirty
  | wakeupBegin c =>
    refine inv.own (fun q hq => ?_) fun h₁ h₂ h₃ => ?_
    · simp only
      grind
    · have other : c ≠ .nread := by
        rintro rfl
        exact h₃ 0 rfl
      simp only [if_neg other]
      exact inv p h₁ h₂ fun j h => by simp [allowed.1] at h
  | wakeIf q c =>
    obtain ⟨-, -, j, scan, -⟩ := allowed
    have same {s' : State} (owes : s'.owes = s.owes) :
        OwesOk (update ls p ((ls p).next p (.wakeIf q c) ())) s'.owes := by
      rw [owes]
      refine inv.ghost fun h₁ h₂ h₃ => ⟨h₁, h₂, fun j' h => ?_⟩
      rw [scan] at h
      cases h
      exact h₃ (q + 1) rfl
    exact .ite (fun _ => same rfl) fun _ => same rfl
  | wakeupEnd =>
    obtain ⟨-, c, j, scan, -⟩ := allowed
    refine inv.ghost fun h₁ h₂ _ => ?_
    have dirty : ((ls p).debt.woken (ls p).held c).dirty = some .nread := by simpa [scan] using h₂
    simp only [woken] at dirty
    split at dirty
    · cases dirty
    · rename_i other
      refine ⟨h₁, dirty, fun j' h => other ?_⟩
      rw [scan] at h
      cases h
      exact dirty
  | reparent q =>
    exact .ite (fun _ => inv.ghost (by rintro _ ⟨⟩)) fun _ => inv.ghost fun h₁ h₂ h₃ => ⟨h₁, h₂, h₃⟩
  | writeBegin =>
    refine inv.ghost fun _ h₂ _ => ?_
    rw [show ((ls p).next p .writeBegin ()).debt.dirty = none from allowed.2] at h₂
    cases h₂
  | putByte ch =>
    exact inv.own (fun q hq => update_of_ne hq ..) fun _ _ _ => update_self ..
  | takeByte => exact inv.ghost (by rintro _ ⟨⟩)
  | closeEnd writable => exact inv.ghost fun h₁ => absurd allowed.2.2 h₁
  | killIf q pid =>
    refine after_killIf ?_ (fun _ _ => ?_) fun _ _ => ?_
    all_goals exact inv.ghost fun h₁ h₂ h₃ => ⟨h₁, h₂, h₃⟩
  | swtch | resume | allocSlot | exiting | reap | more =>
    simp only [Step.After, Step.exec]
    repeat' split
    all_goals first | exact inv.ghost fun h₁ h₂ h₃ => ⟨h₁, h₂, h₃⟩ | trivial
  | _ => exact inv.ghost fun h₁ h₂ h₃ => ⟨h₁, h₂, h₃⟩

end OwesOk

end Xv6.Proc
