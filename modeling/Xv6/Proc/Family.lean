import Xv6.Proc.Phases

/-!
# The process tree

Who is whose parent, and what becomes of a process that has exited.  Identities are never reused,
while slots are; every process is younger than its parent, so the parents lead to the first process.
-/

namespace Xv6.Proc

open Function List State

variable {N p q : ℕ} {care : Care} {ls : ℕ → Local} {ℓ : Local} {s : State} {o : Step}
  {state : ProcState} {status : BitVec 32}

/-- Neither unused, nor being created, nor a zombie. -/
def ProcState.Alive (x : ProcState) : Prop := x = .sleeping ∨ x = .runnable ∨ x = .running

/-- The part of the state that says who is whose parent and who has exited. -/
structure Tree where
  pstate : ℕ → ProcState
  parent : ℕ → Option ℕ
  xstate : ℕ → BitVec 32
  nuid : ℕ
  uid : ℕ → ℕ
  forker : ℕ → ℕ
  exited : ℕ → Option (BitVec 32)
  reaped : List Reaped

def State.tree (s : State) : Tree :=
  ⟨s.pstate, s.parent, s.xstate, s.nuid, s.uid, s.forker, s.exited, s.reaped⟩

namespace Tree

variable (v : Tree)

def put (q : ℕ) (state : ProcState) : Tree := { v with pstate := update v.pstate q state }

def link (q r : ℕ) : Tree := { v with parent := update v.parent q (some r) }

def alloc (p q : ℕ) : Tree :=
  { v with
    pstate := update v.pstate q .used
    nuid := v.nuid + 1
    uid := update v.uid q v.nuid
    forker := update v.forker v.nuid (v.uid p) }

def free (q : ℕ) : Tree :=
  { v with
    parent := update v.parent q none
    xstate := update v.xstate q 0
    pstate := update v.pstate q .unused }

def leave (p : ℕ) (status : BitVec 32) : Tree :=
  { v with exited := update v.exited (v.uid p) (some status) }

def die (p : ℕ) (status : BitVec 32) : Tree :=
  { v.put p .zombie with xstate := update v.xstate p status }

def reap (p q : ℕ) : Tree :=
  { v.free q with reaped := ⟨v.uid q, v.xstate q, v.uid p⟩ :: v.reaped }

end Tree

variable {v : Tree}

attribute [local grind =] update_apply
attribute [local grind] ProcState.Alive

/-! ## Identities -/

/-- The processes in the table have different identities, and are younger than who forked them. -/
structure IdsOk (v : Tree) : Prop where
  unique : ∀ q r, v.pstate q ≠ .unused → v.pstate r ≠ .unused → v.uid q = v.uid r → q = r
  known : ∀ q, v.pstate q ≠ .unused → v.uid q < v.nuid
  older : ∀ q, v.pstate q ≠ .unused → q ≠ initproc → v.forker (v.uid q) < v.uid q
  init : (v.pstate initproc).Alive ∧ v.uid initproc = 0

namespace IdsOk

theorem fewer (ids : IdsOk v) {pstate : ℕ → ProcState} {parent : ℕ → Option ℕ}
    {xstate : ℕ → BitVec 32} {exited : ℕ → Option (BitVec 32)} {reaped : List Reaped}
    (fewer : ∀ q, pstate q ≠ .unused → v.pstate q ≠ .unused) (init : (pstate initproc).Alive) :
    IdsOk ⟨pstate, parent, xstate, v.nuid, v.uid, v.forker, exited, reaped⟩ where
  unique q r hq hr := ids.unique q r (fewer q hq) (fewer r hr)
  known q hq := ids.known q (fewer q hq)
  older q hq := ids.older q (fewer q hq)
  init := ⟨init, ids.init.2⟩

theorem alloc (ids : IdsOk v) (unused : v.pstate q = .unused) (alive : v.pstate p ≠ .unused) :
    IdsOk (v.alloc p q) := by
  obtain ⟨unique, known, older, init⟩ := ids
  have ne : initproc ≠ q := by grind
  constructor <;> simp only [Tree.alloc] <;> grind

theorem put (ids : IdsOk v) (used : v.pstate q ≠ .unused)
    (init : q = initproc → state.Alive) : IdsOk (v.put q state) := by
  have := ids.init
  exact ids.fewer (fun r => by grind) (by grind)

theorem free (ids : IdsOk v) (other : q ≠ initproc) : IdsOk (v.free q) := by
  have := ids.init
  exact ids.fewer (fun r => by grind) (by grind)

end IdsOk

/-! ## Parents -/

/-- A process that has called `exit` and holds `wait_lock` if it is still alive. -/
def Gone (ls : ℕ → Local) (v : Tree) (u : ℕ) : Prop :=
  v.exited u ≠ none ∧ ∀ q, v.uid q = u → (v.pstate q).Alive →
    .wait ∈ (ls q).held ∧ (ls q).family.exit ≠ none

def Forks (N : ℕ) (v : Tree) (p : ℕ) (ℓ : Local) : Prop :=
  ∀ r b, ℓ.family.child = some (r, b) → ℓ.phase ≠ .off ∧ r < N ∧
    v.forker (v.uid r) = v.uid p ∧ v.parent r = if b then some p else none

theorem Forks.childless (h : ℓ.family.child = none) : Forks N v p ℓ := by
  intro r b hr
  rw [h] at hr
  cases hr

/-- The parents of the processes. -/
structure ParentsOk (N : ℕ) (ls : ℕ → Local) (v : Tree) : Prop where
  slot : ∀ q, N ≤ q → v.parent q = none
  unused : ∀ q, v.pstate q = .unused → v.parent q = none
  parent : ∀ q, v.pstate q ≠ .unused → v.pstate q ≠ .used → q ≠ initproc → v.parent q ≠ none
  alive : ∀ q r, v.parent q = some r → (v.pstate r).Alive ∧ v.uid r < v.uid q
  /-- The parent is the process that forked it, or the first process if that one has exited. -/
  line : ∀ q r, v.parent q = some r →
    v.uid r = v.forker (v.uid q) ∨ r = initproc ∧ Gone ls v (v.forker (v.uid q))
  forks : ∀ q, Forks N v q (ls q)

namespace ParentsOk

section

variable (parents : ParentsOk N ls v)
include parents

theorem ghost (mine : Forks N v p ℓ)
    (keeps : (v.pstate p).Alive → .wait ∈ (ls p).held → (ls p).family.exit ≠ none →
      .wait ∈ ℓ.held ∧ ℓ.family.exit ≠ none) :
    ParentsOk N (update ls p ℓ) v := by
  obtain ⟨slot, unused, parent, alive, line, forks⟩ := parents
  refine ⟨slot, unused, parent, alive, fun q r h => (line q r h).imp id (And.imp id ?_),
    (forall_update_iff ls (Forks N v)).mpr ⟨mine, fun x _ => forks x⟩⟩
  intro gone
  refine ⟨gone.1, fun x hx ha => ?_⟩
  have := gone.2 x hx ha
  grind

theorem put (alive : (v.pstate q).Alive) (alive' : state.Alive) : ParentsOk N ls (v.put q state) := by
  obtain ⟨slot, unused, parent, living, line, forks⟩ := parents
  refine ⟨slot, ?_, ?_, ?_, fun x r h => (line x r h).imp id (And.imp id fun gone => ⟨gone.1, ?_⟩),
    forks⟩
  all_goals simp only [Tree.put]
  · grind
  · grind
  · grind
  · exact fun y hy ha => gone.2 y hy (by grind)

theorem alloc (ids : IdsOk v) (unused : v.pstate q = .unused)
    (off : (ls q).phase = .off) (used : ∀ x r b, (ls x).family.child = some (r, b) → v.pstate r = .used) :
    ParentsOk N ls (v.alloc p q) := by
  obtain ⟨slot, none', parent, living, line, forks⟩ := parents
  obtain ⟨-, known, older, init⟩ := ids
  refine ⟨slot, ?_, ?_, ?_, ?_, ?_⟩
  all_goals simp only [Tree.alloc]
  · grind
  · grind
  · grind
  · intro x r hr
    have younger := (living x r hr).2
    have placed : v.pstate x ≠ .unused := by grind
    have hx : x ≠ q := by grind
    have hr' : r ≠ q := by grind
    rw [update_of_ne hx, update_of_ne hr', update_of_ne (ne_of_lt (known x placed))]
    refine (line x r hr).imp id (And.imp id fun gone => ⟨gone.1, fun y hy ha => ?_⟩)
    have past := older x placed (by grind)
    have := gone.2 y
    grind
  · intro x r b hr
    obtain ⟨h₁, h₂, h₃, h₄⟩ := forks x r b hr
    have := used x r b hr
    have := known r
    refine ⟨h₁, h₂, ?_, h₄⟩
    grind

theorem free {reaped : List Reaped} (dead : ¬ (v.pstate q).Alive)
    (theirs : ∀ x b, (ls x).family.child ≠ some (q, b)) :
    ParentsOk N ls { v.free q with reaped := reaped } := by
  obtain ⟨slot, none', parent, living, line, forks⟩ := parents
  refine ⟨?_, ?_, ?_, ?_, fun x r h => ?_, fun x r b hr => ?_⟩
  all_goals simp only [Tree.free] at *
  · grind
  · grind
  · grind
  · grind
  · refine (line x r (by grind)).imp id (And.imp id fun gone => ⟨gone.1, fun y hy ha => gone.2 y hy ?_⟩)
    simp only at ha
    grind
  · obtain ⟨h₁, h₂, h₃, h₄⟩ := forks x r b hr
    have : r ≠ q := fun h => theirs x b (h ▸ hr)
    exact ⟨h₁, h₂, h₃, by simpa [this] using h₄⟩

theorem adopt (ids : IdsOk v) (inside : q < N)
    (used : v.pstate q = .used) (alive : (v.pstate p).Alive) (forked : v.forker (v.uid q) = v.uid p)
    (theirs : ∀ x b, (ls x).family.child ≠ some (q, b)) : ParentsOk N ls (v.link q p) := by
  obtain ⟨slot, none', parent, living, line, forks⟩ := parents
  have init := ids.init
  have older := ids.older q
  refine ⟨?_, ?_, ?_, ?_, fun x r h => ?_, fun x r b hr => ?_⟩
  all_goals simp only [Tree.link] at *
  · grind
  · grind
  · grind
  · grind
  · by_cases hx : x = q
    · have : r = p := by grind
      exact .inl (by rw [this, hx, forked])
    · exact (line x r (by grind)).imp id id
  · obtain ⟨h₁, h₂, h₃, h₄⟩ := forks x r b hr
    have : r ≠ q := fun h => theirs x b (h ▸ hr)
    exact ⟨h₁, h₂, h₃, by simpa [this] using h₄⟩

theorem start (used : v.pstate q = .used) (linked : v.parent q ≠ none)
    (new : v.exited (v.uid q) = none) : ParentsOk N ls (v.put q .runnable) := by
  obtain ⟨slot, none', parent, living, line, forks⟩ := parents
  refine ⟨slot, ?_, ?_, ?_, fun x r h => (line x r h).imp id (And.imp id fun gone => ⟨gone.1, ?_⟩),
    forks⟩
  all_goals simp only [Tree.put]
  · grind
  · grind
  · grind
  · intro y hy ha
    have : y ≠ q := by
      rintro rfl
      exact gone.1 (hy ▸ new)
    exact gone.2 y hy (by grind)

theorem leave (status : BitVec 32) : ParentsOk N ls (v.leave p status) := by
  obtain ⟨slot, none', parent, living, line, forks⟩ := parents
  refine ⟨slot, none', parent, living, fun x r h => ?_, forks⟩
  refine (line x r h).imp id (And.imp id fun gone => ⟨?_, gone.2⟩)
  have := gone.1
  simp only [Tree.leave]
  grind

theorem reparent (ids : IdsOk v) (mine : v.parent q = some p)
    (notInit : p ≠ initproc) (alive : (v.pstate p).Alive) (exited : v.exited (v.uid p) ≠ none)
    (lock : .wait ∈ (ls p).held) (exit : (ls p).family.exit ≠ none)
    (childless : (ls p).family.child = none) : ParentsOk N ls (v.link q initproc) := by
  obtain ⟨slot, none', parent, living, line, forks⟩ := parents
  have init := ids.init
  have younger := (living q p mine).2
  have leaves : Gone ls v (v.uid p) := by
    refine ⟨exited, fun x hx ha => ?_⟩
    have : x = p := ids.unique x p (by grind) (by grind) hx
    exact this ▸ ⟨lock, exit⟩
  refine ⟨?_, ?_, ?_, ?_, fun x r h => ?_, fun x r b hr => ?_⟩
  all_goals simp only [Tree.link] at *
  · grind
  · grind
  · grind
  · grind
  · by_cases hx : x = q
    · have hr : r = initproc := by grind
      have forked := (line q p mine).resolve_right fun h => notInit h.1
      exact .inr ⟨hr, by rw [hx, ← forked]; exact leaves⟩
    · exact (line x r (by grind)).imp id id
  · obtain ⟨h₁, h₂, h₃, h₄⟩ := forks x r b hr
    have : r ≠ q := by
      rintro rfl
      rw [mine] at h₄
      cases b
      · cases h₄
      · cases h₄
        rw [childless] at hr
        cases hr
    exact ⟨h₁, h₂, h₃, by simpa [this] using h₄⟩

theorem die (alive : (v.pstate p).Alive)
    (childless : ∀ r, v.parent r ≠ some p) : ParentsOk N ls (v.die p status) := by
  obtain ⟨slot, none', parent, living, line, forks⟩ := parents
  refine ⟨slot, ?_, ?_, ?_, fun x r h => (line x r h).imp id (And.imp id fun gone => ⟨gone.1, ?_⟩),
    forks⟩
  all_goals simp only [Tree.die, Tree.put]
  · grind
  · grind
  · grind
  · exact fun y hy ha => gone.2 y hy (by grind)

end

end ParentsOk

/-! ## Exited processes -/

/-- What `wait` has returned about a process. -/
structure Reaped.Ok (v : Tree) (e : Reaped) : Prop where
  status : v.exited e.child = some e.status
  waiter : e.waiter = v.forker e.child ∨
    e.waiter = v.uid initproc ∧ v.exited (v.forker e.child) ≠ none
  past : e.child < v.nuid
  gone : ∀ q, v.pstate q ≠ .unused → v.uid q ≠ e.child

def Exits (v : Tree) (p : ℕ) (ℓ : Local) : Prop :=
  ∀ status j, ℓ.family.exit = some (status, j) → p ≠ initproc ∧ ℓ.phase ≠ .off ∧
    v.exited (v.uid p) = some status ∧ ∀ r, r < j → v.parent r ≠ some p

/-- The exits and the exit statuses. -/
structure ExitsOk (ls : ℕ → Local) (v : Tree) : Prop where
  exits : ∀ q, Exits v q (ls q)
  status : ∀ q, v.pstate q = .zombie → v.exited (v.uid q) = some (v.xstate q)
  /-- Who has called `exit` is there until it has been reaped. -/
  present : ∀ u, v.exited u ≠ none →
    (∃ q, v.uid q = u ∧ (v.pstate q = .zombie ∨ (ls q).family.exit ≠ none)) ∨
      ∃ e ∈ v.reaped, e.child = u
  reaped : ∀ e ∈ v.reaped, e.Ok v
  once : (v.reaped.map Reaped.child).Nodup

theorem Exits.staying (h : ℓ.family.exit = none) : Exits v p ℓ := by
  intro status j hj
  rw [h] at hj
  cases hj

namespace ExitsOk

section

variable (exits : ExitsOk ls v)
include exits

theorem exit_off (off : (ls q).phase = .off) : (ls q).family.exit = none := by
  cases h : (ls q).family.exit with
  | none => rfl
  | some x => exact absurd off (exits.exits q x.1 x.2 h).2.1

theorem ghost (mine : Exits v p ℓ)
    (keeps : (ls p).family.exit ≠ none → v.pstate p = .zombie ∨ ℓ.family.exit ≠ none) :
    ExitsOk (update ls p ℓ) v := by
  obtain ⟨exits, status, present, reaped, once⟩ := exits
  refine ⟨(forall_update_iff ls (Exits v)).mpr ⟨mine, fun x _ => exits x⟩, status, fun u hu => ?_,
    reaped, once⟩
  refine (present u hu).imp (fun ⟨x, hx, hz⟩ => ⟨x, hx, ?_⟩) id
  by_cases hp : x = p
  · subst hp
    rw [update_self]
    exact hz.elim .inl keeps
  · rwa [update_of_ne hp]

theorem put (used : v.pstate q ≠ .unused)
    (before : v.pstate q ≠ .zombie) (after : state ≠ .zombie) : ExitsOk ls (v.put q state) := by
  obtain ⟨exits, status, present, reaped, once⟩ := exits
  refine ⟨exits, ?_, fun u hu => ?_, fun e he => ?_, once⟩
  all_goals simp only [Tree.put] at *
  · grind
  · refine (present u hu).imp (fun ⟨x, hx, hz⟩ => ⟨x, hx, ?_⟩) id
    grind
  · obtain ⟨h₁, h₂, h₃, h₄⟩ := reaped e he
    exact ⟨h₁, h₂, h₃, fun x hx => h₄ x (by simp only at hx; grind)⟩

theorem alloc (ids : IdsOk v) (unused : v.pstate q = .unused)
    (off : (ls q).phase = .off) : ExitsOk ls (v.alloc p q) := by
  have quiet := exits.exit_off off
  obtain ⟨exits, status, present, reaped, once⟩ := exits
  have init := ids.init.1
  refine ⟨fun x st j hj => ?_, fun x hx => ?_, fun u hu => ?_, fun e he => ?_, once⟩
  all_goals simp only [Tree.alloc] at *
  · obtain ⟨h₁, h₂, h₃, h₄⟩ := exits x st j hj
    have : x ≠ q := by grind
    exact ⟨h₁, h₂, by simpa [this] using h₃, h₄⟩
  · have : x ≠ q := by grind
    simp only [update_of_ne this] at hx ⊢
    exact status x hx
  · refine (present u hu).imp (fun ⟨x, hx, hz⟩ => ⟨x, ?_⟩) id
    have : x ≠ q := by grind
    simpa [this] using ⟨hx, hz⟩
  · obtain ⟨h₁, h₂, h₃, h₄⟩ := reaped e he
    have : initproc ≠ q := by grind
    refine ⟨h₁, ?_, Nat.lt_succ_of_lt h₃, fun x hx => ?_⟩
    · simpa [update_of_ne (ne_of_lt h₃), this] using h₂
    · simp only at hx ⊢
      have := h₄ x
      grind

theorem free (used : v.pstate q = .used) (off : (ls q).phase = .off) : ExitsOk ls (v.free q) := by
  have quiet := exits.exit_off off
  obtain ⟨exits, status, present, reaped, once⟩ := exits
  refine ⟨fun x st j hj => ?_, fun x hx => ?_, fun u hu => ?_, fun e he => ?_, once⟩
  all_goals simp only [Tree.free] at *
  · obtain ⟨h₁, h₂, h₃, h₄⟩ := exits x st j hj
    exact ⟨h₁, h₂, h₃, fun r hr => by grind⟩
  · grind
  · refine (present u hu).imp (fun ⟨x, hx, hz⟩ => ⟨x, hx, ?_⟩) id
    grind
  · obtain ⟨h₁, h₂, h₃, h₄⟩ := reaped e he
    exact ⟨h₁, h₂, h₃, fun x hx => h₄ x (by simp only at hx; grind)⟩

theorem link (staying : (ls p).family.exit = none) : ExitsOk ls (v.link q p) := by
  obtain ⟨exits, status, present, reaped, once⟩ := exits
  refine ⟨fun x st j hj => ?_, status, present, fun e he => ?_, once⟩
  · obtain ⟨h₁, h₂, h₃, h₄⟩ := exits x st j hj
    refine ⟨h₁, h₂, h₃, fun r hr => ?_⟩
    have := h₄ r hr
    simp only [Tree.link]
    grind
  · exact ⟨(reaped e he).1, (reaped e he).2, (reaped e he).3, (reaped e he).4⟩

theorem leave (ids : IdsOk v) (alive : (v.pstate p).Alive)
    (placed : ∀ x, (ls x).phase ≠ .off → v.pstate x ≠ .unused) (mine : ℓ.family.exit = some (status, 0))
    (notInit : p ≠ initproc) (phase : ℓ.phase ≠ .off) : ExitsOk (update ls p ℓ) (v.leave p status) := by
  have unique (x : ℕ) (hx : v.pstate x ≠ .unused) (same : v.uid x = v.uid p) : x = p :=
    ids.unique x p hx (by grind) same
  obtain ⟨exits, zombies, present, reaped, once⟩ := exits
  refine ⟨fun x st j hj => ?_, fun x hx => ?_, fun u hu => ?_, fun e he => ?_, once⟩
  all_goals simp only [Tree.leave] at *
  · by_cases hx : x = p
    · subst hx
      rw [update_self, mine] at hj
      cases hj
      exact ⟨notInit, by rwa [update_self], by simp, nofun⟩
    · rw [update_of_ne hx] at hj ⊢
      obtain ⟨h₁, h₂, h₃, h₄⟩ := exits x st j hj
      have : v.uid x ≠ v.uid p := fun same => hx (unique x (placed x h₂) same)
      exact ⟨h₁, h₂, by simpa [this] using h₃, h₄⟩
  · have : v.uid x ≠ v.uid p := fun same => by
      have := unique x (by simp [hx]) same
      grind
    rw [update_of_ne this]
    exact zombies x hx
  · by_cases hp : u = v.uid p
    · exact .inl ⟨p, hp.symm, .inr (by simp [mine])⟩
    · rw [update_of_ne hp] at hu
      refine (present u hu).imp (fun ⟨x, hx, hz⟩ => ⟨x, hx, ?_⟩) id
      have : x ≠ p := fun h => hp (h ▸ hx.symm)
      rwa [update_of_ne this]
  · obtain ⟨h₁, h₂, h₃, h₄⟩ := reaped e he
    have : e.child ≠ v.uid p := (h₄ p (by grind)).symm
    refine ⟨by simpa [this] using h₁, h₂.imp id (And.imp id fun h => ?_), h₃, h₄⟩
    simp only
    grind

theorem die {j : ℕ} (alive : (v.pstate p).Alive)
    (exit : (ls p).family.exit = some (status, j)) : ExitsOk ls (v.die p status) := by
  obtain ⟨exits, zombies, present, reaped, once⟩ := exits
  have exited := (exits p status j exit).2.2.1
  refine ⟨exits, fun x hx => ?_, fun u hu => ?_, fun e he => ?_, once⟩
  all_goals simp only [Tree.die, Tree.put] at *
  · by_cases hp : x = p
    · subst hp
      rwa [update_self]
    · rw [update_of_ne hp] at hx ⊢
      exact zombies x hx
  · refine (present u hu).imp (fun ⟨x, hx, hz⟩ => ⟨x, hx, ?_⟩) id
    by_cases hp : x = p
    · exact .inl (by simp [hp])
    · rwa [update_of_ne hp]
  · obtain ⟨h₁, h₂, h₃, h₄⟩ := reaped e he
    exact ⟨h₁, h₂, h₃, fun x hx => h₄ x (by simp only at hx; grind)⟩

theorem reap (ids : IdsOk v) (parents : ParentsOk N ls v) (mine : v.parent q = some p)
    (zombie : v.pstate q = .zombie) (off : (ls q).phase = .off) : ExitsOk ls (v.reap p q) := by
  have quiet := exits.exit_off off
  have line := parents.line q p mine
  obtain ⟨exits, zombies, present, reaped, once⟩ := exits
  refine ⟨fun x st j hj => ?_, fun x hx => ?_, fun u hu => ?_, fun e he => ?_, ?_⟩
  all_goals simp only [Tree.reap, Tree.free] at *
  · obtain ⟨h₁, h₂, h₃, h₄⟩ := exits x st j hj
    exact ⟨h₁, h₂, h₃, fun r hr => by grind⟩
  · grind
  · rcases present u hu with ⟨x, hx, hz⟩ | ⟨e, he, hc⟩
    · by_cases hq : x = q
      · exact .inr ⟨_, mem_cons_self, hq ▸ hx⟩
      · exact .inl ⟨x, hx, by grind⟩
    · exact .inr ⟨e, mem_cons_of_mem _ he, hc⟩
  · rcases mem_cons.mp he with rfl | he
    · refine ⟨zombies q zombie, line.imp id ?_, ids.known q (by simp [zombie]), fun x hx same => ?_⟩
      · rintro ⟨rfl, gone⟩
        exact ⟨rfl, gone.1⟩
      · simp only at hx same
        have : x = q := ids.unique x q (by grind) (by simp [zombie]) same
        simp [this] at hx
    · obtain ⟨h₁, h₂, h₃, h₄⟩ := reaped e he
      exact ⟨h₁, h₂, h₃, fun x hx => h₄ x (by simp only at hx; grind)⟩
  · rw [map_cons]
    refine nodup_cons.mpr ⟨fun mem => ?_, once⟩
    obtain ⟨e, he, hc⟩ := mem_map.mp mem
    exact (reaped e he).gone q (by simp [zombie]) hc.symm

end

end ExitsOk

/-! ## What is known under `wait_lock` -/

/-- What a process that holds `wait_lock` knows about its family is so. -/
structure Knows (v : Tree) (p : ℕ) (ℓ : Local) : Prop where
  kin : ∀ r, ℓ.family.kin = some r → .wait ∈ ℓ.held ∧ v.parent r = some p
  parent : ∀ r, ℓ.family.parent = some r → .wait ∈ ℓ.held ∧ v.parent p = r
  scanned : ∀ r, r < ℓ.family.scanned → .wait ∈ ℓ.held ∧ (v.parent r = some p → v.pstate r ≠ .zombie)

def KinOk (ls : ℕ → Local) (v : Tree) : Prop := ∀ q, Knows v q (ls q)

theorem Knows.nothing (kin : ℓ.family.kin = none) (parent : ℓ.family.parent = none)
    (scanned : ℓ.family.scanned = 0) : Knows v p ℓ := by
  constructor <;> simp [kin, parent, scanned]

namespace KinOk

variable {v' : Tree}

theorem ghost (kin : KinOk ls v) (mine : Knows v p ℓ) : KinOk (update ls p ℓ) v :=
  (forall_update_iff ls (Knows v)).mpr ⟨mine, fun x _ => kin x⟩

theorem mono (kin : KinOk ls v) (parent : v'.parent = v.parent)
    (zombie : ∀ r, v'.pstate r = .zombie → v.pstate r = .zombie) : KinOk ls v' := by
  intro x
  obtain ⟨h₁, h₂, h₃⟩ := kin x
  refine ⟨by rwa [parent], by rwa [parent], fun r hr => ⟨(h₃ r hr).1, fun h hz => ?_⟩⟩
  exact (h₃ r hr).2 (parent ▸ h) (zombie r hz)

theorem holder (kin : KinOk ls v) (alone : ∀ x, .wait ∈ (ls x).held → x = p)
    (mine : Knows v' p ℓ) : KinOk (update ls p ℓ) v' := by
  refine (forall_update_iff ls (Knows v')).mpr ⟨mine, fun x hx => ?_⟩
  have free : .wait ∉ (ls x).held := fun h => hx (alone x h)
  exact ⟨fun r hr => absurd ((kin x).kin r hr).1 free, fun r hr => absurd ((kin x).parent r hr).1 free,
    fun r hr => absurd ((kin x).scanned r hr).1 free⟩

end KinOk

/-- The invariant of the tree of processes. -/
structure TreeOk (N : ℕ) (ls : ℕ → Local) (v : Tree) : Prop where
  ids : IdsOk v
  parents : ParentsOk N ls v
  exits : ExitsOk ls v
  kin : KinOk ls v

theorem PhasesOk.alive (phases : PhasesOk N ls s.rota) (run : (ls p).phase = .run) :
    (s.pstate p).Alive := .inr (.inr (phases.running run))

/-- A child that `p` is done with is nobody's. -/
theorem PhasesOk.sole {b : Bool} (phases : PhasesOk N ls s.rota)
    (child : (ls p).family.child = some (q, b)) (done : ℓ.family.child = none) (x : ℕ) (b' : Bool) :
    (update ls p ℓ x).family.child ≠ some (q, b') := by
  intro hx
  by_cases hp : x = p
  · subst hp
    rw [update_self, done] at hx
    cases hx
  · rw [update_of_ne hp] at hx
    exact hp (phases.distinct x p q b' b hx child)

namespace TreeOk

theorem ghost (inv : TreeOk N ls v) (family : ℓ.family = (ls p).family)
    (phase : (ls p).phase ≠ .off → ℓ.phase ≠ .off) (held : .wait ∈ (ls p).held → .wait ∈ ℓ.held) :
    TreeOk N (update ls p ℓ) v := by
  refine ⟨inv.ids, inv.parents.ghost ?_ ?_, inv.exits.ghost ?_ ?_, inv.kin.ghost ?_⟩
  · intro r b hr
    obtain ⟨h₁, h₂⟩ := inv.parents.forks p r b (family ▸ hr)
    exact ⟨phase h₁, h₂⟩
  · exact fun _ h₁ h₂ => ⟨held h₁, family ▸ h₂⟩
  · intro status j hj
    obtain ⟨h₁, h₂, h₃⟩ := inv.exits.exits p status j (family ▸ hj)
    exact ⟨h₁, phase h₂, h₃⟩
  · exact fun h => .inr (family ▸ h)
  · obtain ⟨h₁, h₂, h₃⟩ := inv.kin p
    rw [← family] at h₁ h₂ h₃
    exact ⟨fun r hr => (h₁ r hr).imp held id, fun r hr => (h₂ r hr).imp held id,
      fun r hr => (h₃ r hr).imp held id⟩

theorem note (inv : TreeOk N ls v) (phase : ℓ.phase = (ls p).phase) (held : ℓ.held = (ls p).held)
    (child : ℓ.family.child = (ls p).family.child) (exit : ℓ.family.exit = (ls p).family.exit)
    (knows : Knows v p ℓ) : TreeOk N (update ls p ℓ) v := by
  refine ⟨inv.ids, inv.parents.ghost ?_ ?_, inv.exits.ghost ?_ ?_, inv.kin.ghost knows⟩
  · intro r b hr
    rw [phase]
    exact inv.parents.forks p r b (child ▸ hr)
  · rw [held, exit]
    exact fun _ h₁ h₂ => ⟨h₁, h₂⟩
  · intro status j hj
    rw [phase]
    exact inv.exits.exits p status j (exit ▸ hj)
  · rw [exit]
    exact .inr

theorem forget (inv : TreeOk N ls v) (staying : (ls p).family.exit = none)
    (family : ℓ.family = (ls p).family.forget) (phase : (ls p).phase ≠ .off → ℓ.phase ≠ .off) :
    TreeOk N (update ls p ℓ) v := by
  have exit : ℓ.family.exit = none := by rw [family]; exact staying
  refine ⟨inv.ids, inv.parents.ghost ?_ ?_, inv.exits.ghost (.staying exit) ?_,
    inv.kin.ghost (.nothing ?_ ?_ ?_)⟩
  · intro r b hr
    rw [family] at hr
    obtain ⟨h₁, h₂⟩ := inv.parents.forks p r b hr
    exact ⟨phase h₁, h₂⟩
  · exact fun _ _ h => absurd staying h
  · exact fun h => absurd staying h
  · rw [family]; rfl
  · rw [family]; rfl
  · rw [family]; rfl

theorem put (inv : TreeOk N ls v) (alive : (v.pstate q).Alive)
    (alive' : state.Alive) : TreeOk N ls (v.put q state) where
  ids := inv.ids.put (by grind) fun _ => alive'
  parents := inv.parents.put alive alive'
  exits := inv.exits.put (by grind) (by grind) (by grind)
  kin := inv.kin.mono rfl fun r hr => by simp only [Tree.put] at hr; grind

section Steps

/-- The step keeps the invariant. -/
abbrev Kept (N p : ℕ) (ls : ℕ → Local) (s : State) (o : Step) : Prop :=
  o.After N p s fun r s' => TreeOk N (update ls p ((ls p).next p o r)) s'.tree

variable (inv : TreeOk N ls s.tree)
include inv

theorem kept_release {l : Lock} (staying : l = .wait → (ls p).family.exit = none) :
    Kept N p ls s (.release l) := by
  refine .guard fun _ => ?_
  by_cases wait : l = .wait
  · exact inv.forget (staying wait) (by simp [wait]) id
  · refine inv.ghost (by simp [wait]) id fun h => ?_
    exact (mem_erase_of_ne (Ne.symm wait)).mpr h

theorem kept_releaseFor {l : Lock} {c : Chan} (staying : (ls p).family.exit = none) :
    Kept N p ls s (.releaseFor l c) := by
  refine .guard fun _ => ?_
  by_cases wait : l = .wait
  · exact inv.forget staying (by simp [wait]) (by rintro _ ⟨⟩)
  · refine inv.ghost (by simp [wait]) (by rintro _ ⟨⟩) fun h => ?_
    exact (mem_erase_of_ne (Ne.symm wait)).mpr h

theorem kept_myParent (lock : .wait ∈ (ls p).held) : Kept N p ls s .myParent := by
  refine inv.note rfl rfl rfl rfl ⟨(inv.kin p).1, ?_, (inv.kin p).3⟩
  rintro r ⟨⟩
  exact ⟨lock, rfl⟩

theorem kept_isChild (lock : .wait ∈ (ls p).held) (scanned : (ls p).family.scanned = q) :
    Kept N p ls s (.isChild q) := by
  obtain ⟨-, known, passed⟩ := inv.kin p
  simp only [Kept, Step.After, Step.exec, Halt.Post]
  by_cases mine : s.parent q = some p
  · rw [decide_eq_true mine]
    refine inv.note rfl rfl rfl rfl ⟨?_, known, passed⟩
    rintro r ⟨⟩
    exact ⟨lock, mine⟩
  · rw [decide_eq_false mine]
    refine inv.note rfl rfl rfl rfl ⟨by rintro _ ⟨⟩, known, fun r hr => ⟨lock, fun h => ?_⟩⟩
    rcases Nat.lt_succ_iff_lt_or_eq.mp hr with lt | rfl
    · exact (passed r (by omega)).2 h
    · exact absurd h mine

variable (phases : PhasesOk N ls s.rota)
include phases

theorem not_exited (used : s.pstate q = .used) : s.exited (s.uid q) = none := by
  by_contra exited
  have quiet := inv.exits.exit_off ((phases.fits q).of_off (.inr (.inl used))).1
  rcases inv.exits.present _ exited with ⟨x, hx, hz⟩ | ⟨e, he, hc⟩
  · have placed : s.pstate x ≠ .unused := by
      rcases hz with zombie | exit
      · rw [show s.pstate x = .zombie from zombie]
        nofun
      · intro unused
        exact exit (inv.exits.exit_off ((phases.fits x).of_off (.inl unused)).1)
    have same : x = q := inv.ids.unique x q placed (by simp [tree, used]) hx
    subst same
    rcases hz with zombie | exit
    · rw [show s.pstate x = .zombie from zombie] at used
      cases used
    · exact exit quiet
  · exact (inv.exits.reaped e he).gone q (by simp [tree, used]) hc.symm

theorem kept_sleeping {c : Chan} (falling : (ls p).phase = .falling c) :
    Kept N p ls s (.sleeping c) := by
  have fits := phases.fits p
  rw [falling] at fits
  exact (inv.put (.inr (.inr fits.2)) (.inl rfl)).ghost rfl (by rintro _ ⟨⟩) id

theorem kept_allocSlot (inside : q < N) (run : (ls p).phase = .run)
    (childless : (ls p).family.child = none) : Kept N p ls s (.allocSlot q) := by
  refine .ite (fun unused => ?_) fun _ => inv.ghost (by simp [← childless]) id id
  have running := phases.running run
  have off := ((phases.fits q).of_off (.inl unused)).1
  have other : p ≠ q := by
    rintro rfl
    rw [running] at unused
    cases unused
  have parents := inv.parents.alloc (p := p) inv.ids unused off phases.child
  have exits := inv.exits.alloc (p := p) inv.ids unused off
  have kin : KinOk ls (s.tree.alloc p q) := inv.kin.mono rfl fun r hr => by
    simp only [Tree.alloc] at hr
    grind
  refine ⟨inv.ids.alloc unused (by simp [tree, running]), parents.ghost ?_ ?_,
    exits.ghost (exits.exits p) .inr, kin.ghost ⟨(kin p).1, (kin p).2, (kin p).3⟩⟩
  · rintro r b ⟨⟩
    refine ⟨by simp [run], inside, ?_, inv.parents.unused q unused⟩
    simp [Tree.alloc, other]
  · exact fun _ h₁ h₂ => ⟨h₁, h₂⟩

theorem kept_freeSlot (run : (ls p).phase = .run) (child : (ls p).family.child = some (q, false)) :
    Kept N p ls s (.freeSlot q) := by
  obtain ⟨used, off, -⟩ := phases.child_slot run child
  have orphan : s.parent q = none := (inv.parents.forks p q false child).2.2.2
  let ℓ : Local := (ls p).next p (.freeSlot q) ()
  have parents : ParentsOk N (update ls p ℓ) s.tree :=
    inv.parents.ghost (.childless rfl) fun _ h₁ h₂ => ⟨h₁, h₂⟩
  have exits := inv.exits.free used off
  have same : (s.tree.free q).parent = s.tree.parent := by
    simp [Tree.free, tree, ← orphan]
  have kin : KinOk ls (s.tree.free q) := inv.kin.mono same fun r hr => by
    simp only [Tree.free] at hr
    grind
  refine ⟨inv.ids.free ?_, parents.free (by simp [tree, used, ProcState.Alive]) ?_,
    exits.ghost (exits.exits p) .inr, kin.ghost ⟨(kin p).1, (kin p).2, (kin p).3⟩⟩
  · rintro rfl
    have := inv.ids.init.1
    simp [tree, used, ProcState.Alive] at this
  · exact phases.sole child rfl

theorem kept_setParent (alone : ∀ x, .wait ∈ (ls x).held → x = p) (lock : .wait ∈ (ls p).held)
    (run : (ls p).phase = .run) (child : (ls p).family.child = some (q, false))
    (staying : (ls p).family.exit = none) (fresh : (ls p).family.scanned = 0) :
    Kept N p ls s (.setParent q) := by
  obtain ⟨used, -, other, -⟩ := phases.child_slot run child
  obtain ⟨-, inside, forked, -⟩ := inv.parents.forks p q false child
  let ℓ : Local := { ls p with family := { (ls p).family with child := none } }
  have parents : ParentsOk N (update ls p ℓ) s.tree :=
    inv.parents.ghost (.childless rfl) fun _ h₁ h₂ => ⟨h₁, h₂⟩
  have linked := parents.adopt inv.ids inside used (phases.alive run) forked (phases.sole child rfl)
  have exits := inv.exits.link (q := q) staying
  refine ⟨inv.ids.fewer (fun _ => id) inv.ids.init.1, ?_, exits.ghost (exits.exits p) .inr,
    inv.kin.holder alone ⟨fun r hr => ?_, fun r hr => ?_, fun r hr => ?_⟩⟩
  · refine update_idem (f := ls) .. ▸ linked.ghost ?_ ?_
    · rintro r b ⟨⟩
      exact ⟨by simp [run], inside, forked, by simp [Tree.link]⟩
    · simp only [update_self]
      exact fun _ h₁ h₂ => ⟨h₁, h₂⟩
  · refine ⟨lock, ?_⟩
    have := ((inv.kin p).kin r hr).2
    simp only [tree] at this ⊢
    grind
  · refine ⟨lock, ?_⟩
    have := ((inv.kin p).parent r hr).2
    simpa [tree, Ne.symm other] using this
  · have : r < (ls p).family.scanned := hr
    omega

theorem kept_startSlot (run : (ls p).phase = .run) (child : (ls p).family.child = some (q, true)) :
    Kept N p ls s (.startSlot q) := by
  obtain ⟨used, -⟩ := phases.child_slot run child
  have linked := (inv.parents.forks p q true child).2.2.2
  have new := inv.not_exited phases used
  have parents : ParentsOk N ls (s.tree.put q .runnable) :=
    inv.parents.start used (by simp [linked]) new
  have exits : ExitsOk ls (s.tree.put q .runnable) :=
    inv.exits.put (by simp [tree, used]) (by simp [tree, used]) (by simp)
  have kin : KinOk ls (s.tree.put q .runnable) := inv.kin.mono rfl fun r hr => by
    simp only [Tree.put] at hr
    grind
  exact ⟨inv.ids.put (by simp [tree, used]) fun _ => .inr (.inl rfl),
    parents.ghost (.childless rfl) fun _ h₁ h₂ => ⟨h₁, h₂⟩,
    exits.ghost (exits.exits p) .inr, kin.ghost ⟨(kin p).1, (kin p).2, (kin p).3⟩⟩

theorem kept_exiting (run : (ls p).phase = .run) (staying : (ls p).family.exit = none)
    (childless : (ls p).family.child = none) : Kept N p ls s (.exiting status) := by
  refine .ite (fun _ => trivial) fun notInit => ?_
  have placed (x : ℕ) (hx : (ls x).phase ≠ .off) : s.pstate x ≠ .unused := fun unused =>
    hx ((phases.fits x).of_off (.inl unused)).1
  have kin : KinOk ls (s.tree.leave p status) := inv.kin.mono rfl fun _ => id
  exact ⟨inv.ids.fewer (fun _ => id) inv.ids.init.1,
    (inv.parents.leave status).ghost (.childless childless) fun _ _ h => absurd staying h,
    inv.exits.leave inv.ids (phases.alive run) placed rfl notInit (by simp [run]),
    kin.ghost ⟨(kin p).1, (kin p).2, (kin p).3⟩⟩

theorem kept_reparent (alone : ∀ x, .wait ∈ (ls x).held → x = p)
    (allowed : (ls p).Allows N care p (.reparent q)) : Kept N p ls s (.reparent q) := by
  obtain ⟨lock, run, -, childless, nokin, unknown, status, exit⟩ := allowed
  obtain ⟨notInit, phase, exited, done⟩ := inv.exits.exits p status q exit
  have leaving {v : Tree} {b : Bool} (same : v.exited (v.uid p) = s.exited (s.uid p))
      (none : ∀ r, r < q + 1 → v.parent r ≠ some p) :
        Exits v p ((ls p).next p (.reparent q) b) := by
    intro st j hj
    simp only [Local.next, Family.next, exit, Option.map_some, Option.some.injEq,
      Prod.mk.injEq] at hj
    obtain ⟨rfl, rfl⟩ := hj
    exact ⟨notInit, phase, same.trans exited, none⟩
  refine .ite (fun mine => ?_) fun other => ?_
  · have parents := inv.parents.reparent inv.ids mine notInit (phases.alive run) (by simp [exited])
      lock (by simp [exit]) childless
    have staying : (ls initproc).family.exit = none := by
      cases h : (ls initproc).family.exit with
      | none => rfl
      | some x => exact absurd rfl (inv.exits.exits initproc x.1 x.2 h).1
    have exits := inv.exits.link (q := q) staying
    refine ⟨inv.ids.fewer (fun _ => id) inv.ids.init.1, parents.ghost (.childless childless) ?_,
      exits.ghost (leaving rfl fun r hr => ?_) ?_, inv.kin.holder alone ⟨?_, ?_, fun r hr => ?_⟩⟩
    · exact fun _ h₁ _ => ⟨h₁, by simp [exit]⟩
    · have := done r
      simp only [tree, Tree.link] at this ⊢
      grind
    · simp [exit]
    · simp [nokin]
    · simp [unknown]
    · refine ⟨lock, fun h => ((inv.kin p).scanned r hr).2 ?_⟩
      simp only [tree] at h ⊢
      grind
  · refine ⟨inv.ids, inv.parents.ghost (.childless childless) ?_,
      inv.exits.ghost (leaving rfl fun r hr => ?_) ?_,
      inv.kin.ghost ⟨(inv.kin p).1, (inv.kin p).2, (inv.kin p).3⟩⟩
    · exact fun _ h₁ _ => ⟨h₁, by simp [exit]⟩
    · rcases Nat.lt_succ_iff_lt_or_eq.mp hr with lt | rfl
      · exact done r lt
      · exact other
    · simp [exit]

theorem kept_zombie (alone : ∀ x, .wait ∈ (ls x).held → x = p) (lock : .wait ∈ (ls p).held)
    (run : (ls p).phase = .run) (exit : (ls p).family.exit = some (status, N))
    (childless : (ls p).family.child = none) : Kept N p ls s (.zombie status) := by
  obtain ⟨notInit, -, exited, done⟩ := inv.exits.exits p status N exit
  have lonely (r : ℕ) : s.parent r ≠ some p := by
    by_cases hr : r < N
    · exact done r hr
    · rw [show s.parent r = none from inv.parents.slot r (by omega)]
      rintro ⟨⟩
  have parents : ParentsOk N ls (s.tree.die p status) := inv.parents.die (phases.alive run) lonely
  have exits := inv.exits.die (phases.alive run) exit
  refine ⟨inv.ids.fewer (fun r => ?_) ?_, parents.ghost (.childless childless) ?_,
    exits.ghost (.staying rfl) ?_, inv.kin.holder alone ⟨fun r hr => ?_, by rintro _ ⟨⟩, fun r hr => ?_⟩⟩
  · have := phases.running run
    simp only [tree]
    grind
  · have := inv.ids.init.1
    simpa [tree, Ne.symm notInit] using this
  · simp [Tree.die, Tree.put, ProcState.Alive]
  · exact fun _ => .inl (by simp [Tree.die, Tree.put])
  · exact absurd ((inv.kin p).kin r hr).2 (lonely r)
  · exact ⟨lock, fun h => absurd h (lonely r)⟩

theorem kept_reap (alone : ∀ x, .wait ∈ (ls x).held → x = p) (lock : .wait ∈ (ls p).held)
    (run : (ls p).phase = .run) (scanned : (ls p).family.scanned = q)
    (kin : (ls p).family.kin = some q) : Kept N p ls s (.reap q) := by
  obtain ⟨mine, known, passed⟩ := inv.kin p
  refine .ite (fun zombie => .ite (fun _ => ?_) fun _ => ?_) fun alive => ?_
  · have off := ((phases.fits q).of_off (.inr (.inr zombie))).1
    have theirs (x : ℕ) (b : Bool) : (ls x).family.child ≠ some (q, b) := fun h => by
      have used := phases.child x q b h
      rw [show s.rota.pstate q = .zombie from zombie] at used
      cases used
    have dead : ¬ (s.tree.pstate q).Alive := by simp [tree, zombie, ProcState.Alive]
    have exits := inv.exits.reap inv.ids inv.parents (mine q kin).2 zombie off
    have parents : ParentsOk N ls (s.tree.reap p q) := inv.parents.free dead theirs
    have notInit : q ≠ initproc := by
      rintro rfl
      exact dead inv.ids.init.1
    have self : q ≠ p := by
      rintro rfl
      exact dead (phases.alive run)
    refine ⟨inv.ids.fewer (fun r => ?_) ?_, parents.ghost (parents.forks p) ?_,
      exits.ghost (exits.exits p) .inr, inv.kin.holder alone ⟨by rintro _ ⟨⟩, fun r hr => ?_,
        fun r hr => ⟨lock, fun h => ?_⟩⟩⟩
    · simp only [tree, free, asked]
      grind
    · have := inv.ids.init.1
      simpa [tree, free, asked, Ne.symm notInit] using this
    · exact fun _ h₁ h₂ => ⟨h₁, h₂⟩
    · have := known r hr
      simpa [tree, free, asked, Ne.symm self] using this
    · have := (passed r (by simpa [scanned] using hr)).2
      simp only [tree, free, asked] at this h ⊢
      grind
  · exact inv.note rfl rfl rfl rfl ⟨by rintro _ ⟨⟩, known, fun r hr => passed r (by simpa [scanned] using hr)⟩
  · refine inv.note rfl rfl rfl rfl ⟨by rintro _ ⟨⟩, known, fun r hr => ⟨lock, fun h => ?_⟩⟩
    rcases Nat.lt_succ_iff_lt_or_eq.mp hr with lt | rfl
    · exact (passed r (by omega)).2 h
    · exact alive

theorem step (locks : LocksOk ls s) (allowed : (ls p).Allows N care p o) : Kept N p ls s o := by
  have alone (lock : .wait ∈ (ls p).held) (x : ℕ) (hx : .wait ∈ (ls x).held) : x = p :=
    locks.unique hx lock
  cases o with
  | acquire l => exact after_acquire fun _ => inv.ghost rfl id fun h => mem_cons_of_mem _ h
  | release l => exact inv.kept_release allowed.2.2.1
  | releaseFor l c =>
    obtain ⟨-, -, -, -, -, -, -, -, -, staying, -⟩ := allowed
    exact inv.kept_releaseFor staying
  | sleeping c => exact inv.kept_sleeping phases allowed
  | swtch => exact .guard fun _ => inv.ghost rfl id (by simp [allowed.1])
  | resume =>
    refine .guard fun ready => ?_
    refine (inv.put (.inr (.inl ready.1)) (.inr (.inr rfl))).ghost rfl (by rintro _ ⟨⟩) ?_
    simp [allowed.2.1]
  | yielding =>
    exact (inv.put (phases.alive allowed.2) (.inr (.inl rfl))).ghost rfl (by rintro _ ⟨⟩) id
  | wakeIf q c =>
    exact .ite (fun ready => (inv.put (.inl ready.1) (.inr (.inl rfl))).ghost rfl id id)
      fun _ => inv.ghost rfl id id
  | killIf q pid =>
    exact after_killIf (inv.ghost rfl id id) (fun _ _ => inv.ghost rfl id id)
      fun _ ready => (inv.put (.inl ready) (.inr (.inl rfl))).ghost rfl id id
  | allocSlot q => exact inv.kept_allocSlot phases allowed.1 allowed.2.2.1 allowed.2.2.2
  | freeSlot q => exact inv.kept_freeSlot phases allowed.2.1 allowed.2.2
  | setParent q =>
    obtain ⟨lock, run, child, staying, fresh⟩ := allowed
    exact inv.kept_setParent phases (alone lock) lock run child staying fresh
  | startSlot q => exact inv.kept_startSlot phases allowed.2.1 allowed.2.2
  | exiting status => exact inv.kept_exiting phases allowed.1 allowed.2.1 allowed.2.2
  | reparent q => exact inv.kept_reparent phases (alone allowed.1) allowed
  | myParent => exact inv.kept_myParent allowed
  | zombie status =>
    obtain ⟨lock, -, run, exit, childless, -⟩ := allowed
    exact inv.kept_zombie phases (alone lock) lock run exit childless
  | isChild q => exact inv.kept_isChild allowed.1 allowed.2
  | reap q =>
    obtain ⟨lock, -, run, scanned, kin⟩ := allowed
    exact inv.kept_reap phases (alone lock) lock run scanned kin
  | more => trivial
  | _ => exact inv.ghost rfl id id

end Steps

end TreeOk

end Xv6.Proc
