import Xv6.Proc.System

/-!
# Parents, zombies and `wait`

The process tree in every run: the parents lead to the first process, and whoever exits is returned by
exactly one `wait`, with its status.
-/

namespace Xv6.Proc

open Conf (Move)

variable {N : ℕ} {care : Care} {oracle : List Bool} {c : Conf PSig State} {s : State}
  {t : List ((o : Step) × o.Res)}

/-- Process `r` is the parent of `q`. -/
def State.IsParent (s : State) (q r : ℕ) : Prop := s.parent q = some r

namespace TreeOk

variable {ls : ℕ → Local}

theorem parent_alive (tree : TreeOk N ls s.tree) {q : ℕ} (started : s.pstate q ≠ .unused ∧
    s.pstate q ≠ .used) (other : q ≠ initproc) :
    ∃ r, s.IsParent q r ∧ (s.pstate r).Alive ∧ s.uid r < s.uid q := by
  obtain ⟨r, hr⟩ := Option.ne_none_iff_exists'.mp (tree.parents.parent q started.1 started.2 other)
  exact ⟨r, hr, tree.parents.alive q r hr⟩

theorem leads (tree : TreeOk N ls s.tree) {q : ℕ} (started : s.pstate q ≠ .unused ∧
    s.pstate q ≠ .used) : Relation.ReflTransGen s.IsParent q initproc := by
  -- every parent is older
  induction hu : s.uid q using Nat.strong_induction_on generalizing q with
  | _ u ih =>
    by_cases first : q = initproc
    · rw [first]
    · obtain ⟨r, parent, alive, older⟩ := tree.parent_alive started first
      have started' : s.pstate r ≠ .unused ∧ s.pstate r ≠ .used := by
        rcases alive with h | h | h <;> rw [h] <;> exact ⟨nofun, nofun⟩
      exact .head parent (ih (s.uid r) (hu ▸ older) started' rfl)

/-- Whoever has called `exit` is still in it, is the zombie child of a living process, or has been
reaped. -/
theorem exited (tree : TreeOk N ls s.tree) (phases : PhasesOk N ls s.rota) {u : ℕ}
    {status : BitVec 32} (exited : s.exited u = some status) :
    (∃ q, s.uid q = u ∧ (s.pstate q).Alive ∧ (ls q).family.exit ≠ none) ∨
    (∃ q r, s.uid q = u ∧ s.pstate q = .zombie ∧ s.xstate q = status ∧ s.IsParent q r ∧
      (s.pstate r).Alive) ∨
    ∃ e ∈ s.reaped, e.child = u ∧ e.status = status := by
  have present := tree.exits.present u (by rw [show s.tree.exited u = some status from exited]; nofun)
  rcases present with ⟨q, rfl, zombie | exiting⟩ | ⟨e, mem, rfl⟩
  · have zombie : s.pstate q = .zombie := zombie
    have other : q ≠ initproc := by
      rintro rfl
      have alive : (s.pstate initproc).Alive := tree.ids.init.1
      rw [zombie] at alive
      rcases alive with h | h | h <;> cases h
    obtain ⟨r, parent, alive, -⟩ := tree.parent_alive
      (show s.pstate q ≠ .unused ∧ s.pstate q ≠ .used by rw [zombie]; exact ⟨nofun, nofun⟩) other
    have status' := tree.exits.status q zombie
    exact .inr (.inl ⟨q, r, rfl, zombie, Option.some.inj (status'.symm.trans exited), parent, alive⟩)
  · refine .inl ⟨q, rfl, ?_, exiting⟩
    obtain ⟨x, hx⟩ := Option.ne_none_iff_exists'.mp exiting
    have awake := (tree.exits.exits q x.1 x.2 hx).2.1
    have fits := phases.fits q
    cases hφ : (ls q).phase with
    | off => exact absurd hφ awake
    | run => rw [hφ] at fits; exact .inr (.inr fits.2)
    | falling k => rw [hφ] at fits; exact .inr (.inr fits.2)
    | asleep k =>
      rw [hφ] at fits
      exact fits.2.elim (fun h => .inl h.1) fun h => .inr (.inl h.1)
    | paused => rw [hφ] at fits; exact .inr (.inl fits.2)
  · have ok := tree.exits.reaped e mem
    exact .inr (.inr ⟨e, mem, rfl, Option.some.inj (ok.status.symm.trans exited)⟩)

/-- While `wait_lock` is free, the parent of a process is the one that forked it as long as that one
lives, and the first process afterwards. -/
theorem ppid (tree : TreeOk N ls s.tree) (locks : LocksOk ls s) (free : s.locks .wait = none) {q : ℕ}
    (started : s.pstate q ≠ .unused ∧ s.pstate q ≠ .used) (other : q ≠ initproc) :
    (∀ r, s.uid r = s.forker (s.uid q) → (s.pstate r).Alive → s.ppid q = s.pid r) ∧
    ((∀ r, s.uid r = s.forker (s.uid q) → ¬ (s.pstate r).Alive) → s.ppid q = s.pid initproc) := by
  obtain ⟨x, parent, alive, -⟩ := tree.parent_alive started other
  have used {r : ℕ} (h : (s.pstate r).Alive) : s.tree.pstate r ≠ .unused := by
    rcases h with h | h | h <;> rw [show s.tree.pstate r = _ from h] <;> nofun
  have ppid : s.ppid q = s.pid x := by simp only [State.ppid, show s.parent q = some x from parent]
  rw [ppid]
  rcases tree.parents.line q x parent with forked | ⟨rfl, -, gone⟩
  · refine ⟨fun r hr alive' => ?_, fun none' => absurd alive (none' x forked)⟩
    rw [tree.ids.unique x r (used alive) (used alive') (forked.trans hr.symm)]
  · refine ⟨fun r hr alive' => ?_, fun _ => rfl⟩
    have held := ((locks r).owner .wait).mpr (gone r hr alive').1
    cases free.symm.trans held

end TreeOk

/-! ## A failing copy -/

theorem traces_waitScan {k q r : ℕ} {havekids : Bool} {a : ℤ ⊕ Bool}
    (trace : (waitScan k q havekids).Traces t a) (fails : ⟨.reap r, .copyFails⟩ ∈ t) :
    a = .inl (-1) := by
  induction k generalizing q havekids t with
  | zero =>
    obtain ⟨rfl, -⟩ := trace
    cases fails
  | succ k ih =>
    obtain ⟨child, t, rfl, trace⟩ := trace
    cases child
    · exact ih trace (by simpa using fails)
    · obtain ⟨_, _, rfl, outcome, _, rfl, trace⟩ := trace
      cases outcome with
      | reaped pid =>
        obtain ⟨_, _, rfl, _, _, rfl, rfl, rfl⟩ := trace
        simp at fails
      | copyFails =>
        obtain ⟨_, _, rfl, _, _, rfl, rfl, rfl⟩ := trace
        rfl
      | alive =>
        obtain ⟨_, _, rfl, trace⟩ := trace
        exact ih trace (by simpa using fails)

theorem traces_waitLoop {p fuel r : ℕ} {v : ℤ}
    (trace : (waitLoop N p fuel).Traces t v) (fails : ⟨.reap r, .copyFails⟩ ∈ t) : v = -1 := by
  induction fuel generalizing t with
  | zero => exact trace.elim nofun
  | succ fuel ih =>
    obtain ⟨t₁, a, t₂, rfl, scan, rest⟩ := Prog.Traces.bind trace
    rcases List.mem_append.mp fails with early | late
    · cases traces_waitScan scan early
      exact rest.2.symm
    cases a with
    | inl w =>
      rw [rest.1] at late
      cases late
    | inr havekids =>
      cases havekids
      · obtain ⟨_, _, rfl, -, rfl⟩ := rest
        rfl
      · obtain ⟨_, _, rfl, killed, _, rfl, _, _, rfl, rest⟩ := rest
        cases killed
        · obtain ⟨_, _, rfl, _, _, rfl, _, _, rfl, _, _, rfl, _, _, rfl, _, _, rfl, _, _, rfl, _, _,
            rfl, rest⟩ := rest
          exact ih rest (by simpa using late)
        · obtain ⟨_, _, rfl, -, rfl⟩ := rest
          rfl

theorem traces_wait {p fuel r : ℕ} {v : ℤ}
    (trace : (wait N p fuel).Traces t v) (fails : ⟨.reap r, .copyFails⟩ ∈ t) : v = -1 := by
  obtain ⟨_, t, rfl, trace⟩ := trace
  exact traces_waitLoop trace (by simpa using fails)

/-! ## The process tree -/

/-- Every process has a living parent, and the parents lead to the first process; whoever has called
`exit` is still in it, is the zombie child of a living process, or has been reaped with its status,
once, by the process that forked it or by the first process if that one has exited; a `wait` whose copy
fails leaves the zombie; and while `wait_lock` is free, `getppid` tells the pid of that parent. -/
theorem process_tree (run : Runs N care oracle c) :
    (∀ q, q ≠ initproc → (c.state.pstate q).Alive ∨ c.state.pstate q = .zombie →
      (∃ r, c.state.IsParent q r ∧ (c.state.pstate r).Alive) ∧
        Relation.ReflTransGen c.state.IsParent q initproc) ∧
    (∀ u status, c.state.exited u = some status →
      (∃ q, c.state.uid q = u ∧ (c.state.pstate q).Alive ∧ c.prog q ≠ none) ∨
      (∃ q r, c.state.uid q = u ∧ c.state.pstate q = .zombie ∧ c.state.xstate q = status ∧
        c.state.IsParent q r ∧ (c.state.pstate r).Alive) ∨
      ∃ e ∈ c.state.reaped, e.child = u ∧ e.status = status) ∧
    ((c.state.reaped.map Reaped.child).Nodup ∧ ∀ e ∈ c.state.reaped,
      c.state.exited e.child = some e.status ∧
        (e.waiter = c.state.forker e.child ∨
          e.waiter = c.state.uid initproc ∧ c.state.exited (c.state.forker e.child) ≠ none)) ∧
    (∀ p fuel q t v, (wait N p fuel).Traces t v → ⟨.reap q, .copyFails⟩ ∈ t → v = -1) ∧
    (∀ p q s, State.exec N care p (.reap q) c.state = .ok (.copyFails, s) →
      s = c.state.asked ∧ s.pstate q = .zombie) ∧
    (c.state.locks .wait = none → ∀ q, q ≠ initproc → (c.state.pstate q).Alive →
      (∀ r, c.state.uid r = c.state.forker (c.state.uid q) → (c.state.pstate r).Alive →
        c.state.ppid q = c.state.pid r) ∧
      ((∀ r, c.state.uid r = c.state.forker (c.state.uid q) → ¬ (c.state.pstate r).Alive) →
        c.state.ppid q = c.state.pid initproc)) := by
  obtain ⟨ls, good, ready⟩ := Runs.inv run
  have started {q : ℕ} (h : (c.state.pstate q).Alive ∨ c.state.pstate q = .zombie) :
      c.state.pstate q ≠ .unused ∧ c.state.pstate q ≠ .used := by
    rcases h with (h | h | h) | h <;> rw [h] <;> exact ⟨nofun, nofun⟩
  refine ⟨fun q other h => ?_, fun u status exited => ?_, ?_, fun _ _ _ _ _ => traces_wait, ?_, ?_⟩
  · obtain ⟨r, parent, alive, -⟩ := good.tree.parent_alive (started h) other
    exact ⟨⟨r, parent, alive⟩, good.tree.leads (started h)⟩
  · refine (good.tree.exited good.phases exited).imp_left ?_
    rintro ⟨q, uid, alive, exiting⟩
    refine ⟨q, uid, alive, fun idle => exiting ?_⟩
    have rest := ready q
    rw [idle] at rest
    obtain ⟨φ, -, rest⟩ := rest
    rw [rest]
    rfl
  · refine ⟨good.tree.exits.once, fun e mem => ?_⟩
    have ok := good.tree.exits.reaped e mem
    exact ⟨ok.status, ok.waiter⟩
  · intro p q s done
    simp only [State.exec, State.careful, if_true, Step.exec] at done
    split at done
    · rename_i zombie
      split at done
      · cases done
      · cases done
        exact ⟨rfl, zombie⟩
    · cases done
  · exact fun free q other alive => good.tree.ppid good.locks free (started (.inl alive)) other

def waitScene : List (Move Act) :=
  [.start 0 .forkret, .run 0 9, .start 0 (.call .fork), .run 0 99, .start 1 .forkret, .run 1 9,
    .start 1 (.call (.exit 7)), .run 1 99, .start 0 (.call (.wait 3)), .run 0 99]

theorem process_tree_waitScene :
    ∃ c, Runs 2 .none [] c ∧ ⟨1, 7, 0⟩ ∈ c.state.reaped ∧ c.state.exited 1 = some 7 := by
  have ⟨c, run, reaped⟩ : ∃ c, Runs 2 .none [] c ∧ ⟨1, 7, 0⟩ ∈ c.state.reaped :=
    Runs.reaches waitScene (by decide)
  exact ⟨c, run, reaped, ((process_tree run).2.2.1.2 _ reaped).1⟩

end Xv6.Proc
