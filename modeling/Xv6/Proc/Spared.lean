import Xv6.Proc.Init

/-!
# The first process does not exit

The first process is killed only by `kill(1)`, and as long as it has a shell its `wait` returns a child.
-/

namespace Xv6.Proc

open Function Watch UStep Option

/-! ## The invariant -/

/-- The first process is spared, and what it knows about its children is true. -/
structure WatchOk (ℓ : Local) (w : Watch) (s : State) : Prop where
  pid : s.pid initproc = 1
  spared : s.killed initproc = false
  pids : ∀ q, 0 ≤ (s.pid q).toInt
  fresh : ∀ q pid, w.fresh = some (q, pid) → ℓ.family.child = some (q, false) ∧ s.pid q = pid
  shell : ∀ q pid, w.shell = some (q, pid) → s.parent q = some initproc ∧ s.pid q = pid

section WatchOk

variable {N p q : ℕ} {ls : ℕ → Local} {w : Watch} {s s' : State} {o : Step} {r : o.Res}

def Watch.after (w : Watch) (p : ℕ) (o : Step) (r : o.Res) : Watch :=
  if p = initproc then w.next o r else w

theorem WatchOk.same {ℓ ℓ' : Local} (ok : WatchOk ℓ w s) (pid : s'.pid = s.pid)
    (killed : s'.killed initproc = s.killed initproc)
    (parent : ∀ x, s.parent x = some initproc → s'.parent x = some initproc)
    (child : ℓ'.family.child = ℓ.family.child) : WatchOk ℓ' w s' := by
  constructor
  · rw [pid, ok.pid]
  · rw [killed, ok.spared]
  · rw [pid]
    exact ok.pids
  · rw [pid, child]
    exact ok.fresh
  · intro x pid' known
    rw [pid]
    exact ⟨parent x (ok.shell x pid' known).1, (ok.shell x pid' known).2⟩

theorem WatchOk.slot {ℓ ℓ' : Local} {w' : Watch} (ok : WatchOk ℓ w s) (other : q ≠ initproc)
    (pid : ∀ x, x ≠ q → s'.pid x = s.pid x) (positive : 0 ≤ (s'.pid q).toInt)
    (killed : s'.killed initproc = s.killed initproc)
    (parent : ∀ x, x ≠ q → s'.parent x = s.parent x)
    (fresh : ∀ x pid, w'.fresh = some (x, pid) →
      x ≠ q ∧ w.fresh = some (x, pid) ∧ ℓ'.family.child = ℓ.family.child)
    (shell : ∀ x pid, w'.shell = some (x, pid) → x ≠ q ∧ w.shell = some (x, pid)) :
    WatchOk ℓ' w' s' := by
  constructor
  · rw [pid _ other.symm, ok.pid]
  · rw [killed, ok.spared]
  · intro x
    by_cases e : x = q
    · rwa [e]
    · rw [pid x e]
      exact ok.pids x
  · intro x pid' known
    obtain ⟨e, known', child⟩ := fresh x pid' known
    rw [pid x e, child]
    exact ok.fresh x pid' known'
  · intro x pid' known
    obtain ⟨e, known'⟩ := shell x pid' known
    rw [pid x e, parent x e]
    exact ok.shell x pid' known'

variable (ok : WatchOk (ls initproc) w s) (good : Good N .none ls s)

include good in
theorem Good.init_ne
    (hq : s.pstate q = .unused ∨ s.pstate q = .used ∨ s.pstate q = .zombie) : q ≠ initproc := by
  rintro rfl
  have alive : s.pstate initproc = .sleeping ∨ s.pstate initproc = .runnable ∨
    s.pstate initproc = .running := good.tree.ids.init.1
  rcases hq with h | h | h <;> rw [h] at alive <;> simp at alive

include ok in
theorem WatchOk.shell_ne {q x : ℕ} {pid : BitVec 32} (orphan : s.parent q ≠ some initproc)
    (known : w.shell = some (x, pid)) : x ≠ q := by
  rintro rfl
  exact orphan (ok.shell x pid known).1

include ok good

theorem WatchOk.fresh_ne {q x : ℕ} {pid : BitVec 32} (state : s.pstate q ≠ .used)
    (known : w.fresh = some (x, pid)) : x ≠ q := by
  rintro rfl
  exact state (good.phases.child _ _ _ (ok.fresh x pid known).1)

theorem WatchOk.alloc (unused : s.pstate q = .unused) (positive : 0 < s.nextpid.toInt) :
    WatchOk (update ls p ((ls p).next p (.allocSlot q) (some s.nextpid)) initproc)
      (w.after p (.allocSlot q) (some s.nextpid)) (s.alloc p q) := by
  have other := good.init_ne (.inl unused)
  have orphan : s.parent q = none := good.tree.parents.unused q unused
  have away {x : ℕ} {pid : BitVec 32} (known : w.shell = some (x, pid)) : x ≠ q :=
    ok.shell_ne (by rw [orphan]; nofun) known
  have pid (x : ℕ) (hx : x ≠ q) : (s.alloc p q).pid x = s.pid x := update_of_ne hx ..
  have taken : (s.alloc p q).pid q = s.nextpid := update_self ..
  by_cases first : p = initproc
  · subst first
    rw [after, if_pos rfl, update_self]
    have rest : WatchOk (ls initproc) { w with fresh := none } (s.alloc initproc q) :=
      ok.slot other pid (by rw [taken]; omega) rfl (fun _ _ => rfl) nofun
        fun x pid' known => ⟨away known, known⟩
    refine ⟨rest.pid, rest.spared, rest.pids, ?_, rest.shell⟩
    rintro x pid' known
    cases known
    exact ⟨rfl, taken⟩
  · rw [after, if_neg first, update_of_ne (Ne.symm first)]
    refine ok.slot other pid (by rw [taken]; omega) rfl (fun _ _ => rfl)
      (fun x pid' known => ⟨?_, known, rfl⟩) fun x pid' known => ⟨away known, known⟩
    exact ok.fresh_ne good (by rw [unused]; nofun) known

theorem WatchOk.free (forked : (ls p).family.child = some (q, false)) :
    WatchOk (update ls p ((ls p).next p (.freeSlot q) ()) initproc)
      (w.after p (.freeSlot q) ()) (s.free q) := by
  have used : s.pstate q = .used := good.phases.child p q false forked
  have other := good.init_ne (.inr (.inl used))
  have orphan : s.parent q = none := (good.tree.parents.forks p q false forked).2.2.2
  have gone {ℓ' : Local} {w' : Watch} (shell : w'.shell = w.shell)
      (fresh : ∀ x pid, w'.fresh = some (x, pid) →
        x ≠ q ∧ w.fresh = some (x, pid) ∧ ℓ'.family.child = (ls initproc).family.child) :
      WatchOk ℓ' w' (s.free q) := by
    refine ok.slot other (fun x hx => update_of_ne hx ..) ?_
      (update_of_ne other.symm ..) (fun x hx => update_of_ne hx ..) fresh ?_
    · simp only [State.free, update_self]
      decide
    · intro x pid known
      rw [shell] at known
      exact ⟨ok.shell_ne (by rw [orphan]; rintro ⟨⟩) known, known⟩
  by_cases first : p = initproc
  · subst first
    rw [after, if_pos rfl, update_self]
    exact gone rfl (by rintro _ _ ⟨⟩)
  · rw [after, if_neg first, update_of_ne (Ne.symm first)]
    refine gone rfl fun x pid known => ⟨?_, known, rfl⟩
    rintro rfl
    exact first (good.phases.distinct p initproc x false false forked (ok.fresh x pid known).1)

theorem WatchOk.setParent (forked : (ls p).family.child = some (q, false)) :
    WatchOk (update ls p ((ls p).next p (.setParent q) ()) initproc)
      (w.after p (.setParent q) ()) { s with parent := update s.parent q (some p) } := by
  have orphan : s.parent q = none := (good.tree.parents.forks p q false forked).2.2.2
  by_cases first : p = initproc
  · subst first
    rw [after, if_pos rfl, update_self]
    refine ⟨ok.pid, ok.spared, ok.pids, nofun, fun x pid known => ?_⟩
    obtain ⟨child, same⟩ := ok.fresh x pid known
    rw [forked] at child
    cases child
    exact ⟨update_self .., same⟩
  · rw [after, if_neg first, update_of_ne (Ne.symm first)]
    refine ⟨ok.pid, ok.spared, ok.pids, ok.fresh, fun x pid known => ?_⟩
    have e := ok.shell_ne (by rw [orphan]; nofun) known
    exact ⟨(update_of_ne e ..).trans (ok.shell x pid known).1, (ok.shell x pid known).2⟩

theorem WatchOk.reap (zombie : s.pstate q = .zombie) (kin : s.parent q = some p) :
    WatchOk (update ls p ((ls p).next p (.reap q) (.reaped (s.pid q))) initproc)
      (w.after p (.reap q) (.reaped (s.pid q)))
      { s.asked.free q with reaped := ⟨s.uid q, s.xstate q, s.uid p⟩ :: s.reaped } := by
  have other := good.init_ne (.inr (.inr zombie))
  have gone {ℓ' : Local} {w' : Watch} (child : ℓ'.family.child = (ls initproc).family.child)
      (fresh : w'.fresh = w.fresh)
      (shell : ∀ x pid, w'.shell = some (x, pid) → x ≠ q ∧ w.shell = some (x, pid)) :
      WatchOk ℓ' w' { s.asked.free q with reaped := ⟨s.uid q, s.xstate q, s.uid p⟩ :: s.reaped } := by
    refine ok.slot other (fun x hx => update_of_ne hx ..) ?_
      (update_of_ne other.symm ..) (fun x hx => update_of_ne hx ..) ?_ shell
    · simp only [State.free, update_self]
      decide
    · intro x pid known
      rw [fresh] at known
      exact ⟨ok.fresh_ne good (by rw [zombie]; rintro ⟨⟩) known, known, child⟩
  by_cases first : p = initproc
  · subst first
    rw [after, if_pos rfl, update_self, next]
    split
    · exact gone rfl rfl (by rintro _ _ ⟨⟩)
    · rename_i alone
      refine gone rfl rfl fun x pid known => ⟨?_, known⟩
      rintro rfl
      exact alone (by rw [known]; rfl)
  · rw [after, if_neg first, update_of_ne (Ne.symm first)]
    refine gone rfl rfl fun x pid known => ⟨ok.shell_ne ?_ known, known⟩
    rw [kin]
    exact fun e => first (some.inj e)

theorem WatchOk.step {forks : Bool} (allowed : (ls p).Allows N .none p o)
    (mine : p = initproc → Watch.Allows o) (merciful : s.merciful ⟨true, forks, true⟩ o = true)
    (copies : p = initproc → ∀ q, o = .reap q → s.lucky = true)
    (done : Step.exec N p o s = .ok (r, s')) :
    (p = initproc → w.Expects o r) ∧
      WatchOk (update ls p ((ls p).next p o r) initproc) (w.after p o r) s' := by
  have still (plain : w.next o r = w) (pid : s'.pid = s.pid)
      (killed : s'.killed initproc = s.killed initproc)
      (parent : ∀ x, s.parent x = some initproc → s'.parent x = some initproc)
      (child : ((ls p).next p o r).family.child = (ls p).family.child) :
      WatchOk (update ls p ((ls p).next p o r) initproc) (w.after p o r) s' := by
    have same : w.after p o r = w := by
      rw [after, plain, ite_self]
    rw [same]
    refine ok.same pid killed parent ?_
    by_cases e : initproc = p
    · subst e
      rwa [update_self]
    · rw [update_of_ne e]
  cases o with
  | isKilled loop =>
    cases done
    refine ⟨?_, still rfl rfl rfl (fun _ => id) rfl⟩
    rintro rfl
    exact ok.spared
  | isChild q =>
    cases done
    refine ⟨?_, still rfl rfl rfl (fun _ => id) ?_⟩
    · rintro rfl pid shell
      exact decide_eq_true (ok.shell q pid shell).1
    · simp only [Local.next, Family.next]
      split <;> rfl
  | setKilled =>
    cases done
    have other : p ≠ initproc := mine
    exact ⟨fun _ => trivial, still rfl rfl (update_of_ne other.symm ..) (fun _ => id) rfl⟩
  | killIf q pid =>
    refine ⟨fun _ => trivial, ?_⟩
    have spares : pid ≠ 1 := by simpa [State.merciful] using merciful
    simp only [Step.exec] at done
    split at done
    · rename_i found
      have other : initproc ≠ q := by
        rintro rfl
        exact spares (found.symm.trans ok.pid)
      split at done <;> cases done <;>
        exact still rfl rfl (update_of_ne other ..) (fun _ => id) rfl
    · cases done
      exact still rfl rfl rfl (fun _ => id) rfl
  | allocSlot q =>
    have positive : 0 < s.nextpid.toInt := by simpa [State.merciful] using merciful
    simp only [Step.exec] at done
    split at done
    · rename_i unused
      cases done
      refine ⟨fun _ pid same => ?_, ok.alloc good unused positive⟩
      cases same
      exact positive
    · cases done
      refine ⟨fun _ => by rintro _ ⟨⟩, ?_⟩
      by_cases first : p = initproc
      · subst first
        rw [after, if_pos rfl]
        exact ⟨ok.pid, ok.spared, ok.pids, by rintro _ _ ⟨⟩, ok.shell⟩
      · rw [after, if_neg first, update_of_ne (Ne.symm first)]
        exact ok
  | freeSlot q =>
    cases done
    exact ⟨fun _ => trivial, ok.free good allowed.2.2⟩
  | setParent q =>
    cases done
    exact ⟨fun _ => trivial, ok.setParent good allowed.2.2.1⟩
  | startSlot q =>
    cases done
    refine ⟨fun _ => trivial, ?_⟩
    by_cases first : p = initproc
    · subst first
      rw [after, if_pos rfl, update_self]
      refine ⟨ok.pid, ok.spared, ok.pids, fun x pid known => ?_, ok.shell⟩
      have child := (ok.fresh x pid known).1
      rw [allowed.2.2] at child
      cases child
    · rw [after, if_neg first, update_of_ne (Ne.symm first)]
      exact ok.same rfl rfl (fun _ => id) rfl
  | reparent q =>
    refine ⟨fun _ => trivial, ?_⟩
    simp only [Step.exec] at done
    split at done
    · cases done
      refine still rfl rfl rfl (fun x hx => ?_) rfl
      by_cases e : x = q
      · rw [e]
        exact update_self ..
      · exact (update_of_ne e ..).trans hx
    · cases done
      exact still rfl rfl rfl (fun _ => id) rfl
  | reap q =>
    have kin : s.parent q = some p := ((good.tree.kin p).kin q allowed.2.2.2.2).2
    simp only [Step.exec] at done
    split at done
    · rename_i zombie
      split at done
      · cases done
        refine ⟨fun _ => ⟨by rintro ⟨⟩, fun pid same => ?_⟩, ok.reap good zombie kin⟩
        cases same
        exact ⟨ok.pids q, fun pid' shell => (ok.shell q pid' shell).2.symm⟩
      · rename_i unlucky
        cases done
        have other : p ≠ initproc := fun first => unlucky (copies first q rfl)
        exact ⟨fun first => absurd first other, still rfl rfl rfl (fun _ => id) rfl⟩
    · cases done
      exact ⟨fun _ => ⟨by rintro ⟨⟩, by rintro _ ⟨⟩⟩, still rfl rfl rfl (fun _ => id) rfl⟩
  | release l =>
    refine ⟨fun _ => trivial, ?_⟩
    simp only [Step.exec] at done
    split at done <;> cases done
    refine still rfl rfl rfl (fun _ => id) ?_
    simp only [Local.next, Family.next]
    split <;> rfl
  | releaseFor l c =>
    refine ⟨fun _ => trivial, ?_⟩
    simp only [Step.exec] at done
    split at done <;> cases done
    refine still rfl rfl rfl (fun _ => id) ?_
    simp only [Local.next, Family.next]
    split <;> rfl
  | acquire l | swtch | resume | wakeIf q c | exiting status | more =>
    refine ⟨fun _ => trivial, ?_⟩
    simp only [Step.exec] at done
    repeat' split at done
    all_goals cases done
    all_goals exact still rfl rfl rfl (fun _ => id) rfl
  | _ =>
    cases done
    exact ⟨fun _ => trivial, still rfl rfl rfl (fun _ => id) rfl⟩

end WatchOk

/-! ## Every run -/

section Runs

variable {N p : ℕ} {forks : Bool} {oracle : List Bool} {ls : ℕ → Local × Option Watch} {s : State}

def Guarded (N : ℕ) (ls : ℕ → Local × Option Watch) (s : State) : Prop :=
  Good N .none (fun p => (ls p).1) s ∧ (∀ p, p ≠ initproc → (ls p).2 = none) ∧
    ∃ w, (ls initproc).2 = some w ∧ WatchOk (ls initproc).1 w s

/-- `exit` of the first process is the only panic. -/
theorem exit_panics {o : Step} {e : Panic} (raised : Step.exec N p o s = .error (.panic e))
    (exits : e = .initExiting) : p = initproc ∧ ∃ status, o = .exiting status := by
  subst exits
  cases o with
  | exiting status =>
    simp only [Step.exec] at raised
    split at raised
    · rename_i first
      exact ⟨first, status, rfl⟩
    · cases raised
  | acquire | release | releaseFor | swtch | resume | wakeIf | killIf | allocSlot | reparent | reap
  | more =>
    simp only [Step.exec] at raised
    repeat' split at raised
    all_goals cases raised
  | _ => cases raised

theorem Good.uncopied {ls : ℕ → Local} (good : Good N .none ls s) (p : ℕ) (o : Step) :
    Good N .none ls (s.uncopied p o) := by
  have answered : Good N .none ls { s with oracle := true :: s.oracle } :=
    ⟨good.locks, good.phases, good.wake, good.tree, good.know, good.monitor, good.owes, good.fifo,
      good.blame, good.heed⟩
  cases o with
  | reap q =>
    rw [State.uncopied]
    split
    · exact answered
    · exact good
  | _ => exact good

theorem WatchOk.uncopied {ℓ : Local} {w : Watch} (ok : WatchOk ℓ w s) (p : ℕ) (o : Step) :
    WatchOk ℓ w (s.uncopied p o) := by
  cases o with
  | reap q =>
    rw [State.uncopied]
    split
    · exact ok.same rfl rfl (fun _ => id) rfl
    · exact ok
  | _ => exact ok

theorem merciful_uncopied {mercy : Mercy} {o : Step} (merciful : s.merciful mercy o = true) :
    (s.uncopied p o).merciful mercy o = true := by
  cases o <;> exact merciful

theorem Guarded.keeps : (guard N).Keeps (exec N ⟨true, forks, true⟩) (Guarded N)
    fun _ => False := by
  rintro ls s p o ⟨good, others, w, hw, ok⟩ allowed
  have known (h : p = initproc) : (ls p).2 = some w := by rw [h, hw]
  cases o with
  | isKilled =>
    refine ⟨ls p, ⟨fun watched => ?_, rfl⟩, ?_⟩
    · by_cases first : p = initproc
      · rw [first]
        exact ok.spared
      · exact absurd (others p first) watched
    · rw [update_eq_self]
      exact ⟨good, others, w, hw, ok⟩
  | kernel o =>
    obtain ⟨allowed, mine⟩ := allowed
    rw [exec]
    split
    swap
    · trivial
    rename_i merciful
    have careful : (s.uncopied p o).careful .none p o = true := by
      cases o <;> simp [State.careful, Care.none]
      split <;> simp
    have step := (good.uncopied p o).step careful allowed
    cases done : Step.exec N p o (s.uncopied p o) with
    | error e =>
      rw [done] at step
      cases e with
      | blocked => trivial
      | panic e =>
        obtain ⟨first, status, rfl⟩ := exit_panics done step
        exact mine w (known first)
    | ok x =>
      obtain ⟨r, s'⟩ := x
      rw [done] at step
      obtain ⟨expected, good'⟩ := step
      have copies (first : p = initproc) (q : ℕ) (reaps : o = .reap q) :
          (s.uncopied p o).lucky = true := by
        rw [reaps, State.uncopied, if_pos first]
        rfl
      obtain ⟨expects, ok'⟩ := (ok.uncopied p o).step (good.uncopied p o) allowed
        (fun first => mine w (known first)) (merciful_uncopied merciful) copies done
      have fst (m : Local × Option Watch) : (fun q => (update ls p m q).1) =
          update (fun q => (ls q).1) p m.1 := by
        funext q
        by_cases e : q = p
        · subst e
          rw [update_self, update_self]
        · rw [update_of_ne e, update_of_ne e]
      refine ⟨_, ⟨expected, fun w' hw' => ?_, rfl⟩, ?_, fun q hq => ?_, w.after p o r, ?_, ?_⟩
      · by_cases first : p = initproc
        · rw [known first] at hw'
          cases hw'
          exact expects first
        · rw [others p first] at hw'
          cases hw'
      · rw [fst]
        exact good'
      · by_cases e : q = p
        · subst e
          rw [update_self, others q hq]
          rfl
        · rw [update_of_ne e, others q hq]
      · by_cases first : p = initproc
        · subst first
          rw [update_self, hw, after, if_pos rfl]
          rfl
        · rw [update_of_ne (Ne.symm first), hw, after, if_neg first]
      · have := congrFun (fst ((ls p).1.next p o r, (ls p).2.map fun w => w.next o r)) initproc
        dsimp only at this
        rw [this]
        exact ok'

theorem Guarded.entry {body : UProg Unit} (ok : Guarded N ls s) (idle : (ls p).1.Idle)
    (start : UStart N ⟨true, true, true⟩ p s body) :
    body.Follows (guard N) p (ls p) fun _ m => m.1.Idle := by
  obtain ⟨good, others, w, hw, -⟩ := ok
  cases start with
  | init first slot ready fuel busy n preempted =>
    subst first
    obtain ⟨φ, awake, rest⟩ := idle
    have fits := good.phases.fits initproc
    have off : φ = .off := by
      rcases awake with rfl | rfl
      · rw [rest] at fits
        cases fits.2.symm.trans ready
      · rfl
    subst off
    rw [show ls initproc = (.rest .off, some w) from Prod.ext rest hw]
    exact guard_preempted slot (guard_initMain slot fuel busy n) preempted (.rest nofun)
  | other other start =>
    have follows := good.entry idle start
    rw [show ls p = ((ls p).1, none) from Prod.ext rfl (others p other)]
    exact guard_other follows

/-- The first process does not exit, as long as nobody calls `kill(1)`, its `fork` does not fail and
process ids are not reused. -/
theorem init_never_exits {c : Conf USig State} (run : InitRuns N ⟨true, true, true⟩ oracle c) :
    ¬c.Panics (exec N ⟨true, true, true⟩) .initExiting := by
  have boot : Conf.Inv (exec N ⟨true, true, true⟩) (Guarded N) (fun _ => False)
      (fun m => m.1.Idle) (initBoot oracle) := by
    refine ⟨fun q => (.rest .off, if q = initproc then some ⟨none, none⟩ else none), ?_,
      fun _ => ⟨.off, .inr rfl, rfl⟩⟩
    refine ⟨Good.boot, fun p hp => if_neg hp, ⟨none, none⟩, rfl, rfl, rfl, fun q => ?_,
      nofun, nofun⟩
    simp only [initBoot, Proc.boot]
    split <;> decide
  have inv := Conf.Inv.follows Guarded.keeps (fun ls s p body ok idle start =>
    ⟨ls p, by rwa [update_eq_self], ok.entry idle start⟩) boot run
  exact inv.panics

/-! ## Schedules -/

inductive UAct where
  | init (fuel n : ℕ)
  | other (a : Act)

def UAct.enter (N : ℕ) (mercy : Mercy) (p : ℕ) (s : State) : UAct → Option (UProg Unit)
  | init fuel n =>
      if p = initproc ∧ initproc < N ∧ s.pstate p = .runnable then
        some (initMain N fuel (fun _ _ => []) mercy.forks n)
      else none
  | other a => if p ≠ initproc then (a.enter N .none p s).map kernel else none

theorem UAct.enter_start {mercy : Mercy} {a : UAct} {body : UProg Unit}
    (entered : a.enter N mercy p s = some body) : UStart N mercy p s body := by
  cases a with
  | init fuel n =>
    simp only [enter, ite_none_right_eq_some, some.injEq] at entered
    obtain ⟨⟨first, slot, ready⟩, rfl⟩ := entered
    exact .init first slot ready fuel _ n (.refl _)
  | other a =>
    simp only [enter, ite_none_right_eq_some, map_eq_some_iff] at entered
    obtain ⟨other, x, started, rfl⟩ := entered
    exact .other other (Act.enter_start started)

def aboutToExit : Option (UProg Unit) → Bool
  | some (.op (.kernel (.exiting _)) _) => true
  | _ => false

def shellScene : List (Conf.Move UAct) :=
  [.start 0 (.init 3 1), .run 0 39]

theorem init_never_exits_shellScene :
    ∃ c, InitRuns 2 ⟨true, true, true⟩ [] c ∧ c.state.pstate initproc = .sleeping ∧
      ¬c.Panics (exec 2 ⟨true, true, true⟩) .initExiting := by
  have ⟨c, run, sleeping⟩ : ∃ c, InitRuns 2 ⟨true, true, true⟩ [] c ∧
      c.state.pstate initproc = .sleeping :=
    Conf.Reachable.reaches (fun p s a => UAct.enter 2 ⟨true, true, true⟩ p s a)
      (fun _ _ _ _ entered => UAct.enter_start entered) shellScene (by decide)
  exact ⟨c, run, sleeping, init_never_exits run⟩

def mutinyScene : List (Conf.Move UAct) :=
  [.start 0 (.init 3 1), .run 0 39, .start 1 (.other .forkret), .run 1 9,
    .start 1 (.other (.call (.kill 1))), .run 1 9, .run 0 16]

theorem init_exits_after_kill :
    ∃ c, InitRuns 2 ⟨false, false, false⟩ [] c ∧
      c.Panics (exec 2 ⟨false, false, false⟩) .initExiting := by
  have ⟨c, run, exits⟩ : ∃ c, InitRuns 2 ⟨false, false, false⟩ [] c ∧
      aboutToExit (c.prog initproc) = true :=
    Conf.Reachable.reaches (fun p s a => UAct.enter 2 ⟨false, false, false⟩ p s a)
      (fun _ _ _ _ entered => UAct.enter_start entered) mutinyScene (by decide)
  refine ⟨c, run, initproc, ?_⟩
  unfold aboutToExit at exits
  split at exits
  · rename_i status k running
    exact ⟨_, k, running, rfl⟩
  · cases exits

end Runs

end Xv6.Proc
