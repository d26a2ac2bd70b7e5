import Xv6.Lib.Schedule
import Xv6.Proc.Fifo
import Xv6.Proc.Kill

/-!
# The invariant of the system

All the invariants together hold in every state that the processes reach, in any interleaving.
-/

namespace Xv6.Proc

open State

variable {N : ℕ} {care : Care} {p : ℕ} {ls : ℕ → Local} {s : State} {o : Step} {oracle : List Bool}
  {c : Conf PSig State}

/-- The invariant of the processes. -/
structure Good (N : ℕ) (care : Care) (ls : ℕ → Local) (s : State) : Prop where
  locks : LocksOk ls s
  phases : PhasesOk N ls s.rota
  wake : WakeOk N ls s.calls
  tree : TreeOk N ls s.tree
  know : KnowOk ls s.pipe
  monitor : MonitorOk care ls s.conds
  owes : OwesOk ls s.owes
  fifo : FifoOk ls s.trade
  blame : care.nonzero = true → BlameOk s.blame
  heed : care.heed = true → HeedOk ls s.tests

/-! ## Every step keeps the invariant -/

theorem Post.given {ε ρ σ : Type} {x : Except (Halt ε) (ρ × σ)} {P : Prop} {Q : ρ → σ → Prop}
    (h : P → Halt.Post (fun _ => True) Q x) : Halt.Post (fun _ => True) (fun r s => P → Q r s) x := by
  match x with
  | .ok (r, s) => exact h
  | .error (.panic _) => trivial
  | .error .blocked => trivial

theorem expects (good : Good N care ls s) (careful : s.careful care p o = true)
    (allowed : (ls p).Allows N care p o) : o.After N p s fun r _ => (ls p).Expects care o r := by
  cases o with
  | readopen => exact fun known => ((good.know p).readopen known).2
  | isKilled loop =>
    cases loop with
    | pipewrite =>
      intro prompt dirty writing
      have owes := good.owes p writing dirty fun j h => by simp [allowed.2.2.1] at h
      simpa [State.careful, prompt, owes] using careful
    | _ => trivial
  | acquire | release | releaseFor | swtch | resume | wakeIf | allocSlot | exiting | reparent | reap
  | more =>
    simp only [Step.After, Step.exec]
    repeat' split
    all_goals trivial
  | killIf q pid => exact after_killIf trivial (fun _ _ => trivial) fun _ _ => trivial
  | _ => trivial

theorem Good.step (good : Good N care ls s) (careful : s.careful care p o = true)
    (allowed : (ls p).Allows N care p o) :
    Halt.Post (· = .initExiting) (fun r s' => (ls p).Expects care o r ∧
      Good N care (Function.update ls p ((ls p).next p o r)) s') (o.exec N p s) := by
  have locks := good.locks.step good.phases allowed
  have phases := good.phases.step allowed
  have wake := good.wake.step good.locks good.phases allowed
  have tree := good.tree.step good.phases good.locks allowed
  have know := good.know.step good.locks allowed
  have monitor := good.monitor.step good.know good.locks good.phases good.tree allowed
  have owes := good.owes.step (s := s) allowed
  have fifo := good.fifo.step good.locks good.know allowed
  have blame := Post.given fun nonzero => (good.blame nonzero).step nonzero good.phases allowed
  have heed := Post.given fun heed =>
    (good.heed heed).step heed careful good.locks good.phases good.know allowed
  refine Halt.Post.mono ((((((((((locks.and phases).and wake).and tree).and know).and monitor).and
    owes).and fifo).and blame).and heed).and (expects good careful allowed)) ?_
  rintro r s' ⟨⟨⟨⟨⟨⟨⟨⟨⟨⟨locks, phases⟩, wake⟩, tree⟩, know⟩, monitor⟩, owes⟩, fifo⟩, blame⟩, heed⟩,
    expected⟩
  exact ⟨expected, locks, phases, wake, tree, know, monitor, owes, fifo, blame, heed⟩

theorem Good.keeps : (protocol N care).Keeps (exec N care) (Good N care) (· = .initExiting) := by
  intro ls s p o good allowed
  rw [exec]
  split
  · rename_i careful
    exact (good.step careful allowed).mono fun r s' h => ⟨_, ⟨h.1, rfl⟩, h.2⟩
  · trivial

/-! ## Every run -/

theorem Good.entry {body : PProg Unit} (good : Good N care ls s) (idle : (ls p).Idle)
    (start : Start N care p s body) : body.Follows (protocol N care) p (ls p) fun _ ℓ => ℓ.Idle := by
  obtain ⟨φ, awake, rest⟩ := idle
  have fits := good.phases.fits p
  have phase : (ls p).phase = φ := by rw [rest]; rfl
  rw [phase] at fits
  rw [rest]
  cases start with
  | forkret slot ready preempted =>
    have off : φ = .off := by
      rcases awake with rfl | rfl
      · cases fits.2.symm.trans ready
      · rfl
    subst off
    exact follows_preempted slot ((follows_forkret slot).mono fun _ _ h => ⟨.run, .inl rfl, h⟩)
      preempted (.rest nofun)
  | call slot running c admitted preempted =>
    have run : φ = .run := by
      rcases awake with rfl | rfl
      · rfl
      · exact absurd running fits.2.1
    subst run
    exact follows_preempted slot (follows_call slot admitted) preempted (.rest fun _ => rfl)
  | interrupt cpu i body_eq =>
    have off : φ = .off := phase.symm.trans (good.phases.cpu p cpu)
    subst off body_eq
    exact follows_interrupt i

theorem PhasesOk.boot : PhasesOk N (fun _ => .rest .off) (Proc.boot oracle).state.rota := by
  refine ⟨fun q => ⟨rfl, ?_, ?_⟩, nofun, fun _ _ => rfl, nofun, nofun, fun _ => rfl⟩
  all_goals
    simp only [rota, Proc.boot]
    split <;> rintro ⟨⟩

theorem TreeOk.boot : TreeOk N (fun _ => .rest .off) (Proc.boot oracle).state.tree := by
  have first (q : ℕ) (used : (Proc.boot oracle).state.tree.pstate q ≠ .unused) : q = initproc := by
    by_contra other
    exact used (if_neg other)
  refine ⟨⟨?_, ?_, ?_, .inr (.inl rfl), rfl⟩, ⟨?_, ?_, ?_, nofun, nofun, nofun⟩,
    ⟨nofun, ?_, fun u h => absurd rfl h, nofun, List.nodup_nil⟩, fun _ => Knows.nothing rfl rfl rfl⟩
  · exact fun q r hq hr _ => (first q hq).trans (first r hr).symm
  · exact fun _ _ => Nat.zero_lt_one
  · exact fun q hq other => absurd (first q hq) other
  · exact fun _ _ => rfl
  · exact fun _ _ => rfl
  · exact fun q hq _ other => absurd (first q hq) other
  · intro q hq
    simp only [tree, Proc.boot] at hq
    split at hq <;> cases hq

theorem BlameOk.boot : BlameOk (Proc.boot oracle).state.blame := by
  refine ⟨fun q hq => ⟨?_, rfl⟩, nofun⟩
  simp only [blame, Proc.boot] at hq ⊢
  split at hq
  · cases hq
  · rename_i other
    rw [if_neg other]

theorem Good.boot : Good N care (fun _ => .rest .off) (boot oracle).state where
  locks q := ⟨List.nodup_nil, rfl, fun l => iff_of_false nofun List.not_mem_nil⟩
  phases := .boot
  wake := ⟨nofun, nofun, nofun, nofun⟩
  tree := .boot
  know _ := Sees.nothing rfl
  monitor := by
    refine ⟨fun c l _ _ stuck => ?_, nofun, nofun, nofun⟩
    obtain ⟨⟨q, asleep⟩, -⟩ := stuck
    cases asleep
  owes := nofun
  fifo := ⟨.empty _ _, nofun, nofun, nofun, nofun, nofun, nofun, fun _ _ =>
    ⟨[], [], [], rfl, nofun, nofun⟩⟩
  blame _ := .boot
  heed _ := ⟨fun _ => rfl, nofun, fun _ _ => rfl, nofun, nofun⟩

/-- The ghost values of a configuration that fit its state and its programs. -/
abbrev Inv (N : ℕ) (care : Care) : Conf PSig State → Prop :=
  Conf.Inv (exec N care) (Good N care) (· = .initExiting) Local.Idle

theorem Runs.inv (run : Runs N care oracle c) : Inv N care c :=
  Conf.Inv.follows Good.keeps (fun ls _ p _ good idle start =>
    ⟨ls p, by rwa [Function.update_eq_self], good.entry idle start⟩)
    ⟨_, Good.boot, fun _ => ⟨.off, .inr rfl, rfl⟩⟩ run

theorem Runs.good (run : Runs N care oracle c) : ∃ ls, Good N care ls c.state := by
  obtain ⟨ls, good, -⟩ := Runs.inv run
  exact ⟨ls, good⟩

/-! ## Schedules -/

/-- The programs that can be started. -/
inductive Act where
  | forkret
  | call (c : Call)
  | interrupt (i : Interrupt)

def Care.admits (care : Care) : Call → Bool
  | .kill pid => !care.nonzero || pid != 0
  | _ => true

theorem Care.admits_iff {c : Call} : care.admits c = true ↔ care.Admits c := by
  cases c <;> simp [admits, Admits]
  cases care.nonzero <;> simp

def Act.enter (N : ℕ) (care : Care) (p : ℕ) (s : State) : Act → Option (PProg Unit)
  | forkret => if p < N ∧ s.pstate p = .runnable then some (Proc.forkret p) else none
  | call c =>
      if p < N ∧ s.pstate p = .running ∧ care.admits c = true then some (c.prog N p) else none
  | interrupt i => if N ≤ p then some (i.prog N p) else none

theorem Act.enter_start {a : Act} {body : PProg Unit} (entered : a.enter N care p s = some body) :
    Start N care p s body := by
  cases a <;> simp only [enter, Option.ite_none_right_eq_some, Option.some.injEq] at entered
  · obtain ⟨⟨slot, ready⟩, rfl⟩ := entered
    exact .forkret slot ready (.refl _)
  · obtain ⟨⟨slot, running, admitted⟩, rfl⟩ := entered
    exact .call slot running _ (care.admits_iff.mp admitted) (.refl _)
  · obtain ⟨cpu, rfl⟩ := entered
    exact .interrupt cpu _ rfl

def playFrom (N : ℕ) (care : Care) (oracle : List Bool) (ms : List (Conf.Move Act)) :
    Option (Conf PSig State) :=
  (boot oracle).play (exec N care) (fun p s a => a.enter N care p s) ms

theorem Runs.reaches {P : Conf PSig State → Prop} [DecidablePred P] (ms : List (Conf.Move Act))
    (played : (playFrom N care oracle ms).any (fun c => decide (P c)) = true) :
    ∃ c, Runs N care oracle c ∧ P c :=
  Conf.Reachable.reaches _ (fun _ _ _ _ entered => Act.enter_start entered) ms played

end Xv6.Proc
