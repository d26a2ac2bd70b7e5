import Xv6.Proc.Phases

/-!
# Every wakeup reaches the sleeps in progress

A `wakeup` visits the slots one after the other.  A sleep on its channel that was in progress when it
started is made runnable when its slot is visited: the sleeper holds its own lock from the release of
the other one until it sleeps.
-/

namespace Xv6.Proc

open Function

variable {N : ℕ} {care : Care} {p : ℕ} {ls : ℕ → Local} {s : State} {o : Step}

/-- The part of the state that says which sleeps the calls of `wakeup` have to end. -/
structure Calls where
  waking : ℕ → List (ℕ × ℕ)
  woke : List (ℕ × List (ℕ × ℕ))
  sleep : ℕ → Option Chan
  sleeps : ℕ → ℕ
  roused : ℕ → ℕ

def State.calls (s : State) : Calls := ⟨s.waking, s.woke, s.sleep, s.sleeps, s.roused⟩

/-- The `k`-th sleep of `q` has been made runnable or is in progress on `c`. -/
def Calls.Pending (v : Calls) (c : Chan) (q k : ℕ) : Prop :=
  k ≤ v.roused q ∨ k = v.sleeps q ∧ v.sleep q = some c

/-- A `wakeup` has ended the sleeps that it has passed. -/
structure WakeOk (N : ℕ) (ls : ℕ → Local) (v : Calls) : Prop where
  slot : ∀ p c j, (ls p).scan = some (c, j) → ∀ x ∈ v.waking p, x.1 < N
  pending : ∀ p c j, (ls p).scan = some (c, j) → ∀ x ∈ v.waking p, x.1 ≠ p → v.Pending c x.1 x.2
  passed : ∀ p c j, (ls p).scan = some (c, j) → ∀ x ∈ v.waking p, x.1 ≠ p → x.1 < j →
    x.2 ≤ v.roused x.1
  ended : ∀ w ∈ v.woke, ∀ x ∈ w.2, x.1 ≠ w.1 → x.2 ≤ v.roused x.1

attribute [local grind =] update_apply

namespace WakeOk

variable {v v' : Calls} {ℓ : Local}

theorem scan (inv : WakeOk N ls v)
    (mine : ∀ c j, ℓ.scan = some (c, j) → ∀ x ∈ v.waking p, x.1 < N ∧
      (x.1 ≠ p → v.Pending c x.1 x.2 ∧ (x.1 < j → x.2 ≤ v.roused x.1))) :
    WakeOk N (update ls p ℓ) v := by
  obtain ⟨slot, pending, passed, ended⟩ := inv
  refine ⟨?_, ?_, ?_, ended⟩ <;> grind

theorem ghost (inv : WakeOk N ls v) (same : ℓ.scan = (ls p).scan) : WakeOk N (update ls p ℓ) v := by
  refine inv.scan fun c j h x hx => ?_
  rw [same] at h
  exact ⟨inv.slot p c j h x hx, fun other =>
    ⟨inv.pending p c j h x hx other, inv.passed p c j h x hx other⟩⟩

theorem advance (inv : WakeOk N ls v) (waking : v'.waking = v.waking) (woke : v'.woke = v.woke)
    (roused : ∀ q, v.roused q ≤ v'.roused q)
    (sleep : ∀ q c, v.sleep q = some c → v'.sleep q = some c ∧ v'.sleeps q = v.sleeps q ∨
      v.sleeps q ≤ v'.roused q) :
    WakeOk N ls v' := by
  obtain ⟨slot, pending, passed, ended⟩ := inv
  refine ⟨?_, ?_, ?_, ?_⟩
  · rwa [waking]
  · intro p c j scan x hx other
    rcases pending p c j scan x (waking ▸ hx) other with le | ⟨hk, hc⟩
    · exact .inl (le_trans le (roused _))
    · rcases sleep _ c hc with ⟨h₁, h₂⟩ | h
      · exact .inr ⟨hk.trans h₂.symm, h₁⟩
      · exact .inl (hk ▸ h)
  · intro p c j scan x hx other before
    exact le_trans (passed p c j scan x (waking ▸ hx) other before) (roused _)
  · intro w hw x hx other
    exact le_trans (ended w (woke ▸ hw) x hx other) (roused _)

theorem wake (inv : WakeOk N ls s.calls) (phases : PhasesOk N ls s.rota) {q : ℕ}
    (sleeping : s.pstate q = .sleeping) : WakeOk N ls (s.wake q).calls := by
  obtain ⟨c, -, -, sleep⟩ := (phases.fits q).of_sleeping sleeping
  have count := phases.count q
  simp only [State.rota] at sleep count
  refine inv.advance rfl rfl (fun r => ?_) fun r c' hr => ?_
  · simp only [State.calls, State.wake]
    grind
  · simp only [State.calls, State.wake] at hr ⊢
    grind

theorem step (inv : WakeOk N ls s.calls) (locks : LocksOk ls s) (phases : PhasesOk N ls s.rota)
    (allowed : (ls p).Allows N care p o) :
    o.After N p s fun r s' => WakeOk N (update ls p ((ls p).next p o r)) s'.calls := by
  cases o with
  | releaseFor l c =>
    obtain ⟨-, -, -, run, -⟩ := allowed
    refine .guard fun _ =>
      ghost (advance inv rfl rfl (fun r => le_refl _) fun r c' hr => ?_) rfl
    have other : r ≠ p := by
      rintro rfl
      cases (phases.awake run).symm.trans hr
    simp only [State.calls] at hr ⊢
    exact .inl ⟨by simpa [other] using hr, by simp [other]⟩
  | wakeupBegin c =>
    have snapshot (x : ℕ × ℕ) (hx : x ∈ s.sleepers N c) :
        x.1 < N ∧ x.2 = s.sleeps x.1 ∧ s.sleep x.1 = some c := by
      simp only [State.sleepers, List.mem_map, List.mem_filter, List.mem_range] at hx
      obtain ⟨q, ⟨hq, hc⟩, rfl⟩ := hx
      exact ⟨hq, rfl, by simpa using hc⟩
    obtain ⟨slot, pending, passed, ended⟩ := inv
    have idle : (ls p).scan = none := allowed.1
    have begun : WakeOk N ls
        ⟨update s.waking p (s.sleepers N c), s.woke, s.sleep, s.sleeps, s.roused⟩ := by
      simp only [State.calls, Calls.Pending] at slot pending passed ended
      refine ⟨?_, ?_, ?_, ended⟩ <;> simp only [Calls.Pending] <;> grind
    refine begun.scan fun c' j hj x hx => ?_
    cases hj
    simp only [update_self] at hx
    exact ⟨(snapshot x hx).1, fun _ => ⟨.inr (snapshot x hx).2, by rintro ⟨⟩⟩⟩
  | wakeIf q c =>
    obtain ⟨other, held, j, scan, own⟩ := allowed
    have visited {s' : State} (inv : WakeOk N ls s'.calls) (done : s'.sleep q ≠ some c) :
        WakeOk N (update ls p ((ls p).next p (.wakeIf q c) ())) s'.calls := by
      refine inv.scan fun c' j' hj x hx => ?_
      cases hj
      refine ⟨inv.slot p c j scan x hx, fun hp => ⟨inv.pending p c j scan x hx hp, fun before => ?_⟩⟩
      rcases Nat.lt_succ_iff_lt_or_eq.mp before with lt | eq
      · refine inv.passed p c j scan x hx hp ?_
        by_contra late
        exact hp (own x.1 (by omega) lt)
      · exact (inv.pending p c j scan x hx hp).resolve_right fun h => done (eq ▸ h.2)
    exact .ite (fun ready => visited (inv.wake phases ready.1) (by simp [State.wake]))
      fun notReady => visited inv fun h => notReady (phases.asleep locks other held h)
  | wakeupEnd =>
    obtain ⟨-, c, j, scan, own⟩ := allowed
    have ended : WakeOk N ls ⟨s.waking, (p, s.waking p) :: s.woke, s.sleep, s.sleeps, s.roused⟩ := by
      refine ⟨inv.slot, inv.pending, inv.passed, fun w hw x hx other => ?_⟩
      rcases List.mem_cons.mp hw with rfl | hw
      · refine inv.passed p c j scan x hx other ?_
        by_contra late
        exact other (own x.1 (by omega) (inv.slot p c j scan x hx))
      · exact inv.ended w hw x hx other
    exact ended.scan (by rintro _ _ ⟨⟩)
  | killIf q pid =>
    exact after_killIf (inv.ghost rfl) (fun _ _ => inv.ghost rfl)
      fun _ ready => ghost (inv.wake phases ready) rfl
  | acquire | release | swtch | resume | allocSlot | exiting | reparent | reap | more =>
    simp only [Step.After, Step.exec]
    repeat' split
    all_goals first | exact inv.ghost rfl | trivial
  | _ => exact inv.ghost rfl

end WakeOk

end Xv6.Proc
