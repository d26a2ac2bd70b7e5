import Xv6.Lib.Interleave

/-!
# Schedules and traces

A schedule is an executable description of one interleaved run.  The traces of a program are what it
can do and return, whatever the results of its operations are.
-/

namespace Conf

variable {S : Sig} {σ ε ι : Type}

/-- One decision of the scheduler: process `p` starts something, or takes steps. -/
inductive Move (ι : Type) where
  | start (p : ℕ) (a : ι)
  | run (p n : ℕ)

/-- Up to `n` steps of process `p`, until its program has returned. -/
def advance (h : ℕ → Handler S σ ε) (p : ℕ) : ℕ → Conf S σ → Option (Conf S σ)
  | 0, c => some c
  | n + 1, c =>
      match c.prog p with
      | none => some c
      | some (.ret ()) => some ⟨c.state, Function.update c.prog p none⟩
      | some (.op o k) =>
          match h p o c.state with
          | .ok (r, s) => advance h p n ⟨s, Function.update c.prog p (some (k r))⟩
          | .error _ => none

/-- The outcome of one decision; `enter` gives the program of what may start. -/
def move (h : ℕ → Handler S σ ε) (enter : ℕ → σ → ι → Option (Prog S Unit)) :
    Move ι → Conf S σ → Option (Conf S σ)
  | .start p a, c =>
      match c.prog p, enter p c.state a with
      | none, some body => some ⟨c.state, Function.update c.prog p (some body)⟩
      | _, _ => none
  | .run p n, c => advance h p n c

def play (h : ℕ → Handler S σ ε) (enter : ℕ → σ → ι → Option (Prog S Unit)) :
    List (Move ι) → Conf S σ → Option (Conf S σ)
  | [], c => some c
  | m :: ms, c => (move h enter m c).bind (play h enter ms)

variable {h : ℕ → Handler S σ ε} {Start : ℕ → σ → Prog S Unit → Prop}
  {enter : ℕ → σ → ι → Option (Prog S Unit)} {c c' : Conf S σ}

theorem Reachable.advance {p n : ℕ} (run : c.advance h p n = some c') : Reachable h Start c c' := by
  induction n generalizing c with
  | zero =>
    cases run
    exact .refl
  | succ n ih =>
    rw [Conf.advance] at run
    split at run
    · cases run
      exact .refl
    · rename_i returned
      cases run
      exact .single (.finish returned)
    · rename_i running
      split at run
      · rename_i done
        exact .head (.op running done) (ih run)
      · cases run

theorem Reachable.move (admitted : ∀ p s a body, enter p s a = some body → Start p s body)
    {m : Move ι} (run : c.move h enter m = some c') : Reachable h Start c c' := by
  cases m with
  | start p a =>
    rw [Conf.move] at run
    split at run
    · rename_i idle entered
      cases run
      exact .single (.start idle (admitted _ _ _ _ entered))
    · cases run
  | run p n => exact .advance run

theorem Reachable.play (admitted : ∀ p s a body, enter p s a = some body → Start p s body)
    {ms : List (Move ι)} (run : c.play h enter ms = some c') : Reachable h Start c c' := by
  induction ms generalizing c with
  | nil =>
    cases run
    exact .refl
  | cons m ms ih =>
    obtain ⟨c₁, first, rest⟩ := Option.bind_eq_some_iff.mp run
    exact (Reachable.move admitted first).trans (ih rest)

theorem Reachable.reaches {P : Conf S σ → Prop} [DecidablePred P]
    (enter : ℕ → σ → ι → Option (Prog S Unit))
    (admitted : ∀ p s a body, enter p s a = some body → Start p s body) (ms : List (Move ι))
    (played : (c.play h enter ms).any (fun c => decide (P c)) = true) :
    ∃ c', Reachable h Start c c' ∧ P c' := by
  obtain ⟨c', outcome, holds⟩ := (Option.any_eq_true _ _).mp played
  exact ⟨c', .play admitted outcome, of_decide_eq_true holds⟩

end Conf

namespace Prog

variable {S : Sig} {α β : Type}

/-- The program can perform these operations with these results and then return `b`. -/
def Traces : Prog S α → List ((o : S.Op) × S.Res o) → α → Prop
  | .ret a, t, b => t = [] ∧ a = b
  | .op o k, t, b => ∃ r t', t = ⟨o, r⟩ :: t' ∧ (k r).Traces t' b

theorem Traces.bind {x : Prog S α} {f : α → Prog S β} {t : List ((o : S.Op) × S.Res o)} {b : β}
    (trace : (x >>= f).Traces t b) : ∃ t₁ a t₂, t = t₁ ++ t₂ ∧ x.Traces t₁ a ∧ (f a).Traces t₂ b := by
  induction x generalizing t with
  | ret a => exact ⟨[], a, t, rfl, ⟨rfl, rfl⟩, trace⟩
  | op o k ih =>
    obtain ⟨r, t', rfl, rest⟩ := trace
    obtain ⟨t₁, a, t₂, rfl, h₁, h₂⟩ := ih r rest
    exact ⟨⟨o, r⟩ :: t₁, a, t₂, rfl, ⟨r, t₁, rfl, h₁⟩, h₂⟩

end Prog
