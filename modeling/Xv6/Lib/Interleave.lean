import Xv6.Lib.Prog
import Mathlib.Logic.Relation

/-!
# Interleaved execution of programs

Any number of processes, named by natural numbers, share one state.  A process in user mode may enter a
program that `Start` admits; from then on it performs one operation at a time, in any order relative to
the other processes.
-/

/-- A configuration: the shared state and what each process still has to execute. -/
structure Conf (S : Sig) (σ : Type) where
  state : σ
  prog : ℕ → Option (Prog S Unit)

namespace Conf

open Function

variable {S : Sig} {σ ε L : Type} {h : ℕ → Handler S σ ε} {Start : ℕ → σ → Prog S Unit → Prop}

/-- A process starts a program, does one operation of it, or ends. -/
inductive Step (h : ℕ → Handler S σ ε) (Start : ℕ → σ → Prog S Unit → Prop) :
    Conf S σ → Conf S σ → Prop
  | start {c : Conf S σ} {p : ℕ} {body : Prog S Unit} (idle : c.prog p = none)
      (admitted : Start p c.state body) :
      Step h Start c ⟨c.state, update c.prog p (some body)⟩
  | op {c : Conf S σ} {p : ℕ} {o : S.Op} {k : S.Res o → Prog S Unit} {r : S.Res o} {s : σ}
      (running : c.prog p = some (.op o k)) (done : h p o c.state = .ok (r, s)) :
      Step h Start c ⟨s, update c.prog p (some (k r))⟩
  | finish {c : Conf S σ} {p : ℕ} (returned : c.prog p = some (.ret ())) :
      Step h Start c ⟨c.state, update c.prog p none⟩

/-- Some steps lead there. -/
def Reachable (h : ℕ → Handler S σ ε) (Start : ℕ → σ → Prog S Unit → Prop) (c : Conf S σ) :
    Conf S σ → Prop :=
  Relation.ReflTransGen (Step h Start) c

theorem Reachable.trans {a b c : Conf S σ} (hab : Reachable h Start a b) (hbc : Reachable h Start b c) :
    Reachable h Start a c :=
  Relation.ReflTransGen.trans hab hbc

theorem Reachable.rest {p : ℕ} {progs : ℕ → Option (Prog S Unit)} {body : Prog S Unit} {s : σ}
    (ok : (body.run (h p) s).1.isOk = true) :
    Reachable h Start ⟨s, update progs p (some body)⟩
      ⟨(body.run (h p) s).2, update progs p none⟩ := by
  induction body generalizing s with
  | ret a =>
    have step : Step h Start ⟨s, update progs p (some (.ret ()))⟩ _ :=
      .finish (p := p) (update_self ..)
    rw [update_idem] at step
    exact .single step
  | op o k ih =>
    cases hs : h p o s with
    | error e =>
      rw [Prog.run_op_error (h p) hs] at ok
      cases ok
    | ok r =>
      obtain ⟨r, s'⟩ := r
      rw [Prog.run_op_ok (h p) hs] at ok ⊢
      have step : Step h Start ⟨s, update progs p (some (.op o k))⟩ _ :=
        .op (update_self ..) hs
      rw [update_idem] at step
      exact .head step (ih r ok)

theorem Reachable.call {c : Conf S σ} {p : ℕ} {body : Prog S Unit} (idle : c.prog p = none)
    (admitted : Start p c.state body) (ok : (body.run (h p) c.state).1.isOk = true) :
    Reachable h Start c ⟨(body.run (h p) c.state).2, c.prog⟩ := by
  have rest : Reachable h Start ⟨c.state, update c.prog p (some body)⟩
      ⟨_, update c.prog p none⟩ := .rest ok
  rw [← idle, update_eq_self] at rest
  exact .head (.start idle admitted) rest

/-- Some process is about to panic with `e`. -/
def Panics (h : ℕ → Handler S σ ε) (c : Conf S σ) (e : ε) : Prop :=
  ∃ p o k, c.prog p = some (.op o k) ∧ h p o c.state = .error (.panic e)

/-- What process `p` still has to do is safe from its local ghost value, or it is idle. -/
def Ready (h : ℕ → Handler S σ ε) (G : (ℕ → L) → σ → Prop) (A : ε → Prop) (Idle : L → Prop)
    (p : ℕ) (ℓ : L) : Option (Prog S Unit) → Prop
  | none => Idle ℓ
  | some x => x.Safe h G A p ℓ fun _ ℓ' => Idle ℓ'

def Inv (h : ℕ → Handler S σ ε) (G : (ℕ → L) → σ → Prop) (A : ε → Prop) (Idle : L → Prop)
    (c : Conf S σ) : Prop :=
  ∃ ls, G ls c.state ∧ ∀ p, Ready h G A Idle p (ls p) (c.prog p)

section Inv

variable {h : ℕ → Handler S σ ε} {Start : ℕ → σ → Prog S Unit → Prop}
  {G : (ℕ → L) → σ → Prop} {A : ε → Prop} {Idle : L → Prop}

theorem ready_update {ls : ℕ → L} {progs : ℕ → Option (Prog S Unit)} {p : ℕ} {ℓ : L}
    {x : Option (Prog S Unit)} (others : ∀ q, Ready h G A Idle q (ls q) (progs q))
    (mine : Ready h G A Idle p ℓ x) (q : ℕ) :
    Ready h G A Idle q (update ls p ℓ q) (update progs p x q) := by
  by_cases hq : q = p
  · subst hq
    rwa [update_self, update_self]
  · rw [update_of_ne hq, update_of_ne hq]
    exact others q

theorem Inv.step
    (entry : ∀ ls s p body, G ls s → Idle (ls p) → Start p s body →
      ∃ ℓ, G (update ls p ℓ) s ∧ body.Safe h G A p ℓ fun _ ℓ' => Idle ℓ')
    {c c' : Conf S σ} (inv : Inv h G A Idle c) (step : Step h Start c c') :
    Inv h G A Idle c' := by
  obtain ⟨ls, hG, ready⟩ := inv
  cases step with
  | @start p body idle admitted =>
    have hp := ready p
    rw [idle] at hp
    obtain ⟨ℓ, hG', safe⟩ := entry ls c.state p body hG hp admitted
    exact ⟨_, hG', ready_update ready safe⟩
  | @op p o k r s running done =>
    have hp := ready p
    rw [running] at hp
    have hs := hp ls c.state hG rfl
    rw [done] at hs
    obtain ⟨ℓ, hG', safe⟩ := hs
    exact ⟨_, hG', ready_update ready safe⟩
  | @finish p returned =>
    have hp := ready p
    rw [returned] at hp
    refine ⟨update ls p (ls p), by rwa [update_eq_self], ready_update ready hp⟩

theorem Inv.reachable
    (entry : ∀ ls s p body, G ls s → Idle (ls p) → Start p s body →
      ∃ ℓ, G (update ls p ℓ) s ∧ body.Safe h G A p ℓ fun _ ℓ' => Idle ℓ')
    {c c' : Conf S σ} (inv : Inv h G A Idle c) (run : Reachable h Start c c') :
    Inv h G A Idle c' := by
  induction run with
  | refl => exact inv
  | tail _ step ih => exact ih.step entry step

theorem Inv.panics {c : Conf S σ} (inv : Inv h G A Idle c) {e : ε} (raised : Panics h c e) : A e := by
  obtain ⟨ls, hG, ready⟩ := inv
  obtain ⟨p, o, k, running, hs⟩ := raised
  have hp := ready p
  rw [running] at hp
  have := hp ls c.state hG rfl
  rwa [hs] at this

end Inv

end Conf
