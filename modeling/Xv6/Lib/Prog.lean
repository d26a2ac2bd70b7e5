import Mathlib.Tactic.Common

/-!
# Programs over atomic operations

A program is a tree whose nodes perform one atomic operation and continue with its result.  A handler
gives the meaning of the operations on a state.  `Prog.run` executes a program alone; `Prog.Safe` is the
rule for a program that shares its state with other programs.
-/

/-- A signature of atomic operations, with the type of the result of each of them. -/
structure Sig where
  Op : Type
  Res : Op → Type

/-- A program: it returns, or does an operation and goes on with the result. -/
inductive Prog (S : Sig) (α : Type) : Type where
  | ret (a : α)
  | op (o : S.Op) (k : S.Res o → Prog S α)

/-- Why an operation does not complete: it must wait, or it stops the machine. -/
inductive Halt (ε : Type) where
  | blocked
  | panic (e : ε)

abbrev Handler (S : Sig) (σ ε : Type) := (o : S.Op) → σ → Except (Halt ε) (S.Res o × σ)

namespace Prog

open Function

variable {S : Sig} {σ ε L α β γ : Type} {x : Prog S α} {f : α → Prog S β}

def perform (o : S.Op) : Prog S (S.Res o) := .op o .ret

def bind : Prog S α → (α → Prog S β) → Prog S β
  | .ret a, f => f a
  | .op o k, f => .op o fun r => (k r).bind f

instance : Monad (Prog S) where
  pure := .ret
  bind := .bind

@[simp] theorem pure_eq (a : α) : (pure a : Prog S α) = .ret a := rfl

@[simp] theorem ret_bind (a : α) (f : α → Prog S β) : (Prog.ret a : Prog S α) >>= f = f a := rfl

@[simp] theorem op_bind (o : S.Op) (k : S.Res o → Prog S α) (f : α → Prog S β) :
    (Prog.op o k : Prog S α) >>= f = .op o fun r => k r >>= f := rfl

@[simp] theorem perform_bind (o : S.Op) (f : S.Res o → Prog S β) :
    perform o >>= f = .op o f := rfl

theorem bind_ret (x : Prog S α) : x >>= Prog.ret = x := by
  induction x with
  | ret a => rfl
  | op o k ih => exact congrArg (Prog.op o) (funext ih)

theorem bind_assoc (x : Prog S α) (f : α → Prog S β) (g : β → Prog S γ) :
    x >>= f >>= g = x >>= fun a => f a >>= g := by
  induction x with
  | ret a => rfl
  | op o k ih => exact congrArg (Prog.op o) (funext ih)

instance : LawfulMonad (Prog S) :=
  LawfulMonad.mk' (Prog S) (fun x => bind_ret x) (fun _ _ => rfl) bind_assoc

/-- Perform `f lo`, …, `f (lo + n - 1)` in this order. -/
def loop (f : ℕ → Prog S Unit) : ℕ → ℕ → Prog S Unit
  | _, 0 => .ret ()
  | lo, n + 1 => do
      f lo
      loop f (lo + 1) n

def lift {T : Sig} (f : (o : S.Op) → Prog T (S.Res o)) : Prog S α → Prog T α
  | .ret a => .ret a
  | .op o k => f o >>= fun r => (k r).lift f

/-- `y` is `x` with runs of `z` inserted where `Here` allows it; `next` follows the context. -/
inductive Inserts {C : Type} (next : C → S.Op → C) (Here : C → Prop) (z : Prog S Unit) :
    C → Prog S α → Prog S α → Prop
  | ret {c : C} (a : α) : Inserts next Here z c (.ret a) (.ret a)
  | op {c : C} {o : S.Op} {k k' : S.Res o → Prog S α}
      (rest : ∀ r, Inserts next Here z (next c o) (k r) (k' r)) :
      Inserts next Here z c (.op o k) (.op o k')
  | insert {c : C} {x y : Prog S α} (here : Here c) (rest : Inserts next Here z c x y) :
      Inserts next Here z c x (z >>= fun _ => y)

theorem Inserts.refl {C : Type} {next : C → S.Op → C} {Here : C → Prop} {z : Prog S Unit} {c : C}
    (x : Prog S α) : Inserts next Here z c x x := by
  induction x generalizing c with
  | ret a => exact .ret a
  | op o k ih => exact .op fun r => ih r

/-! ## Execution of one program -/

/-- Run a program alone.  A program that halts leaves the state of its last operation. -/
def run (h : Handler S σ ε) : Prog S α → σ → Except (Halt ε) α × σ
  | .ret a, s => (.ok a, s)
  | .op o k, s =>
      match h o s with
      | .ok (r, s') => (k r).run h s'
      | .error e => (.error e, s)

variable (h : Handler S σ ε)

@[simp] theorem run_ret (a : α) (s : σ) : (Prog.ret a : Prog S α).run h s = (.ok a, s) := rfl

theorem run_op_ok {o : S.Op} {k : S.Res o → Prog S α} {s s' : σ} {r : S.Res o}
    (hs : h o s = .ok (r, s')) : (Prog.op o k).run h s = (k r).run h s' := by
  simp only [run, hs]

theorem run_op_error {o : S.Op} {k : S.Res o → Prog S α} {s : σ} {e : Halt ε}
    (hs : h o s = .error e) : (Prog.op o k).run h s = (.error e, s) := by
  simp only [run, hs]

theorem run_bind (x : Prog S α) (f : α → Prog S β) (s : σ) :
    (x >>= f).run h s =
      match x.run h s with
      | (.ok a, s') => (f a).run h s'
      | (.error e, s') => (.error e, s') := by
  induction x generalizing s with
  | ret a => rfl
  | op o k ih =>
    rw [op_bind]
    cases hs : h o s with
    | ok q => rw [run_op_ok h hs, run_op_ok h hs, ih]
    | error e => rw [run_op_error h hs, run_op_error h hs]

theorem run_bind_ok {s s' : σ} {a : α}
    (hx : x.run h s = (.ok a, s')) : (x >>= f).run h s = (f a).run h s' := by
  rw [run_bind, hx]

theorem run_bind_eq_ok {s s'' : σ} {b : β} :
    (x >>= f).run h s = (.ok b, s'') ↔
      ∃ a s', x.run h s = (.ok a, s') ∧ (f a).run h s' = (.ok b, s'') := by
  rw [run_bind]
  rcases x.run h s with ⟨_ | a, s'⟩
  · simp
  · simp

/-! ## Programs that share their state -/

/-- Every operation of `x`, started by `p` with the local ghost `ℓ`, keeps the invariant `G` for some
new ghost of `p`, every panic satisfies `A`, and `x` returns with `Q`; other processes may act in
between as long as they keep `G` and leave the ghost of `p` alone. -/
def Safe (h : ℕ → Handler S σ ε) (G : (ℕ → L) → σ → Prop) (A : ε → Prop) (p : ℕ) :
    Prog S α → L → (α → L → Prop) → Prop
  | .ret a, ℓ, Q => Q a ℓ
  | .op o k, ℓ, Q => ∀ ls s, G ls s → ls p = ℓ →
      match h p o s with
      | .ok (r, s') => ∃ ℓ', G (update ls p ℓ') s' ∧ (k r).Safe h G A p ℓ' Q
      | .error (.panic e) => A e
      | .error .blocked => True

section Safe

variable {h : ℕ → Handler S σ ε} {G : (ℕ → L) → σ → Prop} {A : ε → Prop} {p : ℕ}

theorem Safe.mono {ℓ : L} {Q Q' : α → L → Prop} (hx : x.Safe h G A p ℓ Q)
    (hQ : ∀ a ℓ', Q a ℓ' → Q' a ℓ') : x.Safe h G A p ℓ Q' := by
  induction x generalizing ℓ with
  | ret a => exact hQ a ℓ hx
  | op o k ih =>
    intro ls s hG hp
    have hs := hx ls s hG hp
    cases hq : h p o s with
    | ok q =>
      rw [hq] at hs
      obtain ⟨ℓ', hG', hk⟩ := hs
      exact ⟨ℓ', hG', ih q.1 hk⟩
    | error e =>
      rw [hq] at hs
      cases e with
      | blocked => trivial
      | panic e => exact hs

theorem Safe.bind {ℓ : L} {Q : β → L → Prop}
    (hx : x.Safe h G A p ℓ fun a ℓ' => (f a).Safe h G A p ℓ' Q) : (x >>= f).Safe h G A p ℓ Q := by
  induction x generalizing ℓ with
  | ret a => exact hx
  | op o k ih =>
    rw [op_bind]
    intro ls s hG hp
    have hs := hx ls s hG hp
    cases hq : h p o s with
    | ok q =>
      rw [hq] at hs
      obtain ⟨ℓ', hG', hk⟩ := hs
      exact ⟨ℓ', hG', ih q.1 hk⟩
    | error e =>
      rw [hq] at hs
      cases e with
      | blocked => trivial
      | panic e => exact hs

theorem Safe.loop {f : ℕ → Prog S Unit} {J : ℕ → L → Prop} (n : ℕ) {lo : ℕ}
    (body : ∀ i ℓ, lo ≤ i → i < lo + n → J i ℓ → (f i).Safe h G A p ℓ fun _ ℓ' => J (i + 1) ℓ')
    {ℓ : L} (start : J lo ℓ) : (Prog.loop f lo n).Safe h G A p ℓ fun _ ℓ' => J (lo + n) ℓ' := by
  induction n generalizing lo ℓ with
  | zero => exact start
  | succ n ih =>
    refine Safe.bind ((body lo ℓ (Nat.le_refl lo) (by omega) start).mono fun _ ℓ' hJ => ?_)
    have rest := ih (fun i ℓ'' (lower : lo + 1 ≤ i) upper hi =>
      body i ℓ'' (by omega) (by omega) hi) hJ
    rwa [Nat.add_right_comm] at rest

theorem Safe.run_inv {ℓ : L} {Q : α → L → Prop} (hx : x.Safe h G A p ℓ Q)
    {ls : ℕ → L} {s : σ} (hG : G ls s) (hp : ls p = ℓ) :
    ∃ ℓ', G (update ls p ℓ') (x.run (h p) s).2 ∧
      (∀ a, (x.run (h p) s).1 = .ok a → Q a ℓ') ∧
      ∀ e, (x.run (h p) s).1 = .error (.panic e) → A e := by
  induction x generalizing ℓ ls s with
  | ret a =>
    refine ⟨ℓ, by rwa [← hp, update_eq_self], ?_, ?_⟩
    · rintro b hb
      cases hb
      exact hx
    · rintro e he
      cases he
  | op o k ih =>
    have hs := hx ls s hG hp
    cases hq : h p o s with
    | ok q =>
      rw [hq] at hs
      obtain ⟨ℓ', hG', hk⟩ := hs
      rw [run_op_ok (h p) hq]
      obtain ⟨ℓ'', h₁, h₂⟩ := ih q.1 hk hG' (update_self ..)
      rw [update_idem] at h₁
      exact ⟨ℓ'', h₁, h₂⟩
    | error e =>
      rw [hq] at hs
      rw [run_op_error (h p) hq]
      refine ⟨ℓ, by rwa [← hp, update_eq_self], ?_, ?_⟩
      · rintro b hb
        cases hb
      · rintro e' he
        cases he
        exact hs

end Safe

end Prog
