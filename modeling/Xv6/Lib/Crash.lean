import Xv6.Lib.Prog

/-!
# Programs that are stopped

A machine may stop between any two operations of a program.  `Prog.stop` is the state it leaves, and
`Prog.Total` the rule for a program that runs alone, with a condition on the state wherever it is
stopped.
-/

namespace Prog

open Function

variable {S : Sig} {σ ε L α β : Type} {x : Prog S α} {s : σ}

/-- The state when the program stops after at most `n` operations. -/
def stop (h : Handler S σ ε) : ℕ → Prog S α → σ → σ
  | 0, _, s => s
  | _ + 1, .ret _, s => s
  | n + 1, .op o k, s =>
      match h o s with
      | .ok (r, s') => stop h n (k r) s'
      | .error _ => s

@[simp] theorem stop_ret (h : Handler S σ ε) (n : ℕ) (a : α) (s : σ) :
    (Prog.ret a : Prog S α).stop h n s = s := by
  cases n <;> rfl

theorem Safe.stop_inv {h : ℕ → Handler S σ ε} {G : (ℕ → L) → σ → Prop} {A : ε → Prop} {p : ℕ}
    {ℓ : L} {Q : α → L → Prop} (hx : x.Safe h G A p ℓ Q) (n : ℕ) {ls : ℕ → L}
    (hG : G ls s) (hp : ls p = ℓ) : ∃ ℓ', G (update ls p ℓ') (x.stop (h p) n s) := by
  have here : ∃ ℓ', G (update ls p ℓ') s := ⟨ℓ, by rwa [← hp, update_eq_self]⟩
  induction x generalizing n ℓ ls s with
  | ret a => simpa only [stop_ret] using here
  | op o k ih =>
    cases n with
    | zero => exact here
    | succ n =>
      have hs := hx ls s hG hp
      unfold stop
      cases hq : h p o s with
      | error e => exact here
      | ok q =>
        rw [hq] at hs
        obtain ⟨ℓ', hG', hk⟩ := hs
        obtain ⟨ℓ'', h''⟩ := ih q.1 hk n hG' (update_self ..)
          ⟨ℓ', by rwa [update_idem]⟩
        rw [update_idem] at h''
        exact ⟨ℓ'', h''⟩

/-! ## Programs that use only some operations -/

/-- Every operation the program can perform satisfies `P`. -/
def Only (P : S.Op → Prop) : Prog S α → Prop
  | .ret _ => True
  | .op o k => P o ∧ ∀ r, (k r).Only P

section Only

variable {P : S.Op → Prop}

theorem Only.bind {f : α → Prog S β} (hx : x.Only P) (hf : ∀ a, (f a).Only P) : (x >>= f).Only P := by
  induction x with
  | ret a => exact hf a
  | op o k ih => exact ⟨hx.1, fun r => ih r (hx.2 r)⟩

theorem Only.mono {P' : S.Op → Prop} (hx : x.Only P) (imp : ∀ o, P o → P' o) : x.Only P' := by
  induction x with
  | ret a => trivial
  | op o k ih => exact ⟨imp o hx.1, fun r => ih r (hx.2 r)⟩

theorem Only.loop {f : ℕ → Prog S Unit} (hf : ∀ i, (f i).Only P) (lo n : ℕ) :
    (Prog.loop f lo n).Only P := by
  induction n generalizing lo with
  | zero => trivial
  | succ n ih => exact (hf lo).bind fun _ => ih (lo + 1)

theorem Only.stop (hx : x.Only P) {h : Handler S σ ε} {I : σ → Prop}
    (keep : ∀ o s r s', P o → I s → h o s = .ok (r, s') → I s') (n : ℕ) (start : I s) :
    I (x.stop h n s) := by
  induction x generalizing n s with
  | ret a => simpa only [stop_ret] using start
  | op o k ih =>
    cases n with
    | zero => exact start
    | succ n =>
      unfold Prog.stop
      cases hs : h o s with
      | error e => exact start
      | ok q => exact ih q.1 (hx.2 q.1) n (keep o s q.1 q.2 hx.1 start hs)

theorem Only.run (hx : x.Only P) {h : Handler S σ ε} {I : σ → Prop}
    (keep : ∀ o s r s', P o → I s → h o s = .ok (r, s') → I s') (start : I s) : I (x.run h s).2 := by
  induction x generalizing s with
  | ret a => exact start
  | op o k ih =>
    cases hs : h o s with
    | error e =>
      rw [run_op_error h hs]
      exact start
    | ok q =>
      rw [run_op_ok h hs]
      exact ih q.1 (hx.2 q.1) (keep o s q.1 q.2 hx.1 start hs)

end Only

/-! ## Total correctness -/

/-- The outcome of an operation is a result with `P` or a panic in `A`. -/
def Outcome {ρ : Type} (A : ε → Prop) (P : ρ → σ → Prop) : Except (Halt ε) (ρ × σ) → Prop
  | .ok q => P q.1 q.2
  | .error (.panic e) => A e
  | .error .blocked => False

theorem Outcome.mono {ρ : Type} {A : ε → Prop} {P P' : ρ → σ → Prop} {x : Except (Halt ε) (ρ × σ)}
    (hx : Outcome A P x) (hP : ∀ r s, P r s → P' r s) : Outcome A P' x := by
  cases x with
  | ok q => exact hP q.1 q.2 hx
  | error e =>
    cases e with
    | blocked => exact hx
    | panic e => exact hx

/-- Run alone from `s`, the program returns with `Q` or stops with a panic in `A`, and `I` holds
between any two operations.  It never waits. -/
def Total (h : Handler S σ ε) (A : ε → Prop) (I : σ → Prop) :
    Prog S α → σ → (α → σ → Prop) → Prop
  | .ret a, s, Q => I s ∧ Q a s
  | .op o k, s, Q => I s ∧ Outcome A (fun r s' => (k r).Total h A I s' Q) (h o s)

section Total

variable {h : Handler S σ ε} {A : ε → Prop} {I : σ → Prop} {Q : α → σ → Prop}

theorem Total.op {o : S.Op} {k : S.Res o → Prog S α} {s t : σ} {r : S.Res o} (here : I s)
    (step : h o s = .ok (r, t)) (rest : (k r).Total h A I t Q) : (Prog.op o k).Total h A I s Q :=
  ⟨here, by rw [step]; exact rest⟩

theorem Total.here (hx : x.Total h A I s Q) : I s := by
  cases x with
  | ret a => exact hx.1
  | op o k => exact hx.1

theorem Total.panic {o : S.Op} {k : S.Res o → Prog S α} {e : ε} (here : I s)
    (step : h o s = .error (.panic e)) (allowed : A e) : (Prog.op o k).Total h A I s Q :=
  ⟨here, by rw [step]; exact allowed⟩

theorem Total.bind {f : α → Prog S β} {Q : β → σ → Prop}
    (hx : x.Total h A I s fun a s' => (f a).Total h A I s' Q) : (x >>= f).Total h A I s Q := by
  induction x generalizing s with
  | ret a => exact hx.2
  | op o k ih =>
    exact ⟨hx.1, hx.2.mono fun r s' rest => ih r rest⟩

theorem Total.mono {Q Q' : α → σ → Prop} (hx : x.Total h A I s Q)
    (hQ : ∀ a s', Q a s' → Q' a s') : x.Total h A I s Q' := by
  induction x generalizing s with
  | ret a => exact ⟨hx.1, hQ a s hx.2⟩
  | op o k ih =>
    exact ⟨hx.1, hx.2.mono fun r s' rest => ih r rest⟩

theorem Total.weaken {A' : ε → Prop} {I' : σ → Prop} (hx : x.Total h A I s Q) (hA : ∀ e, A e → A' e)
    (hI : ∀ s', I s' → I' s') : x.Total h A' I' s Q := by
  induction x generalizing s with
  | ret a => exact ⟨hI s hx.1, hx.2⟩
  | op o k ih =>
    obtain ⟨here, rest⟩ := hx
    refine ⟨hI s here, ?_⟩
    cases hs : h o s with
    | ok q =>
      rw [hs] at rest
      exact ih q.1 rest
    | error e =>
      rw [hs] at rest
      cases e with
      | blocked => exact rest
      | panic e => exact hA e rest

theorem Total.restrict {P : S.Op → Prop} {A' : ε → Prop} (hx : x.Total h A I s Q) (only : x.Only P)
    (hA : ∀ o t e, P o → h o t = .error (.panic e) → A e → A' e) : x.Total h A' I s Q := by
  induction x generalizing s with
  | ret a => exact hx
  | op o k ih =>
    obtain ⟨here, rest⟩ := hx
    refine ⟨here, ?_⟩
    cases hs : h o s with
    | ok q =>
      rw [hs] at rest
      exact ih q.1 rest (only.2 q.1)
    | error e =>
      rw [hs] at rest
      cases e with
      | blocked => exact rest
      | panic e => exact hA o s e only.1 hs rest

theorem Total.loop {f : ℕ → Prog S Unit} {J : ℕ → σ → Prop} (n : ℕ) {lo : ℕ}
    (keeps : ∀ i s, J i s → I s)
    (body : ∀ i s, lo ≤ i → i < lo + n → J i s → (f i).Total h A I s fun _ s' => J (i + 1) s')
    (start : J lo s) : (Prog.loop f lo n).Total h A I s fun _ s' => J (lo + n) s' := by
  induction n generalizing lo s with
  | zero => exact ⟨keeps lo s start, start⟩
  | succ n ih =>
    refine Total.bind ((body lo s (Nat.le_refl lo) (by omega) start).mono fun _ s' hJ => ?_)
    have rest := ih (fun i s'' (lower : lo + 1 ≤ i) upper hi =>
      body i s'' (by omega) (by omega) hi) hJ
    rwa [Nat.add_right_comm] at rest

theorem Total.run (hx : x.Total h A I s Q) :
    (∃ a, (x.run h s).1 = .ok a ∧ Q a (x.run h s).2) ∨
      ∃ e, (x.run h s).1 = .error (.panic e) ∧ A e := by
  induction x generalizing s with
  | ret a => exact .inl ⟨a, rfl, hx.2⟩
  | op o k ih =>
    obtain ⟨-, rest⟩ := hx
    cases hs : h o s with
    | ok q =>
      rw [hs] at rest
      rw [run_op_ok h hs]
      exact ih q.1 rest
    | error e =>
      rw [hs] at rest
      rw [run_op_error h hs]
      cases e with
      | blocked => exact rest.elim
      | panic e => exact .inr ⟨e, rfl, rest⟩

theorem Total.stop (hx : x.Total h A I s Q) (n : ℕ) : I (x.stop h n s) := by
  induction x generalizing n s with
  | ret a => simpa only [stop_ret] using hx.1
  | op o k ih =>
    obtain ⟨here, rest⟩ := hx
    cases n with
    | zero => exact here
    | succ n =>
      unfold Prog.stop
      cases hs : h o s with
      | error e => exact here
      | ok q =>
        rw [hs] at rest
        exact ih q.1 rest n

end Total

end Prog
