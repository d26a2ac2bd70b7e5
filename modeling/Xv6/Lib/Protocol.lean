import Xv6.Lib.Interleave

/-!
# Protocols

A protocol says, without reference to the state, which operation a process may perform next and which
results and local ghost values it has to expect.  A program is checked against it by one walk through
the program, and an invariant by one lemma for each operation that the protocol allows.
-/

/-- What holds after an operation: `Q` if it completes, and `A` for the panic that it raises. -/
def Halt.Post {ε ρ σ : Type} (A : ε → Prop) (Q : ρ → σ → Prop) :
    Except (Halt ε) (ρ × σ) → Prop
  | .ok (r, s) => Q r s
  | .error (.panic e) => A e
  | .error .blocked => True

namespace Halt

variable {ε ρ σ : Type} {A : ε → Prop} {Q Q' : ρ → σ → Prop} {x : Except (Halt ε) (ρ × σ)}

theorem Post.mono (hx : Post A Q x) (hQ : ∀ r s, Q r s → Q' r s) : Post A Q' x := by
  match x, hx with
  | .ok (r, s), hx => exact hQ r s hx
  | .error (.panic _), hx => exact hx
  | .error .blocked, _ => trivial

theorem Post.and (hx : Post A Q x) (hx' : Post (fun _ => True) Q' x) :
    Post A (fun r s => Q r s ∧ Q' r s) x := by
  match x, hx, hx' with
  | .ok (_, _), hx, hx' => exact ⟨hx, hx'⟩
  | .error (.panic _), hx, _ => exact hx
  | .error .blocked, _, _ => trivial

theorem Post.guard {c : Prop} [Decidable c] {e : Halt ε} (done : c → Post (fun _ => True) Q x) :
    Post (fun _ => True) Q (if c then x else .error e) := by
  split_ifs with h
  · exact done h
  · cases e <;> trivial

theorem Post.ite {c : Prop} [Decidable c] {y : Except (Halt ε) (ρ × σ)} (pos : c → Post A Q x)
    (neg : ¬ c → Post A Q y) : Post A Q (if c then x else y) := by
  split_ifs with h
  · exact pos h
  · exact neg h

end Halt

/-- A protocol: which operations it allows, and where they lead. -/
structure Protocol (S : Sig) (L : Type) where
  Allowed : ℕ → L → S.Op → Prop
  Next : ℕ → L → (o : S.Op) → S.Res o → L → Prop

/-- Every operation that the protocol allows keeps the invariant, for a ghost value that the protocol
expects. -/
def Protocol.Keeps {S : Sig} {L σ ε : Type} (P : Protocol S L) (h : ℕ → Handler S σ ε)
    (G : (ℕ → L) → σ → Prop) (A : ε → Prop) : Prop :=
  ∀ ls s p o, G ls s → P.Allowed p (ls p) o →
    Halt.Post A (fun r s' => ∃ ℓ, P.Next p (ls p) o r ℓ ∧ G (Function.update ls p ℓ) s') (h p o s)

def Protocol.prod {S : Sig} {L M : Type} (P : Protocol S L) (P' : Protocol S M) :
    Protocol S (L × M) where
  Allowed p ℓ o := P.Allowed p ℓ.1 o ∧ P'.Allowed p ℓ.2 o
  Next p ℓ o r ℓ' := P.Next p ℓ.1 o r ℓ'.1 ∧ P'.Next p ℓ.2 o r ℓ'.2

namespace Prog

variable {S : Sig} {L σ ε α β : Type} {P : Protocol S L} {p : ℕ} {ℓ : L} {Q : α → L → Prop}
  {x : Prog S α}

/-- Started by process `p` with local ghost value `ℓ`, the program follows the protocol and returns
with `Q`. -/
def Follows (P : Protocol S L) (p : ℕ) : Prog S α → L → (α → L → Prop) → Prop
  | .ret a, ℓ, Q => Q a ℓ
  | .op o k, ℓ, Q => P.Allowed p ℓ o ∧ ∀ r ℓ', P.Next p ℓ o r ℓ' → (k r).Follows P p ℓ' Q

theorem Follows.ret {a : α} (done : Q a ℓ) : (Prog.ret a : Prog S α).Follows P p ℓ Q :=
  done

theorem Follows.op {o : S.Op} {k : S.Res o → Prog S α} (allowed : P.Allowed p ℓ o)
    (rest : ∀ r ℓ', P.Next p ℓ o r ℓ' → (k r).Follows P p ℓ' Q) : (Prog.op o k).Follows P p ℓ Q :=
  ⟨allowed, rest⟩

theorem Follows.mono {Q Q' : α → L → Prop} (hx : x.Follows P p ℓ Q)
    (hQ : ∀ a ℓ', Q a ℓ' → Q' a ℓ') : x.Follows P p ℓ Q' := by
  induction x generalizing ℓ with
  | ret a => exact hQ a ℓ hx
  | op o k ih => exact ⟨hx.1, fun r ℓ' next => ih r (hx.2 r ℓ' next)⟩

theorem Follows.bind {f : α → Prog S β} {R : α → L → Prop} {Q : β → L → Prop} (hx : x.Follows P p ℓ R)
    (hf : ∀ a ℓ', R a ℓ' → (f a).Follows P p ℓ' Q) : (x >>= f).Follows P p ℓ Q := by
  induction x generalizing ℓ with
  | ret a => exact hf a ℓ hx
  | op o k ih => exact ⟨hx.1, fun r ℓ' next => ih r (hx.2 r ℓ' next)⟩

theorem Follows.loop {f : ℕ → Prog S Unit} {J : ℕ → L → Prop} (n : ℕ) {lo : ℕ}
    (body : ∀ i ℓ, lo ≤ i → i < lo + n → J i ℓ → (f i).Follows P p ℓ fun _ ℓ' => J (i + 1) ℓ')
    (start : J lo ℓ) : (Prog.loop f lo n).Follows P p ℓ fun _ ℓ' => J (lo + n) ℓ' := by
  induction n generalizing lo ℓ with
  | zero => exact start
  | succ n ih =>
    refine (body lo ℓ (Nat.le_refl lo) (by omega) start).bind fun _ ℓ' hJ => ?_
    have rest := ih (fun i ℓ'' (lower : lo + 1 ≤ i) upper hi =>
      body i ℓ'' (by omega) (by omega) hi) hJ
    rwa [Nat.add_right_comm] at rest

theorem Follows.lift {T : Sig} {M : Type} {P' : Protocol T M} {f : (o : S.Op) → Prog T (S.Res o)}
    {R : L → M → Prop}
    (ops : ∀ o ℓ m, P.Allowed p ℓ o → R ℓ m →
      (f o).Follows P' p m fun r m' => ∃ ℓ', P.Next p ℓ o r ℓ' ∧ R ℓ' m')
    {m : M} (hx : x.Follows P p ℓ Q) (rel : R ℓ m) :
    (x.lift f).Follows P' p m fun a m' => ∃ ℓ', Q a ℓ' ∧ R ℓ' m' := by
  induction x generalizing ℓ m with
  | ret a => exact ⟨ℓ, hx, rel⟩
  | op o k ih =>
    refine (ops o ℓ m hx.1 rel).bind ?_
    rintro r m' ⟨ℓ', next, rel'⟩
    exact ih r (hx.2 r ℓ' next) rel'

theorem Follows.prod {M : Type} {P' : Protocol S M} {m : M} {Q' : α → M → Prop} (hx : x.Follows P p ℓ Q)
    (hx' : x.Follows P' p m Q') : x.Follows (P.prod P') p (ℓ, m) fun a n => Q a n.1 ∧ Q' a n.2 := by
  induction x generalizing ℓ m with
  | ret a => exact ⟨hx, hx'⟩
  | op o k ih =>
    exact ⟨⟨hx.1, hx'.1⟩, fun r n next => ih r (hx.2 r n.1 next.1) (hx'.2 r n.2 next.2)⟩

theorem Follows.inserts {C : Type} {next : C → S.Op → C} {Here : C → Prop} {z : Prog S Unit}
    {J : C → L → Prop} {c : C} {y : Prog S α}
    (keep : ∀ c ℓ o r ℓ', J c ℓ → P.Allowed p ℓ o → P.Next p ℓ o r ℓ' → J (next c o) ℓ')
    (back : ∀ c ℓ, J c ℓ → Here c → z.Follows P p ℓ fun _ ℓ' => ℓ' = ℓ)
    (inserts : Inserts next Here z c x y) (hx : x.Follows P p ℓ Q) (start : J c ℓ) :
    y.Follows P p ℓ Q := by
  induction inserts generalizing ℓ with
  | ret a => exact hx
  | op rest ih => exact ⟨hx.1, fun r ℓ' after => ih r (hx.2 r ℓ' after) (keep _ _ _ r ℓ' start hx.1 after)⟩
  | insert here rest ih =>
    refine (back _ ℓ start here).bind ?_
    rintro _ _ rfl
    exact ih hx start

/-- A program that follows a protocol is safe for the invariants that the protocol keeps. -/
theorem Follows.safe {h : ℕ → Handler S σ ε} {G : (ℕ → L) → σ → Prop} {A : ε → Prop}
    (keeps : P.Keeps h G A) (hx : x.Follows P p ℓ Q) : x.Safe h G A p ℓ Q := by
  induction x generalizing ℓ with
  | ret a => exact hx
  | op o k ih =>
    intro ls s hG hp
    subst hp
    have post := keeps ls s p o hG hx.1
    cases hs : h p o s with
    | ok q =>
      rw [hs] at post
      obtain ⟨ℓ', next, hG'⟩ := post
      exact ⟨ℓ', hG', ih q.1 (hx.2 q.1 ℓ' next)⟩
    | error e =>
      rw [hs] at post
      cases e with
      | blocked => trivial
      | panic e => exact post

end Prog

namespace Conf

variable {S : Sig} {L σ ε : Type} {P : Protocol S L} {h : ℕ → Handler S σ ε}
  {Start : ℕ → σ → Prog S Unit → Prop} {G : (ℕ → L) → σ → Prop} {A : ε → Prop} {Idle : L → Prop}

/-- The state has the invariant for some ghost values, and what every process still has to do follows
the protocol from its ghost value. -/
def Obeys (P : Protocol S L) (G : (ℕ → L) → σ → Prop) (Idle : L → Prop) (c : Conf S σ) : Prop :=
  ∃ ls, G ls c.state ∧ ∀ p, (c.prog p).elim (Idle (ls p)) fun x =>
    x.Follows P p (ls p) fun _ ℓ => Idle ℓ

theorem Obeys.inv (keeps : P.Keeps h G A) {c : Conf S σ} (obeys : Obeys P G Idle c) :
    Inv h G A Idle c := by
  obtain ⟨ls, hG, ready⟩ := obeys
  refine ⟨ls, hG, fun p => ?_⟩
  have hp := ready p
  cases hx : c.prog p with
  | none =>
    rw [hx] at hp
    exact hp
  | some x =>
    rw [hx] at hp
    exact Prog.Follows.safe keeps hp

theorem Obeys.reachable (keeps : P.Keeps h G A)
    (entry : ∀ ls s p body, G ls s → Idle (ls p) → Start p s body →
      ∃ ℓ, G (Function.update ls p ℓ) s ∧ body.Follows P p ℓ fun _ ℓ' => Idle ℓ')
    {c c' : Conf S σ} (obeys : Obeys P G Idle c) (run : Reachable h Start c c') :
    Obeys P G Idle c' := by
  have update {ls : ℕ → L} {progs : ℕ → Option (Prog S Unit)} {p : ℕ} {ℓ : L}
      {x : Option (Prog S Unit)}
      (others : ∀ q, (progs q).elim (Idle (ls q)) fun x => x.Follows P q (ls q) fun _ ℓ => Idle ℓ)
      (mine : x.elim (Idle ℓ) fun x => x.Follows P p ℓ fun _ ℓ => Idle ℓ) (q : ℕ) :
      (Function.update progs p x q).elim (Idle (Function.update ls p ℓ q)) fun x =>
        x.Follows P q (Function.update ls p ℓ q) fun _ ℓ => Idle ℓ := by
    by_cases hq : q = p
    · subst hq
      rwa [Function.update_self, Function.update_self]
    · rw [Function.update_of_ne hq, Function.update_of_ne hq]
      exact others q
  induction run with
  | refl => exact obeys
  | tail _ step ih =>
    obtain ⟨ls, hG, ready⟩ := ih
    cases step with
    | @start p body idle admitted =>
      have hp := ready p
      rw [idle] at hp
      obtain ⟨ℓ, hG', follows⟩ := entry ls _ p body hG hp admitted
      exact ⟨_, hG', update ready follows⟩
    | @op p o k r s running done =>
      have hp := ready p
      rw [running] at hp
      have post := keeps ls _ p o hG hp.1
      rw [done] at post
      obtain ⟨ℓ, next, hG'⟩ := post
      exact ⟨_, hG', update ready (hp.2 r ℓ next)⟩
    | @finish p returned =>
      have hp := ready p
      rw [returned] at hp
      exact ⟨Function.update ls p (ls p), by rwa [Function.update_eq_self], update ready hp⟩

theorem Inv.follows (keeps : P.Keeps h G A)
    (entry : ∀ ls s p body, G ls s → Idle (ls p) → Start p s body →
      ∃ ℓ, G (Function.update ls p ℓ) s ∧ body.Follows P p ℓ fun _ ℓ' => Idle ℓ')
    {c c' : Conf S σ} (inv : Inv h G A Idle c) (run : Reachable h Start c c') :
    Inv h G A Idle c' := by
  refine inv.reachable (fun ls s p body hG idle start => ?_) run
  obtain ⟨ℓ, hG', follows⟩ := entry ls s p body hG idle start
  exact ⟨ℓ, hG', follows.safe keeps⟩

end Conf
