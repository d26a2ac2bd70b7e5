import Xv6.Lib.Heap
import Xv6.Lib.Protocol

/-!
# Programs on owned memory

Assertions about heaps, and the frame rule for protocols whose operations touch only what the process
owns.
-/

abbrev Assertion (α : Type) := Heap α → Prop

namespace Assertion

variable {α : Type} {A A' B B' : Assertion α} {h : Heap α}

/-- One part of the heap satisfies `A` and the rest of it `B`. -/
def Star (A B : Assertion α) : Assertion α := fun h =>
  ∃ f g, f.Apart g ∧ h = f.join g ∧ A f ∧ B g

theorem Star.mono (left : ∀ h, A h → A' h) (right : ∀ h, B h → B' h) (both : Star A B h) :
    Star A' B' h := by
  obtain ⟨f, g, apart, rfl, ha, hb⟩ := both
  exact ⟨f, g, apart, rfl, left f ha, right g hb⟩

theorem Star.mono_left (left : ∀ h, A h → A' h) (both : Star A B h) : Star A' B h :=
  both.mono left fun _ hb => hb

end Assertion

open Assertion (Star)

/-- The operations touch only what the process owns. -/
structure Protocol.Local {S : Sig} {α : Type} (P : Protocol S (Heap α)) : Prop where
  allowed : ∀ p h f o, h.Apart f → P.Allowed p h o → P.Allowed p (h.join f) o
  next : ∀ p h f o r h', h.Apart f → P.Allowed p h o → P.Next p (h.join f) o r h' →
    ∃ k, k.Apart f ∧ h' = k.join f ∧ P.Next p h o r k

namespace Prog

variable {S : Sig} {α β γ : Type} {P : Protocol S (Heap γ)} {p : ℕ} {h f : Heap γ}

theorem Follows.frame (loc : P.Local) {x : Prog S α} {Q : α → Heap γ → Prop} (hx : x.Follows P p h Q)
    (apart : h.Apart f) : x.Follows P p (h.join f) fun a => Star (Q a) (· = f) := by
  induction x generalizing h with
  | ret a => exact ⟨h, f, apart, rfl, hx, rfl⟩
  | op o k ih =>
    refine ⟨loc.allowed p h f o apart hx.1, fun r h' next => ?_⟩
    obtain ⟨h₁, apart', rfl, next'⟩ := loc.next p h f o r h' apart hx.1 next
    exact ih r (hx.2 r h₁ next') apart'

end Prog
