import Mathlib.Logic.Relation
import Xv6.Lib.Ring

/-!
# The transmit buffer of the UART

`uartputc`, `uartstart` and the second half of `uartintr` of `kernel/uart.c`, each of which runs under
`uart_tx_lock`.  The UART interrupts after it has been found busy.
-/

namespace Xv6.Io.Uart

open Function BitVec

abbrev UART_TX_BUF_SIZE : ℕ := 32

/-- The buffer, the processes that sleep on `&uart_tx_r`, whether an interrupt is due, and what has been
put into the buffer and written to `THR`. -/
structure State where
  buf : ℕ → BitVec 8
  w : BitVec 64
  r : BitVec 64
  asleep : ℕ → Bool
  due : Bool
  put : List (BitVec 8)
  sent : List (BitVec 8)

/-- The buffer is empty and nobody sleeps. -/
def init : State := ⟨fun _ => 0, 0, 0, fun _ => false, false, [], []⟩

/-- `uartstart` when `LSR` reads as idle `idle` times in a row and then as busy. -/
def uartstart : (idle : ℕ) → State → State
  | 0, s => if s.w = s.r then s else { s with due := true }
  | idle + 1, s =>
      if s.w = s.r then s
      else uartstart idle { s with
        r := s.r + 1
        asleep := fun _ => false
        sent := s.sent ++ [s.buf (s.r.toNat % UART_TX_BUF_SIZE)] }

/-- One round of the loop of `uartputc`: process `p` sleeps or puts its character. -/
def uartputc (p : ℕ) (c : BitVec 8) (idle : ℕ) (s : State) : State :=
  if s.w = s.r + BitVec.ofNat 64 UART_TX_BUF_SIZE then { s with asleep := update s.asleep p true }
  else uartstart idle { s with
    buf := update s.buf (s.w.toNat % UART_TX_BUF_SIZE) c
    w := s.w + 1
    put := s.put ++ [c] }

def uartintr (idle : ℕ) (s : State) : State := uartstart idle { s with due := false }

/-- A process is in `uartputc`, or the interrupt comes. -/
inductive Step (s : State) : State → Prop
  | putc {p : ℕ} (c : BitVec 8) (idle : ℕ) (awake : s.asleep p = false) :
      Step s (uartputc p c idle s)
  | intr (idle : ℕ) : Step s (uartintr idle s)

/-- The buffer is a ring, sleepers find it full, and an interrupt is due while it has bytes. -/
structure Inv (s : State) : Prop where
  ring : RingOk UART_TX_BUF_SIZE s.buf s.r s.w s.put s.sent
  full : ∀ p, s.asleep p = true → s.w = s.r + BitVec.ofNat 64 UART_TX_BUF_SIZE
  due : s.w ≠ s.r → s.due = true

variable {s s' : State}

theorem uartstart_inv (idle : ℕ) (ring : RingOk UART_TX_BUF_SIZE s.buf s.r s.w s.put s.sent)
    (full : ∀ p, s.asleep p = true → s.w = s.r + BitVec.ofNat 64 UART_TX_BUF_SIZE) :
    Inv (uartstart idle s) := by
  induction idle generalizing s with
  | zero =>
    rw [uartstart]
    split
    case isTrue empty => exact ⟨ring, full, fun some => absurd empty some⟩
    case isFalse => exact ⟨ring, full, fun _ => rfl⟩
  | succ idle ih =>
    rw [uartstart]
    split
    case isTrue empty => exact ⟨ring, full, fun some => absurd empty some⟩
    case isFalse some =>
      refine ih (ring.take (by decide) (ring.some (Ne.symm some))) fun p asleep => ?_
      cases asleep

theorem Inv.step (inv : Inv s) (step : Step s s') : Inv s' := by
  cases step with
  | putc c idle awake =>
    rw [uartputc]
    split
    case isTrue full => exact ⟨inv.ring, fun _ _ => full, inv.due⟩
    case isFalse room =>
      exact uartstart_inv idle (inv.ring.store (by decide) (inv.ring.room room) c) fun p asleep =>
        absurd (inv.full p asleep) room
  | intr idle => exact uartstart_inv idle inv.ring inv.full

/-- In every interleaving the characters go out in the order in which they were put, at most 32 wait, a
writer sleeps only while 32 wait, and as long as some wait an interrupt is due. -/
theorem uart_sends_in_order (run : Relation.ReflTransGen Step init s) :
    s.sent <+: s.put ∧ s.put.length ≤ s.sent.length + UART_TX_BUF_SIZE ∧
      (∀ p, s.asleep p = true → s.put.length = s.sent.length + UART_TX_BUF_SIZE) ∧
      (s.sent ≠ s.put → s.due = true) := by
  have inv : Inv s := by
    induction run with
    | refl => exact ⟨.empty _ _, nofun, fun some => absurd rfl some⟩
    | tail _ step ih => exact ih.step step
  have fifo := inv.ring.fifo
  have count := inv.ring.toNat_sub (by decide)
  refine ⟨fifo, inv.ring.bound, fun p asleep => ?_, fun some => inv.due fun empty => some ?_⟩
  · have bound := fifo.length_le
    rw [inv.full p asleep, add_comm, add_sub_cancel, toNat_ofNat,
      Nat.mod_eq_of_lt (by decide)] at count
    omega
  · rw [empty, sub_self] at count
    exact fifo.eq_of_length_le (Nat.le_of_sub_eq_zero count.symm)

theorem uart_sends_in_order_busy : ∃ s, Relation.ReflTransGen Step init s ∧ s.put = [97, 98] ∧
    s.sent = [97] ∧ s.due = true := by
  have run := (Relation.ReflTransGen.single (Step.putc (s := init) (p := 1) 97 1 rfl)).tail
    (.putc (p := 2) 98 0 rfl)
  exact ⟨_, run, rfl, rfl, (uart_sends_in_order run).2.2.2 (by decide)⟩

end Xv6.Io.Uart
