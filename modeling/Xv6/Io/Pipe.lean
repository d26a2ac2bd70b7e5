import Xv6.Io.Console
import Xv6.Io.UserMem

/-!
# Readers that lose input

`piperead` and `consoleread` take a byte out of the buffer before they copy it to user memory.  A call
loses no input exactly if every byte that it takes can be stored and, at the console, it is not killed
with a part of its bytes.
-/

namespace Xv6.Io

open Vm Option List

open Proc (Cons Pipe)

/-! ## The code -/

/-- Where a call of `piperead` ends: the pipe, the bytes taken out of it and those stored in user
memory, and the result unless it sleeps. -/
structure PipeCall where
  pipe : Pipe
  taken : List Byte
  stored : List Byte
  ret : Option ℤ

/-- The copy loop of `piperead` from byte `i` on, when `n` bytes are left.  `ok i` says whether
`copyout` of byte `i` succeeds. -/
def pipeCopy (ok : ℕ → Bool) : (n i : ℕ) → Pipe → PipeCall
  | 0, i, p => ⟨p, [], [], some i⟩
  | n + 1, i, p =>
      if p.Empty then ⟨p, [], [], some i⟩
      else
        let ch := p.front
        let p := { p with nread := p.nread + 1 }
        if ok i then
          let x := pipeCopy ok n (i + 1) p
          { x with taken := ch :: x.taken, stored := ch :: x.stored }
        else ⟨p, [ch], [], some i⟩

/-- A call of `piperead`.  When it waits, it finds itself killed, or it sleeps and finds another pipe.
-/
def piperead (ok : ℕ → Bool) (n : BitVec 32) : List (Option Pipe) → Pipe → PipeCall
  | wakes, p =>
      if p.Empty ∧ p.writeopen then
        match wakes with
        | [] => ⟨p, [], [], none⟩
        | none :: _ => ⟨p, [], [], some (-1)⟩
        | some p' :: wakes => piperead ok n wakes p'
      else pipeCopy ok n.toInt.toNat 0 p

/-! ## What a call finds -/

def fill (p : Pipe) : ℕ := (p.nwrite - p.nread).toNat

/-- The bytes in the pipe. -/
def inside (p : Pipe) : List Byte := ringCells Proc.PIPESIZE p.data p.nread p.nwrite

/-- The number of bytes in the pipe when the wait of `piperead` ends, none if it does not end. -/
def ready : List (Option Pipe) → Pipe → ℕ
  | wakes, p =>
      if p.Empty ∧ p.writeopen then
        match wakes with
        | [] | none :: _ => 0
        | some p' :: wakes => ready wakes p'
      else fill p

/-- The bytes that a call has removed are those that it has stored, and their number is its result,
where -1 counts as 0. -/
def Lossless (removed stored : List Byte) (r : ℤ) : Prop :=
  removed = stored ∧ (stored.length : ℤ) = max r 0

/-! ## The pipe -/

theorem fill_eq_zero {p : Pipe} (empty : p.Empty) : fill p = 0 := by
  rw [fill, show p.nread = p.nwrite from empty, BitVec.sub_self]
  rfl

theorem fill_succ {p : Pipe} (some : ¬ p.Empty) : fill p = fill { p with nread := p.nread + 1 } + 1 :=
  toNat_sub_succ some

section

variable {ok : ℕ → Bool}

/-- A call of `piperead` waits in vain or copies from the pipe that it finds at the end of its wait. -/
theorem piperead_cases (ok : ℕ → Bool) (n : BitVec 32) (wakes : List (Option Pipe)) (p : Pipe) :
    (∃ p', ready wakes p = fill p' ∧ piperead ok n wakes p = pipeCopy ok n.toInt.toNat 0 p') ∨
    ready wakes p = 0 ∧ ∃ p' ret, piperead ok n wakes p = ⟨p', [], [], ret⟩ ∧
      (ret = none ∨ ret = some (-1)) := by
  induction wakes generalizing p with
  | nil =>
    rw [piperead, ready]
    split_ifs
    · exact .inr ⟨rfl, p, none, rfl, .inl rfl⟩
    · exact .inl ⟨p, rfl, rfl⟩
  | cons wake wakes ih =>
    rw [piperead.eq_def, ready.eq_def]
    dsimp only
    split_ifs
    · cases wake with
      | none => exact .inr ⟨rfl, p, some (-1), rfl, .inr rfl⟩
      | some p' => exact ih p'
    · exact .inl ⟨p, rfl, rfl⟩

theorem pipeCopy_succ (n i : ℕ) (p : Pipe) : pipeCopy ok (n + 1) i p =
    if p.Empty then ⟨p, [], [], some i⟩
    else if ok i then
      let x := pipeCopy ok n (i + 1) { p with nread := p.nread + 1 }
      { x with taken := p.front :: x.taken, stored := p.front :: x.stored }
    else ⟨{ p with nread := p.nread + 1 }, [p.front], [], some i⟩ :=
  rfl

/-- What `piperead` takes is what `nread` advances over. -/
theorem pipeCopy_removes (n i : ℕ) (p : Pipe) :
    let x := pipeCopy ok n i p
    inside p = x.taken ++ inside x.pipe ∧
      x.pipe = { p with nread := p.nread + BitVec.ofNat 32 x.taken.length } := by
  have nothing (p : Pipe) : p = { p with nread := p.nread + BitVec.ofNat 32 ([] : List Byte).length } := by
    rw [show p.nread + BitVec.ofNat 32 ([] : List Byte).length = p.nread from BitVec.add_zero _]
  induction n generalizing i p with
  | zero => exact ⟨rfl, nothing p⟩
  | succ n ih =>
    rw [pipeCopy_succ]
    split_ifs with empty
    · exact ⟨rfl, nothing p⟩
    · obtain ⟨rest, advanced⟩ := ih (i + 1) { p with nread := p.nread + 1 }
      refine ⟨(ringCells_cons empty).trans (congrArg _ rest), advanced.trans ?_⟩
      rw [length_cons, add_ofNat_succ]
    · exact ⟨ringCells_cons empty, rfl⟩

theorem pipeCopy_ret (n i : ℕ) (p : Pipe) :
    (pipeCopy ok n i p).ret = some ((i + (pipeCopy ok n i p).stored.length : ℕ) : ℤ) := by
  induction n generalizing i p with
  | zero => rfl
  | succ n ih =>
    rw [pipeCopy_succ]
    split_ifs
    · rfl
    · dsimp only
      rw [ih, length_cons, add_assoc, add_comm 1]
    · rfl

theorem pipeCopy_reached (ok : ℕ → Bool) (n i : ℕ) (p : Pipe) :
    (pipeCopy ok n i p).stored.length ≤ n ∧
      ∀ j < (pipeCopy ok n i p).stored.length, ok (i + j) = true := by
  have nothing (n : ℕ) : ([] : List Byte).length ≤ n ∧
      ∀ j < ([] : List Byte).length, ok (i + j) = true :=
    ⟨zero_le, fun j hj => absurd hj (Nat.not_lt_zero j)⟩
  induction n generalizing i p with
  | zero => exact nothing 0
  | succ n ih =>
    rw [pipeCopy_succ]
    split_ifs with empty fits
    · exact nothing (n + 1)
    · obtain ⟨few, reached⟩ := ih (i + 1) { p with nread := p.nread + 1 }
        fun n => ⟨zero_le, fun j hj => absurd hj (Nat.not_lt_zero j)⟩
      refine ⟨Nat.succ_le_succ few, fun j hj => ?_⟩
      cases j with
      | zero => exact fits
      | succ j =>
        rw [add_comm j 1, ← add_assoc]
        exact reached j (Nat.lt_of_succ_lt_succ hj)
    · exact nothing (n + 1)

theorem pipeCopy_exact (n i : ℕ) (p : Pipe) (all : ∀ j < min n (fill p), ok (i + j) = true) :
    (pipeCopy ok n i p).taken = (pipeCopy ok n i p).stored := by
  induction n generalizing i p with
  | zero => rfl
  | succ n ih =>
    rw [pipeCopy_succ]
    by_cases empty : p.Empty
    · rw [if_pos empty]
    rw [fill_succ empty] at all
    have first : ok i = true := all 0 (by omega)
    have rest := ih (i + 1) { p with nread := p.nread + 1 } fun j hj => by
      rw [add_assoc, add_comm 1]
      exact all (j + 1) (by omega)
    rw [if_neg empty, if_pos first]
    exact congrArg _ rest

theorem pipeCopy_lossy (ok : ℕ → Bool) (n i : ℕ) (p : Pipe)
    (fault : ∃ j < min n (fill p), ok (i + j) = false) :
    (pipeCopy ok n i p).taken.length = (pipeCopy ok n i p).stored.length + 1 := by
  induction n generalizing i p with
  | zero =>
    obtain ⟨j, hj, -⟩ := fault
    omega
  | succ n ih =>
    obtain ⟨j, hj, bad⟩ := fault
    rw [pipeCopy_succ]
    by_cases empty : p.Empty
    · rw [fill_eq_zero empty] at hj
      omega
    rw [if_neg empty]
    cases first : ok i with
    | false => rfl
    | true =>
      rw [fill_succ empty] at hj
      have later : j ≠ 0 := by
        rintro rfl
        rw [add_zero, first] at bad
        cases bad
      have rest := ih (i + 1) { p with nread := p.nread + 1 } ⟨j - 1, by omega, by
        rwa [show i + 1 + (j - 1) = i + j by omega]⟩
      exact congrArg (· + 1) rest

/-- A call of `piperead` that returns loses nothing if and only if all the bytes that it can take can be
stored. -/
theorem piperead_lossless_iff {n : BitVec 32} (wakes : List (Option Pipe)) (p : Pipe) {r : ℤ}
    (returns : (piperead ok n wakes p).ret = some r) :
    Lossless (piperead ok n wakes p).taken (piperead ok n wakes p).stored r ↔
      ∀ i < min n.toInt.toNat (ready wakes p), ok i = true := by
  rcases piperead_cases ok n wakes p with ⟨p', found, copies⟩ | ⟨found, p', ret, ends, vain⟩
  · rw [copies, pipeCopy_ret, zero_add] at returns
    have value := some.inj returns
    rw [copies, found]
    constructor
    · rintro ⟨same, -⟩ i hi
      by_contra bad
      have lossy := pipeCopy_lossy ok n.toInt.toNat 0 p' ⟨i, hi, by
        rw [zero_add]
        exact Bool.not_eq_true _ ▸ bad⟩
      rw [same] at lossy
      omega
    · intro all
      refine ⟨pipeCopy_exact _ 0 p' fun j hj => ?_, by omega⟩
      rw [zero_add]
      exact all j hj
  · rw [ends] at returns ⊢
    rw [found, Nat.min_zero]
    refine iff_of_true ⟨rfl, ?_⟩ fun i hi => absurd hi (Nat.not_lt_zero i)
    rcases vain with rfl | rfl
    · cases returns
    · obtain rfl := some.inj returns
      rfl

/-! ## The console -/

/-- A call of `consoleread` that returns loses nothing if and only if all the bytes that it can take can
be stored, and it has got no bytes if it is killed. -/
theorem readCall_lossless_iff (wakes : List (Option Cons)) (n : ℕ) (s : Cons) {r : ℤ}
    (returns : (readCall ok n wakes n s [] []).ret = some r) :
    Lossless (dropEof (readCall ok n wakes n s [] []).taken) (readCall ok n wakes n s [] []).stored r ↔
      (∀ i < (offered wakes n s).1.length, ok i = true) ∧
        ((offered wakes n s).2 = .killed → (offered wakes n s).1 = []) := by
  have count : ([] : List Byte).length + n = n := zero_add n
  have outcome := readCall_outcome ok wakes n s count (show dropEof [] = [] from rfl)
    fun i hi => absurd hi (Nat.not_lt_zero i)
  by_cases all : ∀ i < (offered wakes n s).1.length, ok i = true
  · obtain ⟨stores, same, ret⟩ := outcome.all fun i hi => by
      rw [length_nil, zero_add]
      exact all i hi
    rw [nil_append] at stores
    rw [Lossless, stores] at *
    rw [returns] at ret
    cases ending : (offered wakes n s).2 with
    | complete =>
      rw [ending] at ret
      have value := some.inj ret
      exact iff_of_true ⟨same, by omega⟩ ⟨all, nofun⟩
    | killed =>
      rw [ending] at ret
      have value := some.inj ret
      subst value
      constructor
      · rintro ⟨-, size⟩
        refine ⟨all, fun _ => length_eq_zero_iff.mp ?_⟩
        omega
      · rintro ⟨-, none⟩
        refine ⟨same, ?_⟩
        rw [none rfl]
        rfl
    | asleep =>
      rw [ending] at ret
      cases ret
  · refine iff_of_false ?_ fun both => all both.1
    simp only [not_forall] at all
    obtain ⟨i, hi, bad⟩ := all
    obtain ⟨lossy, -⟩ := outcome.lossy ⟨i, hi, by
      rw [length_nil, zero_add]
      exact Bool.not_eq_true _ ▸ bad⟩
    rintro ⟨same, -⟩
    rw [same] at lossy
    omega

theorem offered_zero (wakes : List (Option Cons)) (s : Cons) : offered wakes 0 s = ([], .complete) := by
  match wakes with
  | [] | none :: _ | some _ :: _ => rfl

theorem consoleread_lossless_iff (wakes : List (Option Cons)) (n : BitVec 32) (s : Cons) {r : ℤ}
    (returns : (consoleread ok wakes n s).ret = some r) :
    Lossless (dropEof (consoleread ok wakes n s).taken) (consoleread ok wakes n s).stored r ↔
      (∀ i < (offered wakes n.toInt.toNat s).1.length, ok i = true) ∧
        ((offered wakes n.toInt.toNat s).2 = .killed → (offered wakes n.toInt.toNat s).1 = []) := by
  rw [consoleread] at returns ⊢
  split_ifs at returns ⊢ with pos
  · have same : n.toInt.toNat = n.toNat := by
      rw [BitVec.toInt_eq_toNat_cond] at pos ⊢
      split_ifs at pos ⊢ <;> omega
    rw [same]
    exact readCall_lossless_iff wakes n.toNat s returns
  · obtain rfl : (0 : ℤ) = r := some.inj returns
    rw [show n.toInt.toNat = 0 by omega, offered_zero]
    refine iff_of_true ⟨rfl, rfl⟩ ⟨fun i hi => absurd hi (Nat.not_lt_zero i), nofun⟩

end

/-! ## Every call -/

/-- A call of `piperead` or `consoleread` loses no input if and only if every byte that is there for it
has a destination that is mapped, and, at the console, it has got no bytes if it is killed while it
waits. -/
theorem reads_lossless_iff (t : Table) (dst : BitVec 64) (n : BitVec 32) :
    (∀ wakes p r, (piperead (reach t dst) n wakes p).ret = some r →
      (Lossless (piperead (reach t dst) n wakes p).taken (piperead (reach t dst) n wakes p).stored r ↔
        ∀ i < min n.toInt.toNat (ready wakes p), reach t dst i = true)) ∧
    ∀ wakes s r, (consoleread (reach t dst) wakes n s).ret = some r →
      (Lossless (dropEof (consoleread (reach t dst) wakes n s).taken)
          (consoleread (reach t dst) wakes n s).stored r ↔
        (∀ i < (offered wakes n.toInt.toNat s).1.length, reach t dst i = true) ∧
          ((offered wakes n.toInt.toNat s).2 = .killed → (offered wakes n.toInt.toNat s).1 = [])) :=
  ⟨fun wakes p _ returns => piperead_lossless_iff wakes p returns,
    fun wakes s _ returns => consoleread_lossless_iff wakes n s returns⟩

def onePipe : Pipe := ⟨fun _ => ch 'x', 0, 1, true, true⟩

def oneCons : Cons := ⟨fun _ => ch 'x', 0, 1, 1⟩

theorem onePipe_starts : ¬(onePipe.Empty ∧ onePipe.writeopen) := by decide

theorem reach_textTable (dst : BitVec 64) : reach textTable dst 0 = decide (dst.toNat < Vm.PGSIZE) := by
  rw [reach, BitVec.add_zero, decide_eq_decide, textTable_accessible, Nat.div_eq_zero_iff]
  simp [Vm.PGSIZE]

/-- One byte is read from the pipe to the address 0. -/
theorem piperead_one : Lossless (piperead (reach textTable 0) 1 [] onePipe).taken
    (piperead (reach textTable 0) 1 [] onePipe).stored 1 := by
  have first : reach textTable 0 0 = true := reach_textTable 0
  refine ((reads_lossless_iff textTable 0 1).1 [] onePipe 1 ?_).mpr fun i hi => ?_
  · rw [piperead, if_neg onePipe_starts, show (1 : BitVec 32).toInt.toNat = 0 + 1 from rfl, pipeCopy_succ,
      if_neg (by decide), if_pos first]
    rfl
  · obtain rfl : i = 0 := Nat.lt_one_iff.mp (lt_of_lt_of_le hi (min_le_left _ _))
    exact first

/-- A read from a pipe with one byte to the address `0xffffffffffffffff` removes the byte and returns
0, and so does a read from the console. -/
theorem reads_lose_byte :
    (piperead (reach textTable (-1)) 1 [] onePipe).ret = some 0 ∧
    ¬ Lossless (piperead (reach textTable (-1)) 1 [] onePipe).taken
      (piperead (reach textTable (-1)) 1 [] onePipe).stored 0 ∧
    (consoleread (reach textTable (-1)) [] 1 oneCons).ret = some 0 ∧
    ¬ Lossless (dropEof (consoleread (reach textTable (-1)) [] 1 oneCons).taken)
      (consoleread (reach textTable (-1)) [] 1 oneCons).stored 0 := by
  have fault : reach textTable (-1) 0 = false := reach_textTable (-1)
  have pipe : piperead (reach textTable (-1)) 1 [] onePipe =
      ⟨{ onePipe with nread := 1 }, [ch 'x'], [], some 0⟩ := by
    rw [piperead, if_neg onePipe_starts, show (1 : BitVec 32).toInt.toNat = 0 + 1 from rfl, pipeCopy_succ,
      if_neg (by decide), if_neg (by rw [fault]; nofun)]
    rfl
  have cons : consoleread (reach textTable (-1)) [] 1 oneCons =
      ⟨{ oneCons with r := 1 }, [ch 'x'], [], some 0, 1⟩ := by
    rw [consoleread, if_pos (by decide), readCall]
    exact readLoop_fault (by decide) (by decide) fault [] []
  rw [pipe, cons]
  exact ⟨rfl, fun lossless => absurd lossless.1 (by decide), rfl,
    fun lossless => absurd lossless.1 (by decide)⟩

end Xv6.Io
