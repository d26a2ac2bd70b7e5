import Xv6.Io.Pipe
import Xv6.Proc.Prog

/-!
# The readers among the processes

`piperead` and `consoleread` are modelled twice: with the bytes that they move, and as programs of
interleaved processes that sleep and wake each other.  Between two sleeps, both do the same.
-/

namespace Xv6.Io

open Proc State


variable {N p : ℕ} {care : Care} {s : State} {ok : ℕ → Bool}

/-- The copies from number `i` on succeed as the answers of `attempt` say. -/
def Answers (ok : ℕ → Bool) (i : ℕ) (oracle : List Bool) : Prop :=
  ∀ j, ok (i + j) = (oracle.drop j).headD true

theorem Answers.tail {i : ℕ} {oracle : List Bool} (answers : Answers ok i oracle) :
    Answers ok (i + 1) oracle.tail := by
  intro j
  rw [add_assoc, add_comm 1, answers, List.drop_tail]

/-- After a byte has been taken out of the pipe and an answer of `attempt` has been used. -/
def took (s : State) : State :=
  { s.asked with
    pipe := { s.pipe with nread := s.pipe.nread + 1 }
    taken := s.taken ++ [s.pipe.front] }

theorem pipereadCopy_succ {n i : ℕ} (some : ¬ s.pipe.Empty) :
    (pipereadCopy (n + 1) i).run (exec N care p) s =
      (if s.lucky then pipereadCopy n (i + 1) else pure i).run (exec N care p) (took s) := by
  rw [pipereadCopy]
  change Prog.run _ (if decide s.pipe.Empty = true then _ else _) s = _
  rw [if_neg (by simpa using some)]
  rfl

/-- The copy loop of `piperead` takes, stores and returns the same in both models. -/
theorem pipereadCopy_run (n i : ℕ) (s : State) (answers : Answers ok i s.oracle) :
    ∃ oracle, (pipereadCopy n i).run (exec N care p) s =
      (.ok (i + (pipeCopy ok n i s.pipe).stored.length), { s with
          pipe := (pipeCopy ok n i s.pipe).pipe
          taken := s.taken ++ (pipeCopy ok n i s.pipe).taken
          oracle := oracle }) := by
  induction n generalizing i s with
  | zero =>
    refine ⟨s.oracle, ?_⟩
    rw [pipeCopy, List.append_nil]
    rfl
  | succ n ih =>
    by_cases empty : s.pipe.Empty
    · refine ⟨s.oracle, ?_⟩
      rw [pipeCopy_succ, if_pos empty, List.append_nil, pipereadCopy]
      change Prog.run _ (if decide s.pipe.Empty = true then _ else _) s = _
      rw [if_pos (by simpa using empty)]
      rfl
    have lucky : s.lucky = ok i := (answers 0).symm
    rw [pipereadCopy_succ empty, pipeCopy_succ, if_neg empty, lucky]
    split_ifs with fits
    · obtain ⟨oracle, rest⟩ := ih (i + 1) (took s) answers.tail
      refine ⟨oracle, rest.trans ?_⟩
      rw [add_assoc, add_comm 1, show (took s).taken = s.taken ++ [s.pipe.front] from rfl,
        List.append_assoc]
      rfl
    · exact ⟨s.oracle.tail, rfl⟩

/-- The end of `piperead`. -/
def pipeEnd (N p : ℕ) (r : ℤ) : Proc.PProg ℤ := do
  wakeup N p .nwrite
  release .pipe
  pure r

theorem pipereadEnd_run (n : ℕ) (answers : Answers ok 0 s.oracle) :
    ∃ oracle r, (pipeCopy ok n 0 s.pipe).ret = some r ∧
      (pipereadEnd N p n).run (exec N care p) s =
        (pipeEnd N p r).run (exec N care p) { s with
          pipe := (pipeCopy ok n 0 s.pipe).pipe
          taken := s.taken ++ (pipeCopy ok n 0 s.pipe).taken
          oracle := oracle } := by
  obtain ⟨oracle, copies⟩ := @pipereadCopy_run N p care ok n 0 s answers
  refine ⟨oracle, _, pipeCopy_ret n 0 s.pipe, ?_⟩
  rw [pipereadEnd, Prog.run_bind, copies]
  rfl

/-- A call of `piperead` that need not wait. -/
theorem piperead_run {n : BitVec 32} (k : ℕ) (ready : ¬(s.pipe.Empty ∧ s.pipe.writeopen))
    (answers : Answers ok 0 s.oracle) :
    ∃ oracle r, (piperead ok n [] s.pipe).ret = some r ∧
      (pipereadLoop N p n.toInt.toNat (k + 1)).run (exec N care p) s =
        (pipeEnd N p r).run (exec N care p) { s with
          pipe := (piperead ok n [] s.pipe).pipe
          taken := s.taken ++ (piperead ok n [] s.pipe).taken
          oracle := oracle } := by
  have loop : (pipereadLoop N p n.toInt.toNat (k + 1)).run (exec N care p) s =
      (pipereadEnd N p n.toInt.toNat).run (exec N care p) s := by
    rw [pipereadLoop]
    change Prog.run _ (if decide s.pipe.Empty = true then _ else _) s = _
    split_ifs with empty
    · change Prog.run _ (if s.pipe.writeopen = true then _ else _) s = _
      rw [if_neg fun writeopen => ready ⟨of_decide_eq_true empty, writeopen⟩]
    · rfl
  rw [loop, piperead, if_neg ready]
  exact pipereadEnd_run _ answers

/-! ## The console -/

section

variable {target k n : ℕ} (some' : s.cons.r ≠ s.cons.w)

include some'

theorem consolereadLoop_eof (eof : cell s.cons s.cons.r = ctrl 'D') :
    (consolereadLoop p target (k + 1) (n + 1)).run (exec N care p) s =
      (if n + 1 < target then do
          Proc.atomic .consUntake
          consolereadEnd target (n + 1)
        else consolereadEnd target (n + 1)).run (exec N care p)
        { s with cons := { s.cons with r := s.cons.r + 1 } } := by
  rw [consolereadLoop]
  change Prog.run _ (if decide (s.cons.r = s.cons.w) = true then _ else _) s = _
  rw [if_neg (by simpa using some')]
  change Prog.run _ (if cell s.cons s.cons.r = ctrl 'D' then _ else _) _ = _
  rw [if_pos eof]

theorem consolereadLoop_data (data : cell s.cons s.cons.r ≠ ctrl 'D') :
    (consolereadLoop p target (k + 1) (n + 1)).run (exec N care p) s =
      (if s.lucky then
        if cell s.cons s.cons.r = ch '\n' then consolereadEnd target n
        else consolereadLoop p target k n
      else consolereadEnd target (n + 1)).run (exec N care p)
        { s.asked with cons := { s.cons with r := s.cons.r + 1 } } := by
  rw [consolereadLoop]
  change Prog.run _ (if decide (s.cons.r = s.cons.w) = true then _ else _) s = _
  rw [if_neg (by simpa using some')]
  change Prog.run _ (if cell s.cons s.cons.r = ctrl 'D' then _ else _) _ = _
  rw [if_neg data]
  rfl

end

/-- A stretch of `consoleread` that returns ends with the same console and the same result in both
models. -/
theorem consolereadLoop_run {target : ℕ} (n : ℕ) {fuel : ℕ} (s : State) (taken stored : List Byte)
    (le : n ≤ target) (enough : n < fuel) (answers : Answers ok (target - n) s.oracle) {r : ℤ}
    (returns : (readLoop ok false target n s.cons taken stored).ret = some r) :
    ∃ oracle, (consolereadLoop p target fuel n).run (exec N care p) s =
      (do release .cons; pure r : Proc.PProg ℤ).run (exec N care p) { s with
        cons := (readLoop ok false target n s.cons taken stored).cons
        oracle := oracle } := by
  obtain ⟨k, rfl⟩ : ∃ k, fuel = k + 1 := ⟨fuel - 1, by omega⟩
  induction n generalizing k s taken stored with
  | zero =>
    cases returns
    refine ⟨s.oracle, ?_⟩
    rw [consolereadLoop, consolereadEnd, Nat.cast_zero, Int.sub_zero]
    rfl
  | succ n ih =>
    by_cases empty : s.cons.r = s.cons.w
    · rw [readLoop_wait empty] at returns
      cases returns
    by_cases eof : cell s.cons s.cons.r = ctrl 'D'
    · rw [consolereadLoop_eof empty eof]
      rw [readLoop_eof empty eof] at returns ⊢
      refine ⟨s.oracle, ?_⟩
      split_ifs at returns ⊢ with begun
      · cases returns
        change Prog.run _ (consolereadEnd target (n + 1))
          { s with cons := { s.cons with r := s.cons.r + 1 - 1 } } = _
        rw [BitVec.add_sub_cancel]
        rfl
      · cases returns
        rfl
    rw [consolereadLoop_data empty eof]
    have lucky : s.lucky = ok (target - (n + 1)) := (answers 0).symm
    cases fits : ok (target - (n + 1)) with
    | false =>
      rw [readLoop_fault empty eof fits] at returns ⊢
      cases returns
      rw [if_neg (by rw [lucky, fits]; exact Bool.false_ne_true)]
      exact ⟨s.oracle.tail, rfl⟩
    | true =>
      rw [readLoop_byte empty eof fits] at returns ⊢
      rw [if_pos (lucky.trans fits)]
      split_ifs at returns ⊢ with newline
      · cases returns
        exact ⟨s.oracle.tail, rfl⟩
      · have next := answers.tail
        rw [show target - (n + 1) + 1 = target - n by omega] at next
        obtain ⟨k, rfl⟩ : ∃ k', k = k' + 1 := ⟨k - 1, by omega⟩
        exact ih _ _ _ (by omega) next returns k (by omega)

end Xv6.Io
