import Mathlib.Tactic.Linarith
import Xv6.Proc.State

/-!
# The guessing game

The two processes of `user/devine.c`, which play over two pipes: the child sends its guesses by binary
search, the parent answers whether they are too high or too low and reports the result.
-/

namespace Xv6.User.Devine

open List

/-! ## The code -/

abbrev Pipe := List Byte

def encode (x : ℤ) : Pipe :=
  (List.range 4).map fun i => (BitVec.ofInt 32 x).extractLsb' (8 * i) 8

/-- What `read(fd, &x, sizeof(x))` finds in the bytes it got, if these are `sizeof(x)` bytes. -/
def decode : Pipe → Option ℤ
  | [a, b, c, d] => some (d ++ c ++ b ++ a : BitVec 32).toInt
  | _ => none

/-- `read`: it waits, or returns what it got and the bytes that are left. -/
def read (p : Pipe) (writable : Bool) : Option (Option ℤ × Pipe) :=
  if p = [] then if writable then none else some (none, [])
  else some (decode (p.take 4), p.drop 4)

/-- `write` stores what fits; the other bytes wait. -/
def write (p rest : Pipe) : Pipe × Pipe :=
  (p ++ rest.take (Proc.PIPESIZE - p.length), rest.drop (Proc.PIPESIZE - p.length))

/-- What the parent prints about a guess, and at the end. -/
inductive Msg where
  | higher (guess : ℤ)
  | lesser (guess : ℤ)
  | found (guess : ℤ) (tries : ℕ)
  | notFound (tries : ℕ)
  deriving DecidableEq

/-- Where a process is; a failed one has called `exit(1)`. -/
inductive Pc where
  | start
  | read
  | write (rest : Pipe)
  | report
  | done
  | fail
  deriving DecidableEq

def Pc.gone : Pc → Bool
  | .done | .fail => true
  | _ => false

/-- The two processes and their pipes. -/
structure State where
  parent : Pc
  child : Pc
  /-- The pipe `p1` from the child to the parent. -/
  p1 : Pipe
  /-- The pipe `p2` from the parent to the child. -/
  p2 : Pipe
  ptries : ℕ
  ctries : ℕ
  feedback : ℤ
  min : ℤ
  max : ℤ
  guess : ℤ
  out : List Msg

def init : State := ⟨.start, .start, [], [], 0, 0, 0, 1, 100, 0, []⟩

section Steps

variable (maxTries : ℕ) (mystery : ℤ) (s : State)

def parentLoop : State := { s with parent := if s.ptries < maxTries then .read else .report }

def childLoop : State :=
  if s.ctries < maxTries then
    let guess := (s.min + s.max).tdiv 2
    { s with child := .write (encode guess), guess := guess, ctries := s.ctries + 1 }
  else { s with child := .done }

/-- 1 if the guess is too high, -1 if it is too low, 0 if it is right. -/
def answer (guess : ℤ) : ℤ := if guess > mystery then 1 else if guess < mystery then -1 else 0

/-- What the parent does with a guess, up to `write`. -/
def judge (guess : ℤ) : State :=
  let tries := s.ptries + 1
  let msg :=
    if guess > mystery then Msg.higher guess
    else if guess < mystery then .lesser guess
    else .found guess tries
  { s with
    parent := .write (encode (answer mystery guess)), ptries := tries
    feedback := answer mystery guess, out := s.out ++ [msg] }

def narrow (feedback : ℤ) : State :=
  if feedback = 1 then childLoop maxTries { s with max := s.guess - 1 }
  else if feedback = -1 then childLoop maxTries { s with min := s.guess + 1 }
  else { s with child := .done }

def stepParent : State :=
  match s.parent with
  | .start => parentLoop maxTries s
  | .read =>
    match read s.p1 (!s.child.gone) with
    | none => s
    | some (none, p) => { s with p1 := p, parent := .fail }
    | some (some guess, p) => judge mystery { s with p1 := p } guess
  | .write rest =>
    if s.child.gone then { s with parent := .fail }
    else
      let (p, rest) := write s.p2 rest
      if rest ≠ [] then { s with p2 := p, parent := .write rest }
      else if s.feedback = 0 then { s with p2 := p, parent := .report }
      else parentLoop maxTries { s with p2 := p }
  | .report =>
    { s with
      parent := .done
      out := if s.ptries = maxTries then s.out ++ [.notFound maxTries] else s.out }
  | .done | .fail => s

def stepChild : State :=
  match s.child with
  | .start => childLoop maxTries s
  | .write rest =>
    if s.parent.gone then { s with child := .fail }
    else
      let (p, rest) := write s.p1 rest
      { s with p1 := p, child := if rest ≠ [] then .write rest else .read }
  | .read =>
    match read s.p2 (!s.parent.gone) with
    | none => s
    | some (none, p) => { s with p2 := p, child := .fail }
    | some (some feedback, p) => narrow maxTries { s with p2 := p } feedback
  | .report | .done | .fail => s

end Steps

def run (maxTries : ℕ) (mystery : ℤ) (s : State) : List Bool → State
  | [] => s
  | true :: sched => run maxTries mystery (stepParent maxTries mystery s) sched
  | false :: sched => run maxTries mystery (stepChild maxTries s) sched

/-! ## Binary search -/

/-- The guesses that binary search needs for `m` in the interval from `lo` to `hi`. -/
def searchSteps (m lo hi : ℤ) : ℕ :=
  if lo ≤ hi then
    if m < (lo + hi) / 2 then 1 + searchSteps m lo ((lo + hi) / 2 - 1)
    else if (lo + hi) / 2 < m then 1 + searchSteps m ((lo + hi) / 2 + 1) hi
    else 1
  else 0
termination_by (hi + 1 - lo).toNat

section Search

variable {m lo hi : ℤ}

theorem searchSteps_pos (ordered : lo ≤ hi) : 1 ≤ searchSteps m lo hi := by
  rw [searchSteps, if_pos ordered]
  split_ifs <;> omega

theorem searchSteps_hit (hit : (lo + hi) / 2 = m) (ordered : lo ≤ hi) : searchSteps m lo hi = 1 := by
  rw [searchSteps, if_pos ordered, if_neg (by omega), if_neg (by omega)]

theorem searchSteps_high (high : m < (lo + hi) / 2) (ordered : lo ≤ hi) :
    searchSteps m lo hi = 1 + searchSteps m lo ((lo + hi) / 2 - 1) := by
  rw [searchSteps, if_pos ordered, if_pos high]

theorem searchSteps_low (low : (lo + hi) / 2 < m) (ordered : lo ≤ hi) :
    searchSteps m lo hi = 1 + searchSteps m ((lo + hi) / 2 + 1) hi := by
  rw [searchSteps, if_pos ordered, if_neg (by omega), if_pos low]

end Search

/-! ## Messages -/

theorem decode_encode {x : ℤ} (lower : -1 ≤ x) (upper : x ≤ 100) : decode (encode x) = some x := by
  have all : ∀ i : Fin 102, decode (encode ((i : ℤ) - 1)) = some ((i : ℤ) - 1) := by decide
  have := all ⟨(x + 1).toNat, by omega⟩
  rwa [show (((⟨(x + 1).toNat, by omega⟩ : Fin 102) : ℕ) : ℤ) - 1 = x by simp; omega] at this

theorem read_encode {x : ℤ} (lower : -1 ≤ x) (upper : x ≤ 100) (open' : Bool) :
    read (encode x) open' = some (some x, []) := by
  rw [← decode_encode lower upper]
  rfl

theorem encode_ne_nil (x : ℤ) : encode x ≠ [] := cons_ne_nil _ _

theorem write_encode (x : ℤ) : write [] (encode x) = (encode x, []) := rfl

theorem answer_range (m g : ℤ) : -1 ≤ answer m g ∧ answer m g ≤ 100 := by
  rw [answer]
  split_ifs <;> decide

theorem answer_eq_zero {m g : ℤ} : answer m g = 0 ↔ g = m := by
  rw [answer]
  split_ifs <;> simp <;> omega

/-! ## The rounds -/

def Found (s : State) : Prop := ∃ g t, Msg.found g t ∈ s.out

def NotFound (s : State) : Prop := ∃ t, Msg.notFound t ∈ s.out

def Finished (s : State) : Prop := s.parent = .done ∧ s.child = .done

/-- The child has made its guess number `ctries` and waits for the answer. -/
structure Round (maxTries : ℕ) (m : ℤ) (s : State) : Prop where
  low : 1 ≤ s.min ∧ s.min ≤ m
  high : m ≤ s.max ∧ s.max ≤ 100
  guess : s.guess = (s.min + s.max) / 2
  small : s.ctries ≤ maxTries
  count : s.ctries + searchSteps m s.min s.max = searchSteps m 1 100 + 1

structure Judged (maxTries : ℕ) (m : ℤ) (s : State) : Prop extends Round maxTries m s where
  child : s.child = .read
  p1 : s.p1 = []
  tries : s.ptries = s.ctries
  feedback : s.feedback = answer m s.guess
  found : Found s ↔ s.guess = m

/-- The stages of the game. -/
inductive Ok (maxTries : ℕ) (m : ℤ) (s : State) : Prop
  | fresh (parent : s.parent = .start ∨ s.parent = .read) (child : s.child = .start)
      (p1 : s.p1 = []) (p2 : s.p2 = []) (tries : s.ptries = 0 ∧ s.ctries = 0)
      (range : s.min = 1 ∧ s.max = 100) (quiet : ¬Found s ∧ ¬NotFound s)
  | sending (parent : s.parent = .start ∨ s.parent = .read) (round : Round maxTries m s)
      (child : s.child = .write (encode s.guess) ∧ s.p1 = [] ∨ s.child = .read ∧ s.p1 = encode s.guess)
      (p2 : s.p2 = []) (tries : s.ptries + 1 = s.ctries) (quiet : ¬Found s ∧ ¬NotFound s)
  | judged (judged : Judged maxTries m s) (parent : s.parent = .write (encode s.feedback))
      (p2 : s.p2 = []) (quiet : ¬NotFound s)
  | answered (judged : Judged maxTries m s) (p2 : s.p2 = encode s.feedback)
      (parent : s.parent = (if s.feedback ≠ 0 ∧ s.ptries < maxTries then .read else .report) ∧
          ¬NotFound s ∨
        s.parent = .done ∧ (s.feedback = 0 ∨ s.ptries = maxTries) ∧
          (NotFound s ↔ s.ptries = maxTries))
  | finished (child : s.child = .done) (low : s.min ≤ m) (high : m ≤ s.max)
      (tries : s.ptries = s.ctries) (found : Found s ↔ searchSteps m 1 100 ≤ maxTries)
      (ends : (Found s ∧ s.ptries = searchSteps m 1 100) ∨ (¬Found s ∧ s.ptries = maxTries))
      (parent : s.parent = .report ∧ ¬NotFound s ∨
        s.parent = .done ∧ (NotFound s ↔ s.ptries = maxTries))

variable {maxTries : ℕ} {m : ℤ} {s : State}

theorem ok_childLoop (low : 1 ≤ s.min ∧ s.min ≤ m) (high : m ≤ s.max ∧ s.max ≤ 100)
    (count : s.ctries + searchSteps m s.min s.max = searchSteps m 1 100) (p1 : s.p1 = [])
    (p2 : s.p2 = []) (tries : s.ptries = s.ctries) (small : s.ctries ≤ maxTries) (quiet : ¬Found s)
    (goes : s.ctries < maxTries → (s.parent = .start ∨ s.parent = .read) ∧ ¬NotFound s)
    (ends : s.ptries = maxTries → s.parent = .report ∧ ¬NotFound s ∨ s.parent = .done ∧ NotFound s) :
    Ok maxTries m (childLoop maxTries s) := by
  have guess : (s.min + s.max).tdiv 2 = (s.min + s.max) / 2 :=
    Int.tdiv_eq_ediv_of_nonneg (by omega)
  rw [childLoop]
  split_ifs with more
  · obtain ⟨parent, silent⟩ := goes more
    refine .sending parent ⟨low, high, guess, more, ?_⟩ (.inl ⟨rfl, p1⟩) p2 ?_ ⟨quiet, silent⟩
    · show s.ctries + 1 + searchSteps m s.min s.max = _
      omega
    · rw [tries]
  · have last : s.ptries = maxTries := by omega
    have pos := searchSteps_pos (m := m) (show s.min ≤ s.max by omega)
    refine .finished rfl low.2 high.1 tries ⟨fun found => absurd found quiet, fun le => ?_⟩
      (.inr ⟨quiet, last⟩) ?_
    · omega
    · exact (ends last).imp_right fun h => ⟨h.1, fun _ => last, fun _ => h.2⟩

theorem ok_stepChild (ok : Ok maxTries m s) (pos : 0 < maxTries) (range : 1 ≤ m ∧ m ≤ 100) :
    Ok maxTries m (stepChild maxTries s) := by
  cases ok with
  | fresh parent child p1 p2 tries start quiet =>
    rw [stepChild, child]
    obtain ⟨low, high⟩ := start
    refine ok_childLoop (by omega) (by omega) (by rw [low, high, tries.2, Nat.zero_add]) p1 p2
      (tries.1.trans tries.2.symm) (by omega) quiet.1 (fun _ => ⟨parent, quiet.2⟩) fun last => ?_
    omega
  | sending parent round child p2 tries quiet =>
    have here : s.parent.gone = false := by rcases parent with h | h <;> rw [h] <;> rfl
    rw [stepChild]
    rcases child with ⟨child, p1⟩ | ⟨child, p1⟩
    · rw [child]
      simp only [here, p1, write_encode]
      exact .sending parent { round with } (.inr ⟨rfl, rfl⟩) p2 tries quiet
    · rw [child]
      simp only [here, p2]
      exact .sending parent round (.inr ⟨child, p1⟩) p2 tries quiet
  | judged judged parent p2 quiet =>
    rw [stepChild, judged.child]
    simp only [parent, p2]
    exact .judged judged parent p2 quiet
  | answered judged p2 parent =>
    obtain ⟨⟨low, high, guess, small, count⟩, child, p1, tries, feedback, found⟩ := judged
    have ordered : s.min ≤ s.max := by omega
    rw [stepChild, child]
    obtain ⟨lower, upper⟩ := answer_range m s.guess
    simp only [p2, feedback, read_encode lower upper]
    -- the parent has left its loop exactly if the child does so now
    have goes (wrong : s.guess ≠ m) (more : s.ctries < maxTries) : s.parent = .read ∧ ¬NotFound s := by
      rcases parent with ⟨parent, silent⟩ | ⟨-, last | last, -⟩
      · rw [feedback, if_pos ⟨fun h => wrong (answer_eq_zero.mp h), by omega⟩] at parent
        exact ⟨parent, silent⟩
      · exact absurd (answer_eq_zero.mp (feedback.symm.trans last)) wrong
      · omega
    have stops (last : s.feedback = 0 ∨ s.ptries = maxTries) : s.parent = .report ∧ ¬NotFound s ∨
        s.parent = .done ∧ (NotFound s ↔ s.ptries = maxTries) := by
      rcases parent with ⟨parent, silent⟩ | ⟨parent, -, silent⟩
      · rw [if_neg (by omega)] at parent
        exact .inl ⟨parent, silent⟩
      · exact .inr ⟨parent, silent⟩
    have ends (last : s.ptries = maxTries) :
        s.parent = .report ∧ ¬NotFound s ∨ s.parent = .done ∧ NotFound s :=
      (stops (.inr last)).imp_right fun h => ⟨h.1, h.2.mpr last⟩
    rw [narrow]
    rcases Int.lt_trichotomy m s.guess with big | right | small'
    · have one : answer m s.guess = 1 := if_pos big
      rw [one, if_pos rfl]
      have next := searchSteps_high (show m < (s.min + s.max) / 2 by omega) ordered
      refine ok_childLoop low ⟨by simp only; omega, by simp only; omega⟩ ?_ p1 rfl tries small
        (fun h => absurd (found.mp h) (by omega)) (fun more => ?_) ends
      · simp only [guess]
        omega
      · exact ⟨.inr (goes (by omega) more).1, (goes (by omega) more).2⟩
    · have hit := searchSteps_hit (guess.symm.trans right.symm) ordered
      have zero : answer m s.guess = 0 := answer_eq_zero.mpr right.symm
      rw [zero, if_neg (by decide), if_neg (by decide)]
      refine .finished rfl low.2 high.1 tries ⟨fun _ => by omega, fun _ => found.mpr right.symm⟩
        (.inl ⟨found.mpr right.symm, show s.ptries = _ by omega⟩) (stops (.inl (feedback.trans zero)))
    · have minus : answer m s.guess = -1 := by rw [answer, if_neg (by omega), if_pos small']
      rw [minus, if_neg (by decide), if_pos rfl]
      have next := searchSteps_low (show (s.min + s.max) / 2 < m by omega) ordered
      refine ok_childLoop ⟨by simp only; omega, by simp only; omega⟩ high ?_ p1 rfl tries small
        (fun h => absurd (found.mp h) (by omega)) (fun more => ?_) ends
      · simp only [guess]
        omega
      · exact ⟨.inr (goes (by omega) more).1, (goes (by omega) more).2⟩
  | finished child low high tries found ends parent =>
    rw [stepChild, child]
    exact .finished child low high tries found ends parent

theorem ok_judge (round : Round maxTries m s) (child : s.child = .read) (p1 : s.p1 = [])
    (p2 : s.p2 = []) (tries : s.ptries + 1 = s.ctries) (quiet : ¬Found s ∧ ¬NotFound s) :
    Ok maxTries m (judge m s s.guess) := by
  refine .judged ⟨{ round with }, child, p1, tries, rfl, ?_⟩ rfl p2 ?_
  · constructor
    · rintro ⟨g, t, mem⟩
      rcases mem_append.mp mem with old | new
      · exact absurd ⟨g, t, old⟩ quiet.1
      · have same := mem_singleton.mp new
        split_ifs at same with high low
        show s.guess = m
        omega
    · rintro (right : s.guess = m)
      refine ⟨s.guess, s.ptries + 1, mem_append_right _ (mem_singleton.mpr ?_)⟩
      rw [if_neg (by omega), if_neg (by omega)]
  · rintro ⟨t, mem⟩
    rcases mem_append.mp mem with old | new
    · exact quiet.2 ⟨t, old⟩
    · have same := mem_singleton.mp new
      split_ifs at same

theorem notFound_report (silent : ¬NotFound s) :
    NotFound { s with
      parent := .done
      out := if s.ptries = maxTries then s.out ++ [.notFound maxTries] else s.out } ↔
      s.ptries = maxTries := by
  simp only [NotFound] at silent ⊢
  split_ifs with last
  · exact iff_of_true ⟨maxTries, mem_append_right _ mem_cons_self⟩ last
  · exact iff_of_false silent last

theorem found_report :
    Found { s with
      parent := .done
      out := if s.ptries = maxTries then s.out ++ [.notFound maxTries] else s.out } ↔ Found s := by
  simp only [Found]
  split_ifs
  · simp
  · rfl

theorem ok_stepParent (ok : Ok maxTries m s) (pos : 0 < maxTries) :
    Ok maxTries m (stepParent maxTries m s) := by
  cases ok with
  | fresh parent child p1 p2 tries start quiet =>
    rw [stepParent]
    rcases parent with parent | parent
    · rw [parent]
      simp only [parentLoop, tries.1, pos, if_true]
      exact .fresh (.inr rfl) child p1 p2 ⟨rfl, tries.2⟩ start quiet
    · rw [parent]
      simp only [p1, child]
      exact .fresh (.inr parent) child p1 p2 tries start quiet
  | sending parent round child p2 tries quiet =>
    have small := round.small
    rw [stepParent]
    rcases parent with parent | parent
    · rw [parent]
      simp only [parentLoop, show s.ptries < maxTries by omega, if_true]
      exact .sending (.inr rfl) { round with } child p2 tries quiet
    · rw [parent]
      rcases child with ⟨child, p1⟩ | ⟨child, p1⟩
      · simp only [p1, child]
        exact .sending (.inr parent) round (.inl ⟨child, p1⟩) p2 tries quiet
      · obtain ⟨low, high, guess, -, -⟩ := id round
        simp only [p1, read_encode (show -1 ≤ s.guess by omega) (show s.guess ≤ 100 by omega)]
        exact ok_judge (s := { s with p1 := [] }) { round with } child rfl p2 tries quiet
  | judged judged parent p2 quiet =>
    have stepped : stepParent maxTries m s = { s with
        p2 := encode s.feedback
        parent := if s.feedback ≠ 0 ∧ s.ptries < maxTries then .read else .report } := by
      rw [stepParent, parent]
      by_cases zero : s.feedback = 0 <;>
        simp [judged.child, p2, write_encode, Pc.gone, zero, parentLoop]
    rw [stepped]
    exact .answered { judged with } rfl (.inl ⟨rfl, quiet⟩)
  | answered judged p2 parent =>
    rw [stepParent]
    rcases parent with ⟨parent, silent⟩ | ⟨parent, last, silent⟩
    · split_ifs at parent with more
      · rw [parent]
        simp only [judged.p1, judged.child]
        exact .answered judged p2 (.inl ⟨parent.trans (if_pos more).symm, silent⟩)
      · rw [parent]
        refine .answered { judged with found := found_report.trans judged.found } p2
          (.inr ⟨rfl, ?_, notFound_report silent⟩)
        have := judged.small
        have := judged.tries
        show s.feedback = 0 ∨ s.ptries = maxTries
        omega
    · rw [parent]
      exact .answered judged p2 (.inr ⟨parent, last, silent⟩)
  | finished child low high tries found ends parent =>
    rw [stepParent]
    rcases parent with ⟨parent, silent⟩ | ⟨parent, silent⟩
    · rw [parent]
      refine .finished child low high tries (found_report.trans found) ?_
        (.inr ⟨rfl, notFound_report silent⟩)
      rwa [found_report]
    · rw [parent]
      exact .finished child low high tries found ends (.inr ⟨parent, silent⟩)

theorem ok_run (ok : Ok maxTries m s) (pos : 0 < maxTries) (range : 1 ≤ m ∧ m ≤ 100)
    (sched : List Bool) : Ok maxTries m (run maxTries m s sched) := by
  induction sched generalizing s with
  | nil => exact ok
  | cons who sched ih =>
    cases who with
    | true => exact ih (ok_stepParent ok pos)
    | false => exact ih (ok_stepChild ok pos range)

/-! ## The end of a game -/

def Pc.rank : Pc → ℕ
  | .start | .write _ => 2
  | .read | .report => 1
  | .done | .fail => 0

def rank (maxTries : ℕ) (s : State) : ℕ :=
  8 * (maxTries - s.ctries) + 3 * s.child.rank + s.parent.rank + (if s.p1 = [] then 0 else 2)

theorem Ok.progress (ok : Ok maxTries m s) (pos : 0 < maxTries) :
    Finished s ∨ rank maxTries (stepParent maxTries m s) < rank maxTries s ∨
      rank maxTries (stepChild maxTries s) < rank maxTries s := by
  cases ok with
  | fresh parent child p1 p2 tries start quiet =>
    refine .inr (.inr ?_)
    simp only [rank, stepChild, child, childLoop, tries.2, pos, if_true, p1, Pc.rank]
    omega
  | sending parent round child p2 tries quiet =>
    have small := round.small
    rcases child with ⟨child, p1⟩ | ⟨child, p1⟩
    · refine .inr (.inr ?_)
      have here : s.parent.gone = false := by rcases parent with h | h <;> rw [h] <;> rfl
      simp [rank, stepChild, child, here, p1, write_encode, Pc.rank]
      split_ifs <;> omega
    · refine .inr (.inl ?_)
      rcases parent with parent | parent
      · simp [rank, stepParent, parent, parentLoop, Pc.rank, show s.ptries < maxTries by omega]
      · obtain ⟨low, high, guess, -, -⟩ := id round
        simp [rank, stepParent, parent, p1, child, judge, Pc.rank, encode_ne_nil,
          read_encode (show -1 ≤ s.guess by omega) (show s.guess ≤ 100 by omega)]
  | judged judged parent p2 quiet =>
    refine .inr (.inl ?_)
    by_cases zero : s.feedback = 0 <;>
      simp [rank, stepParent, parent, judged.child, p2, write_encode, Pc.gone, zero, parentLoop,
        Pc.rank]
    split_ifs <;> simp
  | answered judged p2 parent =>
    refine .inr (.inr ?_)
    obtain ⟨lower, upper⟩ := answer_range m s.guess
    simp only [rank, stepChild, judged.child, p2, judged.feedback, read_encode lower upper, narrow,
      childLoop]
    split_ifs <;> simp [Pc.rank] <;> omega
  | finished child low high tries found ends parent =>
    rcases parent with ⟨parent, -⟩ | ⟨parent, -⟩
    · exact .inr (.inl (by simp [rank, stepParent, parent, Pc.rank]))
    · exact .inl ⟨parent, child⟩

theorem Ok.completes (ok : Ok maxTries m s) (pos : 0 < maxTries) (range : 1 ≤ m ∧ m ≤ 100) :
    ∃ sched, Finished (run maxTries m s sched) := by
  induction bound : rank maxTries s using Nat.strong_induction_on generalizing s with
  | _ n ih =>
    subst bound
    rcases ok.progress pos with done | less | less
    · exact ⟨[], done⟩
    · obtain ⟨sched, done⟩ := ih _ less (ok_stepParent ok pos) rfl
      exact ⟨true :: sched, done⟩
    · obtain ⟨sched, done⟩ := ih _ less (ok_stepChild ok pos range) rfl
      exact ⟨false :: sched, done⟩

theorem Ok.result (ok : Ok maxTries m s) (done : Finished s) :
    s.ptries = s.ctries ∧ (Found s ↔ searchSteps m 1 100 ≤ maxTries) ∧
      (NotFound s ↔ s.ptries = maxTries) ∧
      (Found s ∧ s.ptries = searchSteps m 1 100 ∨ ¬Found s ∧ s.ptries = maxTries) := by
  obtain ⟨parent, child⟩ := done
  cases ok with
  | fresh _ here => cases child.symm.trans here
  | sending _ _ here =>
    rcases here with ⟨here, -⟩ | ⟨here, -⟩
    · cases child.symm.trans here
    · cases child.symm.trans here
  | judged judged => cases child.symm.trans judged.child
  | answered judged => cases child.symm.trans judged.child
  | finished _ _ _ tries found ends here =>
    rcases here with ⟨here, -⟩ | ⟨-, silent⟩
    · cases parent.symm.trans here
    · exact ⟨tries, found, silent, ends⟩

/-- The game is played and reported as it should be, in every order of the steps. -/
def Reported (maxTries : ℕ) (m : ℤ) : Prop :=
  ∀ sched, let s := run maxTries m init sched
    (s.min ≤ m ∧ m ≤ s.max) ∧
    ¬(s.parent = .read ∧ s.p1 = [] ∧ s.child = .read ∧ s.p2 = []) ∧
    (s.parent ≠ .fail ∧ s.child ≠ .fail) ∧
    (∃ more, Finished (run maxTries m s more)) ∧
    (Finished s → s.ptries = s.ctries ∧ (Found s ↔ searchSteps m 1 100 ≤ maxTries) ∧
      (NotFound s ↔ ¬Found s))

theorem Ok.safe (ok : Ok maxTries m s) (range : 1 ≤ m ∧ m ≤ 100) :
    (s.min ≤ m ∧ m ≤ s.max) ∧
    ¬(s.parent = .read ∧ s.p1 = [] ∧ s.child = .read ∧ s.p2 = []) ∧
    (s.parent ≠ .fail ∧ s.child ≠ .fail) := by
  cases ok with
  | fresh parent child p1 p2 tries start quiet =>
    refine ⟨by omega, ?_, ?_⟩
    · rw [child]
      nofun
    · rcases parent with h | h <;> rw [h, child] <;> exact ⟨nofun, nofun⟩
  | sending parent round child p2 tries quiet =>
    refine ⟨⟨round.low.2, round.high.1⟩, ?_, ?_⟩
    · rintro ⟨-, p1, here, -⟩
      rcases child with ⟨child, -⟩ | ⟨-, sent⟩
      · cases child.symm.trans here
      · exact encode_ne_nil _ (sent.symm.trans p1)
    · rcases parent with h | h <;> rcases child with ⟨child, -⟩ | ⟨child, -⟩ <;> rw [h, child] <;>
        exact ⟨nofun, nofun⟩
  | judged judged parent p2 quiet =>
    rw [parent, judged.child]
    exact ⟨⟨judged.low.2, judged.high.1⟩, nofun, nofun, nofun⟩
  | answered judged p2 parent =>
    refine ⟨⟨judged.low.2, judged.high.1⟩, fun h => encode_ne_nil _ (p2.symm.trans h.2.2.2), ?_, ?_⟩
    · rcases parent with ⟨h, -⟩ | ⟨h, -⟩ <;> rw [h]
      · split_ifs <;> nofun
      · nofun
    · rw [judged.child]
      nofun
  | finished child low high tries found ends parent =>
    rw [child]
    exact ⟨⟨low, high⟩, nofun, by rcases parent with ⟨h, -⟩ | ⟨h, -⟩ <;> rw [h] <;> nofun, nofun⟩

theorem init_ok (m : ℤ) : Ok maxTries m init :=
  .fresh (.inl rfl) rfl rfl rfl ⟨rfl, rfl⟩ ⟨rfl, rfl⟩
    ⟨fun ⟨_, _, mem⟩ => not_mem_nil mem, fun ⟨_, mem⟩ => not_mem_nil mem⟩

/-- The game is reported correctly if and only if the last try is not the one that binary search
needs. -/
theorem reported_iff (pos : 0 < maxTries) (range : 1 ≤ m ∧ m ≤ 100) :
    Reported maxTries m ↔ maxTries ≠ searchSteps m 1 100 := by
  constructor
  · intro reported last
    obtain ⟨sched, done⟩ := (init_ok m).completes pos range
    obtain ⟨-, found, silent, ends⟩ := (ok_run (init_ok m) pos range sched).result done
    obtain ⟨-, -, -, -, right⟩ := reported sched
    have both := found.mpr (by omega)
    refine (right done).2.2.mp (silent.mpr ?_) both
    rcases ends with ⟨-, tries⟩ | ⟨-, tries⟩ <;> omega
  · intro other sched
    have ok := ok_run (init_ok m) pos range sched
    obtain ⟨range', waits, fails⟩ := ok.safe range
    refine ⟨range', waits, fails, ok.completes pos range, fun done => ?_⟩
    obtain ⟨tries, found, silent, ends⟩ := ok.result done
    refine ⟨tries, found, silent.trans ⟨fun last there => ?_, fun none => ?_⟩⟩
    · rcases ends with ⟨-, needed⟩ | ⟨none, -⟩
      · omega
      · exact none there
    · exact (ends.resolve_left fun h => none h.1).2

/-- Two tries are enough for 50, which is the first guess. -/
theorem reported_two : Reported 2 50 :=
  (reported_iff (by decide) (by decide)).mpr (by rw [searchSteps_hit] <;> decide)

/-- With one try 50 is found, and the parent also prints that it is not found. -/
theorem reported_fails : ¬Reported 1 50 := by
  intro reported
  obtain ⟨-, -, -, -, right⟩ := reported [true, false, false, true, true, true, false]
  exact (right ⟨rfl, rfl⟩).2.2.mp ⟨1, by decide⟩ ⟨50, 1, by decide⟩

end Xv6.User.Devine
