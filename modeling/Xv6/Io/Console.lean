import Xv6.Lib.Ring
import Xv6.Proc.State

/-!
# The console

The reader `consoleread` of `console.c`, with the bytes that it moves.  The lock `cons.lock` is held
from one sleep of a reader to the next, so that a call is a sequence of stretches that nobody else can
see inside.
-/

namespace Xv6.Io

open List

open Proc (Cons INPUT_BUF_SIZE)

variable {s : Cons}

/-! ## The code -/

/-- `C(x)`. -/
def ctrl (x : Char) : Byte := BitVec.ofNat 8 (x.toNat - '@'.toNat)

def cell (s : Cons) (i : BitVec 32) : Byte := s.buf (i.toNat % INPUT_BUF_SIZE)

/-- `consoleintr(c)`. -/
def consoleintr (c : Byte) (s : Cons) : Cons := (s.intr c).2

/-- Where a stretch of `consoleread` ends: the console, the bytes taken out of the buffer and those
stored in user memory so far, the result unless it sleeps, and the number of bytes still wanted. -/
structure Stretch where
  cons : Cons
  taken : List Byte
  stored : List Byte
  ret : Option ℤ
  left : ℕ

/-- The loop of `consoleread` up to its next sleep, while `n` of `target` bytes are wanted; `ok i` says
whether byte `i` can be copied, `killed` what `killed` returns. -/
def readLoop (ok : ℕ → Bool) (killed : Bool) (target : ℕ) :
    (n : ℕ) → Cons → (taken stored : List Byte) → Stretch
  | 0, s, taken, stored => ⟨s, taken, stored, some target, 0⟩
  | n + 1, s, taken, stored =>
      if s.r = s.w then
        if killed then ⟨s, taken, stored, some (-1), n + 1⟩ else ⟨s, taken, stored, none, n + 1⟩
      else
        let c := cell s s.r
        let s := { s with r := s.r + 1 }
        if c = ctrl 'D' then
          if n + 1 < target then
            -- save ^D for next time
            ⟨{ s with r := s.r - 1 }, taken, stored, some (target - (n + 1)), n + 1⟩
          else ⟨s, taken ++ [c], stored, some (target - (n + 1)), n + 1⟩
        else if ok (target - (n + 1)) then
          if c = ch '\n' then ⟨s, taken ++ [c], stored ++ [c], some (target - n), n⟩
          else readLoop ok killed target n s (taken ++ [c]) (stored ++ [c])
        else ⟨s, taken ++ [c], stored, some (target - (n + 1)), n + 1⟩

def readStart (ok : ℕ → Bool) (killed : Bool) (n : BitVec 32) (s : Cons) : Stretch :=
  if 0 < n.toInt then readLoop ok killed n.toNat n.toNat s [] [] else ⟨s, [], [], some 0, 0⟩

/-- The stretches of a call of `consoleread`.  When it waits, it finds itself killed, or it sleeps and
finds another console. -/
def readCall (ok : ℕ → Bool) (target : ℕ) :
    List (Option Cons) → (n : ℕ) → Cons → (taken stored : List Byte) → Stretch
  | [], n, s, taken, stored => readLoop ok false target n s taken stored
  | none :: _, n, s, taken, stored => readLoop ok true target n s taken stored
  | some s' :: wakes, n, s, taken, stored =>
      let x := readLoop ok false target n s taken stored
      if x.ret = none then readCall ok target wakes x.left s' x.taken x.stored else x

/-- `consoleread` of `n` bytes, with what the reader finds after each sleep. -/
def consoleread (ok : ℕ → Bool) (wakes : List (Option Cons)) (n : BitVec 32) (s : Cons) : Stretch :=
  if 0 < n.toInt then readCall ok n.toNat wakes n.toNat s [] [] else ⟨s, [], [], some 0, 0⟩

/-! ## The committed bytes -/

/-- The committed bytes that no reader has taken. -/
def unread (s : Cons) : List Byte := ringCells INPUT_BUF_SIZE s.buf s.r s.w

theorem unread_nil (empty : s.r = s.w) : unread s = [] := ringCells_nil empty

theorem unread_cons (some : s.r ≠ s.w) :
    unread s = cell s s.r :: unread { s with r := s.r + 1 } := ringCells_cons some

/-- The bytes of `cs` that a call for `n` bytes gets, and whether it is complete with them. -/
def lineOf : (n : ℕ) → (cs : List Byte) → List Byte × Bool
  | 0, _ => ([], true)
  | _ + 1, [] => ([], false)
  | n + 1, c :: cs =>
      if c = ctrl 'D' then ([], true)
      else if c = ch '\n' then ([c], true)
      else (c :: (lineOf n cs).1, (lineOf n cs).2)

/-- The data bytes: those that are not `C('D')`. -/
def dropEof (cs : List Byte) : List Byte := cs.filter (· ≠ ctrl 'D')

theorem dropEof_append_self {cs : List Byte} {c : Byte} (data : c ≠ ctrl 'D') :
    dropEof (cs ++ [c]) = dropEof cs ++ [c] := by
  rw [dropEof, filter_append, filter_cons_of_pos (by simpa using data)]
  rfl

theorem dropEof_append_eof (cs : List Byte) : dropEof (cs ++ [ctrl 'D']) = dropEof cs := by
  rw [dropEof, filter_append, filter_cons_of_neg (by simp), filter_nil, append_nil]
  rfl

/-! ## A stretch of a reader -/

section

variable {ok : ℕ → Bool} {killed : Bool} {target : ℕ}

theorem readLoop_wait {n : ℕ} (empty : s.r = s.w) (taken stored : List Byte) :
    readLoop ok killed target (n + 1) s taken stored =
      ⟨s, taken, stored, if killed then some (-1) else none, n + 1⟩ := by
  rw [readLoop, if_pos empty]
  cases killed <;> rfl

theorem readLoop_eof {n : ℕ} (some' : s.r ≠ s.w) (eof : cell s s.r = ctrl 'D')
    (taken stored : List Byte) :
    readLoop ok killed target (n + 1) s taken stored =
      if n + 1 < target then ⟨s, taken, stored, some (target - (n + 1)), n + 1⟩
      else ⟨{ s with r := s.r + 1 }, taken ++ [ctrl 'D'], stored, some (target - (n + 1)), n + 1⟩ := by
  rw [readLoop, if_neg some']
  dsimp only
  rw [eof, if_pos rfl, BitVec.add_sub_cancel]

theorem readLoop_fault {n : ℕ} (some' : s.r ≠ s.w) (data : cell s s.r ≠ ctrl 'D')
    (fault : ok (target - (n + 1)) = false) (taken stored : List Byte) :
    readLoop ok killed target (n + 1) s taken stored =
      ⟨{ s with r := s.r + 1 }, taken ++ [cell s s.r], stored, some (target - (n + 1)), n + 1⟩ := by
  rw [readLoop, if_neg some']
  dsimp only
  rw [if_neg data, fault, if_neg Bool.false_ne_true]

theorem readLoop_byte {n : ℕ} (some' : s.r ≠ s.w) (data : cell s s.r ≠ ctrl 'D')
    (fits : ok (target - (n + 1)) = true) (taken stored : List Byte) :
    readLoop ok killed target (n + 1) s taken stored =
      if cell s s.r = ch '\n' then ⟨{ s with r := s.r + 1 }, taken ++ [cell s s.r],
        stored ++ [cell s s.r], some (target - n), n⟩
      else readLoop ok killed target n { s with r := s.r + 1 } (taken ++ [cell s s.r])
        (stored ++ [cell s s.r]) := by
  rw [readLoop, if_neg some']
  dsimp only
  rw [if_neg data, if_pos fits]

/-- What a stretch adds to `taken` is what `cons.r` advances over. -/
theorem readLoop_removes (n : ℕ) (s : Cons) (taken stored : List Byte) :
    let x := readLoop ok killed target n s taken stored
    ∃ new, x.taken = taken ++ new ∧ unread s = new ++ unread x.cons ∧
      x.cons = { s with r := s.r + BitVec.ofNat 32 new.length } := by
  have nothing (s : Cons) : s = { s with r := s.r + BitVec.ofNat 32 ([] : List Byte).length } := by
    rw [show s.r + BitVec.ofNat 32 ([] : List Byte).length = s.r from BitVec.add_zero _]
  induction n generalizing s taken stored with
  | zero => exact ⟨[], (append_nil _).symm, rfl, nothing s⟩
  | succ n ih =>
    by_cases empty : s.r = s.w
    · rw [readLoop_wait empty]
      exact ⟨[], (append_nil _).symm, rfl, nothing s⟩
    by_cases eof : cell s s.r = ctrl 'D'
    · rw [readLoop_eof empty eof]
      split_ifs
      · exact ⟨[], (append_nil _).symm, rfl, nothing s⟩
      · exact ⟨[ctrl 'D'], rfl, eof ▸ unread_cons empty, rfl⟩
    cases fits : ok (target - (n + 1)) with
    | false =>
      rw [readLoop_fault empty eof fits]
      exact ⟨[cell s s.r], rfl, unread_cons empty, rfl⟩
    | true =>
      rw [readLoop_byte empty eof fits]
      split_ifs
      · exact ⟨[cell s s.r], rfl, unread_cons empty, rfl⟩
      obtain ⟨new, takes, rest, advanced⟩ := ih { s with r := s.r + 1 } (taken ++ [cell s s.r])
        (stored ++ [cell s s.r])
      refine ⟨cell s s.r :: new, by rw [takes, append_assoc]; rfl, ?_, ?_⟩
      · rw [unread_cons empty, rest]
        rfl
      · rw [advanced, length_cons, add_ofNat_succ]

/-- A stretch stores bytes that it can store, knows how many are left, and reports -1 or the bytes
that have been stored. -/
structure Fair (ok : ℕ → Bool) (target : ℕ) (x : Stretch) : Prop where
  count : x.stored.length + x.left = target
  reached : ∀ i < x.stored.length, ok i = true
  ret : x.ret = none ∨ x.ret = some (-1) ∨ x.ret = some ((target : ℤ) - x.left)

theorem readLoop_fair (killed : Bool) (n : ℕ) (s : Cons) (taken : List Byte) {stored : List Byte}
    (count : stored.length + n = target) (reached : ∀ i < stored.length, ok i = true) :
    Fair ok target (readLoop ok killed target n s taken stored) := by
  induction n generalizing s taken stored with
  | zero => exact ⟨count, reached, .inr (.inr (congrArg some (Int.sub_zero _).symm))⟩
  | succ n ih =>
    by_cases empty : s.r = s.w
    · rw [readLoop_wait empty]
      refine ⟨count, reached, ?_⟩
      cases killed with
      | false => exact .inl rfl
      | true => exact .inr (.inl rfl)
    by_cases eof : cell s s.r = ctrl 'D'
    · rw [readLoop_eof empty eof]
      split_ifs <;> exact ⟨count, reached, .inr (.inr rfl)⟩
    cases fits : ok (target - (n + 1)) with
    | false =>
      rw [readLoop_fault empty eof fits]
      exact ⟨count, reached, .inr (.inr rfl)⟩
    | true =>
      have next : (stored ++ [cell s s.r]).length + n = target := by
        rw [length_append, length_singleton]
        omega
      have reached' : ∀ i < (stored ++ [cell s s.r]).length, ok i = true := by
        intro i hi
        rw [length_append, length_singleton] at hi
        rcases Nat.lt_succ_iff_lt_or_eq.mp hi with old | new
        · exact reached i old
        · rwa [show i = target - (n + 1) by omega]
      rw [readLoop_byte empty eof fits]
      split_ifs
      · exact ⟨next, reached', .inr (.inr rfl)⟩
      · exact ih _ _ next reached'

end

/-- What comes of a reader that has stored `stored` and is offered `line`: it gets these bytes and
returns `ret`, or it loses the first byte that it cannot store. -/
structure Outcome (ok : ℕ → Bool) (stored line : List Byte) (ret : ℕ → Option ℤ)
    (x : Stretch) : Prop where
  all : (∀ i < line.length, ok (stored.length + i) = true) →
    x.stored = stored ++ line ∧ dropEof x.taken = x.stored ∧ x.ret = ret x.stored.length
  lossy : (∃ i < line.length, ok (stored.length + i) = false) →
    (dropEof x.taken).length = x.stored.length + 1 ∧ x.ret = some (x.stored.length : ℤ)

namespace Outcome

variable {ok : ℕ → Bool} {stored line more : List Byte} {ret ret' : ℕ → Option ℤ}
  {x y : Stretch} {c : Byte}

theorem stop (same : x.stored = stored) (exact' : dropEof x.taken = stored)
    (returns : x.ret = ret stored.length) : Outcome ok stored [] ret x where
  all _ := ⟨same.trans (append_nil stored).symm, exact'.trans same.symm, same ▸ returns⟩
  lossy := fun ⟨i, hi, _⟩ => absurd hi (Nat.not_lt_zero i)

theorem cons (fits : ok stored.length = true) (rest : Outcome ok (stored ++ [c]) line ret x) :
    Outcome ok stored (c :: line) ret x := by
  have shift (i : ℕ) : (stored ++ [c]).length + i = stored.length + (i + 1) := by
    rw [length_append, length_singleton, add_assoc, add_comm 1 i]
  refine ⟨fun all => ?_, fun ⟨i, hi, bad⟩ => ?_⟩
  · have := rest.all fun i hi => shift i ▸ all (i + 1) (Nat.succ_lt_succ hi)
    rwa [append_assoc] at this
  · obtain ⟨j, rfl⟩ : ∃ j, i = j + 1 := by
      refine Nat.exists_eq_succ_of_ne_zero ?_
      rintro rfl
      cases fits.symm.trans bad
    exact rest.lossy ⟨j, Nat.lt_of_succ_lt_succ hi, shift j ▸ bad⟩

theorem fault (bad : ok stored.length = false) (same : x.stored = stored)
    (exact' : dropEof x.taken = stored ++ [c]) (returns : x.ret = some (stored.length : ℤ)) :
    Outcome ok stored (c :: line) ret x where
  all h := by cases bad.symm.trans (h 0 (Nat.succ_pos _))
  lossy _ := ⟨by rw [exact', same, length_append]; rfl, same ▸ returns⟩

theorem all_or_fault (ok : ℕ → Bool) (k n : ℕ) :
    (∀ i < n, ok (k + i) = true) ∨ ∃ i < n, ok (k + i) = false := by
  by_contra neither
  obtain ⟨bad, fine⟩ := not_or.mp neither
  exact bad fun i hi => by_contra fun h => fine ⟨i, hi, Bool.not_eq_true _ ▸ h⟩

theorem returns (h : Outcome ok stored line ret x) (always : ∀ k, ret k ≠ none) : x.ret ≠ none := by
  rcases all_or_fault ok stored.length line.length with all | here
  · rw [(h.all all).2.2]
    exact always _
  · rw [(h.lossy here).2]
    nofun

theorem append (first : Outcome ok stored line (fun _ => none) x)
    (next : x.stored = stored ++ line → dropEof x.taken = x.stored → Outcome ok x.stored more ret y) :
    Outcome ok stored (line ++ more) ret (if x.ret = none then y else x) := by
  rcases all_or_fault ok stored.length line.length with fine | here
  · obtain ⟨stores, exact', none'⟩ := first.all fine
    have rest := next stores exact'
    have shift (i : ℕ) : x.stored.length + i = stored.length + (line.length + i) := by
      rw [stores, length_append, add_assoc]
    rw [if_pos none']
    refine ⟨fun all => ?_, fun ⟨i, hi, bad⟩ => ?_⟩
    · have := rest.all fun i hi => shift i ▸ all _ (by rw [length_append]; omega)
      rwa [stores, append_assoc] at this
    · rw [length_append] at hi
      have later : line.length ≤ i := by
        by_contra early
        cases bad.symm.trans (fine i (by omega))
      refine rest.lossy ⟨i - line.length, by omega, ?_⟩
      rwa [shift, Nat.add_sub_cancel' later]
  · have lossy := first.lossy here
    rw [if_neg (by rw [lossy.2]; nofun)]
    refine ⟨fun all => ?_, fun _ => lossy⟩
    obtain ⟨i, hi, bad⟩ := here
    cases bad.symm.trans (all i (by rw [length_append]; omega))

end Outcome

def stretchRet (complete killed : Bool) (k : ℕ) : Option ℤ :=
  if complete then some k else if killed then some (-1) else none

theorem readLoop_outcome (ok : ℕ → Bool) {target : ℕ} (killed : Bool) (n : ℕ) (s : Cons)
    {taken stored : List Byte} (count : stored.length + n = target) (same : dropEof taken = stored) :
    Outcome ok stored (lineOf n (unread s)).1 (stretchRet (lineOf n (unread s)).2 killed)
      (readLoop ok killed target n s taken stored) := by
  induction n generalizing s taken stored with
  | zero => exact .stop rfl same (congrArg (fun k : ℕ => some (k : ℤ)) count.symm)
  | succ n ih =>
    by_cases empty : s.r = s.w
    · rw [unread_nil empty, lineOf, readLoop_wait empty]
      exact .stop rfl same rfl
    rw [unread_cons empty, lineOf]
    have here : target - (n + 1) = stored.length := by omega
    have delivered : ((target : ℤ) - (n + 1)) = stored.length := by omega
    by_cases eof : cell s s.r = ctrl 'D'
    · rw [if_pos eof, readLoop_eof empty eof, delivered]
      split_ifs
      · exact .stop rfl same rfl
      · exact .stop rfl ((dropEof_append_eof taken).trans same) rfl
    have same' : dropEof (taken ++ [cell s s.r]) = stored ++ [cell s s.r] := by
      rw [dropEof_append_self eof, same]
    rw [if_neg eof]
    cases fits : ok (target - (n + 1)) with
    | false =>
      rw [readLoop_fault empty eof fits, delivered]
      rw [here] at fits
      split_ifs
      · exact .fault fits rfl same' rfl
      · exact .fault fits rfl same' rfl
    | true =>
      have next : (stored ++ [cell s s.r]).length + n = target := by
        rw [length_append, length_singleton]
        omega
      rw [readLoop_byte empty eof fits]
      rw [here] at fits
      split_ifs
      · have delivered' : ((target : ℤ) - n) = (stored ++ [cell s s.r]).length := by omega
        rw [delivered']
        exact .cons fits (.stop rfl same' rfl)
      · exact .cons fits (ih _ next same')

/-! ## A call of a reader -/

/-- How a call ends: it gets its bytes, it is killed while it waits, or it waits for ever. -/
inductive Ending where
  | complete
  | killed
  | asleep
  deriving DecidableEq

/-- The bytes that a call for `n` bytes gets if all of them can be stored, and how it ends. -/
def offered : List (Option Cons) → (n : ℕ) → Cons → List Byte × Ending
  | [], n, s => ((lineOf n (unread s)).1, if (lineOf n (unread s)).2 then .complete else .asleep)
  | none :: _, n, s => ((lineOf n (unread s)).1, if (lineOf n (unread s)).2 then .complete else .killed)
  | some s' :: wakes, n, s =>
      let line := lineOf n (unread s)
      if line.2 then (line.1, .complete)
      else
        let rest := offered wakes (n - line.1.length) s'
        (line.1 ++ rest.1, rest.2)

def Ending.ret (k : ℕ) : Ending → Option ℤ
  | complete => some k
  | killed => some (-1)
  | asleep => none

theorem readCall_fair (ok : ℕ → Bool) {target : ℕ} (wakes : List (Option Cons)) (n : ℕ) (s : Cons)
    (taken : List Byte) {stored : List Byte} (count : stored.length + n = target)
    (reached : ∀ i < stored.length, ok i = true) :
    Fair ok target (readCall ok target wakes n s taken stored) := by
  induction wakes generalizing n s taken stored with
  | nil => exact readLoop_fair false n s taken count reached
  | cons wake wakes ih =>
    cases wake with
    | none => exact readLoop_fair true n s taken count reached
    | some s' =>
      rw [readCall]
      have now := readLoop_fair false n s taken count reached
      split_ifs
      · exact ih _ s' _ now.count now.reached
      · exact now

theorem readCall_outcome (ok : ℕ → Bool) {target : ℕ} (wakes : List (Option Cons)) (n : ℕ) (s : Cons)
    {taken stored : List Byte} (count : stored.length + n = target)
    (same : dropEof taken = stored) (reached : ∀ i < stored.length, ok i = true) :
    Outcome ok stored (offered wakes n s).1 (fun k => (offered wakes n s).2.ret k)
      (readCall ok target wakes n s taken stored) := by
  induction wakes generalizing n s taken stored with
  | nil =>
    have stretch := readLoop_outcome ok false n s count same
    rw [readCall, offered]
    cases done : (lineOf n (unread s)).2 <;> rw [done] at stretch <;> exact stretch
  | cons wake wakes ih =>
    cases wake with
    | none =>
      have stretch := readLoop_outcome ok true n s count same
      rw [readCall, offered]
      cases done : (lineOf n (unread s)).2 <;> rw [done] at stretch <;> exact stretch
    | some s' =>
      have stretch := readLoop_outcome ok false n s count same
      have fair := readLoop_fair false n s taken count reached
      rw [readCall, offered]
      dsimp only
      cases done : (lineOf n (unread s)).2 <;> rw [done] at stretch
      · refine stretch.append fun stores exact' => ?_
        have left : (readLoop ok false target n s taken stored).left =
            n - (lineOf n (unread s)).1.length := by
          have := fair.count
          rw [stores, length_append] at this
          omega
        have rest := ih _ s' fair.count exact' fair.reached
        rwa [left] at rest ⊢
      · rw [if_neg (stretch.returns nofun)]
        exact stretch

end Xv6.Io
