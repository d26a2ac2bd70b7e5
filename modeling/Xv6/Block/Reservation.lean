import Xv6.Block.Log
import Mathlib.Algebra.BigOperators.Group.List.Basic

/-!
# Log space reservation

`begin_op` reserves `MAXOPBLOCKS` log blocks for every operation; `log_write` checks the space that is
left.  The system has one step for each critical section of `log.lock`.  The reservation is sound
exactly when an operation logs fewer than `MAXOPBLOCKS` blocks.
-/

namespace Xv6

open Function List

/-- The log, the operations in progress and the distinct blocks each of them has logged. -/
structure LogSys where
  log : Log
  ops : List ℕ
  wrote : ℕ → List ℕ

/-- What happens to the log. -/
inductive LogEvent where
  | beginOp (p : ℕ)
  | logWrite (p b : ℕ)
  | endOp (p : ℕ)
  | committed
  deriving DecidableEq

namespace LogSys

variable {s : LogSys}

/-- The log of a file system that `mkfs` made: `sb.nlog` is `LOGSIZE`. -/
def init (start : ℕ) : LogSys := ⟨⟨start, LOGSIZE, 0, false, ⟨0, fun _ => 0⟩⟩, [], fun _ => []⟩

def step (s : LogSys) : LogEvent → Except (Halt Panic) LogSys
  | .beginOp p =>
      match s.log.beginOp with
      | some l => .ok ⟨l, p :: s.ops, update s.wrote p []⟩
      | none => .error .blocked
  | .logWrite p b =>
      match s.log.logWrite b with
      | .ok (_, l) => .ok ⟨l, s.ops, update s.wrote p ((s.wrote p).insert b)⟩
      | .error e => .error (.panic e)
  | .endOp p =>
      match s.log.endOp with
      | .ok (_, l) => .ok ⟨l, s.ops.erase p, s.wrote⟩
      | .error e => .error (.panic e)
  | .committed =>
      if s.log.committing then
        .ok { s with log := { s.log with lh := { s.log.lh with n := 0 }, committing := false } }
      else .error .blocked

/-- Operations are bracketed by `begin_op` and `end_op` and log at most `K` distinct blocks. -/
def Admissible (K : ℕ) (s : LogSys) : LogEvent → Prop
  | .beginOp p => p ∉ s.ops
  | .logWrite p b => p ∈ s.ops ∧ ((s.wrote p).insert b).length ≤ K
  | .endOp p => p ∈ s.ops
  | .committed => True

instance (K : ℕ) (s : LogSys) (e : LogEvent) : Decidable (s.Admissible K e) := by
  cases e <;> unfold Admissible <;> infer_instance

/-- The states that admissible events lead to. -/
inductive Reachable (K start : ℕ) : LogSys → Prop
  | init : Reachable K start (.init start)
  | step {s s' : LogSys} {e : LogEvent} (reached : Reachable K start s)
      (admissible : s.Admissible K e) (next : s.step e = .ok s') : Reachable K start s'

/-- `log_write` never runs out of space. -/
def Sound (K : ℕ) : Prop :=
  ∀ start s, Reachable K start s → ∀ e, s.Admissible K e →
    s.step e ≠ .error (.panic .tooBigTransaction)

/-! ## Nine blocks are safe -/

def reserved (s : LogSys) : ℕ := (s.ops.map fun p => MAXOPBLOCKS - 1 - (s.wrote p).length).sum

/-- The invariant of the log. -/
structure Inv (s : LogSys) : Prop where
  size : s.log.size = LOGSIZE
  nodup : s.ops.Nodup
  outstanding : s.log.outstanding = s.ops.length
  quiet : s.log.committing = true → s.ops = []
  empty : s.log.committing = false → s.ops = [] → s.log.lh.n = 0
  bounded : ∀ p ∈ s.ops, (s.wrote p).length < MAXOPBLOCKS
  logged : ∀ p ∈ s.ops, ∀ b ∈ s.wrote p, b ∈ s.log.lh.blocks
  space : s.log.lh.n + s.reserved ≤ LOGSIZE - 2

theorem inv_init (start : ℕ) : (init start).Inv :=
  ⟨rfl, nodup_nil, rfl, nofun, fun _ _ => rfl, nofun, nofun, Nat.zero_le _⟩

theorem reserved_split {ops : List ℕ} {p : ℕ} (mem : p ∈ ops) (nodup : ops.Nodup) (log : Log)
    (wrote : ℕ → List ℕ) (bs : List ℕ) :
    reserved ⟨log, ops, update wrote p bs⟩ =
      (MAXOPBLOCKS - 1 - bs.length) + reserved ⟨log, ops.erase p, wrote⟩ := by
  unfold reserved
  rw [← sum_map_erase _ mem]
  dsimp only
  rw [update_self]
  refine congrArg (_ + List.sum ·) (map_congr_left fun q hq => ?_)
  rw [update_of_ne]
  rintro rfl
  exact nodup.not_mem_erase hq

theorem reserved_le : s.reserved ≤ s.ops.length * (MAXOPBLOCKS - 1) := by
  unfold reserved
  induction s.ops with
  | nil => exact Nat.zero_le _
  | cons p ops ih =>
    rw [map_cons, sum_cons, length_cons, Nat.succ_mul, add_comm]
    exact Nat.add_le_add ih (Nat.sub_le ..)

theorem Inv.beginOp (inv : s.Inv) {p : ℕ} (outside : p ∉ s.ops) {l : Log}
    (h : s.log.beginOp = some l) : Inv ⟨l, p :: s.ops, update s.wrote p []⟩ := by
  obtain ⟨idle, fits, rfl⟩ := Log.beginOp_some h
  have other : ∀ q ∈ s.ops, q ≠ p := fun q hq e => outside (e ▸ hq)
  have outstanding := inv.outstanding
  refine ⟨inv.size, nodup_cons.2 ⟨outside, inv.nodup⟩, ?_, fun busy => ?_, nofun,
    fun q hq => ?_, fun q hq b hb => ?_, ?_⟩
  · show s.log.outstanding + 1 = ((p :: s.ops).length : ℤ)
    rw [outstanding, length_cons]
    rfl
  · exact absurd (idle.symm.trans busy) (by decide)
  · dsimp only
    rcases mem_cons.1 hq with rfl | hq
    · rw [update_self]
      decide
    · rw [update_of_ne (other q hq)]
      exact inv.bounded q hq
  · dsimp only at hb
    rcases mem_cons.1 hq with rfl | hq
    · rw [update_self] at hb
      cases hb
    · rw [update_of_ne (other q hq)] at hb
      exact inv.logged q hq b hb
  · rw [reserved_split mem_cons_self (nodup_cons.2 ⟨outside, inv.nodup⟩), erase_cons_head]
    have rest := reserved_le (s := ⟨s.log, s.ops, s.wrote⟩)
    have same : reserved ⟨{ s.log with outstanding := s.log.outstanding + 1 }, s.ops, s.wrote⟩ =
      reserved ⟨s.log, s.ops, s.wrote⟩ := rfl
    rw [same, length_nil]
    simp only [MAXOPBLOCKS, LOGSIZE] at rest fits ⊢
    -- the first operation of a group finds an empty log, any other one leaves a spare block
    rcases Nat.eq_zero_or_pos s.ops.length with none | some
    · have n := inv.empty idle (eq_nil_of_length_eq_zero none)
      rw [none] at rest
      omega
    · omega

theorem Inv.logWrite (inv : s.Inv) {p b : ℕ} (inside : p ∈ s.ops)
    (bound : ((s.wrote p).insert b).length < MAXOPBLOCKS) {new : Bool} {l : Log}
    (h : s.log.logWrite b = .ok (new, l)) :
    Inv ⟨l, s.ops, update s.wrote p ((s.wrote p).insert b)⟩ := by
  obtain ⟨-, -, lh, rfl, write⟩ := Log.logWrite_ok h
  have mem : ∀ b', b' ∈ s.log.lh.blocks ∨ b' = b → b' ∈ lh.blocks := by
    intro b' hb'
    rcases write with ⟨-, -, append⟩ | ⟨-, present, same⟩
    · rw [append, mem_append, mem_singleton]
      exact hb'
    · rw [same]
      rcases hb' with hb' | rfl
      · exact hb'
      · exact present
  simp only [MAXOPBLOCKS] at bound
  have count : lh.n + (MAXOPBLOCKS - 1 - ((s.wrote p).insert b).length) ≤
      s.log.lh.n + (MAXOPBLOCKS - 1 - (s.wrote p).length) := by
    by_cases known : b ∈ s.wrote p
    · rcases write with ⟨-, absent, -⟩ | ⟨-, -, same⟩
      · exact absurd (inv.logged p inside b known) absent
      · refine le_of_eq ?_
        rw [insert_of_mem known, ← lh.length_blocks, same, LogHeader.length_blocks]
    · rw [insert_of_not_mem known, length_cons] at bound ⊢
      simp only [MAXOPBLOCKS]
      rcases write with ⟨-, -, append⟩ | ⟨-, -, same⟩
      · rw [← lh.length_blocks, append, length_append, LogHeader.length_blocks, length_singleton]
        omega
      · rw [← lh.length_blocks, same, LogHeader.length_blocks]
        omega
  refine ⟨inv.size, inv.nodup, inv.outstanding, inv.quiet, fun _ none => ?_, fun q hq => ?_,
    fun q hq b' hb' => ?_, ?_⟩
  · rw [show s.ops = [] from none] at inside
    cases inside
  · dsimp only
    by_cases e : q = p
    · rw [e, update_self]
      exact bound
    · rw [update_of_ne e]
      exact inv.bounded q hq
  · dsimp only at hb'
    refine mem b' ?_
    by_cases e : q = p
    · rw [e, update_self] at hb'
      rcases mem_insert_iff.1 hb' with rfl | hb'
      · exact .inr rfl
      · exact .inl (inv.logged p inside b' hb')
    · rw [update_of_ne e] at hb'
      exact .inl (inv.logged q hq b' hb')
  · have space := inv.space
    have before := reserved_split inside inv.nodup s.log s.wrote (s.wrote p)
    rw [update_eq_self] at before
    rw [reserved_split inside inv.nodup]
    have same : reserved ⟨{ s.log with lh := lh }, s.ops.erase p, s.wrote⟩ =
      reserved ⟨s.log, s.ops.erase p, s.wrote⟩ := rfl
    rw [same]
    change reserved s = _ at before
    dsimp only at count ⊢
    omega

theorem Inv.endOp (inv : s.Inv) {p : ℕ} (inside : p ∈ s.ops) {last : Bool} {l : Log}
    (h : s.log.endOp = .ok (last, l)) : Inv ⟨l, s.ops.erase p, s.wrote⟩ := by
  have idle : s.log.committing = false := by
    by_contra busy
    rw [inv.quiet (by simpa using busy)] at inside
    cases inside
  rw [Log.endOp_idle idle] at h
  cases h
  have len : (s.ops.erase p).length = s.ops.length - 1 := length_erase_of_mem inside
  have pos : 0 < s.ops.length := length_pos_of_mem inside
  have outstanding := inv.outstanding
  have sub : ∀ q ∈ s.ops.erase p, q ∈ s.ops := fun q => mem_of_mem_erase
  refine ⟨inv.size, inv.nodup.erase p, ?_, fun busy => ?_, fun rest none => ?_,
    fun q hq => inv.bounded q (sub q hq), fun q hq => inv.logged q (sub q hq), ?_⟩
  · show s.log.outstanding - 1 = ((s.ops.erase p).length : ℤ)
    omega
  · have one : s.log.outstanding = 1 := of_decide_eq_true busy
    exact eq_nil_of_length_eq_zero (by rw [len]; omega)
  · have more : ¬ s.log.outstanding = 1 := of_decide_eq_false rest
    rw [show s.ops.erase p = [] from none, length_nil] at len
    omega
  · have space := inv.space
    have before := reserved_split inside inv.nodup s.log s.wrote (s.wrote p)
    rw [update_eq_self] at before
    change reserved s = _ + reserved ⟨_, s.ops.erase p, s.wrote⟩ at before
    exact le_trans (Nat.add_le_add_left (before ▸ Nat.le_add_left ..) _) space

theorem Inv.step {s s' : LogSys} (inv : s.Inv) {K : ℕ} (small : K < MAXOPBLOCKS) {e : LogEvent}
    (admissible : s.Admissible K e) (next : s.step e = .ok s') : s'.Inv := by
  cases e with
  | beginOp p =>
    simp only [LogSys.step] at next
    split at next <;> cases next
    exact inv.beginOp admissible ‹_›
  | logWrite p b =>
    simp only [LogSys.step] at next
    split at next <;> cases next
    exact inv.logWrite admissible.1 (lt_of_le_of_lt admissible.2 small) ‹_›
  | endOp p =>
    simp only [LogSys.step] at next
    split at next <;> cases next
    exact inv.endOp admissible ‹_›
  | committed =>
    simp only [LogSys.step] at next
    split at next <;> cases next
    have none := inv.quiet ‹_›
    refine ⟨inv.size, inv.nodup, inv.outstanding, nofun, fun _ _ => rfl, inv.bounded, ?_, ?_⟩
    · rw [none]
      exact nofun
    · exact Nat.le_trans (Nat.add_le_add_right (Nat.zero_le _) _) inv.space

theorem Inv.reachable {K start : ℕ} (small : K < MAXOPBLOCKS) (run : Reachable K start s) : s.Inv := by
  induction run with
  | init => exact inv_init start
  | step _ admissible next ih => exact ih.step small admissible next

theorem sound_of_lt {K : ℕ} (small : K < MAXOPBLOCKS) : Sound K := by
  intro start s run e admissible panics
  have inv := Inv.reachable small run
  cases e with
  | beginOp p =>
    simp only [LogSys.step] at panics
    split at panics <;> cases panics
  | logWrite p b =>
    have space := inv.space
    have room : ¬ (s.log.lh.n ≥ LOGSIZE ∨ (s.log.lh.n : ℤ) ≥ (s.log.size : ℤ) - 1) := by
      rw [inv.size]
      simp only [LOGSIZE, MAXOPBLOCKS] at space ⊢
      omega
    simp only [LogSys.step] at panics
    split at panics <;> cases panics
    rename_i full
    unfold Log.logWrite at full
    rw [if_neg room] at full
    dsimp only at full
    split at full
    · cases full
    · split at full <;> cases full
  | endOp p =>
    simp only [LogSys.step] at panics
    split at panics <;> cases panics
    rename_i full
    unfold Log.endOp at full
    dsimp only at full
    split at full
    · cases full
    · split at full <;> cases full
  | committed =>
    simp only [LogSys.step] at panics
    split at panics <;> cases panics

/-! ## Ten blocks are not -/

/-- The state after a list of admissible steps, if all of them are possible. -/
def runs (K : ℕ) (s : LogSys) : List LogEvent → Option LogSys
  | [] => some s
  | e :: es =>
      if s.Admissible K e then
        match s.step e with
        | .ok s' => runs K s' es
        | .error _ => none
      else none

theorem Reachable.runs {K start : ℕ} {s s' : LogSys} (reached : Reachable K start s)
    (es : List LogEvent) (h : s.runs K es = some s') : Reachable K start s' := by
  induction es generalizing s with
  | nil =>
    cases h
    exact reached
  | cons e es ih =>
    unfold LogSys.runs at h
    split at h
    · split at h
      · exact ih (.step reached ‹_› ‹_›) h
      · cases h
    · cases h

def tenEach : List LogEvent :=
  [.beginOp 0, .beginOp 1, .beginOp 2] ++
    (List.range 29).map fun i => .logWrite (i / 10) (100 + i)

theorem tenEach_panics : ∃ s, (init 2).runs MAXOPBLOCKS tenEach = some s ∧
    s.Admissible MAXOPBLOCKS (.logWrite 2 129) ∧
    s.step (.logWrite 2 129) = .error (.panic .tooBigTransaction) := by
  have found : ((init 2).runs MAXOPBLOCKS tenEach).any (fun s =>
      decide (s.Admissible MAXOPBLOCKS (.logWrite 2 129)) &&
        match s.step (.logWrite 2 129) with
        | .error (.panic .tooBigTransaction) => true
        | _ => false) = true := by set_option maxRecDepth 10000 in decide
  obtain ⟨s, run, check⟩ := (Option.any_eq_true _ _).1 found
  rw [Bool.and_eq_true, decide_eq_true_eq] at check
  refine ⟨s, run, check.1, ?_⟩
  have := check.2
  split at this
  · assumption
  · cases this

theorem Admissible.mono {K K' : ℕ} (le : K ≤ K') {e : LogEvent}
    (h : s.Admissible K e) : s.Admissible K' e := by
  cases e with
  | logWrite p b => exact ⟨h.1, le_trans h.2 le⟩
  | _ => exact h

theorem Reachable.mono {K K' start : ℕ} (le : K ≤ K') (run : Reachable K start s) :
    Reachable K' start s := by
  induction run with
  | init => exact .init
  | step _ admissible next ih => exact ih.step (admissible.mono le) next

/-- With ten blocks for each of three operations, the thirtieth `log_write` panics: the log has
`LOGSIZE - 1` data blocks, the reservation counts `LOGSIZE`. -/
theorem thirtieth_block_panics : ∃ s, Reachable MAXOPBLOCKS 2 s ∧
    s.Admissible MAXOPBLOCKS (.logWrite 2 129) ∧
    s.step (.logWrite 2 129) = .error (.panic .tooBigTransaction) := by
  obtain ⟨s, run, admissible, panics⟩ := tenEach_panics
  exact ⟨s, Reachable.init.runs tenEach run, admissible, panics⟩

/-- The reservation is sound exactly for operations that log fewer than `MAXOPBLOCKS` blocks. -/
theorem sound_iff (K : ℕ) : Sound K ↔ K < MAXOPBLOCKS := by
  refine ⟨fun sound => Nat.lt_of_not_le fun le => ?_, sound_of_lt⟩
  obtain ⟨s, run, admissible, panics⟩ := tenEach_panics
  exact sound 2 s ((Reachable.init.runs tenEach run).mono le) _ (admissible.mono le) panics

end LogSys

end Xv6
