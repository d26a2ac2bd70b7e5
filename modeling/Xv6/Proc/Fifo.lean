import Xv6.Lib.Ring
import Xv6.Proc.Monitor

/-!
# The pipe is a bounded queue

The bytes in the pipe are those put and not yet taken, in order, whatever the readers and writers do
and however often the counters wrap.  A `pipewrite` that has not slept since it took the lock has put
its bytes in one run.
-/

namespace Xv6.Proc

open Function List

variable {N p : ℕ} {care : Care} {ls : ℕ → Local} {s : State} {o : Step} {ch : Byte}

/-- The pipe and the history of what went through it. -/
structure Trade where
  pipe : Pipe
  nwrites : ℕ
  write : ℕ → ℕ
  slept : ℕ → Bool
  put : List (ℕ × Byte)
  taken : List Byte

/-- The pipe and what has gone through it. -/
def State.trade (s : State) : Trade := ⟨s.pipe, s.nwrites, s.write, s.slept, s.put, s.taken⟩

namespace Trade

/-- The bytes in the pipe are those put and not yet taken. -/
def Fifo (v : Trade) : Prop :=
  RingOk PIPESIZE v.pipe.data v.pipe.nread v.pipe.nwrite (v.put.map Prod.snd) v.taken

theorem Fifo.store {v v' : Trade} {w : ℕ} (fifo : v.Fifo) (notFull : ¬ v.pipe.Full)
    (pipe : v'.pipe = v.pipe.store ch) (more : v'.put = v.put ++ [(w, ch)])
    (taken : v'.taken = v.taken) : v'.Fifo := by
  rw [Fifo, pipe, more, taken, map_append]
  exact RingOk.store fifo (by decide) (fifo.room notFull) ch

def Last (v : Trade) (w : ℕ) : Prop :=
  ∃ a b, v.put = a ++ b ∧ (∀ x ∈ a, x.1 ≠ w) ∧ ∀ x ∈ b, x.1 = w

/-- The bytes that call `w` has put are contiguous. -/
def Contiguous (v : Trade) (w : ℕ) : Prop :=
  ∃ a b c, v.put = a ++ b ++ c ∧ (∀ x ∈ a ++ c, x.1 ≠ w) ∧ ∀ x ∈ b, x.1 = w

theorem Last.contiguous {v : Trade} {w : ℕ} (last : v.Last w) : v.Contiguous w := by
  obtain ⟨a, b, split, before, own⟩ := last
  exact ⟨a, b, [], by simp [split], by simpa using before, own⟩

theorem Last.put {v v' : Trade} {w : ℕ} (last : v.Last w)
    (more : v'.put = v.put ++ [(w, ch)]) : v'.Last w := by
  obtain ⟨a, b, split, before, own⟩ := last
  refine ⟨a, b ++ [(w, ch)], by simp [more, split], before, fun x hx => ?_⟩
  rcases mem_append.mp hx with h | h
  · exact own x h
  · rw [mem_singleton.mp h]

theorem Contiguous.other {v v' : Trade} {w w' : ℕ} (contiguous : v.Contiguous w)
    (more : v'.put = v.put ++ [(w', ch)]) (other : w' ≠ w) : v'.Contiguous w := by
  obtain ⟨a, b, c, split, around, own⟩ := contiguous
  refine ⟨a, b, c ++ [(w', ch)], by simp [more, split], fun x hx => ?_, own⟩
  rw [← append_assoc] at hx
  rcases mem_append.mp hx with h | h
  · exact around x h
  · rwa [mem_singleton.mp h]

end Trade

/-- The pipe passes on what is written, in order. -/
structure FifoOk (ls : ℕ → Local) (v : Trade) : Prop where
  fifo : v.Fifo
  ids : ∀ x ∈ v.put, x.1 < v.nwrites
  mine : ∀ q, (ls q).writing ≠ .no → v.write q < v.nwrites
  /-- Two processes are in different calls. -/
  distinct : ∀ q r, (ls q).writing ≠ .no → (ls r).writing ≠ .no → v.write q = v.write r → q = r
  fresh : ∀ q, (ls q).writing = .fresh → ∀ x ∈ v.put, x.1 ≠ v.write q
  block : ∀ q, (ls q).writing = .block → .pipe ∈ (ls q).held ∧ v.Last (v.write q)
  loose : ∀ q, (ls q).writing = .loose → v.slept (v.write q) = true
  contiguous : ∀ w, v.slept w = false → v.Contiguous w

attribute [local grind =] update_apply

namespace FifoOk

variable {v v' : Trade} {ℓ : Local}

theorem ghost (inv : FifoOk ls v) (writing : ℓ.writing = (ls p).writing)
    (held : (ls p).writing = .block → .pipe ∈ (ls p).held → .pipe ∈ ℓ.held) :
    FifoOk (update ls p ℓ) v := by
  obtain ⟨fifo, ids, mine, distinct, fresh, block, loose, contiguous⟩ := inv
  refine ⟨fifo, ids, ?_, ?_, ?_, ?_, ?_, contiguous⟩ <;> grind

theorem enter (inv : FifoOk ls v) (fresh : (ls p).writing = .fresh) (writing : ℓ.writing = .block)
    (held : .pipe ∈ ℓ.held) : FifoOk (update ls p ℓ) v := by
  have last : v.Last (v.write p) := ⟨v.put, [], by simp, inv.fresh p fresh, nofun⟩
  obtain ⟨fifo, ids, mine, distinct, fresh', block, loose, contiguous⟩ := inv
  refine ⟨fifo, ids, ?_, ?_, ?_, ?_, ?_, contiguous⟩ <;> grind

theorem leave (inv : FifoOk ls v) (writing : ℓ.writing = .no) : FifoOk (update ls p ℓ) v := by
  obtain ⟨fifo, ids, mine, distinct, fresh', block, loose, contiguous⟩ := inv
  refine ⟨fifo, ids, ?_, ?_, ?_, ?_, ?_, contiguous⟩ <;> grind

theorem last_congr (put : v'.put = v.put) (w : ℕ) : v'.Last w = v.Last w := by
  simp only [Trade.Last, put]

theorem contiguous_congr (put : v'.put = v.put) (w : ℕ) : v'.Contiguous w = v.Contiguous w := by
  simp only [Trade.Contiguous, put]

theorem pipe (inv : FifoOk ls v) (alone : ∀ q, .pipe ∈ (ls q).held → q = p) (fifo : v'.Fifo)
    (nwrites : v'.nwrites = v.nwrites) (write : v'.write = v.write) (slept : v'.slept = v.slept)
    (put : v'.put = v.put) (writing : ℓ.writing = .no) : FifoOk (update ls p ℓ) v' := by
  have last := last_congr put
  have contiguous := contiguous_congr put
  obtain ⟨fifo', ids, mine, distinct, fresh', block, loose, contiguous'⟩ := inv
  refine ⟨fifo, ?_, ?_, ?_, ?_, ?_, ?_, ?_⟩ <;> grind

theorem start (inv : FifoOk ls v) (writing : ℓ.writing = .fresh)
    (pipe : v'.pipe = v.pipe) (nwrites : v'.nwrites = v.nwrites + 1)
    (write : ∀ q, v'.write q = if q = p then v.nwrites else v.write q) (slept : v'.slept = v.slept)
    (put : v'.put = v.put) (taken : v'.taken = v.taken) : FifoOk (update ls p ℓ) v' := by
  have last := last_congr put
  have contiguous := contiguous_congr put
  have fifo : v'.Fifo = v.Fifo := by simp only [Trade.Fifo, pipe, put, taken]
  obtain ⟨fifo', ids, mine, distinct, fresh', block, loose, contiguous'⟩ := inv
  refine ⟨fifo ▸ fifo', fun x hx => ?_, ?_, ?_, ?_, ?_, ?_, ?_⟩
  · rw [nwrites]
    exact Nat.lt_succ_of_lt (ids x (put ▸ hx))
  all_goals grind

theorem sleep (inv : FifoOk ls v) (begun : (ls p).writing ≠ .no) (writing : ℓ.writing = .loose)
    (pipe : v'.pipe = v.pipe) (nwrites : v'.nwrites = v.nwrites) (write : v'.write = v.write)
    (slept : ∀ w, v'.slept w = if w = v.write p then true else v.slept w)
    (put : v'.put = v.put) (taken : v'.taken = v.taken) : FifoOk (update ls p ℓ) v' := by
  have last := last_congr put
  have contiguous := contiguous_congr put
  have fifo : v'.Fifo = v.Fifo := by simp only [Trade.Fifo, pipe, put, taken]
  obtain ⟨fifo', ids, mine, distinct, fresh', block, loose, contiguous'⟩ := inv
  refine ⟨fifo ▸ fifo', ?_, ?_, ?_, ?_, ?_, ?_, ?_⟩ <;> grind

theorem put (inv : FifoOk ls v) (alone : ∀ q, .pipe ∈ (ls q).held → q = p) (fifo : v'.Fifo)
    (nwrites : v'.nwrites = v.nwrites) (write : v'.write = v.write) (slept : v'.slept = v.slept)
    (more : v'.put = v.put ++ [(v.write p, ch)])
    (begun : (ls p).writing = .block ∨ (ls p).writing = .loose) (writing : ℓ.writing = (ls p).writing)
    (held : .pipe ∈ ℓ.held) : FifoOk (update ls p ℓ) v' := by
  obtain ⟨fifo', ids, mine, distinct, fresh, block, loose, contiguous⟩ := inv
  have own : (ls p).writing ≠ .no := by rcases begun with h | h <;> rw [h] <;> nofun
  have mem {x : ℕ × Byte} (hx : x ∈ v'.put) : x ∈ v.put ∨ x = (v.write p, ch) := by
    rw [more] at hx
    exact (mem_append.mp hx).imp id mem_singleton.mp
  refine ⟨fifo, fun x hx => ?_, ?_, ?_, fun q hq x hx => ?_, fun q hq => ?_, ?_, fun w hw => ?_⟩
  · grind
  · grind
  · grind
  · have other : q ≠ p := by grind
    rw [update_of_ne other] at hq
    rw [write]
    rcases mem hx with h | rfl
    · exact fresh q hq x h
    · exact fun clash => other (distinct q p (by simp [hq]) own clash.symm)
  · have hp : q = p := by grind
    subst hp
    rw [update_self, writing] at hq
    rw [update_self, write]
    exact ⟨held, (block q hq).2.put more⟩
  · grind
  · rw [slept] at hw
    by_cases mine : v.write p = w
    · subst mine
      rcases begun with h | h
      · exact ((block p h).2.put more).contiguous
      · cases (loose p h).symm.trans hw
    · exact (contiguous w hw).other more mine

theorem step (inv : FifoOk ls s.trade) (locks : LocksOk ls s) (know : KnowOk ls s.pipe)
    (allowed : (ls p).Allows N care p o) :
    o.After N p s fun r s' => FifoOk (update ls p ((ls p).next p o r)) s'.trade := by
  have alone {l : Lock} (held : l ∈ (ls p).held) (q : ℕ) (hq : l ∈ (ls q).held) : q = p :=
    locks.unique hq held
  have erased (l : Lock) (other : l ≠ .pipe) (held : .pipe ∈ (ls p).held) :
      .pipe ∈ (ls p).held.erase l :=
    (mem_erase_of_ne other.symm).mpr held
  cases o with
  | acquire l =>
    refine after_acquire fun _ => ?_
    by_cases enters : l = .pipe ∧ (ls p).writing = .fresh
    · obtain ⟨rfl, fresh⟩ := enters
      exact inv.enter fresh (by simp [fresh]) mem_cons_self
    · exact inv.ghost (by simp [enters]) fun _ h => mem_cons_of_mem _ h
  | release l =>
    refine .guard fun _ => ?_
    by_cases hl : l = .pipe
    · exact inv.leave (by simp [hl])
    · exact inv.ghost (by simp [hl]) fun _ => erased l hl
  | releaseFor l c =>
    obtain ⟨-, -, -, -, -, -, -, -, -, -, writer, reader, -⟩ := allowed
    refine .guard fun _ => ?_
    by_cases hc : c = .nwrite
    · simp only [if_pos hc]
      refine inv.sleep ?_ (by simp [hc]) rfl rfl rfl (update_apply _ _ _) rfl rfl
      rcases writer hc with h | h <;> rw [h] <;> rintro ⟨⟩
    · simp only [if_neg hc]
      exact inv.ghost (by simp [hc]) fun h => absurd (h.symm.trans (reader hc)) (by rintro ⟨⟩)
  | swtch => exact .guard fun _ => inv.ghost rfl fun _ h => by simp [allowed.1] at h
  | resume => exact .guard fun _ => inv.ghost rfl fun _ h => by simp [allowed.2.1] at h
  | writeBegin =>
    exact inv.start rfl rfl rfl (update_apply _ _ _) rfl rfl rfl
  | putByte ch =>
    obtain ⟨lock, room, writing, -⟩ := allowed
    have notFull := of_decide_eq_false ((know p).full false room).2
    exact inv.put (alone lock) (inv.fifo.store notFull rfl rfl rfl) rfl rfl rfl rfl writing rfl lock
  | takeByte =>
    obtain ⟨lock, some', idle, -⟩ := allowed
    have notEmpty := of_decide_eq_false ((know p).empty false some').2
    exact inv.pipe (alone lock) (inv.fifo.take (by decide) (inv.fifo.some notEmpty)) rfl rfl rfl rfl
      idle
  | closeEnd writable =>
    obtain ⟨lock, -, idle⟩ := allowed
    refine inv.pipe (alone lock) ?_ rfl rfl rfl rfl idle
    cases writable <;> exact inv.fifo
  | killIf q pid =>
    refine after_killIf ?_ (fun _ _ => ?_) fun _ _ => ?_
    all_goals exact inv.ghost rfl fun _ => id
  | wakeIf q c | allocSlot q | exiting status | reparent q | reap q | more =>
    simp only [Step.After, Step.exec]
    repeat' split
    all_goals first | exact inv.ghost rfl fun _ => id | trivial
  | _ => exact inv.ghost rfl fun _ => id

end FifoOk

end Xv6.Proc
