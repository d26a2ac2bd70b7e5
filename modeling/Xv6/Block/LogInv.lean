import Xv6.Block.Log
import Mathlib.Data.List.GetD

/-!
# The invariant of the block layer

`BInv` is what every operation of every process keeps.  It relates the buffer cache, the in-memory log
header, the processes inside a transaction and the progress of the one that is committing.  The local
ghost of a process says what it may rely on between two of its operations.
-/

namespace Xv6

open Function List

/-! ## Disk writes -/

def applyWrites (d : ℕ → Block) (ws : List (ℕ × Block)) : ℕ → Block :=
  ws.foldl (fun d w => update d w.1 w.2) d

@[simp] theorem applyWrites_nil (d : ℕ → Block) : applyWrites d [] = d := rfl

@[simp] theorem applyWrites_cons (d : ℕ → Block) (w : ℕ × Block) (ws : List (ℕ × Block)) :
    applyWrites d (w :: ws) = applyWrites (update d w.1 w.2) ws := rfl

theorem applyWrites_append (d : ℕ → Block) (ws ws' : List (ℕ × Block)) :
    applyWrites d (ws ++ ws') = applyWrites (applyWrites d ws) ws' := by
  simp only [applyWrites, foldl_append]

theorem applyWrites_concat (d : ℕ → Block) (ws : List (ℕ × Block)) (w : ℕ × Block) :
    applyWrites d (ws ++ [w]) = update (applyWrites d ws) w.1 w.2 := by
  rw [applyWrites_append]
  rfl

theorem applyWrites_last {d : ℕ → Block} {ws : List (ℕ × Block)} {k b : ℕ} {x : Block}
    (write : ws[k]? = some (b, x)) (later : ∀ k' w, k < k' → ws[k']? = some w → w.1 ≠ b) :
    applyWrites d ws b = x := by
  induction ws using List.reverseRecOn with
  | nil => simp at write
  | append_singleton ws w ih =>
    rw [applyWrites_concat]
    rcases lt_trichotomy k ws.length with lt | rfl | gt
    · rw [getElem?_append_left lt] at write
      rw [update_of_ne (later ws.length w lt (by simp)).symm]
      refine ih write fun k' w' hk' hw' => later k' w' hk' ?_
      rwa [List.getElem?_append_left (List.getElem?_eq_some_iff.1 hw').1]
    · obtain rfl : w = (b, x) := by simpa using write
      rw [update_self]
    · rw [getElem?_eq_none (by simp; omega)] at write
      cases write

theorem applyWrites_of_forall_ne {d : ℕ → Block} {ws : List (ℕ × Block)} {b : ℕ}
    (other : ∀ (k : ℕ) (w : ℕ × Block), ws[k]? = some w → w.1 ≠ b) : applyWrites d ws b = d b := by
  induction ws using List.reverseRecOn with
  | nil => rfl
  | append_singleton ws w ih =>
    rw [applyWrites_concat, update_of_ne (other ws.length w (by simp)).symm]
    refine ih fun k w' hw' => other k w' ?_
    rwa [List.getElem?_append_left (List.getElem?_eq_some_iff.1 hw').1]

/-- The place of the log on the disk, the transactions that are committed, and whether the cache has to
agree with the disk. -/
structure Env where
  start : ℕ
  size : ℕ
  T : (ℕ → Block) → List ℕ → (ℕ → Block) → Prop
  strict : Prop

/-- `b` belongs to the file system proper: it is a block number and not a block of the log. -/
def Env.Home (E : Env) (b : ℕ) : Prop := b < 2 ^ 32 ∧ (b < E.start ∨ E.start + E.size ≤ b)

/-- The cache has to agree with the disk on block `b` when no process is changing it. -/
def Env.Tracked (E : Env) (b : ℕ) : Prop := E.strict ∨ ¬ E.Home b

/-- The block is a header that lists exactly `blocks`. -/
def Heads (d : Block) (blocks : List ℕ) : Prop :=
  LogHeader.count d = blocks.length ∧ ∀ lh : LogHeader, (lh.read d).blocks = blocks

/-- The `k`-th disk write of a commit: the copies into the log, the header, the copies to the home
locations, the empty header. -/
def CommitWrite (start : ℕ) (blocks : List ℕ) (new : ℕ → Block) (k : ℕ) (w : ℕ × Block) : Prop :=
  if k < blocks.length then w = (start + k + 1, new (blocks.getD k 0))
  else if k = blocks.length then w.1 = start ∧ Heads w.2 blocks
  else if k ≤ 2 * blocks.length then
    w = (blocks.getD (k - blocks.length - 1) 0, new (blocks.getD (k - blocks.length - 1) 0))
  else k = 2 * blocks.length + 1 ∧ w.1 = start ∧ Heads w.2 []

def CommitWrites (start : ℕ) (blocks : List ℕ) (new : ℕ → Block) (ws : List (ℕ × Block)) : Prop :=
  ∀ k w, ws[k]? = some w → CommitWrite start blocks new k w

def commitAddr (start : ℕ) (blocks : List ℕ) (k : ℕ) : ℕ :=
  if k < blocks.length then start + k + 1
  else if k = blocks.length then start
  else if k ≤ 2 * blocks.length then blocks.getD (k - blocks.length - 1) 0
  else start

theorem CommitWrite.addr {start : ℕ} {blocks : List ℕ} {new : ℕ → Block} {k : ℕ} {w : ℕ × Block}
    (h : CommitWrite start blocks new k w) : w.1 = commitAddr start blocks k := by
  unfold CommitWrite at h
  unfold commitAddr
  split_ifs at h ⊢
  · rw [h]
  · exact h.1
  · rw [h]
  · exact h.2.1

section CommitWrites

variable {start size : ℕ} {blocks : List ℕ} {new base : ℕ → Block} {ws : List (ℕ × Block)}

theorem CommitWrites.concat (writes : CommitWrites start blocks new ws) {w : ℕ × Block}
    (next : CommitWrite start blocks new ws.length w) : CommitWrites start blocks new (ws ++ [w]) := by
  intro k w' hw'
  rcases lt_trichotomy k ws.length with lt | rfl | gt
  · rw [getElem?_append_left lt] at hw'
    exact writes k w' hw'
  · obtain rfl : w = w' := by simpa using hw'
    exact next
  · rw [getElem?_eq_none (by simp; omega)] at hw'
    cases hw'

theorem commitAddr_home (start : ℕ) {k : ℕ} (lo : blocks.length < k) (hi : k ≤ 2 * blocks.length) :
    commitAddr start blocks k = blocks.getD (k - blocks.length - 1) 0 ∧
      commitAddr start blocks k ∈ blocks := by
  have eq : commitAddr start blocks k = blocks.getD (k - blocks.length - 1) 0 := by
    unfold commitAddr
    rw [if_neg (by omega), if_neg (by omega), if_pos hi]
  refine ⟨eq, ?_⟩
  rw [eq, getD_eq_getElem _ _ (by omega)]
  exact getElem_mem _

theorem CommitWrites.log (writes : CommitWrites start blocks new ws)
    (outside : ∀ b ∈ blocks, b < start ∨ start + size ≤ b) (fits : blocks.length < size)
    {j : ℕ} (hj : j < blocks.length) (done : j < ws.length) :
    applyWrites base ws (start + j + 1) = new (blocks.getD j 0) := by
  obtain ⟨w, hw⟩ : ∃ w, ws[j]? = some w := ⟨_, getElem?_eq_getElem done⟩
  have write := writes j w hw
  unfold CommitWrite at write
  rw [if_pos hj] at write
  subst write
  refine applyWrites_last hw fun k' w' lt hw' => ?_
  rw [(writes k' w' hw').addr]
  by_cases home : blocks.length < k' ∧ k' ≤ 2 * blocks.length
  · have := outside _ (commitAddr_home start home.1 home.2).2
    omega
  · unfold commitAddr
    split_ifs <;> omega

theorem CommitWrites.home (writes : CommitWrites start blocks new ws)
    (outside : ∀ b ∈ blocks, b < start ∨ start + size ≤ b) (fits : blocks.length < size)
    (nodup : blocks.Nodup) {j b : ℕ} (hj : blocks[j]? = some b)
    (done : blocks.length + 1 + j < ws.length) : applyWrites base ws b = new b := by
  obtain ⟨lt, rfl⟩ := List.getElem?_eq_some_iff.1 hj
  obtain ⟨w, hw⟩ : ∃ w, ws[blocks.length + 1 + j]? = some w := ⟨_, getElem?_eq_getElem done⟩
  have write := writes _ w hw
  unfold CommitWrite at write
  rw [if_neg (by omega), if_neg (by omega), if_pos (by omega),
    show blocks.length + 1 + j - blocks.length - 1 = j by omega,
    getD_eq_getElem _ _ lt] at write
  subst write
  refine applyWrites_last hw fun k' w' later hw' => ?_
  rw [(writes k' w' hw').addr]
  by_cases home : k' ≤ 2 * blocks.length
  · rw [(commitAddr_home start (by omega) home).1, getD_eq_getElem _ _ (by omega)]
    intro eq
    have := (List.Nodup.getElem_inj_iff nodup).1 eq
    omega
  · have := outside _ (getElem_mem lt)
    unfold commitAddr
    split_ifs <;> omega

end CommitWrites

def BState.pins (s : BState) : List ℕ := s.log.lh.blocks.drop s.installed

/-! ## Local ghosts -/

/-- What the holder of a buffer's sleep-lock knows about its contents. -/
inductive Known where
  | unknown
  | invalid
  | data (d : Block)

def Known.Ok : Known → Buf → Prop
  | .unknown, _ => True
  | .invalid, x => x.valid = false
  | .data d, x => x.valid = true ∧ x.data = d

/-- A buffer locked by a process; it is dirty when its contents were changed and neither logged
nor written to the disk since. -/
structure Held where
  blockno : ℕ
  known : Known
  dirty : Bool

/-- The progress of a commit: its blocks and contents, the disk it started from, the disk writes and
released pins, and whether the header in memory is empty. -/
structure Work where
  blocks : List ℕ
  new : ℕ → Block
  base : ℕ → Block
  wrote : ℕ
  inst : ℕ
  cleared : Bool

/-- What the commit knows about a block that it reads: a pinned block has its new contents, a block of
the log the copy made earlier. -/
def Work.Reads (w : Work) (start b : ℕ) (d : Block) : Prop :=
  (w.cleared = false → b ∈ w.blocks.drop w.inst → d = w.new b) ∧
    ∀ j < w.blocks.length, j < w.wrote → b = start + j + 1 → d = w.new (w.blocks.getD j 0)

/-- The local ghost of a process: whether it is in a transaction and which blocks it has logged there,
the buffers it has obtained but not locked, those it has locked, and the commit it is running. -/
structure Local where
  inOp : Bool
  mine : List ℕ
  extra : List (ℕ × ℕ)
  held : ℕ → Option Held
  work : Option Work

def Local.init : Local := ⟨false, [], [], fun _ => none, none⟩

def Local.hold (ℓ : Local) (i : ℕ) (h : Held) : Local :=
  { ℓ with held := update ℓ.held i (some h) }

def Local.unhold (ℓ : Local) (i : ℕ) : Local :=
  { ℓ with held := update ℓ.held i none }

def Local.setWork (ℓ : Local) (w : Option Work) : Local := { ℓ with work := w }

section

variable (ℓ : Local) (i : ℕ) (h : Held) (w : Option Work)

@[simp] theorem Local.hold_inOp : (ℓ.hold i h).inOp = ℓ.inOp := rfl

@[simp] theorem Local.hold_mine : (ℓ.hold i h).mine = ℓ.mine := rfl

@[simp] theorem Local.hold_extra : (ℓ.hold i h).extra = ℓ.extra := rfl

@[simp] theorem Local.hold_work : (ℓ.hold i h).work = ℓ.work := rfl

@[simp] theorem Local.unhold_inOp : (ℓ.unhold i).inOp = ℓ.inOp := rfl

@[simp] theorem Local.unhold_mine : (ℓ.unhold i).mine = ℓ.mine := rfl

@[simp] theorem Local.unhold_extra : (ℓ.unhold i).extra = ℓ.extra := rfl

@[simp] theorem Local.unhold_work : (ℓ.unhold i).work = ℓ.work := rfl

@[simp] theorem Local.setWork_inOp : (ℓ.setWork w).inOp = ℓ.inOp := rfl

@[simp] theorem Local.setWork_mine : (ℓ.setWork w).mine = ℓ.mine := rfl

@[simp] theorem Local.setWork_extra : (ℓ.setWork w).extra = ℓ.extra := rfl

end

@[simp] theorem Local.setWork_work (ℓ : Local) (w : Option Work) : (ℓ.setWork w).work = w := rfl

@[simp] theorem Local.setWork_held (ℓ : Local) (w : Option Work) :
    (ℓ.setWork w).held = ℓ.held := rfl

@[simp] theorem Local.hold_self (ℓ : Local) (i : ℕ) (h : Held) : (ℓ.hold i h).held i = some h :=
  update_self ..

@[simp] theorem Local.hold_of_ne (ℓ : Local) {i j : ℕ} (h : Held) (hj : j ≠ i) :
    (ℓ.hold i h).held j = ℓ.held j := update_of_ne hj ..

@[simp] theorem Local.unhold_self (ℓ : Local) (i : ℕ) : (ℓ.unhold i).held i = none :=
  update_self ..

@[simp] theorem Local.unhold_of_ne (ℓ : Local) {i j : ℕ} (hj : j ≠ i) :
    (ℓ.unhold i).held j = ℓ.held j := update_of_ne hj ..

@[simp] theorem Local.hold_hold (ℓ : Local) (i : ℕ) (h h' : Held) :
    (ℓ.hold i h).hold i h' = ℓ.hold i h' := by
  simp only [Local.hold, update_idem]

theorem Local.ext {ℓ ℓ' : Local} (inOp : ℓ.inOp = ℓ'.inOp) (mine : ℓ.mine = ℓ'.mine)
    (extra : ℓ.extra = ℓ'.extra) (held : ∀ i, ℓ.held i = ℓ'.held i) (work : ℓ.work = ℓ'.work) :
    ℓ = ℓ' := by
  cases ℓ
  cases ℓ'
  cases inOp
  cases mine
  cases extra
  cases work
  cases funext held
  rfl

theorem Local.held_unhold {ℓ ℓ' : Local} {i : ℕ} (hi : ℓ.held i = none)
    (rest : ∀ x, x ≠ i → ℓ'.held x = ℓ.held x) (x : ℕ) : (ℓ'.unhold i).held x = ℓ.held x := by
  by_cases hxi : x = i
  · rw [hxi, Local.unhold_self, hi]
  · rw [Local.unhold_of_ne _ hxi, rest x hxi]

theorem Local.held_unhold_unhold {ℓ ℓ' : Local} {i j : ℕ} (hi : ℓ.held i = none)
    (hj : ℓ.held j = none) (rest : ∀ x, x ≠ i → x ≠ j → ℓ'.held x = ℓ.held x) (x : ℕ) :
    ((ℓ'.unhold i).unhold j).held x = ℓ.held x := by
  refine Local.held_unhold hj (fun y hyj => ?_) x
  by_cases hyi : y = i
  · rw [hyi, Local.unhold_self, hi]
  · rw [Local.unhold_of_ne _ hyi, rest y hyi hyj]

def Local.logs (ℓ : Local) (i b : ℕ) (d : Block) : Local :=
  { ℓ.hold i ⟨b, .data d, false⟩ with mine := b :: ℓ.mine }

@[simp] theorem Local.logs_held (ℓ : Local) (i b : ℕ) (d : Block) :
    (ℓ.logs i b d).held = (ℓ.hold i ⟨b, .data d, false⟩).held := rfl

variable (E : Env)

/-- The state agrees with the progress of a commit. -/
structure WorkOk (s : BState) (w : Work) : Prop where
  committing : s.log.committing = true
  admitted : E.T w.base w.blocks w.new
  latest : s.latest = w.new
  installed : s.installed = w.inst
  wrote : s.tx.length = w.wrote
  disk : s.disk = applyWrites w.base s.tx
  writes : CommitWrites E.start w.blocks w.new s.tx
  blocks : s.log.lh.blocks = if w.cleared then [] else w.blocks
  nodup : w.blocks.Nodup
  home : ∀ b ∈ w.blocks, E.Home b
  fits : w.blocks.length ≤ LOGSIZE ∧ w.blocks.length < E.size
  progress : w.inst ≠ 0 → w.blocks.length + 1 + w.inst ≤ w.wrote

/-- The state agrees with the local ghost of process `q`. -/
structure LocalOk (s : BState) (q : ℕ) (ℓ : Local) : Prop where
  lock : ∀ i, (s.cache.buf i).lock = some q ↔ (ℓ.held i).isSome = true
  held : ∀ i h, ℓ.held i = some h →
    i < NBUF ∧ (s.cache.buf i).Caches h.blockno ∧ h.known.Ok (s.cache.buf i)
  extra : ∀ e ∈ ℓ.extra, e.1 < NBUF ∧ (s.cache.buf e.1).Caches e.2
  gets : ∀ i, s.gets.count (q, i) =
    ℓ.extra.countP (fun e => e.1 = i) + (ℓ.held i).elim 0 fun _ => 1
  inOp : q ∈ s.ops ↔ ℓ.inOp = true
  mine : ∀ b ∈ ℓ.mine, ℓ.inOp = true ∧ b ∈ s.log.lh.blocks
  work : ∀ w, ℓ.work = some w → WorkOk E s w

/-- Some process has changed buffer `i` and still holds its lock. -/
def Dirty (ls : ℕ → Local) (i : ℕ) : Prop := ∃ q h, (ls q).held i = some h ∧ h.dirty = true

/-- The part of the invariant that does not mention the local ghosts. -/
structure StateOk (s : BState) : Prop where
  start : s.log.start = E.start
  size : s.log.size = E.size
  wf : s.cache.WF
  refs : ∀ i < NBUF, (s.cache.buf i).refcnt = s.gets.countP (fun g => g.2 = i) +
    if (s.cache.buf i).dev = ROOTDEV then s.pins.count (s.cache.buf i).blockno else 0
  opsNodup : s.ops.Nodup
  outstanding : s.log.outstanding = s.ops.length
  quiet : s.log.committing = true → s.ops = []
  lhNodup : s.log.lh.blocks.Nodup
  logged : ∀ b, b ∈ s.log.lh.blocks ↔ b ∈ s.logged
  home : ∀ b ∈ s.log.lh.blocks, E.Home b
  fits : s.log.lh.n ≤ LOGSIZE ∧ s.log.lh.n < E.size
  notInstalled : s.log.committing = false → s.installed = 0
  pinned : ∀ b ∈ s.pins, ∃ i < NBUF, (s.cache.buf i).Caches b ∧
    (s.cache.buf i).valid = true ∧ (s.cache.buf i).data = s.latest b
  empty : s.log.committing = false → s.ops = [] → s.log.lh.n = 0

/-- The invariant of the cache and the log. -/
structure BInv (ls : ℕ → Local) (s : BState) : Prop where
  state : StateOk E s
  locals : ∀ q, LocalOk E s q (ls q)
  worker : s.log.committing = true → ∃ q w, (ls q).work = some w
  single : ∀ q r, (ls q).work ≠ none → (ls r).work ≠ none → q = r
  coherent : ∀ i < NBUF, E.Tracked (s.cache.buf i).blockno → (s.cache.buf i).dev = ROOTDEV →
    (s.cache.buf i).valid = true → (s.cache.buf i).blockno ∉ s.pins → ¬ Dirty ls i →
    (s.cache.buf i).data = s.disk (s.cache.buf i).blockno

end Xv6
