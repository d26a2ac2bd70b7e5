import Xv6.Block.Bio
import Xv6.Lib.Prog

/-!
# The log

The write-ahead log of `log.c` on top of the buffer cache.  Each section of the code that runs under
`bcache.lock` or `log.lock`, each use of a sleep-lock and each transfer of a block is one atomic
operation, and the functions of `bio.c` and `log.c` are programs over these operations.  The state also
records the history that the specifications speak about.
-/

namespace Xv6

open Function List

/-- `struct logheader`. -/
structure LogHeader where
  n : ℕ
  block : ℕ → ℕ

namespace LogHeader

/-- The logged block numbers `block[0]`, …, `block[n-1]`. -/
def blocks (lh : LogHeader) : List ℕ := (List.range lh.n).map lh.block

def slot (lh : LogHeader) (b : ℕ) : ℕ :=
  ((List.range lh.n).find? fun i => lh.block i = b).getD lh.n

def count (d : Block) : ℤ := (d.word 0 4).toInt

/-- The loop of `read_head`: copy the count and the entries it covers from a block. -/
def read (lh : LogHeader) (d : Block) : LogHeader :=
  let n := (count d).toNat
  ⟨n, fun i => if i < n then (d.word (4 + 4 * i) 4).toNat else lh.block i⟩

/-- The loop of `write_head`: store the count and the entries it covers into a block. -/
def write (lh : LogHeader) (d : Block) : Block :=
  (List.range lh.n).foldl (fun d i => d.setWord (4 + 4 * i) 4 (BitVec.ofNat 32 (lh.block i)))
    (d.setWord 0 4 (BitVec.ofNat 32 lh.n))

end LogHeader

/-- `struct log`. -/
structure Log where
  start : ℕ
  size : ℕ
  outstanding : ℤ
  committing : Bool
  lh : LogHeader

namespace Log

/-- One pass of the loop of `begin_op`; `none` when the process has to sleep. -/
def beginOp (l : Log) : Option Log :=
  if l.committing then none
  else if l.lh.n + (l.outstanding + 1) * MAXOPBLOCKS > LOGSIZE then none
  else some { l with outstanding := l.outstanding + 1 }

/-- The first critical section of `end_op`, with the value of `do_commit`. -/
def endOp (l : Log) : Except Panic (Bool × Log) :=
  let l' := { l with outstanding := l.outstanding - 1 }
  if l.committing then .error .logCommitting
  else if l'.outstanding = 0 then .ok (true, { l' with committing := true })
  else .ok (false, l')

/-- The critical section of `log_write` for a buffer of block `b`, and whether its buffer must be
pinned. -/
def logWrite (l : Log) (b : ℕ) : Except Panic (Bool × Log) :=
  if l.lh.n ≥ LOGSIZE ∨ (l.lh.n : ℤ) ≥ (l.size : ℤ) - 1 then .error .tooBigTransaction
  else if l.outstanding < 1 then .error .logWriteOutsideTrans
  else
    let i := l.lh.slot b
    let block := update l.lh.block i b
    if i = l.lh.n then .ok (true, { l with lh := ⟨l.lh.n + 1, block⟩ })
    else .ok (false, { l with lh := ⟨l.lh.n, block⟩ })

end Log

namespace LogHeader

theorem length_blocks (lh : LogHeader) : lh.blocks.length = lh.n := by
  simp [blocks]

theorem getElem_blocks (lh : LogHeader) {i : ℕ} (hi : i < lh.n) :
    lh.blocks[i]? = some (lh.block i) := by
  simp [blocks, hi]

theorem getElem_of_blocks {lh : LogHeader} {bs : List ℕ} (h : lh.blocks = bs) {i : ℕ}
    (hi : i < bs.length) : bs[i]? = some (lh.block i) := by
  subst h
  exact lh.getElem_blocks (by rwa [length_blocks] at hi)

theorem blocks_congr {lh lh' : LogHeader} (n : lh.n = lh'.n)
    (block : ∀ i < lh.n, lh.block i = lh'.block i) : lh.blocks = lh'.blocks := by
  unfold blocks
  rw [← n]
  exact map_congr_left fun i hi => block i (mem_range.1 hi)

theorem slot_cases (lh : LogHeader) (b : ℕ) :
    (lh.slot b < lh.n ∧ lh.block (lh.slot b) = b) ∨ (lh.slot b = lh.n ∧ b ∉ lh.blocks) := by
  unfold slot
  cases found : (List.range lh.n).find? fun i => lh.block i = b with
  | some i =>
    refine .inl ⟨?_, ?_⟩
    · simpa using mem_of_find?_eq_some found
    · simpa using find?_some found
  | none =>
    refine .inr ⟨rfl, ?_⟩
    have := find?_eq_none.1 found
    simpa [blocks] using this

end LogHeader

theorem Log.logWrite_ok {l l' : Log} {b : ℕ} {new : Bool} (h : l.logWrite b = .ok (new, l')) :
    l.lh.n < LOGSIZE ∧ l.lh.n + 1 < l.size ∧ ∃ lh, l' = { l with lh := lh } ∧
      ((new = true ∧ b ∉ l.lh.blocks ∧ lh.blocks = l.lh.blocks ++ [b]) ∨
        (new = false ∧ b ∈ l.lh.blocks ∧ lh.blocks = l.lh.blocks)) := by
  unfold logWrite at h
  by_cases full : l.lh.n ≥ LOGSIZE ∨ (l.lh.n : ℤ) ≥ (l.size : ℤ) - 1
  · rw [if_pos full] at h
    cases h
  rw [if_neg full] at h
  by_cases outside : l.outstanding < 1
  · rw [if_pos outside] at h
    cases h
  rw [if_neg outside] at h
  dsimp only at h
  refine ⟨by omega, by omega, ?_⟩
  rcases l.lh.slot_cases b with ⟨lt, eq⟩ | ⟨eq, absent⟩
  · rw [if_neg (ne_of_lt lt)] at h
    cases h
    refine ⟨_, rfl, .inr ⟨rfl, ?_, LogHeader.blocks_congr rfl fun i _ => ?_⟩⟩
    · exact mem_iff_getElem?.2 ⟨_, by rw [l.lh.getElem_blocks lt, eq]⟩
    · rcases eq_or_ne i (l.lh.slot b) with rfl | ne
      · exact (update_self ..).trans eq.symm
      · exact update_of_ne ne ..
  · rw [if_pos eq] at h
    cases h
    refine ⟨_, rfl, .inl ⟨rfl, absent, ?_⟩⟩
    rw [eq]
    unfold LogHeader.blocks
    dsimp only
    rw [range_succ, map_append, map_singleton, update_self]
    refine congrArg (· ++ [b]) (map_congr_left fun i hi => ?_)
    exact update_of_ne (ne_of_lt (mem_range.1 hi)) ..

theorem Log.beginOp_some {l l' : Log} (h : l.beginOp = some l') :
    l.committing = false ∧ l.lh.n + (l.outstanding + 1) * MAXOPBLOCKS ≤ LOGSIZE ∧
      l' = { l with outstanding := l.outstanding + 1 } := by
  unfold beginOp at h
  split at h
  · cases h
  · rename_i idle
    split at h
    · cases h
    · rename_i fits
      exact ⟨by simpa using idle, Int.not_lt.1 fits, (Option.some.inj h).symm⟩

theorem Log.endOp_idle {l : Log} (idle : l.committing = false) :
    l.endOp = .ok (decide (l.outstanding = 1),
      { l with outstanding := l.outstanding - 1, committing := decide (l.outstanding = 1) }) := by
  unfold endOp
  dsimp only
  rw [if_neg (by rw [idle]; decide)]
  by_cases last : l.outstanding = 1
  · rw [if_pos (by omega), decide_eq_true last]
  · rw [if_neg (by omega), decide_eq_false last, ← idle]

theorem Log.logWrite_error {l : Log} {b : ℕ} {e : Panic} (h : l.logWrite b = .error e)
    (inside : 1 ≤ l.outstanding) : e = .tooBigTransaction := by
  unfold logWrite at h
  split at h
  · cases h
    rfl
  · rw [if_neg (by omega)] at h
    dsimp only at h
    split at h <;> cases h

/-- The disk, the cache and the log, and what the processes have done with them. -/
structure BState where
  disk : ℕ → Block
  cache : Bcache
  log : Log
  gets : List (ℕ × ℕ)
  ops : List ℕ
  logged : List ℕ
  latest : ℕ → Block
  installed : ℕ
  tx : List (ℕ × Block)

/-- The atomic steps of the cache and the log. -/
inductive BOp where
  /-- `bget` under `bcache.lock`. -/
  | bget (b : ℕ)
  | acquiresleep (i : ℕ)
  | releasesleep (i : ℕ)
  | holdingsleep (i : ℕ)
  | valid (i : ℕ)
  /-- `virtio_disk_rw(b, 0)` and `b->valid = 1`. -/
  | diskRead (i : ℕ)
  | diskWrite (i : ℕ)
  | getData (i : ℕ)
  | setData (i : ℕ) (d : Block)
  | relse (i : ℕ)
  | bunpin (i : ℕ)
  | logStart
  | getLh
  | setLh (lh : LogHeader)
  /-- `begin_op` under `log.lock`. -/
  | beginOp
  /-- The first section of `end_op` under `log.lock`. -/
  | endOp
  /-- The second section of `end_op` under `log.lock`. -/
  | endCommit
  /-- `log_write` under `log.lock`. -/
  | logWrite (i : ℕ)
  | panic (e : Panic)

@[reducible] def BOp.Res : BOp → Type
  | .bget _ | .logStart => ℕ
  | .holdingsleep _ | .valid _ | .endOp => Bool
  | .getData _ => Block
  | .getLh => LogHeader
  | .panic _ => Empty
  | _ => Unit

abbrev BSig : Sig := ⟨BOp, BOp.Res⟩

abbrev BProg := Prog BSig

abbrev atomic (o : BOp) : BProg o.Res := Prog.op o Prog.ret

def BState.modifyBuf (s : BState) (i : ℕ) (f : Buf → Buf) : BState :=
  { s with cache := s.cache.modify i f }

@[simp] theorem BState.modifyBuf_self (s : BState) (i : ℕ) (f : Buf → Buf) :
    (s.modifyBuf i f).cache.buf i = f (s.cache.buf i) := Bcache.modify_buf_self ..

@[simp] theorem BState.modifyBuf_of_ne (s : BState) {i j : ℕ} (f : Buf → Buf) (h : j ≠ i) :
    (s.modifyBuf i f).cache.buf j = s.cache.buf j := Bcache.modify_buf_of_ne _ _ h

/-- One step of process `p`. -/
def BState.exec (p : ℕ) : Handler BSig BState Panic
  | .bget b, s =>
      match s.cache.bget b with
      | some (i, c) => .ok (i, { s with cache := c, gets := (p, i) :: s.gets })
      | none => .error (.panic .bgetNoBuffers)
  | .acquiresleep i, s =>
      if (s.cache.buf i).lock = none then .ok ((), s.modifyBuf i fun x => { x with lock := some p })
      else .error .blocked
  | .releasesleep i, s => .ok ((), s.modifyBuf i fun x => { x with lock := none })
  | .holdingsleep i, s => .ok (decide ((s.cache.buf i).lock = some p), s)
  | .valid i, s => .ok ((s.cache.buf i).valid, s)
  | .diskRead i, s =>
      .ok ((), s.modifyBuf i fun x => { x with data := s.disk x.blockno, valid := true })
  | .diskWrite i, s =>
      let x := s.cache.buf i
      .ok ((), { s with disk := update s.disk x.blockno x.data,
                        tx := s.tx ++ [(x.blockno, x.data)] })
  | .getData i, s => .ok ((s.cache.buf i).data, s)
  | .setData i d, s =>
      .ok ((), { s.modifyBuf i (fun x => { x with data := d }) with
        latest := if p ∈ s.ops then update s.latest (s.cache.buf i).blockno d
          else s.latest })
  | .relse i, s => .ok ((), { s with cache := s.cache.relse i, gets := s.gets.erase (p, i) })
  | .bunpin i, s => .ok ((), { s with cache := s.cache.bunpin i, installed := s.installed + 1 })
  | .logStart, s => .ok (s.log.start, s)
  | .getLh, s => .ok (s.log.lh, s)
  | .setLh lh, s =>
      .ok ((), { s with log := { s.log with lh := lh }, logged := [], installed := 0 })
  | .beginOp, s =>
      match s.log.beginOp with
      | some l => .ok ((), { s with log := l, ops := p :: s.ops })
      | none => .error .blocked
  | .endOp, s =>
      match s.log.endOp with
      | .ok (doCommit, l) =>
          .ok (doCommit, { s with log := l, ops := s.ops.erase p,
                                  tx := if doCommit then [] else s.tx })
      | .error e => .error (.panic e)
  | .endCommit, s => .ok ((), { s with log := { s.log with committing := false } })
  | .logWrite i, s =>
      let x := s.cache.buf i
      match s.log.logWrite x.blockno with
      | .ok (new, l) =>
          .ok ((), { s with log := l, cache := if new then s.cache.bpin i else s.cache,
                            logged := s.logged ++ [x.blockno],
                            latest := update s.latest x.blockno x.data })
      | .error e => .error (.panic e)
  | .panic e, _ => .error (.panic e)

/-! ## The functions of `bio.c` -/

/-- `bread(ROOTDEV, b)`, which returns the index of a locked buffer. -/
def bread (b : ℕ) : BProg ℕ := do
  let i ← atomic (.bget b)
  atomic (.acquiresleep i)
  let valid ← atomic (.valid i)
  if valid then return i
  atomic (.diskRead i)
  return i

def bwrite (i : ℕ) : BProg Unit := do
  let holding ← atomic (.holdingsleep i)
  if holding then atomic (.diskWrite i)
  else .op (.panic .bwrite) nofun

def brelse (i : ℕ) : BProg Unit := do
  let holding ← atomic (.holdingsleep i)
  if holding then do
    atomic (.releasesleep i)
    atomic (.relse i)
  else .op (.panic .brelse) nofun

/-! ## The functions of `log.c` -/

def installBlock (recovering : Bool) (tail : ℕ) : BProg Unit := do
  let start ← atomic .logStart
  let lbuf ← bread (start + tail + 1)
  let lh ← atomic .getLh
  let dbuf ← bread (lh.block tail)
  let d ← atomic (.getData lbuf)
  atomic (.setData dbuf d)
  bwrite dbuf
  if !recovering then atomic (.bunpin dbuf)
  brelse lbuf
  brelse dbuf

/-- `install_trans`: copy committed blocks from the log to their home location. -/
def installTrans (recovering : Bool) : BProg Unit := do
  let lh ← atomic .getLh
  Prog.loop (installBlock recovering) 0 lh.n

def readHead : BProg Unit := do
  let start ← atomic .logStart
  let buf ← bread start
  let d ← atomic (.getData buf)
  let lh ← atomic .getLh
  atomic (.setLh (lh.read d))
  brelse buf

/-- `write_head`: this is the true point at which the current transaction commits. -/
def writeHead : BProg Unit := do
  let start ← atomic .logStart
  let buf ← bread start
  let d ← atomic (.getData buf)
  let lh ← atomic .getLh
  atomic (.setData buf (lh.write d))
  bwrite buf
  brelse buf

def clearLh : BProg Unit := do
  let lh ← atomic .getLh
  atomic (.setLh { lh with n := 0 })

def recoverFromLog : BProg Unit := do
  readHead
  installTrans true
  clearLh
  writeHead

def logBlock (tail : ℕ) : BProg Unit := do
  let start ← atomic .logStart
  let dst ← bread (start + tail + 1)
  let lh ← atomic .getLh
  let src ← bread (lh.block tail)
  let d ← atomic (.getData src)
  atomic (.setData dst d)
  bwrite dst
  brelse src
  brelse dst

def writeLog : BProg Unit := do
  let lh ← atomic .getLh
  Prog.loop logBlock 0 lh.n

/-- `commit()`. -/
def commit : BProg Unit := do
  let lh ← atomic .getLh
  if lh.n > 0 then do
    writeLog
    writeHead
    installTrans false
    clearLh
    writeHead

def beginOp : BProg Unit := atomic .beginOp

def endOp : BProg Unit := do
  let doCommit ← atomic .endOp
  if doCommit then do
    commit
    atomic .endCommit

def logWrite (i : ℕ) : BProg Unit := atomic (.logWrite i)

end Xv6
