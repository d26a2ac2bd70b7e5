import Mathlib.Algebra.BigOperators.Fin
import Mathlib.Algebra.Order.BigOperators.Group.Finset
import Xv6.Io.Read

/-!
# Writers that share an offset

Processes that share one open file on an inode call `filewrite`.  A call writes chunk after chunk, each
under the lock of the inode, and the chunks of different calls interleave.
-/

namespace Xv6.Io

open Function Fs List

/-! ## The code -/

/-- The largest number of bytes that `filewrite` writes in one transaction. -/
abbrev MAXCHUNK : ℕ := (MAXOPBLOCKS - 1 - 1 - 2) / 2 * BSIZE

def writeChunk (L : Layout) (cached : Option Inode) (inum : ℕ) (src : ℕ → Option Byte)
    (off n1 : BitVec 32) : FsProg (Option ℕ × Inode) := do
  let ip ← ilock L cached inum
  writei L ip src off n1

/-- A chunk that has been written: its call, its place in the file and its bytes. -/
structure Chunk where
  call : ℕ
  start : ℕ
  bytes : List Byte

/-- A call of `filewrite` with a buffer that can be read: `i` bytes have been written. -/
structure Call where
  id : ℕ
  n : BitVec 32
  buf : ℕ → Byte
  i : ℕ

/-- The size of the next chunk. -/
def Call.n1 (c : Call) : ℕ := min (c.n.toInt.toNat - c.i) MAXCHUNK

/-- The next `k` bytes of a call, written at `start`. -/
def Call.piece (c : Call) (start k : ℕ) : Chunk :=
  ⟨c.id, start, (range k).map fun j => c.buf (c.i + j)⟩

/-- The file system and the open file, with the calls in progress.  History: the arguments of all calls
in the order of their numbers, the results of those that have returned, and the chunks that have been
written. -/
structure Shared where
  store : Store
  cached : Option Inode
  off : BitVec 32
  calls : ℕ → Option Call
  made : List (BitVec 32 × (ℕ → Byte))
  returns : List (ℕ × ℤ)
  log : List Chunk

/-- Process `p` calls `filewrite`, or it goes on with its call to the end of the next chunk. -/
inductive WriteAction where
  | call (p : ℕ) (n : BitVec 32) (buf : ℕ → Byte)
  | chunk (p : ℕ)

namespace Shared

def ret (s : Shared) (p : ℕ) (c : Call) (r : ℤ) : Shared :=
  { s with calls := update s.calls p none, returns := s.returns ++ [(c.id, r)] }

def wrote (s : Shared) (c : Call) (k : ℕ) : Shared :=
  if 0 < k then
    { s with
      off := s.off + BitVec.ofNat 32 k
      log := s.log ++ [c.piece s.off.toNat k] }
  else s

/-- After a chunk of the call `c`: `r` of its bytes have been written. -/
def after (s : Shared) (p : ℕ) (c : Call) (r : Option ℕ) : Shared :=
  let s := s.wrote c (r.getD 0)
  if r = some c.n1 then
    { s with calls := update s.calls p (some { c with i := c.i + c.n1 }) }
  else s.ret p c (-1)

/-- The file system after a chunk, and the inode. -/
def onDisk (s : Shared) (store : Store) (ip : Inode) : Shared :=
  { s with store := store, cached := some ip }

/-- One action of a process. -/
def step (L : Layout) (inum : ℕ) (s : Shared) : WriteAction → Option Shared
  | .call p n buf =>
      match s.calls p with
      | some _ => some s
      | none => some { s with
          calls := update s.calls p (some ⟨s.made.length, n, buf, 0⟩)
          made := s.made ++ [(n, buf)] }
  | .chunk p =>
      match s.calls p with
      | none => some s
      | some c =>
          if (c.i : ℤ) < c.n.toInt then
            match (writeChunk L s.cached inum (fun j => some (c.buf (c.i + j))) s.off
                (BitVec.ofNat 32 c.n1)).run FsState.exec (.start s.store) with
            | (.ok (r, ip), t) => some ((s.onDisk t.store ip).after p c r)
            | (.error _, _) => none
          else some (s.ret p c (if (c.i : ℤ) = c.n.toInt then c.n.toInt else -1))

/-- The state after a list of actions. -/
def run (L : Layout) (inum : ℕ) (actions : List WriteAction) (s : Shared) : Option Shared :=
  actions.foldlM (step L inum) s

/-- No process is in a call. -/
def init (σ : Store) (cached : Option Inode) (off : BitVec 32) : Shared :=
  ⟨σ, cached, off, fun _ => none, [], [], []⟩

end Shared

/-- The bytes of the chunks, in order. -/
def written (log : List Chunk) : List Byte := log.flatMap Chunk.bytes

/-- The chunks of call `k`. -/
def pieces (log : List Chunk) (k : ℕ) : List Chunk := log.filter (·.call = k)

/-! ## One chunk -/

/-- The bytes of the file. -/
def Shared.bytes (L : Layout) (inum : ℕ) (s : Shared) : List Byte :=
  contents s.store (inodes L s.store inum)

/-- The image is well formed, the inode is in use, and its copy in memory is up to date. -/
structure FileOk (L : Layout) (inum : ℕ) (s : Shared) : Prop where
  image : WellFormed L s.store
  inode : inum < L.ninodes
  type : (inodes L s.store inum).type ≠ 0
  cached : ∀ ip, s.cached = some ip → ip = inodes L s.store inum

section

variable {L : Layout} {inum : ℕ} {s s' : Shared} {cached : Option Inode}

/-- `k` bytes of the next chunk of `c` have been written, and all of them unless the disk is full. -/
structure Stores (L : Layout) (inum : ℕ) (s : Shared) (c : Call) (store : Store) (k : ℕ) : Prop where
  le : k ≤ c.n1
  full : k < c.n1 → DiskFull L store
  start : s.off.toNat ≤ (s.bytes L inum).length
  small : s.off.toNat + k < 2 ^ 32
  bytes : contents store (inodes L store inum) =
    overwrite (s.bytes L inum) s.off.toNat (c.piece s.off.toNat k).bytes

/-- Nothing of the next chunk of `c` has been written, for one of these reasons. -/
structure Refuses (L : Layout) (inum : ℕ) (s : Shared) (c : Call) (store : Store) : Prop where
  same : contents store (inodes L store inum) = s.bytes L inum
  why : (s.bytes L inum).length < s.off.toNat ∨ MAXFILE * BSIZE < s.off.toNat + c.n1 ∨ DiskFull L store

theorem Call.n1_le (c : Call) : c.n1 ≤ c.n.toInt.toNat - c.i := min_le_left _ _

theorem Call.n1_pos {c : Call} (more : (c.i : ℤ) < c.n.toInt) : 0 < c.n1 := by
  simp only [Call.n1, MAXCHUNK, BSIZE, MAXOPBLOCKS]
  omega

theorem Call.toNat_n1 (c : Call) : (BitVec.ofNat 32 c.n1).toNat = c.n1 := by
  rw [BitVec.toNat_ofNat, Nat.mod_eq_of_lt]
  exact lt_of_le_of_lt (min_le_right _ _) (by decide)

theorem FileOk.writeChunk (ok : FileOk L inum s) (c : Call) :
    ∃ r ip t, (writeChunk L s.cached inum (fun j => some (c.buf (c.i + j))) s.off
        (BitVec.ofNat 32 c.n1)).run FsState.exec (.start s.store) = (.ok (r, ip), t) ∧
      FileOk L inum (s.onDisk t.store ip) ∧
      (r = none ∧ Refuses L inum s c t.store ∨ ∃ k, r = some k ∧ Stores L inum s c t.store k) := by
  have returns : Returns L (Io.writeChunk L s.cached inum (fun j => some (c.buf (c.i + j))) s.off
      (BitVec.ofNat 32 c.n1)) s.store fun r σ' => Writes (fun _ => True) L s.store inum
        (fun j => some (c.buf (c.i + j))) s.off (BitVec.ofNat 32 c.n1) r σ' := by
    refine Returns.bind (((looks_ilock_typed ok.inode ok.type ok.cached).returns
      fun _ home => home).mono ?_)
    rintro ip σ' ⟨rfl, rfl⟩
    exact returns_writei ok.image ok.inode trivial ok.type _ s.off _
  obtain ⟨⟨r, ip⟩, t, run, writes⟩ := returns.run
  have exact' := writes.writesBytes ok.inode ((ok.image inum).mapped inum ok.inode trivial ok.type)
  have inode : inodes L t.store inum = ip := exact'.inode
  refine ⟨r, ip, t, run, ⟨FsInv.closed writes.inv, ok.inode, ?_, ?_⟩, ?_⟩
  · rw [Shared.onDisk, inode]
    exact writes.type.trans_ne ok.type
  · rintro _ ⟨rfl⟩
    exact inode.symm
  · cases r with
    | none =>
      obtain ⟨same, store⟩ := exact'.unchanged rfl
      refine .inl ⟨rfl, ?_, ?_⟩
      · rw [inode, show ip = _ from same, store]
        rfl
      · rw [Shared.bytes, length_contents]
        have large : MAXFILE * BSIZE < 2 ^ 32 := by decide
        have fails := exact'.fails_iff.mp rfl
        rw [c.toNat_n1] at fails
        rcases fails with short | wraps | long
        · exact .inl short
        · exact .inr (.inl (by omega))
        · exact .inr (.inl long)
    | some k =>
      obtain ⟨le, full⟩ := exact'.count k rfl
      obtain ⟨start, small, -⟩ : ¬ _ ∧ ¬ _ ∧ ¬ _ := by
        have inside := mt exact'.fails_iff.mpr nofun
        rwa [not_or, not_or] at inside
      rw [c.toNat_n1] at le full small
      refine .inr ⟨k, rfl, le, full, ?_, by omega, ?_⟩
      · rw [Shared.bytes, length_contents]
        omega
      · rw [inode]
        exact (exact'.bytes k rfl).1

/-- What an action does: nothing, the start of a call, its end, a chunk of which some bytes are written,
or a chunk that is refused. -/
inductive Moves (L : Layout) (inum : ℕ) (s : Shared) : Shared → Prop where
  | idle : Moves L inum s s
  | call (p : ℕ) (n : BitVec 32) (buf : ℕ → Byte) (free : s.calls p = none) :
      Moves L inum s { s with
        calls := update s.calls p (some ⟨s.made.length, n, buf, 0⟩)
        made := s.made ++ [(n, buf)] }
  | done (p : ℕ) (c : Call) (busy : s.calls p = some c) (last : ¬ (c.i : ℤ) < c.n.toInt) :
      Moves L inum s (s.ret p c (if (c.i : ℤ) = c.n.toInt then c.n.toInt else -1))
  | chunk (p : ℕ) (c : Call) (store : Store) (ip : Inode) (k : ℕ) (busy : s.calls p = some c)
      (more : (c.i : ℤ) < c.n.toInt) (pos : 0 < k) (stores : Stores L inum s c store k) :
      Moves L inum s ((s.onDisk store ip).after p c (some k))
  | refused (p : ℕ) (c : Call) (store : Store) (ip : Inode) (busy : s.calls p = some c)
      (refuses : Refuses L inum s c store) : Moves L inum s ((s.onDisk store ip).ret p c (-1))

theorem Stores.whole {c : Call} {store : Store} {k : ℕ} (stores : Stores L inum s c store k)
    (room : ¬ DiskFull L store) : k = c.n1 :=
  le_antisymm stores.le (Nat.le_of_not_lt fun cut => room (stores.full cut))

theorem not_refuses {c : Call} {store : Store} (start : s.off.toNat ≤ (s.bytes L inum).length)
    (fits : s.off.toNat + c.n1 ≤ MAXFILE * BSIZE) (room : ¬ DiskFull L store) :
    ¬ Refuses L inum s c store := by
  rintro ⟨-, short | long | full⟩
  · omega
  · omega
  · exact room full

theorem overwrite_nil (c : List Byte) (off : ℕ) : overwrite c off [] = c := by
  rw [overwrite, append_nil, length_nil, add_zero, take_append_drop]

theorem Shared.after_file (p : ℕ) (c : Call) (r : Option ℕ) :
    (s.after p c r).store = s.store ∧ (s.after p c r).cached = s.cached := by
  rw [Shared.after, Shared.wrote]
  split_ifs <;> exact ⟨rfl, rfl⟩

theorem Shared.after_nothing (p : ℕ) {c : Call} {r : Option ℕ} (nothing : r.getD 0 = 0)
    (short : r ≠ some c.n1) : s.after p c r = s.ret p c (-1) := by
  rw [Shared.after, nothing, Shared.wrote, if_neg (lt_irrefl 0)]
  exact if_neg short

theorem FileOk.congr (ok : FileOk L inum s) (store : s'.store = s.store)
    (cached : s'.cached = s.cached) : FileOk L inum s' :=
  ⟨store ▸ ok.image, ok.inode, store ▸ ok.type, by rw [store, cached]; exact ok.cached⟩

theorem FileOk.chunk {p : ℕ} {c : Call} (ok : FileOk L inum s) (busy : s.calls p = some c)
    (more : (c.i : ℤ) < c.n.toInt) : ∃ store ip r,
    s.step L inum (.chunk p) = some ((s.onDisk store ip).after p c r) ∧
    FileOk L inum (s.onDisk store ip) ∧
    (r.getD 0 = 0 ∧ r ≠ some c.n1 ∧ Refuses L inum s c store ∨
      ∃ k, r = some k ∧ 0 < k ∧ Stores L inum s c store k) := by
  obtain ⟨r, ip, t, run, ok', written⟩ := ok.writeChunk c
  refine ⟨t.store, ip, r, ?_, ok', ?_⟩
  · rw [Shared.step, busy]
    dsimp only
    rw [if_pos more, run]
  rcases written with ⟨rfl, refuses⟩ | ⟨k, rfl, stores⟩
  · exact .inl ⟨rfl, nofun, refuses⟩
  have positive := Call.n1_pos more
  cases k with
  | zero =>
    refine .inl ⟨rfl, fun whole => ?_, stores.bytes.trans (overwrite_nil _ _),
      .inr (.inr (stores.full positive))⟩
    exact ne_of_lt positive (Option.some.inj whole)
  | succ k => exact .inr ⟨k + 1, rfl, Nat.succ_pos k, stores⟩

theorem FileOk.step (ok : FileOk L inum s) (a : WriteAction) :
    ∃ s', s.step L inum a = some s' ∧ FileOk L inum s' ∧ Moves L inum s s' := by
  cases a with
  | call p n buf =>
    rw [Shared.step]
    cases free : s.calls p with
    | some c => exact ⟨s, rfl, ok, .idle⟩
    | none => exact ⟨_, rfl, ok.congr rfl rfl, .call p n buf free⟩
  | chunk p =>
    cases busy : s.calls p with
    | none =>
      rw [Shared.step, busy]
      exact ⟨s, rfl, ok, .idle⟩
    | some c =>
      by_cases more : (c.i : ℤ) < c.n.toInt
      swap
      · rw [Shared.step, busy]
        dsimp only
        rw [if_neg more]
        exact ⟨_, rfl, ok.congr rfl rfl, .done p c busy more⟩
      obtain ⟨store, ip, r, next, ok', outcome⟩ := ok.chunk busy more
      refine ⟨_, next, ok'.congr (Shared.after_file ..).1 (Shared.after_file ..).2, ?_⟩
      rcases outcome with ⟨nothing, short, refuses⟩ | ⟨k, rfl, pos, stores⟩
      · rw [Shared.after_nothing p nothing short]
        exact .refused p c store ip busy refuses
      · exact .chunk p c store ip k busy more pos stores

/-! ## The chunks in the file -/

theorem written_append (a b : List Chunk) : written (a ++ b) = written a ++ written b :=
  flatMap_append

theorem written_singleton (c : Chunk) : written [c] = c.bytes := flatMap_singleton _ _

theorem overwrite_overwrite {c w v : List Byte} {off : ℕ} (start : off ≤ c.length) :
    overwrite (overwrite c off w) (off + w.length) v = overwrite c off (w ++ v) := by
  have front : (c.take off ++ w).length = off + w.length := by
    rw [length_append, length_take, min_eq_left start]
  rw [overwrite, overwrite, overwrite, take_left' front, length_append, ← front,
    drop_length_add_append, drop_drop, front, add_assoc, append_assoc _ w v]

theorem part_overwrite {c a w b : List Byte} {off : ℕ} (start : off ≤ c.length) :
    ((overwrite c off (a ++ w ++ b)).drop (off + a.length)).take w.length = w := by
  have front : (c.take off ++ a).length = off + a.length := by
    rw [length_append, length_take, min_eq_left start]
  rw [overwrite, append_assoc a, ← append_assoc _ a, append_assoc _ (w ++ b),
    drop_left' front, append_assoc w, take_left' rfl]

theorem Shared.after_log (p : ℕ) (c : Call) {k : ℕ} (pos : 0 < k) :
    (s.after p c (some k)).off = s.off + BitVec.ofNat 32 k ∧
    (s.after p c (some k)).made = s.made ∧
    (s.after p c (some k)).log = s.log ++ [c.piece s.off.toNat k] := by
  rw [Shared.after, Option.getD_some, Shared.wrote, if_pos pos]
  split_ifs <;> exact ⟨rfl, rfl, rfl⟩

/-- The chunks follow one another from the offset `off` on, in a file that had the bytes `c₀`. -/
structure Adjacent (L : Layout) (inum : ℕ) (c₀ : List Byte) (off : ℕ) (s : Shared) : Prop where
  offset : s.off.toNat = off + (written s.log).length
  bytes : s.bytes L inum = overwrite c₀ off (written s.log)
  begun : s.log ≠ [] → off ≤ c₀.length
  starts : ∀ a c b, s.log = a ++ c :: b → c.start = off + (written a).length

variable {c₀ : List Byte} {off : ℕ}

theorem Adjacent.init {σ : Store} {off : BitVec 32} :
    Adjacent L inum (contents σ (inodes L σ inum)) off.toNat (Shared.init σ cached off) :=
  ⟨rfl, (overwrite_nil _ _).symm, fun some => absurd rfl some,
    fun a c b none => absurd none (by simp [Shared.init])⟩

theorem Adjacent.stored (h : Adjacent L inum c₀ off s) {a b : List Chunk} {c : Chunk}
    (split : s.log = a ++ c :: b) : ((s.bytes L inum).drop c.start).take c.bytes.length = c.bytes := by
  have inside := h.begun (by rw [split]; simp)
  have bytes : written s.log = written a ++ c.bytes ++ written b := by
    rw [split, ← singleton_append, written_append, written_append, written_singleton, append_assoc]
  rw [h.bytes, h.starts a c b split, bytes]
  exact part_overwrite inside

theorem disjoint_of_starts {log : List Chunk} {off : ℕ}
    (starts : ∀ a c b, log = a ++ c :: b → c.start = off + (written a).length) :
    log.Pairwise fun c d => c.start + c.bytes.length ≤ d.start := by
  induction log generalizing off with
  | nil => exact .nil
  | cons c log ih =>
    have first : c.start = off := starts [] c log rfl
    have next (a : List Chunk) : (written (c :: a)).length = c.bytes.length + (written a).length := by
      rw [← singleton_append, written_append, written_singleton, length_append]
    refine .cons (fun d hd => ?_) (@ih (off + c.bytes.length) fun a d b split => ?_)
    · obtain ⟨a, b, rfl⟩ := append_of_mem hd
      have := starts (c :: a) d b rfl
      rw [next] at this
      omega
    · have := starts (c :: a) d b (by rw [split]; rfl)
      rw [next] at this
      omega

theorem Adjacent.disjoint (h : Adjacent L inum c₀ off s) :
    s.log.Pairwise fun c d => c.start + c.bytes.length ≤ d.start := disjoint_of_starts h.starts

theorem Adjacent.step (h : Adjacent L inum c₀ off s) (moves : Moves L inum s s') :
    Adjacent L inum c₀ off s' := by
  cases moves with
  | idle => exact h
  | call p n buf free => exact ⟨h.offset, h.bytes, h.begun, h.starts⟩
  | done p c busy last => exact ⟨h.offset, h.bytes, h.begun, h.starts⟩
  | refused p c store ip busy refuses =>
    exact ⟨h.offset, refuses.same.trans h.bytes, h.begun, h.starts⟩
  | chunk p c store ip k busy more pos stores =>
    have start := stores.start
    have inside : off ≤ c₀.length := by
      by_cases empty : s.log = []
      · have at_off := h.offset
        rw [h.bytes, empty, show written [] = [] from rfl, overwrite_nil] at start
        rw [empty, show (written []).length = 0 from rfl] at at_off
        omega
      · exact h.begun empty
    obtain ⟨off', -, log'⟩ := Shared.after_log (s := s.onDisk store ip) p c pos
    refine ⟨?_, ?_, fun _ => inside, fun a d b split => ?_⟩
    · rw [off', log', written_append, written_singleton, length_append, Call.piece, length_map,
        length_range, BitVec.toNat_add, BitVec.toNat_ofNat]
      have := h.offset
      have := stores.small
      dsimp only [Shared.onDisk] at *
      omega
    · rw [Shared.bytes, (Shared.after_file ..).1, log', written_append, written_singleton]
      dsimp only [Shared.onDisk]
      rw [stores.bytes, h.bytes, h.offset, overwrite_overwrite inside]
    · rw [log'] at split
      rcases eq_nil_or_concat b with rfl | ⟨b', e, rfl⟩
      · obtain ⟨rfl, last⟩ := append_inj' split rfl
        cases last
        exact h.offset
      · rw [concat_eq_append, ← cons_append, ← append_assoc] at split
        exact h.starts a d b' (append_inj' split rfl).1

/-! ## The chunks of a call -/

theorem Shared.after_calls (p : ℕ) (c : Call) (k : ℕ) :
    (s.after p c (some k)).calls =
      update s.calls p (if k = c.n1 then some { c with i := c.i + c.n1 } else none) ∧
    (s.after p c (some k)).returns = if k = c.n1 then s.returns else s.returns ++ [(c.id, -1)] := by
  have same : (s.wrote c k).calls = s.calls ∧ (s.wrote c k).returns = s.returns := by
    rw [Shared.wrote]
    split_ifs <;> exact ⟨rfl, rfl⟩
  rw [Shared.after, Option.getD_some, ← same.1, ← same.2]
  by_cases whole : k = c.n1
  · rw [if_pos (congrArg some whole), if_pos whole, if_pos whole]
    exact ⟨rfl, rfl⟩
  · rw [if_neg fun e => whole (Option.some.inj e), if_neg whole, if_neg whole]
    exact ⟨rfl, rfl⟩

theorem pieces_append (log : List Chunk) (c : Call) (start k j : ℕ) :
    pieces (log ++ [c.piece start k]) j =
      pieces log j ++ if c.id = j then [c.piece start k] else [] := by
  simp only [pieces, filter_append, filter_singleton, Bool.cond_decide, Call.piece]

/-- A call in progress has written the first `i` bytes of its buffer, in full chunks unless it has
written all of them; every call has written bytes from the start of its buffer, in order, and all of
them if it reports success. -/
structure Booked (s : Shared) : Prop where
  known : ∀ p c, s.calls p = some c → s.made[c.id]? = some (c.n, c.buf)
  active : ∀ p c, s.calls p = some c → c.i ≤ c.n.toInt.toNat ∧
    written (pieces s.log c.id) = (range c.i).map c.buf ∧
    (c.i < c.n.toInt.toNat → c.i = MAXCHUNK * (pieces s.log c.id).length)
  distinct : ∀ p q c d, s.calls p = some c → s.calls q = some d → c.id = d.id → p = q
  logged : ∀ c ∈ s.log, c.call < s.made.length
  inOrder : ∀ k n buf, s.made[k]? = some (n, buf) → ∃ m ≤ n.toInt.toNat,
    written (pieces s.log k) = (range m).map buf
  once : ∀ k n buf, s.made[k]? = some (n, buf) → n.toInt.toNat ≤ MAXCHUNK →
    (pieces s.log k).length ≤ 1
  ended : ∀ x ∈ s.returns, x.1 < s.made.length ∧ ∀ p c, s.calls p = some c → c.id ≠ x.1
  reports : ∀ x ∈ s.returns, x.2 ≠ -1 → ∃ n buf, s.made[x.1]? = some (n, buf) ∧ x.2 = n.toInt ∧
    written (pieces s.log x.1) = (range n.toInt.toNat).map buf

theorem Booked.init {σ : Store} {off : BitVec 32} : Booked (Shared.init σ cached off) where
  known _ _ busy := nomatch busy
  active _ _ busy := nomatch busy
  distinct _ _ _ _ busy := nomatch busy
  logged _ none := nomatch none
  inOrder _ _ _ found := nomatch found
  once _ _ _ found := nomatch found
  ended _ none := nomatch none
  reports _ none := nomatch none

theorem Booked.fresh (h : Booked s) : pieces s.log s.made.length = [] := by
  refine filter_eq_nil_iff.mpr fun c hc => ?_
  simp only [decide_eq_true_eq]
  exact ne_of_lt (h.logged c hc)

theorem getElem?_snoc {α : Type} {l : List α} {x y : α} {k : ℕ} (found : (l ++ [x])[k]? = some y) :
    l[k]? = some y ∨ k = l.length ∧ y = x := by
  rcases Nat.lt_or_ge k l.length with old | new
  · rw [getElem?_append_left old] at found
    exact .inl found
  · obtain ⟨bound, value⟩ := List.getElem?_eq_some_iff.mp found
    rw [length_append, length_singleton] at bound
    obtain rfl : k = l.length := by omega
    rw [getElem_concat_length rfl] at value
    exact .inr ⟨rfl, value.symm⟩

theorem Booked.call (h : Booked s) (p : ℕ) (n : BitVec 32) (buf : ℕ → Byte) :
    Booked { s with
      calls := update s.calls p (some ⟨s.made.length, n, buf, 0⟩)
      made := s.made ++ [(n, buf)] } := by
  have earlier {q : ℕ} {c : Call} (busy : s.calls q = some c) : c.id < s.made.length :=
    (List.getElem?_eq_some_iff.mp (h.known q c busy)).1
  have cases' {q : ℕ} {c : Call}
      (busy : update s.calls p (some ⟨s.made.length, n, buf, 0⟩) q = some c) :
      q = p ∧ c = ⟨s.made.length, n, buf, 0⟩ ∨ s.calls q = some c := by
    by_cases mine : q = p
    · subst mine
      rw [update_self] at busy
      exact .inl ⟨rfl, (Option.some.inj busy).symm⟩
    · rw [update_of_ne mine] at busy
      exact .inr busy
  have nothing : pieces s.log s.made.length = [] := h.fresh
  refine ⟨fun q c busy => ?_, fun q c busy => ?_, fun q r c d hq hr same => ?_, fun c hc => ?_,
    fun k m b found => ?_, fun k m b found small => ?_, fun x hx => ⟨?_, fun q c busy => ?_⟩,
    fun x hx success => ?_⟩
  · rcases cases' busy with ⟨-, rfl⟩ | old
    · exact getElem?_concat_length
    · exact (getElem?_append_left (earlier old)).trans (h.known q c old)
  · rcases cases' busy with ⟨-, rfl⟩ | old
    · refine ⟨zero_le, ?_, fun _ => ?_⟩
      · show written (pieces s.log s.made.length) = _
        rw [nothing]
        rfl
      · show 0 = MAXCHUNK * (pieces s.log s.made.length).length
        rw [nothing]
        rfl
    · exact h.active q c old
  · rcases cases' hq with ⟨rfl, rfl⟩ | oldq <;> rcases cases' hr with ⟨rfl, rfl⟩ | oldr
    · rfl
    · exact absurd same (Nat.ne_of_gt (earlier oldr))
    · exact absurd same (ne_of_lt (earlier oldq))
    · exact h.distinct q r c d oldq oldr same
  · show c.call < (s.made ++ [(n, buf)]).length
    rw [length_append]
    exact Nat.lt_add_right 1 (h.logged c hc)
  · rcases getElem?_snoc found with old | ⟨rfl, -⟩
    · exact h.inOrder k m b old
    · refine ⟨0, zero_le, ?_⟩
      show written (pieces s.log s.made.length) = _
      rw [nothing]
      rfl
  · rcases getElem?_snoc found with old | ⟨rfl, -⟩
    · exact h.once k m b old small
    · show (pieces s.log s.made.length).length ≤ 1
      rw [nothing]
      exact zero_le
  · show x.1 < (s.made ++ [(n, buf)]).length
    rw [length_append]
    exact Nat.lt_add_right 1 (h.ended x hx).1
  · rcases cases' busy with ⟨-, rfl⟩ | old
    · exact Nat.ne_of_gt (h.ended x hx).1
    · exact (h.ended x hx).2 q c old
  · obtain ⟨m, b, found, value, all⟩ := h.reports x hx success
    exact ⟨m, b, (getElem?_append_left (h.ended x hx).1).trans found, value, all⟩

theorem Booked.ret (h : Booked s) {p : ℕ} {c : Call} (busy : s.calls p = some c) {r : ℤ}
    (success : r ≠ -1 → r = c.n.toInt ∧ c.i = c.n.toInt.toNat) : Booked (s.ret p c r) := by
  have still {q : ℕ} {d : Call} (found : (s.ret p c r).calls q = some d) :
      q ≠ p ∧ s.calls q = some d := by
    change update s.calls p none q = some d at found
    by_cases mine : q = p
    · rw [mine, update_self] at found
      cases found
    · rw [update_of_ne mine] at found
      exact ⟨mine, found⟩
  have known := h.known p c busy
  refine ⟨fun q d found => h.known q d (still found).2, fun q d found => h.active q d (still found).2,
    fun q r c d hq hr => h.distinct q r c d (still hq).2 (still hr).2, h.logged, h.inOrder, h.once,
    fun x hx => ?_, fun x hx ok => ?_⟩
  · rcases mem_append.mp hx with old | new
    · exact ⟨(h.ended x old).1, fun q d found => (h.ended x old).2 q d (still found).2⟩
    · rw [mem_singleton.mp new]
      refine ⟨(List.getElem?_eq_some_iff.mp known).1, fun q d found same => ?_⟩
      exact (still found).1 (h.distinct q p d c (still found).2 busy same)
  · rcases mem_append.mp hx with old | new
    · exact h.reports x old ok
    · obtain rfl := mem_singleton.mp new
      obtain ⟨value, all⟩ := success ok
      exact ⟨c.n, c.buf, known, value, all ▸ (h.active p c busy).2.1⟩

theorem Booked.chunk (h : Booked s) {p : ℕ} {c : Call} {k start : ℕ} (busy : s.calls p = some c)
    (more : c.i < c.n.toInt.toNat) (le : k ≤ c.n1)
    (calls : s'.calls = update s.calls p (if k = c.n1 then some { c with i := c.i + c.n1 } else none))
    (returns : s'.returns = if k = c.n1 then s.returns else s.returns ++ [(c.id, -1)])
    (made : s'.made = s.made) (log : s'.log = s.log ++ [c.piece start k]) : Booked s' := by
  obtain ⟨bound, prefix', full⟩ := h.active p c busy
  have small := c.n1_le
  have known := h.known p c busy
  have mine : pieces s'.log c.id = pieces s.log c.id ++ [c.piece start k] := by
    rw [log, pieces_append, if_pos rfl]
  have other {j : ℕ} (ne : j ≠ c.id) : pieces s'.log j = pieces s.log j := by
    rw [log, pieces_append, if_neg (Ne.symm ne), append_nil]
  have bytes : written (pieces s'.log c.id) = (range (c.i + k)).map c.buf := by
    rw [mine, written_append, written_singleton, prefix', range_add, map_append, map_map]
    rfl
  have count : (pieces s'.log c.id).length = (pieces s.log c.id).length + 1 := by
    rw [mine, length_append]
    rfl
  have still {q : ℕ} {d : Call} (ne : q ≠ p) (found : s'.calls q = some d) : s.calls q = some d := by
    rwa [calls, update_of_ne ne] at found
  have going {d : Call} (found : s'.calls p = some d) :
      k = c.n1 ∧ d = { c with i := c.i + k } := by
    rw [calls, update_self] at found
    split_ifs at found with whole
    exact ⟨whole, by rw [whole]; exact (Option.some.inj found).symm⟩
  have returned {x : ℕ × ℤ} (hx : x ∈ s'.returns) : x ∈ s.returns ∨ x = (c.id, -1) ∧ k ≠ c.n1 := by
    rw [returns] at hx
    split_ifs at hx with whole
    · exact .inl hx
    · rcases mem_append.mp hx with old | new
      · exact .inl old
      · exact .inr ⟨mem_singleton.mp new, whole⟩
  have id_ne {q : ℕ} {d : Call} (ne : q ≠ p) (found : s'.calls q = some d) : d.id ≠ c.id :=
    fun same => ne (h.distinct q p d c (still ne found) busy same)
  refine ⟨fun q d found => ?_, fun q d found => ?_, fun q r d e hq hr same => ?_, fun d hd => ?_,
    fun j m b found => ?_, fun j m b found small => ?_, fun x hx => ?_, fun x hx ok => ?_⟩
  · rw [made]
    by_cases self : q = p
    · subst self
      obtain ⟨-, rfl⟩ := going found
      exact known
    · exact h.known q d (still self found)
  · by_cases self : q = p
    · subst self
      obtain ⟨whole, rfl⟩ := going found
      refine ⟨?_, bytes, fun again => ?_⟩
      · show c.i + k ≤ c.n.toInt.toNat
        omega
      · show c.i + k = MAXCHUNK * (pieces s'.log c.id).length
        have again : c.i + k < c.n.toInt.toNat := again
        rw [count, mul_add, ← full more]
        rw [Call.n1] at whole
        omega
    · rw [other (id_ne self found)]
      exact h.active q d (still self found)
  · by_cases hp : q = p <;> by_cases hp' : r = p
    · rw [hp, hp']
    · subst hp
      obtain ⟨-, rfl⟩ := going hq
      exact absurd same.symm (id_ne hp' hr)
    · subst hp'
      obtain ⟨-, rfl⟩ := going hr
      exact absurd same (id_ne hp hq)
    · exact h.distinct q r d e (still hp hq) (still hp' hr) same
  · rw [log] at hd
    rw [made]
    rcases mem_append.mp hd with old | new
    · exact h.logged d old
    · rw [mem_singleton.mp new]
      exact (List.getElem?_eq_some_iff.mp known).1
  · rw [made] at found
    by_cases self : j = c.id
    · subst self
      rw [known] at found
      cases found
      exact ⟨c.i + k, by omega, bytes⟩
    · rw [other self]
      exact h.inOrder j m b found
  · rw [made] at found
    by_cases self : j = c.id
    · subst self
      rw [known] at found
      cases found
      rw [count]
      have first := full more
      simp only [MAXCHUNK, BSIZE, MAXOPBLOCKS] at first small
      omega
    · rw [other self]
      exact h.once j m b found small
  · rw [made]
    rcases returned hx with old | ⟨rfl, short⟩
    · refine ⟨(h.ended x old).1, fun q d found => ?_⟩
      by_cases self : q = p
      · subst self
        obtain ⟨-, rfl⟩ := going found
        exact (h.ended x old).2 q c busy
      · exact (h.ended x old).2 q d (still self found)
    · refine ⟨(List.getElem?_eq_some_iff.mp known).1, fun q d found => ?_⟩
      by_cases self : q = p
      · subst self
        exact absurd (going found).1 short
      · exact id_ne self found
  · rcases returned hx with old | ⟨rfl, -⟩
    · rw [made, other ((h.ended x old).2 p c busy).symm]
      exact h.reports x old ok
    · exact absurd rfl ok

theorem Booked.step (h : Booked s) (moves : Moves L inum s s') : Booked s' := by
  cases moves with
  | idle => exact h
  | call p n buf free => exact h.call p n buf
  | done p c busy last =>
    refine h.ret busy fun success => ?_
    split_ifs at success ⊢ with all
    · exact ⟨rfl, by omega⟩
    · exact absurd rfl success
  | refused p c store ip busy refuses =>
    have here : Booked (s.onDisk store ip) :=
      ⟨h.known, h.active, h.distinct, h.logged, h.inOrder, h.once, h.ended, h.reports⟩
    exact here.ret busy fun success => absurd rfl success
  | chunk p c store ip k busy more pos stores =>
    obtain ⟨-, made, log⟩ := Shared.after_log (s := s.onDisk store ip) p c pos
    obtain ⟨calls, returns⟩ := Shared.after_calls (s := s.onDisk store ip) p c k
    exact h.chunk busy (by omega) stores.le calls returns made log

/-- The chunk of a call that fits in one chunk is all of its buffer. -/
def Whole (s : Shared) : Prop :=
  ∀ k n buf, s.made[k]? = some (n, buf) → n.toInt.toNat ≤ MAXCHUNK →
    ∀ c ∈ pieces s.log k, c.bytes = (range n.toInt.toNat).map buf

theorem Whole.init {σ : Store} {off : BitVec 32} :
    Whole (Shared.init σ cached off) := fun _ _ _ found => nomatch found

theorem Whole.step (h : Whole s) (booked : Booked s) (moves : Moves L inum s s')
    (room : ¬ DiskFull L s'.store) : Whole s' := by
  cases moves with
  | idle => exact h
  | call p n buf free =>
    intro k m b found small c hc
    rcases getElem?_snoc found with old | ⟨rfl, -⟩
    · exact h k m b old small c hc
    · change c ∈ pieces s.log s.made.length at hc
      rw [booked.fresh] at hc
      exact absurd hc not_mem_nil
  | done p c busy last => exact h
  | refused p c store ip busy refuses => exact h
  | chunk p c store ip k busy more pos stores =>
    obtain ⟨-, made, log⟩ := Shared.after_log (s := s.onDisk store ip) p c pos
    intro j m b found short d hd
    rw [made] at found
    rw [log, pieces_append] at hd
    rcases mem_append.mp hd with old | new
    · exact h j m b found short d old
    split_ifs at new with self
    · obtain rfl := mem_singleton.mp new
      obtain rfl : c.id = j := self
      have same := (booked.known p c busy).symm.trans found
      cases same
      -- the call is at its first chunk, which has not been cut short
      have first := (booked.active p c busy).2.2 (by omega)
      rw [(Shared.after_file ..).1] at room
      have all : k = c.n1 := stores.whole room
      have zero : c.i = 0 := by
        simp only [MAXCHUNK, BSIZE, MAXOPBLOCKS] at first short
        omega
      obtain rfl : k = c.n.toInt.toNat := by
        rw [all, Call.n1, zero]
        exact min_eq_left short
      simp only [Call.piece, zero, zero_add]
    · exact absurd new not_mem_nil

/-! ## Room for all calls -/

/-- The number of bytes that the calls ask to write. -/
def total (made : List (BitVec 32 × (ℕ → Byte))) : ℕ := (made.map fun x => x.1.toInt.toNat).sum

theorem Moves.made (moves : Moves L inum s s') : s.made <+: s'.made := by
  cases moves with
  | call p n buf free => exact prefix_append _ _
  | chunk p c store ip k busy more pos stores =>
    rw [(Shared.after_log (s := s.onDisk store ip) p c pos).2.1]
    exact prefix_rfl
  | idle | done | refused => exact prefix_rfl

theorem total_le {made made' : List (BitVec 32 × (ℕ → Byte))} (more : made <+: made') :
    total made ≤ total made' := by
  obtain ⟨rest, rfl⟩ := more
  rw [total, total, map_append, sum_append]
  exact Nat.le_add_right _ _

theorem length_written {log : List Chunk} {N : ℕ} (below : ∀ c ∈ log, c.call < N) :
    (written log).length = ∑ k : Fin N, (written (pieces log k)).length := by
  induction log with
  | nil => exact (Finset.sum_const_zero).symm
  | cons c log ih =>
    obtain ⟨here, rest⟩ := forall_mem_cons.mp below
    have split (k : Fin N) : (written (pieces (c :: log) k)).length =
        (if ⟨c.call, here⟩ = k then c.bytes.length else 0) + (written (pieces log k)).length := by
      by_cases mine : c.call = k
      · rw [pieces, filter_cons_of_pos (by simpa using mine), if_pos (Fin.ext mine), written,
          flatMap_cons, length_append]
        rfl
      · rw [pieces, filter_cons_of_neg (by simpa using mine),
          if_neg fun e => mine (congrArg Fin.val e), zero_add]
        rfl
    rw [written, flatMap_cons, length_append, Finset.sum_congr rfl fun k _ => split k,
      Finset.sum_add_distrib, Finset.sum_ite_eq, if_pos (Finset.mem_univ _), ← ih rest]
    rfl

/-- The calls have not written more than they ask for, the next chunk of a call in progress included. -/
theorem Booked.total_ge (h : Booked s) {p : ℕ} {c : Call} (busy : s.calls p = some c) :
    (written s.log).length + c.n1 ≤ total s.made := by
  obtain ⟨le, mine, -⟩ := h.active p c busy
  have small := c.n1_le
  obtain ⟨bound, at'⟩ := List.getElem?_eq_some_iff.mp (h.known p c busy)
  have each (k : Fin s.made.length) : (written (pieces s.log k)).length +
      (if ⟨c.id, bound⟩ = k then c.n1 else 0) ≤ (s.made.get k).1.toInt.toNat := by
    split_ifs with e
    · subst e
      rw [mine, length_map, length_range, get_eq_getElem, at']
      dsimp only
      omega
    · obtain ⟨m, le, bytes⟩ := h.inOrder k (s.made.get k).1 (s.made.get k).2
        (getElem?_eq_getElem k.isLt)
      rw [bytes, length_map, length_range]
      exact le
  have sums := Finset.sum_le_sum fun k (_ : k ∈ Finset.univ) => each k
  rw [Finset.sum_add_distrib, Finset.sum_ite_eq, if_pos (Finset.mem_univ _),
    ← length_written h.logged] at sums
  refine sums.trans (le_of_eq ?_)
  rw [total, ← Fin.sum_univ_fun_getElem]
  rfl

/-- There is room in the file for the next chunk of a call. -/
theorem Adjacent.room (h : Adjacent L inum c₀ off s) (booked : Booked s) (start : off ≤ c₀.length)
    (fits : off + total s.made ≤ MAXFILE * BSIZE) {p : ℕ} {c : Call} (busy : s.calls p = some c) :
    s.off.toNat ≤ (s.bytes L inum).length ∧ s.off.toNat + c.n1 ≤ MAXFILE * BSIZE := by
  have wrote := booked.total_ge busy
  have offset := h.offset
  constructor
  · rw [h.bytes, overwrite, length_append, length_append, length_take]
    omega
  · omega

theorem FileOk.chunk_stored {p : ℕ} {c : Call} (ok : FileOk L inum s) (busy : s.calls p = some c)
    (more : (c.i : ℤ) < c.n.toInt) (start : s.off.toNat ≤ (s.bytes L inum).length)
    (fits : s.off.toNat + c.n1 ≤ MAXFILE * BSIZE)
    (room : ∀ s', s.step L inum (.chunk p) = some s' → ¬ DiskFull L s'.store) :
    ∃ s', s.step L inum (.chunk p) = some s' ∧ s'.log = s.log ++ [c.piece s.off.toNat c.n1] ∧
      s'.calls p = some { c with i := c.i + c.n1 } := by
  obtain ⟨store, ip, r, next, -, outcome⟩ := ok.chunk busy more
  have free := room _ next
  rw [(Shared.after_file ..).1] at free
  rcases outcome with ⟨-, -, refuses⟩ | ⟨k, rfl, pos, stores⟩
  · exact absurd refuses (not_refuses start fits free)
  obtain rfl := stores.whole free
  refine ⟨_, next, (Shared.after_log _ _ pos).2.2, ?_⟩
  rw [(Shared.after_calls ..).1, update_self, if_pos rfl]

/-- Every call that has returned has written all its bytes. -/
def Complete (s : Shared) : Prop :=
  ∀ x ∈ s.returns, ∀ n buf, s.made[x.1]? = some (n, buf) → 0 ≤ n.toInt → x.2 = n.toInt

theorem Complete.init {σ : Store} {off : BitVec 32} : Complete (Shared.init σ cached off) :=
  fun _ none => nomatch none

theorem Complete.ret (h : Complete s) (booked : Booked s) {p : ℕ} {c : Call} {r : ℤ}
    (busy : s.calls p = some c) (all : 0 ≤ c.n.toInt → r = c.n.toInt) : Complete (s.ret p c r) := by
  intro x hx n buf found natural
  rcases mem_append.mp hx with old | new
  · exact h x old n buf found natural
  · rw [mem_singleton.mp new] at found ⊢
    cases (booked.known p c busy).symm.trans found
    exact all natural

theorem Complete.step (h : Complete s) (booked : Booked s)
    (fits : ∀ p c, s.calls p = some c → s.off.toNat ≤ (s.bytes L inum).length ∧
      s.off.toNat + c.n1 ≤ MAXFILE * BSIZE)
    (moves : Moves L inum s s') (room : ¬ DiskFull L s'.store) : Complete s' := by
  cases moves with
  | idle => exact h
  | call p n buf free =>
    intro x hx m b found natural
    refine h x hx m b ?_ natural
    rwa [getElem?_append_left (booked.ended x hx).1] at found
  | done p c busy last =>
    have le := (booked.active p c busy).1
    exact h.ret booked busy fun natural => if_pos (by omega)
  | refused p c store ip busy refuses =>
    exact absurd refuses (not_refuses (fits p c busy).1 (fits p c busy).2 room)
  | chunk p c store ip k busy more pos stores =>
    rw [(Shared.after_file ..).1] at room
    have made := (Shared.after_log (s := s.onDisk store ip) p c pos).2.1
    have returns := (Shared.after_calls (s := s.onDisk store ip) p c k).2
    intro x hx n buf found
    rw [returns, if_pos (stores.whole room)] at hx
    rw [made] at found
    exact h x hx n buf found

/-! ## Every run -/

theorem Shared.run_snoc (actions : List WriteAction) (a : WriteAction) :
    s.run L inum (actions ++ [a]) = (s.run L inum actions).bind fun t => t.step L inum a := by
  rw [Shared.run, foldlM_append]
  refine congrArg _ (funext fun t => ?_)
  exact bind_pure _

/-- A run keeps what its steps keep while all its states meet the condition `R`. -/
theorem run_keeps_while {P R : Shared → Prop}
    (step : ∀ {t t' : Shared}, P t → Moves L inum t t' → R t' → P t')
    (ok : FileOk L inum s) (start : P s) (actions : List WriteAction)
    (all : ∀ before, before <+: actions → ∀ t, s.run L inum before = some t → R t) :
    ∃ t, s.run L inum actions = some t ∧ FileOk L inum t ∧ P t := by
  induction actions using reverseRecOn with
  | nil => exact ⟨s, rfl, ok, start⟩
  | append_singleton actions a ih =>
    obtain ⟨t, run, ok, kept⟩ := ih fun before le => all before (le.trans (prefix_append ..))
    obtain ⟨t', next, ok', moves⟩ := ok.step a
    have last : s.run L inum (actions ++ [a]) = some t' := by
      rw [Shared.run_snoc, run]
      exact next
    exact ⟨t', last, ok', step kept moves (all _ prefix_rfl t' last)⟩

theorem run_keeps {P : Shared → Prop} (step : ∀ {t t' : Shared}, P t → Moves L inum t t' → P t')
    (ok : FileOk L inum s) (start : P s) (actions : List WriteAction) :
    ∃ t, s.run L inum actions = some t ∧ FileOk L inum t ∧ P t :=
  run_keeps_while (R := fun _ => True) (fun kept moves _ => step kept moves) ok start actions
    fun _ _ _ _ => trivial

theorem run_made (ok : FileOk L inum s) {before actions : List WriteAction} (le : before <+: actions)
    {t u : Shared} (first : s.run L inum before = some t) (run : s.run L inum actions = some u) :
    t.made <+: u.made := by
  obtain ⟨rest, rfl⟩ := le
  obtain ⟨t', first', ok', -⟩ := run_keeps (P := fun _ => True) (fun _ _ => trivial) ok trivial before
  cases first.symm.trans first'
  obtain ⟨u', run', -, grown⟩ := run_keeps (P := fun u => t.made <+: u.made)
    (fun kept moves => kept.trans moves.made) ok' prefix_rfl rest
  have both : s.run L inum (before ++ rest) = some u' := by
    rw [Shared.run, foldlM_append]
    change (s.run L inum before).bind _ = _
    rw [first]
    exact run'
  cases run.symm.trans both
  exact grown

/-- Processes that share an open file write to it.  In every interleaving of their chunks the kernel
does not panic; the offset has advanced by the bytes written; every chunk is in the file, where the one
before it ends; the chunks of a call are the first bytes of its buffer, and all of them if it reports
success; a call that fits in one chunk has at most one, which is all of its buffer unless the disk gets
full.  If moreover the offset is in the file and there is room for all calls, every chunk is stored and
every call that returns reports all its bytes. -/
theorem shared_offset_loses_nothing {σ : Store} (image : WellFormed L σ) (hn : inum < L.ninodes)
    (type : (inodes L σ inum).type ≠ 0) (coherent : ∀ ip, cached = some ip → ip = inodes L σ inum)
    (off : BitVec 32) (actions : List WriteAction) :
    ∃ s, (Shared.init σ cached off).run L inum actions = some s ∧
      s.off.toNat = off.toNat + (written s.log).length ∧
      (∀ a c b, s.log = a ++ c :: b → c.start = off.toNat + (written a).length ∧
        ((s.bytes L inum).drop c.start).take c.bytes.length = c.bytes) ∧
      s.log.Pairwise (fun c d => c.start + c.bytes.length ≤ d.start) ∧
      (∀ k n buf, s.made[k]? = some (n, buf) →
        (∃ m ≤ n.toInt.toNat, written (pieces s.log k) = (range m).map buf) ∧
        (∀ r, (k, r) ∈ s.returns → r ≠ -1 → r = n.toInt ∧
          written (pieces s.log k) = (range n.toInt.toNat).map buf) ∧
        (n.toInt.toNat ≤ 3 * BSIZE → (pieces s.log k).length ≤ 1)) ∧
      ((∀ before, before <+: actions → ∀ t, (Shared.init σ cached off).run L inum before = some t →
          ¬ DiskFull L t.store) →
        (∀ k n buf, s.made[k]? = some (n, buf) → n.toInt.toNat ≤ 3 * BSIZE →
          ∀ c ∈ pieces s.log k, c.bytes = (range n.toInt.toNat).map buf) ∧
        (off.toNat ≤ (contents σ (inodes L σ inum)).length →
          off.toNat + total s.made ≤ MAXFILE * BSIZE →
          (∀ before p, before ++ [.chunk p] <+: actions → ∀ t c,
            (Shared.init σ cached off).run L inum before = some t → t.calls p = some c →
            (c.i : ℤ) < c.n.toInt → ∃ t', t.step L inum (.chunk p) = some t' ∧
              t'.log = t.log ++ [⟨c.id, t.off.toNat, (range
                (min (c.n.toInt.toNat - c.i) (3 * BSIZE))).map fun j => c.buf (c.i + j)⟩] ∧
              t'.calls p = some { c with i := c.i + min (c.n.toInt.toNat - c.i) (3 * BSIZE) }) ∧
          ∀ k r n buf, (k, r) ∈ s.returns → s.made[k]? = some (n, buf) → 0 ≤ n.toInt →
            r = n.toInt ∧ written (pieces s.log k) = (range n.toInt.toNat).map buf)) := by
  have ok : FileOk L inum (Shared.init σ cached off) := ⟨image, hn, type, coherent⟩
  have keeps := run_keeps
    (P := fun t => Adjacent L inum (contents σ (inodes L σ inum)) off.toNat t ∧ Booked t)
    (fun kept moves => ⟨kept.1.step moves, kept.2.step moves⟩) ok ⟨.init, .init⟩
  obtain ⟨s, run, -, adjacent, booked⟩ := keeps actions
  refine ⟨s, run, adjacent.offset, fun a c b split => ⟨adjacent.starts a c b split, ?_⟩,
    adjacent.disjoint, fun k n buf call => ⟨booked.inOrder k n buf call, fun r ret success => ?_,
      booked.once k n buf call⟩, fun room => ⟨?_, fun start fits => ⟨?_, ?_⟩⟩⟩
  · exact adjacent.stored split
  · obtain ⟨m, b, found, value, all⟩ := booked.reports (k, r) ret success
    rw [call] at found
    cases found
    exact ⟨value, all⟩
  · obtain ⟨s', run', -, -, whole⟩ := run_keeps_while (P := fun t => Booked t ∧ Whole t)
      (fun kept moves free => ⟨kept.1.step moves, kept.2.step kept.1 moves free⟩) ok
      ⟨.init, .init⟩ actions room
    cases run.symm.trans run'
    exact whole
  · intro before p le t c first busy more
    obtain ⟨t', first', ok', adjacent', booked'⟩ := keeps before
    cases first.symm.trans first'
    have grown := total_le (run_made ok ((prefix_append ..).trans le) first run)
    obtain ⟨start', fits'⟩ := adjacent'.room booked' start (by omega) busy
    refine ok'.chunk_stored busy more start' fits' fun u next => room _ le u ?_
    rw [Shared.run_snoc, first]
    exact next
  · intro k r n buf ret call natural
    obtain ⟨s', run', -, -, -, complete⟩ := run_keeps_while
      (P := fun t => Adjacent L inum (contents σ (inodes L σ inum)) off.toNat t ∧ Booked t ∧ Complete t)
      (R := fun t => ¬ DiskFull L t.store ∧ off.toNat + total t.made ≤ MAXFILE * BSIZE)
      (fun kept moves free => ⟨kept.1.step moves, kept.2.1.step moves, kept.2.2.step kept.2.1
        (fun p c => kept.1.room kept.2.1 start
          (le_trans (Nat.add_le_add_left (total_le moves.made) _) free.2)) moves free.1⟩)
      ok ⟨.init, .init, .init⟩ actions fun before le t first =>
        ⟨room before le t first, le_trans
          (Nat.add_le_add_left (total_le (run_made ok le first run)) _) fits⟩
    cases run.symm.trans run'
    have success := complete (k, r) ret n buf call natural
    obtain ⟨m, b, found, value, all⟩ := booked.reports (k, r) ret (by dsimp only at success ⊢; omega)
    cases call.symm.trans found
    exact ⟨value, all⟩

end

def twoWriters : List WriteAction :=
  [.call 0 3 fun _ => 7, .call 1 2 fun _ => 8, .chunk 1, .chunk 0, .chunk 0, .chunk 1]

/-- Two processes write to an empty file: both calls report success, and their bytes are in the file. -/
theorem shared_offset_root : ∃ s,
    (Shared.init emptyImage none 0).run .mkfs ROOTINO twoWriters = some s ∧
    s.returns = [(0, 3), (1, 2)] ∧ s.off.toNat = 5 ∧
    ∀ k r n buf, (k, r) ∈ s.returns → s.made[k]? = some (n, buf) → 0 ≤ n.toInt →
      r = n.toInt ∧ written (pieces s.log k) = (range n.toInt.toNat).map buf := by
  obtain ⟨s, run, offset, -, -, -, room⟩ := shared_offset_loses_nothing emptyImage_wellFormed
    (by decide) emptyImage_root (fun _ none => absurd none (Option.some_ne_none _).symm) 0 twoWriters
  have outcome : ((Shared.init emptyImage none 0).run .mkfs ROOTINO twoWriters).map (fun s =>
      (s.returns, (written s.log).length, s.made.map fun x => x.1.toInt.toNat)) =
        some ([(0, 3), (1, 2)], 5, [3, 2]) := by
    set_option maxRecDepth 10000 in decide
  -- block 1999 is free all the time
  have free : ∀ n ∈ range 7, (match (Shared.init emptyImage none 0).run .mkfs ROOTINO
      (twoWriters.take n) with
    | some t => decide (Used .mkfs t.store 1999)
    | none => false) = false := by
    set_option maxRecDepth 10000 in decide
  rw [run, Option.map_some, Option.some.injEq, Prod.mk.injEq, Prod.mk.injEq] at outcome
  obtain ⟨returns, length, made⟩ := outcome
  refine ⟨s, run, returns, by rw [offset, length]; rfl, ((room ?_).2 zero_le ?_).2⟩
  · intro before le t first full
    have unused := free before.length (mem_range.mpr (Nat.lt_succ_of_le le.length_le))
    rw [← prefix_iff_eq_take.mp le, first] at unused
    exact of_decide_eq_false unused (full 1999 (by decide))
  · rw [total, made]
    decide

end Xv6.Io
