import Xv6.Fs.Contents
import Xv6.Io.Pipe

/-!
# The system call `read`

`read` on pipes, devices and inodes, with the stores in user memory that it makes.
-/

namespace Xv6.Io

open Fs List FsState
open Proc (Cons Pipe)
open Vm (Table PGSIZE MAXVA)

/-! ## The code -/

/-- The loop of `readi` to the user address `dst`: `n` bytes are left, `tot` have been read with the
stores `done`; `none` where the code returns -1, `k` bounds the blocks that are left. -/
def readUserFrom (L : Layout) (t : Table) : (k : ℕ) → Inode → (dst off n tot : ℕ) →
    List (ℕ × Byte) → FsProg (Option ℕ × List (ℕ × Byte) × Inode)
  | 0, ip, _, _, _, tot, done => pure (some tot, done, ip)
  | k + 1, ip, dst, off, n, tot, done =>
      if n = 0 then pure (some tot, done, ip)
      else do
        let (addr, ip) ← bmap L ip (off / BSIZE)
        if addr = 0 then pure (some tot, done, ip)
        else
          let d ← Fs.bread addr
          let m := min n (BSIZE - off % BSIZE)
          let new := stores t dst ((range m).map fun i => d.byte (off % BSIZE + i))
          Fs.brelse addr
          if new.length = m then
            readUserFrom L t k ip ((dst + m) % 2 ^ 64) (off + m) (n - m) (tot + m) (done ++ new)
          else pure (none, done ++ new, ip)

/-- `readi` to a user address. -/
def readUser (L : Layout) (t : Table) (ip : Inode) (dst : BitVec 64) (off n : BitVec 32) :
    FsProg (Option ℕ × List (ℕ × Byte) × Inode) :=
  if ip.size < off ∨ off + n < off then pure (some 0, [], ip)
  else
    let n := if ip.size < off + n then ip.size - off else n
    readUserFrom L t n.toNat ip dst.toNat off.toNat n.toNat 0 []

/-- What an open file refers to: a pipe, an inode with the offset, or a device. -/
inductive FileKind where
  | pipe (p : Pipe)
  | inode (inum : ℕ) (off : BitVec 32)
  | device (major : BitVec 16)

/-- An open file, as `read` sees it. -/
structure OpenFile where
  kind : FileKind
  readable : Bool

/-- What a reader finds: its page table, the console, the inode table, and the pipe or the console after
each of its sleeps, unless it is killed. -/
structure Surroundings where
  table : Table
  cons : Cons
  icache : ℕ → Option Inode
  pipeWakes : List (Option Pipe)
  consWakes : List (Option Cons)

/-- How a call of `read` ends: its result unless it sleeps, the stores that it has made, and the file
and the console that it leaves. -/
structure ReadCall where
  ret : Option ℤ
  stores : List (ℕ × Byte)
  file : Option OpenFile
  cons : Cons

abbrev NDEV : ℕ := 10

abbrev CONSOLE : ℕ := 1

/-- The stores of a reader that copies byte by byte to `addr`. -/
def storesFrom (addr : BitVec 64) (bytes : List Byte) : List (ℕ × Byte) :=
  bytes.mapIdx fun i b => ((addr + BitVec.ofNat 64 i).toNat, b)

def intOf : Option ℕ → ℤ
  | some tot => (BitVec.ofNat 32 tot).toInt
  | none => -1

def fileread (L : Layout) (env : Surroundings) (f : OpenFile) (addr : BitVec 64) (n : BitVec 32) :
    FsProg ReadCall :=
  if f.readable = false then pure ⟨some (-1), [], some f, env.cons⟩
  else
    match f.kind with
    | .pipe p =>
        let x := piperead (reach env.table addr) n env.pipeWakes p
        pure ⟨x.ret, storesFrom addr x.stored, some { f with kind := .pipe x.pipe }, env.cons⟩
    | .device major =>
        if major.toInt < 0 ∨ (NDEV : ℤ) ≤ major.toInt ∨ major.toNat ≠ CONSOLE then
          pure ⟨some (-1), [], some f, env.cons⟩
        else
          let x := consoleread (reach env.table addr) env.consWakes n env.cons
          pure ⟨x.ret, storesFrom addr x.stored, some f, x.cons⟩
    | .inode inum off => do
        let ip ← ilock L (env.icache inum) inum
        let (tot, made, _) ← readUser L env.table ip addr off n
        let r := intOf tot
        let off := if 0 < r then off + BitVec.ofInt 32 r else off
        pure ⟨some r, made, some { f with kind := .inode inum off }, env.cons⟩

abbrev NOFILE : ℕ := 16

/-- The file of descriptor `fd`, if it is open. -/
def argfd (ofile : ℕ → Option OpenFile) (fd : BitVec 32) : Option OpenFile :=
  if fd.toInt < 0 ∨ (NOFILE : ℤ) ≤ fd.toInt then none else ofile fd.toNat

/-- `sys_read`. -/
def sysRead (L : Layout) (env : Surroundings) (ofile : ℕ → Option OpenFile) (fd : BitVec 32)
    (addr : BitVec 64) (n : BitVec 32) : FsProg ReadCall :=
  match argfd ofile fd with
  | none => pure ⟨some (-1), [], none, env.cons⟩
  | some f => fileread L env f addr n

/-! ## Reading an inode -/

/-- The result of a read to user memory, without the stores of a read that fails. -/
def ended (r : Option ℕ × List (ℕ × Byte) × Inode) : Option (ℕ × List (ℕ × Byte)) × Inode :=
  (r.1.map fun tot => (tot, r.2.1), r.2.2)

/-- The result of a read whose bytes are stored from the address `va` on. -/
def storedAt (va : ℕ) (r : Option (List Byte) × Inode) : Option (ℕ × List (ℕ × Byte)) × Inode :=
  (r.1.map fun data => (data.length, placed va data), r.2)

section

variable {L : Layout} {σ : Store} {B : ℕ → Prop} {ip : Inode}

theorem readUserFrom_eq (t : Table) (va k : ℕ) (ip : Inode) (off n : ℕ) (data : List Byte)
    (low : va + data.length < 2 ^ 64) :
    (readUserFrom L t k ip (va + data.length) off n data.length (placed va data) >>=
        fun r => pure (ended r)) =
      (readiFrom L (fun i => decide (t.Accessible ((va + i) / PGSIZE))) k ip off n data >>=
        fun r => pure (storedAt va r)) := by
  induction k generalizing ip off n data with
  | zero => rfl
  | succ k ih =>
    rw [readUserFrom, readiFrom]
    by_cases finished : n = 0
    · rw [if_pos finished, if_pos finished]
      rfl
    rw [if_neg finished, if_neg finished, bind_assoc, bind_assoc]
    refine congrArg _ (funext fun r => ?_)
    obtain ⟨addr, ip⟩ := r
    dsimp only
    by_cases hole : addr = 0
    · rw [if_pos hole, if_pos hole]
      rfl
    rw [if_neg hole, if_neg hole, bind_assoc, bind_assoc]
    refine congrArg _ (funext fun d => ?_)
    rw [bind_assoc, bind_assoc]
    refine congrArg _ (funext fun _ => ?_)
    set block := (range (min n (BSIZE - off % BSIZE))).map fun i => d.byte (off % BSIZE + i)
      with block_eq
    have size : block.length = min n (BSIZE - off % BSIZE) := by
      rw [block_eq, length_map, length_range]
    rw [← size]
    have mapped : (stores t (va + data.length) block).length = block.length ↔
        ((range block.length).all fun i =>
          decide (t.Accessible ((va + (data.length + i)) / PGSIZE))) = true := by
      simp only [all_stores_iff, all_eq_true, mem_range, decide_eq_true_eq, add_assoc]
    by_cases all : (stores t (va + data.length) block).length = block.length
    · have pos : block ≠ [] := by
        have := Nat.mod_lt off (show 0 < BSIZE by decide)
        refine ne_nil_of_length_pos ?_
        omega
      have top := end_of_stores pos all
      have joined : placed va data ++ stores t (va + data.length) block = placed va (data ++ block) := by
        rw [placed_append, stores_eq_placed, all, take_length]
      have next := ih ip (off + block.length) (n - block.length) (data ++ block) (by
        rw [length_append]
        simp only [MAXVA] at top
        omega)
      rw [if_pos all, if_pos (mapped.mp all), joined, ← next, length_append, ← add_assoc,
        Nat.mod_eq_of_lt (by simp only [MAXVA] at top; omega)]
    · rw [if_neg all, if_neg fun holds => all (mapped.mpr holds)]
      rfl

/-- `readi` to user memory does on the file system what `readi` does with a destination that accepts the
bytes of accessible pages; it fails if that does, and otherwise returns the number of the bytes and
stores them from `dst` on. -/
theorem readUser_stores (t : Table) (ip : Inode) (dst : BitVec 64) (off n : BitVec 32) :
    (readUser L t ip dst off n >>= fun r => pure (ended r)) =
      (readi L ip (fun i => decide (t.Accessible ((dst.toNat + i) / PGSIZE))) off n >>=
        fun r => pure (storedAt dst.toNat r)) := by
  rw [readUser, readi]
  by_cases bad : ip.size < off ∨ off + n < off
  · rw [if_pos bad, if_pos bad]
    rfl
  · rw [if_neg bad, if_neg bad]
    exact readUserFrom_eq t dst.toNat _ ip _ _ [] dst.isLt

theorem looks_readUserFrom (t : Table) (k : ℕ) {dst off left tot : ℕ} {done : List (ℕ × Byte)}
    (readable : ∀ p, off ≤ p → p < off + left → Readable B σ ip p) (fuel : left ≤ k) :
    Looks NoPanic B (readUserFrom L t k ip dst off left tot done) σ fun r =>
      let made := stores t dst ((range left).map fun i => fileByte σ ip (off + i))
      r = (if made.length = left then some (tot + left) else none, done ++ made, ip) := by
  induction k generalizing dst off left tot done with
  | zero =>
    obtain rfl := Nat.le_zero.mp fuel
    refine looks_ret ?_
    show (some tot, done, ip) = (some tot, done ++ [], ip)
    rw [append_nil]
  | succ k ih =>
    unfold readUserFrom
    split_ifs with finished
    · subst finished
      refine looks_ret ?_
      show (some tot, done, ip) = (some tot, done ++ [], ip)
      rw [append_nil]
    have here := readable off (le_refl _) (by omega)
    refine Looks.bind ((looks_bmap_slot here.inside here.mapped here.indirect).mono ?_)
    rintro r rfl
    dsimp only
    rw [if_neg here.mapped]
    refine looks_bread here.data rfl ?_
    have within : off % BSIZE < BSIZE := Nat.mod_lt _ (by decide)
    obtain ⟨m, hm⟩ : ∃ m, m = min left (BSIZE - off % BSIZE) := ⟨_, rfl⟩
    obtain ⟨rest, rfl⟩ : ∃ rest, left = m + rest := ⟨left - m, by omega⟩
    rw [← hm, fileByte_block (by omega), Nat.add_sub_cancel_left]
    -- the bytes of this block, and those of the blocks after it
    have pieces : ((range (m + rest)).map fun i => fileByte σ ip (off + i)) =
        ((range m).map fun i => fileByte σ ip (off + i)) ++
          (range rest).map fun i => fileByte σ ip (off + m + i) := by
      rw [range_add, map_append, map_map]
      simp only [Function.comp_def, add_assoc]
    set block := (range m).map fun i => fileByte σ ip (off + i) with block_eq
    have size : block.length = m := by rw [block_eq, length_map, length_range]
    rw [pieces, stores_append, size]
    by_cases all : (stores t dst block).length = m
    · have low := end_of_stores (ne_nil_of_length_pos (by omega)) (all.trans size.symm)
      rw [if_pos all, if_pos all]
      rw [Nat.mod_eq_of_lt (by rw [size] at low; simp only [MAXVA] at low; omega)]
      refine (ih (fun p lower upper => readable p (by omega) (by omega)) (by omega)).mono ?_
      rintro r rfl
      rw [length_append, all, add_assoc, append_assoc]
      simp only [Nat.add_left_cancel_iff]
    · have short : (stores t dst block).length ≤ m := size ▸ length_stores_le dst block
      rw [if_neg all, if_neg all]
      refine looks_ret ?_
      rw [if_neg (by omega)]

/-- What a read of `bytes` to the address `va` returns: it fails if one of them is not mapped. -/
def readOf (t : Table) (va : ℕ) (bytes : List Byte) : Option ℕ :=
  if (stores t va bytes).length = bytes.length then some bytes.length else none

theorem looks_readUser (t : Table) (dst : BitVec 64) (off len : BitVec 32)
    (readable : ∀ p, p < ip.size.toNat → Readable B σ ip p) :
    Looks NoPanic B (readUser L t ip dst off len) σ fun r =>
      r = (readOf t dst.toNat (bytesAt (contents σ ip) off.toNat len.toNat),
        stores t dst.toNat (bytesAt (contents σ ip) off.toNat len.toNat), ip) := by
  unfold readUser
  by_cases bad : ip.size < off ∨ off + len < off
  · have nothing : bytesAt (contents σ ip) off.toNat len.toNat = [] := by
      rw [bytesAt]
      split_ifs with wraps
      · rfl
      · rw [add_lt_iff_wraps, or_iff_left wraps, BitVec.lt_def] at bad
        rw [drop_of_length_le (by rw [length_contents]; omega), take_nil]
    rw [if_pos bad, nothing]
    exact looks_ret rfl
  obtain ⟨start, wraps⟩ := not_or.mp bad
  rw [add_lt_iff_wraps] at wraps
  rw [BitVec.not_lt, BitVec.le_def] at start
  have count : (if ip.size < off + len then ip.size - off else len).toNat =
      min len.toNat (ip.size.toNat - off.toNat) := by
    simp only [BitVec.lt_def, toNat_add_of_not_wraps wraps]
    split_ifs with short
    · rw [BitVec.toNat_sub_of_le start]
      omega
    · omega
  have bytes : ((range (min len.toNat (ip.size.toNat - off.toNat))).map fun i =>
      fileByte σ ip (off.toNat + i)) = bytesAt (contents σ ip) off.toNat len.toNat := by
    rw [bytesAt, if_neg wraps, bytes_contents]
  have size : (bytesAt (contents σ ip) off.toNat len.toNat).length =
      min len.toNat (ip.size.toNat - off.toNat) := by
    rw [← bytes, length_map, length_range]
  rw [if_neg bad]
  refine (looks_readUserFrom t _ (fun p lower upper => readable p ?_) (le_refl _)).mono ?_
  · rw [count] at upper
    omega
  rintro r rfl
  rw [count, bytes, readOf, size, zero_add, nil_append]

theorem looks_ilock_typed {n : ℕ} (hn : n < L.ninodes) (type : (inodes L σ n).type ≠ 0)
    {cached : Option Inode} (coherent : ∀ ip, cached = some ip → ip = inodes L σ n) :
    Looks NoPanic L.Home (ilock L cached n) σ fun ip => ip = inodes L σ n := by
  cases cached with
  | some ip => exact looks_ret (coherent ip rfl)
  | none =>
    refine looks_bread (L.home_iblock hn) rfl ?_
    change Looks NoPanic L.Home (if (inodes L σ n).type = 0 then _ else _) σ _
    rw [if_neg type]
    exact looks_ret rfl

end

/-! ## Bounds -/

/-- A read of `n` bytes to `addr` stores at most that many bytes, all of them there, and it returns -1
or their number. -/
def ReadCall.Bounded (x : ReadCall) (addr : BitVec 64) (n : BitVec 32) : Prop :=
  x.stores.length ≤ n.toInt.toNat ∧
    (∀ y ∈ x.stores, addr.toNat ≤ y.1 ∧ y.1 < addr.toNat + n.toInt.toNat) ∧
    (x.ret = none ∨ x.ret = some (-1) ∨ x.ret = some (x.stores.length : ℤ))

section

variable {addr : BitVec 64} {n : BitVec 32} {file : Option OpenFile} {cons : Cons}

theorem bounded_fail : ReadCall.Bounded ⟨some (-1), [], file, cons⟩ addr n :=
  ⟨zero_le, fun _ none => absurd none not_mem_nil, .inr (.inl rfl)⟩

theorem bounded_bytewise {t : Table} {stored : List Byte} {ret : Option ℤ}
    (few : stored.length ≤ n.toInt.toNat) (reached : ∀ i < stored.length, reach t addr i = true)
    (result : ret = none ∨ ret = some (-1) ∨ ret = some (stored.length : ℤ)) :
    ReadCall.Bounded ⟨ret, storesFrom addr stored, file, cons⟩ addr n := by
  have size : (storesFrom addr stored).length = stored.length := length_mapIdx
  refine ⟨size ▸ few, fun y hy => ?_, ?_⟩
  · obtain ⟨i, hi, rfl⟩ := mem_mapIdx.mp hy
    rw [toNat_add_of_reach reached hi]
    exact ⟨Nat.le_add_right _ _, by omega⟩
  · rwa [size]

theorem bounded_pipe (t : Table) (wakes : List (Option Pipe)) (p : Pipe) :
    ReadCall.Bounded ⟨(piperead (reach t addr) n wakes p).ret,
      storesFrom addr (piperead (reach t addr) n wakes p).stored, file, cons⟩ addr n := by
  rcases piperead_cases (reach t addr) n wakes p with ⟨p', -, copies⟩ | ⟨-, p', ret, ends, vain⟩
  · rw [copies]
    obtain ⟨few, reached⟩ := pipeCopy_reached (reach t addr) n.toInt.toNat 0 p'
    simp only [zero_add] at reached
    refine bounded_bytewise few reached (.inr (.inr ?_))
    rw [pipeCopy_ret, zero_add]
  · rw [ends]
    refine bounded_bytewise (t := t) zero_le (fun i hi => absurd hi (Nat.not_lt_zero i)) ?_
    rcases vain with rfl | rfl
    · exact .inl rfl
    · exact .inr (.inl rfl)

theorem bounded_console (t : Table) (wakes : List (Option Cons)) (s : Cons) :
    ReadCall.Bounded ⟨(consoleread (reach t addr) wakes n s).ret,
      storesFrom addr (consoleread (reach t addr) wakes n s).stored, file, cons⟩ addr n := by
  rw [consoleread]
  split_ifs with pos
  · have same : n.toInt.toNat = n.toNat := by
      rw [BitVec.toInt_eq_toNat_cond] at pos ⊢
      split_ifs at pos ⊢ <;> omega
    have count : ([] : List Byte).length + n.toNat = n.toNat := zero_add _
    obtain ⟨total, reached, ret⟩ := readCall_fair (reach t addr) wakes n.toNat s [] count
      fun i hi => absurd hi (Nat.not_lt_zero i)
    refine bounded_bytewise (by omega) reached ?_
    rcases ret with ret | ret | ret
    · exact .inl ret
    · exact .inr (.inl ret)
    · exact .inr (.inr (ret.trans (congrArg some (by omega))))
  · exact bounded_bytewise (t := t) zero_le (fun i hi => absurd hi (Nat.not_lt_zero i))
      (.inr (.inr rfl))

theorem bytesAt_nil_iff (c : List Byte) (off len : ℕ) :
    bytesAt c off len = [] ↔ 2 ^ 32 ≤ off + len ∨ c.length ≤ off ∨ len = 0 := by
  rw [bytesAt]
  split_ifs with wraps
  · exact iff_of_true rfl (.inl wraps)
  · rw [take_eq_nil_iff, drop_eq_nil_iff, or_iff_right wraps]
    exact or_comm

theorem length_bytesAt_le (c : List Byte) (off len : ℕ) : (bytesAt c off len).length ≤ len := by
  rw [bytesAt]
  split_ifs
  · exact zero_le
  · exact length_take_le _ _

/-- A read of a part of the file `c` is bounded if and only if the count is not negative or nothing is
stored. -/
theorem bounded_inode_iff (t : Table) (c : List Byte) (off : BitVec 32) :
    ReadCall.Bounded ⟨some (intOf (readOf t addr.toNat (bytesAt c off.toNat n.toNat))),
      stores t addr.toNat (bytesAt c off.toNat n.toNat), file, cons⟩ addr n ↔
    (n.toInt < 0 → c.length ≤ off.toNat ∨ -n.toInt ≤ off.toNat ∨
      ¬ t.Accessible (addr.toNat / PGSIZE)) := by
  have few := length_bytesAt_le c off.toNat n.toNat
  have empty := bytesAt_nil_iff c off.toNat n.toNat
  generalize bytesAt c off.toNat n.toNat = bytes at few empty ⊢
  have le := length_stores_le (t := t) addr.toNat bytes
  have signed := BitVec.toInt_eq_toNat_cond n
  have nonneg : 0 ≤ n.toInt → n.toInt = n.toNat ∧ 2 * n.toNat < 2 ^ 32 := by
    intro nonneg
    split_ifs at signed <;> omega
  have negative : n.toInt < 0 → n.toInt = n.toNat - 2 ^ 32 := by
    intro negative
    split_ifs at signed <;> omega
  have result : intOf (readOf t addr.toNat bytes) =
      if (stores t addr.toNat bytes).length = bytes.length then (BitVec.ofNat 32 bytes.length).toInt
      else -1 := by
    rw [readOf, apply_ite intOf]
    rfl
  rw [ReadCall.Bounded, result]
  dsimp only
  rcases lt_or_ge n.toInt 0 with below | above
  · have nothing : stores t addr.toNat bytes = [] ↔ c.length ≤ off.toNat ∨ -n.toInt ≤ off.toNat ∨
        ¬ t.Accessible (addr.toNat / PGSIZE) := by
      have past : bytes = [] ↔ c.length ≤ off.toNat ∨ -n.toInt ≤ off.toNat := by
        have := negative below
        rw [empty]
        omega
      rw [stores_nil_iff, past, or_assoc]
    rw [show n.toInt.toNat = 0 by omega, ← nothing]
    constructor
    · rintro ⟨none, -⟩ -
      exact length_eq_zero_iff.mp (Nat.le_zero.mp none)
    · intro none
      rw [none below]
      refine ⟨le_refl _, fun _ absent => absurd absent not_mem_nil, .inr ?_⟩
      split_ifs with all
      · rw [← all]
        exact .inr rfl
      · exact .inl rfl
  · obtain ⟨value, small⟩ := nonneg above
    refine iff_of_true ⟨by omega, fun y hy => ?_, .inr ?_⟩ fun below => absurd above (by omega)
    · rw [stores_eq_placed] at hy
      obtain ⟨lower, upper⟩ := mem_placed hy
      rw [length_take] at upper
      exact ⟨lower, by omega⟩
    · split_ifs with all
      · have toNat : (BitVec.ofNat 32 bytes.length).toNat = bytes.length :=
          Nat.mod_eq_of_lt (by omega)
        rw [all, BitVec.toInt_eq_toNat_of_lt (by omega), toNat]
        exact .inr rfl
      · exact .inl rfl

/-! ## Every call -/

variable {L : Layout} {σ : Store}

theorem looks_fileread_inode (image : WellFormed L σ) (env : Surroundings) {inum : ℕ}
    (coherent : ∀ ip, env.icache inum = some ip → ip = inodes L σ inum) (hn : inum < L.ninodes)
    (type : (inodes L σ inum).type ≠ 0) (off : BitVec 32) :
    let bytes := bytesAt (contents σ (inodes L σ inum)) off.toNat n.toNat
    Looks NoPanic L.Home (fileread L env ⟨.inode inum off, true⟩ addr n) σ fun x =>
      ∃ f, x = ⟨some (intOf (readOf env.table addr.toNat bytes)), stores env.table addr.toNat bytes,
        some f, env.cons⟩ := by
  refine Looks.bind ((looks_ilock_typed hn type coherent).mono ?_)
  rintro ip rfl
  have reads := looks_readUser (L := L) env.table addr off n fun p below =>
    (image inum).readable hn trivial type below
  refine Looks.bind ((reads.weaken (fun _ no => no) fun _ hb => hb.home).mono ?_)
  rintro r rfl
  exact looks_ret ⟨_, rfl⟩

/-- `fileread` of a file that is no inode, or of one whose read stores nothing, is bounded. -/
theorem fileread_bounded_iff (image : WellFormed L σ) (env : Surroundings) (f : OpenFile)
    (addr : BitVec 64) (n : BitVec 32)
    (coherent : ∀ inum ip, env.icache inum = some ip → ip = inodes L σ inum)
    (inUse : ∀ inum off, f.kind = .inode inum off → inum < L.ninodes ∧ (inodes L σ inum).type ≠ 0) :
    ∃ x s', (fileread L env f addr n).run exec (.start σ) = (.ok x, s') ∧ s'.store = σ ∧
      (x.Bounded addr n ↔ (f.readable = true → ∀ inum off, f.kind = .inode inum off → n.toInt < 0 →
        (inodes L σ inum).size.toNat ≤ off.toNat ∨ -n.toInt ≤ off.toNat ∨
          ¬ env.table.Accessible (addr.toNat / PGSIZE))) := by
  obtain ⟨kind, readable⟩ := f
  cases readable with
  | false => exact ⟨_, _, rfl, rfl, iff_of_true bounded_fail nofun⟩
  | true =>
    cases kind with
    | pipe p => exact ⟨_, _, rfl, rfl, iff_of_true (bounded_pipe _ _ _) nofun⟩
    | device major =>
      simp only [fileread, Bool.true_eq_false, if_false]
      split_ifs
      · exact ⟨_, _, rfl, rfl, iff_of_true bounded_fail nofun⟩
      · exact ⟨_, _, rfl, rfl, iff_of_true (bounded_console _ _ _) nofun⟩
    | inode inum off =>
      obtain ⟨hn, type⟩ := inUse inum off rfl
      obtain ⟨x, s', run, same, f, rfl⟩ := ((looks_fileread_inode image env (coherent inum) hn type
        off).returns fun _ home => home).run
      refine ⟨_, s', run, same, ?_⟩
      rw [bounded_inode_iff, length_contents]
      constructor
      · rintro safe - inum' off' kind
        cases kind
        exact safe
      · exact fun safe => safe rfl inum off rfl

/-- A call of `read` stores at most what was asked for, unless the count is negative, the file is an
inode with an offset before its end and below the absolute value of the count, and the address is
mapped. -/
theorem sysRead_bounded_iff (image : WellFormed L σ) (env : Surroundings)
    (ofile : ℕ → Option OpenFile) (fd : BitVec 32) (addr : BitVec 64) (n : BitVec 32)
    (coherent : ∀ inum ip, env.icache inum = some ip → ip = inodes L σ inum)
    (inUse : ∀ f inum off, argfd ofile fd = some f → f.kind = .inode inum off →
      inum < L.ninodes ∧ (inodes L σ inum).type ≠ 0) :
    ∃ x s', (sysRead L env ofile fd addr n).run exec (.start σ) = (.ok x, s') ∧
      s'.store = σ ∧
      (x.Bounded addr n ↔ ∀ f, argfd ofile fd = some f → f.readable = true →
        ∀ inum off, f.kind = .inode inum off → n.toInt < 0 →
          (inodes L σ inum).size.toNat ≤ off.toNat ∨ -n.toInt ≤ off.toNat ∨
            ¬ env.table.Accessible (addr.toNat / PGSIZE)) := by
  rw [sysRead]
  cases arg : argfd ofile fd with
  | none => exact ⟨_, _, rfl, rfl, iff_of_true bounded_fail nofun⟩
  | some f =>
    obtain ⟨x, s', run, same, bounded⟩ := fileread_bounded_iff image env f addr n coherent
      fun inum off => inUse f inum off arg
    refine ⟨x, s', run, same, bounded.trans ⟨?_, fun safe => safe f rfl⟩⟩
    rintro safe f' found
    cases found
    exact safe

end

def pageReader : Surroundings := ⟨Vm.textTable, ⟨fun _ => 0, 0, 0, 0⟩, fun _ => none, [], []⟩

def rootFiles (_ : ℕ) : Option OpenFile := some ⟨.inode ROOTINO 0, true⟩

theorem rootFiles_inode {fd : BitVec 32} {f : OpenFile} {inum : ℕ} {off : BitVec 32}
    (found : argfd rootFiles fd = some f) (kind : f.kind = .inode inum off) : inum = ROOTINO := by
  rw [argfd] at found
  split_ifs at found
  cases found
  cases kind
  rfl

theorem emptyImage_wellFormed : WellFormed .mkfs emptyImage :=
  wellFormed_iff.mpr ⟨emptyImage_ownership, emptyImage_noHoles⟩

theorem emptyImage_root : (inodes .mkfs emptyImage ROOTINO).type ≠ 0 := by decide

/-- The image in which the root directory has been given one byte. -/
def oneByteImage : Store :=
  ((writei .mkfs (inodes .mkfs emptyImage ROOTINO) (fun _ => some 7) 0 1).run exec
    (.start emptyImage)).2.store

theorem oneByteImage_ok :
    WellFormed .mkfs oneByteImage ∧ (inodes .mkfs oneByteImage ROOTINO).type ≠ 0 := by
  obtain ⟨r, s', run, writes⟩ := (returns_writei emptyImage_wellFormed (by decide) trivial
    emptyImage_root (fun _ => some 7) 0 1).run
  have inode : inodes .mkfs s'.store ROOTINO = r.2 := by
    rw [inodes_closed writes.inv (by decide), Function.update_self]
  rw [oneByteImage, run]
  refine ⟨FsInv.closed writes.inv, ?_⟩
  rw [inode, writes.type]
  exact emptyImage_root

/-- A read of 16 bytes from a file of one byte stores this byte and is bounded. -/
theorem sysRead_root : ∃ x s',
    (sysRead .mkfs pageReader rootFiles 0 0 16).run exec (.start oneByteImage) = (.ok x, s') ∧
      x.ret = some 1 ∧ x.stores = [(0, 7)] ∧ x.Bounded 0 16 := by
  obtain ⟨image, type⟩ := oneByteImage_ok
  obtain ⟨x, s', run, -, bounded⟩ := sysRead_bounded_iff image pageReader rootFiles 0 0
    16 (fun _ _ none => nomatch none) fun f inum off found kind => by
      rw [rootFiles_inode found kind]
      exact ⟨by decide, type⟩
  have read : (match ((sysRead .mkfs pageReader rootFiles 0 0 16).run exec
      (.start oneByteImage)).1 with
    | .ok x => x.ret == some 1 && x.stores == [(0, 7)]
    | .error _ => false) = true := by
    set_option maxRecDepth 10000 in decide
  rw [run, Bool.and_eq_true, beq_iff_eq, beq_iff_eq] at read
  exact ⟨x, s', run, read.1, read.2,
    bounded.mpr fun _ _ _ _ _ _ negative => absurd negative (by decide)⟩

/-- A read of -1 bytes from a file of one byte stores this byte. -/
theorem sysRead_negative : ∃ σ x s', WellFormed .mkfs σ ∧
    (sysRead .mkfs pageReader rootFiles 0 0 (-1)).run exec (.start σ) = (.ok x, s') ∧
      ¬ x.Bounded 0 (-1) := by
  obtain ⟨image, type⟩ := oneByteImage_ok
  have size : (inodes .mkfs oneByteImage ROOTINO).size.toNat = 1 := by
    set_option maxRecDepth 10000 in decide
  obtain ⟨x, s', run, -, f, rfl⟩ := ((looks_fileread_inode image pageReader
    (fun _ none => nomatch none) (by decide) type 0).returns fun _ home => home).run
  refine ⟨_, _, s', image, run, ?_⟩
  rw [bounded_inode_iff, length_contents, size]
  intro safe
  rcases safe (by decide) with past | past | unmapped
  · exact absurd past (by decide)
  · exact absurd past (by decide)
  · exact unmapped ((Vm.textTable_accessible 0).mpr rfl)

end Xv6.Io
