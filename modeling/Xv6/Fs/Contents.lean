import Xv6.Fs.Ownership

/-!
# Files are byte arrays

The contents of a file as a list of bytes.  On an image with consistent block references `writei`
replaces a part of the contents of one file without holes, and `readi` returns a part of them.
-/

namespace Xv6.Fs

open List FsState

variable {L : Layout} {σ : Store}

/-! ## Programs that return -/

/-- Started with no buffer locked, the program returns with `Q`. -/
def Returns {α : Type} (L : Layout) (x : FsProg α) (σ : Store) (Q : α → Store → Prop) : Prop :=
  ∀ s, Shows L s σ [] → x.Total exec NoPanic (HomeOnly L) s fun a s' =>
    ∃ σ', Shows L s' σ' [] ∧ Q a σ'

def FsOp.Quiet : FsOp → Prop
  | .panic e => ¬ Benign e
  | _ => True

theorem FsState.exec_panic {o : FsOp} {s : FsState} {e : Panic}
    (raises : exec o s = .error (.panic e)) : o = .panic e ∨ e = .brelse := by
  cases o with
  | panic e' =>
    cases raises
    exact .inl rfl
  | brelse b =>
    simp only [exec] at raises
    split_ifs at raises
    cases raises
    exact .inr rfl
  | _ =>
    simp only [exec] at raises
    split_ifs at raises
    cases raises

section Rules

variable {α β : Type} {Q : β → Store → Prop} {x : FsProg β}

theorem returns_ret {b : β} (h : Q b σ) : Returns L (.ret b) σ Q :=
  fun _ hs => ⟨hs.home, σ, hs, h⟩

theorem Returns.bind {x : FsProg α} {f : α → FsProg β}
    (hx : Returns L x σ fun a σ' => Returns L (f a) σ' Q) : Returns L (x >>= f) σ Q := by
  intro s hs
  refine Prog.Total.bind ((hx s hs).mono ?_)
  rintro a s' ⟨σ', hs', rest⟩
  exact rest s' hs'

theorem Returns.mono {Q' : β → Store → Prop} (hx : Returns L x σ Q)
    (hQ : ∀ b σ', Q b σ' → Q' b σ') : Returns L x σ Q' := by
  intro s hs
  refine (hx s hs).mono ?_
  rintro b s' ⟨σ', hs', h⟩
  exact ⟨σ', hs', hQ b σ' h⟩

theorem Looks.returns {B : ℕ → Prop} {P : β → Prop} (hx : Looks NoPanic B x σ P)
    (hB : ∀ b, B b → L.Home b) : Returns L x σ fun b σ' => σ' = σ ∧ P b := by
  rintro s ⟨store, held, home⟩
  have start : Reading B σ s.logged s.dirty s :=
    ⟨store, rfl, fun _ h => h, held ▸ fun _ h => absurd h not_mem_nil⟩
  have homeOnly : ∀ s', Reading B σ s.logged s.dirty s' → HomeOnly L s' :=
    fun s' hs' => ⟨hs'.logged ▸ home.1, fun b hb => hB b (hs'.held b hb)⟩
  refine ((hx s s.logged s.dirty start held).weaken (fun _ h => h) homeOnly).mono ?_
  rintro b s' ⟨hs', held', h⟩
  exact ⟨σ, ⟨hs'.store, held', homeOnly s' hs'⟩, rfl, h⟩

theorem Does.returns (hx : Does L x σ [] fun b σ' K' => K' = [] ∧ Q b σ')
    (quiet : x.Only FsOp.Quiet) : Returns L x σ Q := by
  intro s hs
  refine ((hx s hs).restrict quiet ?_).mono ?_
  · intro o t e ho raises benign
    rcases exec_panic raises with rfl | rfl
    · exact ho benign
    · exact absurd benign (by decide)
  · rintro b s' ⟨σ', K', hs', rfl, h⟩
    exact ⟨σ', hs', h⟩

theorem Returns.run (hx : Returns L x σ Q) :
    ∃ b s', x.run exec (.start σ) = (.ok b, s') ∧ Q b s'.store := by
  have total := hx (.start σ) ⟨rfl, rfl, fun _ h => absurd h not_mem_nil,
    fun _ h => absurd h not_mem_nil⟩
  rcases total.run with ⟨b, returns, σ', shows, h⟩ | ⟨e, -, never⟩
  · refine ⟨b, (x.run exec (.start σ)).2, Prod.ext returns rfl, ?_⟩
    rwa [shows.store]
  · exact never.elim

end Rules

/-! ## Writing raises no panic -/

theorem bread_quiet (b : ℕ) : (bread b).Only FsOp.Quiet := ⟨trivial, fun _ => trivial⟩

theorem bset_quiet (b : ℕ) (d : Block) : (bset b d).Only FsOp.Quiet := ⟨trivial, fun _ => trivial⟩

theorem logWrite_quiet (b : ℕ) : (logWrite b).Only FsOp.Quiet := ⟨trivial, fun _ => trivial⟩

theorem brelse_quiet (b : ℕ) : (brelse b).Only FsOp.Quiet := ⟨trivial, fun _ => trivial⟩

theorem bzero_quiet (b : ℕ) : (bzero b).Only FsOp.Quiet :=
  (bread_quiet b).bind fun _ => (bset_quiet b _).bind fun _ => (logWrite_quiet b).bind fun _ =>
    brelse_quiet b

theorem ballocFrom_quiet (L : Layout) (k b : ℕ) : (ballocFrom L k b).Only FsOp.Quiet := by
  induction k generalizing b with
  | zero => trivial
  | succ k ih =>
    unfold ballocFrom
    split_ifs
    · refine (bread_quiet _).bind fun d => ?_
      cases firstClear d (min BPB (L.size - b)) with
      | none => exact (brelse_quiet _).bind fun _ => ih _
      | some bi =>
        exact (bset_quiet _ _).bind fun _ => (logWrite_quiet _).bind fun _ =>
          (brelse_quiet _).bind fun _ => (bzero_quiet _).bind fun _ => trivial
    · trivial

theorem bmapAddr_quiet (L : Layout) (ip : Inode) (k : ℕ) : (bmapAddr L ip k).Only FsOp.Quiet := by
  unfold bmapAddr
  split_ifs
  · refine (ballocFrom_quiet L _ _).bind fun addr => ?_
    split_ifs <;> trivial
  · trivial

theorem bmapEntry_quiet (L : Layout) (b j : ℕ) : (bmapEntry L b j).Only FsOp.Quiet := by
  unfold bmapEntry
  refine (bread_quiet b).bind fun d => ?_
  split_ifs
  · refine (ballocFrom_quiet L _ _).bind fun addr => ?_
    split_ifs
    · exact (brelse_quiet b).bind fun _ => trivial
    · exact (bset_quiet b _).bind fun _ => (logWrite_quiet b).bind fun _ =>
        (brelse_quiet b).bind fun _ => trivial
  · exact (brelse_quiet b).bind fun _ => trivial

theorem bmap_quiet (L : Layout) (ip : Inode) (bn : ℕ) : (bmap L ip bn).Only FsOp.Quiet := by
  unfold bmap
  split_ifs
  · exact bmapAddr_quiet L ip bn
  · refine (bmapAddr_quiet L ip NDIRECT).bind fun r => ?_
    dsimp only
    split_ifs
    · trivial
    · exact (bmapEntry_quiet L _ _).bind fun _ => trivial
  · exact ⟨(by decide : ¬ Benign .bmapOutOfRange), nofun⟩

theorem writeiFrom_quiet (L : Layout) (src : ℕ → Option Byte) (k : ℕ) (ip : Inode)
    (off n tot : ℕ) : (writeiFrom L src k ip off n tot).Only FsOp.Quiet := by
  induction k generalizing ip off n tot with
  | zero => trivial
  | succ k ih =>
    unfold writeiFrom
    split_ifs
    · trivial
    refine (bmap_quiet L ip _).bind fun r => ?_
    dsimp only
    split_ifs
    · trivial
    refine (bread_quiet _).bind fun d => ?_
    refine Prog.Only.bind ?_ fun ok => ?_
    · unfold eitherCopyin
      split_ifs
      · trivial
      · exact (bset_quiet _ _).bind fun _ => trivial
    · split_ifs
      · exact (logWrite_quiet _).bind fun _ => (brelse_quiet _).bind fun _ => ih _ _ _ _
      · exact (brelse_quiet _).bind fun _ => trivial

theorem iupdate_quiet (L : Layout) (ip : Inode) : (iupdate L ip).Only FsOp.Quiet :=
  (bread_quiet _).bind fun _ => (bset_quiet _ _).bind fun _ => (logWrite_quiet _).bind fun _ =>
    brelse_quiet _

theorem writei_quiet (L : Layout) (ip : Inode) (src : ℕ → Option Byte) (off n : BitVec 32) :
    (writei L ip src off n).Only FsOp.Quiet := by
  unfold writei
  split_ifs
  · trivial
  · trivial
  · exact (writeiFrom_quiet L src _ _ _ _ _).bind fun _ => (iupdate_quiet L _).bind fun _ => trivial

theorem returns_writei {F : ℕ → Prop} {n : ℕ} (h : ∀ m, FsInv F L σ (inodes L σ) [] m)
    (hn : n < L.ninodes) (full : F n) (type : (inodes L σ n).type ≠ 0)
    (src : ℕ → Option Byte) (off len : BitVec 32) :
    Returns L (writei L (inodes L σ n) src off len) σ fun r σ' => Writes F L σ n src off len r σ' :=
  (does_writei_bytes h hn full type src off len).returns (writei_quiet L _ src off len)

/-! ## Contents -/

/-- The bytes of a file. -/
def contents (σ : Store) (ip : Inode) : List Byte :=
  (List.range ip.size.toNat).map (fileByte σ ip)

/-- The byte array `c` with the bytes from `off` on replaced by `s`. -/
def overwrite (c : List Byte) (off : ℕ) (s : List Byte) : List Byte :=
  c.take off ++ s ++ c.drop (off + s.length)

/-- The bytes of `c` in `[off, off + len)`, or none of them if the sum does not fit. -/
def bytesAt (c : List Byte) (off len : ℕ) : List Byte :=
  if 2 ^ 32 ≤ off + len then [] else (c.drop off).take len

theorem length_contents (σ : Store) (ip : Inode) : (contents σ ip).length = ip.size.toNat := by
  rw [contents, length_map, length_range]

@[simp] theorem getElem_contents (σ : Store) (ip : Inode) {p : ℕ} (hp : p < (contents σ ip).length) :
    (contents σ ip)[p] = fileByte σ ip p := by
  simp only [contents, getElem_map, getElem_range]

theorem contents_overwrites {ip ip' : Inode} {σ' : Store} {src : ℕ → Byte} {off tot : ℕ}
    (mapped : Mapped σ ip ip.size.toNat) (start : off ≤ ip.size.toNat)
    (size : ip'.size.toNat = max ip.size.toNat (off + tot))
    (bytes : Overwrites src off tot σ ip σ' ip') :
    contents σ' ip' = overwrite (contents σ ip) off ((List.range tot).map src) := by
  have front : ((contents σ ip).take off).length = off := by
    rw [length_take, length_contents, Nat.min_eq_left start]
  refine ext_getElem ?_ fun p hp hp' => ?_
  · simp only [overwrite, length_append, front, length_drop, length_contents,
      length_map, length_range, size]
    omega
  have inside : p < ip'.size.toNat := by rwa [length_contents] at hp
  have old : ¬ (off ≤ p ∧ p < off + tot) → p < ip.size.toNat := by omega
  have byte : (off ≤ p ∧ p < off + tot) ∨ Stored σ ip p := by
    by_cases new : off ≤ p ∧ p < off + tot
    · exact .inl new
    · exact .inr (mapped.stored (old new))
  rw [getElem_contents, (bytes p byte).2]
  simp only [overwrite, getElem_append, front, length_append, length_map,
    length_range, getElem_take, getElem_drop, getElem_map, getElem_range,
    getElem_contents]
  split_ifs with new below before below before
  · omega
  · rfl
  · omega
  · rfl
  · omega
  · rw [Nat.add_sub_cancel' (by omega)]

theorem bytes_contents (σ : Store) (ip : Inode) (off len : ℕ) :
    ((List.range (min len (ip.size.toNat - off))).map fun i => fileByte σ ip (off + i)) =
      ((contents σ ip).drop off).take len := by
  refine ext_getElem ?_ fun i _ _ => ?_
  · simp [length_contents]
  · simp

/-! ## Refinement -/

/-- What `writei` of bytes that can be copied does to the files: `r` is its result. -/
structure WritesBytes (L : Layout) (σ : Store) (n : ℕ) (src : ℕ → Byte) (off len : BitVec 32)
    (r : Option ℕ × Inode) (σ' : Store) : Prop where
  fails_iff : r.1 = none ↔ (inodes L σ n).size.toNat < off.toNat ∨
    2 ^ 32 ≤ off.toNat + len.toNat ∨ MAXFILE * BSIZE < off.toNat + len.toNat
  unchanged : r.1 = none → r.2 = inodes L σ n ∧ σ' = σ
  count : ∀ tot, r.1 = some tot → tot ≤ len.toNat ∧ (tot < len.toNat → DiskFull L σ')
  inode : inodes L σ' n = r.2
  bytes : ∀ tot, r.1 = some tot →
    contents σ' r.2 = overwrite (contents σ (inodes L σ n)) off.toNat ((List.range tot).map src) ∧
    r.2.size.toNat = max (inodes L σ n).size.toNat (off.toNat + tot)
  others : ∀ i < L.ninodes, i ≠ n → inodes L σ' i = inodes L σ i ∧
    ((inodes L σ i).type ≠ 0 → (∀ k, slot σ' (inodes L σ i) k = slot σ (inodes L σ i) k) ∧
      ∀ p, Stored σ (inodes L σ i) p →
        fileByte σ' (inodes L σ i) p = fileByte σ (inodes L σ i) p)

theorem Writes.writesBytes {F : ℕ → Prop} {n : ℕ} {src : ℕ → Byte} {off len : BitVec 32}
    {r : Option ℕ × Inode} {σ' : Store} (hn : n < L.ninodes)
    (mapped : Mapped σ (inodes L σ n) (inodes L σ n).size.toNat)
    (h : Writes F L σ n (fun i => some (src i)) off len r σ') : WritesBytes L σ n src off len r σ' := by
  have disk := fun {i : ℕ} (hi : i < L.ninodes) => inodes_closed h.inv hi
  have others : ∀ i < L.ninodes, i ≠ n → inodes L σ' i = inodes L σ i ∧
      ((inodes L σ i).type ≠ 0 → (∀ k, slot σ' (inodes L σ i) k = slot σ (inodes L σ i) k) ∧
        ∀ p, Stored σ (inodes L σ i) p →
          fileByte σ' (inodes L σ i) p = fileByte σ (inodes L σ i) p) := by
    intro i hi hin
    refine ⟨by rw [disk hi, Function.update_of_ne hin], fun type => ⟨fun k => ?_, fun p hp => ?_⟩⟩
    · exact h.others.slot hi hin type k
    · exact h.others.byte hi hin type hp
  have inode : inodes L σ' n = r.2 := by rw [disk hn, Function.update_self]
  by_cases bad : OutOfRange (inodes L σ n) off len
  · obtain ⟨rfl, same⟩ := h.fails bad
    exact ⟨iff_of_true rfl bad, fun _ => ⟨rfl, same⟩, nofun, inode, nofun, others⟩
  · obtain ⟨tot, some, size, moved⟩ := h.writes bad fun _ => rfl
    have value : ∀ tot', r.1 = .some tot' → tot' = tot := fun tot' htot' =>
      Option.some.inj (htot'.symm.trans some)
    have start : off.toNat ≤ (inodes L σ n).size.toNat :=
      Nat.le_of_not_lt fun past => bad (.inl past)
    refine ⟨iff_of_false (by rw [some]; nofun) bad, fun none => ?_, fun tot' htot' => ?_, inode,
      fun tot' htot' => ?_, others⟩
    · rw [some] at none
      cases none
    · rw [value tot' htot']
      exact ⟨moved.le, moved.full⟩
    · rw [value tot' htot']
      exact ⟨contents_overwrites mapped start size moved.bytes, size⟩

/-- A file without holes is an array of bytes: `writei` replaces some of them, `readi` returns some of
them, and the other files are left alone. -/
theorem files_are_byte_arrays (own : BlockOwnership L σ) {n : ℕ} (hn : n < L.ninodes)
    (type : (inodes L σ n).type ≠ 0) (noHoles : Mapped σ (inodes L σ n) (inodes L σ n).size.toNat)
    (src : ℕ → Byte) (off len : BitVec 32) :
    (∃ r s', (writei L (inodes L σ n) (fun i => some (src i)) off len).run exec (.start σ) =
      (.ok r, s') ∧ WritesBytes L σ n src off len r s'.store) ∧
    ∃ s', (readi L (inodes L σ n) (fun _ => true) off len).run exec (.start σ) =
      (.ok (some (bytesAt (contents σ (inodes L σ n)) off.toNat len.toNat), inodes L σ n), s') ∧
      s'.store = σ := by
  have inv := own.inv_of_mapped noHoles
  constructor
  · obtain ⟨r, s', returns, writes⟩ :=
      (returns_writei inv hn rfl type (fun i => some (src i)) off len).run
    exact ⟨r, s', returns, writes.writesBytes hn noHoles⟩
  · unfold bytesAt
    split_ifs with wraps
    · rw [readi_wraps _ wraps]
      exact ⟨.start σ, rfl, rfl⟩
    have looks := looks_readi_bytes (L := L) (fun _ => true) off len
      fun p _ _ below => (inv n).readable hn rfl type below
    obtain ⟨⟨r, ip⟩, s', returns, same, rfl, bytes⟩ := (looks.returns fun _ hb => hb.home).run
    refine ⟨s', ?_, same⟩
    have all := bytes (fun _ => rfl) (Nat.lt_of_not_le wraps)
    rw [bytes_contents] at all
    rw [returns]
    exact congrArg (fun r => (Except.ok (r, inodes L σ n), s')) all

theorem files_are_byte_arrays_root : ∃ r s',
    (writei .mkfs (inodes .mkfs emptyImage ROOTINO) (fun _ => some 7) 0 3).run exec
      (.start emptyImage) = (.ok r, s') ∧
    WritesBytes .mkfs emptyImage ROOTINO (fun _ => 7) 0 3 r s'.store := by
  have type : (inodes .mkfs emptyImage ROOTINO).type ≠ 0 := by set_option maxRecDepth 10000 in decide
  exact (files_are_byte_arrays emptyImage_ownership (by decide) type
    (emptyImage_noHoles ROOTINO (by decide) type) (fun _ => 7) 0 3).1

/-- From an image whose bitmap is wrong, a `writei` of one byte to a file changes the contents of
another file: it gets the indirect block of that file. -/
theorem write_changes_other_file : NoHoles .mkfs holeImage ∧ ∃ ip s',
    (writei .mkfs (inodes .mkfs holeImage 2) (fun _ => some 45) 0 1).run exec
      (.start holeImage) = (.ok (some 1, ip), s') ∧
    12288 < (inodes .mkfs holeImage 1).size.toNat ∧
    fileByte s'.store (inodes .mkfs s'.store 1) 12288 ≠
      fileByte holeImage (inodes .mkfs holeImage 1) 12288 := by
  refine ⟨holeImage_noHoles, ?_⟩
  have facts : (match (writei .mkfs (inodes .mkfs holeImage 2) (fun _ => some 45) 0 1).run
      exec (.start holeImage) with
      | (.ok (r, _), s') => decide (r = some 1 ∧ 12288 < (inodes .mkfs holeImage 1).size.toNat ∧
          fileByte s'.store (inodes .mkfs s'.store 1) 12288 ≠
            fileByte holeImage (inodes .mkfs holeImage 1) 12288)
      | (.error _, _) => false) = true := by
    set_option maxRecDepth 10000 in decide
  split at facts
  case h_1 r ip s' returns =>
    obtain ⟨rfl, rest⟩ := of_decide_eq_true facts
    exact ⟨ip, s', returns, rest⟩
  case h_2 => cases facts

end Xv6.Fs
