import Xv6.Fs.File

/-!
# Reading never allocates

The rules for `bmap` and `readi` on a file without holes: they lock data blocks only, hand no
buffer to the log and leave the store alone.
-/

namespace Xv6.Fs

open List

variable {L : Layout} {σ : Store}

/-- The state of a program that only reads: the store is `σ`, nothing has been logged since `calls`,
only `changed` is changed, and the locked blocks satisfy `B`. -/
structure Reading (B : ℕ → Prop) (σ : Store) (calls changed : List ℕ) (s : FsState) : Prop where
  store : s.store = σ
  logged : s.logged = calls
  dirty : s.dirty ⊆ changed
  held : ∀ b ∈ s.held, B b

/-- Started with no buffer locked, the program reads only blocks with `B` and returns with `Q` or
raises a panic in `A`. -/
def Looks {α : Type} (A : Panic → Prop) (B : ℕ → Prop) (x : FsProg α) (σ : Store) (Q : α → Prop) :
    Prop :=
  ∀ s calls changed, Reading B σ calls changed s → s.held = [] →
    x.Total FsState.exec A (Reading B σ calls changed) s fun a s' =>
      Reading B σ calls changed s' ∧ s'.held = [] ∧ Q a

abbrev NoPanic (_ : Panic) : Prop := False

section Rules

variable {α β : Type} {Q : β → Prop} {A : Panic → Prop} {B : ℕ → Prop}

theorem looks_ret {b : β} (h : Q b) : Looks A B (.ret b) σ Q :=
  fun _ _ _ hs held => ⟨hs, hs, held, h⟩

theorem Looks.bind {x : FsProg α} {f : α → FsProg β}
    (hx : Looks A B x σ fun a => Looks A B (f a) σ Q) : Looks A B (x >>= f) σ Q := by
  intro s calls changed hs held
  refine Prog.Total.bind ((hx s calls changed hs held).mono ?_)
  rintro a s' ⟨hs', held', rest⟩
  exact rest s' calls changed hs' held'

theorem Looks.mono {x : FsProg β} {Q' : β → Prop} (hx : Looks A B x σ Q) (hQ : ∀ b, Q b → Q' b) :
    Looks A B x σ Q' := by
  intro s calls changed hs held
  refine (hx s calls changed hs held).mono ?_
  rintro b s' ⟨hs', held', h⟩
  exact ⟨hs', held', hQ b h⟩

theorem Looks.weaken {A' : Panic → Prop} {B' : ℕ → Prop} {x : FsProg β} (hx : Looks A B x σ Q)
    (hA : ∀ e, A e → A' e) (hB : ∀ b, B b → B' b) : Looks A' B' x σ Q := by
  intro s calls changed hs held
  have reading : ∀ t, Reading B σ calls changed t → Reading B' σ calls changed t :=
    fun t ht => ⟨ht.store, ht.logged, ht.dirty, fun b hb => hB b (ht.held b hb)⟩
  have start : Reading B σ calls changed s :=
    ⟨hs.store, hs.logged, hs.dirty, held ▸ fun _ h => absurd h not_mem_nil⟩
  refine ((hx s calls changed start held).weaken hA reading).mono ?_
  rintro b s' ⟨hs', held', h⟩
  exact ⟨reading s' hs', held', h⟩

theorem looks_panic {e : Panic} (he : A e) : Looks A B (panic e : FsProg β) σ Q :=
  fun _ _ _ hs _ => Prog.Total.panic hs rfl he

theorem looks_bread {b : ℕ} {f : Block → FsProg β} {g : FsProg β} (hb : B b)
    (shape : f (σ b) = brelse b >>= fun _ => g) (rest : Looks A B g σ Q) :
    Looks A B (bread b >>= f) σ Q := by
  rintro s calls changed ⟨rfl, rfl, dirty, hheld⟩ held
  refine Prog.Total.op ⟨rfl, rfl, dirty, hheld⟩ (if_neg (held ▸ not_mem_nil)) ?_
  change (f (s.store b)).Total _ _ _ _ _
  rw [shape]
  have locked : ∀ c ∈ b :: s.held, B c := forall_mem_cons.mpr ⟨hb, hheld⟩
  have unlocked : (b :: s.held).erase b = s.held := erase_cons_head _ _
  refine Prog.Total.op ⟨rfl, rfl, dirty, locked⟩ (if_pos mem_cons_self) ?_
  refine rest _ _ _ ⟨rfl, rfl, fun c hc => dirty (mem_of_mem_filter hc), ?_⟩
    (unlocked.trans held)
  simp only [unlocked]
  exact hheld

theorem Looks.does {x : FsProg β} (hx : Looks A B x σ Q) (hA : ∀ e, A e → Benign e)
    (hB : ∀ b, B b → L.Home b) : Does L x σ [] fun b σ' K' => K' = [] ∧ σ' = σ ∧ Q b := by
  rintro s ⟨store, held, home⟩
  have start : Reading B σ s.logged s.dirty s :=
    ⟨store, rfl, fun _ h => h, held ▸ fun _ h => absurd h not_mem_nil⟩
  have total := hx s s.logged s.dirty start held
  have homeOnly : ∀ s', Reading B σ s.logged s.dirty s' → HomeOnly L s' :=
    fun s' hs' => ⟨hs'.logged ▸ home.1, fun b hb => hB b (hs'.held b hb)⟩
  refine (total.weaken hA homeOnly).mono ?_
  rintro b s' ⟨hs', held', h⟩
  exact ⟨σ, [], ⟨hs'.store, held', homeOnly s' hs'⟩, rfl, rfl, h⟩

end Rules

/-! ## Contents -/

/-- Position `p` of a file is in a block that exists, and the blocks read on the way are in `B`. -/
structure Readable (B : ℕ → Prop) (σ : Store) (ip : Inode) (p : ℕ) : Prop where
  inside : p / BSIZE < MAXFILE
  mapped : slot σ ip (dataSlot (p / BSIZE)) ≠ 0
  data : B (slot σ ip (dataSlot (p / BSIZE)))
  indirect : NDIRECT ≤ p / BSIZE → B (ip.addr NDIRECT)

section

variable {B : ℕ → Prop} {ip : Inode}

theorem addr_ne_of_slot {bn : ℕ} (mapped : slot σ ip (dataSlot bn) ≠ 0) (far : NDIRECT ≤ bn) :
    ip.addr NDIRECT ≠ 0 := by
  intro zero
  refine mapped (slot_entry_zero ?_ zero)
  rw [dataSlot, if_neg (not_lt.mpr far)]
  omega

theorem looks_bmap_slot {bn : ℕ} (hbn : bn < MAXFILE) (mapped : slot σ ip (dataSlot bn) ≠ 0)
    (indirect : NDIRECT ≤ bn → B (ip.addr NDIRECT)) :
    Looks NoPanic B (bmap L ip bn) σ fun r => r = (slot σ ip (dataSlot bn), ip) := by
  have addr : ∀ k, ip.addr k ≠ 0 → bmapAddr L ip k = pure (ip.addr k, ip) :=
    fun k nonzero => if_neg nonzero
  unfold bmap
  unfold dataSlot at mapped ⊢
  split_ifs at mapped ⊢ with direct entry
  · rw [slot_addr (le_of_lt direct)] at mapped ⊢
    rw [addr bn mapped]
    exact looks_ret rfl
  · have nonzero : ip.addr NDIRECT ≠ 0 := fun zero => mapped (slot_entry_zero (by omega) zero)
    have locked := indirect (Nat.le_of_not_lt direct)
    obtain ⟨j, rfl⟩ := Nat.exists_eq_add_of_le (Nat.le_of_not_lt direct)
    rw [add_right_comm, slot_entry nonzero] at mapped ⊢
    rw [addr NDIRECT nonzero, pure_bind]
    dsimp only
    rw [if_neg nonzero, Nat.add_sub_cancel_left]
    refine Looks.bind ?_
    unfold bmapEntry
    refine looks_bread locked ?_ (looks_ret (looks_ret rfl))
    rw [if_neg fun zero => mapped (by rw [zero]; rfl)]
    rfl
  · refine absurd ?_ entry
    simp only [MAXFILE, NDIRECT, NINDIRECT, BSIZE] at hbn direct ⊢
    omega

theorem fileByte_block {off m : ℕ} (fits : off % BSIZE + m ≤ BSIZE) :
    ((List.range m).map fun i => (σ (slot σ ip (dataSlot (off / BSIZE)))).byte (off % BSIZE + i)) =
      (List.range m).map fun i => fileByte σ ip (off + i) := by
  refine map_congr_left fun i hi => ?_
  have hi := mem_range.mp hi
  have block : (off + i) / BSIZE = off / BSIZE := by
    simp only [BSIZE] at fits ⊢
    omega
  have place : (off + i) % BSIZE = off % BSIZE + i := by
    simp only [BSIZE] at fits ⊢
    omega
  rw [fileByte, block, place]

theorem looks_readiFrom_bytes (dst : ℕ → Bool) (k : ℕ) {off left : ℕ} {data : List Byte}
    (readable : ∀ p, off ≤ p → p < off + left → Readable B σ ip p) (fuel : left ≤ k) :
    Looks NoPanic B (readiFrom L dst k ip off left data) σ fun r => r.2 = ip ∧
      ((∀ i, dst i = true) →
        r.1 = some (data ++ (List.range left).map fun i => fileByte σ ip (off + i))) := by
  induction k generalizing off left data with
  | zero =>
    obtain rfl := Nat.le_zero.mp fuel
    exact looks_ret ⟨rfl, fun _ => by rw [range_zero, map_nil, append_nil]⟩
  | succ k ih =>
    unfold readiFrom
    split_ifs with finished
    · subst finished
      exact looks_ret ⟨rfl, fun _ => by rw [range_zero, map_nil, append_nil]⟩
    have here := readable off (le_refl _) (by omega)
    refine Looks.bind ((looks_bmap_slot here.inside here.mapped here.indirect).mono ?_)
    rintro r rfl
    dsimp only
    rw [if_neg here.mapped]
    refine looks_bread here.data rfl ?_
    have within : off % BSIZE < BSIZE := Nat.mod_lt _ (by decide)
    obtain ⟨m, hm⟩ : ∃ m, m = min left (BSIZE - off % BSIZE) := ⟨_, rfl⟩
    rw [← hm]
    split_ifs with writable
    · refine (ih (fun p lower upper => readable p (by omega) (by omega)) (by omega)).mono ?_
      rintro r ⟨same, all⟩
      refine ⟨same, fun ok => ?_⟩
      obtain ⟨rest, rfl⟩ : ∃ rest, left = m + rest := ⟨left - m, by omega⟩
      rw [all ok, fileByte_block (by omega), Nat.add_sub_cancel_left, range_add,
        map_append, map_map, append_assoc]
      simp only [Function.comp_def, add_assoc]
    · refine looks_ret ⟨rfl, fun ok => absurd ?_ writable⟩
      exact all_eq_true.mpr fun i _ => ok _

theorem readi_wraps (dst : ℕ → Bool) {off len : BitVec 32} (wraps : 2 ^ 32 ≤ off.toNat + len.toNat) :
    readi L ip dst off len = pure (some [], ip) :=
  if_pos (.inr ((add_lt_iff_wraps off len).mpr wraps))

/-- `readi` of a part of a file without holes only reads, and it returns all the bytes there are. -/
theorem looks_readi_bytes (dst : ℕ → Bool) (off len : BitVec 32)
    (readable : ∀ p, off.toNat ≤ p → p < off.toNat + len.toNat → p < ip.size.toNat →
      Readable B σ ip p) :
    Looks NoPanic B (readi L ip dst off len) σ fun r => r.2 = ip ∧
      ((∀ i, dst i = true) → off.toNat + len.toNat < 2 ^ 32 →
        r.1 = some ((List.range (min len.toNat (ip.size.toNat - off.toNat))).map fun i =>
          fileByte σ ip (off.toNat + i))) := by
  unfold readi
  by_cases bad : ip.size < off ∨ off + len < off
  · rw [if_pos bad]
    refine looks_ret ⟨rfl, fun _ small => ?_⟩
    have past : ip.size.toNat < off.toNat := by
      rcases bad with past | wraps
      · exact past
      · rw [BitVec.lt_def, BitVec.toNat_add] at wraps
        omega
    rw [Nat.sub_eq_zero_of_le (le_of_lt past), Nat.min_zero]
    rfl
  obtain ⟨start, wraps⟩ := not_or.mp bad
  simp only [BitVec.not_lt, BitVec.le_def, BitVec.toNat_add] at start wraps
  have count : (if ip.size < off + len then ip.size - off else len).toNat =
      min len.toNat (ip.size.toNat - off.toNat) := by
    simp only [BitVec.lt_def, BitVec.toNat_add]
    split_ifs with short
    · rw [BitVec.toNat_sub_of_le start]
      omega
    · omega
  rw [if_neg bad]
  refine (looks_readiFrom_bytes dst _ (fun p lower upper => readable p lower ?_ ?_)
    (le_refl _)).mono ?_
  · rw [count] at upper
    omega
  · rw [count] at upper
    omega
  rintro r ⟨same, all⟩
  refine ⟨same, fun ok _ => ?_⟩
  rw [all ok, count, nil_append]

end

section

variable {n : ℕ}

theorem FsInv.readable {F : ℕ → Prop} (h : FsInv F L σ (inodes L σ) [] n) (hn : n < L.ninodes)
    (full : F n) (type : (inodes L σ n).type ≠ 0) {p : ℕ} (hp : p < (inodes L σ n).size.toNat) :
    Readable L.Data σ (inodes L σ n) p := by
  obtain ⟨inside, mapped⟩ := (h.mapped n hn full type).stored hp
  refine ⟨inside, mapped, ?_, fun far => ?_⟩
  · exact h.alloc.inside _ _ (refs_of_slot hn type (dataSlot_lt inside) mapped)
  · exact h.alloc.inside _ _ (refs_indirect hn type (addr_ne_of_slot mapped far))

theorem looks_bmap (h : WellFormed L σ) (hn : n < L.ninodes) (type : (inodes L σ n).type ≠ 0)
    {bn : ℕ} (hbn : bn < MAXFILE) (mapped : slot σ (inodes L σ n) (dataSlot bn) ≠ 0) :
    Looks NoPanic L.Data (bmap L (inodes L σ n) bn) σ fun r =>
      r = (slot σ (inodes L σ n) (dataSlot bn), inodes L σ n) := by
  refine looks_bmap_slot hbn mapped fun far => ?_
  exact (h n).alloc.inside _ _ (refs_indirect hn type (addr_ne_of_slot mapped far))

theorem looks_readi (h : WellFormed L σ) (hn : n < L.ninodes)
    (type : (inodes L σ n).type ≠ 0) (dst : ℕ → Bool) (off len : BitVec 32) :
    Looks NoPanic L.Data (readi L (inodes L σ n) dst off len) σ fun r => r.2 = inodes L σ n ∧
      ((∀ i, dst i = true) → off.toNat + len.toNat < 2 ^ 32 → ∃ bytes, r.1 = some bytes ∧
        bytes.length = min len.toNat ((inodes L σ n).size.toNat - off.toNat)) := by
  refine (looks_readi_bytes dst off len fun p _ _ below =>
    (h n).readable hn trivial type below).mono ?_
  rintro r ⟨same, all⟩
  refine ⟨same, fun ok small => ⟨_, all ok small, ?_⟩⟩
  rw [length_map, length_range]

theorem looks_ilock (hn : n < L.ninodes) (cached : Option Inode)
    (hc : ∀ ip, cached = some ip → ip = inodes L σ n ∧ ip.type ≠ 0) :
    Looks Benign L.Home (ilock L cached n) σ fun ip => ip = inodes L σ n ∧ ip.type ≠ 0 := by
  cases cached with
  | some ip => exact looks_ret (hc ip rfl)
  | none =>
    refine looks_bread (L.home_iblock hn) rfl ?_
    split_ifs with type
    · exact looks_panic (by decide)
    · exact looks_ret ⟨rfl, type⟩

theorem does_readi (h : WellFormed L σ) (hn : n < L.ninodes) (type : (inodes L σ n).type ≠ 0)
    (dst : ℕ → Bool) (off len : BitVec 32) :
    Does L (readi L (inodes L σ n) dst off len) σ [] fun r σ' K' =>
      K' = [] ∧ σ' = σ ∧ r.2 = inodes L σ n :=
  ((looks_readi h hn type dst off len).mono fun _ post => post.1).does (fun _ h => h.elim)
    fun _ hb => hb.home

end

end Xv6.Fs
