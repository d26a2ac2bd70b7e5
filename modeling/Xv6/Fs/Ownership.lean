import Xv6.Fs.Directory

/-!
# Runs of the file system

The calls of the file system, one after the other on one image.  No block is leaked or shared, no
file has holes, and reading a file never allocates.
-/

namespace Xv6.Fs

open Function List Does Layout Inode FsState

variable {L : Layout} {s : FsSys} {σ : Store}

/-! ## Calls -/

/-- The block store and the valid inodes of the inode table. -/
structure FsSys where
  store : Store
  icache : ℕ → Option Inode

/-- The calls on inodes.  `iput` is the call that drops the last reference. -/
inductive FsCall where
  | create (dir : ℕ) (name : Name) (type major minor : BitVec 16)
  | dirlink (dir : ℕ) (name : Name) (inum : ℕ)
  | writei (inum : ℕ) (src : ℕ → Option Byte) (off n : BitVec 32)
  | readi (inum : ℕ) (dst : ℕ → Bool) (off n : BitVec 32)
  | setNlink (inum : ℕ) (nlink : BitVec 16)
  | itrunc (inum : ℕ)
  | iput (inum : ℕ)

namespace FsCall

/-- The inode that a call works on. -/
def inum : FsCall → ℕ
  | create dir .. => dir
  | dirlink dir .. => dir
  | writei inum .. => inum
  | readi inum .. => inum
  | setNlink inum _ => inum
  | itrunc inum => inum
  | iput inum => inum

/-- The program of a call.  It returns the entries of the inode table that it changes. -/
def prog (L : Layout) (icache : ℕ → Option Inode) : FsCall → FsProg (List (ℕ × Option Inode))
  | create dir name type major minor => do
      let dp ← ilock L (icache dir) dir
      let (new, dp) ← Fs.create L dp name type major minor
      pure ((dir, some dp) :: new.toList.map fun ip => (ip.inum, some ip))
  | dirlink dir name inum => do
      let dp ← ilock L (icache dir) dir
      let (_, dp) ← Fs.dirlink L dp name inum
      pure [(dir, some dp)]
  | writei inum src off n => do
      let ip ← ilock L (icache inum) inum
      let (_, ip) ← Fs.writei L ip src off n
      pure [(inum, some ip)]
  | readi inum dst off n => do
      let ip ← ilock L (icache inum) inum
      let (_, ip) ← Fs.readi L ip dst off n
      pure [(inum, some ip)]
  | setNlink inum nlink => do
      let ip ← ilock L (icache inum) inum
      iupdate L { ip with nlink := nlink }
      pure [(inum, some { ip with nlink := nlink })]
  | itrunc inum => do
      let ip ← ilock L (icache inum) inum
      let ip ← Fs.itrunc L ip
      pure [(inum, some ip)]
  | iput inum =>
      match icache inum with
      | some ip =>
          if ip.nlink = 0 then do
            ifree L ip
            pure [(inum, none)]
          else pure [(inum, none)]
      | none => pure [(inum, none)]

end FsCall

def withEntries (icache : ℕ → Option Inode) (entries : List (ℕ × Option Inode)) : ℕ → Option Inode :=
  entries.foldl (fun c e => update c e.1 e.2) icache

/-- The image, with no buffer held. -/
def FsState.start (σ : Store) : FsState := ⟨σ, [], [], [], []⟩

namespace FsSys

/-- A call runs to its end on the image. -/
def call (L : Layout) (c : FsCall) (s : FsSys) : Except (Halt Panic) FsSys :=
  match (c.prog L s.icache).run exec (.start s.store) with
  | (.ok entries, t) => .ok ⟨t.store, withEntries s.icache entries⟩
  | (.error e, _) => .error e

/-- The states that calls on inodes of the file system reach. -/
inductive Reachable (L : Layout) (σ : Store) : FsSys → Prop where
  | boot : Reachable L σ ⟨σ, fun _ => none⟩
  | call {s s' : FsSys} (c : FsCall) (before : Reachable L σ s) (inode : c.inum < L.ninodes)
      (returns : s.call L c = .ok s') : Reachable L σ s'

/-- The entries of the inode table are allocated inodes and equal to their copies on disk. -/
def CacheOk (L : Layout) (σ : Store) (icache : ℕ → Option Inode) : Prop :=
  ∀ i ip, icache i = some ip → i < L.ninodes ∧ ip = inodes L σ i ∧ ip.type ≠ 0

/-- The image is well formed and the inode table agrees with it. -/
structure Inv (L : Layout) (s : FsSys) : Prop where
  image : WellFormed L s.store
  cache : CacheOk L s.store s.icache

theorem CacheOk.wrote {σ σ' : Store} {icache : ℕ → Option Inode} {n : ℕ} {ip : Inode}
    (h : CacheOk L σ icache) (wrote : Wrote L σ n σ' ip) (entry : Option Inode)
    (hn : n < L.ninodes) (cached : ∀ ip', entry = some ip' → ip' = ip ∧ ip.type ≠ 0) :
    CacheOk L σ' (withEntries icache [(n, entry)]) := by
  intro i ip' hi
  change update icache n entry i = some ip' at hi
  by_cases hin : i = n
  · subst hin
    rw [update_self] at hi
    obtain ⟨rfl, type⟩ := cached ip' hi
    exact ⟨hn, wrote.disk.symm, type⟩
  · rw [update_of_ne hin] at hi
    obtain ⟨bound, rfl, type⟩ := h i ip' hi
    exact ⟨bound, (wrote.others i bound hin).symm, type⟩

theorem CacheOk.created {σ σ' : Store} {icache : ℕ → Option Inode} {m : ℕ} {new : Option Inode}
    {dp : Inode} (h : CacheOk L σ icache) (created : Created L σ m σ' new dp) (hm : m < L.ninodes)
    (type : (inodes L σ m).type ≠ 0) :
    CacheOk L σ' (withEntries icache ((m, some dp) :: new.toList.map fun ip => (ip.inum, some ip))) := by
  have directory : CacheOk L σ' (update icache m (some dp)) := by
    intro i ip hi
    by_cases him : i = m
    · subst him
      rw [update_self] at hi
      obtain rfl := Option.some.inj hi
      exact ⟨hm, created.directory.symm, created.directoryType ▸ type⟩
    · rw [update_of_ne him] at hi
      obtain ⟨bound, rfl, typed⟩ := h i ip hi
      exact ⟨bound, (created.others i bound him typed).symm, typed⟩
  cases new with
  | none => exact directory
  | some ip =>
    obtain ⟨bound, -, disk, typed⟩ := created.inode ip rfl
    intro i ip' hi
    change update (update icache m (some dp)) ip.inum (some ip) i = some ip' at hi
    by_cases hin : i = ip.inum
    · subst hin
      rw [update_self] at hi
      obtain rfl := Option.some.inj hi
      exact ⟨bound, disk.symm, typed⟩
    · rw [update_of_ne hin] at hi
      exact directory i ip' hi

theorem Inv.does (inv : Inv L s) (c : FsCall) (inode : c.inum < L.ninodes) :
    Does L (c.prog L s.icache) s.store [] fun entries σ' K' =>
      K' = [] ∧ Inv L ⟨σ', withEntries s.icache entries⟩ := by
  obtain ⟨image, cache⟩ := inv
  have locks : ∀ n, ∀ ip, s.icache n = some ip → ip = inodes L s.store n ∧ ip.type ≠ 0 :=
    fun n ip hip => (cache n ip hip).2
  have keeps : ∀ {n : ℕ} {σ' : Store} {ip : Inode}, n < L.ninodes → Wrote L s.store n σ' ip →
      ip.type ≠ 0 → Inv L ⟨σ', withEntries s.icache [(n, some ip)]⟩ :=
    fun hn wrote type => ⟨wrote.wellFormed, cache.wrote wrote _ hn fun ip' hip' =>
      ⟨(Option.some.inj hip').symm, type⟩⟩
  have drops : ∀ {n : ℕ} {σ' : Store} {ip : Inode}, n < L.ninodes → Wrote L s.store n σ' ip →
      Inv L ⟨σ', withEntries s.icache [(n, none)]⟩ :=
    fun hn wrote => ⟨wrote.wellFormed, cache.wrote wrote none hn fun _ => nofun⟩
  cases c with
  | create dir name type major minor =>
    refine bind (does_ilock inode _ (locks dir) fun typed => ?_)
    refine bind ((does_create image inode typed name type major minor).mono ?_)
    rintro ⟨new, dp⟩ σ' K' ⟨rfl, created⟩
    exact does_ret ⟨rfl, created.wellFormed, cache.created created inode typed⟩
  | dirlink dir name inum =>
    refine bind (does_ilock inode _ (locks dir) fun typed => ?_)
    refine bind ((does_dirlink image inode typed name inum).mono ?_)
    rintro ⟨_, dp⟩ σ' K' ⟨rfl, wrote, same⟩
    exact does_ret ⟨rfl, keeps inode wrote (same ▸ typed)⟩
  | writei inum src off n =>
    refine bind (does_ilock inode _ (locks inum) fun typed => ?_)
    refine bind ((does_writei image inode typed src off n).mono ?_)
    rintro ⟨_, ip⟩ σ' K' ⟨rfl, wrote, same⟩
    exact does_ret ⟨rfl, keeps inode wrote (same ▸ typed)⟩
  | readi inum dst off n =>
    refine bind (does_ilock inode _ (locks inum) fun typed => ?_)
    refine bind ((does_readi image inode typed dst off n).mono ?_)
    rintro ⟨_, ip⟩ σ' K' ⟨rfl, rfl, rfl⟩
    exact does_ret ⟨rfl, keeps inode (Wrote.refl image inum) typed⟩
  | setNlink inum nlink =>
    refine bind (does_ilock inode _ (locks inum) fun typed => ?_)
    refine bind ((does_setFields image inode
      { inodes L s.store inum with nlink := nlink } rfl rfl (fun _ => rfl)
      ((image inum).mapped inum inode trivial typed)).mono ?_)
    rintro _ σ' K' ⟨rfl, wrote⟩
    exact does_ret ⟨rfl, keeps inode wrote typed⟩
  | itrunc inum =>
    refine bind (does_ilock inode _ (locks inum) fun typed => ?_)
    refine bind ((does_itrunc image inode typed).mono ?_)
    rintro ip σ' K' ⟨rfl, rfl, wrote⟩
    exact does_ret ⟨rfl, keeps inode wrote typed⟩
  | iput inum =>
    have kept : Inv L ⟨s.store, withEntries s.icache [(inum, none)]⟩ :=
      drops inode (Wrote.refl image inum)
    simp only [FsCall.prog]
    cases hit : s.icache inum with
    | none => exact does_ret ⟨rfl, kept⟩
    | some ip =>
      obtain ⟨rfl, typed⟩ := locks inum ip hit
      dsimp only
      split_ifs with unlinked
      · refine bind ((does_ifree image inode typed).mono ?_)
        rintro _ σ' K' ⟨rfl, ip, -, wrote⟩
        exact does_ret ⟨rfl, drops inode wrote⟩
      · exact does_ret ⟨rfl, kept⟩

theorem Inv.call (inv : Inv L s) {c : FsCall} (inode : c.inum < L.ninodes) :
    (∃ s', s.call L c = .ok s' ∧ Inv L s') ∨ ∃ e, s.call L c = .error (.panic e) ∧ Benign e := by
  have total := inv.does c inode (.start s.store) ⟨rfl, rfl,
    fun _ h => absurd h not_mem_nil, fun _ h => absurd h not_mem_nil⟩
  unfold FsSys.call
  rcases total.run with ⟨entries, returns, σ', K', shows, -, kept⟩ | ⟨e, raises, benign⟩
  · refine .inl ⟨_, by rw [← Prod.eta ((c.prog L s.icache).run _ _), returns], ?_⟩
    rwa [shows.store]
  · exact .inr ⟨e, by rw [← Prod.eta ((c.prog L s.icache).run _ _), raises], benign⟩

theorem Reachable.inv (image : WellFormed L σ) (reach : Reachable L σ s) : Inv L s := by
  induction reach with
  | boot => exact ⟨image, fun _ _ => nofun⟩
  | call c before inode returns ih =>
    rcases ih.call inode with ⟨s'', returns', inv⟩ | ⟨e, raises, -⟩
    · rw [returns'] at returns
      exact Except.ok.inj returns ▸ inv
    · rw [raises] at returns
      cases returns

def calls (L : Layout) (cs : List FsCall) (s : FsSys) : Except (Halt Panic) FsSys :=
  cs.foldlM (fun s c => s.call L c) s

theorem Reachable.calls {s s' : FsSys} (before : Reachable L σ s) {cs : List FsCall}
    (inodes : ∀ c ∈ cs, c.inum < L.ninodes) (returns : s.calls L cs = .ok s') : Reachable L σ s' := by
  induction cs generalizing s with
  | nil => exact Except.ok.inj returns ▸ before
  | cons c cs ih =>
    obtain ⟨here, rest⟩ := forall_mem_cons.mp inodes
    rw [FsSys.calls, foldlM_cons] at returns
    cases hc : s.call L c with
    | error e =>
      rw [hc] at returns
      cases returns
    | ok s₁ =>
      rw [hc] at returns
      exact ih (.call c before here hc) rest returns

end FsSys

/-! ## Block ownership -/

/-- The block references of an image, its bitmap and its regions agree. -/
structure BlockOwnership (L : Layout) (σ : Store) : Prop where
  injective : ∀ i k i' k' b, refs L σ (inodes L σ) (i, k) = some b →
    refs L σ (inodes L σ) (i', k') = some b → i = i' ∧ k = k'
  range : ∀ i k b, refs L σ (inodes L σ) (i, k) = some b → L.nmeta ≤ b ∧ b < L.size
  bitmap : ∀ b < L.size, Used L σ b ↔ b < L.nmeta ∨ ∃ i k, refs L σ (inodes L σ) (i, k) = some b

/-- Every block below the end of every allocated inode is mapped. -/
def NoHoles (L : Layout) (σ : Store) : Prop :=
  ∀ i < L.ninodes, (inodes L σ i).type ≠ 0 → Mapped σ (inodes L σ i) (inodes L σ i).size.toNat

theorem BlockOwnership.inv {F : ℕ → Prop} (own : BlockOwnership L σ)
    (full : ∀ i < L.ninodes, F i → (inodes L σ i).type ≠ 0 →
      Mapped σ (inodes L σ i) (inodes L σ i).size.toNat) (n : ℕ) :
    FsInv F L σ (inodes L σ) [] n := by
  refine ⟨fun _ => rfl, fun _ _ _ => rfl, ?_, fun b low => ?_, full⟩
  · refine ⟨fun r b hb => own.range r.1 r.2 b hb,
      fun r r' b hb hb' => Prod.ext_iff.mpr (own.injective r.1 r.2 r'.1 r'.2 b hb hb'),
      fun b h => absurd h not_mem_nil, fun b h => absurd h not_mem_nil,
      nodup_nil, fun b hb => ?_⟩
    rw [own.bitmap b hb.2]
    simp [not_lt.mpr hb.1]
  · exact (own.bitmap b (lt_of_lt_of_le low L.nmeta_le)).mpr (.inl low)

theorem BlockOwnership.inv_of_mapped {n : ℕ} (own : BlockOwnership L σ)
    (mapped : Mapped σ (inodes L σ n) (inodes L σ n).size.toNat) (m : ℕ) :
    FsInv (· = n) L σ (inodes L σ) [] m := by
  refine own.inv ?_ m
  rintro i - rfl -
  exact mapped

theorem FsInv.ownership {F : ℕ → Prop} {n : ℕ} (h : FsInv F L σ (inodes L σ) [] n) :
    BlockOwnership L σ := by
  refine ⟨fun i k i' k' b hb hb' => Prod.ext_iff.mp (h.alloc.inj _ _ b hb hb'),
    fun i k b hb => h.alloc.inside _ b hb, fun b hb => ?_⟩
  by_cases low : b < L.nmeta
  · exact iff_of_true (h.boot b low) (.inl low)
  · rw [h.alloc.used_iff b ⟨Nat.le_of_not_lt low, hb⟩]
    simp [low]

theorem wellFormed_iff : WellFormed L σ ↔ BlockOwnership L σ ∧ NoHoles L σ :=
  ⟨fun h => ⟨(h 0).ownership, fun i hi => (h 0).mapped i hi trivial⟩,
    fun h => h.1.inv fun i hi _ => h.2 i hi⟩

/-- In every state that calls reach the references are injective and in range and the bitmap is exact,
and no call frees a free block. -/
theorem block_ownership (image : BlockOwnership L σ) (full : NoHoles L σ)
    (reach : FsSys.Reachable L σ s) :
    BlockOwnership L s.store ∧
      ∀ c : FsCall, c.inum < L.ninodes → s.call L c ≠ .error (.panic .freeingFreeBlock) := by
  have inv := reach.inv (wellFormed_iff.mpr ⟨image, full⟩)
  refine ⟨(wellFormed_iff.mp inv.image).1, fun c inode raises => ?_⟩
  rcases inv.call inode with ⟨s', returns, -⟩ | ⟨e, raises', benign⟩
  · rw [returns] at raises
    cases raises
  · rw [raises'] at raises
    cases raises
    exact absurd benign (by decide)

def rootInode : Inode := ⟨ROOTINO, T_DIR, 0, 0, 1, 0, 0⟩

/-- An image of the size that `mkfs` writes, with an empty root directory. -/
def emptyImage : Store := fun b =>
  if b = 32 then rootInode.encode fun _ => 0
  else if b = 45 then fun i => if i.val < 5 then 0xff#8 else if i.val = 5 then 0x3f#8 else 0
  else fun _ => 0

theorem emptyImage_inodes {i : ℕ} (hi : i < mkfs.ninodes) :
    inodes .mkfs emptyImage i = rootInode ∨
      inodes .mkfs emptyImage i = fresh i 0 := by
  have bounds := iblock_bounds hi
  have bitmap : mkfs.iblock i ≠ 45 := ne_of_lt bounds.2
  unfold inodes emptyImage
  split_ifs with first
  · by_cases root : i = ROOTINO
    · subst root
      exact .inl (rootInode.decode_encode _)
    · right
      rw [decode_encode_of_ne, decode_zero]
      change i / 16 + 32 = 32 at first
      change i % 16 ≠ 1
      change i ≠ 1 at root
      omega
  · exact .inr (decode_zero i)

theorem emptyImage_bitmap {b : ℕ} (hb : b < mkfs.size) :
    Used .mkfs emptyImage b ↔ b < mkfs.nmeta := by
  change b < 2000 at hb
  have place : mkfs.bblock b = 45 := by
    change b / 8192 + 45 = 45
    omega
  have index : b % BPB = b := Nat.mod_eq_of_lt (lt_trans hb (by decide))
  have full : ∀ j < 8, (0xff#8).getLsbD j = true := by decide
  have part : ∀ j < 8, (0x3f#8).getLsbD j = true ↔ j < 6 := by decide
  have low := Nat.mod_lt b (by decide : 0 < 8)
  change _ ↔ b < 46
  rw [Used, place, index]
  change (Bytes.byte (fun i : Fin BSIZE => if i.val < 5 then 0xff#8
    else if i.val = 5 then 0x3f#8 else 0) (b / 8)).getLsbD (b % 8) = true ↔ b < 46
  rw [Bytes.byte, dif_pos (by change b / 8 < 1024; omega)]
  dsimp only
  split_ifs with below last
  · rw [full _ low]
    exact iff_of_true rfl (by omega)
  · rw [part _ low]
    omega
  · simp
    omega

theorem emptyImage_refs (i k : ℕ) : refs .mkfs emptyImage (inodes .mkfs emptyImage) (i, k) = none := by
  refine if_neg fun valid => valid.2.2.2 ?_
  have addr : ∀ j, (inodes .mkfs emptyImage i).addr j = 0 := by
    intro j
    rcases emptyImage_inodes valid.1 with root | free
    · rw [root]
      exact addr_fresh ROOTINO T_DIR j
    · rw [free, addr_fresh]
  simp [slot, addr]

theorem emptyImage_ownership : BlockOwnership .mkfs emptyImage := by
  refine ⟨fun i k _ _ b hb => ?_, fun i k b hb => ?_, fun b hb => ?_⟩
  · rw [emptyImage_refs] at hb
    cases hb
  · rw [emptyImage_refs] at hb
    cases hb
  · rw [emptyImage_bitmap hb]
    simp [emptyImage_refs]

theorem emptyImage_noHoles : NoHoles .mkfs emptyImage := by
  intro i hi _ bn hbn
  rcases emptyImage_inodes hi with root | free
  · rw [root] at hbn
    exact absurd hbn (Nat.not_lt_zero _)
  · rw [free] at hbn
    exact absurd hbn (Nat.not_lt_zero _)

/-- Create a file, write to it until the source is no longer mapped, and truncate it. -/
def sampleCalls : List FsCall :=
  [.create ROOTINO (Name.ofChars [97]) T_FILE 0 0,
    .writei 2 (fun i => if i < 3 then some 7 else none) 0 5, .itrunc 2]

theorem sampleCalls_reachable : ∃ s, FsSys.calls .mkfs sampleCalls ⟨emptyImage, fun _ => none⟩ = .ok s ∧
    FsSys.Reachable .mkfs emptyImage s := by
  have returns : (FsSys.calls .mkfs sampleCalls ⟨emptyImage, fun _ => none⟩).isOk = true := by
    set_option maxRecDepth 10000 in decide
  cases h : FsSys.calls .mkfs sampleCalls ⟨emptyImage, fun _ => none⟩ with
  | error e =>
    rw [h] at returns
    cases returns
  | ok s => exact ⟨s, rfl, FsSys.Reachable.boot.calls (by decide) h⟩

theorem block_ownership_sampleCalls :
    ∃ s, FsSys.calls .mkfs sampleCalls ⟨emptyImage, fun _ => none⟩ = .ok s ∧
      BlockOwnership .mkfs s.store := by
  obtain ⟨s, returns, reach⟩ := sampleCalls_reachable
  exact ⟨s, returns, (block_ownership emptyImage_ownership emptyImage_noHoles reach).1⟩

/-! ## Holes -/

/-- Run on the store `σ`, the program returns with `Q`; it never calls `log_write`, changes the store or
holds a block of the bitmap. -/
structure ReadsOnly {α : Type} (L : Layout) (σ : Store) (x : FsProg α) (Q : α → Prop) : Prop where
  returns : ∃ a, (x.run exec (.start σ)).1 = .ok a ∧ Q a
  logged : ∀ k, (x.stop exec k (.start σ)).logged = []
  store : ∀ k, (x.stop exec k (.start σ)).store = σ
  held : ∀ k, ∀ b ∈ (x.stop exec k (.start σ)).held, L.Data b

theorem Looks.readsOnly {α : Type} {x : FsProg α} {Q : α → Prop}
    (h : Looks NoPanic L.Data x σ Q) : ReadsOnly L σ x Q := by
  have total := h (.start σ) [] [] ⟨rfl, rfl, fun _ h => h, fun _ h => absurd h not_mem_nil⟩ rfl
  refine ⟨?_, fun k => (total.stop k).logged, fun k => (total.stop k).store,
    fun k => (total.stop k).held⟩
  rcases total.run with ⟨a, returns, -, -, post⟩ | ⟨e, -, impossible⟩
  · exact ⟨a, returns, post⟩
  · exact impossible.elim

/-- In every state that calls reach no file has holes; so `bmap` below the end of a file does not call
`balloc`, and `readi` does not call `log_write`. -/
theorem no_holes (image : BlockOwnership L σ) (full : NoHoles L σ) (reach : FsSys.Reachable L σ s) :
    NoHoles L s.store ∧ ∀ n < L.ninodes, (inodes L s.store n).type ≠ 0 →
      (∀ bn, bn * BSIZE < (inodes L s.store n).size.toNat →
        ReadsOnly L s.store (bmap L (inodes L s.store n) bn) fun r =>
          r.1 ≠ 0 ∧ r.2 = inodes L s.store n) ∧
      ∀ dst off len, ReadsOnly L s.store (readi L (inodes L s.store n) dst off len) fun r =>
        r.2 = inodes L s.store n := by
  have inv := reach.inv (wellFormed_iff.mpr ⟨image, full⟩)
  have mapped := (wellFormed_iff.mp inv.image).2
  refine ⟨mapped, fun n hn type => ⟨fun bn hbn => ?_, fun dst off len => ?_⟩⟩
  · obtain ⟨inside, nonzero⟩ := mapped n hn type bn hbn
    refine ((looks_bmap inv.image hn type inside nonzero).mono ?_).readsOnly
    rintro r rfl
    exact ⟨nonzero, rfl⟩
  · exact ((looks_readi inv.image hn type dst off len).mono fun r post => post.1).readsOnly

theorem no_holes_sampleCalls :
    ∃ s, FsSys.calls .mkfs sampleCalls ⟨emptyImage, fun _ => none⟩ = .ok s ∧
      NoHoles .mkfs s.store := by
  obtain ⟨s, returns, reach⟩ := sampleCalls_reachable
  exact ⟨s, returns, (no_holes emptyImage_ownership emptyImage_noHoles reach).1⟩

def bigInode : Inode := ⟨1, T_FILE, 0, 0, 1, 13312, fun j => if j.val = NDIRECT then 47 else 46⟩

def smallInode : Inode := ⟨2, T_FILE, 0, 0, 1, 0, 0⟩

/-- An image without holes whose bitmap says that block 47, the indirect block of a file, is free. -/
def holeImage : Store := fun b =>
  if b = 32 then smallInode.encode (bigInode.encode fun _ => 0)
  else if b = 45 then fun i => if i.val < 5 then 0xff#8 else if i.val = 5 then 0x7f#8 else 0
  else if b = 47 then Bytes.setWord (fun _ => 0) 0 4 46
  else fun _ => 0

theorem holeImage_noHoles : NoHoles .mkfs holeImage := by
  intro i hi type
  have bounds := iblock_bounds hi
  have bitmap : mkfs.iblock i ≠ 45 := ne_of_lt bounds.2
  have data : mkfs.iblock i ≠ 47 := ne_of_lt (lt_of_lt_of_le bounds.2 (by decide))
  have disk : inodes .mkfs holeImage i = bigInode ∨ inodes .mkfs holeImage i = smallInode ∨
      inodes .mkfs holeImage i = fresh i 0 := by
    unfold inodes
    rw [holeImage, if_neg bitmap, if_neg data]
    split_ifs with first
    · change i / 16 + 32 = 32 at first
      by_cases two : i = 2
      · subst two
        exact .inr (.inl (smallInode.decode_encode _))
      rw [smallInode.decode_encode_of_ne _ (show i % 16 ≠ 2 by omega)]
      by_cases one : i = 1
      · subst one
        exact .inl (bigInode.decode_encode _)
      rw [bigInode.decode_encode_of_ne _ (show i % 16 ≠ 1 by omega)]
      exact .inr (.inr (decode_zero i))
    · exact .inr (.inr (decode_zero i))
  rcases disk with big | small | free
  · rw [big]
    have blocks : ∀ bn < 13, bn < MAXFILE ∧ slot holeImage bigInode (dataSlot bn) ≠ 0 := by
      set_option maxRecDepth 10000 in decide
    intro bn hbn
    change bn * 1024 < 13312 at hbn
    exact blocks bn (by omega)
  · rw [small]
    exact fun bn hbn => absurd hbn (Nat.not_lt_zero _)
  · rw [free] at type
    exact absurd rfl type

/-- From an image whose bitmap is wrong, a `writei` of a zero byte to one file makes a hole in another
file, and a read of that file then calls `log_write`. -/
theorem hole_from_wrong_bitmap : NoHoles .mkfs holeImage ∧
    ∃ s, FsSys.Reachable .mkfs holeImage s ∧ ¬ NoHoles .mkfs s.store ∧
      ((readi .mkfs (inodes .mkfs s.store 1) (fun _ => true) 12288 1).run exec
        (.start s.store)).2.logged ≠ [] := by
  refine ⟨holeImage_noHoles, ?_⟩
  have facts : (match FsSys.call .mkfs (.writei 2 (fun _ => some 0) 0 1) ⟨holeImage, fun _ => none⟩ with
      | .ok s => decide ((inodes .mkfs s.store 1).type ≠ 0 ∧
          12 * BSIZE < (inodes .mkfs s.store 1).size.toNat ∧
          slot s.store (inodes .mkfs s.store 1) (dataSlot 12) = 0 ∧
          ((readi .mkfs (inodes .mkfs s.store 1) (fun _ => true) 12288 1).run exec
            (.start s.store)).2.logged ≠ [])
      | .error _ => false) = true := by
    set_option maxRecDepth 10000 in decide
  split at facts
  case h_1 s returns =>
    obtain ⟨type, size, hole, logged⟩ := of_decide_eq_true facts
    exact ⟨s, .call _ .boot (by decide) returns,
      fun full => (full 1 (by decide) type 12 size).2 hole, logged⟩
  case h_2 => cases facts

end Xv6.Fs
