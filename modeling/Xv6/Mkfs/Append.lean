import Xv6.Mkfs.Image

/-!
# Appending to files

The rules for the operations of `mkfs` and for `iappend`: it appends its bytes to the file, or the
files do not fit on the disk.
-/

namespace Xv6.Mkfs

open Function List Image Fs


/-- From the state `s` the program returns with `Q`, or it fails and `F` holds. -/
def Makes {α : Type} (F : Prop) (x : MkProg α) (s : Image) (Q : α → Image → Prop) : Prop :=
  x.Total exec (fun _ => F) (fun _ => True) s Q

section Rules

variable {α β : Type} {F : Prop} {s : Image} {Q : β → Image → Prop} {sec : ℕ}

theorem makes_ret {b : β} (h : Q b s) : Makes F (.ret b) s Q := ⟨trivial, h⟩

theorem Makes.bind {x : MkProg α} {f : α → MkProg β}
    (hx : Makes F x s fun a s' => Makes F (f a) s' Q) : Makes F (x >>= f) s Q :=
  Prog.Total.bind hx

theorem Makes.mono {x : MkProg β} {Q' : β → Image → Prop} (hx : Makes F x s Q)
    (hQ : ∀ b s', Q b s' → Q' b s') : Makes F x s Q' :=
  Prog.Total.mono hx hQ

theorem sector_eq (small : sec < 2 ^ 22) : sector sec = sec := by
  simp only [sector, BSIZE]
  omega

theorem makes_rsect {f : Block → MkProg β} (length : s.length = FSSIZE) (inside : sec < FSSIZE)
    (rest : Makes F (f (s.sects sec)) s Q) : Makes F (rsect sec >>= f) s Q := by
  have place := sector_eq (lt_trans inside (by decide : FSSIZE < 2 ^ 22))
  refine Prog.Total.op trivial ?_ rest
  simp only [exec, place, length, if_pos inside]

theorem makes_rsect_over {f : Block → MkProg β} (length : s.length = FSSIZE)
    (beyond : FSSIZE ≤ sec) (small : sec < 2 ^ 22) (fails : F) : Makes F (rsect sec >>= f) s Q := by
  refine Prog.Total.panic (e := .read) trivial ?_ fails
  simp only [exec, sector_eq small, length, if_neg (not_lt.mpr beyond)]

def Image.write (s : Image) (sec : ℕ) (d : Block) : Image :=
  { s with sects := update s.sects sec d }

theorem makes_wsect {f : Unit → MkProg β} {d : Block} (length : s.length = FSSIZE)
    (inside : sec < FSSIZE) (rest : Makes F (f ()) (s.write sec d) Q) :
    Makes F (wsect sec d >>= f) s Q := by
  have place := sector_eq (lt_trans inside (by decide : FSSIZE < 2 ^ 22))
  refine Prog.Total.op (t := s.write sec d) trivial ?_ rest
  simp only [exec, write, place, length, max_eq_left (Nat.succ_le_of_lt inside)]

theorem makes_wsect_end {d : Block} {Q : Unit → Image → Prop} (length : s.length = FSSIZE)
    (inside : sec < FSSIZE) (post : Q () (s.write sec d)) : Makes F (wsect sec d) s Q := by
  have ends : Makes F (wsect sec d >>= fun _ => pure ()) s Q :=
    makes_wsect length inside (makes_ret post)
  rwa [bind_pure] at ends

theorem makes_nextBlock {f : ℕ → MkProg β}
    (rest : Makes F (f s.freeblock) { s with freeblock := s.freeblock + 1 } Q) :
    Makes F (nextBlock >>= f) s Q :=
  Prog.Total.op trivial rfl rest

theorem makes_nextInode {f : ℕ → MkProg β}
    (rest : Makes F (f s.freeinode) { s with freeinode := s.freeinode + 1 } Q) :
    Makes F (nextInode >>= f) s Q :=
  Prog.Total.op trivial rfl rest

theorem makes_fail {e : Failure} (fails : F) : Makes F (fail e : MkProg β) s Q :=
  Prog.Total.panic trivial rfl fails

theorem makes_assert {p : Prop} [Decidable p] {e : Failure} {f : Unit → MkProg β}
    (fails : ¬ p → F) (rest : p → Makes F (f ()) s Q) : Makes F (assert p e >>= f) s Q := by
  unfold assert
  split_ifs with h
  · exact rest h
  · exact Prog.Total.panic trivial rfl (fails h)

end Rules

/-! ## The block of a file -/

/-- Neither the inode counter nor the metadata blocks have changed. -/
structure Keeps (s s' : Image) : Prop where
  freeinode : s'.freeinode = s.freeinode
  low : ∀ b < nmeta, s'.sects b = s.sects b

theorem Keeps.refl (s : Image) : Keeps s s := ⟨rfl, fun _ _ => rfl⟩

theorem Keeps.trans {s s' s'' : Image} (h : Keeps s s') (h' : Keeps s' s'') : Keeps s s'' :=
  ⟨h'.freeinode.trans h.freeinode, fun b hb => (h'.low b hb).trans (h.low b hb)⟩

theorem Keeps.write {s s' : Image} {b : ℕ} {d : Block} (hb : nmeta ≤ b)
    (freeinode : s'.freeinode = s.freeinode) (sects : s'.sects = update s.sects b d) : Keeps s s' := by
  refine ⟨freeinode, fun b' hb' => ?_⟩
  rw [sects, update_of_ne (ne_of_lt (lt_of_lt_of_le hb' hb))]

def SameHead (ip ip' : Inode) : Prop := ip' = { ip with addrs := ip'.addrs }

section Block

variable {β : Type} {F : Prop} {s : Image} {Q : β → Image → Prop}
variable {ino : ℕ → Inode} {nb : ℕ → ℕ} {c : ℕ → List Byte} {i : ℕ}

theorem isSome_update {ι γ : Type} [DecidableEq ι] {r : ι → Option γ} {a x : ι} {b : γ} :
    (update r a (some b) x).isSome ↔ (r x).isSome ∨ x = a := by
  by_cases h : x = a
  · simp [h]
  · simp [h]

theorem Draft.isSome (h : Draft s ino nb c) {bn : ℕ} (hbn : bn < MAXFILE) :
    (ref s.sects ino (i, dataSlot bn)).isSome ↔ bn < nb i :=
  (h.mapped i _ (dataSlot_lt hbn)).trans needed_dataSlot

theorem Draft.grow (h : Draft s ino nb c) (hi : i < inodeRoom) (more : nb i < MAXFILE)
    {s' : Image} {ino' : ℕ → Inode} (length : s'.length = FSSIZE)
    (filled : Filled s'.sects s'.freeblock ino' c)
    (grown : ∀ j k, (ref s'.sects ino' (j, k)).isSome ↔ (ref s.sects ino (j, k)).isSome ∨
      j = i ∧ (k = dataSlot (nb i) ∨ nb i = NDIRECT ∧ k = NDIRECT))
    (count : s'.freeblock + cost (nb i) = s.freeblock + cost (nb i + 1)) :
    Draft s' ino' (update nb i (nb i + 1)) c := by
  refine ⟨length, filled, fun j k hk => ?_, fun j hj => ?_, ?_, fun j => ?_⟩
  · rw [grown, h.mapped j k hk]
    by_cases hj : j = i
    · subst hj
      rw [update_self, needed_succ]
      simp only [true_and]
    · rw [update_of_ne hj]
      simp only [hj, false_and, or_false]
  · by_cases same : j = i
    · subst same
      rw [update_self]
      exact more
    · rw [update_of_ne same]
      exact h.small j hj
  · have sum := total_update nb hi (nb i + 1)
    have before := h.count
    omega
  · by_cases same : j = i
    · subst same
      rw [update_self]
      exact le_trans (h.held j) (Nat.mul_le_mul_right _ (Nat.le_succ _))
    · rw [update_of_ne same]
      exact h.held j

theorem Draft.not_fits (h : Draft s ino nb c) (hi : i < inodeRoom)
    (beyond : FSSIZE + cost (nb i) < s.freeblock + cost (nb i + 1)) :
    ¬ Fits (update nb i (nb i + 1)) := by
  intro fits
  have sum := total_update nb hi (nb i + 1)
  have room := fits.1
  have before := h.count
  omega

theorem cost_succ_of_ne {n : ℕ} (hn : n ≠ NDIRECT) : cost (n + 1) = cost n + 1 := by
  unfold cost
  split_ifs <;> omega

theorem makes_iappendEntry {f : ℕ → Block → MkProg β} {j : ℕ} (length : s.length = FSSIZE)
    (h : Filled s.sects s.freeblock ino c) (hj : j < NINDIRECT)
    (indirect : (ino i).addr NDIRECT ≠ 0) (empty : ref s.sects ino (i, NDIRECT + 1 + j) = none)
    (fresh : (c i).length ≤ (NDIRECT + j) * BSIZE) (bad : FSSIZE ≤ s.freeblock → F)
    (rest : ∀ s', Keeps s s' → s'.length = FSSIZE → s'.freeblock = s.freeblock + 1 →
      Filled s'.sects s'.freeblock ino c → ref s'.sects ino =
        update (ref s.sects ino) (i, NDIRECT + 1 + j) (some s.freeblock) →
      Makes F (f s.freeblock (s'.sects s.freeblock)) s' Q) :
    Makes F (iappendEntry ((ino i).addr NDIRECT) j >>= fun x => rsect x >>= f x) s Q := by
  have own := h.range (ref_indirect indirect)
  have room := h.room
  have inside : NDIRECT + 1 + j < NSLOT := Nat.add_lt_add_left hj _
  have zero : (s.sects ((ino i).addr NDIRECT)).word (4 * j) 4 = 0 := by
    have slot := (ref_eq_none inside).mp empty
    rw [slot_entry indirect] at slot
    exact BitVec.eq_of_toNat_eq slot
  have fits : 4 * j + 4 ≤ BSIZE := by
    simp only [NINDIRECT, BSIZE] at hj ⊢
    omega
  have entry : ((s.sects ((ino i).addr NDIRECT)).setWord (4 * j) 4
      (BitVec.ofNat 32 s.freeblock)).word (4 * j) 4 = BitVec.ofNat 32 s.freeblock :=
    Bytes.word_setWord _ _ fits
  have number : (BitVec.ofNat 32 s.freeblock).toNat = s.freeblock := by
    rw [BitVec.toNat_ofNat, Nat.mod_eq_of_lt h.free_fits]
  unfold iappendEntry
  rw [bind_assoc]
  refine makes_rsect length (lt_of_lt_of_le own.2 room) ?_
  rw [if_pos zero, bind_assoc]
  refine makes_nextBlock ?_
  rw [bind_assoc]
  refine makes_wsect length (lt_of_lt_of_le own.2 room) ?_
  rw [entry, number, pure_bind]
  by_cases more : s.freeblock < FSSIZE
  · exact makes_rsect length more (rest _ (Keeps.write own.1 rfl rfl) length rfl
      (h.linkEntry more hj indirect empty fresh)
      (ref_setEntry hj h.free_fits h.free_ne_zero indirect (h.indirect_ne indirect)))
  · have small : s.freeblock < 2 ^ 22 := lt_of_le_of_lt room (by decide)
    exact makes_rsect_over length (Nat.le_of_not_lt more) small (bad (Nat.le_of_not_lt more))

theorem makes_iappendBlock_old {f : ℕ × Inode → Block → MkProg β} {fbn : ℕ} (h : Draft s ino nb c)
    (hfbn : fbn < MAXFILE) (old : fbn < nb i)
    (rest : ∀ x, ref s.sects ino (i, dataSlot fbn) = some x → Makes F (f (x, ino i) (s.sects x)) s Q) :
    Makes F (iappendBlock (ino i) fbn >>= fun r => rsect r.1 >>= f r) s Q := by
  obtain ⟨x, hx⟩ := Option.isSome_iff_exists.mp ((h.isSome hfbn).mpr old)
  have bound : x < FSSIZE := lt_of_lt_of_le (h.filled.range hx).2 h.filled.room
  obtain ⟨-, place, nonzero⟩ := ref_eq_some.mp hx
  have next := makes_rsect h.length bound (rest x hx)
  unfold iappendBlock
  unfold dataSlot at place
  split_ifs at place ⊢ with direct
  · rw [slot_addr (le_of_lt direct)] at place
    unfold iappendAddr
    rw [if_neg (place ▸ nonzero), pure_bind, pure_bind, place]
    exact next
  · obtain ⟨j, rfl⟩ := Nat.exists_eq_add_of_le (Nat.le_of_not_lt direct)
    have indirect : (ino i).addr NDIRECT ≠ 0 :=
      fun zero => nonzero (place ▸ slot_entry_zero (by omega) zero)
    rw [add_right_comm, slot_entry indirect] at place
    have own := h.filled.range (ref_indirect (σ := s.sects) indirect)
    have word : (s.sects ((ino i).addr NDIRECT)).word (4 * j) 4 ≠ 0 :=
      fun zero => nonzero (by rw [← place, zero]; rfl)
    unfold iappendAddr iappendEntry
    rw [if_neg indirect, pure_bind, Nat.add_sub_cancel_left, bind_assoc, bind_assoc]
    refine makes_rsect h.length (lt_of_lt_of_le own.2 h.filled.room) ?_
    rw [if_neg word, pure_bind, pure_bind, place]
    exact next

theorem makes_iappendBlock_new {f : ℕ × Inode → Block → MkProg β}
    (h : Draft s ino nb c) (hi : i < inodeRoom) (more : nb i < MAXFILE)
    (bad : ¬ Fits (update nb i (nb i + 1)) → F)
    (rest : ∀ s' din x, Keeps s s' → SameHead (ino i) din →
      Draft s' (update ino i din) (update nb i (nb i + 1)) c →
      ref s'.sects (update ino i din) (i, dataSlot (nb i)) = some x →
      Makes F (f (x, din) (s'.sects x)) s' Q) :
    Makes F (iappendBlock (ino i) (nb i) >>= fun r => rsect r.1 >>= f r) s Q := by
  have filled := h.filled
  have small : s.freeblock < 2 ^ 22 := lt_of_le_of_lt filled.room (by decide)
  have held := h.held i
  have empty : ref s.sects ino (i, dataSlot (nb i)) = none :=
    Option.not_isSome_iff_eq_none.mp fun some => lt_irrefl _ ((h.isSome more).mp some)
  unfold iappendBlock
  rcases lt_trichotomy (nb i) NDIRECT with direct | first | later
  · -- a direct address
    have slot : dataSlot (nb i) = nb i := if_pos direct
    have cheap := cost_succ_of_ne (ne_of_lt direct)
    rw [slot] at empty
    have zero := (ref_eq_none (lt_trans direct (by decide))).mp empty
    rw [slot_addr (le_of_lt direct)] at zero
    have addr := (ino i).addr_setAddr (le_of_lt direct) filled.free_fits (nb i)
    rw [if_pos rfl] at addr
    rw [if_pos direct]
    unfold iappendAddr
    rw [if_pos zero, bind_assoc, bind_assoc]
    refine makes_nextBlock ?_
    rw [pure_bind, pure_bind, addr]
    by_cases room : s.freeblock < FSSIZE
    · have linked := ref_setAddr (le_of_lt direct) filled.free_fits filled.free_ne_zero empty
        (filled.zero _ (le_refl _))
      refine makes_rsect h.length room (rest _ _ _ ⟨rfl, fun _ _ => rfl⟩ rfl
        (h.grow hi more h.length (filled.linkAddr room (le_of_lt direct) empty
          fun bn place => ?_) (fun j k => ?_) ?_) ?_)
      · obtain rfl : bn = nb i := by
          unfold dataSlot at place
          split_ifs at place <;> omega
        exact held
      · rw [linked, isSome_update, Prod.mk.injEq, slot]
        simp only [ne_of_lt direct, false_and, or_false]
      · change s.freeblock + 1 + _ = _
        omega
      · rw [linked, slot, update_self]
    · exact makes_rsect_over h.length (Nat.le_of_not_lt room) small
        (bad (h.not_fits hi (by omega)))
  · -- the indirect block and its first entry
    have far : ¬ nb i < NDIRECT := not_lt.mpr (le_of_eq first.symm)
    have twice : cost (nb i + 1) = cost (nb i) + 2 := by rw [first]; rfl
    have slot : dataSlot (nb i) = NDIRECT + 1 + 0 := by rw [first]; rfl
    have bare : ref s.sects ino (i, NDIRECT) = none := by
      refine Option.not_isSome_iff_eq_none.mp fun some => ?_
      have needed := (h.mapped i NDIRECT (by decide)).mp some
      rw [Needed, if_pos (le_refl _), first] at needed
      exact lt_irrefl _ needed
    have zero := (ref_eq_none (by decide)).mp bare
    rw [slot_addr (le_refl _)] at zero
    have addr := (ino i).addr_setAddr (le_refl _) filled.free_fits NDIRECT
    rw [if_pos rfl] at addr
    rw [if_neg far]
    unfold iappendAddr
    rw [if_pos zero, bind_assoc, bind_assoc]
    refine makes_nextBlock ?_
    rw [pure_bind, addr, first, Nat.sub_self]
    simp only [bind_assoc, pure_bind]
    by_cases room : s.freeblock < FSSIZE
    · have linked := ref_setAddr (le_refl _) filled.free_fits filled.free_ne_zero bare
        (filled.zero _ (le_refl _))
      have filled' := filled.linkAddr room (le_refl _) bare
        fun bn place => absurd place (dataSlot_ne bn)
      have addr' : (update ino i ((ino i).setAddr NDIRECT s.freeblock) i).addr NDIRECT =
          s.freeblock := by
        rw [update_self]
        exact addr
      have step := makes_iappendEntry (F := F) (Q := Q) (i := i) (j := 0)
        (s := { s with freeblock := s.freeblock + 1 })
        (f := fun x => f (x, (ino i).setAddr NDIRECT s.freeblock)) h.length filled' (by decide)
        (addr'.symm ▸ filled.free_ne_zero) ?_ ?_ ?_ ?_
      · rwa [addr'] at step
      · rw [linked, update_of_ne (by simp), ← slot]
        exact empty
      · rw [first] at held
        exact held
      · intro beyond
        change FSSIZE ≤ s.freeblock + 1 at beyond
        exact bad (h.not_fits hi (by omega))
      · intro s' keeps length count grown linked'
        refine rest s' _ _ ⟨keeps.freeinode, keeps.low⟩ rfl
          (h.grow hi more length grown (fun j k => ?_) ?_) ?_
        · rw [linked', isSome_update, linked, isSome_update, Prod.mk.injEq, Prod.mk.injEq, slot]
          simp only [first, true_and, or_assoc]
          tauto
        · change s'.freeblock = s.freeblock + 1 + 1 at count
          omega
        · rw [linked', slot, update_self]
    · refine makes_rsect_over h.length (Nat.le_of_not_lt room) small (bad (h.not_fits hi ?_))
      omega
  · -- another entry of the indirect block
    have far : ¬ nb i < NDIRECT := not_lt.mpr (le_of_lt later)
    have cheap := cost_succ_of_ne (Nat.ne_of_gt later)
    have needed : (ref s.sects ino (i, NDIRECT)).isSome :=
      (h.mapped i NDIRECT (by decide)).mpr (by rw [Needed, if_pos (le_refl _)]; exact later)
    obtain ⟨b, hb⟩ := Option.isSome_iff_exists.mp needed
    obtain ⟨-, place, nonzero⟩ := ref_eq_some.mp hb
    rw [slot_addr (le_refl _)] at place
    have indirect : (ino i).addr NDIRECT ≠ 0 := place ▸ nonzero
    obtain ⟨j, hj⟩ := Nat.exists_eq_add_of_le (le_of_lt later)
    have slot : dataSlot (nb i) = NDIRECT + 1 + j := by
      rw [dataSlot, if_neg far]
      omega
    rw [slot] at empty
    rw [if_neg far]
    unfold iappendAddr
    rw [if_neg indirect, pure_bind, bind_assoc]
    have index : nb i - NDIRECT = j := by omega
    rw [index]
    simp only [pure_bind]
    refine makes_iappendEntry (f := fun x => f (x, ino i)) h.length filled ?_ indirect empty
      (hj ▸ held) (fun beyond => bad (h.not_fits hi (by omega))) ?_
    · simp only [MAXFILE] at more
      omega
    · intro s' keeps length count filled' linked
      have self : update ino i (ino i) = ino := update_eq_self i ino
      refine rest s' (ino i) s.freeblock keeps rfl ?_ ?_
      · rw [self]
        refine h.grow hi more length filled' (fun j' k => ?_) (by omega)
        rw [linked, isSome_update, Prod.mk.injEq, slot]
        simp only [Nat.ne_of_gt later, false_and, or_false]
      · rw [self, linked, slot, update_self]

end Block

/-! ## The loop -/

section Loop

variable {F : Prop} {s : Image} {ino : ℕ → Inode} {nb : ℕ → ℕ} {c : ℕ → List Byte} {i : ℕ}

theorem getD_of_le {l : List Byte} {n : ℕ} (le : l.length ≤ n) : l.getD n 0 = 0 :=
  getD_eq_default l 0 le

theorem byte_append {l q : List Byte} {d : Block} {bn : ℕ} (start : bn = l.length / BSIZE)
    (before : ∀ o < BSIZE, d.byte o = l.getD (bn * BSIZE + o) 0) {o : ℕ} (ho : o < BSIZE) :
    (d.blit (l.length % BSIZE) q.length fun j => q.getD j 0).byte o =
      (l ++ q).getD (bn * BSIZE + o) 0 := by
  have split : l.length = bn * BSIZE + l.length % BSIZE := by
    rw [start]
    exact (Nat.div_add_mod' _ _).symm
  by_cases copied : l.length % BSIZE ≤ o ∧ o < l.length % BSIZE + q.length
  · rw [Bytes.byte_blit_in _ _ ho copied.1 copied.2, getD_append_right _ _ _ _ (by omega)]
    congr 1
    omega
  · rw [Bytes.byte_blit_out _ _ (by omega), before o ho]
    by_cases old : o < l.length % BSIZE
    · rw [getD_append _ _ _ _ (by omega)]
    · rw [getD_of_le (by omega), getD_of_le (by rw [length_append]; omega)]

theorem Draft.write (h : Draft s ino nb c) {bn x : ℕ} {q : List Byte}
    (start : bn = (c i).length / BSIZE) (fits : (c i).length % BSIZE + q.length ≤ BSIZE)
    (hbn : bn < MAXFILE) (below : bn < nb i) (own : ref s.sects ino (i, dataSlot bn) = some x) :
    Draft (s.write x ((s.sects x).blit ((c i).length % BSIZE) q.length fun j => q.getD j 0)) ino nb
      (update c i (c i ++ q)) := by
  have split : (c i).length = bn * BSIZE + (c i).length % BSIZE := by
    rw [start]
    exact (Nat.div_add_mod' _ _).symm
  have filled := h.filled.write (i := i) hbn own
    (fun o ho => byte_append (q := q) start (h.filled.bytes i bn x hbn own) ho)
    (fun bn' ne o ho => ?_)
  · refine ⟨h.length, filled, fun j k hk => ?_, h.small, h.count, fun j => ?_⟩
    · rw [Image.write, h.filled.ref_write own]
      exact h.mapped j k hk
    · by_cases hj : j = i
      · subst hj
        rw [update_self, length_append]
        have whole : (bn + 1) * BSIZE ≤ nb j * BSIZE := Nat.mul_le_mul_right _ below
        rw [add_mul] at whole
        omega
      · rw [update_of_ne hj]
        exact h.held j
  · rcases Nat.lt_or_gt_of_ne ne with lower | higher
    · have whole : (bn' + 1) * BSIZE ≤ bn * BSIZE := Nat.mul_le_mul_right _ lower
      rw [add_mul] at whole
      rw [getD_append _ _ _ _ (by omega)]
    · have whole : (bn + 1) * BSIZE ≤ bn' * BSIZE := Nat.mul_le_mul_right _ higher
      rw [add_mul] at whole
      rw [getD_of_le (by rw [length_append]; omega), getD_of_le (by omega)]

theorem Draft.append_nil (h : Draft s ino nb c) {n : ℕ} (hn : nb i = n) :
    Draft s (update ino i (ino i)) (update nb i n)
      (update c i (c i ++ [])) := by
  rw [List.append_nil, ← hn, update_eq_self, update_eq_self, update_eq_self]
  exact h

theorem makes_iappendFrom (k : ℕ) {off : ℕ} {p : List Byte} (h : Draft s ino nb c)
    (hi : i < inodeRoom) (hoff : off = (c i).length) (hnb : nb i = blocksOf off)
    (hk : p.length ≤ k) (bad : ¬ Fits (update nb i (blocksOf (off + p.length))) → F) :
    Makes F (iappendFrom k (ino i) off p) s fun r s' => r.1 = off + p.length ∧ Keeps s s' ∧
      SameHead (ino i) r.2 ∧ Draft s' (update ino i r.2)
        (update nb i (blocksOf r.1)) (update c i (c i ++ p)) := by
  induction k generalizing s ino nb c off p with
  | zero =>
    obtain rfl := length_eq_zero_iff.mp (Nat.le_zero.mp hk)
    exact makes_ret ⟨rfl, Keeps.refl s, rfl, h.append_nil hnb⟩
  | succ k ih =>
    unfold iappendFrom
    split_ifs with empty
    · subst empty
      exact makes_ret ⟨rfl, Keeps.refl s, rfl, h.append_nil hnb⟩
    have pos : 0 < p.length := length_pos_iff.mpr empty
    refine makes_assert (fun large => bad fun fits => ?_) fun hbn => ?_
    · have bound := fits.2 i hi
      rw [update_self] at bound
      simp only [blocksOf, MAXFILE, NDIRECT, NINDIRECT, BSIZE] at bound large
      omega
    -- the rest of the iteration, when the block exists
    have cont : ∀ (s' : Image) (din : Inode) (x : ℕ), Keeps s s' → SameHead (ino i) din →
        Draft s' (update ino i din) (update nb i (off / BSIZE + 1)) c →
        ref s'.sects (update ino i din) (i, dataSlot (off / BSIZE)) = some x →
        Makes F (do
          wsect x ((s'.sects x).blit (off - off / BSIZE * BSIZE)
            (min p.length ((off / BSIZE + 1) * BSIZE - off)) fun i => p.getD i 0)
          iappendFrom k din (off + min p.length ((off / BSIZE + 1) * BSIZE - off))
            (p.drop (min p.length ((off / BSIZE + 1) * BSIZE - off)))) s' fun r s'' =>
          r.1 = off + p.length ∧ Keeps s s'' ∧ SameHead (ino i) r.2 ∧
            Draft s'' (update ino i r.2) (update nb i (blocksOf r.1))
              (update c i (c i ++ p)) := by
      intro s' din x keeps head draft own
      have hn : ∃ n, n = min p.length ((off / BSIZE + 1) * BSIZE - off) := ⟨_, rfl⟩
      obtain ⟨n, hn⟩ := hn
      have size : (p.take n).length = n := by
        rw [length_take]
        omega
      have bounds : 0 < n ∧ n ≤ p.length ∧ off % BSIZE + n ≤ BSIZE ∧
          blocksOf (off + n) = off / BSIZE + 1 ∧ off - off / BSIZE * BSIZE = off % BSIZE := by
        simp only [blocksOf, BSIZE] at hn ⊢
        omega
      obtain ⟨npos, nle, nfits, nblocks, offset⟩ := bounds
      rw [← hn, offset]
      have data : (s'.sects x).blit (off % BSIZE) n (fun i => p.getD i 0) =
          (s'.sects x).blit ((c i).length % BSIZE) (p.take n).length
            fun j => (p.take n).getD j 0 := by
        rw [size, ← hoff]
        refine Bytes.blit_congr _ fun j hj => ?_
        rw [getD_eq_getElem?_getD, getD_eq_getElem?_getD, getElem?_take_of_lt hj]
      have written := draft.write (q := p.take n) (hoff ▸ rfl)
        (by rw [size, ← hoff]; exact nfits) hbn (by rw [update_self]; exact Nat.lt_succ_self _) own
      rw [← data] at written
      refine makes_wsect draft.length
        (lt_of_lt_of_le (draft.filled.range own).2 draft.filled.room) ?_
      have length : off + n = (update c i (c i ++ p.take n) i).length := by
        rw [update_self, length_append, size, ← hoff]
      have rest := ih (p := p.drop n) written length ?_ ?_ ?_
      · rw [update_self] at rest
        refine rest.mono ?_
        rintro ⟨off', din'⟩ s'' ⟨place, keeps', head', draft'⟩
        simp only [update_idem, update_self, append_assoc, take_append_drop] at draft'
        have wrote : ∀ d, Keeps s' (s'.write x d) :=
          fun _ => Keeps.write (draft.filled.range own).1 rfl rfl
        refine ⟨?_, keeps.trans ((wrote _).trans keeps'), ?_, draft'⟩
        · rw [place, length_drop]
          omega
        · rw [SameHead] at head head' ⊢
          rw [head', head]
      · rw [update_self, nblocks]
      · rw [length_drop]
        omega
      · rw [update_idem, length_drop]
        have all : off + n + (p.length - n) = off + p.length := by omega
        rw [all]
        exact bad
    have step : nb i = off / BSIZE ∨ nb i = off / BSIZE + 1 := by
      rw [hnb]
      simp only [blocksOf, BSIZE]
      omega
    rcases step with new | old
    · rw [← new]
      refine makes_iappendBlock_new h hi (new ▸ hbn) (fun beyond => bad fun fits => beyond ?_) ?_
      · refine fits.mono fun j => ?_
        by_cases hj : j = i
        · subst hj
          rw [update_self, update_self]
          simp only [blocksOf, BSIZE] at new ⊢
          omega
        · rw [update_of_ne hj, update_of_ne hj]
      · rw [new]
        exact cont
    · refine makes_iappendBlock_old h hbn (by omega) fun x own => ?_
      refine cont s (ino i) x (Keeps.refl s) rfl ?_ ?_
      · rw [← old, update_eq_self, update_eq_self]
        exact h
      · rw [update_eq_self]
        exact own

end Loop

end Xv6.Mkfs
