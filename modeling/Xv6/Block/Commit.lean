import Xv6.Block.LogRules

/-!
# The functions of `bio.c` and `log.c` are safe

The programs of the block layer keep the invariant when they run among other programs, and the
commit makes its disk writes in the prescribed order.
-/

namespace Xv6

open List Local LogHeader

variable {E : Env} {p : ℕ} {ℓ : Local} {w : Work} {Q : Unit → Local → Prop}

/-! ## Buffers -/

theorem safe_bread {b : ℕ} {Q : ℕ → Local → Prop}
    (post : ∀ i d, ℓ.held i = none → (∀ w, ℓ.work = some w → w.Reads E.start b d) →
      Q i (ℓ.hold i ⟨b, .data d, false⟩)) : BSafe E p (bread b) ℓ Q := by
  refine safe_bget fun i => safe_acquiresleep fun free => safe_valid (hold_self ..)
    (fun d known => ?_) (safe_diskRead (hold_self ..) fun d known => ?_)
  · rw [hold_hold]
    exact post i d free known
  · rw [hold_hold, hold_hold]
    exact post i d free known

theorem safe_bwrite {i b : ℕ} {d : Block} {dty : Bool}
    (work : ℓ.work = some w) (held : ℓ.held i = some ⟨b, .data d, dty⟩)
    (write : CommitWrite E.start w.blocks w.new w.wrote (b, d))
    (post : Q () ((ℓ.hold i ⟨b, .data d, false⟩).setWork (some { w with wrote := w.wrote + 1 }))) :
    BSafe E p (bwrite i) ℓ Q :=
  safe_holdingsleep (by rw [held]; rfl) (safe_diskWrite work held write post)

theorem safe_brelse {i : ℕ} {h : Held} (held : ℓ.held i = some h)
    (clean : E.Tracked h.blockno → h.dirty = true → h.blockno ∈ ℓ.mine) (post : Q () (ℓ.unhold i)) :
    BSafe E p (brelse i) ℓ Q :=
  safe_holdingsleep (by rw [held]; rfl) (safe_releasesleep held clean (safe_relse post))

theorem safe_brelse_clean {i b : ℕ} {d : Known} (held : ℓ.held i = some ⟨b, d, false⟩)
    (post : Q () (ℓ.unhold i)) : BSafe E p (brelse i) ℓ Q :=
  safe_brelse held (fun _ h => by cases h) post

/-! ## The header block -/

theorem LogHeader.word_write (lh : LogHeader) (d : Block) {m : ℕ} (fits : m ≤ LOGSIZE) :
    let d' : Block := (List.range m).foldl
      (fun d i => d.setWord (4 + 4 * i) 4 (BitVec.ofNat 32 (lh.block i))) d
    d'.word 0 4 = d.word 0 4 ∧ ∀ i < m, d'.word (4 + 4 * i) 4 = BitVec.ofNat 32 (lh.block i) := by
  induction m with
  | zero => exact ⟨rfl, nofun⟩
  | succ m ih =>
    obtain ⟨count, entries⟩ := ih (by omega)
    simp only [range_succ, foldl_append, foldl_cons, foldl_nil]
    refine ⟨?_, fun i hi => ?_⟩
    · rw [Bytes.word_setWord_out _ _ (by omega)]
      exact count
    · rcases Nat.lt_succ_iff_lt_or_eq.1 hi with lt | eq
      · rw [Bytes.word_setWord_out _ _ (by omega)]
        exact entries i lt
      · rw [eq]
        change m + 1 ≤ 30 at fits
        exact Bytes.word_setWord _ _ (show 4 + 4 * m + 4 ≤ 1024 by omega)

theorem LogHeader.heads_write (lh : LogHeader) (d : Block) (fits : lh.n ≤ LOGSIZE)
    (small : ∀ b ∈ lh.blocks, b < 2 ^ 32) : Heads (lh.write d) lh.blocks := by
  obtain ⟨count, entries⟩ := lh.word_write (d.setWord 0 4 (BitVec.ofNat 32 lh.n)) fits
  rw [Bytes.word_setWord _ _ (by decide)] at count
  have lt : lh.n < 2 ^ 31 := lt_of_le_of_lt fits (by decide)
  have toNat : (BitVec.ofNat 32 lh.n).toNat = lh.n := by
    rw [BitVec.toNat_ofNat, Nat.mod_eq_of_lt (by omega)]
  have n : LogHeader.count (lh.write d) = lh.n := by
    rw [LogHeader.count, LogHeader.write, count,
      BitVec.toInt_eq_toNat_of_lt (by rw [toNat]; omega), toNat]
  refine ⟨by rw [n, lh.length_blocks], fun lh' => ?_⟩
  unfold read
  dsimp only
  rw [n, Int.toNat_natCast]
  refine blocks_congr rfl fun i hi => ?_
  change i < lh.n at hi
  dsimp only
  rw [if_pos hi, write, entries i hi, BitVec.toNat_ofNat]
  refine Nat.mod_eq_of_lt (small _ ?_)
  exact mem_iff_getElem?.2 ⟨i, lh.getElem_blocks hi⟩

/-! ## The phases of a commit -/

theorem safe_logBlock {k : ℕ} (inOp : ℓ.inOp = false) (work : ℓ.work = some w)
    (active : w.cleared = false) (inst : w.inst = 0) (hk : k < w.blocks.length) (wrote : w.wrote = k)
    (post : Q () (ℓ.setWork (some { w with wrote := k + 1 }))) : BSafe E p (logBlock k) ℓ Q := by
  unfold logBlock
  simp only [Prog.op_bind, Prog.ret_bind]
  refine safe_logStart (Prog.Safe.bind (safe_bread fun dst d freeDst _ => ?_))
  refine safe_getLh (w := w) work fun lh blocks _ ⟨_, fits⟩ _ => ?_
  have entry := getElem_of_blocks (blocks active) hk
  refine Prog.Safe.bind (safe_bread fun src d' freeSrc known => ?_)
  have ne : src ≠ dst := by
    rintro rfl
    rw [hold_self] at freeSrc
    cases freeSrc
  rw [hold_of_ne _ _ ne] at freeSrc
  have content : d' = w.new (lh.block k) := by
    refine (known w work).1 active ?_
    rw [inst]
    exact mem_of_getElem? entry
  subst content
  refine safe_getData (hold_self ..) ?_
  refine safe_setData_work inOp work (by rw [hold_of_ne _ _ ne.symm, hold_self])
    (.inl fun home => by have := home.2; omega) ?_
  refine Prog.Safe.bind (safe_bwrite work (hold_self ..) ?_ ?_)
  · unfold CommitWrite
    rw [wrote, if_pos hk, getD_eq_getElem?_getD, entry]
    rfl
  refine Prog.Safe.bind (safe_brelse_clean (i := src)
    (by rw [setWork_held, hold_of_ne _ _ ne, hold_of_ne _ _ ne, hold_self]) ?_)
  refine safe_brelse_clean (i := dst)
    (by rw [unhold_of_ne _ ne.symm, setWork_held, hold_self]) ?_
  convert post using 1
  refine ext (by simp) (by simp) (by simp)
    (held_unhold_unhold freeSrc freeDst fun x hs hd => ?_) (by simp [wrote])
  simp [hs, hd]

theorem safe_writeHead (inOp : ℓ.inOp = false) (work : ℓ.work = some w)
    (next : ∀ d, Heads d (if w.cleared then [] else w.blocks) →
      CommitWrite E.start w.blocks w.new w.wrote (E.start, d))
    (post : Q () (ℓ.setWork (some { w with wrote := w.wrote + 1 }))) :
    BSafe E p writeHead ℓ Q := by
  unfold writeHead
  simp only [Prog.op_bind, Prog.ret_bind]
  refine safe_logStart (Prog.Safe.bind (safe_bread fun buf d free _ => ?_))
  refine safe_getData (hold_self ..) ?_
  refine safe_getLh (w := w) work fun lh full empty ⟨small, fits⟩ home => ?_
  have heads : Heads (lh.write d) (if w.cleared then [] else w.blocks) := by
    have := lh.heads_write d small fun b hb => (home b hb).1
    cases cleared : w.cleared with
    | true => rwa [empty cleared] at this
    | false => rwa [full cleared] at this
  refine safe_setData_work inOp work (hold_self ..) (.inl fun h => by have := h.2; omega) ?_
  refine Prog.Safe.bind (safe_bwrite work (hold_self ..) (next _ heads) ?_)
  refine safe_brelse_clean (i := buf) (by rw [setWork_held, hold_self]) ?_
  convert post using 1
  refine ext (by simp) (by simp) (by simp) (held_unhold free fun x hx => ?_) (by simp)
  simp [hx]

theorem safe_installBlock {k : ℕ} (inOp : ℓ.inOp = false)
    (work : ℓ.work = some w) (active : w.cleared = false) (inst : w.inst = k)
    (hk : k < w.blocks.length) (wrote : w.wrote = w.blocks.length + 1 + k)
    (post : Q () (ℓ.setWork (some { w with wrote := w.wrote + 1, inst := k + 1 }))) :
    BSafe E p (installBlock false k) ℓ Q := by
  unfold installBlock
  simp only [Prog.op_bind, Prog.ret_bind]
  refine safe_logStart (Prog.Safe.bind (safe_bread fun lbuf d freeL copy => ?_))
  have content : d = w.new (w.blocks.getD k 0) := (copy w work).2 k hk (by omega) rfl
  refine safe_getLh (w := w) work fun lh blocks _ _ _ => ?_
  have entry := getElem_of_blocks (blocks active) hk
  rw [getD_eq_getElem?_getD, entry, Option.getD_some] at content
  subst content
  refine Prog.Safe.bind (safe_bread fun dbuf d' freeD _ => ?_)
  have ne : dbuf ≠ lbuf := by
    rintro rfl
    rw [hold_self] at freeD
    cases freeD
  rw [hold_of_ne _ _ ne] at freeD
  refine safe_getData (i := lbuf) (by rw [hold_of_ne _ _ ne.symm, hold_self]) ?_
  refine safe_setData_work inOp work (hold_self ..) (.inr rfl) ?_
  refine Prog.Safe.bind (safe_bwrite work (hold_self ..) ?_ ?_)
  · unfold CommitWrite
    rw [if_neg (by omega), if_neg (by omega), if_pos (by omega), getD_eq_getElem?_getD,
      show w.wrote - w.blocks.length - 1 = k by omega, entry]
    rfl
  refine safe_bunpin (w := { w with wrote := w.wrote + 1 }) (b := lh.block k) (by simp) active
    (by rw [← entry, ← inst]) (by dsimp only; omega)
    (by rw [setWork_held, hold_self]) ?_
  refine Prog.Safe.bind (safe_brelse_clean (i := lbuf) (by
    rw [setWork_held, setWork_held, hold_of_ne _ _ ne.symm,
      hold_of_ne _ _ ne.symm, hold_of_ne _ _ ne.symm, hold_self]) ?_)
  refine safe_brelse_clean (i := dbuf) (by
    rw [unhold_of_ne _ ne, setWork_held, setWork_held, hold_self]) ?_
  convert post using 1
  refine ext (by simp) (by simp) (by simp)
    (held_unhold_unhold freeL freeD fun x hl hd => ?_) (by simp [inst])
  simp [hl, hd]

theorem safe_writeLog (inOp : ℓ.inOp = false) (work : ℓ.work = some w) (active : w.cleared = false)
    (inst : w.inst = 0) (wrote : w.wrote = 0)
    (post : Q () (ℓ.setWork (some { w with wrote := w.blocks.length }))) : BSafe E p writeLog ℓ Q := by
  refine safe_getLh work fun lh blocks _ _ _ => ?_
  have n : lh.n = w.blocks.length := by rw [← lh.length_blocks, blocks active]
  refine (Prog.Safe.loop (J := fun k ℓ' => ℓ' = ℓ.setWork (some { w with wrote := k })) lh.n
    (fun k ℓ' _ hk eq => ?_) ?_).mono fun _ ℓ' eq => ?_
  · subst eq
    exact safe_logBlock (w := { w with wrote := k }) inOp rfl active inst
      (show k < w.blocks.length by omega) rfl rfl
  · rw [← wrote]
    exact ext rfl rfl rfl (fun _ => rfl) work
  · rw [eq, zero_add, n]
    exact post

theorem safe_installTrans (inOp : ℓ.inOp = false)
    (work : ℓ.work = some w) (active : w.cleared = false) (inst : w.inst = 0)
    (wrote : w.wrote = w.blocks.length + 1)
    (post : Q () (ℓ.setWork
      (some { w with wrote := 2 * w.blocks.length + 1, inst := w.blocks.length }))) :
    BSafe E p (installTrans false) ℓ Q := by
  refine safe_getLh work fun lh blocks _ _ _ => ?_
  have n : lh.n = w.blocks.length := by rw [← lh.length_blocks, blocks active]
  refine (Prog.Safe.loop (J := fun k ℓ' =>
      ℓ' = ℓ.setWork (some { w with wrote := w.blocks.length + 1 + k, inst := k })) lh.n
    (fun k ℓ' _ hk eq => ?_) ?_).mono fun _ ℓ' eq => ?_
  · subst eq
    exact safe_installBlock (w := { w with wrote := w.blocks.length + 1 + k, inst := k }) inOp rfl
      active rfl (show k < w.blocks.length by omega) rfl rfl
  · refine ext rfl rfl rfl (fun _ => rfl) (work.trans ?_)
    rw [setWork_work, add_zero, ← wrote, ← inst]
  · rw [eq, zero_add, n, show w.blocks.length + 1 + w.blocks.length = 2 * w.blocks.length + 1
      by omega]
    exact post

/-- `commit` writes every block of the transaction twice, each copy followed by a header, and
leaves an empty in-memory header. -/
theorem safe_commit (inOp : ℓ.inOp = false) (work : ℓ.work = some w)
    (active : w.cleared = false) (inst : w.inst = 0) (wrote : w.wrote = 0)
    (empty : w.blocks = [] → Q () ℓ)
    (post : w.blocks ≠ [] → Q () (ℓ.setWork
      (some { w with wrote := 2 * w.blocks.length + 2, inst := 0, cleared := true }))) :
    BSafe E p commit ℓ Q := by
  unfold commit
  simp only [Prog.op_bind, Prog.ret_bind]
  refine safe_getLh work fun lh blocks _ _ _ => ?_
  have n : lh.n = w.blocks.length := by rw [← lh.length_blocks, blocks active]
  by_cases pos : lh.n > 0
  swap
  · rw [if_neg pos]
    exact empty (eq_nil_of_length_eq_zero (by omega))
  rw [if_pos pos]
  refine Prog.Safe.bind (safe_writeLog inOp work active inst wrote ?_)
  refine Prog.Safe.bind (safe_writeHead inOp rfl (fun d heads => ?_) ?_)
  · unfold CommitWrite
    rw [if_neg (lt_irrefl _), if_pos rfl]
    rw [active] at heads
    exact ⟨rfl, heads⟩
  refine Prog.Safe.bind (safe_installTrans inOp rfl active inst rfl ?_)
  unfold clearLh
  simp only [Prog.op_bind, Prog.ret_bind]
  refine safe_getLh rfl fun lh' _ _ _ _ => ?_
  refine safe_setLh rfl active rfl rfl ?_
  refine safe_writeHead inOp rfl (fun d heads => ?_) ?_
  · unfold CommitWrite
    dsimp only
    rw [if_neg (by omega), if_neg (by omega), if_neg (by omega)]
    exact ⟨rfl, rfl, heads⟩
  · exact post (by
      rintro eq
      rw [eq, length_nil] at n
      omega)

theorem endOp_safe (inOp : ℓ.inOp = true) (work : ℓ.work = none)
    (admits : ∀ base blocks new, E.T base blocks new)
    (post : Q () { ℓ with inOp := false, mine := [] }) : BSafe E p endOp ℓ Q := by
  refine safe_endOp inOp admits post fun blocks new base => ?_
  rw [work] at post
  show BSafe E p (commit >>= fun _ => atomic .endCommit) _ Q
  refine Prog.Safe.bind (safe_commit rfl rfl rfl rfl rfl (fun nil => ?_) fun _ => ?_)
  · exact safe_endCommit rfl rfl (.inl nil) post
  · exact safe_endCommit rfl rfl (.inr rfl) post

end Xv6
