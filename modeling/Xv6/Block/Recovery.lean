import Xv6.Block.Commit
import Xv6.Lib.Crash

/-!
# Recovery

`recover_from_log` runs alone on a machine that has just booted.  It returns, whatever committed
transaction it finds it installs, and wherever it is stopped the disk can be recovered again.
-/

namespace Xv6

open Function List BState Bcache

/-! ## Buffers of a single process -/

/-- Only process `p` uses the cache: it holds the buffers `H`, and every valid buffer agrees with
the disk. -/
structure Calm (p : ℕ) (s : BState) (H : List ℕ) : Prop where
  wf : s.cache.WF
  nodup : H.Nodup
  small : ∀ i ∈ H, i < NBUF
  lock : ∀ i, (s.cache.buf i).lock = if i ∈ H then some p else none
  refs : ∀ i < NBUF, (s.cache.buf i).refcnt = if i ∈ H then 1 else 0
  coherent : ∀ i < NBUF, (s.cache.buf i).dev = ROOTDEV → (s.cache.buf i).valid = true →
    (s.cache.buf i).data = s.disk (s.cache.buf i).blockno
  gets : s.gets = H.map (Prod.mk p)

def Frame (s s' : BState) : Prop :=
  s'.log = s.log ∧ s'.ops = s.ops ∧ s'.logged = s.logged ∧ s'.installed = s.installed

variable {p : ℕ} {s : BState} {H : List ℕ}

theorem BState.wf_modifyBuf (s : BState) {i : ℕ} {f : Buf → Buf} (wf : s.cache.WF)
    (same : ∀ b, (f (s.cache.buf i)).Caches b ↔ (s.cache.buf i).Caches b) :
    (s.modifyBuf i f).cache.WF :=
  wf.modify same

theorem Calm.bget (calm : Calm p s H) (few : H.length < NBUF) {b : ℕ}
    (fresh : ∀ i ∈ H, ¬ (s.cache.buf i).Caches b) :
    ∃ i c, s.cache.bget b = some (i, c) ∧ i < NBUF ∧ i ∉ H ∧ c.WF ∧
      (∀ j, j ≠ i → c.buf j = s.cache.buf j) ∧ (c.buf i).Caches b ∧ (c.buf i).lock = none ∧
      (c.buf i).refcnt = 1 ∧ ((c.buf i).valid = true → (c.buf i).data = s.disk b) := by
  cases hb : s.cache.bget b with
  | none =>
    have used : List.range NBUF ⊆ H := by
      intro i hi
      have lt := mem_range.1 hi
      by_contra out
      have := (bget_eq_none calm.wf hb).2 i lt
      rw [calm.refs i lt, if_neg out] at this
      exact this rfl
    have := (subperm_of_subset nodup_range used).length_le
    rw [length_range] at this
    omega
  | some r =>
    obtain ⟨i, c⟩ := r
    obtain ⟨hi, cases⟩ := bget_cases calm.wf hb
    have out : i ∉ H := by
      intro mem
      rcases cases with ⟨hc, -⟩ | ⟨-, zero, -⟩
      · exact fresh i mem hc
      · rw [calm.refs i hi, if_pos mem] at zero
        cases zero
    have free : (s.cache.buf i).lock = none := by rw [calm.lock, if_neg out]
    refine ⟨i, c, rfl, hi, out, calm.wf.bget hb, fun j hj => ?_, ?_⟩
    · rcases cases with ⟨-, rfl⟩ | ⟨-, -, rfl⟩
      · exact modify_buf_of_ne _ _ hj
      · exact modify_buf_of_ne _ _ hj
    · rcases cases with ⟨hc, rfl⟩ | ⟨-, -, rfl⟩
      · rw [modify_buf_self]
        refine ⟨hc, free, ?_, fun valid => ?_⟩
        · rw [calm.refs i hi, if_neg out]
        · rw [← hc.2]
          exact calm.coherent i hi hc.1 valid
      · rw [modify_buf_self]
        exact ⟨⟨rfl, rfl⟩, free, rfl, nofun⟩

theorem Calm.cons (calm : Calm p s H) {s' : BState} {i b : ℕ} (hi : i < NBUF) (out : i ∉ H)
    (wf : s'.cache.WF) (other : ∀ j, j ≠ i → s'.cache.buf j = s.cache.buf j)
    (buf : s'.cache.buf i = ⟨true, ROOTDEV, b, some p, 1, s.disk b⟩) (disk : s'.disk = s.disk)
    (gets : s'.gets = (p, i) :: s.gets) : Calm p s' (i :: H) := by
  refine ⟨wf, nodup_cons.2 ⟨out, calm.nodup⟩, fun j hj => ?_, fun j => ?_, fun j hj => ?_,
    fun j hj => ?_, by rw [gets, calm.gets]; rfl⟩
  · rcases mem_cons.1 hj with rfl | hj
    · exact hi
    · exact calm.small j hj
  · by_cases hji : j = i
    · subst hji
      rw [buf, if_pos mem_cons_self]
    · rw [other j hji, calm.lock]
      simp [hji]
  · by_cases hji : j = i
    · subst hji
      rw [buf, if_pos mem_cons_self]
    · rw [other j hji, calm.refs j hj]
      simp [hji]
  · by_cases hji : j = i
    · subst hji
      rw [buf, disk]
      exact fun _ _ => rfl
    · rw [other j hji, disk]
      exact calm.coherent j hj

section Rules

variable {J : (ℕ → Block) → Prop} {α : Type} {Q : α → BState → Prop}

/-- Total correctness of a program of process `p` with a condition on the disk. -/
abbrev BTotal (p : ℕ) (J : (ℕ → Block) → Prop) (x : BProg α) (s : BState) (Q : α → BState → Prop) :
    Prop :=
  x.Total (exec p) (fun _ => False) (fun s => J s.disk) s Q

theorem total_bread {b : ℕ} {Q : ℕ → BState → Prop} (calm : Calm p s H) (few : H.length < NBUF)
    (fresh : ∀ i ∈ H, ¬ (s.cache.buf i).Caches b) (hJ : J s.disk)
    (post : ∀ i s', Calm p s' (i :: H) → (∀ j ∈ H, s'.cache.buf j = s.cache.buf j) →
      (s'.cache.buf i).Caches b → (s'.cache.buf i).data = s.disk b → s'.disk = s.disk →
      Frame s s' → Q i s') :
    BTotal p J (bread b) s Q := by
  obtain ⟨i, c, hb, hi, out, wf, other, hc, free, ref, content⟩ := calm.bget few fresh
  have apart : ∀ j ∈ H, j ≠ i := fun j hj e => out (e ▸ hj)
  let s₁ : BState := { s with cache := c, gets := (p, i) :: s.gets }
  let s₂ := s₁.modifyBuf i fun x => { x with lock := some p }
  let s₃ := s₂.modifyBuf i fun x => { x with data := s₂.disk x.blockno, valid := true }
  have finish : ∀ s' : BState, s'.cache.WF → (∀ j, j ≠ i → s'.cache.buf j = s.cache.buf j) →
      s'.cache.buf i = ⟨true, ROOTDEV, b, some p, 1, s.disk b⟩ → s'.disk = s.disk →
      s'.gets = (p, i) :: s.gets → Frame s s' → Q i s' := by
    intro s' wf' other' buf disk gets frame
    refine post i s' (calm.cons hi out wf' other' buf disk gets)
      (fun j hj => other' j (apart j hj)) ?_ ?_ disk frame
    · rw [buf]
      exact ⟨rfl, rfl⟩
    · rw [buf]
  have wf₂ : s₂.cache.WF := s₁.wf_modifyBuf wf fun _ => Iff.rfl
  have other₂ : ∀ j, j ≠ i → s₂.cache.buf j = s.cache.buf j := fun j hj => by
    rw [modifyBuf_of_ne _ _ hj]
    exact other j hj
  have buf₂ : s₂.cache.buf i =
      ⟨(c.buf i).valid, ROOTDEV, b, some p, 1, (c.buf i).data⟩ := by
    rw [modifyBuf_self, ← hc.1, ← hc.2, ← ref]
  have step₁ : exec p (.bget b) s = .ok (i, s₁) := by simp only [exec, hb, s₁]
  refine .op hJ step₁ (.op hJ (t := s₂) (if_pos free) (.op hJ (t := s₂) rfl ?_))
  rw [buf₂]
  cases valid : (c.buf i).valid with
  | true =>
    refine ⟨hJ, finish s₂ wf₂ other₂ ?_ rfl rfl ⟨rfl, rfl, rfl, rfl⟩⟩
    rw [buf₂, valid, content valid]
  | false =>
    refine .op hJ (t := s₃) rfl ⟨hJ, finish s₃ ?_ (fun j hj => ?_) ?_ rfl rfl
      ⟨rfl, rfl, rfl, rfl⟩⟩
    · exact s₂.wf_modifyBuf wf₂ fun _ => Iff.rfl
    · rw [modifyBuf_of_ne _ _ hj, other₂ j hj]
    · rw [modifyBuf_self, buf₂]
      rfl

theorem total_write {i b : ℕ} {d : Block} {k : Unit → BProg α} (calm : Calm p s H) (mem : i ∈ H)
    (hc : (s.cache.buf i).Caches b) (hJ : J s.disk)
    (post : ∀ s', Calm p s' H → (∀ j, j ≠ i → s'.cache.buf j = s.cache.buf j) →
      (s'.cache.buf i).Caches b → s'.disk = update s.disk b d → Frame s s' →
      BTotal p J (k ()) s' Q) :
    BTotal p J (.op (.setData i d) fun _ => bwrite i >>= k) s Q := by
  have hi := calm.small i mem
  let s₁ : BState := { s.modifyBuf i (fun x => { x with data := d }) with
    latest := if p ∈ s.ops then update s.latest (s.cache.buf i).blockno d else s.latest }
  have buf₁ : s₁.cache.buf i = { s.cache.buf i with data := d } :=
    s.modifyBuf_self i fun x => { x with data := d }
  have other₁ : ∀ j, j ≠ i → s₁.cache.buf j = s.cache.buf j :=
    fun j hj => s.modifyBuf_of_ne (fun x => { x with data := d }) hj
  have locked : (s₁.cache.buf i).lock = some p := by
    rw [buf₁]
    exact (calm.lock i).trans (if_pos mem)
  let s₂ : BState := { s₁ with
    disk := update s₁.disk (s₁.cache.buf i).blockno (s₁.cache.buf i).data
    tx := s₁.tx ++ [((s₁.cache.buf i).blockno, (s₁.cache.buf i).data)] }
  have disk₂ : s₂.disk = update s.disk b d := by
    show update s.disk (s₁.cache.buf i).blockno (s₁.cache.buf i).data = _
    rw [buf₁, ← hc.2]
  have step : exec p (.holdingsleep i) s₁ = .ok (true, s₁) := by
    simp only [exec, locked, decide_true]
  refine .op hJ (t := s₁) rfl (.op hJ step (.op hJ (t := s₂) rfl
    (post s₂ ?_ other₁ ?_ disk₂ ⟨rfl, rfl, rfl, rfl⟩)))
  · refine ⟨s.wf_modifyBuf (f := fun x => { x with data := d }) calm.wf fun _ => Iff.rfl, calm.nodup,
      calm.small, fun j => ?_, fun j hj => ?_, fun j hj dev valid => ?_, calm.gets⟩
    · rw [← calm.lock j]
      by_cases hji : j = i
      · subst hji
        show (s₁.cache.buf j).lock = _
        rw [buf₁]
      · show (s₁.cache.buf j).lock = _
        rw [other₁ j hji]
    · rw [← calm.refs j hj]
      by_cases hji : j = i
      · subst hji
        show (s₁.cache.buf j).refcnt = _
        rw [buf₁]
      · show (s₁.cache.buf j).refcnt = _
        rw [other₁ j hji]
    · change (s₁.cache.buf j).dev = ROOTDEV at dev
      change (s₁.cache.buf j).valid = true at valid
      show (s₁.cache.buf j).data = s₂.disk (s₁.cache.buf j).blockno
      rw [disk₂]
      by_cases hji : j = i
      · subst hji
        rw [buf₁]
        dsimp only
        rw [hc.2, update_self]
      · rw [other₁ j hji] at dev valid ⊢
        rw [update_of_ne fun e => hji (calm.wf.unique j hj i hi b ⟨dev, e⟩ hc)]
        exact calm.coherent j hj dev valid
  · show (s₁.cache.buf i).Caches b
    rw [buf₁]
    exact hc

theorem total_brelse {i : ℕ} {Q : Unit → BState → Prop} (calm : Calm p s H) (mem : i ∈ H)
    (hJ : J s.disk)
    (post : ∀ s', Calm p s' (H.erase i) → (∀ j, j ≠ i → s'.cache.buf j = s.cache.buf j) →
      s'.disk = s.disk → Frame s s' → Q () s') :
    BTotal p J (brelse i) s Q := by
  have hi := calm.small i mem
  have locked : (s.cache.buf i).lock = some p := (calm.lock i).trans (if_pos mem)
  let s₁ := s.modifyBuf i fun x => { x with lock := none }
  let s₂ : BState := { s₁ with cache := s₁.cache.relse i, gets := s₁.gets.erase (p, i) }
  have buf₂ : s₂.cache.buf i =
      { s.cache.buf i with lock := none, refcnt := (s.cache.buf i).refcnt - 1 } := by
    show (s₁.cache.relse i).buf i = _
    rw [relse_buf, modify_buf_self, modifyBuf_self]
  have other₂ : ∀ j, j ≠ i → s₂.cache.buf j = s.cache.buf j := by
    intro j hj
    show (s₁.cache.relse i).buf j = _
    rw [relse_buf, modify_buf_of_ne _ _ hj, modifyBuf_of_ne _ _ hj]
  have step : exec p (.holdingsleep i) s = .ok (true, s) := by
    simp only [exec, locked, decide_true]
  refine .op hJ step (.op hJ (t := s₁) rfl (.op hJ (t := s₂) rfl
    ⟨hJ, post s₂ ?_ other₂ rfl ⟨rfl, rfl, rfl, rfl⟩⟩))
  have wf₁ : s₁.cache.WF := s.wf_modifyBuf calm.wf fun _ => Iff.rfl
  refine ⟨wf₁.relse hi, calm.nodup.erase i, fun j hj => calm.small j (mem_of_mem_erase hj),
    fun j => ?_, fun j hj => ?_, fun j hj dev valid => ?_, ?_⟩
  · by_cases hji : j = i
    · subst hji
      rw [buf₂, if_neg calm.nodup.not_mem_erase]
    · rw [other₂ j hji, calm.lock]
      simp only [mem_erase_of_ne hji]
  · by_cases hji : j = i
    · subst hji
      rw [buf₂, if_neg calm.nodup.not_mem_erase]
      dsimp only
      rw [calm.refs j hj, if_pos mem]
    · rw [other₂ j hji, calm.refs j hj]
      simp only [mem_erase_of_ne hji]
  · by_cases hji : j = i
    · subst hji
      rw [buf₂] at dev valid ⊢
      exact calm.coherent j hj dev valid
    · rw [other₂ j hji] at dev valid ⊢
      exact calm.coherent j hj dev valid
  · show s.gets.erase (p, i) = (H.erase i).map (Prod.mk p)
    rw [calm.gets, map_erase fun a b h => congrArg Prod.snd h]

end Rules

/-! ## Disks that can be recovered -/

/-- The disk holds a committed transaction: the header lists `bs`, the log holds `new`, and the other
blocks are those of `base`.  With `bs = []` this is the whole file system. -/
structure Pending (start size : ℕ) (bs : List ℕ) (new base d : ℕ → Block) : Prop where
  header : Heads (d start) bs
  copies : ∀ j b, bs[j]? = some b → d (start + j + 1) = new b
  rest : ∀ b, b < start ∨ start + size ≤ b → b ∉ bs → d b = base b

def installed (bs : List ℕ) (new base : ℕ → Block) : ℕ → Block :=
  fun b => if b ∈ bs then new b else base b

section Recover

variable {start size : ℕ} {bs : List ℕ} {new base d : ℕ → Block} {J : (ℕ → Block) → Prop}
  {Q : Unit → BState → Prop}

theorem Pending.write (pending : Pending start size bs new base d) (fits : bs.length < size)
    {b : ℕ} (mem : b ∈ bs) (outside : b < start ∨ start + size ≤ b) (x : Block) :
    Pending start size bs new base (update d b x) := by
  refine ⟨?_, fun j b' hj => ?_, fun b' hb' out => ?_⟩
  · rw [update_of_ne (by omega)]
    exact pending.header
  · have := (List.getElem?_eq_some_iff.1 hj).1
    rw [update_of_ne (by omega)]
    exact pending.copies j b' hj
  · rw [update_of_ne (by rintro rfl; exact out mem)]
    exact pending.rest b' hb' out

theorem Pending.clear (pending : Pending start size bs new base d) (pos : 0 < size)
    (done : ∀ b ∈ bs, d b = new b) {x : Block} (empty : Heads x []) :
    Pending start size [] new (installed bs new base) (update d start x) := by
  refine ⟨?_, nofun, fun b hb _ => ?_⟩
  · rwa [update_self]
  · rw [update_of_ne (by omega), installed]
    split_ifs with mem
    · exact done b mem
    · exact pending.rest b hb mem

def Recoverable (start size : ℕ) (bs : List ℕ) (new base d : ℕ → Block) : Prop :=
  Pending start size bs new base d ∨ Pending start size [] new (installed bs new base) d

/-- What holds between the phases of recovery: the in-memory header lists `bs'`. -/
structure Recovering (p start : ℕ) (bs' : List ℕ) (s₀ s : BState) : Prop where
  calm : Calm p s []
  log : s.log = { s₀.log with lh := s.log.lh }
  start : s.log.start = start
  blocks : s.log.lh.blocks = bs'
  ops : s.ops = s₀.ops
  clean : s.logged = [] ∧ s.installed = 0

variable {p : ℕ} {s₀ s : BState}

theorem Recovering.frame {s' : BState} (rec : Recovering p start bs s₀ s) (calm : Calm p s' [])
    (frame : Frame s s') : Recovering p start bs s₀ s' := by
  obtain ⟨log, ops, logged, inst⟩ := frame
  refine ⟨calm, ?_, by rw [log, rec.start], by rw [log, rec.blocks], by rw [ops, rec.ops], ?_⟩
  · rw [log]
    exact rec.log
  · rw [logged, inst]
    exact rec.clean

theorem Frame.trans {a b c : BState} (h : Frame a b) (h' : Frame b c) : Frame a c :=
  ⟨h'.1.trans h.1, h'.2.1.trans h.2.1, h'.2.2.1.trans h.2.2.1, h'.2.2.2.trans h.2.2.2⟩

theorem Calm.congr {H : List ℕ} {s' : BState} (calm : Calm p s H) (cache : s'.cache = s.cache)
    (disk : s'.disk = s.disk) (gets : s'.gets = s.gets) : Calm p s' H :=
  ⟨cache ▸ calm.wf, calm.nodup, calm.small, cache ▸ calm.lock, cache ▸ calm.refs,
    by rw [cache, disk]; exact calm.coherent, by rw [gets, calm.gets]⟩

theorem total_readHead (calm : Calm p s [])
    (located : s.log.start = start) (heads : Heads (s.disk start) bs) (hJ : J s.disk)
    (post : ∀ s', Recovering p start bs s s' → s'.disk = s.disk → Q () s') :
    BTotal p J readHead s Q := by
  unfold readHead
  simp only [Prog.op_bind, Prog.ret_bind]
  refine .op hJ rfl (.bind (total_bread calm (by decide) nofun hJ
    fun i s₁ calm₁ _ hc content disk frame => ?_))
  obtain ⟨log, ops, -, -⟩ := frame
  have hJ₁ : J s₁.disk := by rwa [disk]
  refine .op hJ₁ rfl (.op hJ₁ rfl (.op hJ₁ rfl ?_))
  refine total_brelse (calm₁.congr rfl rfl rfl) mem_cons_self hJ₁
    fun s₂ calm₂ _ disk₂ frame₂ => ?_
  rw [erase_cons_head] at calm₂
  obtain ⟨log₂, ops₂, logged₂, installed₂⟩ := frame₂
  refine post s₂ ⟨calm₂, ?_, ?_, ?_, ops₂.trans ops, logged₂, installed₂⟩ (disk₂.trans disk)
  · rw [log₂, log]
  · rw [log₂, ← located, log]
  · rw [log₂, content, located]
    exact heads.2 _

theorem total_installBlock {k b : ℕ}
    (rec : Recovering p start bs s₀ s) (entry : bs[k]? = some b) (fits : bs.length < size)
    (outside : b < start ∨ start + size ≤ b) (hJ : J s.disk)
    (hJ' : J (update s.disk b (s.disk (start + k + 1))))
    (post : ∀ s', Recovering p start bs s₀ s' →
      s'.disk = update s.disk b (s.disk (start + k + 1)) → Q () s') :
    BTotal p J (installBlock true k) s Q := by
  have lt := (List.getElem?_eq_some_iff.1 entry).1
  unfold installBlock
  simp only [Prog.op_bind, Prog.ret_bind, Bool.not_true, Bool.false_eq_true, if_false]
  refine .op hJ rfl (.bind (total_bread rec.calm (by decide) nofun hJ
    fun lbuf s₁ calm₁ _ hc₁ content₁ disk₁ frame₁ => ?_))
  rw [rec.start] at hc₁ content₁
  have hJ₁ : J s₁.disk := by rwa [disk₁]
  refine .op hJ₁ rfl ?_
  have block : s₁.log.lh.block k = b := by
    have := LogHeader.getElem_of_blocks rec.blocks lt
    rw [entry] at this
    rw [frame₁.1]
    exact (Option.some.inj this).symm
  rw [block]
  refine .bind (total_bread calm₁ (show 1 < 30 by decide) (fun j hj hb => ?_) hJ₁
    fun dbuf s₂ calm₂ same₂ hc₂ _ disk₂ frame₂ => ?_)
  · obtain rfl := mem_singleton.1 hj
    have := hc₁.2.symm.trans hb.2
    omega
  have ne : lbuf ≠ dbuf := by
    rintro rfl
    exact (nodup_cons.1 calm₂.nodup).1 mem_cons_self
  have hJ₂ : J s₂.disk := by rwa [disk₂]
  refine .op hJ₂ rfl ?_
  rw [same₂ lbuf mem_cons_self, content₁]
  refine total_write calm₂ mem_cons_self hc₂ hJ₂ fun s₃ calm₃ _ _ disk₃ frame₃ => ?_
  rw [disk₂, disk₁] at disk₃
  have hJ₃ : J s₃.disk := by rwa [disk₃]
  refine .bind (total_brelse calm₃ (mem_cons_of_mem _ mem_cons_self) hJ₃
    fun s₄ calm₄ _ disk₄ frame₄ => ?_)
  have hJ₄ : J s₄.disk := by rwa [disk₄]
  rw [erase_cons_tail (by simpa using ne.symm), erase_cons_head] at calm₄
  refine total_brelse calm₄ mem_cons_self hJ₄ fun s₅ calm₅ _ disk₅ frame₅ => ?_
  rw [erase_cons_head] at calm₅
  exact post s₅ (rec.frame calm₅
    ((((frame₁.trans frame₂).trans frame₃).trans frame₄).trans frame₅))
    (disk₅.trans (disk₄.trans disk₃))

theorem total_writeHead
    (rec : Recovering p start [] s₀ s) (hJ : J s.disk)
    (hJ' : ∀ x, Heads x [] → J (update s.disk start x))
    (post : ∀ s' x, Recovering p start [] s₀ s' → Heads x [] →
      s'.disk = update s.disk start x → Q () s') :
    BTotal p J writeHead s Q := by
  unfold writeHead
  simp only [Prog.op_bind, Prog.ret_bind]
  refine .op hJ rfl (.bind (total_bread rec.calm (by decide) nofun hJ
    fun buf s₁ calm₁ _ hc₁ content₁ disk₁ frame₁ => ?_))
  rw [rec.start] at hc₁
  have hJ₁ : J s₁.disk := by rwa [disk₁]
  refine .op hJ₁ rfl (.op hJ₁ rfl ?_)
  have blocks : s₁.log.lh.blocks = [] := by rw [frame₁.1, rec.blocks]
  have heads := s₁.log.lh.heads_write (s₁.cache.buf buf).data
    (by rw [← LogHeader.length_blocks, blocks]; decide) (by rw [blocks]; exact nofun)
  rw [blocks] at heads
  refine total_write calm₁ mem_cons_self hc₁ hJ₁ fun s₂ calm₂ _ _ disk₂ frame₂ => ?_
  rw [disk₁] at disk₂
  have hJ₂ : J s₂.disk := by
    rw [disk₂]
    exact hJ' _ heads
  refine total_brelse calm₂ mem_cons_self hJ₂ fun s₃ calm₃ _ disk₃ frame₃ => ?_
  rw [erase_cons_head] at calm₃
  exact post s₃ _ (rec.frame calm₃ ((frame₁.trans frame₂).trans frame₃)) heads
    (disk₃.trans disk₂)

theorem total_installTrans (rec : Recovering p start bs s₀ s)
    (outside : ∀ b ∈ bs, b < start ∨ start + size ≤ b) (fits : bs.length < size)
    (pending : Pending start size bs new base s.disk)
    (post : ∀ s', Recovering p start bs s₀ s' → Pending start size bs new base s'.disk →
      (∀ b ∈ bs, s'.disk b = new b) → Q () s') :
    BTotal p (Recoverable start size bs new base) (installTrans true) s Q := by
  refine .op (.inl pending) rfl ?_
  have n : s.log.lh.n = bs.length := by rw [← LogHeader.length_blocks, rec.blocks]
  -- the first `k` home locations are written, the log is untouched
  refine (Prog.Total.loop (J := fun k s' => Recovering p start bs s₀ s' ∧
      Pending start size bs new base s'.disk ∧
      ∀ j b, j < k → bs[j]? = some b → s'.disk b = new b) s.log.lh.n
    (fun k s' h => .inl h.2.1) (fun k s' _ hk h => ?_)
    ⟨rec, pending, fun j _ hj => absurd hj (Nat.not_lt_zero j)⟩).mono
    fun _ s' ⟨rec', pending', done⟩ => ?_
  · obtain ⟨rec', pending', done⟩ := h
    obtain ⟨b, entry⟩ : ∃ b, bs[k]? = some b := ⟨_, getElem?_eq_getElem (by omega)⟩
    have mem := mem_of_getElem? entry
    have copy := pending'.copies k b entry
    have written := pending'.write fits mem (outside b mem) (s'.disk (start + k + 1))
    refine total_installBlock rec' entry fits (outside b mem) (.inl pending') (.inl written)
      fun s'' rec'' disk => ⟨rec'', by rwa [disk], fun j b' hj entry' => ?_⟩
    rw [disk, copy]
    by_cases eq : b' = b
    · rw [eq, update_self]
    · rw [update_of_ne eq]
      have : j ≠ k := by
        rintro rfl
        rw [entry] at entry'
        exact eq (Option.some.inj entry').symm
      exact done j b' (by omega) entry'
  · refine post s' rec' pending' fun b mem => ?_
    obtain ⟨j, entry⟩ := mem_iff_getElem?.1 mem
    have := (List.getElem?_eq_some_iff.1 entry).1
    exact done j b (by omega) entry

/-- `recover_from_log` completes the committed transaction it finds, and can be stopped at any
point. -/
theorem total_recoverFromLog (calm : Calm p s []) (located : s.log.start = start)
    (outside : ∀ b ∈ bs, b < start ∨ start + size ≤ b) (fits : bs.length < size)
    (pending : Pending start size bs new base s.disk) :
    BTotal p (Recoverable start size bs new base) recoverFromLog s fun _ s' =>
      Recovering p start [] s s' ∧
        Pending start size [] new (installed bs new base) s'.disk := by
  unfold recoverFromLog
  refine .bind (total_readHead calm located pending.header (.inl pending) fun s₁ rec₁ disk₁ => ?_)
  have pending₁ : Pending start size bs new base s₁.disk := by rwa [disk₁]
  refine .bind (total_installTrans rec₁ outside fits pending₁ fun s₂ rec₂ pending₂ done => ?_)
  have pos : 0 < size := by omega
  unfold clearLh
  simp only [Prog.op_bind, Prog.ret_bind]
  refine .op (.inl pending₂) rfl (.op (.inl pending₂) rfl ?_)
  have rec₃ : Recovering p start [] s { s₂ with
      log := { s₂.log with lh := { s₂.log.lh with n := 0 } }, logged := [], installed := 0 } :=
    ⟨rec₂.calm.congr rfl rfl rfl, by rw [rec₂.log], rec₂.start, rfl, rec₂.ops, rfl, rfl⟩
  refine total_writeHead rec₃ (.inl pending₂) (fun x heads => .inr (pending₂.clear pos done heads))
    fun s₄ x rec₄ heads disk₄ => ⟨rec₄, ?_⟩
  rw [disk₄]
  exact pending₂.clear pos done heads

end Recover

end Xv6
