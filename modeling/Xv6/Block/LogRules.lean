import Xv6.Block.BufRules

/-!
# Operations on the log keep the invariant

One rule for each atomic operation of `log.c`, and for the disk writes, which only a commit makes.
-/

namespace Xv6

open Function List BState LogHeader

variable {E : Env} {ls : ℕ → Local} {s : BState} {p i b : ℕ} {ℓ ℓ' : Local} {α : Type}
  {Q : α → Local → Prop} {w : Work} {k : Unit → BProg α}

theorem LocalOk.frame {t : BState} {q : ℕ} (ok : LocalOk E s q ℓ)
    (bufs : ∀ i, (t.cache.buf i).Same (s.cache.buf i) ∧ (t.cache.buf i).lock = (s.cache.buf i).lock)
    (gets : t.gets = s.gets) (ops : q ∈ t.ops ↔ q ∈ s.ops)
    (lh : ℓ.inOp = true → ∀ b ∈ s.log.lh.blocks, b ∈ t.log.lh.blocks)
    (work : ∀ w, ℓ.work = some w → WorkOk E t w) : LocalOk E t q ℓ := by
  refine ⟨fun i => ?_, fun i h hi => ?_, fun e he => ?_, fun i => ?_, ops.trans ok.inOp,
    fun b hb => ?_, work⟩
  · rw [(bufs i).2]
    exact ok.lock i
  · obtain ⟨lt, caches, known⟩ := ok.held i h hi
    exact ⟨lt, (bufs i).1.caches caches, known.same (bufs i).1⟩
  · obtain ⟨lt, caches⟩ := ok.extra e he
    exact ⟨lt, (bufs _).1.caches caches⟩
  · rw [gets]
    exact ok.gets i
  · obtain ⟨inside, mem⟩ := ok.mine b hb
    exact ⟨inside, lh inside b mem⟩

theorem same_self (c : Bcache) (i : ℕ) :
    (c.buf i).Same (c.buf i) ∧ (c.buf i).lock = (c.buf i).lock := ⟨⟨rfl, rfl, rfl, rfl⟩, rfl⟩

theorem same_refcnt (c : Bcache) (i : ℕ) (f : ℕ → ℕ) (j : ℕ) :
    ((c.modify i fun x => { x with refcnt := f x.refcnt }).buf j).Same (c.buf j) ∧
      ((c.modify i fun x => { x with refcnt := f x.refcnt }).buf j).lock = (c.buf j).lock := by
  by_cases hj : j = i
  · subst hj
    rw [Bcache.modify_buf_self]
    exact same_self c j
  · rw [Bcache.modify_buf_of_ne _ _ hj]
    exact same_self c j

theorem BInv.work_other (inv : BInv E ls s) (work : (ls p).work = some w) (q : ℕ) (hq : q ≠ p) :
    (ls q).work = none := by
  by_contra hne
  exact hq (inv.single q p hne (by rw [work]; exact Option.some_ne_none w))

theorem BInv.locals_update (inv : BInv E ls s) {t : BState} (others : ∀ q, q ≠ p → (ls q).work = none)
    (bufs : ∀ i, (t.cache.buf i).Same (s.cache.buf i) ∧ (t.cache.buf i).lock = (s.cache.buf i).lock)
    (gets : t.gets = s.gets) (ops : ∀ q, q ≠ p → (q ∈ t.ops ↔ q ∈ s.ops))
    (lh : ∀ q, (ls q).inOp = true → ∀ b ∈ s.log.lh.blocks, b ∈ t.log.lh.blocks)
    (mine : LocalOk E t p ℓ') : ∀ q, LocalOk E t q (update ls p ℓ' q) := by
  refine (forall_update_iff ls (LocalOk E t)).mpr ⟨mine, fun q hq => ?_⟩
  refine (inv.locals q).frame bufs gets (ops q hq) (lh q) fun w hw => ?_
  rw [others q hq] at hw
  cases hw

theorem BInv.work_idle (inv : BInv E ls s) (idle : s.log.committing = false) (q : ℕ) :
    (ls q).work = none := by
  cases hw : (ls q).work with
  | none => rfl
  | some w =>
    have := ((inv.locals q).work w hw).committing
    rw [idle] at this
    cases this

theorem BInv.not_committing (inv : BInv E ls s) (inOp : (ls p).inOp = true) :
    s.log.committing = false := by
  have mem : p ∈ s.ops := (inv.locals p).inOp.2 inOp
  by_contra hne
  rw [inv.state.quiet (by simpa using hne)] at mem
  cases mem

theorem worker_update (work : ℓ'.work = some w) : ∃ q w, (update ls p ℓ' q).work = some w :=
  ⟨p, w, by rw [update_self, work]⟩

theorem single_update (others : ∀ q, q ≠ p → (ls q).work = none) (q r : ℕ)
    (hq : (update ls p ℓ' q).work ≠ none) (hr : (update ls p ℓ' r).work ≠ none) : q = r := by
  have only : ∀ q, (update ls p ℓ' q).work ≠ none → q = p := by
    intro q hq
    by_contra ne
    rw [update_of_ne ne] at hq
    exact hq (others q ne)
  rw [only q hq, only r hr]

theorem safe_logStart {k : ℕ → BProg α} (hk : BSafe E p (k E.start) ℓ Q) :
    BSafe E p (.op .logStart k) ℓ Q := by
  intro ls s inv hp
  simp only [exec]
  rw [inv.state.start]
  exact ⟨ℓ, by rwa [← hp, update_eq_self], hk⟩

theorem safe_getLh {k : LogHeader → BProg α} (work : ℓ.work = some w)
    (hk : ∀ lh : LogHeader, (w.cleared = false → lh.blocks = w.blocks) →
      (w.cleared = true → lh.blocks = []) → lh.n ≤ LOGSIZE ∧ w.blocks.length < E.size →
      (∀ b ∈ lh.blocks, E.Home b) →
      BSafe E p (k lh) ℓ Q) :
    BSafe E p (.op .getLh k) ℓ Q := by
  intro ls s inv hp
  have me := hp ▸ inv.locals p
  have ok := me.work w work
  simp only [exec]
  refine ⟨ℓ, by rwa [← hp, update_eq_self], hk _ (fun active => ?_) (fun cleared => ?_)
    ⟨inv.state.fits.1, ok.fits.2⟩ inv.state.home⟩
  · rw [ok.blocks, active]
    rfl
  · rw [ok.blocks, if_pos cleared]

theorem safe_diskWrite {d : Block} {dty : Bool}
    (work : ℓ.work = some w) (held : ℓ.held i = some ⟨b, .data d, dty⟩)
    (write : CommitWrite E.start w.blocks w.new w.wrote (b, d))
    (hk : BSafe E p (k ())
      ((ℓ.hold i ⟨b, .data d, false⟩).setWork (some { w with wrote := w.wrote + 1 })) Q) :
    BSafe E p (.op (.diskWrite i) k) ℓ Q := by
  intro ls s inv hp
  subst hp
  have me := inv.locals p
  have ok := me.work w work
  obtain ⟨hi, hc, hv, hd⟩ := me.held i _ held
  have others := inv.work_other work
  simp only [exec]
  rw [hc.2, hd]
  refine ⟨_, ⟨?_, inv.locals_update others (same_self _) rfl (fun _ _ => Iff.rfl) (fun _ _ _ h => h) ?_,
    fun _ => worker_update rfl, single_update others, ?_⟩, hk⟩
  · have st := inv.state
    exact ⟨st.start, st.size, st.wf, st.refs, st.opsNodup, st.outstanding, st.quiet, st.lhNodup,
      st.logged, st.home, st.fits, st.notInstalled, st.pinned, st.empty⟩
  · have mine := me.relearn (h := ⟨b, .data d, false⟩) held rfl ⟨hv, hd⟩
    refine ⟨mine.lock, mine.held, mine.extra, mine.gets, mine.inOp, mine.mine, ?_⟩
    rintro w' hw'
    cases hw'
    refine ⟨ok.committing, ok.admitted, ok.latest, ok.installed, ?_, ?_, ?_, ok.blocks, ok.nodup,
      ok.home, ok.fits, fun h => Nat.le_succ_of_le (ok.progress h)⟩
    · simp [ok.wrote]
    · rw [applyWrites_concat, ← ok.disk]
    · exact ok.writes.concat (by rwa [ok.wrote])
  · intro j hj hs hdev hval hpin hdirty
    dsimp only at hdev hval ⊢
    by_cases hji : j = i
    · subst hji
      rw [hc.2, update_self, hd]
    · have ne : (s.cache.buf j).blockno ≠ b :=
        fun e => hji (inv.state.wf.unique j hj i hi b ⟨hdev, e⟩ hc)
      rw [dirty_update_of_ne (by rw [Local.setWork_held, Local.hold_of_ne _ _ hji])] at hdirty
      rw [update_of_ne ne]
      exact inv.coherent j hj hs hdev hval hpin hdirty

theorem StateOk.pinStep {t : BState} (st : StateOk E s) {f : ℕ → ℕ} (hi : i < NBUF)
    (caches : (s.cache.buf i).Caches b)
    (cache : t.cache = s.cache.modify i fun x => { x with refcnt := f x.refcnt })
    (gets : t.gets = s.gets)
    (count : f (s.cache.buf i).refcnt + s.pins.count b = (s.cache.buf i).refcnt + t.pins.count b)
    (other : ∀ b', b' ≠ b → t.pins.count b' = s.pins.count b') :
    t.cache.WF ∧ ∀ j < NBUF, (t.cache.buf j).refcnt = t.gets.countP (fun g => g.2 = j) +
      if (t.cache.buf j).dev = ROOTDEV then t.pins.count (t.cache.buf j).blockno else 0 := by
  rw [cache, gets]
  refine ⟨st.wf.modify fun _ => Iff.rfl, fun j hj => ?_⟩
  have refs := st.refs j hj
  by_cases hji : j = i
  · subst hji
    rw [Bcache.modify_buf_self]
    dsimp only
    rw [if_pos caches.1, caches.2] at refs ⊢
    omega
  · rw [Bcache.modify_buf_of_ne _ _ hji, refs]
    by_cases hdev : (s.cache.buf j).dev = ROOTDEV
    · have ne : (s.cache.buf j).blockno ≠ b :=
        fun e => hji (st.wf.unique j hj i hi b ⟨hdev, e⟩ caches)
      rw [if_pos hdev, if_pos hdev, other _ ne]
    · rw [if_neg hdev, if_neg hdev]

theorem count_drop_succ {l : List ℕ} {n b : ℕ} (h : l[n]? = some b) :
    l.drop n = b :: l.drop (n + 1) := by
  obtain ⟨hn, rfl⟩ := List.getElem?_eq_some_iff.1 h
  exact drop_eq_getElem_cons hn

theorem WorkOk.disk_installed (ok : WorkOk E s w) {b : ℕ} (next : w.blocks[w.inst]? = some b)
    (wrote : w.wrote = w.blocks.length + 1 + w.inst + 1) : s.disk b = w.new b := by
  rw [ok.disk]
  exact ok.writes.home (fun b hb => (ok.home b hb).2) ok.fits.2 ok.nodup next
    (by rw [ok.wrote, wrote]; omega)

theorem safe_bunpin (work : ℓ.work = some w) (active : w.cleared = false)
    (next : w.blocks[w.inst]? = some b) (wrote : w.wrote = w.blocks.length + 1 + w.inst + 1)
    (held : ℓ.held i = some ⟨b, .data (w.new b), false⟩)
    (hk : BSafe E p (k ()) (ℓ.setWork (some { w with inst := w.inst + 1 })) Q) :
    BSafe E p (.op (.bunpin i) k) ℓ Q := by
  intro ls s inv hp
  subst hp
  have me := inv.locals p
  have st := inv.state
  have ok := me.work w work
  have blocks := ok.blocks
  rw [active] at blocks
  obtain ⟨hi, hc, hv, hd⟩ := me.held i _ held
  change (s.cache.buf i).Caches b at hc
  have others := inv.work_other work
  have pins : s.pins = b :: s.log.lh.blocks.drop (s.installed + 1) := by
    rw [pins, ok.installed, blocks]
    exact count_drop_succ next
  have installed : s.disk b = w.new b := ok.disk_installed next wrote
  have fewer : ∀ b', b' ∈ s.log.lh.blocks.drop (s.installed + 1) → b' ∈ s.pins ∧ b' ≠ b := by
    intro b' hb'
    rw [pins]
    refine ⟨mem_cons_of_mem _ hb', ?_⟩
    have nodup : s.pins.Nodup := st.lhNodup.sublist (drop_sublist ..)
    rw [pins] at nodup
    rintro rfl
    exact (nodup_cons.1 nodup).1 hb'
  have bufs := same_refcnt s.cache i fun n => n - 1
  simp only [exec]
  have key := st.pinStep (t := { s with cache := s.cache.bunpin i, installed := s.installed + 1 })
    hi hc rfl rfl (f := fun n => n - 1) (by
      have pos := inv.refcnt_pos hi (me.used_of_held (by rw [held]; rfl))
      rw [pins, count_cons_self]
      show _ - 1 + _ = _ + (s.log.lh.blocks.drop (s.installed + 1)).count b
      omega) (fun b' ne => by
      rw [pins, List.count_cons_of_ne ne.symm]
      rfl)
  refine ⟨_, ⟨⟨st.start, st.size, key.1, key.2, st.opsNodup, st.outstanding, st.quiet, st.lhNodup,
    st.logged, st.home, st.fits, fun idle => ?_, fun b' hb' => ?_, st.empty⟩,
    inv.locals_update others bufs rfl (fun _ _ => Iff.rfl) (fun _ _ _ h => h) ?_,
    fun _ => worker_update rfl, single_update others, ?_⟩, hk⟩
  · exact absurd (ok.committing.symm.trans idle) (by decide)
  · obtain ⟨j, hj, hcj, hvj, hdj⟩ := st.pinned b' (fewer b' hb').1
    exact ⟨j, hj, (bufs j).1.caches hcj, (bufs j).1.2.2.1.trans hvj, (bufs j).1.2.2.2.trans hdj⟩
  · have mine : LocalOk E s p ((ls p).setWork none) :=
      ⟨me.lock, me.held, me.extra, me.gets, me.inOp, me.mine, by rintro _ ⟨⟩⟩
    have mine' := mine.frame (t := { s with
      cache := s.cache.bunpin i, installed := s.installed + 1 }) bufs rfl Iff.rfl
      (fun _ _ h => h) (by rintro _ ⟨⟩)
    refine ⟨mine'.lock, mine'.held, mine'.extra, mine'.gets, mine'.inOp, mine'.mine, ?_⟩
    rintro w' hw'
    cases hw'
    exact ⟨ok.committing, ok.admitted, ok.latest, congrArg (· + 1) ok.installed, ok.wrote,
      ok.disk, ok.writes, ok.blocks, ok.nodup, ok.home, ok.fits, fun _ => by
        dsimp only
        omega⟩
  · intro j hj hs hdev hval hpin hdirty
    have same := (bufs j).1
    rw [dirty_update_of_ne (by rfl)] at hdirty
    by_cases hji : j = i
    · subst hji
      exact (same.2.2.2.trans hd).trans
        ((installed.symm.trans (congrArg s.disk hc.2.symm)).trans (congrArg s.disk same.2.1.symm))
    · have ne : (s.cache.buf j).blockno ≠ b :=
        fun e => hji (st.wf.unique j hj i hi b ⟨same.1.symm.trans hdev, e⟩ hc)
      refine (same.2.2.2.trans ?_).trans (congrArg s.disk same.2.1.symm)
      refine inv.coherent j hj (same.2.1 ▸ hs) (same.1.symm.trans hdev) (same.2.2.1.symm.trans hval) ?_ hdirty
      rw [pins]
      intro mem
      rcases mem_cons.1 mem with e | mem
      · exact ne e
      · exact hpin (by
          rw [show ((s.cache.bunpin i).buf j).blockno = (s.cache.buf j).blockno from same.2.1]
          exact mem)

theorem safe_setLh {lh : LogHeader} (work : ℓ.work = some w)
    (active : w.cleared = false) (all : w.inst = w.blocks.length) (empty : lh.n = 0)
    (hk : BSafe E p (k ()) (ℓ.setWork (some { w with inst := 0, cleared := true })) Q) :
    BSafe E p (.op (.setLh lh) k) ℓ Q := by
  intro ls s inv hp
  subst hp
  have me := inv.locals p
  have st := inv.state
  have ok := me.work w work
  have blocks := ok.blocks
  rw [active] at blocks
  have others := inv.work_other work
  have none' : lh.blocks = [] := eq_nil_of_length_eq_zero (lh.length_blocks.trans empty)
  have pins : s.pins = [] := by
    rw [pins, ok.installed, blocks, all]
    exact drop_length
  have pins' : lh.blocks.drop 0 = s.pins := by rw [none', pins, drop_nil]
  have outside : ∀ q, (ls q).inOp = true → False := by
    intro q inOp
    have := inv.not_committing inOp
    rw [ok.committing] at this
    cases this
  simp only [exec]
  refine ⟨_, ⟨⟨st.start, st.size, st.wf, fun i hi => ?_, st.opsNodup, st.outstanding, st.quiet, ?_,
    fun b => ?_, fun b hb => ?_, ⟨by rw [empty]; decide, ?_⟩, fun _ => rfl, fun b hb => ?_,
    fun _ _ => empty⟩, inv.locals_update others (same_self _) rfl (fun _ _ => Iff.rfl)
      (fun q inOp => absurd inOp (outside q)) ?_,
    fun _ => worker_update rfl, single_update others, ?_⟩, hk⟩
  · have refs := st.refs i hi
    rwa [← pins'] at refs
  · show lh.blocks.Nodup
    rw [none']
    exact nodup_nil
  · show b ∈ lh.blocks ↔ b ∈ []
    rw [none']
  · change b ∈ lh.blocks at hb
    rw [none'] at hb
    cases hb
  · show lh.n < E.size
    rw [empty]
    exact Nat.lt_of_le_of_lt (Nat.zero_le _) st.fits.2
  · change b ∈ lh.blocks.drop 0 at hb
    rw [pins', pins] at hb
    cases hb
  · refine ⟨me.lock, me.held, me.extra, me.gets, me.inOp,
      fun b hb => absurd (me.mine b hb).1 (outside p), ?_⟩
    rintro w' hw'
    cases hw'
    exact ⟨ok.committing, ok.admitted, ok.latest, rfl, ok.wrote, ok.disk, ok.writes, none',
      ok.nodup, ok.home, ok.fits, fun h => absurd rfl h⟩
  · intro j hj hs hdev hval hpin hdirty
    rw [dirty_update_of_ne (by rfl)] at hdirty
    refine inv.coherent j hj hs hdev hval ?_ hdirty
    rw [pins]
    exact not_mem_nil

theorem safe_beginOp (inOp : ℓ.inOp = false)
    (hk : BSafe E p (k ()) { ℓ with inOp := true } Q) : BSafe E p (.op .beginOp k) ℓ Q := by
  intro ls s inv hp
  subst hp
  have me := inv.locals p
  have st := inv.state
  have fresh : p ∉ s.ops := by
    rw [me.inOp, inOp]
    decide
  cases hb : s.log.beginOp with
  | none => simp only [exec, hb]
  | some l =>
    obtain ⟨idle, -, rfl⟩ := Log.beginOp_some hb
    have works := inv.work_idle idle
    simp only [exec, hb]
    refine ⟨_, ⟨⟨st.start, st.size, st.wf, st.refs, nodup_cons.2 ⟨fresh, st.opsNodup⟩, ?_,
      fun busy => ?_, st.lhNodup, st.logged, st.home, st.fits, st.notInstalled, st.pinned, by rintro _ ⟨⟩⟩,
      inv.locals_update (fun q _ => works q) (same_self _) rfl (fun q hq => by simp [hq])
        (fun _ _ _ h => h) ?_, fun busy => ?_, single_update fun q _ => works q, ?_⟩, hk⟩
    · show s.log.outstanding + 1 = ((p :: s.ops).length : ℤ)
      rw [st.outstanding, length_cons]
      rfl
    · exact absurd (busy.symm.trans idle) (by decide)
    · refine ⟨me.lock, me.held, me.extra, me.gets, by simp, fun b hb => ⟨rfl, (me.mine b hb).2⟩,
        fun w hw => ?_⟩
      exact absurd ((works p).symm.trans hw) (by rintro ⟨⟩)
    · exact absurd (busy.symm.trans idle) (by decide)
    · intro j hj hs hdev hval hpin hdirty
      rw [dirty_update_of_ne (by rfl)] at hdirty
      exact inv.coherent j hj hs hdev hval hpin hdirty

theorem safe_endOp {k : Bool → BProg α} (inOp : ℓ.inOp = true)
    (admits : ∀ base blocks new, E.T base blocks new)
    (more : BSafe E p (k false) { ℓ with inOp := false, mine := [] } Q)
    (last : ∀ blocks new base, BSafe E p (k true)
      { ℓ with inOp := false, mine := [], work := some ⟨blocks, new, base, 0, 0, false⟩ } Q) :
    BSafe E p (.op .endOp k) ℓ Q := by
  intro ls s inv hp
  subst hp
  have me := inv.locals p
  have st := inv.state
  have idle := inv.not_committing inOp
  have works := inv.work_idle idle
  have mem : p ∈ s.ops := me.inOp.2 inOp
  have len : (s.ops.erase p).length = s.ops.length - 1 := length_erase_of_mem mem
  have pos : 0 < s.ops.length := length_pos_of_mem mem
  have outstanding := st.outstanding
  have left : p ∉ s.ops.erase p := st.opsNodup.not_mem_erase
  simp only [exec, Log.endOp_idle idle]
  have state : ∀ tx, StateOk E { s with
      log := { s.log with outstanding := s.log.outstanding - 1,
                          committing := decide (s.log.outstanding = 1) }
      ops := s.ops.erase p, tx := tx } := by
    intro tx
    refine ⟨st.start, st.size, st.wf, st.refs, st.opsNodup.erase p, ?_, fun busy => ?_, st.lhNodup,
      st.logged, st.home, st.fits, fun _ => st.notInstalled idle, st.pinned, fun rest none => ?_⟩
    · show s.log.outstanding - 1 = ((s.ops.erase p).length : ℤ)
      rw [len]
      omega
    · have : s.log.outstanding = 1 := of_decide_eq_true busy
      exact eq_nil_of_length_eq_zero (by rw [len]; omega)
    · have : ¬ s.log.outstanding = 1 := of_decide_eq_false rest
      rw [show s.ops.erase p = [] from none, length_nil] at len
      omega
  by_cases one : s.log.outstanding = 1
  · simp only [decide_eq_true one] at state ⊢
    rw [if_pos trivial]
    refine ⟨_, ⟨state [], inv.locals_update (fun q _ => works q) (same_self _) rfl
      (fun q => mem_erase_of_ne) (fun _ _ _ h => h) ?_, fun _ => worker_update rfl,
      single_update fun q _ => works q, ?_⟩, last s.log.lh.blocks s.latest s.disk⟩
    · refine ⟨me.lock, me.held, me.extra, me.gets, by simp [left], by rintro _ ⟨⟩, ?_⟩
      rintro w' hw'
      cases hw'
      exact ⟨rfl, admits _ _ _, rfl, st.notInstalled idle, rfl, rfl, by rintro _ _ ⟨⟩, rfl, st.lhNodup,
        st.home, by rw [length_blocks]; exact st.fits, fun h => absurd rfl h⟩
    · intro j hj hs hdev hval hpin hdirty
      rw [dirty_update_of_ne (by rfl)] at hdirty
      exact inv.coherent j hj hs hdev hval hpin hdirty
  · simp only [decide_eq_false one] at state ⊢
    rw [if_neg (by decide)]
    refine ⟨_, ⟨state s.tx, inv.locals_update (fun q _ => works q) (same_self _) rfl
      (fun q => mem_erase_of_ne) (fun _ _ _ h => h) ?_, by rintro ⟨⟩, single_update fun q _ => works q,
      ?_⟩, more⟩
    · refine ⟨me.lock, me.held, me.extra, me.gets, by simp [left], by rintro _ ⟨⟩, fun w' hw' => ?_⟩
      exact absurd ((works p).symm.trans hw') (by rintro ⟨⟩)
    · intro j hj hs hdev hval hpin hdirty
      rw [dirty_update_of_ne (by rfl)] at hdirty
      exact inv.coherent j hj hs hdev hval hpin hdirty

theorem safe_endCommit (work : ℓ.work = some w) (done : w.inst = 0)
    (empty : w.blocks = [] ∨ w.cleared = true)
    (hk : BSafe E p (k ()) (ℓ.setWork none) Q) : BSafe E p (.op .endCommit k) ℓ Q := by
  intro ls s inv hp
  subst hp
  have me := inv.locals p
  have st := inv.state
  have ok := me.work w work
  have others := inv.work_other work
  simp only [exec]
  refine ⟨_, ⟨⟨st.start, st.size, st.wf, st.refs, st.opsNodup, st.outstanding, by rintro ⟨⟩, st.lhNodup,
    st.logged, st.home, st.fits, fun _ => ok.installed.trans done, st.pinned, fun _ _ => ?_⟩,
    inv.locals_update others (same_self _) rfl (fun _ _ => Iff.rfl) (fun _ _ _ h => h) ?_,
    (by rintro ⟨⟩), single_update others, ?_⟩, hk⟩
  · show s.log.lh.n = 0
    rw [← length_blocks, ok.blocks]
    rcases empty with nil | cleared
    · rw [nil, ite_self, length_nil]
    · rw [if_pos cleared, length_nil]
  · exact ⟨me.lock, me.held, me.extra, me.gets, me.inOp, me.mine, by rintro _ ⟨⟩⟩
  · intro j hj hs hdev hval hpin hdirty
    rw [dirty_update_of_ne (by rfl)] at hdirty
    exact inv.coherent j hj hs hdev hval hpin hdirty

theorem BInv.logStep (inv : BInv E ls s) {d : Block} {dty : Bool} {f : ℕ → ℕ}
    {lh : LogHeader} (inOp : (ls p).inOp = true)
    (held : (ls p).held i = some ⟨b, .data d, dty⟩) (home : E.Home b)
    (members : ∀ b', b' ∈ lh.blocks ↔ b' ∈ s.log.lh.blocks ∨ b' = b) (nodup : lh.blocks.Nodup)
    (fits : lh.n ≤ LOGSIZE ∧ lh.n < E.size)
    (count : f (s.cache.buf i).refcnt + s.log.lh.blocks.count b =
      (s.cache.buf i).refcnt + lh.blocks.count b) :
    BInv E (update ls p ((ls p).logs i b d))
      { s with log := { s.log with lh := lh }
               cache := s.cache.modify i fun x => { x with refcnt := f x.refcnt }
               logged := s.logged ++ [b], latest := update s.latest b d } := by
  have me := inv.locals p
  have st := inv.state
  have idle := inv.not_committing inOp
  have works := inv.work_idle idle
  obtain ⟨hi, hc, hv, hd⟩ := me.held i _ held
  change (s.cache.buf i).Caches b at hc
  have bufs := same_refcnt s.cache i f
  have pins : s.pins = s.log.lh.blocks := by
    rw [BState.pins, st.notInstalled idle, drop_zero]
  have inLog : b ∈ lh.blocks := (members b).2 (.inr rfl)
  have key := st.pinStep (t := { s with
      log := { s.log with lh := lh }
      cache := s.cache.modify i fun x => { x with refcnt := f x.refcnt }
      logged := s.logged ++ [b], latest := update s.latest b d }) hi hc rfl rfl
    (by rw [pins]
        simp only [BState.pins, st.notInstalled idle, drop_zero]
        exact count)
    (fun b' ne => by
      rw [pins]
      simp only [BState.pins, st.notInstalled idle, drop_zero]
      simp [nodup.count, st.lhNodup.count, members, ne])
  refine ⟨⟨st.start, st.size, key.1, key.2, st.opsNodup, st.outstanding, st.quiet, nodup,
    fun b' => ?_, fun b' hb' => ?_, fits, st.notInstalled, fun b' hb' => ?_, fun _ none => ?_⟩,
    inv.locals_update (fun q _ => works q) bufs rfl (fun _ _ => Iff.rfl)
      (fun _ _ b' hb' => (members b').2 (.inl hb')) ?_,
    fun busy => ?_, single_update fun q _ => works q, ?_⟩
  · show b' ∈ lh.blocks ↔ b' ∈ s.logged ++ [b]
    rw [members, st.logged, mem_append, mem_singleton]
  · rcases (members b').1 hb' with old | rfl
    · exact st.home b' old
    · exact home
  · have mem : b' ∈ lh.blocks := mem_of_mem_drop hb'
    by_cases eq : b' = b
    · subst eq
      exact ⟨i, hi, (bufs i).1.caches hc, (bufs i).1.2.2.1.trans hv,
        ((bufs i).1.2.2.2.trans hd).trans (update_self b' d s.latest).symm⟩
    · have old : b' ∈ s.pins := by
        rw [pins]
        exact ((members b').1 mem).resolve_right eq
      obtain ⟨j, hj, hcj, hvj, hdj⟩ := st.pinned b' old
      exact ⟨j, hj, (bufs j).1.caches hcj, (bufs j).1.2.2.1.trans hvj,
        ((bufs j).1.2.2.2.trans hdj).trans (update_of_ne eq ..).symm⟩
  · have mem : p ∈ s.ops := me.inOp.2 inOp
    rw [show s.ops = [] from none] at mem
    cases mem
  · have mine := (me.relearn (h := ⟨b, .data d, false⟩) held rfl ⟨hv, hd⟩).frame (t := { s with
        log := { s.log with lh := lh }
        cache := s.cache.modify i fun x => { x with refcnt := f x.refcnt }
        logged := s.logged ++ [b], latest := update s.latest b d }) bufs rfl Iff.rfl
      (fun _ b' hb' => (members b').2 (.inl hb'))
      fun w hw => absurd ((works p).symm.trans hw) (by rintro ⟨⟩)
    refine ⟨mine.lock, mine.held, mine.extra, mine.gets, mine.inOp, fun b' hb' => ?_, mine.work⟩
    rcases mem_cons.1 hb' with rfl | hb'
    · exact ⟨inOp, inLog⟩
    · exact mine.mine b' hb'
  · exact absurd (busy.symm.trans idle) (by decide)
  · intro j hj hs hdev hval hpin hdirty
    have same := (bufs j).1
    have out : (s.cache.buf j).blockno ∉ lh.blocks := by
      intro mem
      refine hpin ?_
      simp only [BState.pins, st.notInstalled idle, drop_zero]
      rwa [same.2.1]
    have hji : j ≠ i := by
      rintro rfl
      rw [hc.2] at out
      exact out inLog
    rw [dirty_update_of_ne (by rw [Local.logs_held, Local.hold_of_ne _ _ hji])] at hdirty
    refine (same.2.2.2.trans ?_).trans (congrArg s.disk same.2.1.symm)
    refine inv.coherent j hj (same.2.1 ▸ hs) (same.1.symm.trans hdev) (same.2.2.1.symm.trans hval) ?_ hdirty
    rw [pins]
    exact fun mem => out ((members _).2 (.inl mem))

theorem safe_logWrite {d : Block} {dty : Bool} (inOp : ℓ.inOp = true)
    (held : ℓ.held i = some ⟨b, .data d, dty⟩) (home : E.Home b)
    (hk : BSafe E p (k ()) (ℓ.logs i b d) Q) : BSafe E p (.op (.logWrite i) k) ℓ Q := by
  intro ls s inv hp
  subst hp
  have me := inv.locals p
  have st := inv.state
  have idle := inv.not_committing inOp
  have mem : p ∈ s.ops := me.inOp.2 inOp
  obtain ⟨hi, hc, hv, hd⟩ := me.held i _ held
  change (s.cache.buf i).Caches b at hc
  simp only [exec]
  rw [hc.2]
  cases hl : s.log.logWrite b with
  | error e =>
    refine .inr (Log.logWrite_error hl ?_)
    have := length_pos_of_mem mem
    have := st.outstanding
    omega
  | ok r =>
    obtain ⟨new, l⟩ := r
    obtain ⟨lt, lt', lh, rfl, ⟨rfl, absent, append⟩ | ⟨rfl, present, same⟩⟩ := Log.logWrite_ok hl
    · have length : lh.n = s.log.lh.n + 1 := by
        rw [← lh.length_blocks, append, length_append, length_blocks]
        rfl
      have step := inv.logStep (f := (· + 1)) inOp held home
        (fun b' => by rw [append, mem_append, mem_singleton])
        (by
          rw [append, ← concat_eq_append]
          exact st.lhNodup.concat absent)
        ⟨by omega, by have := st.size; omega⟩
        (by
          rw [append, count_append, count_eq_zero_of_not_mem absent, count_singleton_self])
      exact ⟨_, by rw [hd]; exact step, hk⟩
    · have length : lh.n = s.log.lh.n := by
        rw [← lh.length_blocks, same, length_blocks]
      have step := inv.logStep (f := id) inOp held home
        (fun b' => by
          rw [same]
          exact ⟨.inl, Or.rec id fun e => e ▸ present⟩)
        (by
          rw [same]
          exact st.lhNodup)
        (by
          rw [length]
          exact st.fits)
        (by rw [same]; rfl)
      have id' : (s.cache.modify i fun x => { x with refcnt := id x.refcnt }) = s.cache :=
        congrArg cache (modifyBuf_id s i)
      rw [id'] at step
      exact ⟨_, by rw [hd]; exact step, hk⟩

end Xv6
