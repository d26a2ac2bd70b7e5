import Xv6.Block.LogInv

/-!
# Operations on buffers keep the invariant

One rule for each atomic operation of `bio.c`, in continuation form: it says what the local ghost
has to be before the operation, what it is afterwards, and what the result is known to be.
-/

namespace Xv6

open Function List Local BState Bcache

variable {E : Env} {ls : ℕ → Local} {s : BState} {p i b : ℕ} {ℓ ℓ' : Local} {g : List (ℕ × ℕ)}

/-- The panics the block layer may run into: too few buffers, or too big a transaction. -/
def Allowed (e : Panic) : Prop := e = .bgetNoBuffers ∨ e = .tooBigTransaction

abbrev BSafe {α : Type} (E : Env) (p : ℕ) (x : BProg α) (ℓ : Local) (Q : α → Local → Prop) : Prop :=
  x.Safe exec (BInv E) Allowed p ℓ Q

/-! ## Frames -/

theorem WorkOk.cache {w : Work} (h : WorkOk E s w) (c : Bcache) (g : List (ℕ × ℕ)) :
    WorkOk E { s with cache := c, gets := g } w :=
  ⟨h.committing, h.admitted, h.latest, h.installed, h.wrote, h.disk, h.writes, h.blocks, h.nodup,
    h.home, h.fits, h.progress⟩

def Buf.Same (x y : Buf) : Prop :=
  x.dev = y.dev ∧ x.blockno = y.blockno ∧ x.valid = y.valid ∧ x.data = y.data

theorem Buf.Same.caches {x y : Buf} (h : x.Same y) {b : ℕ} (hb : y.Caches b) : x.Caches b :=
  ⟨h.1.trans hb.1, h.2.1.trans hb.2⟩

theorem Known.Ok.same {x y : Buf} {k : Known} (hk : k.Ok y) (h : x.Same y) : k.Ok x := by
  cases k with
  | unknown => trivial
  | invalid => exact h.2.2.1.trans hk
  | data d => exact ⟨h.2.2.1.trans hk.1, h.2.2.2.trans hk.2⟩

theorem dirty_update_of_ne (same : ℓ'.held i = (ls p).held i) :
    Dirty (update ls p ℓ') i ↔ Dirty ls i := by
  constructor
  · rintro ⟨q, h, hq, hd⟩
    by_cases e : q = p
    · subst e
      rw [update_self, same] at hq
      exact ⟨q, h, hq, hd⟩
    · rw [update_of_ne e] at hq
      exact ⟨q, h, hq, hd⟩
  · rintro ⟨q, h, hq, hd⟩
    by_cases e : q = p
    · subst e
      exact ⟨q, h, by rwa [update_self, same], hd⟩
    · exact ⟨q, h, by rwa [update_of_ne e], hd⟩

theorem BInv.refcnt_pos (inv : BInv E ls s) {q i : ℕ} (hi : i < NBUF)
    (used : 0 < s.gets.count (q, i)) : 0 < (s.cache.buf i).refcnt := by
  have : 0 < s.gets.countP fun g => g.2 = i := by
    rw [countP_pos_iff]
    exact ⟨(q, i), count_pos_iff.1 used, by simp⟩
  rw [inv.state.refs i hi]
  omega

theorem LocalOk.used_of_held {q i : ℕ} (h : LocalOk E s q ℓ) (held : (ℓ.held i).isSome = true) :
    0 < s.gets.count (q, i) := by
  obtain ⟨x, hx⟩ := Option.isSome_iff_exists.1 held
  rw [h.gets i, hx]
  exact Nat.succ_pos _

theorem LocalOk.used_of_extra {q : ℕ} {e : ℕ × ℕ} (h : LocalOk E s q ℓ) (mem : e ∈ ℓ.extra) :
    0 < s.gets.count (q, e.1) := by
  have : 0 < ℓ.extra.countP fun e' => e'.1 = e.1 := countP_pos_iff.2 ⟨e, mem, by simp⟩
  rw [h.gets e.1]
  omega

theorem BInv.refcnt_pos_of_pinned (inv : BInv E ls s) (hi : i < NBUF)
    (caches : (s.cache.buf i).Caches b) (pinned : b ∈ s.pins) : 0 < (s.cache.buf i).refcnt := by
  have : 0 < s.pins.count b := count_pos_iff.2 pinned
  rw [inv.state.refs i hi, if_pos caches.1, caches.2]
  omega

theorem BInv.pinned_buf (inv : BInv E ls s) (hi : i < NBUF) (caches : (s.cache.buf i).Caches b)
    (pinned : b ∈ s.pins) : (s.cache.buf i).valid = true ∧ (s.cache.buf i).data = s.latest b := by
  obtain ⟨j, hj, hc, hv, hd⟩ := inv.state.pinned b pinned
  obtain rfl := inv.state.wf.unique j hj i hi b hc caches
  exact ⟨hv, hd⟩

theorem LocalOk.change (me : LocalOk E s p ℓ) {c : Bcache} {v : ℕ → Block}
    (other : ∀ j, j ≠ i → c.buf j = s.cache.buf j) (apart : ∀ j, j ≠ i → ℓ'.held j = ℓ.held j)
    (lock : (c.buf i).lock = some p ↔ (ℓ'.held i).isSome = true)
    (held : ∀ h, ℓ'.held i = some h → i < NBUF ∧ (c.buf i).Caches h.blockno ∧ h.known.Ok (c.buf i))
    (caches : ∀ b, (i, b) ∈ ℓ.extra → (c.buf i).Caches b)
    (extra : ∀ e ∈ ℓ'.extra, e ∈ ℓ.extra ∨ e.1 = i ∧ i < NBUF ∧ (c.buf i).Caches e.2)
    (gets : ∀ j, g.count (p, j) = ℓ'.extra.countP (fun e => e.1 = j) + (ℓ'.held j).elim 0 fun _ => 1)
    (op : ℓ'.inOp = ℓ.inOp ∧ ℓ'.mine = ℓ.mine)
    (work : ∀ w, ℓ'.work = some w → WorkOk E { s with cache := c, gets := g, latest := v } w) :
    LocalOk E { s with cache := c, gets := g, latest := v } p ℓ' := by
  refine ⟨fun j => ?_, fun j h hj => ?_, fun e he => ?_, gets, ?_, ?_, work⟩
  · by_cases hji : j = i
    · subst hji
      exact lock
    · rw [other j hji, apart j hji]
      exact me.lock j
  · by_cases hji : j = i
    · subst hji
      exact held h hj
    · rw [other j hji]
      exact me.held j h ((apart j hji).symm.trans hj)
  · rcases extra e he with old | ⟨rfl, new⟩
    · obtain ⟨small, cached⟩ := me.extra e old
      refine ⟨small, ?_⟩
      by_cases hji : e.1 = i
      · subst hji
        exact caches e.2 old
      · rwa [other _ hji]
    · exact new
  · rw [op.1]
    exact me.inOp
  · rw [op.1, op.2]
    exact me.mine

theorem works_update (work : ℓ'.work = (ls p).work) (q : ℕ) :
    (update ls p ℓ' q).work = (ls q).work := by
  by_cases hq : q = p
  · subst hq
    rw [update_self, work]
  · rw [update_of_ne hq]

/-- A step of process `p` that touches only buffer `i` and the list of obtained buffers. -/
structure Touches (E : Env) (ls : ℕ → Local) (s : BState) (p i : ℕ) (ℓ' : Local) (c : Bcache)
    (g : List (ℕ × ℕ)) : Prop where
  wf : c.WF
  other : ∀ j, j ≠ i → c.buf j = s.cache.buf j
  counts : ∀ q, q ≠ p → ∀ j, g.count (q, j) = s.gets.count (q, j)
  countsAt : ∀ j, j ≠ i → g.countP (fun e => e.2 = j) = s.gets.countP fun e => e.2 = j
  refs : i < NBUF → (c.buf i).refcnt = g.countP (fun e => e.2 = i) +
    if (c.buf i).dev = ROOTDEV then s.pins.count (c.buf i).blockno else 0
  lock : ∀ q, q ≠ p → ((c.buf i).lock = some q ↔ (s.cache.buf i).lock = some q)
  foreign : ∀ q, q ≠ p → 0 < s.gets.count (q, i) → (c.buf i).Same (s.cache.buf i) ∨
    ((ls q).held i = none ∧ ∀ b, (s.cache.buf i).Caches b → (c.buf i).Caches b)
  work : ℓ'.work = (ls p).work
  held : ∀ j, j ≠ i → ℓ'.held j = (ls p).held j
  coherent : i < NBUF → E.Tracked (c.buf i).blockno → (c.buf i).dev = ROOTDEV →
    (c.buf i).valid = true → (c.buf i).blockno ∉ s.pins → ¬ Dirty (update ls p ℓ') i →
    (c.buf i).data = s.disk (c.buf i).blockno

theorem BInv.bufStep (inv : BInv E ls s) {c : Bcache} {lat : ℕ → Block}
    (step : Touches E ls s p i ℓ' c g) (latest : lat = s.latest ∨ s.log.committing = false)
    (pinned : ∀ j < NBUF, ∀ b ∈ s.pins, (s.cache.buf j).Caches b → (s.cache.buf j).valid = true →
      (s.cache.buf j).data = s.latest b →
      (c.buf j).Caches b ∧ (c.buf j).valid = true ∧ (c.buf j).data = lat b)
    (mine : LocalOk E { s with cache := c, gets := g, latest := lat } p ℓ') :
    BInv E (update ls p ℓ') { s with cache := c, gets := g, latest := lat } := by
  refine ⟨?_, (forall_update_iff ls (LocalOk E _)).mpr ⟨mine, fun q hq => ?_⟩, ?_, ?_, ?_⟩
  · have st := inv.state
    refine ⟨st.start, st.size, step.wf, fun j hj => ?_, st.opsNodup, st.outstanding, st.quiet,
      st.lhNodup, st.logged, st.home, st.fits, st.notInstalled, fun b hb => ?_, st.empty⟩
    · by_cases hji : j = i
      · subst hji
        exact step.refs hj
      · rw [step.other j hji, step.countsAt j hji]
        exact st.refs j hj
    · obtain ⟨j, hj, hc, hv, hd⟩ := st.pinned b hb
      exact ⟨j, hj, pinned j hj b hb hc hv hd⟩
  · have lo := inv.locals q
    refine lo.change step.other (fun _ _ => rfl) ((step.lock q hq).trans (lo.lock i)) (fun h hh => ?_)
      (fun b hb => ?_) (fun _ => .inl) (fun j => (step.counts q hq j).trans (lo.gets j)) ⟨rfl, rfl⟩
      fun w hw => ?_
    · obtain ⟨hlt, hc, hk⟩ := lo.held i h hh
      rcases step.foreign q hq (lo.used_of_held (by rw [hh]; rfl)) with same | ⟨none, -⟩
      · exact ⟨hlt, same.caches hc, hk.same same⟩
      · rw [none] at hh
        cases hh
    · have hc := (lo.extra _ hb).2
      rcases step.foreign q hq (lo.used_of_extra hb) with same | ⟨-, keep⟩
      · exact same.caches hc
      · exact keep _ hc
    · have ok := lo.work w hw
      rcases latest with rfl | idle
      · exact ok.cache c g
      · rw [ok.committing] at idle
        cases idle
  · intro hc
    obtain ⟨q, w, hw⟩ := inv.worker hc
    exact ⟨q, w, by rw [works_update step.work, hw]⟩
  · intro q r hq hr
    rw [works_update step.work] at hq hr
    exact inv.single q r hq hr
  · intro j hj hs hdev hv hp hd
    by_cases hji : j = i
    · subst hji
      exact step.coherent hj hs hdev hv hp hd
    · rw [dirty_update_of_ne (step.held j hji)] at hd
      rw [step.other j hji] at hs hdev hv hp ⊢
      exact inv.coherent j hj hs hdev hv hp hd

theorem BInv.cacheStep (inv : BInv E ls s) {c : Bcache} (step : Touches E ls s p i ℓ' c g)
    (pinned : i < NBUF → ∀ b ∈ s.pins, (s.cache.buf i).Caches b → (c.buf i).Same (s.cache.buf i))
    (mine : LocalOk E { s with cache := c, gets := g } p ℓ') :
    BInv E (update ls p ℓ') { s with cache := c, gets := g } := by
  refine inv.bufStep step (.inl rfl) (fun j hj b hb hc hv hd => ?_) mine
  by_cases hji : j = i
  · subst hji
    have same := pinned hj b hb hc
    exact ⟨same.caches hc, same.2.2.1.trans hv, same.2.2.2.trans hd⟩
  · rw [step.other j hji]
    exact ⟨hc, hv, hd⟩

theorem BInv.relocal (inv : BInv E ls s) (mine : LocalOk E s p ℓ') (work : ℓ'.work = (ls p).work)
    (dirty : ∀ j, (∃ h, (ls p).held j = some h ∧ h.dirty = true) →
      ∃ h, ℓ'.held j = some h ∧ h.dirty = true) :
    BInv E (update ls p ℓ') s := by
  refine ⟨inv.state, (forall_update_iff ls (LocalOk E s)).mpr ⟨mine, fun q _ => inv.locals q⟩,
    ?_, ?_, ?_⟩
  · intro hc
    obtain ⟨q, w, hw⟩ := inv.worker hc
    exact ⟨q, w, by rw [works_update work, hw]⟩
  · intro q r hq hr
    rw [works_update work] at hq hr
    exact inv.single q r hq hr
  · intro j hj hs hdev hv hp hd
    refine inv.coherent j hj hs hdev hv hp fun ⟨q, h, hq, hdq⟩ => hd ?_
    by_cases e : q = p
    · subst e
      obtain ⟨h', hh', hd'⟩ := dirty j ⟨h, hq, hdq⟩
      exact ⟨q, h', by rwa [update_self], hd'⟩
    · exact ⟨q, h, by rwa [update_of_ne e], hdq⟩

/-! ## Buffers -/

variable {α : Type} {Q : α → Local → Prop} {k : Unit → BProg α}

theorem count_cons_of_ne {q i j : ℕ} (h : q ≠ p) : ((p, i) :: g).count (q, j) = g.count (q, j) :=
  List.count_cons_of_ne fun e => h (congrArg Prod.fst e).symm

theorem countP_cons_of_ne {i j : ℕ} (h : j ≠ i) :
    ((p, i) :: g).countP (fun e => e.2 = j) = g.countP fun e => e.2 = j :=
  countP_cons_of_neg (by simpa using h.symm)

theorem count_cons_pair (g : List (ℕ × ℕ)) (i j : ℕ) :
    ((p, i) :: g).count (p, j) = g.count (p, j) + if i = j then 1 else 0 := by
  by_cases h : i = j
  · subst h
    simp
  · rw [List.count_cons_of_ne fun e => h (congrArg Prod.snd e), if_neg h, add_zero]

theorem countP_cons_fst (l : List (ℕ × ℕ)) (i b j : ℕ) :
    ((i, b) :: l).countP (fun e => e.1 = j) =
      l.countP (fun e => e.1 = j) + if i = j then 1 else 0 := by
  rw [countP_cons]
  simp only [decide_eq_true_eq]

theorem BInv.unused (inv : BInv E ls s) (hi : i < NBUF)
    (free : (s.cache.buf i).refcnt = 0) (q : ℕ) : s.gets.count (q, i) = 0 := by
  by_contra h
  have := inv.refcnt_pos (q := q) hi (Nat.pos_of_ne_zero h)
  omega

theorem safe_bget {b : ℕ} {k : ℕ → BProg α}
    (hk : ∀ i, BSafe E p (k i) { ℓ with extra := (i, b) :: ℓ.extra } Q) :
    BSafe E p (.op (.bget b) k) ℓ Q := by
  intro ls s inv hp
  have me := hp ▸ inv.locals p
  simp only [exec]
  cases hb : s.cache.bget b with
  | none => exact .inl rfl
  | some r =>
    obtain ⟨i, c⟩ := r
    refine ⟨_, ?_, hk i⟩
    have wf := inv.state.wf
    obtain ⟨hi, hcases⟩ := bget_cases wf hb
    have other : ∀ j, j ≠ i → c.buf j = s.cache.buf j := by
      rintro j hj
      obtain ⟨-, rfl⟩ | ⟨-, -, rfl⟩ := hcases <;> exact modify_buf_of_ne _ _ hj
    have caches : (c.buf i).Caches b := by
      obtain ⟨hc, rfl⟩ | ⟨-, -, rfl⟩ := hcases
      · rw [modify_buf_self]
        exact hc
      · rw [modify_buf_self]
        exact ⟨rfl, rfl⟩
    have lock : (c.buf i).lock = (s.cache.buf i).lock := by
      obtain ⟨-, rfl⟩ | ⟨-, -, rfl⟩ := hcases <;> rw [modify_buf_self]
    -- a buffer that anybody uses keeps its identity and contents
    have same : ∀ q, 0 < s.gets.count (q, i) → (c.buf i).Same (s.cache.buf i) := by
      intro q used
      obtain ⟨-, rfl⟩ | ⟨-, free, -⟩ := hcases
      · rw [modify_buf_self]
        exact ⟨rfl, rfl, rfl, rfl⟩
      · rw [inv.unused hi free] at used
        exact absurd used (lt_irrefl 0)
    refine inv.cacheStep ⟨wf.bget hb, other, fun q hq j => count_cons_of_ne hq,
      fun j hj => countP_cons_of_ne hj, fun _ => ?_, fun q _ => by rw [lock],
      fun q _ used => .inl (same q used), by rw [hp], fun j _ => by rw [hp],
      fun _ hs hdev hv hpin hd => ?_⟩ (fun _ b' hb' hc' => ?_) ?_
    · have refs := inv.state.refs i hi
      rw [countP_cons_of_pos (by simp)]
      obtain ⟨-, rfl⟩ | ⟨fresh, free, rfl⟩ := hcases
      · rw [modify_buf_self]
        dsimp only
        omega
      · rw [modify_buf_self]
        have unpinned : s.pins.count b = 0 := by
          rw [count_eq_zero]
          intro hb'
          obtain ⟨j, hj, hc, -⟩ := inv.state.pinned b hb'
          exact fresh j hj hc
        rw [free] at refs
        dsimp only
        rw [if_pos rfl, unpinned]
        omega
    · rw [dirty_update_of_ne (by rw [hp])] at hd
      obtain ⟨-, rfl⟩ | ⟨-, -, rfl⟩ := hcases
      · rw [modify_buf_self] at hs hdev hv hpin ⊢
        exact inv.coherent i hi hs hdev hv hpin hd
      · rw [modify_buf_self] at hv
        cases hv
    · obtain ⟨-, rfl⟩ | ⟨-, free, -⟩ := hcases
      · rw [modify_buf_self]
        exact ⟨rfl, rfl, rfl, rfl⟩
      · have := inv.refcnt_pos_of_pinned hi hc' hb'
        omega
    · refine me.change other (fun _ _ => rfl) (by rw [lock]; exact me.lock i) (fun h hh => ?_)
        (fun b' hb' => ?_) (fun e he => ?_) (fun j => ?_) ⟨rfl, rfl⟩ fun w hw => (me.work w hw).cache _ _
      · obtain ⟨hlt, hc, hk⟩ := me.held i h hh
        have used := same p (me.used_of_held (by rw [hh]; rfl))
        exact ⟨hlt, used.caches hc, hk.same used⟩
      · exact (same p (me.used_of_extra hb')).caches (me.extra _ hb').2
      · rcases mem_cons.1 he with rfl | he
        · exact .inr ⟨rfl, hi, caches⟩
        · exact .inl he
      · dsimp only
        rw [count_cons_pair, countP_cons_fst, me.gets j]
        omega

theorem BInv.lockStep (inv : BInv E ls s) {lock : Option ℕ}
    (owner : ∀ q, q ≠ p → (lock = some q ↔ (s.cache.buf i).lock = some q))
    (mine : LocalOk E (s.modifyBuf i fun x => { x with lock := lock }) p ℓ')
    (work : ℓ'.work = (ls p).work) (held : ∀ j, j ≠ i → ℓ'.held j = (ls p).held j)
    (dirty : E.Tracked (s.cache.buf i).blockno → (∃ h, (ls p).held i = some h ∧ h.dirty = true) →
      (∃ h, ℓ'.held i = some h ∧ h.dirty = true) ∨ (s.cache.buf i).blockno ∈ s.pins) :
    BInv E (update ls p ℓ') (s.modifyBuf i fun x => { x with lock := lock }) := by
  have same : ((s.cache.modify i fun x => { x with lock := lock }).buf i).Same (s.cache.buf i) := by
    rw [modify_buf_self]
    exact ⟨rfl, rfl, rfl, rfl⟩
  refine inv.cacheStep (i := i) (g := s.gets) ⟨inv.state.wf.modify fun _ => Iff.rfl,
    fun j hj => modify_buf_of_ne _ _ hj, fun _ _ _ => rfl, fun _ _ => rfl, fun hi => ?_,
    fun q hq => ?_, fun _ _ _ => .inl same, work, held, fun hi hs hdev hv hpin hd => ?_⟩
    (fun _ _ _ _ => same) mine
  · rw [modify_buf_self]
    exact inv.state.refs i hi
  · rw [modify_buf_self]
    exact owner q hq
  · rw [modify_buf_self] at hs hdev hv hpin ⊢
    refine inv.coherent i hi hs hdev hv hpin fun ⟨q, h, hq, hdq⟩ => ?_
    by_cases e : q = p
    · subst e
      rcases dirty hs ⟨h, hq, hdq⟩ with ⟨h', hh', hd'⟩ | pinned
      · exact hd ⟨q, h', by rwa [update_self], hd'⟩
      · exact hpin pinned
    · exact hd ⟨q, h, by rwa [update_of_ne e], hdq⟩

theorem safe_acquiresleep (hk : ℓ.held i = none → BSafe E p (k ()) (ℓ.hold i ⟨b, .unknown, false⟩) Q) :
    BSafe E p (.op (.acquiresleep i) k) { ℓ with extra := (i, b) :: ℓ.extra } Q := by
  intro ls s inv hp
  have me := hp ▸ inv.locals p
  by_cases free : (s.cache.buf i).lock = none
  case neg =>
    simp only [exec, if_neg free]
  case pos =>
    simp only [exec, if_pos free]
    have mineNone : ℓ.held i = none := by
      have := me.lock i
      rw [free] at this
      simpa using this
    refine ⟨_, ?_, hk mineNone⟩
    obtain ⟨hi, caches⟩ := me.extra (i, b) mem_cons_self
    refine inv.lockStep (fun q hq => ?_) ?_ (by rw [hp]; rfl)
      (fun j hj => by rw [hold_of_ne _ _ hj, hp]) (fun _ ⟨h, hh, _⟩ => ?_)
    · rw [free]
      simpa using hq.symm
    · refine me.change (fun j hj => modify_buf_of_ne _ _ hj) (fun j hj => hold_of_ne _ _ hj)
        (by simp) (fun h hh => ?_) (fun b' hb' => ?_) (fun e he => .inl (mem_cons_of_mem _ he))
        (fun j => ?_) ⟨rfl, rfl⟩ fun w hw => (me.work w hw).cache _ _
      · rw [hold_self] at hh
        cases hh
        rw [modify_buf_self]
        exact ⟨hi, caches, trivial⟩
      · rw [modify_buf_self]
        exact (me.extra _ hb').2
      · have := me.gets j
        rw [countP_cons_fst] at this
        refine this.trans ?_
        by_cases hji : j = i
        · subst hji
          rw [hold_self, mineNone, if_pos rfl]
          rfl
        · rw [hold_of_ne _ _ hji, if_neg (Ne.symm hji)]
          rfl
    · rw [hp] at hh
      exact absurd (mineNone.symm.trans hh) (by simp)

theorem LocalOk.rehold (me : LocalOk E s p ℓ) {f : Buf → Buf} {h₀ h : Held}
    (held : ℓ.held i = some h₀) (lock : (f (s.cache.buf i)).lock = (s.cache.buf i).lock)
    (caches : ∀ b, (s.cache.buf i).Caches b → (f (s.cache.buf i)).Caches b)
    (blockno : h.blockno = h₀.blockno) (known : h.known.Ok (f (s.cache.buf i))) :
    LocalOk E (s.modifyBuf i f) p (ℓ.hold i h) := by
  refine me.change (fun j hj => modify_buf_of_ne _ _ hj) (fun j hj => hold_of_ne _ _ hj)
    ?_ (fun h' hh => ?_) (fun b hb => ?_) (fun _ => .inl) (fun j => ?_) ⟨rfl, rfl⟩
    fun w hw => (me.work w hw).cache _ _
  · rw [modify_buf_self, lock, me.lock, held, hold_self]
    simp
  · rw [hold_self] at hh
    cases hh
    obtain ⟨hi, hc, -⟩ := me.held i h₀ held
    rw [modify_buf_self, blockno]
    exact ⟨hi, caches _ hc, known⟩
  · rw [modify_buf_self]
    exact caches _ (me.extra _ hb).2
  · refine (me.gets j).trans ?_
    by_cases hji : j = i
    · subst hji
      rw [hold_self, held]
      rfl
    · rw [hold_of_ne _ _ hji]
      rfl

theorem modifyBuf_id (s : BState) (i : ℕ) : s.modifyBuf i id = s := by
  unfold modifyBuf Bcache.modify
  rw [id, update_eq_self]

theorem LocalOk.relearn (me : LocalOk E s p ℓ) {h₀ h : Held} (held : ℓ.held i = some h₀)
    (blockno : h.blockno = h₀.blockno) (known : h.known.Ok (s.cache.buf i)) :
    LocalOk E s p (ℓ.hold i h) := by
  have mine := me.rehold (f := id) held rfl (fun _ h => h) blockno known
  rwa [modifyBuf_id] at mine

theorem BInv.held_other (inv : BInv E ls s) {i q : ℕ} {h : Held} (held : (ls p).held i = some h)
    (hq : q ≠ p) : (ls q).held i = none := by
  have mine := ((inv.locals p).lock i).2 (by rw [held]; rfl)
  have := (inv.locals q).lock i
  rw [mine, Option.some.injEq] at this
  by_contra hne
  exact hq (this.2 (Option.isSome_iff_ne_none.2 hne)).symm

theorem WorkOk.disk_log {w : Work} (ok : WorkOk E s w) {j : ℕ} (hj : j < w.blocks.length)
    (done : j < w.wrote) : s.disk (E.start + j + 1) = w.new (w.blocks.getD j 0) := by
  rw [ok.disk]
  exact ok.writes.log (fun b hb => (ok.home b hb).2) ok.fits.2 hj (by rwa [ok.wrote])

theorem safe_valid {k : Bool → BProg α} (held : ℓ.held i = some ⟨b, .unknown, false⟩)
    (hvalid : ∀ d, (∀ w, ℓ.work = some w → w.Reads E.start b d) →
      BSafe E p (k true) (ℓ.hold i ⟨b, .data d, false⟩) Q)
    (hinvalid : BSafe E p (k false) (ℓ.hold i ⟨b, .invalid, false⟩) Q) :
    BSafe E p (.op (.valid i) k) ℓ Q := by
  intro ls s inv hp
  have me := hp ▸ inv.locals p
  obtain ⟨hi, hc, -⟩ := me.held i _ held
  have relocal : ∀ kn : Known, kn.Ok (s.cache.buf i) →
      BInv E (update ls p (ℓ.hold i ⟨b, kn, false⟩)) s := by
    intro kn hkn
    refine inv.relocal (me.relearn held rfl hkn) (by rw [hp]; rfl) (fun j ⟨h, hh, hd⟩ => ?_)
    rw [hp] at hh
    by_cases hji : j = i
    · subst hji
      rw [held] at hh
      cases hh
      exact ⟨_, hold_self .., hd⟩
    · exact ⟨h, by rwa [hold_of_ne _ _ hji], hd⟩
  simp only [exec]
  cases hv : (s.cache.buf i).valid with
  | false => exact ⟨_, relocal .invalid hv, hinvalid⟩
  | true =>
    refine ⟨_, relocal (.data (s.cache.buf i).data) ⟨hv, rfl⟩, hvalid _ fun w hw => ?_⟩
    have ok := me.work w hw
    refine ⟨fun hcl hb => ?_, fun j hj done hb => ?_⟩
    · rw [← ok.latest]
      refine (inv.pinned_buf hi hc ?_).2
      rw [pins, ok.blocks, ok.installed, hcl]
      exact hb
    · -- a block of the log is never pinned, and only the commit changes its buffer
      change b = E.start + j + 1 at hb
      have out : ¬ E.Home b := fun home => by
        have := home.2
        have := ok.fits.2
        omega
      have clean : ¬ Dirty ls i := by
        rintro ⟨q, h, hq, hd⟩
        by_cases e : q = p
        · subst e
          rw [hp, held] at hq
          cases hq
          cases hd
        · rw [inv.held_other (p := p) (by rw [hp]; exact held) e] at hq
          cases hq
      have := inv.coherent i hi (.inr (by rwa [hc.2])) hc.1 hv
        (fun mem => out (inv.state.home b (mem_of_mem_drop (hc.2 ▸ mem)))) clean
      rw [this, hc.2]
      change s.disk b = _
      rw [hb, ok.disk_log hj done]

theorem BInv.contentStep (inv : BInv E ls s) {v : ℕ → Block} {f : Buf → Buf} {h₀ h : Held}
    (hp : ls p = ℓ) (held : ℓ.held i = some h₀)
    (keep : (f (s.cache.buf i)).lock = (s.cache.buf i).lock ∧
      (f (s.cache.buf i)).dev = (s.cache.buf i).dev ∧
      (f (s.cache.buf i)).blockno = (s.cache.buf i).blockno ∧
      (f (s.cache.buf i)).refcnt = (s.cache.buf i).refcnt)
    (blockno : h.blockno = h₀.blockno) (known : h.known.Ok (f (s.cache.buf i)))
    (latest : v = s.latest ∨ s.log.committing = false)
    (elsewhere : ∀ b, b ≠ h₀.blockno → v b = s.latest b)
    (pinned : h₀.blockno ∈ s.pins →
      (f (s.cache.buf i)).valid = true ∧ (f (s.cache.buf i)).data = v h₀.blockno)
    (coherent : E.Tracked h₀.blockno → (f (s.cache.buf i)).valid = true → h₀.blockno ∉ s.pins →
      h.dirty = false → (f (s.cache.buf i)).data = s.disk h₀.blockno) :
    BInv E (update ls p (ℓ.hold i h)) { s.modifyBuf i f with latest := v } := by
  subst hp
  have me := inv.locals p
  obtain ⟨hlock, hdev, hblk, href⟩ := keep
  obtain ⟨hi, hc, -⟩ := me.held i h₀ held
  have caches : ∀ b, (s.cache.buf i).Caches b → (f (s.cache.buf i)).Caches b :=
    fun b hb => ⟨hdev.trans hb.1, hblk.trans hb.2⟩
  have back : ∀ b, (f (s.cache.buf i)).Caches b → (s.cache.buf i).Caches b :=
    fun b hb => ⟨hdev.symm.trans hb.1, hblk.symm.trans hb.2⟩
  refine inv.bufStep (i := i) (g := s.gets) ⟨inv.state.wf.modify fun b => ⟨back b, caches b⟩,
    fun j hj => modifyBuf_of_ne _ _ hj, fun _ _ _ => rfl, fun _ _ => rfl, fun _ => ?_,
    fun q _ => ?_, fun q hq _ => .inr ⟨inv.held_other held hq, fun b hb => ?_⟩, rfl,
    fun j hj => hold_of_ne _ _ hj, fun _ hs _ hv hpin hd => ?_⟩
    latest (fun j hj b hb hcj hv hd => ?_) ?_
  · rw [modifyBuf_self, href, hdev, hblk]
    exact inv.state.refs i hi
  · rw [modifyBuf_self, hlock]
  · rw [modifyBuf_self]
    exact caches b hb
  · rw [modifyBuf_self] at hs hv hpin ⊢
    have eq : (f (s.cache.buf i)).blockno = h₀.blockno := hblk.trans hc.2
    rw [eq] at hs hpin ⊢
    refine coherent hs hv hpin ?_
    by_contra hne
    exact hd ⟨p, h, by rw [update_self, hold_self], by simpa using hne⟩
  · by_cases hji : j = i
    · subst hji
      obtain rfl : b = h₀.blockno := hcj.2.symm.trans hc.2
      rw [modifyBuf_self]
      exact ⟨caches _ hcj, pinned hb⟩
    · have hne : b ≠ h₀.blockno := by
        rintro rfl
        exact hji (inv.state.wf.unique j hj i hi _ hcj hc)
      rw [modifyBuf_of_ne _ _ hji, elsewhere b hne]
      exact ⟨hcj, hv, hd⟩
  · have mine := me.rehold (f := f) held hlock caches blockno known
    refine ⟨mine.lock, mine.held, mine.extra, mine.gets, mine.inOp, mine.mine, fun w hw => ?_⟩
    have ok := mine.work w hw
    rcases latest with rfl | idle
    · exact ok
    · have := ok.committing
      rw [show (s.modifyBuf i f).log = s.log from rfl, idle] at this
      cases this

theorem safe_diskRead
    (held : ℓ.held i = some ⟨b, .invalid, false⟩)
    (hk : ∀ d, (∀ w, ℓ.work = some w → w.Reads E.start b d) →
      BSafe E p (k ()) (ℓ.hold i ⟨b, .data d, false⟩) Q) :
    BSafe E p (.op (.diskRead i) k) ℓ Q := by
  intro ls s inv hp
  have me := hp ▸ inv.locals p
  obtain ⟨hi, hc, hinv⟩ := me.held i _ held
  have unpinned : b ∉ s.pins := by
    intro hb
    have := (inv.pinned_buf hi hc hb).1
    rw [hinv] at this
    cases this
  simp only [exec]
  refine ⟨_, ?_, hk (s.disk b) fun w hw => ?_⟩
  rotate_left
  · have ok := me.work w hw
    refine ⟨fun hcl hb => absurd ?_ unpinned, fun j hj done hb => ?_⟩
    · rw [pins, ok.blocks, ok.installed, hcl]
      exact hb
    · rw [hb, ok.disk_log hj done]
  exact inv.contentStep (h := ⟨b, .data (s.disk b), false⟩) (v := s.latest)
    (f := fun x => { x with data := s.disk x.blockno, valid := true }) hp held
    ⟨rfl, rfl, rfl, rfl⟩ rfl ⟨rfl, congrArg s.disk hc.2⟩ (.inl rfl) (fun _ _ => rfl)
    (fun hb => absurd hb unpinned) (fun _ _ _ _ => congrArg s.disk hc.2)

theorem safe_getData {d : Block} {dty : Bool} {k : Block → BProg α}
    (held : ℓ.held i = some ⟨b, .data d, dty⟩) (hk : BSafe E p (k d) ℓ Q) :
    BSafe E p (.op (.getData i) k) ℓ Q := by
  intro ls s inv hp
  have me := hp ▸ inv.locals p
  obtain ⟨-, -, -, hd⟩ := me.held i _ held
  simp only [exec]
  rw [hd]
  exact ⟨ℓ, by rwa [← hp, update_eq_self], hk⟩

theorem safe_holdingsleep {k : Bool → BProg α} (held : (ℓ.held i).isSome = true)
    (hk : BSafe E p (k true) ℓ Q) : BSafe E p (.op (.holdingsleep i) k) ℓ Q := by
  intro ls s inv hp
  have me := hp ▸ inv.locals p
  simp only [exec]
  rw [decide_eq_true ((me.lock i).2 held)]
  exact ⟨ℓ, by rwa [← hp, update_eq_self], hk⟩

theorem safe_setData {d d' : Block} {dty : Bool} (inOp : ℓ.inOp = true)
    (held : ℓ.held i = some ⟨b, .data d, dty⟩)
    (hk : BSafe E p (k ()) (ℓ.hold i ⟨b, .data d', true⟩) Q) :
    BSafe E p (.op (.setData i d') k) ℓ Q := by
  intro ls s inv hp
  have me := hp ▸ inv.locals p
  obtain ⟨hi, hc, hv, -⟩ := me.held i _ held
  have mem : p ∈ s.ops := me.inOp.2 inOp
  have idle : s.log.committing = false := by
    by_contra hne
    rw [inv.state.quiet (by simpa using hne)] at mem
    cases mem
  simp only [exec, if_pos mem]
  refine ⟨_, ?_, hk⟩
  rw [hc.2]
  exact inv.contentStep hp held ⟨rfl, rfl, rfl, rfl⟩ rfl ⟨hv, rfl⟩ (.inr idle)
    (fun b' hb' => update_of_ne hb' ..)
    (fun _ => ⟨hv, (update_self b d' s.latest).symm⟩) (fun _ _ _ h => by cases h)

/-- A store of the commit into a locked buffer: a block of the log, or a home block that gets the
contents it already has in the cache. -/
theorem safe_setData_work {d d' : Block} {dty : Bool} {w : Work} (inOp : ℓ.inOp = false)
    (work : ℓ.work = some w) (held : ℓ.held i = some ⟨b, .data d, dty⟩)
    (content : ¬ E.Home b ∨ d' = w.new b) (hk : BSafe E p (k ()) (ℓ.hold i ⟨b, .data d', true⟩) Q) :
    BSafe E p (.op (.setData i d') k) ℓ Q := by
  intro ls s inv hp
  have me := hp ▸ inv.locals p
  obtain ⟨hi, hc, hv, -⟩ := me.held i _ held
  have mem : p ∉ s.ops := by
    rw [me.inOp, inOp]
    decide
  simp only [exec, if_neg mem]
  refine ⟨_, ?_, hk⟩
  refine inv.contentStep hp held ⟨rfl, rfl, rfl, rfl⟩ rfl ⟨hv, rfl⟩ (.inl rfl) (fun _ _ => rfl)
    (fun hb => ⟨hv, ?_⟩) (fun _ _ _ h => by cases h)
  rcases content with out | rfl
  · exact absurd (inv.state.home b (mem_of_mem_drop hb)) out
  · rw [(me.work w work).latest]

theorem safe_releasesleep {h : Held} (held : ℓ.held i = some h)
    (clean : E.Tracked h.blockno → h.dirty = true → h.blockno ∈ ℓ.mine)
    (hk : BSafe E p (k ()) { ℓ.unhold i with extra := (i, h.blockno) :: ℓ.extra } Q) :
    BSafe E p (.op (.releasesleep i) k) ℓ Q := by
  intro ls s inv hp
  have me := hp ▸ inv.locals p
  obtain ⟨hi, hc, -⟩ := me.held i _ held
  have owned : (s.cache.buf i).lock = some p := (me.lock i).2 (by rw [held]; rfl)
  simp only [exec]
  refine ⟨_, ?_, hk⟩
  refine inv.lockStep (fun q hq => ?_) ?_ (by rw [hp]; rfl) (fun j hj => ?_)
    (fun hs ⟨h', hh', hd'⟩ => .inr ?_)
  · rw [owned]
    simpa using hq.symm
  · refine me.change (fun j hj => modify_buf_of_ne _ _ hj) (fun j hj => unhold_of_ne _ hj)
      (by simp) (fun h' hh => absurd hh (by simp)) (fun b hb => ?_) (fun e he => ?_) (fun j => ?_)
      ⟨rfl, rfl⟩ fun w hw => (me.work w hw).cache _ _
    · rw [modify_buf_self]
      exact (me.extra _ hb).2
    · rcases mem_cons.1 he with rfl | he
      · exact .inr ⟨rfl, hi, by rw [modify_buf_self]; exact hc⟩
      · exact .inl he
    · refine (me.gets j).trans ?_
      dsimp only
      rw [countP_cons_fst]
      by_cases hji : j = i
      · subst hji
        rw [unhold_self, held, if_pos rfl]
        rfl
      · rw [unhold_of_ne _ hji, if_neg (Ne.symm hji)]
        rfl
  · rw [hp]
    exact unhold_of_ne ℓ hj
  · rw [hp, held] at hh'
    cases hh'
    obtain ⟨hin, hb⟩ := me.mine _ (clean (hc.2 ▸ hs) hd')
    have mem : p ∈ s.ops := me.inOp.2 hin
    have idle : s.log.committing = false := by
      by_contra hne
      rw [inv.state.quiet (by simpa using hne)] at mem
      cases mem
    rw [pins, inv.state.notInstalled idle, drop_zero, hc.2]
    exact hb

theorem safe_relse (hk : BSafe E p (k ()) ℓ Q) :
    BSafe E p (.op (.relse i) k) { ℓ with extra := (i, b) :: ℓ.extra } Q := by
  intro ls s inv hp
  have me := hp ▸ inv.locals p
  obtain ⟨hi, -⟩ := me.extra (i, b) mem_cons_self
  have used := me.used_of_extra (e := (i, b)) mem_cons_self
  have mem : (p, i) ∈ s.gets := count_pos_iff.1 used
  simp only [exec]
  refine ⟨ℓ, ?_, hk⟩
  have bufs : ∀ j, ((s.cache.relse i).buf j).Same (s.cache.buf j) ∧
      ((s.cache.relse i).buf j).lock = (s.cache.buf j).lock := by
    intro j
    rw [relse_buf]
    by_cases hji : j = i
    · subst hji
      rw [modify_buf_self]
      exact ⟨⟨rfl, rfl, rfl, rfl⟩, rfl⟩
    · rw [modify_buf_of_ne _ _ hji]
      exact ⟨⟨rfl, rfl, rfl, rfl⟩, rfl⟩
  refine inv.cacheStep (i := i) ⟨inv.state.wf.relse hi, fun j hj => ?_, fun q hq j => ?_,
    fun j hj => ?_, fun _ => ?_, fun q _ => by rw [(bufs i).2], fun _ _ _ => .inl (bufs i).1,
    by rw [hp], fun j _ => by rw [hp], fun _ hs hdev hv hpin hd => ?_⟩
    (fun _ _ _ _ => (bufs i).1) ⟨fun j => ?_, fun j h hj => ?_, fun e he => ?_, fun j => ?_,
      me.inOp, me.mine, fun w hw => (me.work w hw).cache _ _⟩
  · rw [relse_buf, modify_buf_of_ne _ _ hj]
  · exact count_erase_of_ne fun e => hq (congrArg Prod.fst e)
  · rw [countP_erase, if_neg fun h => hj (of_decide_eq_true h.2).symm]
    rfl
  · have refs := inv.state.refs i hi
    have pos : 0 < s.gets.countP fun e => e.2 = i :=
      countP_pos_iff.2 ⟨(p, i), mem, by simp⟩
    rw [(bufs i).1.1, (bufs i).1.2.1, countP_erase, if_pos ⟨mem, by simp⟩,
      relse_buf, modify_buf_self]
    dsimp only
    omega
  · rw [dirty_update_of_ne (by rw [hp])] at hd
    rw [(bufs i).1.1] at hdev
    rw [(bufs i).1.2.2.1] at hv
    rw [(bufs i).1.2.1] at hs hpin
    rw [(bufs i).1.2.1, (bufs i).1.2.2.2]
    exact inv.coherent i hi hs hdev hv hpin hd
  · rw [(bufs j).2]
    exact me.lock j
  · obtain ⟨hlt, hc, hk⟩ := me.held j h hj
    exact ⟨hlt, (bufs j).1.caches hc, hk.same (bufs j).1⟩
  · obtain ⟨hlt, hc⟩ := me.extra e (mem_cons_of_mem _ he)
    exact ⟨hlt, (bufs _).1.caches hc⟩
  · have count := me.gets j
    dsimp only at count
    rw [countP_cons_fst] at count
    by_cases hji : i = j
    · subst hji
      rw [if_pos rfl] at count
      rw [count_erase_self]
      omega
    · rw [if_neg hji, add_zero] at count
      rw [count_erase_of_ne (fun e => hji (congrArg Prod.snd e).symm)]
      exact count

end Xv6
