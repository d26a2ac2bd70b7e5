import Xv6.Virtio.Invariant

/-!
# The steps of the disk driver

Each operation that the protocol allows keeps the invariant.
-/

namespace Xv6.Virtio

open Function List Virtio.Local Option Untouched

variable {s s' : Disk} {ls : ℕ → Local} {ℓ ℓ' : Local} {p b : ℕ} {write : Bool} {c : Chain} {x : Buf}
  {owns : ℕ → Option ℕ} {buf : ℕ → Buf}

theorem proj_same {α : Type} (f : Local → α) (same : f ℓ' = f (ls p)) :
    (fun q => f (update ls p ℓ' q)) = fun q => f (ls q) := by
  funext q
  by_cases hq : q = p
  · rw [hq, update_self, same]
  · rw [update_of_ne hq]

theorem proj_update {α : Type} (f : Local → α) :
    (fun q => f (update ls p ℓ' q)) = update (fun q => f (ls q)) p (f ℓ') := by
  funext q
  by_cases hq : q = p
  · rw [hq, update_self, update_self]
  · rw [update_of_ne hq, update_of_ne hq]

theorem Untouched.refl (ℓ : Local) (s : Disk) : Untouched ℓ s s where
  desc _ _ := rfl
  ops _ _ := rfl
  info _ _ := rfl
  buf _ _ := ⟨rfl, rfl⟩
  request _ _ _ := rfl
  head _ _ := rfl
  published := le_refl _
  completed := le_refl _
  completion _ _ := rfl
  held _ := ⟨rfl, rfl, rfl⟩

namespace Good

section

variable (h : Good ls s)
include h

theorem other {q : ℕ} (keep : Untouched (ls q) s s') : Mine s' (ls q) :=
  (h.mine q).untouched (fun u upper _ => h.rings.completion_lt u upper) keep

theorem mines (mine : Mine s' ℓ') (others : ∀ q, q ≠ p → Untouched (ls q) s s')
    (q : ℕ) : Mine s' (update ls p ℓ' q) := by
  by_cases hq : q = p
  · rw [hq, update_self]
    exact mine
  · rw [update_of_ne hq]
    exact h.other (others q hq)

theorem lock_eq (holds : (ls p).holds = true) : s.vdiskLock = some p :=
  (h.lock p).mpr holds

theorem alone (holds : (ls p).holds = true) {q : ℕ} (ne : q ≠ p) : (ls q).holds = false := by
  cases hq : (ls q).holds with
  | false => rfl
  | true =>
    have both := (h.lock_eq hq).symm.trans (h.lock_eq holds)
    exact absurd (some.inj both) ne

/-! ## What a step leaves alone -/

theorem lock_keep (hp : ls p = ℓ) (same : ℓ'.holds = ℓ.holds) :
    LockOk (fun q => (update ls p ℓ' q).holds) s.vdiskLock := by
  rw [proj_same holds (by rw [hp, same])]
  exact h.lock

theorem bufs_keep (hp : ls p = ℓ) (same : ℓ'.buf = ℓ.buf) :
    BufsOk (fun q => (update ls p ℓ' q).buf) s.buf := by
  rw [proj_same buf (by rw [hp, same])]
  exact h.bufs

theorem descs_keep (hp : ls p = ℓ) (same : ℓ'.descs = ℓ.descs) :
    DescsOk (fun q => (update ls p ℓ' q).descs) s.free := by
  rw [proj_same Local.descs (by rw [hp, same])]
  exact h.descs

theorem waits_keep (hp : ls p = ℓ) (same : ℓ'.ticket = ℓ.ticket) :
    WaitsOk (fun q => (update ls p ℓ' q).ticket) s := by
  rw [proj_same ticket (by rw [hp, same])]
  exact h.waits

theorem waits_other {n : ℕ} (flight : s.InFlight n) (ne : (ls p).ticket ≠ some n) :
    ∃ q, (update ls p ℓ' q).ticket = some n := by
  obtain ⟨q, ticket⟩ := h.waits n flight
  have hq : q ≠ p := fun eq => ne (eq ▸ ticket)
  refine ⟨q, ?_⟩
  rw [update_of_ne hq]
  exact ticket

theorem works_keep (hp : ls p = ℓ) (same : ℓ'.job = ℓ.job) :
    WorksOk fun q => (update ls p ℓ' q).job := by
  rw [proj_same job (by rw [hp, same])]
  exact h.works

theorem index_keep (hp : ls p = ℓ) (same : ℓ'.lags = ℓ.lags) :
    IndexOk (fun q => (update ls p ℓ' q).lags) s.usedIdx s.seen := by
  rw [proj_same lags (by rw [hp, same])]
  exact h.index

end

end Good

/-! ## Locks -/

theorem LockOk.take {holds : ℕ → Bool} (h : LockOk holds none) :
    LockOk (update holds p true) (some p) := by
  intro q
  by_cases hq : q = p
  · rw [hq, update_self]
    exact ⟨fun _ => rfl, fun _ => rfl⟩
  · rw [update_of_ne hq]
    refine ⟨fun eq => absurd (some.inj eq).symm hq, fun holds => ?_⟩
    cases (h q).mpr holds

theorem LockOk.drop {holds : ℕ → Bool} (h : LockOk holds (some p)) :
    LockOk (update holds p false) none := by
  intro q
  by_cases hq : q = p
  · rw [hq, update_self]
    exact ⟨nofun, nofun⟩
  · rw [update_of_ne hq]
    refine ⟨nofun, fun holds => ?_⟩
    exact absurd (some.inj ((h q).mpr holds)).symm hq

/-- Two ghost values that differ at most in the possession of the lock. -/
structure Local.Alike (ℓ ℓ' : Local) : Prop where
  buf : ℓ'.buf = ℓ.buf
  descs : ℓ'.descs = ℓ.descs
  ticket : ℓ'.ticket = ℓ.ticket
  job : ℓ'.job = ℓ.job
  lags : ℓ'.lags = ℓ.lags

namespace Good

theorem ghost (h : Good ls s) {lock : Option ℕ} {asleep : ℕ → Option Chan}
    (locked : LockOk (fun q => (update ls p ℓ' q).holds) lock) (alike : (ls p).Alike ℓ')
    (mine : Mine s ℓ') : Good (update ls p ℓ') { s with vdiskLock := lock, asleep := asleep } where
  lock := locked
  bufs := h.bufs_keep rfl alike.buf
  descs := h.descs_keep rfl alike.descs
  mine := h.mines (mine.untouched (fun u upper _ => h.rings.completion_lt u upper)
    { refl ℓ' s with }) fun q _ => { refl (ls q) s with }
  waits := h.waits_keep rfl alike.ticket
  works := h.works_keep rfl alike.job
  rings := { h.rings with }
  index := h.index_keep rfl alike.lags

theorem learn (h : Good ls s) (holds : ℓ'.holds = (ls p).holds) (alike : (ls p).Alike ℓ')
    (mine : Mine s ℓ') : Good (update ls p ℓ') s :=
  h.ghost (h.lock_keep rfl holds) alike mine

theorem asleep (h : Good ls s) (asleep : ℕ → Option Chan) :
    Good (update ls p (ls p)) { s with asleep := asleep } :=
  h.ghost (h.lock_keep rfl rfl) ⟨rfl, rfl, rfl, rfl, rfl⟩ (h.mine p)

theorem acquire (h : Good ls s) (free : s.vdiskLock = none) (allowed : (ls p).Allows .acquire) :
    Good (update ls p ((ls p).next .acquire ())) { s with vdiskLock := some p } := by
  have locked : LockOk (fun q => (ls q).holds) none := free ▸ h.lock
  have mine := h.mine p
  rcases allowed with hp | ⟨b, hp⟩ | ⟨b, n, c, hp⟩ <;>
    refine h.ghost (by rw [proj_update, hp]; exact locked.take)
      (by rw [hp]; exact ⟨rfl, rfl, rfl, rfl, rfl⟩) ?_
  · rw [hp]
    trivial
  · rw [hp]
    trivial
  · rw [hp] at mine ⊢
    exact mine

theorem release (h : Good ls s) (allowed : (ls p).Allows .release) :
    Good (update ls p ((ls p).next .release ())) { s with vdiskLock := none } := by
  rcases allowed with ⟨b, hp⟩ | hp
  all_goals
    have locked : LockOk (fun q => (ls q).holds) (some p) := h.lock_eq (by rw [hp]; rfl) ▸ h.lock
    refine h.ghost (by rw [proj_update, hp]; exact locked.drop)
      (by rw [hp]; exact ⟨rfl, rfl, rfl, rfl, rfl⟩) ?_
    rw [hp]
    trivial

theorem sleep (h : Good ls s) {chan : Chan} {asleep : ℕ → Option Chan}
    (allowed : (ls p).Allows (.sleep chan)) :
    Good (update ls p ((ls p).next (.sleep chan) ()))
      { s with vdiskLock := none, asleep := asleep } := by
  have mine := h.mine p
  rcases allowed with ⟨b, hp⟩ | ⟨b, n, c, hp⟩
  all_goals
    have locked : LockOk (fun q => (ls q).holds) (some p) := h.lock_eq (by rw [hp]; rfl) ▸ h.lock
    refine h.ghost (by rw [proj_update, hp]; exact locked.drop)
      (by rw [hp]; exact ⟨rfl, rfl, rfl, rfl, rfl⟩) ?_
    rw [hp] at mine ⊢
    exact mine

end Good

/-! ## Buffers -/

namespace Good

theorem setBuf_untouched (h : Good ls s) {q : ℕ} (keep : (s.buf b).lock = some q →
      x.blockno = (s.buf b).blockno ∧ x.disk = (s.buf b).disk) :
    Untouched (ls q) s (s.setBuf b x) :=
  { refl (ls q) s with
    buf := fun b' own => by
      simp only [Disk.setBuf]
      by_cases hb : b' = b
      · rw [hb, update_self]
        exact keep ((h.bufs q b).mpr (hb ▸ own))
      · rw [update_of_ne hb]
        exact ⟨rfl, rfl⟩ }

theorem rebuf (h : Good ls s)
    (bufs : BufsOk (fun q => (update ls p ℓ' q).buf) (update s.buf b x))
    (keep : ∀ q, q ≠ p → (s.buf b).lock = some q →
      x.blockno = (s.buf b).blockno ∧ x.disk = (s.buf b).disk)
    (holds : ℓ'.holds = (ls p).holds) (descs : ℓ'.descs = (ls p).descs)
    (ticket : ℓ'.ticket = (ls p).ticket) (job : ℓ'.job = (ls p).job)
    (lags : ℓ'.lags = (ls p).lags) (mine : Mine (s.setBuf b x) ℓ') :
    Good (update ls p ℓ') (s.setBuf b x) where
  lock := h.lock_keep rfl holds
  bufs := bufs
  descs := h.descs_keep rfl descs
  mine := h.mines mine fun q hq => h.setBuf_untouched (keep q hq)
  waits := h.waits_keep rfl ticket
  works := h.works_keep rfl job
  rings := { h.rings with }
  index := h.index_keep rfl lags

end Good

theorem BufsOk.set (h : BufsOk owns buf)
    (lock : x.lock = (buf b).lock) : BufsOk owns (update buf b x) := by
  intro q b'
  by_cases hb : b' = b
  · rw [hb, update_self, lock]
    exact h q b
  · rw [update_of_ne hb]
    exact h q b'

theorem BufsOk.take (h : BufsOk owns buf) (free : (buf b).lock = none) (idle : owns p = none)
    (lock : x.lock = some p) : BufsOk (update owns p (some b)) (update buf b x) := by
  intro q b'
  have q_ne : owns q ≠ some b := fun own => by
    rw [(h q b).mpr own] at free
    cases free
  have b'_ne : (buf b').lock ≠ some p := fun own => by
    rw [(h p b').mp own] at idle
    cases idle
  by_cases hb : b' = b <;> by_cases hq : q = p
  · rw [hb, hq, update_self, update_self]
    exact ⟨fun _ => rfl, fun _ => lock⟩
  · rw [hb, update_self, update_of_ne hq, lock]
    exact ⟨fun eq => absurd (some.inj eq).symm hq, fun own => absurd own q_ne⟩
  · rw [hq, update_self, update_of_ne hb]
    exact ⟨fun own => absurd own b'_ne, fun eq => absurd (some.inj eq).symm hb⟩
  · rw [update_of_ne hb, update_of_ne hq]
    exact h q b'

theorem BufsOk.drop (h : BufsOk owns buf) (own : owns p = some b) (lock : x.lock = none) :
    BufsOk (update owns p none) (update buf b x) := by
  intro q b'
  have locked := (h p b).mpr own
  by_cases hb : b' = b <;> by_cases hq : q = p
  · rw [hb, hq, update_self, update_self, lock]
    exact ⟨nofun, nofun⟩
  · rw [hb, update_self, update_of_ne hq, lock]
    refine ⟨nofun, fun own' => ?_⟩
    have := (h q b).mpr own'
    rw [locked] at this
    exact absurd (some.inj this).symm hq
  · rw [hq, update_self, update_of_ne hb]
    refine ⟨fun locked' => ?_, nofun⟩
    have := (h p b').mp locked'
    rw [own] at this
    exact absurd (some.inj this).symm hb
  · rw [update_of_ne hb, update_of_ne hq]
    exact h q b'

namespace Good

theorem acquiresleep (h : Good ls s) (free : (s.buf b).lock = none) (hp : ls p = .out) :
    Good (update ls p (.owner b)) (s.setBuf b { s.buf b with lock := some p }) := by
  refine h.rebuf ?_ (fun _ _ _ => ⟨rfl, rfl⟩) (by rw [hp]; rfl) (by rw [hp]; rfl)
    (by rw [hp]; rfl) (by rw [hp]; rfl) (by rw [hp]; rfl) trivial
  rw [proj_update]
  exact h.bufs.take free (by rw [hp]; rfl) rfl

theorem releasesleep (h : Good ls s) (hp : ls p = .owner b) :
    Good (update ls p .out) (s.setBuf b { s.buf b with lock := none }) := by
  refine h.rebuf ?_ (fun _ _ _ => ⟨rfl, rfl⟩) (by rw [hp]; rfl) (by rw [hp]; rfl)
    (by rw [hp]; rfl) (by rw [hp]; rfl) (by rw [hp]; rfl) trivial
  rw [proj_update]
  exact h.bufs.drop (by rw [hp]; rfl) rfl

theorem recycle (h : Good ls s) {blockno : BitVec 32} (free : (s.buf b).lock = none)
    (hp : ls p = .out) : Good (update ls p .out) (s.setBuf b { s.buf b with blockno := blockno }) := by
  refine h.rebuf ?_ (fun q _ own => ?_) (by rw [hp]) (by rw [hp]) (by rw [hp]) (by rw [hp])
    (by rw [hp]) trivial
  · rw [proj_same buf (by rw [hp])]
    exact h.bufs.set rfl
  · rw [free] at own
    cases own

theorem setData (h : Good ls s) {data : Block} (hp : ls p = .owner b) :
    Good (update ls p (.owner b)) (s.setBuf b { s.buf b with data := data }) := by
  refine h.rebuf ?_ (fun _ _ _ => ⟨rfl, rfl⟩) (by rw [hp]) (by rw [hp]) (by rw [hp]) (by rw [hp])
    (by rw [hp]) trivial
  rw [proj_same buf (by rw [hp])]
  exact h.bufs.set rfl

end Good

/-! ## Descriptors -/

namespace DescsOk

variable {owns : ℕ → List ℕ} {free : ℕ → Bool} {i : ℕ} {ds : List ℕ}

theorem take (h : DescsOk owns free) (lt : i < NUM) (hi : free i = true) :
    DescsOk (update owns p (owns p ++ [i])) (update free i false) := by
  have fresh : ∀ q, i ∉ owns q := fun q own => by
    rw [(h.free i lt).mpr ⟨q, own⟩] at hi
    cases hi
  have owner : ∀ q d, d ∈ update owns p (owns p ++ [i]) q ↔
      d ∈ owns q ∨ q = p ∧ d = i := by
    intro q d
    by_cases hq : q = p
    · subst hq
      simp only [update_self, mem_append, mem_singleton, true_and]
    · simp only [update_of_ne hq, hq, false_and, or_false]
  refine ⟨fun q => ?_, fun q d hd => ?_, fun q r d hd hd' => ?_, fun d hd => ?_⟩
  · by_cases hq : q = p
    · rw [hq, update_self]
      exact (h.nodup p).append (nodup_singleton i)
        (disjoint_singleton.mpr (fresh p))
    · rw [update_of_ne hq]
      exact h.nodup q
  · rcases (owner q d).mp hd with own | ⟨-, rfl⟩
    · exact h.lt q d own
    · exact lt
  · rcases (owner q d).mp hd with own | ⟨rfl, rfl⟩ <;>
      rcases (owner r d).mp hd' with own' | ⟨rfl, new⟩
    · exact h.apart q r d own own'
    · exact absurd (new ▸ own) (fresh q)
    · exact absurd own' (fresh r)
    · rfl
  · simp only [owner]
    by_cases hi' : d = i
    · rw [hi', update_self]
      exact ⟨fun _ => ⟨p, .inr ⟨rfl, rfl⟩⟩, fun _ => rfl⟩
    · rw [update_of_ne hi', h.free d hd]
      refine exists_congr fun q => ⟨.inl, fun own => ?_⟩
      exact own.resolve_right fun new => hi' new.2

theorem give (h : DescsOk owns free) (hp : owns p = i :: ds) :
    DescsOk (update owns p ds) (update free i true) := by
  have own : i ∈ owns p := hp ▸ mem_cons_self
  have nodup := h.nodup p
  rw [hp, nodup_cons] at nodup
  have owner : ∀ q d, d ∈ update owns p ds q ↔ d ∈ owns q ∧ d ≠ i := by
    intro q d
    by_cases hq : q = p
    · rw [hq, update_self, hp, mem_cons]
      refine ⟨fun hd => ⟨.inr hd, fun eq => nodup.1 (eq ▸ hd)⟩, fun hd => ?_⟩
      exact hd.1.resolve_left hd.2
    · rw [update_of_ne hq]
      exact ⟨fun hd => ⟨hd, fun eq => hq (h.apart q p i (eq ▸ hd) own)⟩, fun hd => hd.1⟩
  refine ⟨fun q => ?_, fun q d hd => ?_, fun q r d hd hd' => ?_, fun d hd => ?_⟩
  · by_cases hq : q = p
    · rw [hq, update_self]
      exact nodup.2
    · rw [update_of_ne hq]
      exact h.nodup q
  · exact h.lt q d ((owner q d).mp hd).1
  · exact h.apart q r d ((owner q d).mp hd).1 ((owner r d).mp hd').1
  · simp only [owner]
    by_cases hi : d = i
    · rw [hi, update_self]
      exact ⟨nofun, fun ⟨q, _, ne⟩ => absurd rfl ne⟩
    · rw [update_of_ne hi, h.free d hd]
      exact exists_congr fun q => ⟨fun own => ⟨own, hi⟩, fun own => own.1⟩

end DescsOk

namespace Good

theorem allocDesc (h : Good ls s) {i : ℕ} {ds : List ℕ}
    (found : (List.range NUM).find? s.free = some i) (hp : ls p = .alloc b ds) :
    Good (update ls p (.alloc b (ds ++ [i])))
      { s with free := update s.free i false } where
  lock := h.lock_keep hp rfl
  bufs := h.bufs_keep hp rfl
  descs := by
    rw [proj_update]
    have taken := h.descs.take (p := p) (mem_range.mp (mem_of_find?_eq_some found))
      (find?_some found)
    simp only [hp] at taken
    exact taken
  mine := h.mines trivial fun q _ => { refl (ls q) s with }
  waits := h.waits_keep hp rfl
  works := h.works_keep hp rfl
  rings := { h.rings with }
  index := h.index_keep hp rfl

theorem owned (h : Good ls s) {d : ℕ} (own : d ∈ (ls p).descs) : d < NUM ∧ s.free d = false :=
  ⟨h.descs.lt p d own, (h.descs.free d (h.descs.lt p d own)).mpr ⟨p, own⟩⟩

theorem not_owned (h : Good ls s) {d q : ℕ} (own : d ∈ (ls p).descs) (hq : q ≠ p) : d ∉ (ls q).descs :=
  fun own' => hq (h.descs.apart q p d own' own)

theorem freeDesc (h : Good ls s) {i : ℕ} {ds : List ℕ}
    (hp : ls p = .alloc b (i :: ds) ∨ ls p = .freeing b (i :: ds)) :
    Good (update ls p ((ls p).next (.freeDesc i) ()))
      { s.setDesc i ⟨.null, 0, 0, 0⟩ with free := update s.free i true } := by
  have descs : (ls p).descs = i :: ds := by
    rcases hp with hp | hp <;> rw [hp] <;> rfl
  have own : i ∈ (ls p).descs := descs ▸ mem_cons_self
  have nodup : (i :: ds).Nodup := descs ▸ h.descs.nodup p
  have left : ((ls p).next (.freeDesc i) ()).descs = ds := by
    rcases hp with hp | hp <;> rw [hp] <;> rfl
  have mine : Mine { s.setDesc i ⟨.null, 0, 0, 0⟩ with free := update s.free i true }
      ((ls p).next (.freeDesc i) ()) := by
    have before := h.mine p
    rcases hp with hp | hp <;> rw [hp] at before ⊢
    · trivial
    · have tail : Linked s.desc ds := by
        cases ds with
        | nil => trivial
        | cons e ds => exact before.2.2
      refine tail.congr fun d hd => update_of_ne ?_ ..
      rintro rfl
      exact (nodup_cons.mp nodup).1 hd
  refine ⟨?_, ?_, ?_, h.mines mine fun q hq => ?_, ?_, ?_, { h.rings with }, ?_⟩
  · rw [proj_same holds (by rcases hp with hp | hp <;> rw [hp] <;> rfl)]
    exact h.lock
  · rw [proj_same buf (by rcases hp with hp | hp <;> rw [hp] <;> rfl)]
    exact h.bufs
  · rw [proj_update, left]
    exact h.descs.give descs
  · exact { refl (ls q) s with
      desc := fun d hd => by
        have ne : d ≠ i := fun eq => h.not_owned own hq (eq ▸ hd)
        exact update_of_ne ne .. }
  · rw [proj_same ticket (by rcases hp with hp | hp <;> rw [hp] <;> rfl)]
    exact h.waits
  · rw [proj_same job (by rcases hp with hp | hp <;> rw [hp] <;> rfl)]
    exact h.works
  · rw [proj_same lags (by rcases hp with hp | hp <;> rw [hp] <;> rfl)]
    exact h.index

end Good

/-! ## Publishing a request -/

section Format

variable {d : ℕ}

theorem format_desc (hd : d ∉ c.list) : (s.format c b write).desc d = s.desc d := by
  simp only [mem_list, not_or] at hd
  simp [Disk.format, Disk.setDesc, Disk.setInfo, Disk.setBuf, hd.1, hd.2.1, hd.2.2]

theorem format_ops (hd : d ∉ c.list) : (s.format c b write).ops d = s.ops d := by
  simp only [mem_list, not_or] at hd
  simp [Disk.format, Disk.setDesc, Disk.setInfo, Disk.setBuf, hd.1]

theorem format_info (hd : d ∉ c.list) : (s.format c b write).info d = s.info d := by
  simp only [mem_list, not_or] at hd
  simp [Disk.format, Disk.setDesc, Disk.setInfo, Disk.setBuf, hd.1]

theorem format_buf : (s.format c b write).buf = update s.buf b { s.buf b with disk := true } :=
  rfl

theorem format_busy : Busy (s.format c b write) b c.head := by
  refine ⟨?_, ?_⟩
  · simp [Disk.format, Disk.setInfo]
  · rw [format_buf, update_self]

end Format

namespace Good

theorem buf_ne (h : Good ls s) {q b' : ℕ} (own : (ls p).buf = some b) (own' : (ls q).buf = some b')
    (hq : q ≠ p) : b' ≠ b := by
  rintro rfl
  have both := ((h.bufs q b').mpr own').symm.trans ((h.bufs p b').mpr own)
  exact hq (some.inj both)

theorem format (h : Good ls s) (hp : ls p = .alloc b c.list) :
    Good (update ls p (.ready b write c)) (s.format c b write) where
  lock := h.lock_keep hp rfl
  bufs := by
    have keep : BufsOk (fun q => (update ls p (.ready b write c) q).buf) s.buf :=
      h.bufs_keep hp rfl
    exact keep.set rfl
  descs := h.descs_keep hp rfl
  mine := by
    have descs : (ls p).descs = c.list := by rw [hp]; rfl
    have nodup : c.list.Nodup := descs ▸ h.descs.nodup p
    refine h.mines ⟨.format nodup, format_busy⟩ fun q hq => ?_
    have foreign : ∀ d ∈ (ls q).descs, d ∉ c.list := fun d hd own =>
      h.not_owned (descs ▸ own) hq hd
    exact { refl (ls q) s with
      desc := fun d hd => format_desc (foreign d hd)
      ops := fun d hd => format_ops (foreign d hd)
      info := fun d hd => format_info (foreign d hd)
      buf := fun b' own => by
        have ne := h.buf_ne (p := p) (b := b) (by rw [hp]; rfl) own hq
        rw [format_buf, update_of_ne ne]
        exact ⟨rfl, rfl⟩ }
  waits := h.waits_keep hp rfl
  works := h.works_keep hp rfl
  rings := { h.rings with }
  index := h.index_keep hp rfl

end Good

theorem slot_eq (n : ℕ) : (BitVec.ofNat 16 n).toNat % NUM = n % NUM := by
  rw [BitVec.toNat_ofNat]
  exact Nat.mod_mod_of_dvd n (by decide)

namespace Good

theorem availSlot (h : Good ls s) (hp : ls p = .ready b write c) :
    Good (update ls p (.slotted b write c)) (s.availSlot c.head) := by
  have descs : (ls p).descs = c.list := by rw [hp]; rfl
  have own : c.head ∈ (ls p).descs := descs ▸ mem_list.mpr (.inl rfl)
  have slot : s.avail.idx.toNat % NUM = s.published % NUM := by rw [h.rings.availIdx, slot_eq]
  have ready := h.mine p
  rw [hp] at ready
  refine ⟨?_, ?_, ?_, h.mines ⟨⟨?_, ?_⟩, ?_⟩ fun q hq => ?_, ?_, ?_, ?_, ?_⟩
  · exact h.lock_keep hp rfl
  · exact h.bufs_keep hp rfl
  · exact h.descs_keep hp rfl
  · exact ready.1.congr (fun _ _ => rfl) rfl rfl
  · exact ready.2
  · simp only [Disk.availSlot, slot, update_self]
  · exact { refl (ls q) s with
      held := fun holds => by rw [h.alone (by rw [hp]; rfl) hq] at holds; cases holds }
  · exact h.waits_keep hp rfl
  · exact h.works_keep hp rfl
  · refine { h.rings with avail := fun n untaken => ?_ }
    have room := h.avail_room own (by rw [hp]; rfl) untaken
    have lt : n < s.published := untaken.1
    simp only [Disk.availSlot, slot]
    rw [update_of_ne (by simp only [NUM] at room ⊢; omega)]
    exact h.rings.avail n untaken
  · exact h.index_keep hp rfl

theorem availPublish (h : Good ls s) (hp : ls p = .slotted b write c) :
    Good (update ls p (.flying b s.published c true))
      (s.availPublish c.head b write) := by
  have slotted := h.mine p
  rw [hp] at slotted
  obtain ⟨⟨formatted, busy⟩, slot⟩ := slotted
  have new : (s.availPublish c.head b write).request s.published =
      ⟨c.head, b, write, .published, false⟩ := update_self ..
  have old : ∀ n < s.published,
      (s.availPublish c.head b write).request n = s.request n := fun n lt =>
    update_of_ne (ne_of_lt lt) ..
  have cases_lt : ∀ n < s.published + 1, n < s.published ∨ n = s.published := fun n lt => by omega
  refine ⟨?_, ?_, ?_, h.mines ?_ fun q hq => ?_, ?_, ?_, ?_, ?_⟩
  · exact h.lock_keep hp rfl
  · exact h.bufs_keep hp rfl
  · exact h.descs_keep hp rfl
  · refine ⟨?_, Nat.lt_succ_self _, by rw [new], by rw [new], by rw [new], fun _ => busy,
      fun stage => ?_, fun stage => ?_⟩
    · rw [new]
      exact formatted.congr (fun _ _ => rfl) rfl rfl
    · rw [new] at stage
      cases stage
    · rw [new] at stage
      rcases stage with stage | stage <;> cases stage
  · exact { refl (ls q) s with
      request := fun n lt _ => old n lt
      head := fun n lt => by rw [old n lt]
      published := Nat.le_succ _
      held := fun holds => by rw [h.alone (by rw [hp]; rfl) hq] at holds; cases holds }
  · rintro n ⟨lt, returned⟩
    rcases cases_lt n lt with lt | rfl
    · rw [old n lt] at returned
      exact h.waits_other ⟨lt, returned⟩ (by rw [hp]; exact nofun)
    · refine ⟨p, ?_⟩
      simp only [update_self, ticket]
  · exact h.works_keep hp rfl
  · refine { h.rings with
      returned := fun n lt returned => ?_, order := fun m n le lt stage => ?_
      avail := fun n untaken => ?_, availIdx := ?_
      completion_lt := fun u upper => ?_, processed := fun u upper => ?_
      used := fun u lower upper => ?_
      completed := fun n lt stage => ?_ }
    · rcases cases_lt n lt with lt | rfl
      · rw [old n lt] at returned ⊢
        exact h.rings.returned n lt returned
      · rw [new] at returned
        cases returned
    · rcases cases_lt n lt with lt | rfl
      · rw [old m (by omega)] at stage
        rw [old n lt]
        exact h.rings.order m n le lt stage
      · rw [new]
    · obtain ⟨lt, stage⟩ := untaken
      rcases cases_lt n lt with lt | rfl
      · rw [old n lt] at stage ⊢
        exact h.rings.avail n ⟨lt, stage⟩
      · rw [new]
        exact slot
    · change s.avail.idx + 1 = BitVec.ofNat 16 (s.published + 1)
      rw [h.rings.availIdx, BitVec.ofNat_add]
      rfl
    · exact Nat.lt_succ_of_lt (h.rings.completion_lt u upper)
    · have same := old _ (h.rings.completion_lt u (lt_of_lt_of_le upper h.rings.seen_le))
      exact (congrArg Request.stage same).trans (h.rings.processed u upper)
    · have same := old _ (h.rings.completion_lt u upper)
      obtain ⟨stage, ring⟩ := h.rings.used u lower upper
      exact ⟨(congrArg Request.stage same).trans stage, ring.trans (by rw [← same]; rfl)⟩
    · rcases cases_lt n lt with lt | rfl
      · rw [old n lt] at stage
        exact h.rings.completed n lt stage
      · rw [new] at stage
        rcases stage with stage | stage <;> cases stage
  · exact h.index_keep hp rfl

end Good

end Xv6.Virtio
