import Xv6.Virtio.Steps

/-!
# The completion of requests

The work of the device, the interrupt handler and the end of `virtio_disk_rw` keep the invariant.
-/

namespace Xv6.Virtio

open Function Disk

variable {s s' : Disk} {ls : ℕ → Local} {ℓ ℓ' : Local} {p b n : ℕ} {c : Chain} {stage : Stage}

def Stage.open : Stage → Prop
  | .published | .taken | .moved | .marked => True
  | _ => False

theorem Stage.working.open (h : stage.working) : stage.open := by
  cases stage <;> trivial

namespace Good

theorem ticket_unique (h : Good ls s) {q : ℕ} (ticket : (ls p).ticket = some n)
    (ticket' : (ls q).ticket = some n) : q = p := by
  obtain ⟨b, c, -, descs, pending⟩ := (h.mine p).pending ticket
  obtain ⟨b', c', -, descs', pending'⟩ := (h.mine q).pending ticket'
  have own : c.head ∈ (ls p).descs := descs ▸ mem_list.mpr (.inl rfl)
  have own' : c'.head ∈ (ls q).descs := descs' ▸ mem_list.mpr (.inl rfl)
  rw [← pending'.head, pending.head] at own'
  exact h.descs.apart q p c.head own' own

theorem job_stage (h : Good ls s) (job : (ls p).job = some n) :
    n < s.published ∧ (s.request n).stage.working := by
  have mine := h.mine p
  cases hℓ : ls p with
  | device m head stage =>
    rw [hℓ] at job mine
    cases job
    obtain ⟨lt, working, stage, -⟩ := mine
    exact ⟨lt, stage ▸ working⟩
  | _ =>
    rw [hℓ] at job
    cases job

end Good

/-! ## The device -/

/-- A step of the device for request `n`, which reaches the given stage. -/
structure Served (n : ℕ) (stage : Stage) (s s' : Disk) : Prop where
  desc : s'.desc = s.desc
  ops : s'.ops = s.ops
  free : s'.free = s.free
  lock : s'.vdiskLock = s.vdiskLock
  avail : s'.avail = s.avail
  published : s'.published = s.published
  seen : s'.seen = s.seen
  usedIdx : s'.usedIdx = s.usedIdx
  buf : ∀ b, (s'.buf b).blockno = (s.buf b).blockno ∧ (s'.buf b).disk = (s.buf b).disk ∧
    (s'.buf b).lock = (s.buf b).lock
  info : ∀ d, (s'.info d).b = (s.info d).b
  others : ∀ d, d ≠ (s.request n).head → s'.info d = s.info d
  status : stage = .marked ∨ stage = .used → (s'.info (s.request n).head).status = 0
  request : s'.request = update s.request n { s.request n with stage := stage }
  completed : s.completed ≤ s'.completed
  completion : ∀ u < s.completed, s'.completion u = s.completion u

namespace Served

theorem request_self (h : Served n stage s s') :
    s'.request n = { s.request n with stage := stage } := by
  rw [h.request, update_self]

theorem request_of_ne (h : Served n stage s s') {m : ℕ} (hm : m ≠ n) : s'.request m = s.request m := by
  rw [h.request, update_of_ne hm]

theorem head (h : Served n stage s s') (m : ℕ) : (s'.request m).head = (s.request m).head := by
  by_cases hm : m = n
  · rw [hm, h.request_self]
  · rw [h.request_of_ne hm]

theorem returned (h : Served n stage s s') (m : ℕ) :
    (s'.request m).returned = (s.request m).returned := by
  by_cases hm : m = n
  · rw [hm, h.request_self]
  · rw [h.request_of_ne hm]

theorem pending (h : Served n stage s s') (mine : Pending s b n c)
    (before : (s.request n).stage ≠ .processed) (after : stage ≠ .processed) : Pending s' b n c := by
  have req := h.request_self
  obtain ⟨blockno, disk, -⟩ := h.buf b
  obtain ⟨info, busy⟩ := mine.busy before
  refine ⟨?_, h.published ▸ mine.lt, ?_, ?_, ?_, fun _ => ⟨?_, disk.trans busy⟩, ?_, ?_⟩
  · rw [req]
    exact mine.formatted.congr (fun d _ => by rw [h.desc]) (by rw [h.ops]) blockno
  · rw [req]
    exact mine.head
  · rw [req]
    exact mine.buf
  · rw [req]
    exact mine.returned
  · exact (h.info _).trans info
  · rw [req]
    exact fun eq => absurd eq after
  · rw [req, ← mine.head]
    exact h.status

end Served

namespace Good

theorem served_mine (h : Good ls s) (step : Served n stage s s') (lt : n < s.published)
    (before : (s.request n).stage ≠ .processed) (after : stage ≠ .processed) {q : ℕ}
    (hq : (ls q).job ≠ some n) : Mine s' (ls q) := by
  have mine := h.mine q
  by_cases ticket : (ls q).ticket = some n
  · cases hℓ : ls q with
    | flying b m c held =>
      rw [hℓ] at ticket mine
      cases ticket
      exact step.pending mine before after
    | landed b m c =>
      rw [hℓ] at ticket mine
      cases ticket
      exact absurd mine.2 before
    | _ =>
      rw [hℓ] at ticket
      cases ticket
  · have flight : s.InFlight n := h.inFlight lt before
    refine h.other ⟨fun d _ => by rw [step.desc], fun d _ => by rw [step.ops], fun d hd => ?_,
      fun b _ => ⟨(step.buf b).1, (step.buf b).2.1⟩, fun m _ hm => ?_, fun m _ => step.head m,
      le_of_eq step.published.symm, step.completed, step.completion,
      fun _ => ⟨step.avail, step.published, step.seen⟩⟩
    · refine step.others d ?_
      rintro rfl
      exact ticket (h.ticket_of_head flight hd)
    · refine step.request_of_ne ?_
      rintro rfl
      exact hm.elim ticket hq

theorem served (h : Good ls s) (step : Served n stage s s') (lt : n < s.published)
    (before : (s.request n).stage ≠ .processed) (after : stage ≠ .processed) (hp : ls p = ℓ)
    (out : ℓ.holds = false ∧ ℓ.buf = none ∧ ℓ.descs = [] ∧ ℓ.ticket = none ∧ ℓ.lags = false)
    (out' : ℓ'.holds = false ∧ ℓ'.buf = none ∧ ℓ'.descs = [] ∧ ℓ'.ticket = none ∧ ℓ'.lags = false)
    (others : ∀ q, q ≠ p → (ls q).job ≠ some n) (job : ∀ m, ℓ'.job = some m → m = n) (mine : Mine s' ℓ')
    (rings : RingsOk s') : Good (update ls p ℓ') s' where
  lock := by
    rw [step.lock]
    exact h.lock_keep hp (out'.1.trans out.1.symm)
  bufs q b := by
    rw [(step.buf b).2.2]
    exact h.bufs_keep hp (out'.2.1.trans out.2.1.symm) q b
  descs := by
    rw [step.free]
    exact h.descs_keep hp (out'.2.2.1.trans out.2.2.1.symm)
  mine q := by
    by_cases hq : q = p
    · rw [hq, update_self]
      exact mine
    · rw [update_of_ne hq]
      exact h.served_mine step lt before after (others q hq)
  waits m flight := by
    obtain ⟨lt', returned⟩ := flight
    rw [step.published] at lt'
    rw [step.returned] at returned
    exact h.waits_keep hp (out'.2.2.2.1.trans out.2.2.2.1.symm) m ⟨lt', returned⟩
  works q r m hq hr := by
    simp only at hq hr
    by_cases hqp : q = p <;> by_cases hrp : r = p
    · rw [hqp, hrp]
    · rw [hqp, update_self] at hq
      rw [update_of_ne hrp, job m hq] at hr
      exact absurd hr (others r hrp)
    · rw [hrp, update_self] at hr
      rw [update_of_ne hqp, job m hr] at hq
      exact absurd hq (others q hqp)
    · rw [update_of_ne hqp] at hq
      rw [update_of_ne hrp] at hr
      exact h.works q r m hq hr
  rings := rings
  index := by
    rw [step.usedIdx, step.seen]
    exact h.index_keep hp (out'.2.2.2.2.trans out.2.2.2.2.symm)

end Good

theorem RingsOk.served (h : RingsOk s) (step : Served n stage s s') (lt : n < s.published)
    (before : (s.request n).stage.open) (working : stage.working)
    (first : ∀ m < n, (s.request m).stage ≠ .published) (used : s'.used = s.used)
    (completed : s'.completed = s.completed) : RingsOk s' := by
  have self := step.request_self
  have ne : ∀ m < s.published, (s.request m).stage = .used ∨ (s.request m).stage = .processed →
      m ≠ n := by
    rintro m - closed rfl
    rcases closed with closed | closed <;> rw [closed] at before <;> exact before
  have late : ∀ m, (s'.request m).stage = .published → m ≠ n := by
    rintro m fresh rfl
    rw [self] at fresh
    rw [show stage = .published from fresh] at working
    exact working
  refine ⟨fun m lt' returned => ?_, fun m k le lt' fresh => ?_, fun m untaken => ?_, ?_, ?_, ?_,
    fun u upper => ?_, fun u v less upper => ?_, fun u upper => ?_, fun u lower upper => ?_,
    fun m lt' closed => ?_⟩
  · rw [step.returned] at returned
    rw [step.published] at lt'
    have processed := h.returned m lt' returned
    rw [step.request_of_ne (ne m lt' (.inr processed))]
    exact processed
  · have hm := late m fresh
    rw [step.request_of_ne hm] at fresh
    rw [step.published] at lt'
    have hk : k ≠ n := by
      rintro rfl
      exact first m (by omega) fresh
    rw [step.request_of_ne hk]
    exact h.order m k le lt' fresh
  · obtain ⟨lt', fresh⟩ := untaken
    have hm := late m fresh
    rw [step.request_of_ne hm] at fresh ⊢
    rw [step.published] at lt'
    rw [step.avail]
    exact h.avail m ⟨lt', fresh⟩
  · rw [step.avail, step.published]
    exact h.availIdx
  · rw [used, completed]
    exact h.usedIdx
  · rw [step.seen, completed]
    exact h.seen_le
  · rw [completed] at upper
    rw [step.completion u upper, step.published]
    exact h.completion_lt u upper
  · rw [completed] at upper
    rw [step.completion u (by omega), step.completion v upper]
    exact h.completion_ne u v less upper
  · rw [step.seen] at upper
    have old := h.processed u upper
    have inside := lt_of_lt_of_le upper h.seen_le
    have hu := ne _ (h.completion_lt u inside) (.inr old)
    rw [step.completion u inside, step.request_of_ne hu]
    exact old
  · rw [step.seen] at lower
    rw [completed] at upper
    have old := h.used u lower upper
    have hu := ne _ (h.completion_lt u upper) (.inl old.1)
    rw [step.completion u upper, step.request_of_ne hu, used]
    exact old
  · rw [step.published] at lt'
    have hm : m ≠ n := by
      rintro rfl
      rw [self] at closed
      rcases closed with closed | closed <;> rw [show stage = _ from closed] at working <;>
        exact working
    rw [step.request_of_ne hm] at closed
    obtain ⟨u, upper, hu⟩ := h.completed m lt' closed
    exact ⟨u, completed ▸ upper, (step.completion u upper).trans hu⟩

namespace Good

theorem earlier (h : Good ls s) (lt : n < s.published) (taken : (s.request n).stage ≠ .published) :
    ∀ m < n, (s.request m).stage ≠ .published :=
  fun m less fresh => taken (h.rings.order m n (le_of_lt less) lt fresh)

theorem take_head (h : Good ls s) (untaken : s.Untaken n) :
    (s.avail.ring (n % NUM)).toNat = (s.request n).head := by
  rw [h.rings.avail n untaken]
  exact toNat_desc (h.head_lt (h.untaken_inFlight untaken))

theorem take (h : Good ls s) (untaken : s.Untaken n) (first : ∀ m < n, ¬ s.Untaken m)
    (hp : ls p = .out) :
    Good (update ls p (.device n (s.avail.ring (n % NUM)).toNat .taken))
      (s.setStage n .taken) := by
  obtain ⟨lt, fresh⟩ := untaken
  have step : Served n .taken s (s.setStage n .taken) :=
    ⟨rfl, rfl, rfl, rfl, rfl, rfl, rfl, rfl, fun _ => ⟨rfl, rfl, rfl⟩, fun _ => rfl,
      fun _ _ => rfl, (by rintro (eq | eq) <;> cases eq), rfl, le_refl _, fun _ _ => rfl⟩
  refine h.served step lt ?_ nofun hp ⟨rfl, rfl, rfl, rfl, rfl⟩ ⟨rfl, rfl, rfl, rfl, rfl⟩
    (fun q _ job => ?_) ?_ ⟨lt, trivial, ?_, ?_⟩ ?_
  · rw [fresh]
    exact nofun
  · have working := (h.job_stage job).2
    rw [fresh] at working
    exact working
  · rintro m ⟨⟩
    rfl
  · rw [step.request_self]
  · rw [step.head, h.take_head ⟨lt, fresh⟩]
  · refine h.rings.served step lt ?_ trivial (fun m less fresh => ?_) rfl rfl
    · rw [fresh]
      trivial
    · exact first m less ⟨lt_trans less lt, fresh⟩

section Device

variable {head : ℕ}

section

variable (h : Good ls s)
include h

theorem device_mine (hp : ls p = .device n head stage) :
    n < s.published ∧ stage.working ∧ (s.request n).stage = stage ∧ (s.request n).head = head := by
  have mine := h.mine p
  rw [hp] at mine
  exact mine

theorem device_alone (hp : ls p = .device n head stage) (q : ℕ) (hq : q ≠ p) : (ls q).job ≠ some n :=
  fun job => hq (h.works q p n job (by simp only [hp, Local.job]))

theorem device_decode (hp : ls p = .device n head stage) :
    s.decode head =
      some ⟨(s.request n).write, s.sector (s.request n).buf, (s.request n).buf, head⟩ := by
  obtain ⟨lt, working, hstage, hhead⟩ := h.device_mine hp
  have flight : s.InFlight n := h.inFlight lt fun processed => by
    rw [hstage] at processed
    rw [processed] at working
    exact working
  obtain ⟨q, b, c, -, -, descs, pending⟩ := h.waiter flight
  rw [← hhead, pending.head, pending.buf]
  exact pending.formatted.decode fun d hd => h.descs.lt q d (descs.symm ▸ hd)

theorem device_step {stage' : Stage} (step : Served n stage' s s')
    (hp : ls p = .device n head stage) (working' : stage'.working) (used : s'.used = s.used)
    (completed : s'.completed = s.completed) : Good (update ls p (.device n head stage')) s' := by
  obtain ⟨lt, working, hstage, hhead⟩ := h.device_mine hp
  have started : (s.request n).stage ≠ .published := by
    rw [hstage]
    rintro rfl
    exact working
  have opened : (s.request n).stage.open := by
    rw [hstage]
    exact working.open
  refine h.served step lt ?_ ?_ hp ⟨rfl, rfl, rfl, rfl, rfl⟩ ⟨rfl, rfl, rfl, rfl, rfl⟩
    (h.device_alone hp) ?_ ⟨step.published ▸ lt, working', ?_, ?_⟩
    (h.rings.served step lt opened working' (h.earlier lt started) used completed)
  · intro processed
    rw [processed] at opened
    exact opened
  · rintro rfl
    exact working'
  · rintro m ⟨⟩
    rfl
  · rw [step.request_self]
  · rw [step.head, hhead]

theorem transfer {job : Job} (hp : ls p = .device n head .taken) :
    Good (update ls p (.device n head .moved)) ((s.transfer job).setStage n .moved) := by
  have status : Stage.moved = .marked ∨ Stage.moved = .used →
      (s.info (s.request n).head).status = 0 := by
    rintro (eq | eq) <;> cases eq
  cases hw : job.write with
  | true =>
    rw [Disk.transfer, if_pos hw]
    refine h.device_step ?_ hp trivial rfl rfl
    exact ⟨rfl, rfl, rfl, rfl, rfl, rfl, rfl, rfl, fun _ => ⟨rfl, rfl, rfl⟩, fun _ => rfl,
      fun _ _ => rfl, status, rfl, le_refl _, fun _ _ => rfl⟩
  | false =>
    rw [Disk.transfer, if_neg (by rw [hw]; exact nofun)]
    refine h.device_step ?_ hp trivial rfl rfl
    refine ⟨rfl, rfl, rfl, rfl, rfl, rfl, rfl, rfl, fun b => ?_, fun _ => rfl, fun _ _ => rfl,
      status, rfl, le_refl _, fun _ _ => rfl⟩
    by_cases hb : b = job.buf
    · subst hb
      simp only [setStage, setRequest, setBuf, update_self, and_self]
    · simp only [setStage, setRequest, setBuf, update_of_ne hb, and_self]

theorem setStatus (hp : ls p = .device n head .moved) :
    Good (update ls p (.device n head .marked))
      ((s.setInfo head { s.info head with status := 0 }).setStage n .marked) := by
  obtain ⟨-, -, -, hhead⟩ := h.device_mine hp
  refine h.device_step ?_ hp trivial rfl rfl
  refine ⟨rfl, rfl, rfl, rfl, rfl, rfl, rfl, rfl, fun _ => ⟨rfl, rfl, rfl⟩, fun d => ?_,
    fun d hd => ?_, fun _ => ?_, rfl, le_refl _, fun _ _ => rfl⟩
  · by_cases hd : d = head
    · subst hd
      simp only [setStage, setRequest, setInfo, update_self]
    · simp only [setStage, setRequest, setInfo, update_of_ne hd]
  · rw [hhead] at hd
    simp only [setStage, setRequest, setInfo, update_of_ne hd]
  · rw [hhead]
    simp only [setStage, setRequest, setInfo, update_self]

theorem complete_rings (step : Served n .used s (s.complete n head))
    (hp : ls p = .device n head .marked) : RingsOk (s.complete n head) := by
  obtain ⟨lt, working, hstage, hhead⟩ := h.device_mine hp
  have room := h.used_room lt (hstage ▸ working)
  have self := step.request_self
  have started : (s.request n).stage ≠ .published := by
    rw [hstage]
    exact nofun
  have slot : s.used.idx.toNat % NUM = s.completed % NUM := by rw [h.rings.usedIdx, slot_eq]
  have last : (s.complete n head).completion s.completed = n := update_self ..
  have ne : ∀ u < s.completed, s.completion u ≠ n := by
    rintro u upper rfl
    by_cases lower : s.seen ≤ u
    · rw [(h.rings.used u lower upper).1] at hstage
      cases hstage
    · rw [h.rings.processed u (Nat.lt_of_not_le lower)] at hstage
      cases hstage
  have late : ∀ m, ((s.complete n head).request m).stage = .published → m ≠ n := by
    rintro m fresh rfl
    rw [self] at fresh
    cases fresh
  have cases_lt : ∀ u < s.completed + 1, u < s.completed ∨ u = s.completed := fun u lt => by omega
  refine ⟨fun m lt' returned => ?_, fun m k le lt' fresh => ?_, fun m untaken => ?_,
    h.rings.availIdx, ?_, Nat.le_succ_of_le h.rings.seen_le, fun u upper => ?_,
    fun u v less upper => ?_, fun u upper => ?_, fun u lower upper => ?_, fun m lt' closed => ?_⟩
  · rw [step.returned] at returned
    have processed := h.rings.returned m lt' returned
    have hm : m ≠ n := by
      rintro rfl
      rw [hstage] at processed
      cases processed
    rw [step.request_of_ne hm]
    exact processed
  · have hm := late m fresh
    rw [step.request_of_ne hm] at fresh
    have hk : k ≠ n := by
      rintro rfl
      exact h.earlier lt started m (by omega) fresh
    rw [step.request_of_ne hk]
    exact h.rings.order m k le lt' fresh
  · obtain ⟨lt', fresh⟩ := untaken
    have hm := late m fresh
    rw [step.request_of_ne hm] at fresh ⊢
    exact h.rings.avail m ⟨lt', fresh⟩
  · change s.used.idx + 1 = BitVec.ofNat 16 (s.completed + 1)
    rw [h.rings.usedIdx, BitVec.ofNat_add]
    rfl
  · rcases cases_lt u upper with upper | rfl
    · rw [step.completion u upper]
      exact h.rings.completion_lt u upper
    · rw [last]
      exact lt
  · rcases cases_lt v upper with upper | rfl
    · rw [step.completion u (by omega), step.completion v upper]
      exact h.rings.completion_ne u v less upper
    · rw [last, step.completion u less]
      exact ne u less
  · have inside : u < s.completed := lt_of_lt_of_le upper h.rings.seen_le
    rw [step.completion u inside, step.request_of_ne (ne u inside)]
    exact h.rings.processed u upper
  · have lower' : s.seen ≤ u := lower
    rcases cases_lt u upper with upper | rfl
    · have hslot : u % NUM ≠ s.completed % NUM := by
        simp only [NUM] at room ⊢
        omega
      rw [step.completion u upper, step.request_of_ne (ne u upper)]
      obtain ⟨stage, ring⟩ := h.rings.used u lower' upper
      refine ⟨stage, ?_⟩
      simp only [complete, slot, update_of_ne hslot]
      exact ring
    · rw [last, self]
      refine ⟨rfl, ?_⟩
      simp only [complete, slot, update_self, hhead]
  · by_cases hm : m = n
    · exact ⟨s.completed, Nat.lt_succ_self _, hm ▸ last⟩
    · rw [step.request_of_ne hm] at closed
      obtain ⟨u, upper, hu⟩ := h.rings.completed m lt' closed
      exact ⟨u, Nat.lt_succ_of_lt upper, (step.completion u upper).trans hu⟩

theorem complete (hp : ls p = .device n head .marked) :
    Good (update ls p .out) (s.complete n head) := by
  obtain ⟨lt, -, hstage, hhead⟩ := h.device_mine hp
  have unprocessed : (s.request n).stage ≠ .processed := by
    rw [hstage]
    exact nofun
  obtain ⟨q, b, c, -, -, -, pending⟩ := h.waiter (h.inFlight lt unprocessed)
  have step : Served n .used s (s.complete n head) := by
    refine ⟨rfl, rfl, rfl, rfl, rfl, rfl, rfl, rfl, fun _ => ⟨rfl, rfl, rfl⟩, fun _ => rfl,
      fun _ _ => rfl, fun _ => ?_, rfl, Nat.le_succ _, fun u upper => ?_⟩
    · rw [pending.head]
      exact pending.status (.inl hstage)
    · exact update_of_ne (ne_of_lt upper) ..
  exact h.served step lt unprocessed nofun hp ⟨rfl, rfl, rfl, rfl, rfl⟩ ⟨rfl, rfl, rfl, rfl, rfl⟩
    (h.device_alone hp) nofun trivial (h.complete_rings step hp)

end

end Device

end Good

/-! ## The interrupt handler -/

theorem IndexOk.begin {lags : ℕ → Bool} {usedIdx : BitVec 16} {seen : ℕ} (h : IndexOk lags usedIdx seen)
    (settled : ∀ q, lags q = false) : IndexOk (update lags p true) usedIdx (seen + 1) := by
  refine ⟨fun none => ?_, fun _ _ => ?_⟩
  · have := none p
    rw [update_self] at this
    cases this
  · rw [h.1 settled, BitVec.ofNat_add]
    rfl

theorem IndexOk.finish {lags : ℕ → Bool} {usedIdx : BitVec 16} {seen : ℕ}
    (h : IndexOk lags usedIdx seen) (lag : lags p = true) (others : ∀ q, q ≠ p → lags q = false) :
    IndexOk (update lags p false) (usedIdx + 1) seen := by
  refine ⟨fun _ => h.2 p lag, fun q hq => ?_⟩
  by_cases eq : q = p
  · rw [eq, update_self] at hq
    cases hq
  · rw [update_of_ne eq, others q eq] at hq
    cases hq

namespace Good

section

variable (h : Good ls s)
include h

theorem settled (holds : (ls p).holds = true) (lags : (ls p).lags = false) (q : ℕ) :
    (ls q).lags = false := by
  by_cases hq : q = p
  · rw [hq, lags]
  · have free := h.alone holds hq
    cases hℓ : ls q <;> first | rfl | (rw [hℓ] at free; cases free)

theorem usedPending_iff (hp : ls p = .handler) : s.usedIdx ≠ s.used.idx ↔ s.seen < s.completed := by
  have bound := h.used_le
  have le := h.rings.seen_le
  rw [h.index.1 (h.settled (by rw [hp]; rfl) (by rw [hp]; rfl)), h.rings.usedIdx, Ne,
    ← BitVec.toNat_inj, BitVec.toNat_ofNat, BitVec.toNat_ofNat]
  simp only [NUM] at bound
  omega

theorem usedId_eq (hp : ls p = .saw) :
    (s.used.ring (s.usedIdx.toNat % NUM)).toNat = (s.request (s.completion s.seen)).head := by
  have lt : s.seen < s.completed := by
    have mine := h.mine p
    rw [hp] at mine
    exact mine
  have small := h.head_lt (h.used_inFlight (le_refl _) lt)
  rw [h.index.1 (h.settled (by rw [hp]; rfl) (by rw [hp]; rfl)), slot_eq,
    (h.rings.used _ (le_refl _) lt).2]
  exact Nat.mod_eq_of_lt (lt_trans small (by decide))

theorem got {id : ℕ} (hp : ls p = .got id) :
    s.seen < s.completed ∧ ∃ q b c, q ≠ p ∧ (ls q).ticket = some (s.completion s.seen) ∧
      (ls q).buf = some b ∧ c.head = id ∧ Pending s b (s.completion s.seen) c ∧
      s.info id = ⟨some b, 0⟩ := by
  have mine := h.mine p
  rw [hp] at mine
  obtain ⟨lt, rfl⟩ := mine
  have used := (h.rings.used _ (le_refl _) lt).1
  obtain ⟨q, b, c, ticket, buf, -, pending⟩ :=
    h.waiter (h.used_inFlight (le_refl _) lt)
  have busy := pending.busy (by rw [used]; exact nofun)
  have status := pending.status (.inr used)
  refine ⟨lt, q, b, c, ?_, ticket, buf, pending.head.symm, pending, ?_⟩
  · rintro rfl
    rw [hp] at ticket
    cases ticket
  · rw [pending.head]
    cases hi : s.info c.head with
    | mk b' status' =>
      rw [hi] at status
      rw [Busy, hi] at busy
      rw [show b' = some b from busy.1, show status' = 0 from status]

theorem diskDone {id : ℕ} (hp : ls p = .got id) (info : (s.info id).b = some b) :
    Good (update ls p .handled) (s.diskDone b) := by
  obtain ⟨lt, q, b', c, hq, ticket, own, -, pending, hinfo⟩ := h.got hp
  rw [hinfo] at info
  obtain rfl : b' = b := Option.some.inj info
  have used := (h.rings.used _ (le_refl _) lt).1
  have self : (s.diskDone b').request (s.completion s.seen) =
      { s.request (s.completion s.seen) with stage := .processed } := update_self ..
  have other : ∀ m, m ≠ s.completion s.seen → (s.diskDone b').request m = s.request m :=
    fun m hm => update_of_ne hm ..
  have head : ∀ m, ((s.diskDone b').request m).head = (s.request m).head := fun m => by
    by_cases hm : m = s.completion s.seen
    · rw [hm, self]
    · rw [other m hm]
  have returned : ∀ m, ((s.diskDone b').request m).returned = (s.request m).returned := fun m => by
    by_cases hm : m = s.completion s.seen
    · rw [hm, self]
    · rw [other m hm]
  have disk : ∀ x, x ≠ b' → (s.diskDone b').buf x = s.buf x := fun x hx =>
    update_of_ne hx ..
  have bufs : BufsOk (fun r => (update ls p .handled r).buf) s.buf := h.bufs_keep hp rfl
  refine ⟨h.lock_keep hp rfl, bufs.set rfl, h.descs_keep hp rfl, fun r => ?_, fun m flight => ?_,
    h.works_keep hp rfl, ?_, ?_⟩
  · by_cases hr : r = p
    · rw [hr, update_self]
      trivial
    rw [update_of_ne hr]
    by_cases hrq : r = q
    · -- The process that waits for this request.
      subst hrq
      have mine := h.mine r
      cases hℓ : ls r with
      | flying x m c held =>
        rw [hℓ] at ticket own mine
        cases ticket
        cases own
        have blockno : ((s.diskDone b').buf b').blockno = (s.buf b').blockno := by
          simp only [diskDone, setStage, setRequest, setBuf, update_self]
        refine ⟨?_, mine.lt, ?_, ?_, ?_, fun stage => ?_, fun _ => ?_, fun stage => ?_⟩
        · rw [self]
          exact mine.formatted.congr (fun _ _ => rfl) rfl blockno
        · rw [self]
          exact mine.head
        · rw [self]
          exact mine.buf
        · rw [self]
          exact mine.returned
        · rw [self] at stage
          exact absurd rfl stage
        · simp only [diskDone, setStage, setRequest, setBuf, update_self]
        · rw [self] at stage
          rcases stage with stage | stage <;> cases stage
      | landed x m c =>
        rw [hℓ] at ticket mine
        cases ticket
        rw [mine.2] at used
        cases used
      | _ =>
        rw [hℓ] at ticket
        cases ticket
    · refine h.other { Untouched.refl (ls r) s with
        buf := fun x hx => ?_, request := fun m _ hm => other m ?_, head := fun m _ => head m
        held := fun holds => ?_ }
      · rw [disk x (h.buf_ne own hx hrq)]
        exact ⟨rfl, rfl⟩
      · rintro rfl
        rcases hm with hm | hm
        · exact hrq (h.ticket_unique ticket hm)
        · have working := (h.job_stage hm).2
          rw [used] at working
          exact working
      · rw [h.alone (by rw [hp]; rfl) hr] at holds
        cases holds
  · obtain ⟨less, hreturned⟩ := flight
    rw [returned] at hreturned
    exact h.waits_other ⟨less, hreturned⟩ (by rw [hp]; rintro ⟨⟩)
  · have late : ∀ m, ((s.diskDone b').request m).stage = .published → m ≠ s.completion s.seen := by
      rintro m fresh rfl
      rw [self] at fresh
      cases fresh
    have stays : ∀ m, (s.request m).stage = .processed →
        ((s.diskDone b').request m).stage = .processed := fun m processed => by
      by_cases hm : m = s.completion s.seen
      · rw [hm, self]
      · rw [other m hm, processed]
    refine { h.rings with
      returned := fun m less hm => ?_, order := fun m k le less fresh => ?_
      avail := fun m untaken => ?_, seen_le := lt, processed := fun u upper => ?_
      used := fun u lower upper => ?_, completed := fun m less closed => ?_ }
    · rw [returned] at hm
      exact stays m (h.rings.returned m less hm)
    · rw [other m (late m fresh)] at fresh
      have hk : k ≠ s.completion s.seen := by
        rintro rfl
        rw [h.rings.order m _ le less fresh] at used
        cases used
      rw [other k hk]
      exact h.rings.order m k le less fresh
    · obtain ⟨less, fresh⟩ := untaken
      have same := other m (late m fresh)
      rw [same] at fresh ⊢
      exact h.rings.avail m ⟨less, fresh⟩
    · rcases Nat.lt_succ_iff_lt_or_eq.mp upper with upper | rfl
      · exact stays _ (h.rings.processed u upper)
      · exact congrArg Request.stage self
    · have lower' : s.seen < u := lower
      have hu := (h.rings.completion_ne s.seen u lower' upper).symm
      have same := other _ hu
      obtain ⟨stage, ring⟩ := h.rings.used u (le_of_lt lower') upper
      exact ⟨(congrArg Request.stage same).trans stage, ring.trans (by rw [← same]; rfl)⟩
    · by_cases hm : m = s.completion s.seen
      · exact ⟨s.seen, lt, hm.symm⟩
      · rw [other m hm] at closed
        exact h.rings.completed m less closed
  · rw [proj_update]
    exact h.index.begin (h.settled (by rw [hp]; rfl) (by rw [hp]; rfl))

theorem usedAdvance (hp : ls p = .handled) :
    Good (update ls p .handler) { s with usedIdx := s.usedIdx + 1 } where
  lock := h.lock_keep hp rfl
  bufs := h.bufs_keep hp rfl
  descs := h.descs_keep hp rfl
  mine := h.mines trivial fun q _ => { Untouched.refl (ls q) s with }
  waits := h.waits_keep hp rfl
  works := h.works_keep hp rfl
  rings := { h.rings with }
  index := by
    rw [proj_update]
    refine h.index.finish (p := p) (by simp only [hp, Local.lags]) fun q hq => ?_
    have free := h.alone (by rw [hp]; rfl) hq
    cases hℓ : ls q <;> first | rfl | (rw [hℓ] at free; cases free)

/-! ## The end of `virtio_disk_rw` -/

theorem landed (hp : ls p = .flying b n c true) (idle : (s.buf b).disk = false) :
    Mine s (.landed b n c) := by
  have mine := h.mine p
  rw [hp] at mine
  refine ⟨mine, ?_⟩
  by_contra unprocessed
  rw [(mine.busy unprocessed).2] at idle
  cases idle

theorem clearInfo (hp : ls p = .landed b n c) :
    Good (update ls p (.freeing b c.list))
      ((s.setInfo c.head { s.info c.head with b := none }).setRequest n
        { s.request n with returned := true }) := by
  have mine := h.mine p
  rw [hp] at mine
  obtain ⟨pending, processed⟩ := mine
  have descs : (ls p).descs = c.list := by rw [hp]; rfl
  have own : c.head ∈ (ls p).descs := descs ▸ mem_list.mpr (.inl rfl)
  refine ⟨h.lock_keep hp rfl, h.bufs_keep hp rfl, h.descs_keep hp rfl,
    h.mines ?_ fun q hq => ?_, fun m flight => ?_, h.works_keep hp rfl, ?_,
    h.index_keep hp rfl⟩
  · exact pending.formatted.linked fun d hd => h.descs.lt p d (descs.symm ▸ hd)
  · refine { Untouched.refl (ls q) s with
      info := fun d hd => ?_, request := fun m _ hm => ?_, head := fun m _ => ?_ }
    · have ne : d ≠ c.head := fun eq => h.not_owned own hq (eq ▸ hd)
      exact update_of_ne ne ..
    · have ne : m ≠ n := by
        rintro rfl
        rcases hm with hm | hm
        · exact hq (h.ticket_unique (by rw [hp]; rfl) hm)
        · have working := (h.job_stage hm).2
          rw [processed] at working
          exact working
      exact update_of_ne ne ..
    · by_cases hm : m = n
      · rw [hm]
        simp only [setRequest, setInfo, update_self]
      · simp only [setRequest, setInfo, update_of_ne hm]
  · obtain ⟨less, hreturned⟩ := flight
    by_cases hm : m = n
    · rw [hm] at hreturned
      simp only [setRequest, setInfo, update_self] at hreturned
      cases hreturned
    · simp only [setRequest, setInfo, update_of_ne hm] at hreturned
      refine h.waits_other ⟨less, hreturned⟩ ?_
      rw [hp]
      rintro ⟨⟩
      exact hm rfl
  · have same : ∀ m, (update s.request n { s.request n with returned := true } m).stage =
        (s.request m).stage ∧
        (update s.request n { s.request n with returned := true } m).head =
          (s.request m).head := fun m => by
      by_cases hm : m = n
      · rw [hm, update_self]
        exact ⟨rfl, rfl⟩
      · rw [update_of_ne hm]
        exact ⟨rfl, rfl⟩
    refine { h.rings with
      returned := fun m less hm => ?_, order := fun m k le less fresh => ?_
      avail := fun m untaken => ?_, processed := fun u upper => ?_
      used := fun u lower upper => ?_, completed := fun m less closed => ?_ }
    · refine (same m).1.trans ?_
      by_cases hmn : m = n
      · rw [hmn]
        exact processed
      · simp only [setRequest, setInfo, update_of_ne hmn] at hm
        exact h.rings.returned m less hm
    · exact (same k).1.trans (h.rings.order m k le less ((same m).1.symm.trans fresh))
    · obtain ⟨less, fresh⟩ := untaken
      refine (h.rings.avail m ⟨less, (same m).1.symm.trans fresh⟩).trans ?_
      exact congrArg (BitVec.ofNat 16) (same m).2.symm
    · exact (same _).1.trans (h.rings.processed u upper)
    · obtain ⟨stage, ring⟩ := h.rings.used u lower upper
      exact ⟨(same _).1.trans stage, ring.trans (congrArg (BitVec.ofNat 32) (same _).2.symm)⟩
    · refine h.rings.completed m less ?_
      rwa [← (same m).1]

end

end Good

end Xv6.Virtio
