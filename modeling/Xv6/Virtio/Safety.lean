import Xv6.Virtio.Completion

/-!
# The disk driver works

In every run with a device that takes the entries of the avail ring in their order, the descriptors and
the rings are used as they should.  A device that takes them in any order can find that one of them has
been overwritten: the driver bounds the number of requests in flight, and not the distance between them.
-/

namespace Xv6.Virtio

open Virtio.Local

variable {s : Disk} {ls : ℕ → Local} {p : ℕ}

/-! ## The invariant holds in every run -/

/-- Whatever a process of the protocol does keeps the invariant, and it does not panic. -/
theorem Good.keeps : protocol.Keeps (exec true) Good fun _ => False := by
  intro ls s p o h allowed
  have allows : (ls p).Allows o := allowed
  cases o with
  | acquiresleep b =>
    simp only [exec]
    split_ifs with free
    · exact ⟨_, ⟨trivial, rfl⟩, h.acquiresleep free allows⟩
    · trivial
  | releasesleep b => exact ⟨_, ⟨trivial, rfl⟩, h.releasesleep allows⟩
  | recycle b blockno =>
    simp only [exec]
    split_ifs with free
    · exact ⟨_, ⟨trivial, rfl⟩, (show ls p = .out from allows).symm ▸ h.recycle free allows⟩
    · trivial
  | setData b data =>
    exact ⟨_, ⟨trivial, rfl⟩, (show ls p = .owner b from allows).symm ▸ h.setData allows⟩
  | acquire =>
    simp only [exec]
    split_ifs with free
    · exact ⟨_, ⟨trivial, rfl⟩, h.acquire free allows⟩
    · trivial
  | release => exact ⟨_, ⟨trivial, rfl⟩, h.release allows⟩
  | sleep c => exact ⟨_, ⟨trivial, rfl⟩, h.sleep allows⟩
  | resume =>
    simp only [exec]
    split_ifs
    · exact ⟨_, ⟨trivial, rfl⟩, h.asleep s.asleep⟩
    · trivial
  | wakeup c => exact ⟨_, ⟨trivial, rfl⟩, h.asleep _⟩
  | wakeProc q => exact ⟨_, ⟨trivial, rfl⟩, h.asleep _⟩
  | allocDesc =>
    obtain ⟨b, ds, hp⟩ := allows
    simp only [exec]
    split
    · rename_i i found
      refine ⟨_, ⟨trivial, rfl⟩, ?_⟩
      simp only [next, hp]
      exact h.allocDesc found hp
    · refine ⟨_, ⟨trivial, rfl⟩, ?_⟩
      simp only [next, hp]
      exact h.learn (by rw [hp]) (by rw [hp]; exact ⟨rfl, rfl, rfl, rfl, rfl⟩) trivial
  | freeDesc i =>
    obtain ⟨b, ds, hp⟩ := allows
    have own : i ∈ (ls p).descs := by
      rcases hp with hp | hp <;> rw [hp] <;> exact List.mem_cons_self
    obtain ⟨lt, used⟩ := h.owned own
    simp only [exec, if_neg (not_le.mpr lt), used]
    exact ⟨_, ⟨trivial, rfl⟩, h.freeDesc hp⟩
  | readDesc i =>
    obtain ⟨b, ds, hp⟩ := allows
    have linked := h.mine p
    rw [hp] at linked
    refine ⟨_, ⟨fun b' i' ds' hp' => ?_, rfl⟩, h.asleep s.asleep⟩
    rw [hp] at hp'
    cases hp'
    cases ds with
    | nil => exact ⟨linked, nofun⟩
    | cons e ds =>
      refine ⟨linked.1, ?_⟩
      rintro j ⟨⟩
      exact linked.2.1
  | format c b write => exact ⟨_, ⟨trivial, rfl⟩, h.format allows⟩
  | availSlot head =>
    obtain ⟨b, write, c, hp, rfl⟩ := allows
    refine ⟨_, ⟨trivial, rfl⟩, ?_⟩
    simp only [next, hp]
    exact h.availSlot hp
  | availPublish head b write =>
    obtain ⟨c, hp, rfl⟩ := allows
    refine ⟨_, ⟨trivial, rfl⟩, ?_⟩
    simp only [next, hp]
    exact h.availPublish hp
  | disk b =>
    obtain ⟨n, c, hp⟩ := allows
    have mine := h.mine p
    rw [hp] at mine
    refine ⟨_, ⟨trivial, rfl⟩, ?_⟩
    cases hd : (s.buf b).disk with
    | true =>
      simp only [next, hp]
      exact h.learn (by rw [hp]) (by rw [hp]; exact ⟨rfl, rfl, rfl, rfl, rfl⟩) mine
    | false =>
      simp only [next, hp]
      exact h.learn (by rw [hp]; rfl) (by rw [hp]; exact ⟨rfl, rfl, rfl, rfl, rfl⟩)
        (h.landed hp hd)
  | clearInfo head n =>
    obtain ⟨b, c, hp, rfl⟩ := allows
    refine ⟨_, ⟨trivial, rfl⟩, ?_⟩
    simp only [next, hp]
    exact h.clearInfo hp
  | usedPending =>
    have hp : ls p = .handler := allows
    refine ⟨_, ⟨trivial, rfl⟩, ?_⟩
    by_cases pending : s.usedIdx ≠ s.used.idx
    · simp only [next, decide_eq_true pending, if_true]
      exact h.learn (by rw [hp]; rfl) (by rw [hp]; exact ⟨rfl, rfl, rfl, rfl, rfl⟩)
        ((h.usedPending_iff hp).mp pending)
    · simp only [next, decide_eq_false pending]
      exact h.learn (by rw [hp]; rfl) (by rw [hp]; exact ⟨rfl, rfl, rfl, rfl, rfl⟩) trivial
  | usedId =>
    have hp : ls p = .saw := allows
    have mine := h.mine p
    rw [hp] at mine
    exact ⟨_, ⟨trivial, rfl⟩, h.learn (by rw [hp]; rfl)
      (by rw [hp]; exact ⟨rfl, rfl, rfl, rfl, rfl⟩) ⟨mine, h.usedId_eq hp⟩⟩
  | checkStatus id =>
    obtain ⟨_, _, _, _, _, _, _, _, _, info⟩ := h.got allows
    simp only [exec, info, ne_eq, not_true_eq_false, if_false]
    exact ⟨_, ⟨trivial, rfl⟩, h.asleep s.asleep⟩
  | diskDone id =>
    obtain ⟨_, _, b, _, _, _, _, _, _, info⟩ := h.got allows
    simp only [exec, info]
    exact ⟨_, ⟨trivial, rfl⟩, h.diskDone allows (by rw [info])⟩
  | usedAdvance => exact ⟨_, ⟨trivial, rfl⟩, h.usedAdvance allows⟩
  | take n =>
    simp only [exec]
    split_ifs with ready
    · exact ⟨_, ⟨trivial, rfl⟩, h.take ready.1 (ready.2 trivial) allows⟩
    · trivial
  | transfer n head =>
    simp only [exec, h.device_decode allows]
    exact ⟨_, ⟨trivial, rfl⟩, h.transfer allows⟩
  | setStatus n head =>
    simp only [exec, h.device_decode allows]
    exact ⟨_, ⟨trivial, rfl⟩, h.setStatus allows⟩
  | complete n head => exact ⟨_, ⟨trivial, rfl⟩, h.complete allows⟩
  | more => trivial

theorem Good.boot (buf : ℕ → BitVec 32 × Block) (platter : BitVec 64 → Block) :
    Good (fun _ => .out) (boot buf platter) where
  lock _ := ⟨nofun, nofun⟩
  bufs _ _ := ⟨nofun, nofun⟩
  descs := ⟨fun _ => List.nodup_nil, nofun, nofun, fun _ _ => ⟨nofun, fun ⟨_, own⟩ => nomatch own⟩⟩
  mine _ := trivial
  waits n flight := absurd flight.1 (Nat.not_lt_zero n)
  works := nofun
  rings := ⟨fun n lt => absurd lt (Nat.not_lt_zero n), fun _ n _ lt => absurd lt (Nat.not_lt_zero n),
    fun n untaken => absurd untaken.1 (Nat.not_lt_zero n), rfl, rfl, Nat.le_refl _,
    fun u lt => absurd lt (Nat.not_lt_zero u), fun _ v _ lt => absurd lt (Nat.not_lt_zero v),
    fun u lt => absurd lt (Nat.not_lt_zero u), fun u _ lt => absurd lt (Nat.not_lt_zero u),
    fun n lt => absurd lt (Nat.not_lt_zero n)⟩
  index := ⟨fun _ => rfl, nofun⟩

variable {buf : ℕ → BitVec 32 × Block} {platter : BitVec 64 → Block} {c : Conf VSig Disk}

theorem Runs.obeys (run : Runs true buf platter c) : c.Obeys protocol Good fun ℓ => ℓ = .out := by
  have start : Conf.Obeys protocol Good (fun ℓ => ℓ = .out) ⟨boot buf platter, fun _ => none⟩ :=
    ⟨fun _ => .out, .boot buf platter, fun _ => rfl⟩
  refine start.reachable Good.keeps ?_ run
  rintro ls s p body good idle ⟨a, rfl⟩
  exact ⟨.out, by rw [← idle, Function.update_eq_self]; exact good, a.follows⟩

/-! ## Descriptors, rings and completions -/

def Disk.chainOf (s : Disk) (n : ℕ) : Chain := s.chain (s.request n).head

/-- What the driver guarantees. -/
structure Sound (c : Conf VSig Disk) : Prop where
  /-- A request in flight has three different descriptors. -/
  three : ∀ n, c.state.InFlight n → (c.state.chainOf n).list.Nodup
  /-- Two requests share none. -/
  apart : ∀ m n, c.state.InFlight m → c.state.InFlight n → m ≠ n →
    ∀ d ∈ (c.state.chainOf m).list, d ∉ (c.state.chainOf n).list
  /-- The descriptors of requests in flight are not free. -/
  taken : ∀ n, c.state.InFlight n → ∀ d ∈ (c.state.chainOf n).list,
    d < NUM ∧ c.state.free d = false
  /-- No others are marked as not free, except while the driver changes them under its lock. -/
  exactly : c.state.vdiskLock = none → ∀ d < NUM, c.state.free d = false →
    ∃ n, c.state.InFlight n ∧ d ∈ (c.state.chainOf n).list
  /-- The slot that is going to be written is not one that the device still has to read. -/
  slot : ∀ p head k, c.prog p = some (.op (.availSlot head) k) → ∀ n, c.state.Untaken n →
    n % NUM ≠ c.state.avail.idx.toNat % NUM
  /-- Until the device takes a request, its head is in the avail ring. -/
  ring : ∀ n, c.state.Untaken n →
    c.state.avail.ring (n % NUM) = BitVec.ofNat 16 (c.state.request n).head
  /-- Every completion that is processed has its buffer. -/
  info : ∀ p id k, c.prog p = some (.op (.diskDone id) k) → (c.state.info id).b ≠ none
  /-- Nothing panics. -/
  calm : ∀ e, ¬ Conf.Panics (exec true) c e
  /-- `virtio_disk_rw` stops waiting for a request only after the device has completed it. -/
  returned : ∀ n < c.state.published, (c.state.request n).returned = true →
    ∃ u < c.state.completed, c.state.completion u = n

namespace Good

theorem chainOf (h : Good ls s) {n : ℕ} (flight : s.InFlight n) :
    ∃ q, (ls q).ticket = some n ∧ (ls q).descs = (s.chainOf n).list := by
  obtain ⟨q, b, c, ticket, -, descs, pending⟩ := h.waiter flight
  refine ⟨q, ticket, ?_⟩
  rw [Disk.chainOf, pending.head, pending.formatted.chain fun d hd => ?_, descs]
  exact h.descs.lt q d (descs.symm ▸ hd)

theorem waiting (h : Good ls s) {d : ℕ} (own : d ∈ (ls p).descs) (free : (ls p).holds = false) :
    ∃ n, s.InFlight n ∧ (ls p).ticket = some n := by
  have mine := h.mine p
  cases hℓ : ls p with
  | flying b n c held =>
    rw [hℓ] at mine
    exact ⟨n, ⟨mine.lt, mine.returned⟩, rfl⟩
  | out | owner | device =>
    rw [hℓ] at own
    cases own
  | _ =>
    rw [hℓ] at free
    cases free

end Good

/-- The driver is sound in every interleaving of processes, interrupt handlers and a device that takes
the entries of the avail ring in their order. -/
theorem disk_driver (run : Runs true buf platter c) : Sound c := by
  obtain ⟨ls, good, follows⟩ := run.obeys
  have allows : ∀ p o k, c.prog p = some (.op o k) → (ls p).Allows o := by
    intro p o k running
    have := follows p
    rw [running] at this
    exact this.1
  refine ⟨fun n flight => ?_, fun m n hm hn ne d own own' => ?_, fun n flight d own => ?_,
    fun free d lt used => ?_, fun p head k running n untaken => ?_, good.rings.avail,
    fun p id k running => ?_, fun e panics => ?_, fun n lt returned => ?_⟩
  · obtain ⟨q, -, descs⟩ := good.chainOf flight
    exact descs ▸ good.descs.nodup q
  · obtain ⟨q, ticket, descs⟩ := good.chainOf hm
    obtain ⟨r, ticket', descs'⟩ := good.chainOf hn
    obtain rfl := good.descs.apart q r d (descs.symm ▸ own) (descs'.symm ▸ own')
    exact ne (Option.some.inj (ticket.symm.trans ticket'))
  · obtain ⟨q, -, descs⟩ := good.chainOf flight
    exact good.owned (descs.symm ▸ own)
  · obtain ⟨q, own⟩ := (good.descs.free d lt).mp used
    have idle : (ls q).holds = false := by
      cases hq : (ls q).holds with
      | false => rfl
      | true =>
        rw [good.lock_eq hq] at free
        cases free
    obtain ⟨n, flight, ticket⟩ := good.waiting own idle
    obtain ⟨r, ticket', descs⟩ := good.chainOf flight
    obtain rfl := good.ticket_unique ticket ticket'
    exact ⟨n, flight, descs ▸ own⟩
  · obtain ⟨b, write, chain, hp, -⟩ := allows p _ k running
    have own : chain.head ∈ (ls p).descs := by
      rw [hp]
      exact mem_list.mpr (.inl rfl)
    have room := good.avail_room own (by rw [hp]; rfl) untaken
    have lt : n < c.state.published := untaken.1
    rw [good.rings.availIdx, slot_eq]
    simp only [NUM] at room ⊢
    omega
  · obtain ⟨_, _, b, _, _, _, _, _, _, info⟩ := good.got (allows p _ k running)
    rw [info]
    exact nofun
  · exact (run.obeys.inv Good.keeps).panics panics
  · exact good.rings.completed n lt (.inr (good.rings.returned n lt returned))

/-! ## Two runs -/

/-- Process 1 reads a block, which is request `n`, with the help of the device and of the interrupt
handler. -/
def readScene (n : ℕ) : List (Conf.Move Act) :=
  [.start 1 (.session 2 1 [.rw false]), .run 1 10, .start 2 (.serve n), .run 2 5,
    .start 3 (.intr 2), .run 3 10, .run 1 20]

theorem Act.enter_start (p : ℕ) (s : Disk) (a : Act) (body : VProg Unit)
    (enter : some a.prog = some body) : Start p s body :=
  ⟨a, (Option.some.inj enter).symm⟩

theorem disk_driver_readScene :
    ∃ c, Runs true (fun _ => (0, fun _ => 0)) (fun _ => fun _ => 0) c ∧
      c.state.completed = 1 ∧ (c.state.request 0).returned = true ∧ Sound c := by
  obtain ⟨c, run, completed, returned⟩ : ∃ c, Runs true (fun _ => (0, fun _ => 0))
      (fun _ => fun _ => 0) c ∧ c.state.completed = 1 ∧ (c.state.request 0).returned = true :=
    Conf.Reachable.reaches (fun _ _ a => some a.prog) Act.enter_start (readScene 0)
      (by decide)
  exact ⟨c, run, completed, returned, disk_driver run⟩

/-- The device leaves the first request where it is while seven others come and go. -/
def overtaken : List (Conf.Move Act) :=
  [.start 0 (.session 2 0 [.rw false]), .run 0 10] ++
    (List.range 7).flatMap (fun i => readScene (i + 1)) ++
    [.start 1 (.session 2 1 [.rw false]), .run 1 7]

/-- A device that takes the entries in any order finds that the entry of the first request has been
overwritten. -/
theorem avail_overwritten :
    ∃ c, Runs false (fun _ => (0, fun _ => 0)) (fun _ => fun _ => 0) c ∧ c.state.Untaken 0 ∧
      c.state.avail.ring (0 % NUM) ≠ BitVec.ofNat 16 (c.state.request 0).head :=
  Conf.Reachable.reaches (fun _ _ a => some a.prog) Act.enter_start overtaken
    (by set_option maxRecDepth 2000 in decide)

end Xv6.Virtio
