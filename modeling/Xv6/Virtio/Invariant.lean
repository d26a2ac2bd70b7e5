import Xv6.Virtio.Protocol
import Mathlib.Order.Interval.Finset.Nat

/-!
# The invariant of the disk driver

Every descriptor that is not free belongs to one process; a process that waits for a request owns the
three descriptors of its chain.  At most `NUM` requests are therefore in flight, which is why the rings
never overtake themselves.
-/

namespace Xv6.Virtio

open List

variable {s s' : Disk} {ls : ℕ → Local} {ℓ ℓ' : Local} {p b n : ℕ} {write : Bool} {c : Chain}

/-! ## Chains -/

/-- The descriptors lead to each other, and the last one leads nowhere. -/
def Linked (desc : ℕ → VirtqDesc) : List ℕ → Prop
  | [] => True
  | [d] => hasNext (desc d).flags = false
  | d :: e :: ds =>
      hasNext (desc d).flags = true ∧ (desc d).next.toNat = e ∧ Linked desc (e :: ds)

theorem Linked.congr {desc desc' : ℕ → VirtqDesc} {ds : List ℕ} (h : Linked desc ds)
    (same : ∀ d ∈ ds, desc' d = desc d) : Linked desc' ds := by
  induction ds with
  | nil => trivial
  | cons d ds ih =>
    have first := same d mem_cons_self
    cases ds with
    | nil =>
      rw [Linked, first]
      exact h
    | cons e ds =>
      rw [Linked, first]
      exact ⟨h.1, h.2.1, ih h.2.2 fun e he => same e (mem_cons_of_mem _ he)⟩

abbrev dataFlags (write : Bool) : BitVec 16 :=
  (if write then 0 else VRING_DESC_F_WRITE) ||| VRING_DESC_F_NEXT

@[simp] theorem hasNext_next : hasNext VRING_DESC_F_NEXT = true := by decide

@[simp] theorem hasWrite_next : hasWrite VRING_DESC_F_NEXT = false := by decide

@[simp] theorem hasNext_write : hasNext VRING_DESC_F_WRITE = false := by decide

@[simp] theorem hasWrite_write : hasWrite VRING_DESC_F_WRITE = true := by decide

@[simp] theorem hasNext_data : hasNext (dataFlags write) = true := by
  cases write <;> decide

@[simp] theorem hasWrite_data : hasWrite (dataFlags write) = !write := by
  cases write <;> decide

/-- The chain asks the device to read or write the block in buffer `b`. -/
structure Formatted (s : Disk) (b : ℕ) (write : Bool) (c : Chain) : Prop where
  head : s.desc c.head = ⟨.op c.head, 16, VRING_DESC_F_NEXT, BitVec.ofNat 16 c.data⟩
  data : s.desc c.data = ⟨.data b, BSIZE, dataFlags write, BitVec.ofNat 16 c.status⟩
  status : s.desc c.status = ⟨.status c.head, 1, VRING_DESC_F_WRITE, 0⟩
  req : s.ops c.head = ⟨if write then VIRTIO_BLK_T_OUT else VIRTIO_BLK_T_IN, 0, s.sector b⟩

theorem mem_list {d : ℕ} : d ∈ c.list ↔ d = c.head ∨ d = c.data ∨ d = c.status := by
  simp only [Chain.list, mem_cons, not_mem_nil, or_false]

theorem toNat_desc {d : ℕ} (hd : d < NUM) : (BitVec.ofNat 16 d).toNat = d :=
  Nat.mod_eq_of_lt (lt_trans hd (by decide))

namespace Formatted

theorem linked (h : Formatted s b write c) (small : ∀ d ∈ c.list, d < NUM) : Linked s.desc c.list := by
  refine ⟨?_, ?_, ?_, ?_, ?_⟩
  · rw [h.head, hasNext_next]
  · rw [h.head]
    exact toNat_desc (small _ (mem_list.mpr (.inr (.inl rfl))))
  · rw [h.data, hasNext_data]
  · rw [h.data]
    exact toNat_desc (small _ (mem_list.mpr (.inr (.inr rfl))))
  · rw [Linked, h.status, hasNext_write]

theorem chain (h : Formatted s b write c) (small : ∀ d ∈ c.list, d < NUM) : s.chain c.head = c := by
  obtain ⟨-, second, -, third, -⟩ := h.linked small
  rw [Disk.chain, second, third]

theorem decode (h : Formatted s b write c) (small : ∀ d ∈ c.list, d < NUM) :
    s.decode c.head = some ⟨write, s.sector b, b, c.head⟩ := by
  rw [Disk.decode, h.chain small]
  simp only [h.head, h.data, h.status, h.req, hasNext_next, hasWrite_next, hasNext_write,
    hasWrite_write, hasNext_data, hasWrite_data]
  cases write <;> rfl

theorem congr (h : Formatted s b write c) (desc : ∀ d ∈ c.list, s'.desc d = s.desc d)
    (ops : s'.ops c.head = s.ops c.head) (buf : (s'.buf b).blockno = (s.buf b).blockno) :
    Formatted s' b write c where
  head := (desc _ (mem_list.mpr (.inl rfl))).trans h.head
  data := (desc _ (mem_list.mpr (.inr (.inl rfl)))).trans h.data
  status := (desc _ (mem_list.mpr (.inr (.inr rfl)))).trans h.status
  req := by rw [ops, h.req, Disk.sector, Disk.sector, buf]

theorem format (nodup : c.list.Nodup) : Formatted (s.format c b write) b write c := by
  simp only [Chain.list, nodup_cons, mem_cons, not_mem_nil, or_false, not_or,
    not_false_eq_true, nodup_nil, and_true] at nodup
  obtain ⟨⟨first, second⟩, third⟩ := nodup
  refine ⟨?_, ?_, ?_, ?_⟩
  · simp [Disk.format, Disk.setDesc, Disk.setInfo, Disk.setBuf, first, second]
  · simp [Disk.format, Disk.setDesc, Disk.setInfo, Disk.setBuf, third, dataFlags]
  · simp [Disk.format, Disk.setDesc, Disk.setInfo, Disk.setBuf]
  · simp [Disk.format, Disk.setDesc, Disk.setInfo, Disk.setBuf, Disk.sector]

end Formatted

/-! ## One process -/

def Busy (s : Disk) (b head : ℕ) : Prop := (s.info head).b = some b ∧ (s.buf b).disk = true

/-- Request `n` for buffer `b` is in flight. -/
structure Pending (s : Disk) (b n : ℕ) (c : Chain) : Prop where
  formatted : Formatted s b (s.request n).write c
  lt : n < s.published
  head : (s.request n).head = c.head
  buf : (s.request n).buf = b
  returned : (s.request n).returned = false
  busy : (s.request n).stage ≠ .processed → Busy s b c.head
  idle : (s.request n).stage = .processed → (s.buf b).disk = false
  status : (s.request n).stage = .marked ∨ (s.request n).stage = .used →
    (s.info c.head).status = 0

def Stage.working : Stage → Prop
  | .taken | .moved | .marked => True
  | _ => False

def Mine (s : Disk) : Local → Prop
  | .ready b write c => Formatted s b write c ∧ Busy s b c.head
  | .slotted b write c => (Formatted s b write c ∧ Busy s b c.head) ∧
      s.avail.ring (s.published % NUM) = BitVec.ofNat 16 c.head
  | .flying b n c _ => Pending s b n c
  | .landed b n c => Pending s b n c ∧ (s.request n).stage = .processed
  | .freeing _ ds => Linked s.desc ds
  | .saw => s.seen < s.completed
  | .got id => s.seen < s.completed ∧ id = (s.request (s.completion s.seen)).head
  | .device n head stage => n < s.published ∧ stage.working ∧ (s.request n).stage = stage ∧
      (s.request n).head = head
  | .out | .owner _ | .alloc .. | .handler | .handled => True

theorem Mine.pending (h : Mine s ℓ) (ticket : ℓ.ticket = some n) :
    ∃ b c, ℓ.buf = some b ∧ ℓ.descs = c.list ∧ Pending s b n c := by
  cases ℓ with
  | flying b m c held =>
    cases ticket
    exact ⟨b, c, rfl, rfl, h⟩
  | landed b m c =>
    cases ticket
    exact ⟨b, c, rfl, rfl, h.1⟩
  | _ => cases ticket

/-- What the other processes leave alone for a process with the ghost value `ℓ`. -/
structure Untouched (ℓ : Local) (s s' : Disk) : Prop where
  desc : ∀ d ∈ ℓ.descs, s'.desc d = s.desc d
  ops : ∀ d ∈ ℓ.descs, s'.ops d = s.ops d
  info : ∀ d ∈ ℓ.descs, s'.info d = s.info d
  buf : ∀ b, ℓ.buf = some b →
    (s'.buf b).blockno = (s.buf b).blockno ∧ (s'.buf b).disk = (s.buf b).disk
  request : ∀ n < s.published, (ℓ.ticket = some n ∨ ℓ.job = some n) → s'.request n = s.request n
  head : ∀ n < s.published, (s'.request n).head = (s.request n).head
  published : s.published ≤ s'.published
  completed : s.completed ≤ s'.completed
  completion : ∀ u < s.completed, s'.completion u = s.completion u
  held : ℓ.holds = true →
    s'.avail = s.avail ∧ s'.published = s.published ∧ s'.seen = s.seen

theorem Busy.congr {head : ℕ} (h : Busy s b head) (info : s'.info head = s.info head)
    (buf : (s'.buf b).disk = (s.buf b).disk) : Busy s' b head := by
  rw [Busy, info, buf]
  exact h

theorem Pending.untouched (h : Pending s b n c) (keep : Untouched ℓ s s') (buf : ℓ.buf = some b)
    (descs : ℓ.descs = c.list) (ticket : ℓ.ticket = some n) : Pending s' b n c := by
  have req := keep.request n h.lt (.inl ticket)
  have head : c.head ∈ ℓ.descs := descs ▸ mem_list.mpr (.inl rfl)
  obtain ⟨blockno, disk⟩ := keep.buf b buf
  have info := keep.info _ head
  refine ⟨?_, lt_of_lt_of_le h.lt keep.published, ?_, ?_, ?_, ?_, ?_, ?_⟩
  · rw [req]
    exact h.formatted.congr (descs ▸ keep.desc) (keep.ops _ head) blockno
  · rw [req]
    exact h.head
  · rw [req]
    exact h.buf
  · rw [req]
    exact h.returned
  · rw [req]
    exact fun unprocessed => (h.busy unprocessed).congr info disk
  · rw [req, disk]
    exact h.idle
  · rw [req, info]
    exact h.status

theorem Mine.untouched (past : ∀ u < s.completed, s.seen ≤ u → s.completion u < s.published)
    (h : Mine s ℓ) (keep : Untouched ℓ s s') : Mine s' ℓ := by
  cases ℓ with
  | out | owner | alloc | handler | handled => trivial
  | ready b write c =>
    have head : c.head ∈ c.list := mem_list.mpr (.inl rfl)
    obtain ⟨blockno, disk⟩ := keep.buf b rfl
    exact ⟨h.1.congr keep.desc (keep.ops _ head) blockno, h.2.congr (keep.info _ head) disk⟩
  | slotted b write c =>
    have head : c.head ∈ c.list := mem_list.mpr (.inl rfl)
    obtain ⟨blockno, disk⟩ := keep.buf b rfl
    obtain ⟨avail, published, -⟩ := keep.held rfl
    refine ⟨⟨h.1.1.congr keep.desc (keep.ops _ head) blockno,
      h.1.2.congr (keep.info _ head) disk⟩, ?_⟩
    rw [avail, published]
    exact h.2
  | flying b n c held => exact Pending.untouched h keep rfl rfl rfl
  | landed b n c =>
    refine ⟨h.1.untouched keep rfl rfl rfl, ?_⟩
    rw [keep.request n h.1.lt (.inl rfl)]
    exact h.2
  | freeing b ds => exact Linked.congr h keep.desc
  | saw =>
    obtain ⟨-, -, seen⟩ := keep.held rfl
    rw [Mine, seen]
    exact lt_of_lt_of_le h keep.completed
  | got id =>
    obtain ⟨-, -, seen⟩ := keep.held rfl
    have lt : s.seen < s.completed := h.1
    rw [Mine, seen, keep.completion _ lt, keep.head _ (past _ lt (le_refl _))]
    exact ⟨lt_of_lt_of_le lt keep.completed, h.2⟩
  | device n head stage =>
    obtain ⟨lt, working, hstage, hhead⟩ := h
    rw [Mine, keep.request n lt (.inr rfl)]
    exact ⟨lt_of_lt_of_le lt keep.published, working, hstage, hhead⟩

/-! ## All processes -/

def LockOk (holds : ℕ → Bool) (lock : Option ℕ) : Prop := ∀ q, lock = some q ↔ holds q = true

def BufsOk (owns : ℕ → Option ℕ) (buf : ℕ → Buf) : Prop :=
  ∀ q b, (buf b).lock = some q ↔ owns q = some b

/-- A descriptor is free or has one owner. -/
structure DescsOk (owns : ℕ → List ℕ) (free : ℕ → Bool) : Prop where
  nodup : ∀ q, (owns q).Nodup
  lt : ∀ q, ∀ d ∈ owns q, d < NUM
  apart : ∀ q r d, d ∈ owns q → d ∈ owns r → q = r
  free : ∀ d < NUM, free d = false ↔ ∃ q, d ∈ owns q

/-- The two rings and what has happened so far. -/
structure RingsOk (s : Disk) : Prop where
  returned : ∀ n < s.published, (s.request n).returned = true → (s.request n).stage = .processed
  order : ∀ m n, m ≤ n → n < s.published → (s.request m).stage = .published →
    (s.request n).stage = .published
  avail : ∀ n, s.Untaken n → s.avail.ring (n % NUM) = BitVec.ofNat 16 (s.request n).head
  availIdx : s.avail.idx = BitVec.ofNat 16 s.published
  usedIdx : s.used.idx = BitVec.ofNat 16 s.completed
  seen_le : s.seen ≤ s.completed
  completion_lt : ∀ u < s.completed, s.completion u < s.published
  completion_ne : ∀ u v, u < v → v < s.completed → s.completion u ≠ s.completion v
  processed : ∀ u < s.seen, (s.request (s.completion u)).stage = .processed
  used : ∀ u, s.seen ≤ u → u < s.completed → (s.request (s.completion u)).stage = .used ∧
    s.used.ring (u % NUM) = BitVec.ofNat 32 (s.request (s.completion u)).head
  completed : ∀ n < s.published, (s.request n).stage = .used ∨ (s.request n).stage = .processed →
    ∃ u < s.completed, s.completion u = n

/-- Every request in flight has a process that waits for it. -/
def WaitsOk (tickets : ℕ → Option ℕ) (s : Disk) : Prop :=
  ∀ n, s.InFlight n → ∃ q, tickets q = some n

def WorksOk (jobs : ℕ → Option ℕ) : Prop := ∀ q r n, jobs q = some n → jobs r = some n → q = r

/-- `disk.used_idx` counts the completions that have been processed. -/
def IndexOk (lags : ℕ → Bool) (usedIdx : BitVec 16) (seen : ℕ) : Prop :=
  ((∀ q, lags q = false) → usedIdx = BitVec.ofNat 16 seen) ∧
    ∀ q, lags q = true → usedIdx + 1 = BitVec.ofNat 16 seen

/-- The invariant of the driver. -/
structure Good (ls : ℕ → Local) (s : Disk) : Prop where
  lock : LockOk (fun q => (ls q).holds) s.vdiskLock
  bufs : BufsOk (fun q => (ls q).buf) s.buf
  descs : DescsOk (fun q => (ls q).descs) s.free
  mine : ∀ q, Mine s (ls q)
  waits : WaitsOk (fun q => (ls q).ticket) s
  works : WorksOk fun q => (ls q).job
  rings : RingsOk s
  index : IndexOk (fun q => (ls q).lags) s.usedIdx s.seen

/-! ## Counting requests -/

theorem range_le {f : ℕ → ℕ} {lo hi : ℕ} (small : ∀ n, lo ≤ n → n < hi → f n < NUM)
    (inj : ∀ m n, lo ≤ m → m < n → n < hi → f m ≠ f n) : hi ≤ lo + NUM := by
  have maps : ∀ n ∈ Finset.Ico lo hi, f n ∈ Finset.range NUM := by
    intro n hn
    rw [Finset.mem_Ico] at hn
    exact Finset.mem_range.mpr (small n hn.1 hn.2)
  have injOn : Set.InjOn f (Finset.Ico lo hi) := by
    intro m hm n hn same
    rw [Finset.mem_coe, Finset.mem_Ico] at hm hn
    rcases lt_trichotomy m n with lt | eq | lt
    · exact absurd same (inj m n hm.1 lt hn.2)
    · exact eq
    · exact absurd same.symm (inj n m hn.1 lt hm.2)
  have card := Finset.card_le_card_of_injOn f maps injOn
  rw [Nat.card_Ico, Finset.card_range] at card
  omega

theorem range_lt {f : ℕ → ℕ} {lo hi d : ℕ} (small : ∀ n, lo ≤ n → n < hi → f n < NUM)
    (inj : ∀ m n, lo ≤ m → m < n → n < hi → f m ≠ f n) (hd : d < NUM)
    (other : ∀ n, lo ≤ n → n < hi → f n ≠ d) : hi < lo + NUM := by
  have more : hi + 1 ≤ lo + NUM := by
    refine range_le (f := fun n => if n = hi then d else f n) (fun n lower upper => ?_)
      fun m n lower lt upper => ?_
    · split_ifs with last
      · exact hd
      · exact small n lower (by omega)
    · have inner : m ≠ hi := by omega
      simp only [if_neg inner]
      split_ifs with last
      · exact other m lower (by omega)
      · exact inj m n lower lt (by omega)
  exact more

namespace Good

section

variable (h : Good ls s)
include h

theorem waiter (flight : s.InFlight n) :
    ∃ q b c, (ls q).ticket = some n ∧ (ls q).buf = some b ∧ (ls q).descs = c.list ∧
      Pending s b n c := by
  obtain ⟨q, ticket⟩ := h.waits n flight
  obtain ⟨b, c, buf, descs, pending⟩ := (h.mine q).pending ticket
  exact ⟨q, b, c, ticket, buf, descs, pending⟩

theorem head_lt (flight : s.InFlight n) : (s.request n).head < NUM := by
  obtain ⟨q, b, c, -, -, descs, pending⟩ := h.waiter flight
  rw [pending.head]
  refine h.descs.lt q c.head ?_
  exact descs ▸ mem_list.mpr (.inl rfl)

theorem ticket_of_head (flight : s.InFlight n)
    (own : (s.request n).head ∈ (ls p).descs) : (ls p).ticket = some n := by
  obtain ⟨q, b, c, ticket, -, descs, pending⟩ := h.waiter flight
  have owns : c.head ∈ (ls q).descs := descs ▸ mem_list.mpr (.inl rfl)
  obtain rfl := h.descs.apart p q c.head (pending.head ▸ own) owns
  exact ticket

theorem head_ne {m n : ℕ} (hm : s.InFlight m) (hn : s.InFlight n) (ne : m ≠ n) :
    (s.request m).head ≠ (s.request n).head := by
  intro same
  obtain ⟨q, b, c, ticket, -, descs, pending⟩ := h.waiter hm
  have own : (s.request n).head ∈ (ls q).descs := by
    rw [← same, pending.head, descs]
    exact mem_list.mpr (.inl rfl)
  exact ne (Option.some.inj (ticket.symm.trans (h.ticket_of_head hn own)))

theorem inFlight (lt : n < s.published)
    (unprocessed : (s.request n).stage ≠ .processed) : s.InFlight n := by
  refine ⟨lt, ?_⟩
  cases hr : (s.request n).returned with
  | false => rfl
  | true => exact absurd (h.rings.returned n lt hr) unprocessed

theorem untaken_inFlight (untaken : s.Untaken n) : s.InFlight n :=
  h.inFlight untaken.1 fun processed => by rw [untaken.2] at processed; cases processed

theorem used_inFlight {u : ℕ} (lower : s.seen ≤ u) (upper : u < s.completed) :
    s.InFlight (s.completion u) :=
  h.inFlight (h.rings.completion_lt u upper) fun processed => by
    rw [(h.rings.used u lower upper).1] at processed
    cases processed

theorem avail_room {d n : ℕ} (own : d ∈ (ls p).descs)
    (ticket : (ls p).ticket = none) (untaken : s.Untaken n) : s.published < n + NUM := by
  have later : ∀ m, n ≤ m → m < s.published → s.InFlight m := fun m lower upper =>
    h.untaken_inFlight ⟨upper, h.rings.order n m lower upper untaken.2⟩
  refine range_lt (f := fun m => (s.request m).head) (d := d) ?_ ?_ (h.descs.lt p d own) ?_
  · exact fun m lower upper => h.head_lt (later m lower upper)
  · exact fun m m' lower lt upper => h.head_ne (later m lower (by omega))
      (later m' (by omega) upper) (ne_of_lt lt)
  · rintro m lower upper rfl
    have := h.ticket_of_head (later m lower upper) own
    rw [ticket] at this
    cases this

theorem used_room (lt : n < s.published)
    (working : (s.request n).stage.working) : s.completed < s.seen + NUM := by
  have flight : s.InFlight n := h.inFlight lt fun processed => by
    rw [processed] at working
    exact working
  have ne : ∀ u, s.seen ≤ u → u < s.completed → s.completion u ≠ n := by
    rintro u lower upper rfl
    rw [(h.rings.used u lower upper).1] at working
    exact working
  refine range_lt (f := fun u => (s.request (s.completion u)).head) ?_ ?_ (h.head_lt flight) ?_
  · exact fun u lower upper => h.head_lt (h.used_inFlight lower upper)
  · exact fun u v lower lt upper => h.head_ne (h.used_inFlight lower (by omega))
      (h.used_inFlight (by omega) upper) (h.rings.completion_ne u v lt upper)
  · exact fun u lower upper => h.head_ne (h.used_inFlight lower upper) flight (ne u lower upper)

theorem used_le : s.completed ≤ s.seen + NUM := by
  refine range_le (f := fun u => (s.request (s.completion u)).head) ?_ ?_
  · exact fun u lower upper => h.head_lt (h.used_inFlight lower upper)
  · exact fun u v lower lt upper => h.head_ne (h.used_inFlight lower (by omega))
      (h.used_inFlight (by omega) upper) (h.rings.completion_ne u v lt upper)

end

end Good

end Xv6.Virtio
