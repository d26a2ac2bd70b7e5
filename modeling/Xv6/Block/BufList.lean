import Xv6.Block.Bio
import Xv6.Lib.DList

/-!
# The list of buffers

The buffer cache of `bio.c` with its links: `bcache.head` is node `NBUF`, and the buffers are linked
through `next` and `prev` from it, most recently used first.  The list refines the order of
`Bcache`.
-/

namespace Xv6

open Function DList List Option Bcache

/-- The buffers and their links, with the head of the list at `NBUF`. -/
structure BufList where
  buf : ℕ → Buf
  next : ℕ → ℕ
  prev : ℕ → ℕ

namespace BufList

abbrev head : ℕ := NBUF

def modify (c : BufList) (i : ℕ) (f : Buf → Buf) : BufList :=
  { c with buf := update c.buf i (f (c.buf i)) }

def linkFront (c : BufList) (i : ℕ) : BufList :=
  { c with
    next := update (update c.next i (c.next head)) head i
    prev := update (update c.prev i head) (c.next head) i }

def unlink (c : BufList) (i : ℕ) : BufList :=
  { c with
    prev := update c.prev (c.next i) (c.prev i)
    next := update c.next (c.prev i) (c.next i) }

def binit : BufList :=
  (range NBUF).foldl linkFront
    ⟨fun _ => emptyBuf, update (fun _ => 0) head head, update (fun _ => 0) head head⟩

def incr (n : ℕ) : ℕ := (n + 1) % 2 ^ 32

def decr (n : ℕ) : ℕ := (n + 2 ^ 32 - 1) % 2 ^ 32

/-- `bget` up to the acquisition of the buffer's sleep-lock; `none` if there is no buffer. -/
def bget (c : BufList) (dev blockno : ℕ) : Option (ℕ × BufList) :=
  match search c.next head (fun i => (c.buf i).dev = dev ∧ (c.buf i).blockno = blockno) (NBUF + 1)
      (c.next head) with
  | some i => some (i, c.modify i fun x => { x with refcnt := incr x.refcnt })
  | none =>
      match search c.prev head (fun i => (c.buf i).refcnt = 0) (NBUF + 1) (c.prev head) with
      | some i => some (i, c.modify i fun x =>
          { x with dev := dev, blockno := blockno, valid := false, refcnt := 1 })
      | none => none

/-- `bread`: fill a buffer that is not valid with the contents `d` of the block on disk. -/
def bread (c : BufList) (dev blockno : ℕ) (d : Block) : Option (ℕ × BufList) :=
  (c.bget dev blockno).map fun (i, c) =>
    (i, c.modify i fun x => if x.valid then x else { x with data := d, valid := true })

/-- The section of `brelse` under `bcache.lock`. -/
def brelse (c : BufList) (i : ℕ) : BufList :=
  let c := c.modify i fun x => { x with refcnt := decr x.refcnt }
  if (c.buf i).refcnt = 0 then (c.unlink i).linkFront i else c

def bpin (c : BufList) (i : ℕ) : BufList := c.modify i fun x => { x with refcnt := incr x.refcnt }

def bunpin (c : BufList) (i : ℕ) : BufList := c.modify i fun x => { x with refcnt := decr x.refcnt }

/-- The buffers, most recently used first. -/
def forward (c : BufList) : Option (List ℕ) := visit c.next head (NBUF + 1) (c.next head)

/-- The buffers, least recently used first. -/
def backward (c : BufList) : Option (List ℕ) := visit c.prev head (NBUF + 1) (c.prev head)

@[simp] theorem modify_buf_self (c : BufList) (i : ℕ) (f : Buf → Buf) :
    (c.modify i f).buf i = f (c.buf i) := update_self ..

@[simp] theorem modify_buf_of_ne (c : BufList) {i j : ℕ} (f : Buf → Buf) (h : j ≠ i) :
    (c.modify i f).buf j = c.buf j := update_of_ne h ..

theorem brelse_buf (c : BufList) (i : ℕ) :
    (c.brelse i).buf = (c.modify i fun x => { x with refcnt := decr x.refcnt }).buf := by
  unfold brelse
  dsimp only
  split <;> rfl

/-! ## The shape of the list -/

/-- The links run over all buffers in the given order. -/
structure Ordered (c : BufList) (order : List ℕ) : Prop where
  circle : Circle c.next c.prev head order
  perm : order.Perm (range NBUF)

variable {c : BufList} {order : List ℕ} {i : ℕ}

section

variable (ok : c.Ordered order)
include ok

theorem Ordered.length : order.length = NBUF := by
  rw [ok.perm.length_eq, length_range]

theorem Ordered.mem_iff : i ∈ order ↔ i < NBUF := by
  rw [ok.perm.mem_iff, mem_range]

theorem Ordered.forward : c.forward = some order :=
  ok.circle.visit (by rw [ok.length]; decide)

theorem Ordered.backward : c.backward = some order.reverse :=
  ok.circle.reverse.visit (by rw [length_reverse, ok.length]; decide)

theorem Ordered.modify (f : Buf → Buf) : (c.modify i f).Ordered order :=
  ⟨ok.circle, ok.perm⟩

theorem Ordered.moveFront (hi : i < NBUF) :
    ((c.unlink i).linkFront i).Ordered (i :: order.erase i) := by
  obtain ⟨l₁, l₂, out, split, erased⟩ := exists_erase_eq (ok.mem_iff.mpr hi)
  have circle := ok.circle
  rw [split] at circle
  have fresh : i ∉ head :: (l₁ ++ l₂) := by
    have nodup := (nodup_cons.mp circle.nodup).2
    rw [mem_cons, not_or, mem_append, not_or]
    refine ⟨ne_of_lt hi, out, fun mem => ?_⟩
    exact (nodup_cons.mp nodup.of_append_right).1 mem
  rw [erased]
  refine ⟨circle.unlink.linkFront fresh, ?_⟩
  refine List.Perm.trans ?_ ok.perm
  rw [split]
  exact perm_middle.symm

theorem Ordered.brelse (hi : i < NBUF) : ∃ order', (c.brelse i).Ordered order' := by
  unfold BufList.brelse
  dsimp only
  split
  · exact ⟨_, (ok.modify _).moveFront hi⟩
  · exact ⟨order, ok.modify _⟩

end

theorem binit_ordered : binit.Ordered (range NBUF).reverse := by
  have push (n : ℕ) (hn : n ≤ NBUF) : Circle
      ((range n).foldl linkFront ⟨fun _ => emptyBuf, update (fun _ => 0) head
        head, update (fun _ => 0) head head⟩).next
      ((range n).foldl linkFront ⟨fun _ => emptyBuf, update (fun _ => 0) head
        head, update (fun _ => 0) head head⟩).prev head (range n).reverse := by
    induction n with
    | zero => exact ⟨nodup_singleton head, by simp, by simp⟩
    | succ n ih =>
      rw [range_succ, foldl_append, reverse_append]
      refine (ih (by omega)).linkFront ?_
      simp only [mem_cons, mem_reverse, mem_range, head]
      omega
  exact ⟨push NBUF (le_refl _), reverse_perm _⟩

theorem binit_buf : binit.buf = fun _ => emptyBuf := by
  have fold (l : List ℕ) (c : BufList) : (l.foldl linkFront c).buf = c.buf := by
    induction l generalizing c with
    | nil => rfl
    | cons i l ih => exact ih _
  exact fold _ _

theorem bget_cases (ok : c.Ordered order) {dev blockno : ℕ} {c' : BufList}
    (h : c.bget dev blockno = some (i, c')) :
    i < NBUF ∧
      (((c.buf i).dev = dev ∧ (c.buf i).blockno = blockno ∧
          c' = c.modify i fun x => { x with refcnt := incr x.refcnt }) ∨
        ((∀ j < NBUF, ¬((c.buf j).dev = dev ∧ (c.buf j).blockno = blockno)) ∧
          (c.buf i).refcnt = 0 ∧ c' = c.modify i fun x =>
            { x with dev := dev, blockno := blockno, valid := false, refcnt := 1 })) := by
  have short : order.length < NBUF + 1 := by rw [ok.length]; decide
  have short' : order.reverse.length < NBUF + 1 := by rwa [length_reverse]
  rw [bget, ok.circle.search _ short, ok.circle.reverse.search _ short'] at h
  cases hl : order.find? fun i => decide ((c.buf i).dev = dev ∧ (c.buf i).blockno = blockno) with
  | some j =>
    simp only [hl, some.injEq, Prod.mk.injEq] at h
    obtain ⟨rfl, rfl⟩ := h
    have found : (c.buf j).dev = dev ∧ (c.buf j).blockno = blockno := by
      simpa using find?_some hl
    exact ⟨ok.mem_iff.mp (mem_of_find?_eq_some hl), .inl ⟨found.1, found.2, rfl⟩⟩
  | none =>
    cases hv : order.reverse.find? fun i => decide ((c.buf i).refcnt = 0) with
    | none =>
      simp only [hl, hv] at h
      cases h
    | some j =>
      simp only [hl, hv, some.injEq, Prod.mk.injEq] at h
      obtain ⟨rfl, rfl⟩ := h
      have free : (c.buf j).refcnt = 0 := by simpa using find?_some hv
      refine ⟨ok.mem_iff.mp (mem_reverse.mp (mem_of_find?_eq_some hv)), .inr ⟨?_, free, rfl⟩⟩
      intro k hk
      have := find?_eq_none.mp hl k (ok.mem_iff.mpr hk)
      simpa using this

theorem bget_isSome (ok : c.Ordered order) (hi : i < NBUF) (free : (c.buf i).refcnt = 0)
    (dev blockno : ℕ) : ∃ j c', c.bget dev blockno = some (j, c') := by
  have short : order.length < NBUF + 1 := by rw [ok.length]; decide
  have short' : order.reverse.length < NBUF + 1 := by rwa [length_reverse]
  rw [bget, ok.circle.search _ short, ok.circle.reverse.search _ short']
  cases order.find? fun i => decide ((c.buf i).dev = dev ∧ (c.buf i).blockno = blockno) with
  | some j => exact ⟨_, _, rfl⟩
  | none =>
    cases hv : order.reverse.find? fun i => decide ((c.buf i).refcnt = 0) with
    | some j => exact ⟨_, _, rfl⟩
    | none =>
      have := find?_eq_none.mp hv i (mem_reverse.mpr (ok.mem_iff.mpr hi))
      exact absurd (decide_eq_true free) this

theorem bget_refines (ok : c.Ordered order) (b : ℕ) (small : ∀ i, (c.buf i).refcnt < 2 ^ 32 - 1) :
    (c.bget ROOTDEV b).map (fun r => (r.1, (⟨r.2.buf, order⟩ : Bcache))) =
      (⟨c.buf, order⟩ : Bcache).bget b := by
  have short : order.length < NBUF + 1 := by rw [ok.length]; decide
  have short' : order.reverse.length < NBUF + 1 := by rwa [length_reverse]
  have count (i : ℕ) : incr (c.buf i).refcnt = (c.buf i).refcnt + 1 := by
    have := small i
    rw [incr, Nat.mod_eq_of_lt (by omega)]
  rw [bget, ok.circle.search _ short, ok.circle.reverse.search _ short', Bcache.bget,
    Bcache.lookup, Bcache.victim]
  change _ = match order.find? fun i => decide ((c.buf i).dev = ROOTDEV ∧ (c.buf i).blockno = b) with
    | some i => _
    | none => _
  cases order.find? fun i => decide ((c.buf i).dev = ROOTDEV ∧ (c.buf i).blockno = b) with
  | some i =>
    simp only [map_some, modify, count]
    rfl
  | none =>
    simp only
    cases order.reverse.find? fun i => decide ((c.buf i).refcnt = 0) with
    | some i => rfl
    | none => rfl

/-- `bget` and `brelse` on the list do what they do on the cache with its buffers in an order: they
choose the same buffer, and the list stays in that order. -/
theorem list_refines_order (ok : c.Ordered order) (small : ∀ i, (c.buf i).refcnt < 2 ^ 32 - 1) :
    (∀ b, (c.bget ROOTDEV b).map (fun r => (r.1, (⟨r.2.buf, order⟩ : Bcache))) =
        (⟨c.buf, order⟩ : Bcache).bget b ∧
      ∀ i c', c.bget ROOTDEV b = some (i, c') → c'.Ordered order) ∧
    ∀ i < NBUF, 0 < (c.buf i).refcnt → ∃ order', (c.brelse i).Ordered order' ∧
      (⟨c.buf, order⟩ : Bcache).relse i = ⟨(c.brelse i).buf, order'⟩ := by
  refine ⟨fun b => ⟨bget_refines ok b small, fun i c' got => ?_⟩, fun i hi used => ?_⟩
  · obtain ⟨-, ⟨-, -, rfl⟩ | ⟨-, -, rfl⟩⟩ := bget_cases ok got
    · exact ok.modify _
    · exact ok.modify _
  have count : decr (c.buf i).refcnt = (c.buf i).refcnt - 1 := by
    have := small i
    rw [decr]
    omega
  have same : ((⟨c.buf, order⟩ : Bcache).modify i fun x => { x with refcnt := x.refcnt - 1 }) =
      ⟨(c.modify i fun x => { x with refcnt := decr x.refcnt }).buf, order⟩ := by
    simp only [Bcache.modify, modify, count]
  rw [Bcache.relse, brelse]
  rw [same]
  split
  · exact ⟨_, (ok.modify _).moveFront hi, rfl⟩
  · exact ⟨_, ok.modify _, rfl⟩

theorem list_refines_order_binit :
    (binit.bget ROOTDEV 7).map (fun r => (r.1, (⟨r.2.buf, (range NBUF).reverse⟩ : Bcache))) =
      (⟨binit.buf, (range NBUF).reverse⟩ : Bcache).bget 7 := by
  refine ((list_refines_order binit_ordered fun i => ?_).1 7).1
  rw [binit_buf]
  exact (by decide : 0 < 2 ^ 32 - 1)

/-! ## Sequences of calls -/

/-- A call on the buffer cache.  `bread` also says what is on disk. -/
inductive Call where
  | bget (dev blockno : ℕ)
  | bread (dev blockno : ℕ) (d : Block)
  | brelse (i : ℕ)
  | bpin (i : ℕ)
  | bunpin (i : ℕ)

/-- The cache, with the uses and pins of each buffer that have not been given back. -/
structure Session where
  cache : BufList
  gets : ℕ → ℕ
  pins : ℕ → ℕ

namespace Session

def boot : Session := ⟨binit, fun _ => 0, fun _ => 0⟩

/-- One call; `none` if it panics or has no earlier call that it matches. -/
def step (s : Session) : Call → Option Session
  | .bget dev blockno => (s.cache.bget dev blockno).map fun (i, c) =>
      ⟨c, update s.gets i (s.gets i + 1), s.pins⟩
  | .bread dev blockno d => (s.cache.bread dev blockno d).map fun (i, c) =>
      ⟨c, update s.gets i (s.gets i + 1), s.pins⟩
  | .brelse i =>
      if i < NBUF ∧ 0 < s.gets i then
        some ⟨s.cache.brelse i, update s.gets i (s.gets i - 1), s.pins⟩
      else none
  | .bpin i =>
      if i < NBUF then
        some ⟨s.cache.bpin i, s.gets, update s.pins i (s.pins i + 1)⟩
      else none
  | .bunpin i =>
      if i < NBUF ∧ 0 < s.pins i then
        some ⟨s.cache.bunpin i, s.gets, update s.pins i (s.pins i - 1)⟩
      else none

/-- The sessions that sequences of calls reach through sessions with `B`. -/
inductive Reaches (B : Session → Prop) : Session → Prop
  | boot : Reaches B boot
  | step {s s' : Session} (call : Call) (before : Reaches B s) (done : s.step call = some s')
      (bounded : B s') : Reaches B s'

/-- Fewer than `2 ^ 32` gets and pins of each buffer are outstanding. -/
def Countable (s : Session) : Prop := ∀ i, s.gets i + s.pins i < 2 ^ 32

/-- The list runs over all buffers, no two buffers hold the same block of a device, and the counters
count. -/
structure Ok (s : Session) : Prop where
  ordered : ∃ order, s.cache.Ordered order
  unique : ∀ i < NBUF, ∀ j < NBUF, (s.cache.buf i).dev ≠ 0 →
    (s.cache.buf i).dev = (s.cache.buf j).dev →
    (s.cache.buf i).blockno = (s.cache.buf j).blockno → i = j
  count : ∀ i < NBUF, (s.cache.buf i).refcnt = s.gets i + s.pins i

variable {s s' : Session}

theorem boot_ok : boot.Ok where
  ordered := ⟨_, binit_ordered⟩
  unique i _ j _ dev := by
    rw [boot, binit_buf] at dev
    exact absurd rfl dev
  count i _ := by
    rw [boot, binit_buf]
    rfl

theorem Ok.recount (ok : s.Ok) {i : ℕ} {c : BufList} {f : Buf → Buf} {gets pins : ℕ → ℕ}
    (ordered : ∃ order, c.Ordered order) (buf : c.buf = (s.cache.modify i f).buf)
    (same : ∀ x, (f x).dev = x.dev ∧ (f x).blockno = x.blockno)
    (mine : i < NBUF → (f (s.cache.buf i)).refcnt = gets i + pins i)
    (others : ∀ j, j ≠ i → gets j + pins j = s.gets j + s.pins j) : Ok ⟨c, gets, pins⟩ := by
  have identity (j : ℕ) : (c.buf j).dev = (s.cache.buf j).dev ∧
      (c.buf j).blockno = (s.cache.buf j).blockno := by
    rw [buf]
    by_cases e : j = i
    · rw [e, modify_buf_self]
      exact same _
    · rw [modify_buf_of_ne _ _ e]
      exact ⟨rfl, rfl⟩
  refine ⟨ordered, fun j hj k hk => ?_, fun j hj => ?_⟩
  · simp only [(identity j).1, (identity k).1, (identity j).2, (identity k).2]
    exact ok.unique j hj k hk
  · simp only [buf]
    by_cases e : j = i
    · subst e
      rw [modify_buf_self]
      exact mine hj
    · rw [modify_buf_of_ne _ _ e, others j e]
      exact ok.count j hj

theorem Ok.bget (ok : s.Ok) {dev blockno i : ℕ} {c : BufList}
    (got : s.cache.bget dev blockno = some (i, c)) (small : s.gets i + 1 + s.pins i < 2 ^ 32) :
    Ok ⟨c, update s.gets i (s.gets i + 1), s.pins⟩ := by
  obtain ⟨order, ordered⟩ := ok.ordered
  have others (j : ℕ) (e : j ≠ i) :
      update s.gets i (s.gets i + 1) j + s.pins j = s.gets j + s.pins j := by
    rw [update_of_ne e]
  obtain ⟨hi, ⟨-, -, rfl⟩ | ⟨fresh, free, rfl⟩⟩ := bget_cases ordered got
  · refine ok.recount ⟨order, ordered.modify _⟩ rfl (fun _ => ⟨rfl, rfl⟩) (fun _ => ?_) others
    have count := ok.count i hi
    rw [update_self, incr, Nat.mod_eq_of_lt (by omega)]
    dsimp only
    omega
  · have count := ok.count i hi
    refine ⟨⟨order, ordered.circle, ordered.perm⟩, fun j hj k hk => ?_, fun j hj => ?_⟩
    · by_cases ej : j = i <;> by_cases ek : k = i
      · exact fun _ _ _ => ej.trans ek.symm
      · subst ej
        simp only [modify_buf_self, modify_buf_of_ne _ _ ek]
        exact fun _ same same' => absurd ⟨same.symm, same'.symm⟩ (fresh k hk)
      · subst ek
        simp only [modify_buf_self, modify_buf_of_ne _ _ ej]
        exact fun _ same same' => absurd ⟨same, same'⟩ (fresh j hj)
      · simp only [modify_buf_of_ne _ _ ej, modify_buf_of_ne _ _ ek]
        exact ok.unique j hj k hk
    · by_cases e : j = i
      · subst e
        simp only [modify_buf_self, update_self]
        omega
      · simp only [modify_buf_of_ne _ _ e, others j e]
        exact ok.count j hj

theorem Ok.step (ok : s.Ok) {call : Call} (done : s.step call = some s') (small : s'.Countable) :
    s'.Ok := by
  obtain ⟨order, ordered⟩ := ok.ordered
  cases call with
  | bget dev blockno =>
    obtain ⟨⟨i, c⟩, got, rfl⟩ := map_eq_some_iff.mp done
    have := small i
    simp only [update_self] at this
    exact ok.bget got this
  | bread dev blockno d =>
    obtain ⟨⟨i, c'⟩, read, rfl⟩ := map_eq_some_iff.mp done
    obtain ⟨⟨j, c⟩, got, e⟩ := map_eq_some_iff.mp read
    simp only [Prod.mk.injEq] at e
    obtain ⟨rfl, rfl⟩ := e
    have := small j
    simp only [update_self] at this
    have ok' := ok.bget got this
    refine ok'.recount ?_ rfl (fun x => ?_) (fun hj => ?_) fun _ _ => rfl
    · obtain ⟨order', ordered'⟩ := ok'.ordered
      exact ⟨order', ordered'.modify _⟩
    · split <;> exact ⟨rfl, rfl⟩
    · rw [← ok'.count j hj]
      split <;> rfl
  | brelse i =>
    simp only [Session.step] at done
    split at done
    · next matched =>
      cases done
      have count := ok.count i matched.1
      have room := small i
      simp only [update_self] at room
      refine ok.recount (ordered.brelse matched.1) (brelse_buf _ _) (fun _ => ⟨rfl, rfl⟩)
        (fun _ => ?_) fun j e => by rw [update_of_ne e]
      rw [update_self, decr]
      dsimp only
      omega
    · cases done
  | bpin i =>
    simp only [Session.step] at done
    split at done
    · next hi =>
      cases done
      have count := ok.count i hi
      have room := small i
      simp only [update_self] at room
      refine ok.recount ⟨order, ordered.modify _⟩ rfl (fun _ => ⟨rfl, rfl⟩) (fun _ => ?_)
        fun j e => by rw [update_of_ne e]
      rw [update_self, incr, Nat.mod_eq_of_lt (by omega)]
      dsimp only
      omega
    · cases done
  | bunpin i =>
    simp only [Session.step] at done
    split at done
    · next matched =>
      cases done
      have count := ok.count i matched.1
      have room := small i
      simp only [update_self] at room
      refine ok.recount ⟨order, ordered.modify _⟩ rfl (fun _ => ⟨rfl, rfl⟩) (fun _ => ?_)
        fun j e => by rw [update_of_ne e]
      rw [update_self, decr]
      dsimp only
      omega
    · cases done

theorem Reaches.ok (reaches : s.Reaches Countable) : s.Ok := by
  induction reaches with
  | boot => exact boot_ok
  | step call _ done bounded ih => exact ih.step done bounded

theorem Ok.step_identity (ok : s.Ok) {call : Call} (done : s.step call = some s') {i : ℕ}
    (used : 0 < (s.cache.buf i).refcnt) : (s'.cache.buf i).dev = (s.cache.buf i).dev ∧
      (s'.cache.buf i).blockno = (s.cache.buf i).blockno := by
  obtain ⟨order, ordered⟩ := ok.ordered
  have modified {c : BufList} {j : ℕ} {f : Buf → Buf} (buf : c.buf = (s.cache.modify j f).buf)
      (same : ∀ x, (f x).dev = x.dev ∧ (f x).blockno = x.blockno) :
      (c.buf i).dev = (s.cache.buf i).dev ∧ (c.buf i).blockno = (s.cache.buf i).blockno := by
    rw [buf]
    by_cases e : i = j
    · rw [← e, modify_buf_self]
      exact same _
    · rw [modify_buf_of_ne _ _ e]
      exact ⟨rfl, rfl⟩
  have got {dev blockno j : ℕ} {c : BufList} (h : s.cache.bget dev blockno = some (j, c)) :
      (c.buf i).dev = (s.cache.buf i).dev ∧ (c.buf i).blockno = (s.cache.buf i).blockno := by
    obtain ⟨-, ⟨-, -, rfl⟩ | ⟨-, free, rfl⟩⟩ := bget_cases ordered h
    · exact modified rfl fun _ => ⟨rfl, rfl⟩
    · have e : i ≠ j := by
        rintro rfl
        omega
      rw [modify_buf_of_ne _ _ e]
      exact ⟨rfl, rfl⟩
  cases call with
  | bget dev blockno =>
    obtain ⟨⟨j, c⟩, h, rfl⟩ := map_eq_some_iff.mp done
    exact got h
  | bread dev blockno d =>
    obtain ⟨⟨j, c'⟩, read, rfl⟩ := map_eq_some_iff.mp done
    obtain ⟨⟨k, c⟩, h, e⟩ := map_eq_some_iff.mp read
    simp only [Prod.mk.injEq] at e
    obtain ⟨rfl, rfl⟩ := e
    obtain ⟨dev', blockno'⟩ := got h
    by_cases e : i = k
    · subst e
      simp only [modify_buf_self]
      split <;> exact ⟨dev', blockno'⟩
    · simp only [modify_buf_of_ne _ _ e]
      exact ⟨dev', blockno'⟩
  | brelse j =>
    simp only [Session.step] at done
    split at done
    · cases done
      exact modified (brelse_buf _ _) fun _ => ⟨rfl, rfl⟩
    · cases done
  | bpin j =>
    simp only [Session.step] at done
    split at done
    · cases done
      exact modified rfl fun _ => ⟨rfl, rfl⟩
    · cases done
  | bunpin j =>
    simp only [Session.step] at done
    split at done
    · cases done
      exact modified rfl fun _ => ⟨rfl, rfl⟩
    · cases done

end Session

open Session

/-- While no counter overflows, the links run over all buffers in both directions, no two buffers hold
the same block, the counters count the outstanding gets and pins, and a buffer in use keeps its block.
-/
theorem buffer_list {s : Session} (reaches : s.Reaches Countable) :
    (∃ order, s.cache.forward = some order ∧ s.cache.backward = some order.reverse ∧
      order.Perm (range NBUF)) ∧
    (∀ i < NBUF, ∀ j < NBUF, (s.cache.buf i).dev ≠ 0 →
      (s.cache.buf i).dev = (s.cache.buf j).dev →
      (s.cache.buf i).blockno = (s.cache.buf j).blockno → i = j) ∧
    (∀ i < NBUF, (s.cache.buf i).refcnt = s.gets i + s.pins i) ∧
    ∀ call s', s.step call = some s' → ∀ i < NBUF, 0 < (s.cache.buf i).refcnt →
      (s'.cache.buf i).dev = (s.cache.buf i).dev ∧
      (s'.cache.buf i).blockno = (s.cache.buf i).blockno := by
  have ok := reaches.ok
  obtain ⟨order, ordered⟩ := ok.ordered
  refine ⟨⟨order, ordered.forward, ordered.backward, ordered.perm⟩, ok.unique, ok.count, ?_⟩
  intro call s' done i _ used
  exact ok.step_identity done used

theorem Session.boot_bget (dev blockno : ℕ) : ∃ s, boot.step (.bget dev blockno) = some s := by
  have free : (binit.buf 0).refcnt = 0 := by rw [binit_buf]; rfl
  obtain ⟨i, c, got⟩ := bget_isSome binit_ordered (by decide : 0 < NBUF) free dev blockno
  exact ⟨_, by rw [Session.step, boot, got, map_some]⟩

theorem Session.bget_of_step {s s' : Session} {dev blockno : ℕ}
    (done : s.step (.bget dev blockno) = some s') : ∃ i c,
      s.cache.bget dev blockno = some (i, c) ∧
      s' = ⟨c, update s.gets i (s.gets i + 1), s.pins⟩ := by
  obtain ⟨⟨i, c⟩, got, same⟩ := map_eq_some_iff.mp done
  exact ⟨i, c, got, same.symm⟩

/-- A session in which block 33 of device 1 has been asked for. -/
theorem buffer_list_bget : ∃ s, boot.step (.bget 1 33) = some s ∧
    ∀ i < NBUF, (s.cache.buf i).refcnt = s.gets i + s.pins i := by
  obtain ⟨s, done⟩ := Session.boot_bget 1 33
  have small : s.Countable := by
    obtain ⟨i, c, -, rfl⟩ := Session.bget_of_step done
    intro j
    by_cases e : j = i
    · subst e
      simp [boot]
    · simp [boot, e]
  exact ⟨s, done, (buffer_list (.step _ .boot done small)).2.2.1⟩

theorem Session.pin_many {s : Session} {i : ℕ} (hi : i < NBUF) (reaches : s.Reaches fun _ => True)
    (n : ℕ) : ∃ s' : Session, s'.Reaches (fun _ => True) ∧ s'.gets = s.gets ∧
      (s'.cache.buf i).refcnt % 2 ^ 32 = ((s.cache.buf i).refcnt + n) % 2 ^ 32 ∧
      (0 < n → (s'.cache.buf i).refcnt < 2 ^ 32) := by
  induction n with
  | zero => exact ⟨s, reaches, rfl, rfl, fun pos => absurd pos (lt_irrefl 0)⟩
  | succ n ih =>
    obtain ⟨s', reaches', gets, count, -⟩ := ih
    refine ⟨_, .step (.bpin i) reaches' (if_pos hi) trivial, gets, ?_, fun _ => ?_⟩
    · simp only [bpin, modify_buf_self, incr]
      omega
    · simp only [bpin, modify_buf_self, incr]
      exact Nat.mod_lt _ (by decide)

/-- After `2 ^ 32 - 1` pins of a buffer that is in use its counter is zero. -/
theorem refcnt_wraps : ∃ s : Session, s.Reaches (fun _ => True) ∧ ∃ i < NBUF, 0 < s.gets i ∧
    (s.cache.buf i).refcnt = 0 ∧ (s.cache.buf i).refcnt ≠ s.gets i + s.pins i := by
  obtain ⟨s, done⟩ := Session.boot_bget 1 33
  have reaches : s.Reaches fun _ => True := .step _ .boot done trivial
  obtain ⟨i, c, got, rfl⟩ := Session.bget_of_step done
  obtain ⟨hi, ⟨found, -⟩ | ⟨-, -, rfl⟩⟩ := bget_cases binit_ordered got
  · rw [binit_buf] at found
    exact absurd found (by decide : emptyBuf.dev ≠ 1)
  obtain ⟨s', reaches', gets, count, small⟩ := Session.pin_many hi reaches (2 ^ 32 - 1)
  have one : 0 < s'.gets i := by
    rw [gets]
    simp
  have zero : (s'.cache.buf i).refcnt = 0 := by
    have lt := small (by decide)
    simp only [modify_buf_self] at count
    omega
  exact ⟨s', reaches', i, hi, one, zero, by omega⟩

end BufList

end Xv6
