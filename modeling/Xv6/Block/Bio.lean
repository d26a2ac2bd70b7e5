import Xv6.Base

/-!
# Buffer cache

The buffers of `bio.c`.  A pointer to a buffer is its index in `bcache.buf`; the list through
`next` from `head` is kept as the list of the indices it visits, most recently used first.
-/

namespace Xv6

open List

/-- `struct buf`. -/
structure Buf where
  valid : Bool
  dev : ℕ
  blockno : ℕ
  lock : Option ℕ
  refcnt : ℕ
  data : Block

/-- The buffers, and their indices from the most to the least recently used. -/
structure Bcache where
  buf : ℕ → Buf
  order : List ℕ

/-- The buffer holds (or is being filled with) block `b` of the disk. -/
def Buf.Caches (x : Buf) (b : ℕ) : Prop := x.dev = ROOTDEV ∧ x.blockno = b

instance (x : Buf) (b : ℕ) : Decidable (x.Caches b) := inferInstanceAs (Decidable (_ ∧ _))

namespace Bcache

variable {c : Bcache}

def emptyBuf : Buf := ⟨false, 0, 0, none, 0, fun _ => 0⟩

/-- `binit`: every buffer is linked in front of the ones before it. -/
def binit : Bcache := ⟨fun _ => emptyBuf, (List.range NBUF).reverse⟩

def modify (c : Bcache) (i : ℕ) (f : Buf → Buf) : Bcache :=
  { c with buf := Function.update c.buf i (f (c.buf i)) }

@[simp] theorem modify_buf_self (c : Bcache) (i : ℕ) (f : Buf → Buf) :
    (c.modify i f).buf i = f (c.buf i) := Function.update_self ..

@[simp] theorem modify_buf_of_ne (c : Bcache) {i j : ℕ} (f : Buf → Buf) (h : j ≠ i) :
    (c.modify i f).buf j = c.buf j := Function.update_of_ne h ..

@[simp] theorem modify_order (c : Bcache) (i : ℕ) (f : Buf → Buf) :
    (c.modify i f).order = c.order := rfl

/-- The search of `bget` for a cached block, from the most recently used buffer. -/
def lookup (c : Bcache) (b : ℕ) : Option ℕ := c.order.find? fun i => (c.buf i).Caches b

/-- The search of `bget` for an unused buffer, from the least recently used one. -/
def victim (c : Bcache) : Option ℕ := c.order.reverse.find? fun i => (c.buf i).refcnt = 0

/-- `bget` up to the acquisition of the buffer's sleep-lock. -/
def bget (c : Bcache) (b : ℕ) : Option (ℕ × Bcache) :=
  match c.lookup b with
  | some i => some (i, c.modify i fun x => { x with refcnt := x.refcnt + 1 })
  | none =>
      match c.victim with
      | some i => some (i, c.modify i fun x =>
          { x with dev := ROOTDEV, blockno := b, valid := false, refcnt := 1 })
      | none => none

/-- The section of `brelse` under `bcache.lock`: an unused buffer becomes the most recent one. -/
def relse (c : Bcache) (i : ℕ) : Bcache :=
  let c' := c.modify i fun x => { x with refcnt := x.refcnt - 1 }
  if (c'.buf i).refcnt = 0 then { c' with order := i :: c'.order.erase i } else c'

def bpin (c : Bcache) (i : ℕ) : Bcache := c.modify i fun x => { x with refcnt := x.refcnt + 1 }

def bunpin (c : Bcache) (i : ℕ) : Bcache := c.modify i fun x => { x with refcnt := x.refcnt - 1 }

theorem relse_buf (c : Bcache) (i : ℕ) :
    (c.relse i).buf = (c.modify i fun x => { x with refcnt := x.refcnt - 1 }).buf := by
  unfold relse
  dsimp only
  split <;> rfl

/-! ## Well-formed caches -/

/-- The list visits every buffer once, and no two buffers hold the same block. -/
structure WF (c : Bcache) : Prop where
  nodup : c.order.Nodup
  mem_order : ∀ i, i ∈ c.order ↔ i < NBUF
  unique : ∀ i < NBUF, ∀ j < NBUF, ∀ b, (c.buf i).Caches b → (c.buf j).Caches b → i = j

theorem lookup_some (wf : c.WF) {b i : ℕ} (h : c.lookup b = some i) :
    i < NBUF ∧ (c.buf i).Caches b := by
  have found := find?_some h
  have mem := mem_of_find?_eq_some h
  exact ⟨(wf.mem_order i).1 mem, by simpa using found⟩

theorem lookup_none (wf : c.WF) {b : ℕ} (h : c.lookup b = none) : ∀ i < NBUF, ¬ (c.buf i).Caches b := by
  intro i hi
  have := find?_eq_none.1 h i ((wf.mem_order i).2 hi)
  simpa using this

theorem victim_some (wf : c.WF) {i : ℕ} (h : c.victim = some i) : i < NBUF ∧ (c.buf i).refcnt = 0 := by
  have found := find?_some h
  have mem := mem_of_find?_eq_some h
  exact ⟨(wf.mem_order i).1 (mem_reverse.1 mem), by simpa using found⟩

theorem victim_none (wf : c.WF) (h : c.victim = none) : ∀ i < NBUF, (c.buf i).refcnt ≠ 0 := by
  intro i hi
  have := find?_eq_none.1 h i (mem_reverse.2 ((wf.mem_order i).2 hi))
  simpa using this

/-- What `bget` can do: count one more user of the buffer of `b`, or give an unused buffer to
`b`. -/
theorem bget_cases {c c' : Bcache} (wf : c.WF) {b i : ℕ} (h : c.bget b = some (i, c')) :
    i < NBUF ∧
      (((c.buf i).Caches b ∧ c' = c.modify i fun x => { x with refcnt := x.refcnt + 1 }) ∨
        ((∀ j < NBUF, ¬ (c.buf j).Caches b) ∧ (c.buf i).refcnt = 0 ∧
          c' = c.modify i fun x =>
            { x with dev := ROOTDEV, blockno := b, valid := false, refcnt := 1 })) := by
  unfold bget at h
  cases hl : c.lookup b with
  | some j =>
    simp only [hl, Option.some.injEq, Prod.mk.injEq] at h
    obtain ⟨rfl, rfl⟩ := h
    obtain ⟨hj, hc⟩ := lookup_some wf hl
    exact ⟨hj, .inl ⟨hc, rfl⟩⟩
  | none =>
    cases hv : c.victim with
    | none => simp [hl, hv] at h
    | some j =>
      simp only [hl, hv, Option.some.injEq, Prod.mk.injEq] at h
      obtain ⟨rfl, rfl⟩ := h
      obtain ⟨hj, hr⟩ := victim_some wf hv
      exact ⟨hj, .inr ⟨lookup_none wf hl, hr, rfl⟩⟩

theorem bget_eq_none (wf : c.WF) {b : ℕ} (h : c.bget b = none) :
    (∀ i < NBUF, ¬ (c.buf i).Caches b) ∧ ∀ i < NBUF, (c.buf i).refcnt ≠ 0 := by
  unfold bget at h
  cases hl : c.lookup b with
  | some j => simp [hl] at h
  | none =>
    cases hv : c.victim with
    | some j => simp [hl, hv] at h
    | none => exact ⟨lookup_none wf hl, victim_none wf hv⟩

theorem WF.modify (wf : c.WF) {i : ℕ} {f : Buf → Buf}
    (same : ∀ b, (f (c.buf i)).Caches b ↔ (c.buf i).Caches b) : (c.modify i f).WF := by
  have key : ∀ j b, ((c.modify i f).buf j).Caches b ↔ (c.buf j).Caches b := by
    intro j b
    by_cases hj : j = i
    · rw [hj, modify_buf_self, same]
    · rw [modify_buf_of_ne c f hj]
  refine ⟨wf.nodup, wf.mem_order, fun j hj k hk b h₁ h₂ => ?_⟩
  exact wf.unique j hj k hk b ((key j b).1 h₁) ((key k b).1 h₂)

theorem WF.recycle (wf : c.WF) {i b : ℕ} {f : Buf → Buf} (fresh : ∀ j < NBUF, ¬ (c.buf j).Caches b)
    (new : ∀ b', (f (c.buf i)).Caches b' → b' = b) : (c.modify i f).WF := by
  refine ⟨wf.nodup, wf.mem_order, fun j hj k hk b' h₁ h₂ => ?_⟩
  by_cases hji : j = i <;> by_cases hki : k = i
  · rw [hji, hki]
  · subst hji
    rw [modify_buf_self] at h₁
    rw [modify_buf_of_ne c f hki, new b' h₁] at h₂
    exact absurd h₂ (fresh k hk)
  · subst hki
    rw [modify_buf_self] at h₂
    rw [modify_buf_of_ne c f hji, new b' h₂] at h₁
    exact absurd h₁ (fresh j hj)
  · rw [modify_buf_of_ne c f hji] at h₁
    rw [modify_buf_of_ne c f hki] at h₂
    exact wf.unique j hj k hk b' h₁ h₂

theorem WF.bget {c c' : Bcache} (wf : c.WF) {b i : ℕ} (h : c.bget b = some (i, c')) : c'.WF := by
  obtain ⟨-, ⟨-, rfl⟩ | ⟨fresh, -, rfl⟩⟩ := bget_cases wf h
  · exact wf.modify fun _ => Iff.rfl
  · exact wf.recycle fresh fun b' h' => h'.2.symm

theorem WF.relse (wf : c.WF) {i : ℕ} (hi : i < NBUF) : (c.relse i).WF := by
  have wf' : (c.modify i fun x => { x with refcnt := x.refcnt - 1 }).WF :=
    wf.modify fun _ => Iff.rfl
  unfold Bcache.relse
  dsimp only
  split
  · have mem : i ∈ c.order := (wf.mem_order i).2 hi
    refine ⟨?_, fun j => ?_, wf'.unique⟩
    · simp only [modify_order, nodup_cons]
      exact ⟨wf.nodup.not_mem_erase, wf.nodup.erase i⟩
    · simp only [modify_order, mem_cons, ← wf.mem_order, wf.nodup.mem_erase_iff]
      constructor
      · rintro (rfl | ⟨-, h⟩)
        · exact mem
        · exact h
      · intro h
        by_cases hj : j = i
        · exact .inl hj
        · exact .inr ⟨hj, h⟩
  · exact wf'

theorem wf_binit : binit.WF := by
  refine ⟨nodup_reverse.2 nodup_range, fun i => ?_, fun i _ j _ b h => ?_⟩
  · simp [binit]
  · exact absurd h.1 (by simp [binit, emptyBuf])

end Bcache

end Xv6
