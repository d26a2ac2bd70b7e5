import Xv6.Virtio.Driver
import Xv6.Lib.Protocol

/-!
# The protocol of the disk driver

What a process may do next with the lock, the descriptors and the rings.  The functions of the
driver and the work of the device follow it.
-/

namespace Xv6.Virtio

/-- Where a process is in the driver. -/
inductive Local where
  | out
  | owner (b : ℕ)
  /-- In `virtio_disk_rw` with the lock, after taking the descriptors `ds`. -/
  | alloc (b : ℕ) (ds : List ℕ)
  /-- The chain is formatted. -/
  | ready (b : ℕ) (write : Bool) (c : Chain)
  /-- Its head is in the next slot of the avail ring. -/
  | slotted (b : ℕ) (write : Bool) (c : Chain)
  /-- It is published as request `n`; `held` tells whether the process has the lock. -/
  | flying (b n : ℕ) (c : Chain) (held : Bool)
  /-- The process has seen that the request has finished. -/
  | landed (b n : ℕ) (c : Chain)
  /-- The descriptors `ds` are still to be freed. -/
  | freeing (b : ℕ) (ds : List ℕ)
  | handler
  | saw
  | got (id : ℕ)
  | handled
  /-- The device works for request `n`. -/
  | device (n head : ℕ) (stage : Stage)

namespace Local

@[simp] def holds : Local → Bool
  | .alloc .. | .ready .. | .slotted .. | .landed .. | .freeing .. => true
  | .flying _ _ _ held => held
  | .handler | .saw | .got _ | .handled => true
  | .out | .owner _ | .device .. => false

@[simp] def buf : Local → Option ℕ
  | .owner b | .alloc b _ | .ready b .. | .slotted b .. | .flying b .. | .landed b .. |
    .freeing b _ => some b
  | _ => none

@[simp] def descs : Local → List ℕ
  | .alloc _ ds | .freeing _ ds => ds
  | .ready _ _ c | .slotted _ _ c | .flying _ _ c _ | .landed _ _ c => c.list
  | _ => []

@[simp] def ticket : Local → Option ℕ
  | .flying _ n _ _ | .landed _ n _ => some n
  | _ => none

@[simp] def job : Local → Option ℕ
  | .device n _ _ => some n
  | _ => none

@[simp] def lags : Local → Bool
  | .handled => true
  | _ => false

def Allows (ℓ : Local) : Op → Prop
  | .acquiresleep _ | .recycle .. | .wakeProc _ | .take _ => ℓ = .out
  | .releasesleep b | .setData b _ => ℓ = .owner b
  | .acquire => ℓ = .out ∨ (∃ b, ℓ = .owner b) ∨ ∃ b n c, ℓ = .flying b n c false
  | .release => (∃ b, ℓ = .freeing b []) ∨ ℓ = .handler
  | .sleep _ => (∃ b, ℓ = .alloc b []) ∨ ∃ b n c, ℓ = .flying b n c true
  | .allocDesc => ∃ b ds, ℓ = .alloc b ds
  | .freeDesc i => ∃ b ds, ℓ = .alloc b (i :: ds) ∨ ℓ = .freeing b (i :: ds)
  | .readDesc i => ∃ b ds, ℓ = .freeing b (i :: ds)
  | .format c b _ => ℓ = .alloc b c.list
  | .availSlot head => ∃ b write c, ℓ = .ready b write c ∧ c.head = head
  | .availPublish head b write => ∃ c, ℓ = .slotted b write c ∧ c.head = head
  | .disk b => ∃ n c, ℓ = .flying b n c true
  | .clearInfo head n => ∃ b c, ℓ = .landed b n c ∧ c.head = head
  | .usedPending => ℓ = .handler
  | .usedId => ℓ = .saw
  | .checkStatus id | .diskDone id => ℓ = .got id
  | .usedAdvance => ℓ = .handled
  | .transfer n head => ℓ = .device n head .taken
  | .setStatus n head => ℓ = .device n head .moved
  | .complete n head => ℓ = .device n head .marked
  | .resume | .wakeup _ | .more => True

/-- The results that a process has to expect: the descriptors of a chain lead to each other. -/
def Expects (ℓ : Local) : (o : Op) → o.Res → Prop
  | .readDesc _, d => ∀ b i ds, ℓ = .freeing b (i :: ds) →
      hasNext d.flags = !ds.isEmpty ∧ ∀ j ∈ ds.head?, d.next.toNat = j
  | _, _ => True

@[simp] def next (ℓ : Local) : (o : Op) → o.Res → Local
  | .acquiresleep b, _ => .owner b
  | .releasesleep _, _ => .out
  | .acquire, _ =>
      match ℓ with
      | .owner b => .alloc b []
      | .flying b n c _ => .flying b n c true
      | _ => .handler
  | .release, _ =>
      match ℓ with
      | .freeing b _ => .owner b
      | _ => .out
  | .sleep _, _ =>
      match ℓ with
      | .alloc b _ => .owner b
      | .flying b n c _ => .flying b n c false
      | _ => ℓ
  | .allocDesc, r =>
      match ℓ, r with
      | .alloc b ds, some i => .alloc b (ds ++ [i])
      | _, _ => ℓ
  | .freeDesc _, _ =>
      match ℓ with
      | .alloc b ds => .alloc b ds.tail
      | .freeing b ds => .freeing b ds.tail
      | _ => ℓ
  | .format c b write, _ => .ready b write c
  | .availSlot _, _ =>
      match ℓ with
      | .ready b write c => .slotted b write c
      | _ => ℓ
  | .availPublish .., n =>
      match ℓ with
      | .slotted b _ c => .flying b n c true
      | _ => ℓ
  | .disk _, r =>
      match ℓ, r with
      | .flying b n c _, false => .landed b n c
      | _, _ => ℓ
  | .clearInfo .., _ =>
      match ℓ with
      | .landed b _ c => .freeing b c.list
      | _ => ℓ
  | .usedPending, r => if r then .saw else .handler
  | .usedId, id => .got id
  | .diskDone _, _ => .handled
  | .usedAdvance, _ => .handler
  | .take n, head => .device n head .taken
  | .transfer n head, _ => .device n head .moved
  | .setStatus n head, _ => .device n head .marked
  | .complete .., _ => .out
  | _, _ => ℓ

end Local

def protocol : Protocol VSig Local where
  Allowed _ ℓ o := ℓ.Allows o
  Next _ ℓ o r ℓ' := ℓ.Expects o r ∧ ℓ' = ℓ.next o r

variable {α β : Type} {p b : ℕ}

theorem follows_atomic {o : Op} {f : o.Res → VProg α} {ℓ : Local} {Q : α → Local → Prop}
    (allowed : ℓ.Allows o) (rest : ∀ r, ℓ.Expects o r → (f r).Follows protocol p (ℓ.next o r) Q) :
    (atomic o >>= f).Follows protocol p ℓ Q :=
  .op allowed fun r _ next => next.2 ▸ rest r next.1

theorem follows_atomic_end {o : Op} {ℓ : Local} {Q : o.Res → Local → Prop} (allowed : ℓ.Allows o)
    (rest : ∀ r, ℓ.Expects o r → Q r (ℓ.next o r)) : (atomic o).Follows protocol p ℓ Q :=
  .op allowed fun r _ next => next.2 ▸ rest r next.1

theorem follows_more {ℓ : Local} {Q : α → Local → Prop} : (more : VProg α).Follows protocol p ℓ Q :=
  .op trivial fun r => r.elim

/-! ## Descriptors -/

theorem follows_freeDesc_alloc (i : ℕ) (ds : List ℕ) :
    (freeDesc i).Follows protocol p (.alloc b (i :: ds)) fun _ ℓ => ℓ = .alloc b ds := by
  refine follows_atomic ⟨b, ds, .inl rfl⟩ fun _ _ => ?_
  exact follows_atomic_end trivial fun _ _ => rfl

theorem follows_freeDesc_freeing (i : ℕ) (ds : List ℕ) :
    (freeDesc i).Follows protocol p (.freeing b (i :: ds)) fun _ ℓ => ℓ = .freeing b ds := by
  refine follows_atomic ⟨b, ds, .inr rfl⟩ fun _ _ => ?_
  exact follows_atomic_end trivial fun _ _ => rfl

theorem follows_freeDescs (ds : List ℕ) :
    (freeDescs ds).Follows protocol p (.alloc b ds) fun _ ℓ => ℓ = .alloc b [] := by
  induction ds with
  | nil => exact .ret rfl
  | cons d ds ih =>
    refine (follows_freeDesc_alloc d ds).bind ?_
    rintro _ _ rfl
    exact ih

theorem follows_allocDescs (k : ℕ) (idx : List ℕ) :
    (allocDescs k idx).Follows protocol p (.alloc b idx) fun r ℓ =>
      match r with
      | some idx' => idx'.length = idx.length + k ∧ ℓ = .alloc b idx'
      | none => ℓ = .alloc b [] := by
  induction k generalizing idx with
  | zero => exact .ret ⟨rfl, rfl⟩
  | succ k ih =>
    refine follows_atomic ⟨b, idx, rfl⟩ ?_
    rintro (_ | i) _
    · refine (follows_freeDescs idx).bind ?_
      rintro _ _ rfl
      exact .ret rfl
    · refine (ih (idx ++ [i])).mono ?_
      rintro (_ | idx') ℓ' done
      · exact done
      · refine ⟨?_, done.2⟩
        rw [done.1, List.length_append, List.length_singleton]
        omega

theorem follows_alloc3Desc :
    alloc3Desc.Follows protocol p (.alloc b []) fun r ℓ =>
      ℓ = .alloc b (r.elim [] Chain.list) := by
  refine (follows_allocDescs 3 []).bind ?_
  rintro (_ | idx) ℓ done
  · exact .ret done
  · obtain ⟨length, rfl⟩ := done
    obtain ⟨head, data, status, rfl⟩ := List.length_eq_three.mp length
    exact .ret rfl

theorem follows_freeChain (k i : ℕ) (ds : List ℕ) (short : ds.length < k) :
    (freeChain k i).Follows protocol p (.freeing b (i :: ds)) fun _ ℓ => ℓ = .freeing b [] := by
  induction k generalizing i ds with
  | zero => omega
  | succ k ih =>
    refine follows_atomic ⟨b, ds, rfl⟩ fun d expected => ?_
    obtain ⟨chained, next⟩ := expected b i ds rfl
    refine (follows_freeDesc_freeing i ds).bind ?_
    rintro _ _ rfl
    cases ds with
    | nil =>
      rw [chained]
      exact .ret rfl
    | cons j ds =>
      rw [chained, next j rfl]
      exact ih j ds (by rw [List.length_cons] at short; omega)

/-! ## Reading and writing -/

theorem follows_allocLoop (k : ℕ) :
    (allocLoop k).Follows protocol p (.alloc b []) fun c ℓ => ℓ = .alloc b c.list := by
  induction k with
  | zero => exact follows_more
  | succ k ih =>
    refine follows_alloc3Desc.bind ?_
    rintro (_ | c) _ rfl
    · refine follows_atomic (.inl ⟨b, rfl⟩) fun _ _ => ?_
      refine follows_atomic trivial fun _ _ => ?_
      exact follows_atomic (.inr (.inl ⟨b, rfl⟩)) fun _ _ => ih
    · exact .ret rfl

theorem follows_waitLoop (k n : ℕ) (c : Chain) :
    (waitLoop b k).Follows protocol p (.flying b n c true) fun _ ℓ => ℓ = .landed b n c := by
  induction k with
  | zero => exact follows_more
  | succ k ih =>
    refine follows_atomic ⟨n, c, rfl⟩ ?_
    rintro (_ | _) _
    · exact .ret rfl
    · refine follows_atomic (.inr ⟨b, n, c, rfl⟩) fun _ _ => ?_
      refine follows_atomic trivial fun _ _ => ?_
      exact follows_atomic (.inr (.inr ⟨b, n, c, rfl⟩)) fun _ _ => ih

theorem follows_virtioDiskRw (k : ℕ) (write : Bool) :
    (virtioDiskRw k b write).Follows protocol p (.owner b) fun _ ℓ => ℓ = .owner b := by
  refine follows_atomic (.inr (.inl ⟨b, rfl⟩)) fun _ _ => ?_
  refine (follows_allocLoop k).bind ?_
  rintro c _ rfl
  refine follows_atomic rfl fun _ _ => ?_
  refine follows_atomic ⟨b, write, c, rfl, rfl⟩ fun _ _ => ?_
  refine follows_atomic ⟨c, rfl, rfl⟩ fun n _ => ?_
  refine (follows_waitLoop k n c).bind ?_
  rintro _ _ rfl
  refine follows_atomic ⟨b, c, rfl, rfl⟩ fun _ _ => ?_
  refine (follows_freeChain (NUM + 1) c.head [c.data, c.status] (show 2 < NUM + 1 by decide)).bind ?_
  rintro _ _ rfl
  exact follows_atomic_end (.inl ⟨b, rfl⟩) fun _ _ => rfl

theorem follows_useBuf (k : ℕ) (uses : List Use) :
    (useBuf k b uses).Follows protocol p (.owner b) fun _ ℓ => ℓ = .owner b := by
  induction uses with
  | nil => exact .ret rfl
  | cons use uses ih =>
    cases use with
    | modify data => exact follows_atomic rfl fun _ _ => ih
    | rw write =>
      refine (follows_virtioDiskRw k write).bind ?_
      rintro _ _ rfl
      exact ih

/-! ## Everything that may start -/

theorem follows_intrLoop (k : ℕ) :
    (intrLoop k).Follows protocol p .handler fun _ ℓ => ℓ = .handler := by
  induction k with
  | zero => exact follows_more
  | succ k ih =>
    refine follows_atomic rfl ?_
    rintro (_ | _) _
    · exact .ret rfl
    · refine follows_atomic rfl fun id _ => ?_
      refine follows_atomic rfl fun _ _ => ?_
      refine follows_atomic rfl fun b _ => ?_
      refine follows_atomic trivial fun _ _ => ?_
      exact follows_atomic rfl fun _ _ => ih

theorem Act.follows (a : Act) : a.prog.Follows protocol p .out fun _ ℓ => ℓ = .out := by
  cases a with
  | session k b uses =>
    refine follows_atomic rfl fun _ _ => ?_
    refine (follows_useBuf k uses).bind ?_
    rintro _ _ rfl
    exact follows_atomic_end rfl fun _ _ => rfl
  | recycle b blockno => exact follows_atomic_end rfl fun _ _ => rfl
  | intr k =>
    refine follows_atomic (.inl rfl) fun _ _ => ?_
    refine (follows_intrLoop k).bind ?_
    rintro _ _ rfl
    exact follows_atomic_end (.inr rfl) fun _ _ => rfl
  | wakeProc q => exact follows_atomic_end rfl fun _ _ => rfl
  | serve n =>
    refine follows_atomic rfl fun head _ => ?_
    refine follows_atomic rfl fun _ _ => ?_
    refine follows_atomic rfl fun _ _ => ?_
    exact follows_atomic_end rfl fun _ _ => rfl

end Xv6.Virtio
