import Xv6.Lib.SList
import Xv6.Task.Grow

/-!
# `malloc` and `free`

The allocator of `umalloc.c`.  The free blocks are in a circular list in the order of their addresses,
which starts at the header `base`; a block begins with its header, and its size counts units of the size
of a header.
-/

namespace Xv6.User

open Function Option

abbrev HEADER : ℕ := 16

/-- `union header`. -/
structure Header where
  ptr : ℕ
  size : BitVec 32
  deriving DecidableEq

/-- The process as far as the allocator uses it: the headers by their addresses, `freep`, and the
break. -/
structure Heap where
  mem : ℕ → Header
  freep : ℕ
  brk : ℕ

def next (mem : ℕ → Header) (p : ℕ) : ℕ := (mem p).ptr

def setPtr (mem : ℕ → Header) (p q : ℕ) : ℕ → Header := update mem p ⟨q, (mem p).size⟩

def setSize (mem : ℕ → Header) (p : ℕ) (size : BitVec 32) : ℕ → Header :=
  update mem p ⟨(mem p).ptr, size⟩

@[simp]
theorem size_setPtr (mem : ℕ → Header) (p q a : ℕ) : (setPtr mem p q a).size = (mem a).size := by
  by_cases here : a = p
  · rw [here, setPtr, update_self]
  · rw [setPtr, update_of_ne here]

@[simp]
theorem next_setSize (mem : ℕ → Header) (p : ℕ) (size : BitVec 32) :
    next (setSize mem p size) = next mem := by
  funext a
  by_cases here : a = p
  · rw [here, next, setSize, update_self, next]
  · rw [next, setSize, update_of_ne here, next]

def endOf (mem : ℕ → Header) (p : ℕ) : ℕ := p + HEADER * (mem p).size.toNat

def fits (mem : ℕ → Header) (bp p : ℕ) : Bool :=
  p < bp && bp < next mem p || next mem p ≤ p && (p < bp || bp < next mem p)

def linkUp (mem : ℕ → Header) (q bp : ℕ) : ℕ → Header :=
  if endOf mem bp = q then update mem bp ⟨next mem q, (mem bp).size + (mem q).size⟩
  else setPtr mem bp q

def linkDown (mem : ℕ → Header) (p bp : ℕ) : ℕ → Header :=
  if endOf mem p = bp then update mem p ⟨next mem bp, (mem p).size + (mem bp).size⟩
  else setPtr mem p bp

/-- `free`; `none` if the loop has not ended after `fuel` rounds. -/
def free (fuel : ℕ) (s : Heap) (ap : ℕ) : Option Heap :=
  let bp := ap - HEADER
  (SList.find (next s.mem) (fits s.mem bp) fuel s.freep).map fun p =>
    { s with mem := linkDown (linkUp s.mem (next s.mem p) bp) p bp, freep := p }

/-- `sbrk`: the old break, or `none` if the kernel cannot grow the process; `ok` says whether it can. -/
def sbrk (s : Heap) (n : ℤ) (ok : Bool) : Option ℕ × Heap :=
  if 0 < n ∧ ok = false then (none, s) else (some s.brk, { s with brk := Task.sbrkSize s.brk n })

def pagesEnd (brk : ℕ) : ℕ := (brk + Vm.PGSIZE - 1) / Vm.PGSIZE * Vm.PGSIZE

/-- How `morecore` ends: `sbrk` fails, the new header is not in memory, or there is a new block. -/
inductive Core where
  | refused
  | fault
  | got
  deriving DecidableEq

def coreUnits (nu : BitVec 32) : BitVec 32 := if nu < 4096 then 4096 else nu

def coreBytes (nu : BitVec 32) : ℤ := (BitVec.ofNat 32 (nu.toNat * HEADER)).toInt

def morecore (fuel : ℕ) (s : Heap) (nu : BitVec 32) (ok : Bool) : Option (Core × Heap) :=
  let nu := coreUnits nu
  match sbrk s (coreBytes nu) ok with
  | (none, s) => some (.refused, s)
  | (some p, s) =>
      if pagesEnd s.brk < p + HEADER then some (.fault, s)
      else (free fuel { s with mem := setSize s.mem p nu } (p + HEADER)).map fun s => (.got, s)

/-- How `malloc` ends: the process is killed by a page fault, or it returns 0 or a pointer. -/
inductive Result where
  | fault
  | zero
  | block (ap : ℕ)
  deriving DecidableEq

def take (s : Heap) (nunits : BitVec 32) (prevp p : ℕ) : Heap × Result :=
  if (s.mem p).size = nunits then
    ({ s with mem := setPtr s.mem prevp (next s.mem p), freep := prevp }, .block (p + HEADER))
  else
    let mem := setSize s.mem p ((s.mem p).size - nunits)
    let q := endOf mem p
    ({ s with mem := setSize mem q nunits, freep := prevp }, .block (q + HEADER))

def mallocLoop (nunits : BitVec 32) :
    (fuel : ℕ) → Heap → (prevp p : ℕ) → (oks : List Bool) → Option (Heap × Result)
  | 0, _, _, _, _ => none
  | fuel + 1, s, prevp, p, oks =>
      if nunits ≤ (s.mem p).size then some (take s nunits prevp p)
      else if p = s.freep then
        match morecore fuel s nunits (oks.headD false) with
        | none => none
        | some (.refused, s) => some (s, .zero)
        | some (.fault, s) => some (s, .fault)
        | some (.got, s) => mallocLoop nunits fuel s s.freep (next s.mem s.freep) oks.tail
      else mallocLoop nunits fuel s p (next s.mem p) oks

def units (nbytes : BitVec 32) : BitVec 32 := BitVec.ofNat 32 ((nbytes.toNat + HEADER - 1) / HEADER + 1)

def prepare (base : ℕ) (s : Heap) : Heap :=
  if s.freep = 0 then { s with mem := update s.mem base ⟨base, 0⟩, freep := base } else s

/-- `malloc`; `none` if its loops have not ended after `fuel` rounds. -/
def malloc (base fuel : ℕ) (s : Heap) (nbytes : BitVec 32) (oks : List Bool) : Option (Heap × Result) :=
  let s := prepare base s
  mallocLoop (units nbytes) fuel s s.freep (next s.mem s.freep) oks

/-! ## More rounds -/

variable {fuel fuel' : ℕ}

theorem free_mono {s s' : Heap} {ap : ℕ} (le : fuel ≤ fuel') (ended : free fuel s ap = some s') :
    free fuel' s ap = some s' := by
  obtain ⟨p, found, result⟩ := map_eq_some_iff.mp ended
  exact map_eq_some_iff.mpr ⟨p, SList.find_mono le found, result⟩

theorem morecore_mono {s : Heap} {nu : BitVec 32} {ok : Bool} {r : Core × Heap} (le : fuel ≤ fuel')
    (ended : morecore fuel s nu ok = some r) : morecore fuel' s nu ok = some r := by
  rw [morecore] at ended ⊢
  generalize sbrk s (coreBytes (coreUnits nu)) ok = called at ended ⊢
  rcases called with ⟨_ | p, s⟩
  · exact ended
  · dsimp only at ended ⊢
    split_ifs at ended ⊢
    · exact ended
    · obtain ⟨s', freed, result⟩ := map_eq_some_iff.mp ended
      exact map_eq_some_iff.mpr ⟨s', free_mono le freed, result⟩

theorem mallocLoop_mono {nunits : BitVec 32} {s : Heap} {prevp p : ℕ} {oks : List Bool}
    {r : Heap × Result} (le : fuel ≤ fuel') (ended : mallocLoop nunits fuel s prevp p oks = some r) :
    mallocLoop nunits fuel' s prevp p oks = some r := by
  induction fuel generalizing s prevp p oks fuel' with
  | zero => exact absurd ended (some_ne_none r).symm
  | succ fuel ih =>
    obtain ⟨fuel', rfl⟩ : ∃ k, fuel' = k + 1 := ⟨fuel' - 1, by omega⟩
    have le' : fuel ≤ fuel' := by omega
    rw [mallocLoop] at ended ⊢
    split_ifs at ended ⊢
    · exact ended
    · cases more : morecore fuel s nunits (oks.headD false) with
      | none =>
        rw [more] at ended
        exact absurd ended (some_ne_none r).symm
      | some core =>
        rw [more] at ended
        rw [morecore_mono le' more]
        obtain ⟨_ | _ | _, s'⟩ := core
        · exact ended
        · exact ended
        · exact ih le' ended
    · exact ih le' ended

theorem malloc_mono {base : ℕ} {s : Heap} {nbytes : BitVec 32} {oks : List Bool} {r : Heap × Result}
    (le : fuel ≤ fuel') (ended : malloc base fuel s nbytes oks = some r) :
    malloc base fuel' s nbytes oks = some r := mallocLoop_mono le ended

/-- The call ends, with this heap and this result. -/
def MallocEnds (base : ℕ) (s : Heap) (nbytes : BitVec 32) (oks : List Bool) (s' : Heap)
    (res : Result) : Prop :=
  ∃ fuel, malloc base fuel s nbytes oks = some (s', res)

theorem MallocEnds.unique {base : ℕ} {s s₁ s₂ : Heap} {nbytes : BitVec 32} {oks : List Bool}
    {res₁ res₂ : Result} (first : MallocEnds base s nbytes oks s₁ res₁)
    (second : MallocEnds base s nbytes oks s₂ res₂) : s₁ = s₂ ∧ res₁ = res₂ := by
  obtain ⟨fuel₁, first⟩ := first
  obtain ⟨fuel₂, second⟩ := second
  have ended := malloc_mono (le_max_left fuel₁ fuel₂) first
  rw [malloc_mono (le_max_right fuel₁ fuel₂) second] at ended
  exact (Prod.mk.inj (some.inj ended)).imp Eq.symm Eq.symm

end Xv6.User
