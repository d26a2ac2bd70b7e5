import Xv6.Vm.Memory

/-!
# Page tables

The functions of `vm.c` and `proc.c` on user page tables, as programs over the operations on physical
memory.  A page table is the page number of its root; a pointer to an entry is a page number and an
index.
-/

namespace Xv6.Vm

def panic {α : Type} (e : Panic) : MProg α := .op (.panic e) nofun

def walkFrom (va : ℕ) (alloc : Bool) : (level pagetable : ℕ) → MProg (Option (ℕ × ℕ))
  | 0, pagetable => pure (some (pagetable, px 0 va))
  | level + 1, pagetable => do
      let pte ← mem (.load pagetable (px (level + 1) va))
      if has (flags pte) PTE_V then walkFrom va alloc level (pte2pa pte)
      else if alloc then
        match ← mem .kalloc with
        | none => pure none
        | some pg =>
            mem (.clear pg)
            mem (.store pagetable (px (level + 1) va) (mkPte pg PTE_V))
            walkFrom va alloc level pg
      else pure none

/-- `walk`, which returns the page and the index of the entry. -/
def walk (pagetable va : ℕ) (alloc : Bool) : MProg (Option (ℕ × ℕ)) :=
  if MAXVA ≤ va then panic .walk else walkFrom va alloc 2 pagetable

def walkaddr (pagetable va : ℕ) : MProg ℕ :=
  if MAXVA ≤ va then pure 0
  else do
    match ← walk pagetable va false with
    | none => pure 0
    | some (pg, i) =>
        let pte ← mem (.load pg i)
        if !has (flags pte) PTE_V then pure 0
        else if !has (flags pte) PTE_U then pure 0
        else pure (pte2pa pte)

/-- The loop of `mappages` when `n` more pages follow the one at `a`. -/
def mappagesFrom (pagetable : ℕ) (perm : Flags) (n a pa : ℕ) : MProg Bool := do
  match ← walk pagetable a true with
  | none => pure false
  | some (pg, i) =>
      let pte ← mem (.load pg i)
      if has (flags pte) PTE_V then panic .mappagesRemap
      else
        mem (.store pg i (mkPte pa (perm ||| PTE_V)))
        match n with
        | 0 => pure true
        | n + 1 => mappagesFrom pagetable perm n ((a + PGSIZE) % 2 ^ 64) ((pa + 1) % 2 ^ 52)

def mappages (pagetable va size pa : ℕ) (perm : Flags) : MProg Bool :=
  if size = 0 then panic .mappagesSize
  else
    let a := pgrounddown va
    let last := pgrounddown ((va + size - 1) % 2 ^ 64)
    mappagesFrom pagetable perm ((last + 2 ^ 64 - a) % 2 ^ 64 / PGSIZE) a pa

def unmapPage (pagetable : ℕ) (doFree : Bool) (a : ℕ) : MProg Unit := do
  match ← walk pagetable a false with
  | none => panic .uvmunmapWalk
  | some (pg, i) =>
      let pte ← mem (.load pg i)
      if !has (flags pte) PTE_V then panic .uvmunmapNotMapped
      else if flags pte = PTE_V then panic .uvmunmapNotALeaf
      else if doFree then
        mem (.kfree (pte2pa pte))
        mem (.store pg i 0)
      else mem (.store pg i 0)

def uvmunmap (pagetable va npages : ℕ) (doFree : Bool) : MProg Unit :=
  if va % PGSIZE ≠ 0 then panic .uvmunmapNotAligned
  else
    let last := (va + npages * PGSIZE) % 2 ^ 64
    Prog.loop (fun i => unmapPage pagetable doFree (va + i * PGSIZE)) 0 ((last - va) / PGSIZE)

def uvmcreate : MProg (Option ℕ) := do
  match ← mem .kalloc with
  | none => pure none
  | some pagetable =>
      mem (.clear pagetable)
      pure (some pagetable)

/-- The value of an `int` as `uint64`. -/
def ofInt (n : ℕ) : ℕ := ((BitVec.ofNat 32 n).signExtend 64).toNat

def uvmdealloc (pagetable oldsz newsz : ℕ) : MProg ℕ :=
  if oldsz ≤ newsz then pure oldsz
  else if pgroundup newsz < pgroundup oldsz then do
    let npages := (pgroundup oldsz - pgroundup newsz) / PGSIZE
    uvmunmap pagetable (pgroundup newsz) (ofInt npages) true
    pure newsz
  else pure newsz

/-- The loop of `uvmalloc` when `n` pages are left, from `a`.  Memory is exhausted long before the
code's `a` wraps around. -/
def uvmallocFrom (pagetable oldsz newsz : ℕ) (xperm : Flags) : (n a : ℕ) → MProg ℕ
  | 0, _ => pure newsz
  | n + 1, a => do
      match ← mem .kalloc with
      | none =>
          let _ ← uvmdealloc pagetable a oldsz
          pure 0
      | some pg =>
          mem (.clear pg)
          if ← mappages pagetable a PGSIZE pg (PTE_R ||| PTE_U ||| xperm) then
            uvmallocFrom pagetable oldsz newsz xperm n (a + PGSIZE)
          else
            mem (.kfree pg)
            let _ ← uvmdealloc pagetable a oldsz
            pure 0

def uvmalloc (pagetable oldsz newsz : ℕ) (xperm : Flags) : MProg ℕ :=
  if newsz < oldsz then pure oldsz
  else
    let oldsz := pgroundup oldsz
    uvmallocFrom pagetable oldsz newsz xperm ((newsz - oldsz + PGSIZE - 1) / PGSIZE) oldsz

/-- Recursively free page-table pages.  All leaf mappings must already have been removed.  `depth`
bounds the recursion. -/
def freewalk : (depth pagetable : ℕ) → MProg Unit
  | 0, _ => .op .deeper nofun
  | depth + 1, pagetable => do
      Prog.loop (fun i => do
        let pte ← mem (.load pagetable i)
        if has (flags pte) PTE_V && !has (flags pte) (PTE_R ||| PTE_W ||| PTE_X) then
          freewalk depth (pte2pa pte)
          mem (.store pagetable i 0)
        else if has (flags pte) PTE_V then panic .freewalkLeaf
        else pure ()) 0 512
      mem (.kfree pagetable)

def uvmfree (pagetable sz : ℕ) : MProg Unit := do
  if 0 < sz then
    uvmunmap pagetable 0 (pgroundup sz / PGSIZE) true
    freewalk 3 pagetable
  else freewalk 3 pagetable

def uvmcopyFail (new i : ℕ) : MProg Bool := do
  uvmunmap new 0 (i / PGSIZE) true
  pure false

def uvmcopyFrom (old new : ℕ) : (n i : ℕ) → MProg Bool
  | 0, _ => pure true
  | n + 1, i => do
      match ← walk old i false with
      | none => panic .uvmcopyNoPte
      | some (pg, k) =>
          let pte ← mem (.load pg k)
          if !has (flags pte) PTE_V then panic .uvmcopyNotPresent
          else
            match ← mem .kalloc with
            | none => uvmcopyFail new i
            | some page =>
                let bytes ← mem (.read (pte2pa pte) 0 PGSIZE)
                mem (.write page 0 bytes)
                if ← mappages new i PGSIZE page (flags pte) then
                  uvmcopyFrom old new n (i + PGSIZE)
                else
                  mem (.kfree page)
                  uvmcopyFail new i

def uvmcopy (old new sz : ℕ) : MProg Bool := uvmcopyFrom old new ((sz + PGSIZE - 1) / PGSIZE) 0

def uvmclear (pagetable va : ℕ) : MProg Unit := do
  match ← walk pagetable va false with
  | none => panic .uvmclear
  | some (pg, i) =>
      let pte ← mem (.load pg i)
      mem (.store pg i (pte &&& ~~~(PTE_U.setWidth 64)))

/-! ## Copying between kernel and user memory -/

/-- The loop of `copyout`; every round copies at least one byte, so that `k` rounds suffice for `k`
bytes. -/
def copyoutFrom (pagetable : ℕ) : (k dstva : ℕ) → (src : List Byte) → MProg Bool
  | 0, _, _ => pure true
  | k + 1, dstva, src =>
      if src = [] then pure true
      else do
        let va0 := pgrounddown dstva
        let pa0 ← walkaddr pagetable va0
        if pa0 = 0 then pure false
        else
          let n := min (PGSIZE - (dstva - va0)) src.length
          mem (.write pa0 (dstva - va0) (src.take n))
          copyoutFrom pagetable k ((va0 + PGSIZE) % 2 ^ 64) (src.drop n)

/-- `copyout`. -/
def copyout (pagetable dstva : ℕ) (src : List Byte) : MProg Bool :=
  copyoutFrom pagetable src.length dstva src

def copyinFrom (pagetable : ℕ) : (k srcva len : ℕ) → MProg (Option (List Byte))
  | 0, _, _ => pure (some [])
  | k + 1, srcva, len =>
      if len = 0 then pure (some [])
      else do
        let va0 := pgrounddown srcva
        let pa0 ← walkaddr pagetable va0
        if pa0 = 0 then pure none
        else
          let n := min (PGSIZE - (srcva - va0)) len
          let bytes ← mem (.read pa0 (srcva - va0) n)
          let rest ← copyinFrom pagetable k ((va0 + PGSIZE) % 2 ^ 64) (len - n)
          pure (rest.map (bytes ++ ·))

/-- `copyin`, which returns the bytes. -/
def copyin (pagetable srcva len : ℕ) : MProg (Option (List Byte)) :=
  copyinFrom pagetable len srcva len

/-- The inner loop of `copyinstr`: the bytes that it copies from a page, and whether it has found the
terminating zero. -/
def copyChars : List Byte → List Byte × Bool
  | [] => ([], false)
  | c :: chars =>
      if c = 0 then ([0], true)
      else (c :: (copyChars chars).1, (copyChars chars).2)

/-- The loop of `copyinstr`; returns whether it has found the terminating zero, and the bytes that it
has stored in `dst`. -/
def copyinstrFrom (pagetable : ℕ) : (k srcva max : ℕ) → MProg (Bool × List Byte)
  | 0, _, _ => pure (false, [])
  | k + 1, srcva, max =>
      if max = 0 then pure (false, [])
      else do
        let va0 := pgrounddown srcva
        let pa0 ← walkaddr pagetable va0
        if pa0 = 0 then pure (false, [])
        else
          let n := min (PGSIZE - (srcva - va0)) max
          let chars ← mem (.read pa0 (srcva - va0) n)
          if (copyChars chars).2 then pure (true, (copyChars chars).1)
          else do
            let rest ← copyinstrFrom pagetable k ((va0 + PGSIZE) % 2 ^ 64) (max - n)
            pure (rest.1, (copyChars chars).1 ++ rest.2)

/-- `copyinstr`, which returns the bytes copied. -/
def copyinstr (pagetable srcva max : ℕ) : MProg (Bool × List Byte) :=
  copyinstrFrom pagetable max srcva max

/-! ## The page table of a process -/

section

variable (ram : Ram)

def procPagetable (trapframe : ℕ) : MProg (Option ℕ) := do
  match ← uvmcreate with
  | none => pure none
  | some pagetable =>
      if ← mappages pagetable TRAMPOLINE PGSIZE ram.trampoline (PTE_R ||| PTE_X) then
        if ← mappages pagetable TRAPFRAME PGSIZE trapframe (PTE_R ||| PTE_W) then
          pure (some pagetable)
        else
          uvmunmap pagetable TRAMPOLINE 1 false
          uvmfree pagetable 0
          pure none
      else
        uvmfree pagetable 0
        pure none

end

def procFreepagetable (pagetable sz : ℕ) : MProg Unit := do
  uvmunmap pagetable TRAMPOLINE 1 false
  uvmunmap pagetable TRAPFRAME 1 false
  uvmfree pagetable sz

end Xv6.Vm
