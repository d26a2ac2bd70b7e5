import Xv6.Task.Alloc

/-!
# Growing and shrinking a process

`growproc` of `proc.c` and `sys_sbrk` of `sysproc.c`.
-/

namespace Xv6.Task

open Function Sys Vm Table Machine Option Heap

/-! ## The code -/

/-- `growproc(n)`. -/
def growproc (n : BitVec 32) : TProg (BitVec 32) := do
  let p ← act .myproc
  let x ← act (.image p)
  if 0 < n.toInt then
    let sz ← vm (uvmalloc x.pagetable x.sz ((x.sz + (n.signExtend 64).toNat) % 2 ^ 64) PTE_W)
    if sz = 0 then pure (-1)
    else
      act (.update p fun x => { x with sz := sz })
      pure 0
  else if n.toInt < 0 then
    let sz ← vm (uvmdealloc x.pagetable x.sz ((x.sz + (n.signExtend 64).toNat) % 2 ^ 64))
    act (.update p fun x => { x with sz := sz })
    pure 0
  else
    act (.update p fun y => { y with sz := x.sz })
    pure 0

/-- `sys_sbrk` with the argument `n`; returns the old size as an address. -/
def sysSbrk (n : BitVec 32) : TProg (BitVec 64) := do
  let p ← act .myproc
  let x ← act (.image p)
  if (← growproc n).toInt < 0 then pure (-1) else pure (BitVec.ofNat 64 x.sz)

/-! ## What a change of the size does -/

/-- The pages between the two sizes have been added, and they are zero. -/
def Grown (t t' : Table) (sz sz' : ℕ) : Prop :=
  t.Extends t' (pages sz) (pages sz' - pages sz) (PTE_R ||| PTE_U ||| PTE_W ||| PTE_V)

/-- The pages between the two sizes have been unmapped, and exactly these have become free. -/
structure Shrunk (mem mem' : Mem) (t t' : Table) (sz sz' : ℕ) : Prop where
  same : (t.dropRange (pages sz') (pages sz - pages sz')).Same t'
  free : ∀ a, a ∈ mem'.freelist ↔
    a ∈ mem.freelist ∨ ∃ v, pages sz' ≤ v ∧ v < pages sz ∧ a = pte2pa (t.leaf v)

/-- Process `p` has failed to change its size by `n` and nothing is different, or it has changed its
size by exactly `n`. -/
def Resized (p : ℕ) (n : BitVec 32) (m : Machine) (t : Table) (r : BitVec 32) (m' : Machine)
    (t' : Table) : Prop :=
  (r = -1 ∧ (m'.image p).sz = (m.image p).sz ∧ t.Same t') ∨
    (r = 0 ∧ ((m'.image p).sz : ℤ) = (m.image p).sz + n.toInt ∧
      (0 ≤ n.toInt → Grown t t' (m.image p).sz (m'.image p).sz) ∧
      (n.toInt < 0 → Shrunk m.mem m'.mem t t' (m.image p).sz (m'.image p).sz))

/-! ## Pages that become free -/

section

variable {ram : Ram} {t : Table} {h h' : Heap Page} {a k : ℕ}

theorem dropRange_place {n : Node} {b : ℕ} (at' : (t.dropRange a k).place n = some b) :
    t.place n = some b := by
  cases n with
  | root | mid i | low i => exact at'
  | user v =>
    rw [place, dropRange_user, dropRange_leaf] at at'
    split_ifs at at' with inside
    · cases at'
    · exact at'

theorem dropRange_own (rep : t.Repr ram h) (rep' : (t.dropRange a k).Repr ram h') {pg : ℕ}
    (own : h' pg ≠ none) : h pg ≠ none := by
  obtain ⟨x, hx⟩ := ne_none_iff_exists'.mp own
  obtain ⟨n, at', -⟩ := (rep'.placed.cells pg x).mp hx
  exact rep.own (dropRange_place at')

theorem dropRange_lost (rep : t.Repr ram h) (rep' : (t.dropRange a k).Repr ram h')
    (user : ∀ v, a ≤ v → v < a + k → t.user v ≠ none) (pg : ℕ) :
    (h pg ≠ none ∧ h' pg = none) ↔ ∃ v, a ≤ v ∧ v < a + k ∧ pg = pte2pa (t.leaf v) := by
  constructor
  · rintro ⟨own, lost⟩
    obtain ⟨x, hx⟩ := ne_none_iff_exists'.mp own
    obtain ⟨n, at', -⟩ := (rep.placed.cells pg x).mp hx
    have gone : (t.dropRange a k).place n ≠ some pg := fun still => rep'.own still lost
    cases n with
    | root | mid i | low i => exact absurd at' gone
    | user v =>
      by_cases inside : a ≤ v ∧ v < a + k
      · refine ⟨v, inside.1, inside.2, ?_⟩
        rw [place, map_eq_some_iff] at at'
        obtain ⟨_, -, e⟩ := at'
        exact e.symm
      · refine absurd ?_ gone
        rwa [place, dropRange_user, dropRange_leaf, if_neg inside, if_neg inside]
  · rintro ⟨v, lower, upper, rfl⟩
    obtain ⟨x, hx⟩ := ne_none_iff_exists'.mp (user v lower upper)
    have at' : t.place (.user v) = some (pte2pa (t.leaf v)) := by
      rw [place, hx, map_some]
    refine ⟨rep.own at', ?_⟩
    by_contra own
    obtain ⟨y, hy⟩ := ne_none_iff_exists'.mp own
    obtain ⟨n, still, -⟩ := (rep'.placed.cells _ y).mp hy
    obtain rfl := rep.placed.inj _ _ _ (dropRange_place still) at'
    rw [place, dropRange_user, if_pos ⟨lower, upper⟩] at still
    cases still

theorem Moves.freed {f : Heap Page} {m m' : Machine} (owns : m.mem.Owns ram (h.join f))
    (apart : h.Apart f) (moves : Moves ram f m h m' h') (less : ∀ pg, h' pg ≠ none → h pg ≠ none)
    (pg : ℕ) : pg ∈ m'.mem.freelist ↔ pg ∈ m.mem.freelist ∨ (h pg ≠ none ∧ h' pg = none) := by
  have all := moves.keeps.pages pg
  rw [Ne, Ne, join_eq_none, join_eq_none] at all
  have free := fun there => join_eq_none.mp (owns.free pg there).1
  have free' := fun there => join_eq_none.mp (moves.owns.free pg there).1
  have := less pg
  have := apart pg
  constructor
  · intro there
    have := free' there
    tauto
  · rintro (there | ⟨own, lost⟩)
    · have := free there
      tauto
    · have : f pg = none := by tauto
      tauto

end

/-! ## `growproc` -/

section

variable {ram : Ram} {p : ℕ} {A : Panic → Prop} {m : Machine} {t : Table} {h : Heap Page}
  {frame : Page} {n : BitVec 32}

theorem add_signExtend {sz : ℕ} (small : sz < 2 ^ 63) (n : BitVec 32) :
    ((sz + (n.signExtend 64).toNat) % 2 ^ 64 : ℕ) =
      if 0 ≤ sz + n.toInt then sz + n.toInt else 2 ^ 64 + (sz + n.toInt) := by
  have low : -2 ^ 31 ≤ n.toInt := n.le_toInt
  have high : n.toInt < 2 ^ 31 := n.toInt_lt
  have wide : ((n.signExtend 64).toNat : ℤ) = n.toInt % 2 ^ 64 := by
    have := (n.signExtend 64).isLt
    rw [← BitVec.toInt_signExtend_of_le (w := 32) (v := 64) (by decide), BitVec.toInt_eq_toNat_bmod,
      Int.bmod]
    split_ifs <;> omega
  split_ifs with fits
  · omega
  · omega

theorem sz_lt (lives : Lives ram m p t h frame) : (m.image p).sz < 2 ^ 63 := by
  have few := lives.maps.lt lives.rep
  simp only [pages, TRAPFRAME, TRAMPOLINE, MAXVA, PGSIZE] at few
  omega

/-- The machine after a change of the size and the table of process `p`, whose pages were `h`: pages
have moved only between the process and the free list, and all other pages have their contents. -/
structure After (ram : Ram) (p : ℕ) (m : Machine) (h : Heap Page) (frame : Page) (m' : Machine)
    (t' : Table) (h' : Heap Page) : Prop where
  lives : Lives ram m' p t' h' frame
  kernel : m'.kernel = m.kernel
  others : ∀ q, q ≠ p → m'.image q = m.image q
  trapframe : (m'.image p).trapframe = (m.image p).trapframe
  keeps : m.mem.Keeps (h.join (single (m.image p).trapframe frame)) m'.mem
    (h'.join (single (m.image p).trapframe frame))

def Machine.setSz (m : Machine) (p sz : ℕ) : Machine :=
  { m with image := update m.image p { m.image p with sz := sz } }

theorem Machine.setSz_image (m : Machine) (p sz : ℕ) :
    (m.setSz p sz).image p = { m.image p with sz := sz } := update_self ..

theorem Machine.setSz_sz (m : Machine) (p sz : ℕ) : ((m.setSz p sz).image p).sz = sz := by
  rw [setSz_image]

theorem ends_setSz {sz : ℕ} {Q : BitVec 32 → Machine → Prop} (done : Q 0 (m.setSz p sz)) :
    Ends ram p A (do act (.update p fun x => { x with sz := sz }); pure 0) m Q :=
  (ends_act (r := ()) rfl ⟨trivial, done⟩).bind

section

variable (lives : Lives ram m p t h frame)
include lives

theorem Lives.resize {m' : Machine} {t' : Table} {h' : Heap Page}
    {sz : ℕ} (moves : Moves ram (single (m.image p).trapframe frame) m h m' h')
    (root : t'.root = t.root) (rep : t'.Repr ram h')
    (maps : t'.Maps (pages sz) (fun _ => True) (kernelPtes ram (m.image p).trapframe)) :
    After ram p m h frame (m'.setSz p sz) t' h' := by
  have now : (m'.setSz p sz).image p = { m.image p with sz := sz } := by
    rw [setSz_image, moves.image]
  refine ⟨⟨?_, rep, ?_, ?_, ?_⟩, moves.kernel, fun q ne => ?_, by rw [now], moves.keeps⟩
  · rw [now, root, lives.root]
  · rw [now]
    exact maps
  · rw [now]
    exact moves.apart
  · rw [now]
    exact moves.owns
  · show update _ _ _ q = _
    rw [update_of_ne ne, moves.image]

theorem Lives.rewrite {m' : Machine} {t' : Table} {h' : Heap Page}
    (moves : Moves ram (single (m.image p).trapframe frame) m h m' h') (root : t'.root = t.root)
    (rep : t'.Repr ram h') (maps : t'.Maps (pages (m.image p).sz) (fun _ => True)
      (kernelPtes ram (m.image p).trapframe)) : After ram p m h frame m' t' h' := by
  have stays : m'.setSz p (m.image p).sz = m' := by
    rw [setSz, moves.image, update_eq_self, ← moves.image]
  rw [← stays]
  exact lives.resize moves root rep maps

theorem growproc_grow (grow : 0 < n.toInt) :
    Ends ram p A (growproc n) m fun r m' =>
      ∃ t' h', After ram p m h frame m' t' h' ∧ Resized p n m t r m' t' := by
  have newsz := add_signExtend (sz_lt lives) n
  rw [if_pos (by omega)] at newsz
  rw [growproc]
  refine (ends_act (r := p) rfl ?_).bind
  refine (ends_act (r := m.image p) rfl ?_).bind
  rw [if_pos grow, ← lives.root]
  refine (((Moves.refl lives.apart lives.owns).vm
    (uvmalloc_follows lives.rep lives.maps rfl trivial)).mono ?_).bind
  rintro sz m' ⟨h', ⟨t', rep', ⟨rfl, same⟩ | ⟨sz_eq, ext⟩⟩, moves⟩
  · rw [if_pos rfl]
    exact ⟨trivial, t', h', lives.rewrite moves same.root rep' (lives.maps.same same),
      .inl ⟨rfl, by rw [moves.image], same⟩⟩
  · rw [if_neg (by omega)]
    have more : pages (m.image p).sz ≤ pages sz := pages_mono (by omega)
    have maps := lives.maps.extends ext trivial (by decide)
    rw [Nat.add_sub_cancel' more] at maps
    refine ends_setSz ⟨t', h', lives.resize moves ext.root rep' maps, .inr ⟨rfl, ?_, ?_, by omega⟩⟩
    · rw [setSz_sz]
      omega
    · intro _
      rwa [setSz_sz]

theorem growproc_shrink (shrink : n.toInt < 0) :
    Ends ram p A (growproc n) m fun r m' => ∃ t' h', After ram p m h frame m' t' h' ∧
      if 0 ≤ (m.image p).sz + n.toInt then Resized p n m t r m' t'
      else r = 0 ∧ (m'.image p).sz = (m.image p).sz ∧ t.Same t' := by
  have newsz := add_signExtend (sz_lt lives) n
  have few := lives.maps.lt lives.rep
  have low : -2 ^ 31 ≤ n.toInt := n.le_toInt
  rw [growproc]
  refine (ends_act (r := p) rfl ?_).bind
  refine (ends_act (r := m.image p) rfl ?_).bind
  rw [if_neg (by omega), if_pos shrink, ← lives.root]
  refine (((Moves.refl lives.apart lives.owns).vm
    (uvmdealloc_follows lives.rep lives.maps rfl)).mono ?_).bind
  rintro sz m' ⟨h', ⟨sz_eq, rep'⟩, moves⟩
  have less : pages sz ≤ pages (m.image p).sz := pages_mono (by omega)
  have maps := lives.maps.dropRange (by omega) less
  refine ends_setSz ⟨t.dropRange (pages sz) (pages (m.image p).sz - pages sz), h',
    lives.resize moves rfl rep' maps, ?_⟩
  split_ifs at newsz ⊢ with fits
  · refine .inr ⟨rfl, ?_, by omega, fun _ => ⟨?_, fun a => ?_⟩⟩
    · rw [setSz_sz]
      omega
    · rw [setSz_sz]
      exact .refl
    · have lost := dropRange_lost lives.rep rep' (fun v _ upper => lives.maps.user v (by omega))
      have free := Moves.freed lives.owns lives.apart moves (fun _ => dropRange_own lives.rep rep') a
      rw [lost, Nat.add_sub_cancel' less] at free
      rwa [setSz_sz]
  · have same : sz = (m.image p).sz := by omega
    refine ⟨rfl, by rw [setSz_sz, same], ?_⟩
    rw [same, Nat.sub_self, dropRange_zero]
    exact .refl

theorem growproc_zero (zero : n.toInt = 0) :
    Ends ram p A (growproc n) m fun r m' =>
      ∃ t' h', After ram p m h frame m' t' h' ∧ Resized p n m t r m' t' := by
  rw [growproc]
  refine (ends_act (r := p) rfl ?_).bind
  refine (ends_act (r := m.image p) rfl ?_).bind
  rw [if_neg (by omega), if_neg (by omega)]
  refine ends_setSz ⟨t, h, lives.resize (.refl lives.apart lives.owns) rfl lives.rep lives.maps,
    .inr ⟨rfl, ?_, fun _ => ?_, by omega⟩⟩
  · rw [setSz_sz, zero, add_zero]
  · rw [setSz_sz, Grown, Nat.sub_self]
    exact Table.Same.refl.extends _ _

/-- What `growproc` does: it fails and nothing changes, or it changes the size by `n`; but if the new
size would be negative, it returns 0 without any effect. -/
theorem growproc_ends (n : BitVec 32) :
    Ends ram p A (growproc n) m fun r m' => ∃ t' h', After ram p m h frame m' t' h' ∧
      if 0 ≤ (m.image p).sz + n.toInt then Resized p n m t r m' t'
      else r = 0 ∧ (m'.image p).sz = (m.image p).sz ∧ t.Same t' := by
  rcases lt_trichotomy n.toInt 0 with shrink | zero | grow
  · exact growproc_shrink lives shrink
  · simp only [if_pos (show 0 ≤ (m.image p).sz + n.toInt by omega)]
    exact growproc_zero lives zero
  · simp only [if_pos (show 0 ≤ (m.image p).sz + n.toInt by omega)]
    exact growproc_grow lives grow

theorem growproc_negative {n : BitVec 32} (negative : (m.image p).sz + n.toInt < 0) :
    ¬ ∃ r m' t' h', (growproc n).run (Machine.exec ram p) m = (.ok r, m') ∧
      Lives ram m' p t' h' frame ∧ Resized p n m t r m' t' := by
  have ends := growproc_ends (A := fun _ => False) lives n
  rintro ⟨r', m', t'', h'', run, -, fail | ⟨-, exact, -⟩⟩
  · rcases ends.run with ⟨r, ret, t', h', -, post⟩ | ⟨e, -, no⟩
    · rw [if_neg (by omega)] at post
      rw [run] at ret
      cases ret
      rw [fail.1] at post
      exact absurd post.1 (by decide)
    · exact no
  · omega

end

/-- `growproc` fails without any effect or changes the size by exactly `n`, if and only if the size
that is asked for is not negative. -/
theorem growproc_exact_iff (lives : Lives ram m p t h frame) (n : BitVec 32) :
    (∃ r m' t' h', (growproc n).run (Machine.exec ram p) m = (.ok r, m') ∧
      Lives ram m' p t' h' frame ∧ Resized p n m t r m' t') ↔ 0 ≤ (m.image p).sz + n.toInt := by
  constructor
  · intro done
    by_contra negative
    exact growproc_negative lives (by omega) done
  · intro fits
    have ends := growproc_ends (A := fun _ => False) lives n
    rcases ends.run with ⟨r, ret, t', h', after, post⟩ | ⟨e, -, no⟩
    · rw [if_pos fits] at post
      exact ⟨r, _, t', h', Prod.ext ret rfl, after.lives, post⟩
    · exact no.elim

/-- The size after `sbrk(n)`. -/
def sbrkSize (sz : ℕ) (n : ℤ) : ℕ := if 0 ≤ sz + n then (sz + n).toNat else sz

/-- `sbrk` fails to grow the process, or returns its old size; the tables of the kernel, the other
processes and all pages that are not its own or free stay as they are. -/
theorem sysSbrk_ends (lives : Lives ram m p t h frame) (n : BitVec 32) :
    Ends ram p A (sysSbrk n) m fun r m' => ∃ t' h', After ram p m h frame m' t' h' ∧
      ((r = -1 ∧ (m'.image p).sz = (m.image p).sz) ∨
        (r = BitVec.ofNat 64 (m.image p).sz ∧ (m'.image p).sz = sbrkSize (m.image p).sz n.toInt)) := by
  rw [sysSbrk]
  refine (ends_act (r := p) rfl ?_).bind
  refine (ends_act (r := m.image p) rfl ?_).bind
  refine ((growproc_ends lives n).mono ?_).bind
  rintro r m' ⟨t', h', after, post⟩
  rw [sbrkSize]
  split_ifs at post ⊢ with failed fits fits
  · rcases post with ⟨rfl, sz, -⟩ | ⟨rfl, -⟩
    · exact ⟨trivial, t', h', after, .inl ⟨rfl, sz⟩⟩
    · exact absurd failed (by decide)
  · obtain ⟨rfl, -⟩ := post
    exact absurd failed (by decide)
  · rcases post with ⟨rfl, -⟩ | ⟨rfl, sz, -⟩
    · exact absurd (by decide) failed
    · exact ⟨trivial, t', h', after, .inr ⟨rfl, by omega⟩⟩
  · exact ⟨trivial, t', h', after, .inr ⟨rfl, post.2.1⟩⟩

end

/-! ## A process with one page -/

def pageMachine (s : KState) : Machine :=
  ((growproc 4096).run (Machine.exec textRam 0) (emptyMachine s)).2

theorem pageMachine_lives (s : KState) : ∃ t h frame, Lives textRam (pageMachine s) 0 t h frame ∧
    Alone (pageMachine s) h frame ∧ (pageMachine s).kernel = s := by
  obtain ⟨t, h, frame, lives, alone⟩ := emptyMachine_lives s
  rcases (growproc_ends (A := fun _ => False) lives 4096).run with ⟨r, -, t', h', after, -⟩ | ⟨_, -, no⟩
  · refine ⟨t', h', frame, after.lives, ⟨fun q other => ?_, alone.keeps.trans ?_⟩, after.kernel⟩
    · rw [pageMachine, after.others q other, alone.others q other]
    · rw [pageMachine, after.trapframe]
      exact after.keeps
  · exact no.elim

theorem pageMachine_sz : ((pageMachine (smallState 3 0 0)).image 0).sz = PGSIZE := by decide +kernel

/-- A process with one page gives it back. -/
theorem growproc_frees_page : ∃ (m : Machine) (t : Table) (h : Heap Page) (frame : Page),
    Lives textRam m 0 t h frame ∧ (m.image 0).sz = PGSIZE ∧
      ∃ r m' t' h', (growproc (-4096)).run (Machine.exec textRam 0) m = (.ok r, m') ∧
        Lives textRam m' 0 t' h' frame ∧ Resized 0 (-4096) m t r m' t' := by
  obtain ⟨t, h, frame, lives, -⟩ := pageMachine_lives (smallState 3 0 0)
  refine ⟨_, t, h, frame, lives, pageMachine_sz, (growproc_exact_iff lives (-4096)).mpr ?_⟩
  rw [pageMachine_sz]
  decide

/-- A process with one page asks for two pages less: `growproc` returns 0, and the size is the same. -/
theorem growproc_ignores_negative : ∃ (m : Machine) (t : Table) (h : Heap Page) (frame : Page),
    Lives textRam m 0 t h frame ∧ (m.image 0).sz = PGSIZE ∧
      ¬ ∃ r m' t' h', (growproc (-8192)).run (Machine.exec textRam 0) m = (.ok r, m') ∧
        Lives textRam m' 0 t' h' frame ∧ Resized 0 (-8192) m t r m' t' := by
  obtain ⟨t, h, frame, lives, -⟩ := pageMachine_lives (smallState 3 0 0)
  refine ⟨_, t, h, frame, lives, pageMachine_sz, growproc_negative lives ?_⟩
  rw [pageMachine_sz]
  decide

/-- A process with one page asks for another one and gets it. -/
theorem sysSbrk_ends_page : ∃ m' t' h h' frame, (sysSbrk 4096).run (Machine.exec textRam 0)
      (pageMachine (smallState 3 0 0)) = (.ok 4096, m') ∧ (m'.image 0).sz = 2 * PGSIZE ∧
    After textRam 0 (pageMachine (smallState 3 0 0)) h frame m' t' h' := by
  obtain ⟨t, h, frame, lives, -⟩ := pageMachine_lives (smallState 3 0 0)
  have returns : (match ((sysSbrk 4096).run (Machine.exec textRam 0)
      (pageMachine (smallState 3 0 0))).1 with
    | .ok r => r == 4096
    | .error _ => false) = true := by
    decide +kernel
  have ends := (sysSbrk_ends (A := fun _ => False) lives 4096).run
  generalize (sysSbrk 4096).run (Machine.exec textRam 0) (pageMachine (smallState 3 0 0)) = out
    at returns ends ⊢
  obtain ⟨_, m'⟩ := out
  rcases ends with ⟨r, rfl, t', h', after, sizes⟩ | ⟨e, -, no⟩
  · obtain rfl : r = 4096 := beq_iff_eq.mp returns
    refine ⟨m', t', h, h', frame, rfl, ?_, after⟩
    rcases sizes with ⟨failed, -⟩ | ⟨-, size⟩
    · exact absurd failed (by decide)
    · rw [size, pageMachine_sz]
      decide
  · exact no.elim

end Xv6.Task
