import Xv6.Task.Args
import Xv6.Task.Load

/-!
# Replacing the user program

What `exec` does for every contents of the file, every list of arguments and every point at which
`kalloc` can fail: it builds the new address space next to the old one and then gives one of them back.
-/

namespace Xv6.Task

open Function Sys Vm Heap Elfhdr List

def execFrame (frame : Page) (entry sp : ℕ) : Page :=
  setPte (setPte (setPte frame A1 (BitVec.ofNat 64 sp)) EPC (BitVec.ofNat 64 entry)) SP
    (BitVec.ofNat 64 sp)

def Machine.committed (m : Machine) (p : ℕ) (path : Path) (pagetable sz : ℕ) (mem : Mem) : Machine :=
  { m with
    mem := mem
    image := update m.image p
      { m.image p with name := programName path, pagetable := pagetable, sz := sz } }

section

variable {ram : Ram} {p : ℕ} {A : Panic → Prop} {m₀ m : Machine} {t t' : Table} {h h' f : Heap Page}
  {frame : Page} {argv : List (List Byte)} {file : List Byte}

theorem Lives.fits (lives : Lives ram m p t h frame) : (m.image p).trapframe < 2 ^ 52 := by
  refine lives.owns.within.fits (a := (m.image p).trapframe) fun absent => ?_
  have := (join_eq_none.mp absent).2
  rw [single_self] at this
  cases this

/-! ## Failure -/

theorem execBad_ends (moves : Moves ram f m₀ empty m h) {F : Flags → Prop}
    {trapframe pagetable sz : ℕ} (fits : trapframe < 2 ^ 52)
    (space : pagetable = 0 ∧ h = empty ∨ pagetable ≠ 0 ∧ ∃ t : Table, t.root = pagetable ∧
      t.Repr ram h ∧ t.Maps (pages sz) F (kernelPtes ram trapframe)) :
    Ends ram p A (execBad pagetable sz none) m fun r m' => r = none ∧
      Moves ram f m₀ empty m' empty := by
  refine ((moves.freeSpace fits space).mono ?_).bind
  intro _ m' moves'
  exact ⟨trivial, rfl, moves'⟩

/-! ## The stack -/

abbrev stackFlags : Flags := PTE_R ||| PTE_U ||| PTE_W ||| PTE_V

/-- The table has a guard page at `n` and above it the stack page with the arguments. -/
structure Stacked (t : Table) (n : ℕ) (argv : List (List Byte)) (sp : ℕ) : Prop where
  guard : t.user n = some (fill 0) ∧ flags (t.leaf n) = stackFlags &&& ~~~PTE_U
  stack : flags (t.leaf (n + 1)) = stackFlags
  fits : argSpace argv ≤ PGSIZE
  pointer : sp = (n + 2) * PGSIZE - argSpace argv
  pushed : Pushed t ((n + 2) * PGSIZE) argv (stringPlaces ((n + 2) * PGSIZE) argv) sp

/-- Arguments that `sys_exec` accepts. -/
structure ArgsOk (argv : List (List Byte)) : Prop where
  few : argv.length < MAXARG
  short : ∀ arg ∈ argv, arg.length < PGSIZE

theorem execStack_ends (moves : Moves ram f m₀ empty m h) (rep : t.Repr ram h)
    {sz trapframe : ℕ} (maps : t.Maps (pages sz) UserPage (kernelPtes ram trapframe))
    (fits : trapframe < 2 ^ 52) (args : ArgsOk argv) (entry : ℕ) :
    Ends ram p A (execStack argv entry t.root sz) m fun r m' =>
      (r = none ∧ Moves ram f m₀ empty m' empty) ∨
      ∃ sp t' h', r = some ⟨entry, t'.root, (pages sz + 2) * PGSIZE, argv.length, sp⟩ ∧
        Moves ram f m₀ empty m' h' ∧ t'.Repr ram h' ∧
        t'.Maps (pages sz + 2) (fun _ => True) (kernelPtes ram trapframe) ∧
        (∀ v < pages sz, t'.user v = t.user v ∧ t'.leaf v = t.leaf v) ∧
        Stacked t' (pages sz) argv sp := by
  have lt := maps.lt rep
  have address := maps.address_lt rep (le_refl (pages sz))
  have there : t.root ≠ 0 := page_pos (rep.within _ (rep.own (n := .root) rfl))
  rw [execStack, pgroundup_eq lt.le]
  generalize pages sz = n at *
  have size : (n * PGSIZE + 2 * PGSIZE) % 2 ^ 64 = (n + 2) * PGSIZE := by
    simp only [PGSIZE] at address ⊢
    omega
  rw [size]
  refine ((moves.vm (uvmalloc_follows rep maps (pages_mul n) (userPage_perm PTE_W))).mono ?_).bind
  rintro r m₁ ⟨h₁, ⟨t₁, rep₁, outcome⟩, moves₁⟩
  rcases outcome with ⟨rfl, same⟩ | ⟨value, ext⟩
  · rw [if_pos rfl]
    have maps₁ := maps.same same
    rw [← pages_mul n] at maps₁
    exact (execBad_ends moves₁ fits (.inr ⟨there, t₁, same.root, rep₁, maps₁⟩)).mono
      fun r m' done => .inl done
  have two : (n + 2) * PGSIZE = n * PGSIZE + 2 * PGSIZE := add_mul n 2 PGSIZE
  have one : (n + 2) * PGSIZE = (n + 1) * PGSIZE + PGSIZE := Nat.succ_mul (n + 1) PGSIZE
  rw [max_eq_right (Nat.mul_le_mul_right PGSIZE (Nat.le_add_right n 2))] at value
  subst value
  have pos : (n + 2) * PGSIZE ≠ 0 := Nat.mul_ne_zero (by omega) (by decide)
  rw [if_neg pos, Nat.sub_eq_of_eq_add two, Nat.sub_eq_of_eq_add one]
  rw [pages_mul, Nat.add_sub_cancel_left] at ext
  have maps₁ := maps.extends ext (userPage_perm PTE_W) (by decide)
  have guard : n < n + 2 := by omega
  -- the guard page
  have clear := uvmclear_follows (p := p) rep₁
    (lt_trans lt (by decide)) (rep₁.wf.user_valid n (maps₁.user n guard))
  rw [ext.root] at clear
  refine ((moves₁.vm clear).mono ?_).bind
  rintro _ m₂ ⟨h₂, rep₂, moves₂⟩
  have maps₂ := maps₁.clearU guard
  have acc := maps₁.accessible rep₁ (Nat.lt_succ_self (n + 1))
  generalize t₂_eq : t₁.setLeaf n (t₁.leaf n &&& ~~~(PTE_U.setWidth 64)) = t₂ at *
  have root₂ : t₂.root = t.root := by
    rw [← t₂_eq]
    exact ext.root
  have leaf₂ (v : ℕ) (ne : v ≠ n) : t₂.leaf v = t₁.leaf v := by
    rw [← t₂_eq, Table.setLeaf_leaf, update_of_ne ne]
  have acc₂ : t₂.Accessible (n + 1) := by
    rwa [Table.Accessible, leaf₂ (n + 1) (by omega)]
  -- the arguments
  have push := pushArgs_follows (p := p) (maps₂.private fits) acc₂ argv
    (Nat.le_mul_of_pos_left PGSIZE (Nat.succ_pos n)) args.few args.short rep₂
  rw [← one, root₂] at push
  refine ((moves₂.vm push).mono ?_).bind
  rintro r m₃ ⟨h₃, ⟨t₃, rep₃, rewrites, post⟩, moves₃⟩
  have maps₃ := rewrites.maps maps₂ (Nat.lt_succ_self (n + 1))
  have root₃ := rewrites.root.trans root₂
  by_cases room : argSpace argv ≤ PGSIZE
  swap
  · rw [if_neg room] at post
    subst post
    rw [← pages_mul (n + 2)] at maps₃
    exact (execBad_ends moves₃ fits (.inr ⟨there, t₃, root₃, rep₃, maps₃⟩)).mono
      fun r m' done => .inl done
  rw [if_pos room] at post
  obtain ⟨rfl, pushed⟩ := post
  rw [← root₃]
  refine ⟨trivial, .inr ⟨_, t₃, h₃, rfl, moves₃, rep₃, maps₃, fun v hv => ?_,
    ⟨?_, ?_, room, rfl, pushed⟩⟩⟩
  · rw [rewrites.others v (by omega), rewrites.leaf, leaf₂ v (by omega), ← t₂_eq]
    exact (ext.others v (.inl hv)).symm
  · have fresh := ext.fresh n (le_refl n) guard
    rw [rewrites.others n (by omega), rewrites.leaf, ← t₂_eq, Table.setLeaf_leaf, update_self,
      flags_clearU, fresh.2]
    exact ⟨fresh.1, rfl⟩
  · rw [rewrites.leaf, leaf₂ (n + 1) (by omega)]
    exact (ext.fresh (n + 1) (by omega) (by omega)).2

/-! ## The file -/

variable {s : KState} {j : ℕ}

theorem ends_close {α : Type} {x : TProg α} {Q : α → Machine → Prop}
    (kept : Kept p s.begun m.kernel (more (fun _ => 0) j) (some j)) (base : InodesOk p s none)
    (hj : j < NINODE)
    (stays : Stays s j (m.kernel.itable j).inum)
    (next : ∀ k, Kept p s k (fun _ => 0) none → Ends ram p A x { m with kernel := k } Q) :
    Ends ram p A (do sys (iunlockput j); sys (Sys.atomic .endOp); x) m Q := by
  refine ((ends_sys rfl (iunlockput_total kept hj stays)).mono ?_).bind
  rintro _ _ ⟨k, rfl, kept', -⟩
  refine (ends_act rfl ?_).bind
  exact next _ (kept'.ended base)

theorem Moves.setKernel (moves : Moves ram f m₀ h m h') (k : KState) :
    Moves ram f { m₀ with kernel := k } h { m with kernel := k } h' := by
  refine ⟨?_, moves.apart, moves.owns, moves.keeps⟩
  rw [moves.only]

/-- After a failed `exec` everything is as it was before. -/
structure ExecFailed (p : ℕ) (m m' : Machine) : Prop where
  mem : Restored m.mem m'.mem
  image : m'.image = m.image
  kernel : Kept p m.kernel m'.kernel (fun _ => 0) none

theorem failed_of_moves {k k' : KState} (owns : m₀.mem.Owns ram f)
    (moves : Moves ram f { m₀ with kernel := k } empty m empty)
    (kept : Kept p m₀.kernel k' (fun _ => 0) none) : ExecFailed p m₀ { m with kernel := k' } := by
  obtain ⟨only, -, owns', keeps⟩ := moves
  rw [empty_join] at owns' keeps
  refine ⟨.of_keeps owns owns' keeps, ?_, kept⟩
  rw [only]

theorem execBad_open_ends {k : KState} (owns : m₀.mem.Owns ram f)
    (moves : Moves ram f { m₀ with kernel := k } empty m h) {F : Flags → Prop}
    {trapframe pagetable sz : ℕ} (fits : trapframe < 2 ^ 52)
    (space : pagetable = 0 ∧ h = empty ∨ pagetable ≠ 0 ∧ ∃ t : Table, t.root = pagetable ∧
      t.Repr ram h ∧ t.Maps (pages sz) F (kernelPtes ram trapframe))
    (kept : Kept p m₀.kernel.begun k (more (fun _ => 0) j) (some j))
    (base : InodesOk p m₀.kernel none) (hj : j < NINODE)
    (stays : Stays m₀.kernel j (k.itable j).inum) :
    Ends ram p A (execBad pagetable sz (some j)) m fun r m' => r = none ∧ ExecFailed p m₀ m' := by
  refine ((moves.freeSpace fits space).mono ?_).bind
  intro _ m' moves'
  have here : m'.kernel = k := moves'.kernel
  subst here
  refine ends_close kept base hj stays fun k' kept' => ?_
  exact ⟨trivial, rfl, failed_of_moves owns moves' kept'⟩

/-! ## Building the new address space -/

/-- A consistent file system, in which process `p` has a current directory. -/
structure ExecReady (p : ℕ) (s : KState) : Prop where
  inodes : InodesOk p s none
  dirs : DirsOk s
  cwd : CwdOk p s
  sizes : ∀ x, (s.disk x).bytes.length ≤ MAXFILE * BSIZE

/-- The bytes of the file that the path names. -/
def execFile (p : ℕ) (s : KState) (path : Path) : Option (List Byte) :=
  (resolve s.disk (startInum p s path) ((pathWords path).map elementName)).map fun y =>
    (s.disk y).bytes

/-- `namei` finds a slot for every inode that it comes to, and every inode that is locked, the file
included, is in use. -/
def ExecRoom (p : ℕ) (s : KState) (path : Path) : Prop :=
  NamexRoom p s path false ∧
    ∀ y, resolve s.disk (startInum p s path) ((pathWords path).map elementName) = some y →
      (s.disk y).attr.type ≠ 0

/-- The ways in which a path can be too much for `exec`. -/
def ExecPanic (err : Panic) : Prop := err = .igetNoInodes ∨ err = .ilockNoType

/-- The program headers of an executable. -/
def execSegments (file : List Byte) : List Proghdr :=
  segments file (ofBytes file).phnum ((ofBytes file).phoff % 2 ^ 32)

/-- What the segments of an executable file make of an empty address space. -/
def execCore (file : List Byte) : Core := (execSegments file).foldl (Core.load file) .empty

/-- What `exec` has built for `file` next to the pages `f`: the address space `t'`, which consists of
the pages `h'`. -/
structure Built (ram : Ram) (m : Machine) (p trapframe : ℕ) (f : Heap Page)
    (argv : List (List Byte)) (file : List Byte) (m' : Machine) (t' : Table)
    (h' : Heap Page) (sp : ℕ) : Prop where
  kernel : Kept p m.kernel m'.kernel (fun _ => 0) none
  moves : Moves ram f { m with kernel := m'.kernel } empty m' h'
  rep : t'.Repr ram h'
  maps : t'.Maps (pages (execCore file).sz + 2) (fun _ => True) (kernelPtes ram trapframe)
  core : (execCore file).In t'
  stacked : Stacked t' (pages (execCore file).sz) argv sp

theorem elfhdr_read (full : (readBytes file 0 ELFHDR).length = ELFHDR) :
    ofBytes (readBytes file 0 ELFHDR) = .ofBytes file := by
  rw [(readBytes_length (by decide) full).2, drop_zero]
  simp only [ofBytes]
  rw [number_take (by decide), number_take (by decide), number_take (by decide),
    number_take (by decide)]

theorem execLoad_ends (owns : m.mem.Owns ram f) (fits : (m.image p).trapframe < 2 ^ 52)
    (base : InodesOk p m.kernel none) {k : KState}
    (kept : Kept p m.kernel.begun k (more (fun _ => 0) j) (some j)) (hj : j < NINODE)
    (stays : Stays m.kernel j (k.itable j).inum) (file_eq : (k.disk (k.itable j).inum).bytes = file)
    (small : file.length ≤ MAXFILE * BSIZE) (args : ArgsOk argv) :
    Ends ram p A (execLoad ram argv j) { m with kernel := k } fun r m' =>
      r = none ∧ ExecFailed p m m' ∨ ∃ t' h' sp, r = some ⟨(ofBytes file).entry, t'.root,
          (pages (execCore file).sz + 2) * PGSIZE, argv.length, sp⟩ ∧
        Built ram m p (m.image p).trapframe f argv file m' t' h' sp := by
  have moves : Moves ram f { m with kernel := k } empty { m with kernel := k } empty :=
    .refl apart_empty.symm (by rw [empty_join]; exact owns)
  have nothing {m₁ : Machine}
      (moves₁ : Moves ram f { m with kernel := k } empty m₁ empty) :
      Ends ram p A (execBad 0 0 (some j)) m₁ fun r m' => r = none ∧ ExecFailed p m m' :=
    execBad_open_ends owns moves₁ (F := fun _ => True) fits (.inl ⟨rfl, rfl⟩) kept base hj stays
  rw [execLoad]
  refine ((ends_readi file_eq 0 ELFHDR).mono ?_).bind
  rintro _ _ ⟨rfl, rfl⟩
  by_cases full : (readBytes file 0 ELFHDR).length = ELFHDR
  swap
  · rw [if_pos full]
    exact (nothing moves).mono fun r m' done => .inl done
  rw [if_neg (not_not.mpr full), elfhdr_read full]
  by_cases magic : (ofBytes file).magic = ELF_MAGIC
  swap
  · rw [if_pos magic]
    exact (nothing moves).mono fun r m' done => .inl done
  rw [if_neg (not_not.mpr magic)]
  refine (ends_act rfl ?_).bind
  refine (ends_act rfl ?_).bind
  refine ((moves.vm (procPagetable_follows (m.image p).trapframe UserPage)).mono ?_).bind
  rintro _ m₁ ⟨h₁, ⟨rfl, rfl⟩ | ⟨t₁, rfl, rep₁, maps₁⟩, moves₁⟩
  · exact (nothing moves₁).mono fun r m' done => .inl done
  have short : file.length + PGSIZE < 2 ^ 32 := by
    simp only [MAXFILE, NINDIRECT, NDIRECT, BSIZE, PGSIZE] at small ⊢
    omega
  rw [← show pages 0 = 0 from rfl] at maps₁
  refine ((loadFrom_ends file_eq short _ _ 0 moves₁ rep₁ maps₁).mono ?_).bind
  rintro ⟨ok, sz⟩ m₂ ⟨t₂, h₂, root₂, rep₂, maps₂, moves₂, built⟩
  have here : m₂.kernel = k := moves₂.kernel
  dsimp only at built maps₂ ⊢
  rw [← root₂]
  cases ok with
  | false =>
    have there : t₂.root ≠ 0 := page_pos (rep₂.within _ (rep₂.own (n := .root) rfl))
    exact (execBad_open_ends owns moves₂ fits (.inr ⟨there, t₂, rfl, rep₂, maps₂⟩) kept base
      hj stays).mono fun r m' done => .inl done
  | true =>
    obtain ⟨size, core⟩ := built rfl .empty rfl ⟨nofun, fun _ _ => rfl⟩
    subst here
    refine ends_close kept base hj stays fun k' kept' => ?_
    refine (execStack_ends (moves₂.setKernel k') rep₂ maps₂ fits args _).mono ?_
    rintro r m' (⟨rfl, moves'⟩ | ⟨sp, t', h', rfl, moves', rep', maps', below, stacked⟩)
    · have here' : m'.kernel = k' := moves'.kernel
      subst here'
      exact .inl ⟨rfl, failed_of_moves owns moves' kept'⟩
    · have here' : m'.kernel = k' := moves'.kernel
      subst here'
      rw [← execSegments, ← execCore] at size core
      subst size
      refine .inr ⟨t', h', sp, rfl, kept', moves', rep', maps', ?_, stacked⟩
      refine ⟨fun v hv => ?_, core.clear⟩
      rw [(below v hv).1, (below v hv).2]
      exact core.page v hv

theorem execBuild_ends (owns : m.mem.Owns ram f) (fits : (m.image p).trapframe < 2 ^ 52)
    (ready : ExecReady p m.kernel) (path : Path) (args : ArgsOk argv) :
    Ends ram p (fun err => ExecPanic err ∧ ¬ExecRoom p m.kernel path)
      (execBuild ram path argv) m fun r m' => ExecRoom p m.kernel path ∧
        (r = none ∧ ExecFailed p m m' ∨ ∃ file t' h' sp, execFile p m.kernel path = some file ∧
          r = some ⟨(ofBytes file).entry, t'.root, (pages (execCore file).sz + 2) * PGSIZE,
            argv.length, sp⟩ ∧ Built ram m p (m.image p).trapframe f argv file m' t' h' sp) := by
  have walks := namex_total (s := m.kernel.begun) ready.inodes.begun
    ⟨ready.dirs.root, ready.dirs.entry⟩ ready.cwd path false
  rw [namexRoom_begun, found_namei] at walks
  rw [execBuild]
  refine (ends_act rfl ?_).bind
  refine (((ends_sys rfl walks).weaken ?_ fun _ _ => trivial).mono ?_).bind
  · rintro err ⟨panic, full⟩
    exact ⟨panic, fun room => full room.1⟩
  rintro r _ ⟨k, rfl, room, walked⟩
  have file_def : execFile p m.kernel path = (resolve m.kernel.begun.disk
    (startInum p m.kernel.begun path) ((pathWords path).map elementName)).map fun y =>
      (m.kernel.disk y).bytes := rfl
  cases goal : resolve m.kernel.begun.disk (startInum p m.kernel.begun path)
    ((pathWords path).map elementName) with
  | none =>
    rw [goal] at walked
    obtain ⟨rfl, kept⟩ := walked
    refine (ends_act rfl ?_).bind
    have mem := Restored.of_keeps owns owns .refl
    refine ⟨trivial, ⟨room, fun y reached => ?_⟩, .inl ⟨rfl, mem, rfl, kept.ended ready.inodes⟩⟩
    cases goal.symm.trans reached
  | some y =>
    rw [goal] at walked file_def
    obtain ⟨j, hj, rfl, kept, here, stays⟩ := walked
    have ref : 0 < (k.itable j).ref := by
      rw [kept.ref j hj, more_self]
      omega
    by_cases free : (m.kernel.disk y).attr.type = 0
    · -- the path leads to a free inode
      have lock := ilock_free kept hj ref (by rw [here]; exact free) (Q := fun _ _ => False)
      refine (((ends_sys rfl lock).weaken ?_ fun _ _ => trivial).mono ?_).bind
      · rintro err rfl
        exact ⟨.inr rfl, fun room => room.2 y goal free⟩
      · rintro _ _ ⟨-, -, no⟩
        exact no.elim
    have room : ExecRoom p m.kernel path :=
      ⟨room, fun y' reached => Option.some.inj (goal.symm.trans reached) ▸ free⟩
    refine ((ends_sys rfl (ilock_total kept hj ref (by rw [here]; exact free))).mono ?_).bind
    rintro _ _ ⟨k₁, rfl, kept₁, here₁, -, -⟩
    rw [here] at here₁
    refine (execLoad_ends owns fits ready.inodes kept₁ hj ?_ ?_ (ready.sizes y) args).mono ?_
    · rw [here₁]
      exact stays
    · rw [here₁, kept₁.disk]
      rfl
    · rintro r m' (failed | ⟨t', h', sp, done⟩)
      · exact ⟨room, .inl failed⟩
      · exact ⟨room, .inr ⟨_, t', h', sp, file_def, done⟩⟩

/-! ## Execution -/

/-- The end of a successful `exec`: the process lives in the new address space, and the pages of the
old one are free. -/
theorem execCommit_ends (lives : Lives ram m₀ p t h frame)
    (moves : Moves ram (h.join (single (m₀.image p).trapframe frame)) m₀ empty m h')
    (rep : t'.Repr ram h') {sz : ℕ}
    (maps : t'.Maps (pages sz) (fun _ => True) (kernelPtes ram (m₀.image p).trapframe))
    (path : Path) (entry argc sp : ℕ) :
    Ends ram p A (execCommit path ⟨entry, t'.root, sz, argc, sp⟩) m fun r m' => r = some argc ∧
      ∃ mem', m' = m₀.committed p path t'.root sz mem' ∧
        Lives ram m' p t' h' (execFrame frame entry sp) ∧ (∀ a, h a ≠ none → a ∈ mem'.freelist) ∧
        m₀.mem.Keeps (h.join (single (m₀.image p).trapframe frame)) mem'
          (h'.join (single (m₀.image p).trapframe (execFrame frame entry sp))) := by
  have ⟨only, apart, owns, keeps⟩ := moves
  obtain ⟨apart_old, apart_frame⟩ := apart_join.mp apart
  have absent := apart_single.mp lives.apart
  have absent' := apart_single.mp apart_frame
  generalize tf_eq : (m₀.image p).trapframe = tf at *
  have both : (h.join h') tf = none := join_eq_none.mpr ⟨absent, absent'⟩
  rw [empty_join, ← join_assoc, join_comm apart_old] at keeps
  rw [← join_assoc, join_comm apart_old] at owns
  rw [join_single both] at owns keeps
  rw [execCommit]
  refine (ends_act (r := p) rfl ?_).bind
  have read : Machine.exec ram p (.image p) m = .ok (m₀.image p, m) := by
    rw [Machine.exec, moves.image]
  refine (ends_act read ?_).bind
  rw [tf_eq]
  refine ((ends_vm (follows_store (update_self ..) A1 _) owns).mono ?_).bind
  rintro _ _ ⟨mem₁, _, rfl, rfl, owns₁, keeps₁⟩
  rw [update_idem] at owns₁ keeps₁
  rw [show ({ m with mem := mem₁ } : Machine) = { m₀ with mem := mem₁ } by rw [only]]
  refine (ends_act rfl ?_).bind
  have commit : Machine.exec ram p (.update p fun x => { x with pagetable := t'.root, sz := sz })
      { m₀ with
        mem := mem₁
        image := update m₀.image p { m₀.image p with name := programName path } } =
      .ok ((), m₀.committed p path t'.root sz mem₁) := by
    simp only [Machine.exec, Machine.committed, update_self, update_idem]
  refine (ends_act commit ?_).bind
  refine ((ends_vm (m := m₀.committed p path t'.root sz mem₁)
    (follows_store (update_self ..) EPC _) owns₁).mono ?_).bind
  rintro _ _ ⟨mem₂, _, rfl, rfl, owns₂, keeps₂⟩
  rw [update_idem] at owns₂ keeps₂
  refine ((ends_vm (m := m₀.committed p path t'.root sz mem₂)
    (follows_store (update_self ..) SP _) owns₂).mono ?_).bind
  rintro _ _ ⟨mem₃, _, rfl, rfl, owns₃, keeps₃⟩
  have last := join_single (x := execFrame frame entry sp) both
  rw [join_assoc] at last
  rw [update_idem, ← execFrame, ← last] at owns₃ keeps₃
  have inner : h'.Apart (single tf (execFrame frame entry sp)) := apart_single.mpr absent'
  have outer : h.Apart (h'.join (single tf (execFrame frame entry sp))) :=
    apart_join.mpr ⟨apart_old.symm, apart_single.mpr absent⟩
  have free := procFreepagetable_follows lives.rep lives.maps lives.fits rfl (p := p)
  rw [lives.root] at free
  refine (((Moves.refl (m := m₀.committed p path t'.root sz mem₃) outer owns₃).vm free).mono ?_).bind
  rintro _ m' ⟨_, rfl, only₄, -, owns₄, keeps₄⟩
  rw [empty_join] at owns₄ keeps₄
  have image : m'.image p =
      { m₀.image p with name := programName path, pagetable := t'.root, sz := sz } := by
    rw [only₄]
    exact update_self ..
  refine ⟨trivial, rfl, m'.mem, only₄, ?_, fun a own => ?_,
    (((keeps.trans keeps₁).trans keeps₂).trans keeps₃).trans keeps₄⟩
  · subst tf_eq
    refine ⟨by rw [image], rep, ?_, ?_, ?_⟩
    · rw [image]
      exact maps
    · rw [image]
      exact inner
    · rw [image]
      exact owns₄
  · have before : h.join (h'.join (single tf (execFrame frame entry sp))) a ≠ none := fun none =>
      own (join_eq_none.mp none).1
    refine ((keeps₄.pages a).mpr (.inl before)).resolve_left fun kept => kept ?_
    exact outer.left own

/-- After a successful `exec` of `file` the process lives in the address space `t'`, and the pages `h`
of its old address space are free. -/
structure Executed (ram : Ram) (m : Machine) (p : ℕ) (h : Heap Page) (frame : Page) (path : Path)
    (argv : List (List Byte)) (file : List Byte) (m' : Machine) (t' : Table)
    (h' : Heap Page) (sp : ℕ) : Prop where
  image : m'.image = update m.image p { m.image p with
    name := programName path
    pagetable := t'.root
    sz := (pages (execCore file).sz + 2) * PGSIZE }
  kernel : Kept p m.kernel m'.kernel (fun _ => 0) none
  lives : Lives ram m' p t' h' (execFrame frame (ofBytes file).entry sp)
  freed : ∀ a, h a ≠ none → a ∈ m'.mem.freelist
  core : (execCore file).In t'
  stacked : Stacked t' (pages (execCore file).sz) argv sp

theorem execCommit_built (lives : Lives ram m₀ p t h frame)
    {sp : ℕ}
    (built : Built ram m₀ p (m₀.image p).trapframe (h.join (single (m₀.image p).trapframe frame))
      argv file m t' h' sp) (path : Path) :
    Ends ram p A (execCommit path ⟨(ofBytes file).entry, t'.root,
      (pages (execCore file).sz + 2) * PGSIZE, argv.length, sp⟩) m fun r m' => r = some argv.length ∧
        Executed ram m₀ p h frame path argv file m' t' h' sp := by
  have lives' : Lives ram { m₀ with kernel := m.kernel } p t h frame :=
    ⟨lives.root, lives.rep, lives.maps, lives.apart, lives.owns⟩
  have maps := built.maps
  rw [← pages_mul (pages (execCore file).sz + 2)] at maps
  refine (execCommit_ends lives' built.moves built.rep maps path _ _ _).mono ?_
  rintro r m' ⟨rfl, mem', rfl, done, freed, -⟩
  exact ⟨rfl, rfl, built.kernel, done, freed, built.core, built.stacked⟩

theorem exec_ends (lives : Lives ram m p t h frame) (ready : ExecReady p m.kernel) (path : Path)
    (args : ArgsOk argv) :
    Ends ram p (fun err => ExecPanic err ∧ ¬ExecRoom p m.kernel path)
      (exec ram path argv) m fun r m' => ExecRoom p m.kernel path ∧
        (r = none ∧ ExecFailed p m m' ∨ r = some argv.length ∧ ∃ file t' h' sp,
          execFile p m.kernel path = some file ∧
          Executed ram m p h frame path argv file m' t' h' sp) := by
  rw [exec]
  refine ((execBuild_ends lives.owns lives.fits ready path args).mono ?_).bind
  rintro r m₁ ⟨room, ⟨rfl, failed⟩ | ⟨file, t', h', sp, file_eq, rfl, built⟩⟩
  · exact ⟨trivial, room, .inl ⟨rfl, failed⟩⟩
  · refine (execCommit_built lives built path).mono ?_
    rintro r m' ⟨rfl, done⟩
    exact ⟨room, .inr ⟨rfl, file, t', h', sp, file_eq, done⟩⟩

theorem exec_run (lives : Lives ram m p t h frame) (ready : ExecReady p m.kernel) (path : Path)
    (args : ArgsOk argv) :
    (∃ r m', (exec ram path argv).run (Machine.exec ram p) m = (.ok r, m') ∧
      ExecRoom p m.kernel path ∧ (r = none ∧ ExecFailed p m m' ∨
        r = some argv.length ∧ ∃ file t' h' sp, execFile p m.kernel path = some file ∧
          Executed ram m p h frame path argv file m' t' h' sp)) ∨
      ∃ err m', (exec ram path argv).run (Machine.exec ram p) m = (.error (.panic err), m') ∧
        ¬ExecRoom p m.kernel path := by
  rcases Prog.Total.run (exec_ends lives ready path args) with ⟨r, ret, done⟩ | ⟨err, ret, -, full⟩
  · exact .inl ⟨r, _, Prod.ext ret rfl, done⟩
  · exact .inr ⟨err, _, Prod.ext ret rfl, full⟩

theorem exec_of_build (lives : Lives ram m p t h frame) (ready : ExecReady p m.kernel) {path : Path}
    (args : ArgsOk argv) {x' : NewImage}
    (build : ((execBuild ram path argv).run (Machine.exec ram p) m).1 = .ok (some x')) :
    ∃ m', (exec ram path argv).run (Machine.exec ram p) m = (.ok (some argv.length), m') := by
  rcases Prog.Total.run (execBuild_ends lives.owns lives.fits ready path args) with
    ⟨r, ret, -, ⟨rfl, -⟩ | ⟨file, t', h', sp, -, rfl, built⟩⟩ | ⟨err, ret, -⟩
  · rw [build] at ret
    cases ret
  · have commit := execCommit_built (A := fun _ => False) lives built path
    rcases Prog.Total.run commit with ⟨r, ret', rfl, -⟩ | ⟨_, -, no⟩
    · refine ⟨_, Prod.ext ?_ rfl⟩
      rw [exec, Prog.run_bind_ok _ (Prod.ext ret rfl)]
      exact ret'
    · exact no.elim
  · rw [build] at ret
    cases ret

/-- For every file, all arguments and every point at which `kalloc` can fail, `exec` does not panic,
leaves everything as it was if it fails, and otherwise frees the old address space, if and only if every
inode that `namei` comes to finds a slot and every inode that has to be locked is in use. -/
theorem exec_any_file (lives : Lives ram m p t h frame) (ready : ExecReady p m.kernel) (path : Path)
    (args : ArgsOk argv) :
    (∃ r m', (exec ram path argv).run (Machine.exec ram p) m = (.ok r, m') ∧
      (r = none → ExecFailed p m m') ∧ (r ≠ none → ∀ a, h a ≠ none → a ∈ m'.mem.freelist)) ↔
      ExecRoom p m.kernel path := by
  rcases exec_run lives ready path args with ⟨r, m', run, room, outcome⟩ | ⟨err, m', run, full⟩
  · refine ⟨fun _ => room, fun _ => ⟨r, m', run, ?_⟩⟩
    rcases outcome with ⟨rfl, failed⟩ | ⟨rfl, file, t', h', sp, -, done⟩
    · exact ⟨fun _ => failed, fun some => absurd rfl some⟩
    · exact ⟨nofun, fun _ => done.freed⟩
  · refine ⟨?_, fun room => absurd room full⟩
    rintro ⟨r, m'', ret, -⟩
    rw [run] at ret
    cases ret

end

/-! ## A small program -/

/-- An executable file with one segment of two bytes in three bytes of memory. -/
def programFile : List Byte :=
  -- the ELF header, with the offset and the number of the program headers
  [0x7F#8, 0x45#8, 0x4C#8, 0x46#8] ++ replicate 28 0#8 ++ [64#8] ++ replicate 23 0#8 ++
    [1#8] ++ replicate 7 0#8 ++
  -- the program header, with type, flags, offset, size in the file and size in memory
  [1#8, 0#8, 0#8, 0#8, 5#8, 0#8, 0#8, 0#8, 120#8] ++ replicate 23 0#8 ++ [2#8] ++
    replicate 7 0#8 ++ [3#8] ++ replicate 15 0#8 ++
  -- the segment
  [1#8, 2#8]

def programPath : Path := [slash, 97#8]

def programState : KState :=
  { smallState 3 0 0 with
    disk := fun
      | 1 => ⟨⟨T_DIR, 0, 0, 1⟩, [⟨2, .ofChars [97#8]⟩], []⟩
      | _ => ⟨⟨T_FILE, 0, 0, 1⟩, [], programFile⟩ }

theorem programState_linked (x : ℕ) : (programState.disk x).attr.nlink ≠ 0 := by
  match x with
  | 0 | 1 => decide
  | _ + 2 => exact show (1 : BitVec 16) ≠ 0 by decide

theorem programState_ready : ExecReady 0 programState where
  inodes :=
    have ok := @smallState_ok 0 3 0 0 (by decide)
    ⟨ok.unique, ok.dev, fun _ _ _ => nofun, fun _ _ _ => nofun, ok.lock⟩
  dirs := ⟨programState_linked ROOTINO, fun _ _ d _ _ => .inr (.inr (programState_linked d.inum))⟩
  cwd := @smallState_cwd 0 3 0 0 (by decide) (le_refl 0)
  sizes x := by
    match x with
    | 0 | 1 => decide
    | _ + 2 => exact show programFile.length ≤ MAXFILE * BSIZE by decide

theorem program_build : ∃ x', ((execBuild textRam programPath [[97#8]]).run
    (Machine.exec textRam 0) (emptyMachine programState)).1 = .ok (some x') := by
  have built : (match ((execBuild textRam programPath [[97#8]]).run (Machine.exec textRam 0)
      (emptyMachine programState)).1 with
    | .ok r => r.isSome
    | .error _ => false) = true := by decide +kernel
  split at built
  case h_1 r ret =>
    obtain ⟨x', rfl⟩ := Option.isSome_iff_exists.mp built
    exact ⟨x', ret⟩
  case h_2 => cases built

theorem program_args : ArgsOk [[97#8]] := ⟨by decide, by decide⟩

theorem program_exec : ∃ m', (exec textRam programPath [[97#8]]).run (Machine.exec textRam 0)
    (emptyMachine programState) = (.ok (some 1), m') := by
  obtain ⟨t, h, frame, lives, -⟩ := emptyMachine_lives programState
  obtain ⟨x', build⟩ := program_build
  exact exec_of_build lives programState_ready program_args build

theorem program_room : ExecRoom 0 programState programPath := by
  obtain ⟨t, h, frame, lives, -⟩ := emptyMachine_lives programState
  obtain ⟨m', run⟩ := program_exec
  rcases exec_run lives programState_ready programPath program_args with ⟨-, -, -, room, -⟩ |
    ⟨err, m'', panic, -⟩
  · exact room
  · rw [run] at panic
    cases panic

/-- The program is executed, and the root of the old page table is free afterwards. -/
theorem exec_any_file_program : ∃ m', (exec textRam programPath [[97#8]]).run
    (Machine.exec textRam 0) (emptyMachine programState) = (.ok (some 1), m') ∧
      ((emptyMachine programState).image 0).pagetable ∈ m'.mem.freelist := by
  obtain ⟨t, h, frame, lives, -⟩ := emptyMachine_lives programState
  obtain ⟨m', run⟩ := program_exec
  obtain ⟨r, m'', run', -, freed⟩ :=
    (exec_any_file lives programState_ready programPath program_args).mpr program_room
  rw [run] at run'
  cases run'
  exact ⟨m', run, freed nofun _ (lives.root ▸ lives.rep.own (n := .root) rfl)⟩

theorem smallState_ready {first n cwd : ℕ} (other : ROOTINO < first) (after : first ≤ 100)
    (before : 100 < first + n) (bound : n < NINODE) (used : cwd ≤ n) :
    ExecReady 0 (smallState first n cwd) where
  inodes := smallState_ok other
  dirs := smallState_dirs other after before bound
  cwd := smallState_cwd (lt_of_le_of_lt used bound) used
  sizes x := by
    change (smallDisk x).bytes.length ≤ MAXFILE * BSIZE
    unfold smallDisk
    split <;> decide

/-- With all slots but that of the root directory in use for inodes not on the way, `exec` of `/x`
panics; in a removed directory whose parent has been freed, `exec` of `../x` does, although 48 slots are
free. -/
theorem exec_panics : (∃ (m : Machine) (t : Table) (h : Heap Page) (frame : Page),
      Lives textRam m 0 t h frame ∧ ExecReady 0 m.kernel ∧
      m.kernel.cached ROOTDEV ROOTINO ≠ none ∧
      ((exec textRam [slash, 120#8] []).run (Machine.exec textRam 0) m).1 =
        .error (.panic .igetNoInodes)) ∧
    ∃ (m : Machine) (t : Table) (h : Heap Page) (frame : Page),
      Lives textRam m 0 t h frame ∧ ExecReady 0 m.kernel ∧
      m.kernel.cached ROOTDEV ROOTINO ≠ none ∧ m.kernel.freeSlots = 48 ∧
      ((exec textRam [46#8, 46#8, slash, 120#8] []).run (Machine.exec textRam 0) m).1 =
        .error (.panic .ilockNoType) := by
  obtain ⟨t₁, h₁, frame₁, full, -⟩ := emptyMachine_lives (smallState 52 49 0)
  obtain ⟨t₂, h₂, frame₂, removed, -⟩ := emptyMachine_lives (smallState 100 1 1)
  refine ⟨⟨_, t₁, h₁, frame₁, full, ?_, by decide, rfl⟩,
    _, t₂, h₂, frame₂, removed, ?_, by decide, by decide, rfl⟩
  · exact smallState_ready (by decide) (by decide) (by decide) (by decide) (by decide)
  · exact smallState_ready (by decide) (by decide) (by decide) (by decide) (by decide)

end Xv6.Task
