import Xv6.Task.Grow
import Xv6.Vm.Transfer

/-!
# `fork`

`fork` creates a copy of the calling process that shares no memory with it, or leaves everything as it
was, wherever an allocation fails.
-/

namespace Xv6.Task

open Function Sys Vm List Heap Option

/-! ## Open files -/

/-- How many of the first `i` descriptors refer to file `f`. -/
def copies (x : Proc) (f i : ℕ) : ℕ := (List.range i).countP fun fd => x.ofile fd = some f

/-- The kernel after the first `i` descriptors of process `p` have been copied to process `np`. -/
def dupped (s : KState) (p np i : ℕ) : KState :=
  { s with
    ftable := fun f => { s.ftable f with ref := (s.ftable f).ref + copies (s.procs p) f i }
    procs := update s.procs np { s.procs np with
      ofile := fun fd => if fd < i then (s.procs p).ofile fd else none } }

section Files

variable {A : Panic → Prop} {p np c : ℕ} {s : KState}

theorem copies_succ (x : Proc) (f i : ℕ) :
    copies x f (i + 1) = copies x f i + if x.ofile i = some f then 1 else 0 := by
  rw [copies, copies, range_succ, countP_append]
  simp [countP_singleton]

theorem dupped_zero (none_open : (s.procs np).ofile = fun _ => none) : dupped s p np 0 = s := by
  have same : ({ s.procs np with
      ofile := fun fd => if fd < 0 then (s.procs p).ofile fd else none } : Proc) = s.procs np := by
    simp only [not_lt_zero, if_false, ← none_open]
  simp only [dupped, same, update_eq_self, copies, range_zero, countP_nil, add_zero]

theorem dupFd_total (ne : np ≠ p) (i : ℕ) (hi : i < NOFILE)
    (open_ : ∀ f, (s.procs p).ofile i = some f → 0 < (s.ftable f).ref) :
    (dupFd np i).Total (KState.exec p) A (fun _ => True) (dupped s p np i) fun _ s' =>
      s' = dupped s p np (i + 1) := by
  have mine : (dupped s p np i).procs p = s.procs p := update_of_ne ne.symm _ _
  have look : KState.exec p (.ofile i) (dupped s p np i) =
      .ok ((s.procs p).ofile i, dupped s p np i) := by
    simp only [KState.exec, mine, if_pos hi]
  rw [dupFd]
  refine (atomic_total look ?_).bind
  cases there : (s.procs p).ofile i with
  | none =>
    refine ⟨trivial, ?_⟩
    simp only [dupped, copies_succ, there, reduceCtorEq, if_false, add_zero, KState.mk.injEq,
      true_and, and_true]
    congr 2
    funext fd
    by_cases last : fd = i
    · rw [last, if_neg (lt_irrefl i), if_pos (Nat.lt_succ_self i), there]
    · simp only [Nat.lt_succ_iff_lt_or_eq, last, or_false]
  | some f =>
    have ref := open_ f there
    have dup : KState.exec p (.filedup f) (dupped s p np i) = .ok ((), (dupped s p np i).setFile f
        { (dupped s p np i).ftable f with ref := ((dupped s p np i).ftable f).ref + 1 }) := by
      simp only [KState.exec]
      rw [if_neg]
      simp only [dupped]
      omega
    refine (atomic_total dup ?_).bind
    refine atomic_total rfl ?_
    simp only [KState.setProc, KState.setFile, dupped, copies_succ, there, update_self,
      update_idem, KState.mk.injEq, true_and, and_true]
    constructor
    · funext g
      by_cases same : g = f
      · rw [same, update_self, if_pos rfl, add_assoc]
      · rw [update_of_ne same, if_neg fun e => same (some.inj e).symm, add_zero]
    · congr 2
      funext fd
      by_cases last : fd = i
      · rw [last, update_self, if_pos (Nat.lt_succ_self i), there]
      · rw [update_of_ne last]
        simp only [Nat.lt_succ_iff_lt_or_eq, last, or_false]

/-- The kernel after `fork` has copied the descriptors and the directory `c`. -/
def duplicated (s : KState) (p np c : ℕ) : KState :=
  { s with
    itable := update s.itable c { s.itable c with ref := (s.itable c).ref + 1 }
    ftable := fun f => { s.ftable f with ref := (s.ftable f).ref + copies (s.procs p) f NOFILE }
    procs := update s.procs np { s.procs np with
      ofile := fun fd => if fd < NOFILE then (s.procs p).ofile fd else none
      cwd := some c } }

theorem dupFiles_total (ne : np ≠ p) (none_open : (s.procs np).ofile = fun _ => none)
    (open_ : ∀ fd < NOFILE, ∀ f, (s.procs p).ofile fd = some f → 0 < (s.ftable f).ref)
    (dir : (s.procs p).cwd = some c) :
    (dupFiles np).Total (KState.exec p) A (fun _ => True) s fun _ s' => s' = duplicated s p np c := by
  have loop : (Prog.loop (dupFd np) 0 NOFILE).Total (KState.exec p) A (fun _ => True) s fun _ s' =>
      s' = dupped s p np (0 + NOFILE) := by
    refine Prog.Total.loop (J := fun i s' => s' = dupped s p np i) NOFILE (fun _ _ _ => trivial) ?_
      (dupped_zero none_open).symm
    rintro i _ - hi rfl
    exact dupFd_total ne i (by omega) (open_ i (by omega))
  refine (loop.mono ?_).bind
  rintro _ _ rfl
  rw [zero_add]
  have mine : (dupped s p np NOFILE).procs p = s.procs p := update_of_ne ne.symm _ _
  have dup : KState.exec p .idupCwd (dupped s p np NOFILE) = .ok (c, (dupped s p np NOFILE).setSlot c
      { s.itable c with ref := (s.itable c).ref + 1 }) := by
    simp only [KState.exec, mine, dir]
    rfl
  refine (atomic_total dup ?_).bind
  refine atomic_total rfl ?_
  simp only [duplicated, dupped, KState.setProc, KState.setSlot, update_self, update_idem]

end Files

/-! ## The trapframe -/

theorem pte_copied (x y : Page) {k : ℕ} (hk : k < NREG) :
    pte (setPte (splice y 0 (slice x 0 (8 * NREG))) A0 0) k = if k = A0 then 0 else pte x k := by
  by_cases a0 : k = A0
  · rw [if_pos a0, a0]
    exact Bytes.word_setWord _ _ (by decide)
  · rw [if_neg a0, pte, setPte, Bytes.word_setWord_out _ _ (by omega)]
    refine Bytes.word_congr fun i lower upper => ?_
    have long : (slice x 0 (8 * NREG)).length = 8 * NREG := by
      rw [slice, length_map, length_range]
    have inside : i < 8 * NREG := by omega
    have fits : i < PGSIZE := lt_trans inside (by decide)
    rw [splice, Bytes.byte_blit_in _ _ fits zero_le (by omega), Nat.sub_zero]
    simp [slice, inside]

/-! ## The two outcomes -/

/-- Nothing has changed that a process can observe: the same pages are free, and all other pages, the
tables of the kernel and the processes are as before. -/
structure AsBefore (m m' : Machine) : Prop where
  mem : Restored m.mem m'.mem
  kernel : m'.kernel = m.kernel
  image : m'.image = m.image

/-- The kernel after process `np` has become a child of process `p` with its files and directory. -/
def forkedKernel (s : KState) (p np : ℕ) : KState :=
  { s with
    itable := fun i => { s.itable i with
      ref := (s.itable i).ref + if (s.procs p).cwd = some i then 1 else 0 }
    ftable := fun f => { s.ftable f with ref := (s.ftable f).ref + copies (s.procs p) f NOFILE }
    procs := update s.procs np
      ⟨.runnable, some p, fun fd => if fd < NOFILE then (s.procs p).ofile fd else none,
        (s.procs p).cwd⟩ }

/-- Process `np` is a copy of process `p` with the page table `t'`, which consists of the pages `h`,
and a trapframe. -/
structure Forked (ram : Ram) (p : ℕ) (t : Table) (m m' : Machine) (np trapframe : ℕ) (t' : Table)
    (h : Heap Page) : Prop where
  slot : np < NPROC ∧ (m.kernel.procs np).state = .unused
  image : m'.image = update m.image np
    ⟨m.nextpid, trapframe, t'.root, (m.image p).sz, safestrcpy (m.image p).name⟩
  kernel : m'.kernel = forkedKernel m.kernel p np
  rep : t'.Repr ram h
  agree : ∀ a x, h a = some x → m'.mem.page a = x
  maps : t'.Maps (Vm.pages (m.image p).sz) (fun _ => True) (kernelPtes ram trapframe)
  flags : ∀ v < Vm.pages (m.image p).sz, Vm.flags (t'.leaf v) = Vm.flags (t.leaf v)
  bytes : ∀ va < Vm.pages (m.image p).sz * PGSIZE, m'.mem.byteAt t' va = m.mem.byteAt t va
  regs : ∀ k < NREG, pte (m'.mem.page trapframe) k =
    if k = A0 then 0 else pte (m.mem.page (m.image p).trapframe) k
  fresh : ∀ a, h a ≠ none ∨ a = trapframe → a ∈ m.mem.freelist
  free : ∀ a, a ∈ m'.mem.freelist ↔ a ∈ m.mem.freelist ∧ h a = none ∧ a ≠ trapframe
  pages : ∀ a, a ∉ m.mem.freelist → m'.mem.page a = m.mem.page a
  /-- What one of the processes stores in its memory is not visible to the other. -/
  apart : ∀ va < Vm.pages (m.image p).sz * PGSIZE, ∀ va' < Vm.pages (m.image p).sz * PGSIZE, ∀ b,
    (m'.mem.poke t va b).byteAt t' va' = m'.mem.byteAt t' va' ∧
      (m'.mem.poke t' va b).byteAt t va' = m'.mem.byteAt t va'

section Fork

variable {ram : Ram} {p np : ℕ} {A : Panic → Prop} {m : Machine} {t : Table} {h : Heap Page}
  {frame : Page}

theorem forkedKernel_eq {s : KState} {c : ℕ} (ne : np ≠ p) (dir : (s.procs p).cwd = some c) :
    (duplicated (s.setProc np { s.procs np with state := .used }) p np c).setProc np
      { (duplicated (s.setProc np { s.procs np with state := .used }) p np c).procs np with
        parent := some p, state := .runnable } = forkedKernel s p np := by
  have mine : update s.procs np { s.procs np with state := .used } p = s.procs p :=
    update_of_ne ne.symm _ _
  simp only [duplicated, forkedKernel, KState.setProc, update_self, update_idem,
    mine, dir, KState.mk.injEq, true_and, and_true]
  funext i
  by_cases same : i = c
  · rw [same, update_self, if_pos rfl]
  · rw [update_of_ne same, if_neg fun e => same (some.inj e).symm, add_zero]

theorem forkChild_ends {mem : Mem} {H : Heap Page} {trapframe root : ℕ} {frame' : Page}
    (ne : np ≠ p) (unused : Unused m np) (owns : mem.Owns ram H)
    (own : H (m.image p).trapframe = some frame) (own' : H trapframe = some frame')
    (open_ : ∀ fd < NOFILE, ∀ f, (m.kernel.procs p).ofile fd = some f → 0 < (m.kernel.ftable f).ref)
    (dir : (m.kernel.procs p).cwd ≠ none) :
    Ends ram p A (forkChild np (m.image p) ⟨m.nextpid, trapframe, root, 0, []⟩)
      (m.taken np mem ⟨m.nextpid, trapframe, root, 0, []⟩) fun r m' => r = m.nextpid ∧
        m'.kernel = forkedKernel m.kernel p np ∧
        m'.image = update m.image np
          ⟨m.nextpid, trapframe, root, (m.image p).sz, safestrcpy (m.image p).name⟩ ∧
        m'.mem.Owns ram (update H trapframe
          (some (setPte (splice frame' 0 (slice frame 0 (8 * NREG))) A0 0))) ∧
        mem.Keeps H m'.mem (update H trapframe
          (some (setPte (splice frame' 0 (slice frame 0 (8 * NREG))) A0 0))) := by
  obtain ⟨c, dir⟩ := ne_none_iff_exists'.mp dir
  rw [forkChild]
  refine (ends_act (taken_update _) ?_).bind
  -- the registers
  refine ((ends_vm (m := m.taken np mem _) (follows_read own 0 (8 * NREG)) owns).mono ?_).bind
  rintro _ _ ⟨mem₁, _, rfl, ⟨rfl, rfl⟩, owns₁, keeps₁⟩
  refine ((ends_vm (m := m.taken np mem₁ _) (follows_write own' 0 _) owns₁).mono ?_).bind
  rintro _ _ ⟨mem₂, _, rfl, rfl, owns₂, keeps₂⟩
  refine ((ends_vm (m := m.taken np mem₂ _)
    (follows_store (update_self ..) A0 0) owns₂).mono ?_).bind
  rintro _ _ ⟨mem₃, _, rfl, rfl, owns₃, keeps₃⟩
  rw [update_idem] at owns₃ keeps₃
  -- the files
  have mine : (m.kernel.setProc np { m.kernel.procs np with state := .used }).procs p =
      m.kernel.procs p := update_of_ne ne.symm _ _
  have child : ((m.kernel.setProc np { m.kernel.procs np with state := .used }).procs np).ofile =
      fun _ => none := by
    simp only [KState.setProc, update_self, unused.proc]
  have files := dupFiles_total (A := A) (p := p) (c := c) ne child
    (fun fd hfd f there => open_ fd hfd f (by rwa [mine] at there)) (by rwa [mine])
  refine ((ends_sys (m := m.taken np mem₃ _) rfl files).mono ?_).bind
  rintro _ _ ⟨_, rfl, rfl⟩
  refine (ends_act rfl ?_).bind
  refine (ends_act rfl ?_).bind
  refine ⟨trivial, rfl, forkedKernel_eq ne dir, ?_, owns₃, (keeps₁.trans keeps₂).trans keeps₃⟩
  simp only [Machine.taken, update_self, update_idem]

/-- What `fork` relies on: unused processes are empty, and the files and the directory of the process
are referenced. -/
structure Forkable (m : Machine) (p : ℕ) : Prop where
  used : (m.kernel.procs p).state ≠ .unused
  unused : ∀ q < NPROC, (m.kernel.procs q).state = .unused → Unused m q
  files : ∀ fd < NOFILE, ∀ f, (m.kernel.procs p).ofile fd = some f → 0 < (m.kernel.ftable f).ref
  dir : (m.kernel.procs p).cwd ≠ none

theorem byteAt_poke {mem : Mem} {t' : Table} {va va' : ℕ} (b : Byte)
    (apart : pte2pa (t.leaf (va' / PGSIZE)) ≠ pte2pa (t'.leaf (va / PGSIZE))) :
    (mem.poke t' va b).byteAt t va' = mem.byteAt t va' := by
  simp only [Mem.byteAt, Mem.poke, Mem.set, update_of_ne apart]

theorem forked_of_copied {m' : Machine} {trapframe : ℕ} {t' : Table} {h' : Heap Page} {frame' : Page}
    (lives : Lives ram m p t h frame) (slot : np < NPROC ∧ (m.kernel.procs np).state = .unused)
    (image : m'.image = update m.image np
      ⟨m.nextpid, trapframe, t'.root, (m.image p).sz, safestrcpy (m.image p).name⟩)
    (kernel : m'.kernel = forkedKernel m.kernel p np) (rep : t'.Repr ram h')
    (maps : t'.Maps (pages (m.image p).sz) (fun _ => True) (kernelPtes ram trapframe))
    (copied : ∀ v < pages (m.image p).sz, t'.user v = t.user v ∧
      Vm.flags (t'.leaf v) = Vm.flags (t.leaf v))
    (regs : ∀ k < NREG, pte frame' k = if k = A0 then 0 else pte frame k)
    (apart : (h'.join (single trapframe frame')).Apart
      (h.join (single (m.image p).trapframe frame)))
    (owns : m'.mem.Owns ram ((h'.join (single trapframe frame')).join
      (h.join (single (m.image p).trapframe frame))))
    (keeps : m.mem.Keeps (h.join (single (m.image p).trapframe frame)) m'.mem
      ((h'.join (single trapframe frame')).join
        (h.join (single (m.image p).trapframe frame))))
    (inner : h'.Apart (single trapframe frame')) :
    Forked ram p t m m' np trapframe t' h' := by
  obtain ⟨fresh, free, same⟩ := keeps.taken lives.owns owns apart
  have own_iff (a : ℕ) : h'.join (single trapframe frame') a = none ↔ h' a = none ∧ a ≠ trapframe := by
    rw [join_eq_none]
    refine and_congr_right fun _ => ?_
    by_cases e : a = trapframe
    · simp [e, single_self]
    · simp [single, empty, e]
  have agree (a : ℕ) (x : Page) (own : h' a = some x) : m'.mem.page a = x :=
    owns.agree a x (join_of_left (join_of_left own))
  have old (a : ℕ) (x : Page) (own : h a = some x) : m.mem.page a = x :=
    lives.owns.agree a x (join_of_left own)
  have mine : m.mem.page (m.image p).trapframe = frame := by
    refine lives.owns.agree _ _ ?_
    rw [join_comm lives.apart]
    exact join_of_left single_self
  have new : m'.mem.page trapframe = frame' := by
    refine owns.agree _ _ (join_of_left ?_)
    rw [join_comm inner]
    exact join_of_left single_self
  -- the user pages of the two processes are different ones
  have distinct {v w : ℕ} (hv : v < pages (m.image p).sz) (hw : w < pages (m.image p).sz) :
      pte2pa (t'.leaf v) ≠ pte2pa (t.leaf w) := by
    obtain ⟨x, hx⟩ := ne_none_iff_exists'.mp (maps.user v hv)
    obtain ⟨y, hy⟩ := ne_none_iff_exists'.mp (lives.maps.user w hw)
    intro e
    have own := rep.user_page hx
    rw [e] at own
    have both := apart (pte2pa (t.leaf w))
    rw [join_of_left own, join_of_left (lives.rep.user_page hy)] at both
    rcases both with absurd' | absurd' <;> cases absurd'
  have inside {va : ℕ} (hva : va < pages (m.image p).sz * PGSIZE) :
      va / PGSIZE < pages (m.image p).sz := (Nat.div_lt_iff_lt_mul (by decide)).mpr hva
  refine ⟨slot, image, kernel, rep, agree, maps, fun v hv => (copied v hv).2, fun va hva => ?_,
    fun k hk => ?_, fun a own => ?_, fun a => (free a).trans ?_, same, fun va hva va' hva' b => ?_⟩
  · obtain ⟨x, hx⟩ := ne_none_iff_exists'.mp (lives.maps.user _ (inside hva))
    rw [byteAt_eq lives.rep old hx, byteAt_eq rep agree ((copied _ (inside hva)).1.trans hx)]
  · rw [new, mine, regs k hk]
  · refine fresh a fun absent => ?_
    obtain ⟨not_own, ne⟩ := (own_iff a).mp absent
    rcases own with own | e
    · exact own not_own
    · exact ne e
  · rw [own_iff]
  · exact ⟨byteAt_poke b (distinct (inside hva') (inside hva)),
      byteAt_poke b (distinct (inside hva) (inside hva')).symm⟩

/-- `fork` creates a copy of the process with pages of its own, or leaves everything as it was. -/
theorem fork_copies (lives : Lives ram m p t h frame) (able : Forkable m p) :
    Ends ram p A (fork ram) m fun r m' => (r = -1 ∧ AsBefore m m') ∨
      (r = m.nextpid ∧ ∃ np trapframe t' h', Forked ram p t m m' np trapframe t' h' ∧
        ∃ frame', h' trapframe = none ∧ m'.mem.Owns ram ((h'.join (single trapframe frame')).join
          (h.join (single (m.image p).trapframe frame)))) := by
  rw [fork]
  refine (ends_act (r := p) rfl ?_).bind
  refine ((allocproc_ends lives.owns able.unused).mono ?_).bind
  rintro _ m₁ (⟨rfl, kernel, image, owns, keeps⟩ |
    ⟨np, trapframe, frame₀, t₀, h₀, mem₁, rfl, rfl, new⟩)
  · exact ⟨trivial, .inl ⟨rfl, .of_keeps lives.owns owns keeps, kernel, image⟩⟩
  have unused := able.unused np new.slot.1 new.slot.2
  have ne : np ≠ p := by
    rintro rfl
    exact able.used new.slot.2
  have mine : (m.taken np mem₁ ⟨m.nextpid, trapframe, t₀.root, 0, []⟩).image p = m.image p :=
    update_of_ne ne.symm _ _
  have child : (m.taken np mem₁ ⟨m.nextpid, trapframe, t₀.root, 0, []⟩).image np = _ :=
    update_self ..
  refine (ends_act (r := m.image p) (by rw [Machine.exec, mine]) ?_).bind
  refine (ends_act (by rw [Machine.exec, child]) ?_).bind
  -- the memory of the two processes, the page tables first
  obtain ⟨parts, parts'⟩ := apart_join.mp new.apart.symm
  obtain ⟨tables, table_frame⟩ := apart_join.mp parts.symm
  obtain ⟨frame_table, frames⟩ := apart_join.mp parts'.symm
  have owns := new.owns
  rw [join_exchange frame_table] at owns
  have apart : (h₀.join h).Apart ((single trapframe frame₀).join
      (single (m.image p).trapframe frame)) :=
    apart_join.mpr ⟨(apart_join.mpr ⟨new.inner.symm, frame_table⟩).symm,
      (apart_join.mpr ⟨table_frame.symm, lives.apart.symm⟩).symm⟩
  rw [← lives.root]
  have moves := Moves.refl (m := m.taken np mem₁ ⟨m.nextpid, trapframe, t₀.root, 0, []⟩) apart owns
  refine ((moves.vm (uvmcopy_follows lives.rep lives.maps new.maps new.rep tables rfl)).mono ?_).bind
  rintro r m₂ ⟨_, ⟨h₁, h, tables₁, rfl, ⟨t₁, rep₁, copy⟩, rfl⟩, only, apart₁, owns₁, keeps₁⟩
  rw [only]
  obtain ⟨left, right⟩ := apart_join.mp apart₁
  have inner₁ := (apart_join.mp left.symm).1.symm
  have outer₁ : (h₁.join (single trapframe frame₀)).Apart
      (h.join (single (m.image p).trapframe frame)) :=
    (apart_join.mpr ⟨(apart_join.mpr
      ⟨tables₁, (apart_join.mp right.symm).1.symm⟩).symm, parts'⟩).symm
  rw [← join_exchange frame_table] at owns₁ keeps₁
  rw [← join_exchange frame_table] at keeps₁
  have keeps₂ := new.keeps.trans keeps₁
  rcases copy with ⟨rfl, same⟩ | ⟨rfl, copied⟩
  · -- the child gives back its pages
    rw [if_neg Bool.false_ne_true]
    have holds : (⟨m.nextpid, trapframe, t₀.root, 0, []⟩ : Image).Holds ram
        (h₁.join (single trapframe frame₀)) := by
      refine ⟨h₁, _, inner₁, rfl, .inr ⟨new.there, _, rfl⟩, .inr ⟨?_, t₁, same.root, rep₁, ?_⟩⟩
      · rw [← same.root]
        exact page_pos (rep₁.within _ (rep₁.own (n := .root) rfl))
      · have maps := new.maps.same same
        rwa [← show pages 0 = 0 from rfl] at maps
    refine ((allocproc_undo unused holds outer₁ owns₁ keeps₂).mono ?_).bind
    rintro _ m' ⟨kernel, image, owns', keeps'⟩
    exact ⟨trivial, .inl ⟨rfl, .of_keeps lives.owns owns' keeps', kernel, image⟩⟩
  · rw [if_pos rfl]
    have own : ((h₁.join (single trapframe frame₀)).join
        (h.join (single (m.image p).trapframe frame))) (m.image p).trapframe = some frame := by
      rw [join_comm outer₁, join_comm lives.apart]
      exact join_of_left (join_of_left single_self)
    have own₁ : (h₁.join (single trapframe frame₀)) trapframe = some frame₀ := by
      rw [join_comm inner₁]
      exact join_of_left single_self
    refine (forkChild_ends ne unused owns₁ own (join_of_left own₁) able.files able.dir).mono ?_
    rintro r m' ⟨rfl, kernel, image, owns₃, keeps₃⟩
    have absent : h₁ trapframe = none := apart_single.mp inner₁
    have there : (h₁.join (single trapframe frame₀)) trapframe ≠ none := by
      rw [own₁]
      rintro ⟨⟩
    have stored (x : Page) : update ((h₁.join (single trapframe frame₀)).join
        (h.join (single (m.image p).trapframe frame))) trapframe (some x) =
        (h₁.join (single trapframe x)).join
          (h.join (single (m.image p).trapframe frame)) := by
      rw [update_join there outer₁, join_single absent, update_idem, ← join_single absent]
    rw [stored] at owns₃ keeps₃
    have outer₃ := outer₁.update there (some (setPte (splice frame₀ 0 (slice frame 0 (8 * NREG))) A0 0))
    rw [join_single absent, update_idem, ← join_single absent] at outer₃
    refine .inr ⟨rfl, np, trapframe, t₁, h₁, forked_of_copied lives new.slot ?_ kernel rep₁ ?_
      copied.copied (fun k hk => pte_copied frame frame₀ hk) outer₃ owns₃ (keeps₂.trans keeps₃)
      (apart_single.mpr absent), _, absent, owns₃⟩
    · rw [image, copied.root]
    · exact copied.maps lives.maps (le_refl _) new.maps

theorem fork_ends (lives : Lives ram m p t h frame) (able : Forkable m p) :
    Ends ram p A (fork ram) m fun r m' => (r = -1 ∧ AsBefore m m') ∨
      (r = m.nextpid ∧ ∃ np trapframe t' h', Forked ram p t m m' np trapframe t' h') := by
  refine (fork_copies lives able).mono ?_
  rintro r m' (failed | ⟨pid, np, trapframe, t', h', forked, -⟩)
  · exact .inl failed
  · exact .inr ⟨pid, np, trapframe, t', h', forked⟩

/-- `fork` returns -1 and leaves everything as it was, or it returns the pid of a new process that is a
copy of the parent on pages that were free. -/
theorem fork_all_or_nothing (lives : Lives ram m p t h frame) (able : Forkable m p) :
    ∃ r m', (fork ram).run (Machine.exec ram p) m = (.ok r, m') ∧ ((r = -1 ∧ AsBefore m m') ∨
      (r = m.nextpid ∧ ∃ np trapframe t' h', Forked ram p t m m' np trapframe t' h')) := by
  have ends := fork_ends (A := fun _ => False) lives able
  rcases ends.run with ⟨r, ret, post⟩ | ⟨e, -, no⟩
  · exact ⟨r, _, Prod.ext ret rfl, post⟩
  · exact no.elim

end Fork

/-- A kernel with one process, which has opened file 5 as descriptor 3. -/
def oneProc : KState :=
  { smallState 3 0 0 with
    ftable := fun f => ⟨.inode, if f = 5 then 1 else 0, true, true, 0, 0, 0⟩
    procs := fun
      | 0 => ⟨.runnable, none, fun fd => if fd = 3 then some 5 else none, some 0⟩
      | _ => ⟨.unused, none, fun _ => none, none⟩ }

theorem oneProc_forkable : Forkable (pageMachine oneProc) 0 := by
  obtain ⟨t, h, frame, lives, alone, kernel⟩ := pageMachine_lives oneProc
  refine ⟨by rw [kernel]; nofun, fun q _ unused => ?_, fun fd _ f there => ?_, by rw [kernel]; nofun⟩
  · rw [kernel] at unused
    cases q with
    | zero => cases unused
    | succ q => exact ⟨alone.others _ (Nat.succ_ne_zero q), by rw [kernel]; rfl⟩
  · rw [kernel] at there ⊢
    have opened : (if fd = 3 then some 5 else none) = some f := there
    split_ifs at opened
    cases opened
    decide

/-- A process with one page and one open file forks: it has a child with pid 2. -/
theorem fork_all_or_nothing_page : ∃ m' t, (fork textRam).run (Machine.exec textRam 0)
    (pageMachine oneProc) = (.ok 2, m') ∧ (m'.kernel.ftable 5).ref = 2 ∧
      ∃ np trapframe t' h', Forked textRam 0 t (pageMachine oneProc) m' np trapframe t' h' := by
  obtain ⟨t, h, frame, lives, -, kernel⟩ := pageMachine_lives oneProc
  obtain ⟨r, m', run, outcome⟩ := fork_all_or_nothing lives oneProc_forkable
  have pid : (match ((fork textRam).run (Machine.exec textRam 0) (pageMachine oneProc)).1 with
    | .ok r => r == 2
    | .error _ => false) = true := by
    decide +kernel
  rw [run] at pid
  obtain rfl : r = 2 := beq_iff_eq.mp pid
  rcases outcome with ⟨failed, -⟩ | ⟨-, np, trapframe, t', h', forked⟩
  · exact absurd failed (by decide)
  · refine ⟨m', t, run, ?_, np, trapframe, t', h', forked⟩
    rw [forked.kernel, kernel]
    exact show 1 + copies (oneProc.procs 0) 5 NOFILE = 2 by decide

end Xv6.Task
