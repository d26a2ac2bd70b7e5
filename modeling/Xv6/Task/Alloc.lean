import Xv6.Sys.Path
import Xv6.Task.Prog
import Xv6.Vm.Protect

/-!
# The memory of a process

The pages that a process holds, and what `allocproc` and `freeproc` do to them.
-/

namespace Xv6.Task

open Function Sys Vm List Heap Machine

/-- The pages `h` are the trapframe and the address space of a process, as far as they exist. -/
def Image.Holds (ram : Ram) (x : Image) (h : Heap Page) : Prop :=
  ∃ ht hf : Heap Page, ht.Apart hf ∧ h = ht.join hf ∧
    (x.trapframe = 0 ∧ hf = empty ∨
      x.trapframe ≠ 0 ∧ ∃ frame, hf = single x.trapframe frame) ∧
    (x.pagetable = 0 ∧ ht = empty ∨
      x.pagetable ≠ 0 ∧ ∃ t : Table, t.root = x.pagetable ∧ t.Repr ram ht ∧
        t.Maps (pages x.sz) (fun _ => True) (kernelPtes ram x.trapframe))

/-- Process `p` has the page table `t`, which consists of the pages `h`, and the trapframe `frame`. -/
structure Lives (ram : Ram) (m : Machine) (p : ℕ) (t : Table) (h : Heap Page) (frame : Page) :
    Prop where
  root : t.root = (m.image p).pagetable
  rep : t.Repr ram h
  maps : t.Maps (pages (m.image p).sz) (fun _ => True) (kernelPtes ram (m.image p).trapframe)
  apart : h.Apart (single (m.image p).trapframe frame)
  owns : m.mem.Owns ram (h.join (single (m.image p).trapframe frame))

/-- The same pages are free, and no other page has changed. -/
structure Restored (mem mem' : Mem) : Prop where
  free : ∀ a, a ∈ mem'.freelist ↔ a ∈ mem.freelist
  nodup : mem'.freelist.Nodup
  pages : ∀ a, a ∉ mem.freelist → mem'.page a = mem.page a

theorem Restored.of_keeps {ram : Ram} {mem mem' : Mem} {f : Heap Page} (owns : mem.Owns ram f)
    (owns' : mem'.Owns ram f) (keeps : mem.Keeps f mem' f) : Restored mem mem' := by
  rw [← empty_join (h := f)] at owns'
  nth_rewrite 2 [← empty_join (h := f)] at keeps
  obtain ⟨-, free, pages⟩ := keeps.taken owns owns' apart_empty.symm
  exact ⟨fun a => (free a).trans (and_iff_left rfl), owns'.nodup, pages⟩

def Machine.freed (m : Machine) (np : ℕ) (mem : Mem) : Machine :=
  { m with
    kernel := m.kernel.setProc np { m.kernel.procs np with parent := none, state := .unused }
    mem := mem
    image := update m.image np .blank }

section

variable {ram : Ram} {p np : ℕ} {A : Panic → Prop} {m : Machine} {h f : Heap Page}

theorem page_pos {pg : ℕ} (inside : ram.first ≤ pg ∧ pg < ram.last) : pg ≠ 0 := by
  have := ram.trampoline_lt
  omega

/-! ## Changes of memory alone -/

/-- Between two states only physical memory has changed: the process that owned the pages `h` besides
`f` owns the pages `h'` instead. -/
structure Moves (ram : Ram) (f : Heap Page) (m : Machine) (h : Heap Page) (m' : Machine)
    (h' : Heap Page) : Prop where
  only : m' = { m with mem := m'.mem }
  apart : h'.Apart f
  owns : m'.mem.Owns ram (h'.join f)
  keeps : m.mem.Keeps (h.join f) m'.mem (h'.join f)

section

variable {m₀ : Machine} {h₀ : Heap Page}

theorem Moves.refl (apart : h.Apart f) (owns : m.mem.Owns ram (h.join f)) : Moves ram f m h m h :=
  ⟨rfl, apart, owns, .refl⟩

section

variable (moves : Moves ram f m₀ h₀ m h)
include moves

theorem Moves.kernel : m.kernel = m₀.kernel := by rw [moves.only]

theorem Moves.image : m.image = m₀.image := by rw [moves.only]

theorem Moves.vm {α : Type} {x : MProg α} {Q : α → Heap Page → Prop}
    (follows : x.Follows (owned ram) p h Q) :
    Ends ram p A (vm x) m fun r m' => ∃ h', Q r h' ∧ Moves ram f m₀ h₀ m' h' := by
  refine (ends_vm (follows.frame (owned_local ram) moves.apart) moves.owns).mono ?_
  rintro r _ ⟨mem', _, rfl, ⟨h', _, apart, rfl, post, rfl⟩, owns, keeps⟩
  refine ⟨h', post, ?_, apart, owns, moves.keeps.trans keeps⟩
  rw [moves.only]

theorem Moves.freeSpace {pagetable sz trapframe : ℕ}
    {F : Flags → Prop} (fits : trapframe < 2 ^ 52)
    (space : pagetable = 0 ∧ h = empty ∨ pagetable ≠ 0 ∧ ∃ t : Table, t.root = pagetable ∧
      t.Repr ram h ∧ t.Maps (pages sz) F (kernelPtes ram trapframe)) :
    Ends ram p A (if pagetable ≠ 0 then Task.vm (procFreepagetable pagetable sz) else pure ()) m
      fun _ m' => Moves ram f m₀ h₀ m' empty := by
  rcases space with ⟨null, rfl⟩ | ⟨there, t, rfl, rep, maps⟩
  · rw [if_neg (not_not.mpr null)]
    exact ⟨trivial, moves⟩
  · rw [if_pos there]
    refine (moves.vm (procFreepagetable_follows rep maps fits rfl)).mono ?_
    rintro _ m' ⟨_, rfl, moves'⟩
    exact moves'

end

end

theorem freeproc_ends (holds : (m.image np).Holds ram h) (apart : h.Apart f)
    (owns : m.mem.Owns ram (h.join f)) :
    Ends ram p A (freeproc np) m fun _ m' => ∃ mem', m' = m.freed np mem' ∧ mem'.Owns ram f ∧
      m.mem.Keeps (h.join f) mem' f := by
  obtain ⟨ht, hf, inner, rfl, frame, space⟩ := holds
  rw [join_comm inner] at apart owns ⊢
  obtain ⟨apart_f, apart_t⟩ := apart_join.mp apart.symm
  have both : hf.Apart (ht.join f) := apart_join.mpr ⟨inner.symm, apart_f.symm⟩
  rw [join_assoc] at owns ⊢
  refine (ends_act (r := m.image np) rfl ?_).bind
  -- the trapframe
  have first : Ends ram p A (if (m.image np).trapframe ≠ 0 then
      vm (mem (.kfree (m.image np).trapframe)) else pure ()) m fun _ m' => ∃ mem',
        m' = { m with mem := mem' } ∧ mem'.Owns ram (ht.join f) ∧
          m.mem.Keeps (hf.join (ht.join f)) mem' (ht.join f) := by
    rcases frame with ⟨null, rfl⟩ | ⟨there, fr, rfl⟩
    · rw [if_neg (not_not.mpr null)]
      rw [empty_join] at owns ⊢
      exact ⟨trivial, m.mem, rfl, owns, .refl⟩
    · rw [if_pos there]
      have own : single (m.image np).trapframe fr (m.image np).trapframe ≠ none := by
        rw [single_self]
        nofun
      refine ((Moves.refl both owns).vm (follows_kfree own)).mono ?_
      rintro _ m' ⟨_, rfl, only, -, owns', keeps⟩
      have gone : update (single (m.image np).trapframe fr) (m.image np).trapframe none =
          empty := by
        rw [single, update_idem]
        exact update_eq_self_iff.mpr rfl
      rw [gone, empty_join] at owns' keeps
      exact ⟨m'.mem, only, owns', keeps⟩
  refine (first.mono ?_).bind
  rintro _ _ ⟨mem₁, rfl, owns₁, keeps₁⟩
  -- the address space
  have fits : (m.image np).trapframe < 2 ^ 52 := by
    rcases frame with ⟨null, -⟩ | ⟨-, fr, rfl⟩
    · rw [null]
      decide
    · refine owns.within.fits (a := (m.image np).trapframe) ?_
      rw [join_of_left single_self]
      nofun
  have moves : Moves ram f { m with mem := mem₁ } ht { m with mem := mem₁ } ht :=
    .refl apart_t.symm owns₁
  refine ((moves.freeSpace fits space).mono ?_).bind
  rintro _ m₂ ⟨only, -, owns₂, keeps₂⟩
  rw [empty_join] at owns₂ keeps₂
  rw [only]
  refine (ends_act rfl ?_).bind
  exact ends_act rfl ⟨m₂.mem, rfl, owns₂, keeps₁.trans keeps₂⟩

/-- A process that is not in use has no memory, parent, files or directory. -/
structure Unused (m : Machine) (q : ℕ) : Prop where
  image : m.image q = .blank
  proc : m.kernel.procs q = ⟨.unused, none, fun _ => none, none⟩

def Machine.taken (m : Machine) (np : ℕ) (mem : Mem) (x : Image) : Machine where
  kernel := m.kernel.setProc np { m.kernel.procs np with state := .used }
  mem := mem
  image := update m.image np x
  nextpid := m.nextpid + 1

/-- What `allocproc` has created: a process with the trapframe `frame` at page `trapframe` and an
address space without user pages. -/
structure Created (ram : Ram) (m : Machine) (f : Heap Page) (np trapframe : ℕ) (frame : Page)
    (t : Table) (ht : Heap Page) (mem : Mem) : Prop where
  slot : np < NPROC ∧ (m.kernel.procs np).state = .unused
  there : trapframe ≠ 0
  rep : t.Repr ram ht
  maps : t.Maps 0 (fun _ => True) (kernelPtes ram trapframe)
  inner : ht.Apart (single trapframe frame)
  apart : (ht.join (single trapframe frame)).Apart f
  owns : mem.Owns ram ((ht.join (single trapframe frame)).join f)
  keeps : m.mem.Keeps f mem ((ht.join (single trapframe frame)).join f)

theorem freeProc_some {s : KState} (found : s.freeProc = some np) :
    np < NPROC ∧ (s.procs np).state = .unused := by
  have mem := mem_of_find?_eq_some found
  have test := find?_some found
  exact ⟨mem_range.mp mem, beq_iff_eq.mp test⟩

theorem taken_update {mem : Mem} {x : Image} (g : Image → Image) :
    Machine.exec ram p (.update np g) (m.taken np mem x) = .ok ((), m.taken np mem (g x)) := by
  simp only [Machine.exec, Machine.taken, update_self, update_idem]

theorem allocproc_undo {mem : Mem} {x : Image} (unused : Unused m np) (holds : x.Holds ram h)
    (apart : h.Apart f) (owns : mem.Owns ram (h.join f)) (keeps : m.mem.Keeps f mem (h.join f)) :
    Ends ram p A (freeproc np) (m.taken np mem x) fun _ m' => m'.kernel = m.kernel ∧
      m'.image = m.image ∧ m'.mem.Owns ram f ∧ m.mem.Keeps f m'.mem f := by
  have self : (m.taken np mem x).image np = x := update_self ..
  refine (freeproc_ends (m := m.taken np mem x) (self.symm ▸ holds) apart owns).mono ?_
  rintro _ _ ⟨mem', rfl, owns', keeps'⟩
  refine ⟨?_, ?_, owns', keeps.trans keeps'⟩
  · simp only [freed, taken, KState.setProc, update_self, update_idem]
    rw [update_eq_self_iff.mpr]
    rw [unused.proc]
  · simp only [freed, taken, update_idem]
    exact update_eq_self_iff.mpr unused.image.symm

theorem allocproc_ends (owns : m.mem.Owns ram f)
    (unused : ∀ q < NPROC, (m.kernel.procs q).state = .unused → Unused m q) :
    Ends ram p A (allocproc ram) m fun r m' =>
      (r = none ∧ m'.kernel = m.kernel ∧ m'.image = m.image ∧ m'.mem.Owns ram f ∧
        m.mem.Keeps f m'.mem f) ∨
      ∃ np trapframe frame t ht mem', r = some np ∧
        m' = m.taken np mem' ⟨m.nextpid, trapframe, t.root, 0, []⟩ ∧
        Created ram m f np trapframe frame t ht mem' := by
  rw [allocproc]
  cases found : m.kernel.freeProc with
  | none =>
    have step : Machine.exec ram p .findProc m = .ok (none, m) := by rw [Machine.exec, found]
    refine (ends_act step ?_).bind
    exact ⟨trivial, .inl ⟨rfl, rfl, rfl, owns, .refl⟩⟩
  | some np =>
    have slot := freeProc_some found
    have free := unused np slot.1 slot.2
    have find : Machine.exec ram p .findProc m = .ok (some np, { m with
        kernel := m.kernel.setProc np { m.kernel.procs np with state := .used } }) := by
      rw [Machine.exec, found]
    have pid : Machine.exec ram p .allocpid { m with
        kernel := m.kernel.setProc np { m.kernel.procs np with state := .used } } =
          .ok (m.nextpid, m.taken np m.mem .blank) := by
      rw [← free.image]
      simp only [Machine.exec, Machine.taken, update_eq_self]
    refine (ends_act find ?_).bind
    refine (ends_act pid ?_).bind
    refine (ends_act (taken_update _) ?_).bind
    refine ((ends_vm (m := m.taken np m.mem _) follows_kalloc owns).mono ?_).bind
    rintro _ _ ⟨mem₁, _, rfl, ⟨rfl, rfl⟩ | ⟨trapframe, rfl, absent, inside, rfl⟩, owns₁, keeps₁⟩
    · -- no page for the trapframe
      refine (ends_act (m := m.taken np mem₁ _) (taken_update _) ?_).bind
      have holds : (⟨m.nextpid, 0, 0, 0, []⟩ : Image).Holds ram empty :=
        ⟨empty, empty, apart_empty, join_empty.symm, .inl ⟨rfl, rfl⟩, .inl ⟨rfl, rfl⟩⟩
      refine ((allocproc_undo free holds apart_empty.symm (by rwa [empty_join])
        (by rwa [empty_join])).mono ?_).bind
      intro _ m' undone
      exact ⟨trivial, .inl ⟨rfl, undone⟩⟩
    · refine (ends_act (m := m.taken np mem₁ _) (taken_update _) ?_).bind
      have alone : f.Apart (single trapframe (fill 5)) := apart_single.mpr absent
      rw [← join_single absent, join_comm alone] at owns₁ keeps₁
      have start := empty_join (h := (single trapframe (fill 5)).join f)
      have moves := Moves.refl (m := m.taken np mem₁ ⟨m.nextpid, trapframe, 0, 0, []⟩)
        apart_empty.symm (start.symm ▸ owns₁)
      refine ((moves.vm (procPagetable_follows trapframe fun _ => True)).mono ?_).bind
      rintro _ m₂ ⟨ht, ⟨rfl, rfl⟩ | ⟨t, rfl, rep, maps⟩, only, apart, owns₂, keeps₂⟩
      · -- no pages for the page table
        rw [only]
        refine (ends_act (taken_update _) ?_).bind
        have holds : (⟨m.nextpid, trapframe, 0, 0, []⟩ : Image).Holds ram
            (single trapframe (fill 5)) :=
          ⟨empty, _, apart_empty.symm, empty_join.symm,
            .inr ⟨page_pos inside, _, rfl⟩, .inl ⟨rfl, rfl⟩⟩
        rw [start] at owns₂ keeps₂
        refine ((allocproc_undo free holds alone.symm owns₂ (keeps₁.trans keeps₂)).mono ?_).bind
        intro _ m' undone
        exact ⟨trivial, .inl ⟨rfl, undone⟩⟩
      · rw [only]
        refine (ends_act (taken_update _) ?_).bind
        obtain ⟨inner, outer⟩ := apart_join.mp apart
        rw [start] at keeps₂
        rw [← join_assoc] at owns₂ keeps₂
        refine ⟨trivial, .inr ⟨np, trapframe, fill 5, t, ht, m₂.mem, rfl, rfl, ⟨slot, page_pos inside, rep,
          maps, inner, ?_, owns₂, keeps₁.trans keeps₂⟩⟩⟩
        exact (apart_join.mpr ⟨outer.symm, alone⟩).symm

end

/-! ## A process without user pages -/

/-- There is no process, and the pages from 10 on are free. -/
def bootMachine : Machine where
  kernel := { smallState 3 0 0 with procs := fun _ => ⟨.unused, none, fun _ => none, none⟩ }
  mem := ⟨fun _ => fill 0, range' 10 17, []⟩
  image := fun _ => .blank
  nextpid := 1

theorem bootMachine_owns : bootMachine.mem.Owns textRam empty :=
  ⟨nofun, nodup_range', fun _ free => ⟨rfl, mem_range'_1.mp free⟩, fun _ own => absurd rfl own⟩

/-- The process that `allocproc` creates, under the kernel `s`. -/
def emptyMachine (s : KState) : Machine :=
  { ((allocproc textRam).run (Machine.exec textRam 0) bootMachine).2 with kernel := s }

/-- The only process has taken its pages `h` and its trapframe from the pages that were free. -/
structure Alone (m : Machine) (h : Heap Page) (frame : Page) : Prop where
  others : ∀ q, q ≠ 0 → m.image q = .blank
  keeps : bootMachine.mem.Keeps empty m.mem (h.join (single (m.image 0).trapframe frame))

theorem emptyMachine_lives (s : KState) : ∃ t h frame, Lives textRam (emptyMachine s) 0 t h frame ∧
    Alone (emptyMachine s) h frame := by
  have ends := allocproc_ends (p := 0) (A := fun _ => False) bootMachine_owns
    fun _ _ _ => ⟨rfl, rfl⟩
  have first : (match ((allocproc textRam).run (Machine.exec textRam 0) bootMachine).1 with
    | .ok r => r
    | .error _ => none) = some 0 := by
    decide +kernel
  rw [emptyMachine]
  rcases ends.run with ⟨r, ret, ⟨none, -⟩ | ⟨np, trapframe, frame, t, h, mem, found, made, new⟩⟩ |
    ⟨_, -, no⟩
  · rw [ret, none] at first
    cases first
  · rw [ret, found] at first
    obtain rfl : np = 0 := Option.some.inj first
    have owns := new.owns
    have keeps := new.keeps
    rw [join_empty] at owns keeps
    rw [made]
    have maps : t.Maps (pages 0) (fun _ => True) (kernelPtes textRam trapframe) := new.maps
    exact ⟨t, h, frame, ⟨rfl, new.rep, maps, new.inner, owns⟩,
      fun _ other => update_of_ne other .., keeps⟩
  · exact no.elim

end Xv6.Task
