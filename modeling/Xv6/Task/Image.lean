import Xv6.Task.Exec
import Xv6.Vm.Transfer

/-!
# The new user program

What a program finds in its memory after a successful `exec`: the segments of its file, zero
elsewhere below the guard page, and its arguments in the stack page.
-/

namespace Xv6.Task

open Sys Vm List Task.Core Option

/-! ## Segments in order -/

/-- The segment `b` begins at or after the end of `a`. -/
def Proghdr.Before (a b : Proghdr) : Prop := a.vaddr + a.memsz ≤ b.vaddr

instance : DecidableRel Proghdr.Before := fun _ _ => inferInstanceAs (Decidable (_ ≤ _))

instance : Trans Proghdr.Before Proghdr.Before Proghdr.Before where
  trans {a b c} (first : a.vaddr + a.memsz ≤ b.vaddr) (second : b.vaddr + b.memsz ≤ c.vaddr) :=
    show a.vaddr + a.memsz ≤ c.vaddr by omega

/-- The segments of the file are inside the file, do not overlap and begin at page boundaries. -/
structure WellFormed (file : List Byte) : Prop where
  sizes : ∀ ph ∈ execSegments file, ph.filesz ≤ ph.memsz
  inside : ∀ ph ∈ execSegments file, ph.off + ph.filesz ≤ file.length
  aligned : ∀ ph ∈ execSegments file, ph.vaddr % PGSIZE = 0
  ordered : (execSegments file).IsChain Proghdr.Before

def Proghdr.perm (ph : Proghdr) : Flags := PTE_R ||| PTE_U ||| flags2perm ph.flags ||| PTE_V

section Fold

variable {file : List Byte} {phs : List Proghdr} {c : Core} {ph : Proghdr} {a v : ℕ}

theorem load_sz_le (phs : List Proghdr) (c : Core) : c.sz ≤ (phs.foldl (load file) c).sz := by
  induction phs generalizing c with
  | nil => exact le_refl _
  | cons q phs ih => exact le_trans (le_max_left ..) (ih (c.load file q))

theorem load_sz_mem (mem : ph ∈ phs) : ph.vaddr + ph.memsz ≤ (phs.foldl (load file) c).sz := by
  induction phs generalizing c with
  | nil => exact absurd mem not_mem_nil
  | cons q phs ih =>
    rcases mem_cons.mp mem with rfl | mem
    · exact le_trans (le_max_right ..) (load_sz_le phs (c.load file ph))
    · exact ih mem

theorem load_byte_out (out : ∀ ph ∈ phs, ¬(ph.vaddr ≤ a ∧ a < ph.vaddr + ph.filesz % 2 ^ 32)) :
    (phs.foldl (load file) c).byte a = c.byte a := by
  induction phs generalizing c with
  | nil => rfl
  | cons q phs ih =>
    rw [foldl_cons, ih fun ph mem => out ph (mem_cons_of_mem q mem), load_byte,
      if_neg (out q mem_cons_self)]

theorem load_byte_in (order : phs.Pairwise Proghdr.Before) (mem : ph ∈ phs)
    (size : ph.filesz ≤ ph.memsz) (lower : ph.vaddr ≤ a) (upper : a < ph.vaddr + ph.filesz % 2 ^ 32) :
    (phs.foldl (load file) c).byte a = file.getD (ph.off % 2 ^ 32 + (a - ph.vaddr)) 0 := by
  have loaded := Nat.mod_le ph.filesz (2 ^ 32)
  induction phs generalizing c with
  | nil => exact absurd mem not_mem_nil
  | cons q phs ih =>
    obtain ⟨first, order⟩ := pairwise_cons.mp order
    rcases mem_cons.mp mem with rfl | mem
    · have out : ∀ q ∈ phs, ¬(q.vaddr ≤ a ∧ a < q.vaddr + q.filesz % 2 ^ 32) := by
        intro q mem reach
        have after : ph.vaddr + ph.memsz ≤ q.vaddr := first q mem
        omega
      rw [foldl_cons, load_byte_out out, load_byte, if_pos ⟨lower, upper⟩]
    · exact ih order mem

theorem load_perm_old (old : v < pages c.sz) : (phs.foldl (load file) c).perm v = c.perm v := by
  induction phs generalizing c with
  | nil => rfl
  | cons q phs ih =>
    have next : v < pages (c.load file q).sz := lt_of_lt_of_le old (pages_mono (le_max_left ..))
    rw [foldl_cons, ih next, load_perm, if_neg (not_le.mpr old)]

theorem load_perm_in (order : phs.Pairwise Proghdr.Before) (mem : ph ∈ phs)
    (after : ∀ q ∈ phs, c.sz ≤ q.vaddr) (aligned : ph.vaddr % PGSIZE = 0)
    (lower : ph.vaddr / PGSIZE ≤ v) (upper : v < pages (ph.vaddr + ph.memsz)) :
    (phs.foldl (load file) c).perm v = ph.perm := by
  induction phs generalizing c with
  | nil => exact absurd mem not_mem_nil
  | cons q phs ih =>
    obtain ⟨first, order⟩ := pairwise_cons.mp order
    rcases mem_cons.mp mem with rfl | mem
    · have new : pages c.sz ≤ v := by
        refine le_trans (pages_mono (after ph mem_cons_self)) (le_trans ?_ lower)
        simp only [pages, PGSIZE] at aligned ⊢
        omega
      have old : v < pages (c.load file ph).sz :=
        lt_of_lt_of_le upper (pages_mono (le_max_right ..))
      rw [foldl_cons, load_perm_old old, load_perm, if_pos new, Proghdr.perm]
    · refine ih order mem fun r there => Nat.max_le.mpr ⟨?_, first r there⟩
      exact after r (mem_cons_of_mem q there)

end Fold

theorem perm_flags (ph : Proghdr) : has ph.perm PTE_R ∧ has ph.perm PTE_U ∧ has ph.perm PTE_V ∧
    (has ph.perm PTE_W ↔ ph.flags / 2 % 2 = 1) ∧ (has ph.perm PTE_X ↔ ph.flags % 2 = 1) := by
  simp only [Proghdr.perm, flags2perm]
  split_ifs with w x x
  · exact ⟨by decide, by decide, by decide, iff_of_true (by decide) w, iff_of_true (by decide) x⟩
  · exact ⟨by decide, by decide, by decide, iff_of_true (by decide) w, iff_of_false (by decide) x⟩
  · exact ⟨by decide, by decide, by decide, iff_of_false (by decide) w, iff_of_true (by decide) x⟩
  · exact ⟨by decide, by decide, by decide, iff_of_false (by decide) w, iff_of_false (by decide) x⟩

/-! ## The image in memory -/

section

variable {ram : Ram} {p : ℕ} {m m' : Machine} {t t' : Table} {h h' : Heap Page} {frame : Page}
  {path : Path} {argv : List (List Byte)} {file : List Byte} {argc sp : ℕ}

theorem Lives.byteAt (lives : Lives ram m p t h frame) {va : ℕ} {x : Page}
    (there : t.user (va / PGSIZE) = some x) : m.mem.byteAt t va = x.byte (va % PGSIZE) :=
  byteAt_eq lives.rep (fun a x own => lives.owns.agree a x (Heap.join_of_left own)) there

theorem executed_of_run (lives : Lives ram m p t h frame) (ready : ExecReady p m.kernel)
    (args : ArgsOk argv)
    (ran : (exec ram path argv).run (Machine.exec ram p) m = (.ok (some argc), m')) :
    argc = argv.length ∧ ∃ file t' h' sp, execFile p m.kernel path = some file ∧
      Executed ram m p h frame path argv file m' t' h' sp := by
  rcases exec_run lives ready path args with ⟨r, m'', run, -, outcome⟩ |
    ⟨err, m'', run, -⟩
  · rw [ran] at run
    cases run
    rcases outcome with ⟨impossible, -⟩ | ⟨same, done⟩
    · cases impossible
    · exact ⟨some.inj same, done⟩
  · rw [ran] at run
    cases run

theorem execFile_length (ready : ExecReady p m.kernel) (here : execFile p m.kernel path = some file) :
    file.length < 2 ^ 32 := by
  obtain ⟨y, -, rfl⟩ := map_eq_some_iff.mp here
  exact lt_of_le_of_lt (ready.sizes y) (by decide)

section

variable (done : Executed ram m p h frame path argv file m' t' h' sp)
include done

theorem Executed.byteAt {a : ℕ}
    (inside : a < pages (execCore file).sz * PGSIZE) : m'.mem.byteAt t' a = (execCore file).byte a := by
  have page : a / PGSIZE < pages (execCore file).sz := Nat.div_lt_of_lt_mul (by rwa [mul_comm])
  obtain ⟨x, hx, bytes, -⟩ := done.core.page _ page
  rw [done.lives.byteAt hx, bytes _ (Nat.mod_lt a (by decide)), Nat.div_add_mod']

theorem Executed.sz_eq : (m'.image p).sz = (pages (execCore file).sz + 2) * PGSIZE := by
  rw [done.image, Function.update_self]

theorem Executed.page_lt {v : ℕ}
    (hv : v < pages (execCore file).sz + 2) : v < MAXVA / PGSIZE ∧ has (flags (t'.leaf v)) PTE_V := by
  have maps := done.lives.maps
  rw [done.sz_eq, pages_mul] at maps
  refine ⟨?_, done.lives.rep.wf.user_valid v (maps.user v hv)⟩
  exact lt_trans hv (lt_trans (maps.lt done.lives.rep) (by decide))

end

/-- The bytes of the segments, zero elsewhere below the guard page, and the flags of the segments on
their pages; the last two pages are the guard page and the stack page. -/
theorem exec_loads_image (lives : Lives ram m p t h frame) (ready : ExecReady p m.kernel)
    (args : ArgsOk argv) (ran : (exec ram path argv).run (Machine.exec ram p) m = (.ok (some argc), m'))
    (here : execFile p m.kernel path = some file) (formed : WellFormed file) :
    ∃ t' h' frame' n, Lives ram m' p t' h' frame' ∧
      (∀ ph ∈ execSegments file, ∀ i < ph.filesz,
        m'.mem.byteAt t' (ph.vaddr + i) = file.getD (ph.off + i) 0) ∧
      (∀ a < n * PGSIZE, (∀ ph ∈ execSegments file, ¬(ph.vaddr ≤ a ∧ a < ph.vaddr + ph.filesz)) →
        m'.mem.byteAt t' a = 0) ∧
      (∀ ph ∈ execSegments file, ∀ v, ph.vaddr / PGSIZE ≤ v → v < pages (ph.vaddr + ph.memsz) →
        v < n ∧ t'.Accessible v ∧ has (flags (t'.leaf v)) PTE_R ∧
          (has (flags (t'.leaf v)) PTE_W ↔ ph.flags / 2 % 2 = 1) ∧
          (has (flags (t'.leaf v)) PTE_X ↔ ph.flags % 2 = 1)) ∧
      ¬t'.Accessible n ∧ t'.Accessible (n + 1) ∧ (m'.image p).sz = (n + 2) * PGSIZE := by
  obtain ⟨-, file', t', h', sp, same, done⟩ := executed_of_run lives ready args ran
  obtain rfl := some.inj (here.symm.trans same)
  have short := execFile_length ready here
  have order := formed.ordered.pairwise
  -- sizes and offsets of segments in the file fit into 32 bits
  have fits (ph : Proghdr) (mem : ph ∈ execSegments file) :
      ph.filesz % 2 ^ 32 = ph.filesz ∧ (ph.filesz ≠ 0 → ph.off % 2 ^ 32 = ph.off) := by
    have := formed.inside ph mem
    exact ⟨Nat.mod_eq_of_lt (by omega), fun _ => Nat.mod_eq_of_lt (by omega)⟩
  have last (ph : Proghdr) (mem : ph ∈ execSegments file) :
      pages (ph.vaddr + ph.memsz) ≤ pages (execCore file).sz :=
    pages_mono (load_sz_mem mem)
  refine ⟨t', h', _, pages (execCore file).sz, done.lives, fun ph mem i hi => ?_,
    fun a inside out => ?_, fun ph mem v lower upper => ?_, fun acc => ?_, ?_, done.sz_eq⟩
  · have size := formed.sizes ph mem
    have inside : ph.vaddr + i < pages (execCore file).sz * PGSIZE := by
      refine lt_of_lt_of_le (lt_of_lt_of_le ?_ (load_sz_mem mem)) (le_pages _)
      omega
    rw [done.byteAt inside, execCore, load_byte_in order mem size (by omega), (fits ph mem).2 (by omega),
      Nat.add_sub_cancel_left]
    rw [(fits ph mem).1]
    omega
  · rw [done.byteAt inside, execCore, load_byte_out]
    · rfl
    · intro ph mem
      rw [(fits ph mem).1]
      exact out ph mem
  · have inside := lt_of_lt_of_le upper (last ph mem)
    obtain ⟨-, -, -, perm⟩ := done.core.page v inside
    rw [execCore, load_perm_in order mem (fun _ _ => zero_le) (formed.aligned ph mem) lower
      upper] at perm
    obtain ⟨readable, user, valid, writable, executable⟩ := perm_flags ph
    have page := done.page_lt (Nat.lt_add_right 2 inside)
    rw [Table.Accessible, perm]
    exact ⟨inside, ⟨page.1, valid, user⟩, readable, writable, executable⟩
  · have user := acc.2.2
    rw [done.stacked.guard.2] at user
    exact absurd user (by decide)
  · have page := done.page_lt (Nat.lt_succ_self (pages (execCore file).sz + 1))
    rw [Table.Accessible, done.stacked.stack]
    exact ⟨page.1, by decide, by decide⟩

theorem program_file : execFile 0 programState programPath = some programFile := by decide

theorem program_formed : WellFormed programFile := by
  set_option maxRecDepth 2000 in
  exact ⟨by decide, by decide, by decide, by decide⟩

/-- The bytes of the only segment of the small program are loaded. -/
theorem exec_loads_image_program : (execSegments programFile).length = 1 ∧ ∃ m' t',
    (exec textRam programPath [[97#8]]).run (Machine.exec textRam 0)
      (emptyMachine programState) = (.ok (some 1), m') ∧
    ∀ ph ∈ execSegments programFile, ∀ i < ph.filesz,
      m'.mem.byteAt t' (ph.vaddr + i) = programFile.getD (ph.off + i) 0 := by
  obtain ⟨t, h, frame, lives, -⟩ := emptyMachine_lives programState
  obtain ⟨m', run⟩ := program_exec
  obtain ⟨t', -, -, -, -, bytes, -⟩ :=
    exec_loads_image lives programState_ready program_args run program_file program_formed
  exact ⟨by set_option maxRecDepth 2000 in decide, m', t', run, bytes⟩

/-! ## The arguments in memory -/

theorem number_eq {bytes : List Byte} {off k w : ℕ}
    (digits : ∀ j < k, bytes.getD (off + j) 0 = BitVec.ofNat 8 (w / 256 ^ j)) :
    number bytes off k = w % 256 ^ k := by
  induction k generalizing off w with
  | zero => rw [number, Nat.pow_zero, Nat.mod_one]
  | succ k ih =>
    have first := digits 0 (Nat.succ_pos k)
    rw [add_zero, Nat.pow_zero, Nat.div_one] at first
    have rest : ∀ j < k, bytes.getD (off + 1 + j) 0 = BitVec.ofNat 8 (w / 256 / 256 ^ j) := by
      intro j hj
      rw [Nat.div_div_eq_div_mul, ← Nat.pow_succ', add_right_comm]
      exact digits (j + 1) (by omega)
    have power : 256 ^ (k + 1) = 256 * 256 ^ k := Nat.pow_succ'
    rw [number, ih rest, first, BitVec.toNat_ofNat, power, Nat.mod_mul]

theorem getD_wordBytes {words : List ℕ} {i j : ℕ} (hi : i < words.length) (hj : j < 8) :
    (wordBytes words).getD (8 * i + j) 0 = BitVec.ofNat 8 (words.getD i 0 / 256 ^ j) := by
  induction words generalizing i with
  | nil => exact absurd hi (Nat.not_lt_zero i)
  | cons w words ih =>
    have split : wordBytes (w :: words) = ((List.range 8).map fun i => BitVec.ofNat 8 (w / 2 ^ (8 * i))) ++
      wordBytes words := flatMap_cons ..
    have length : ((List.range 8).map fun i => BitVec.ofNat 8 (w / 2 ^ (8 * i))).length = 8 := by
      rw [length_map, length_range]
    rw [split]
    cases i with
    | zero =>
      rw [mul_zero, zero_add, getD_append _ _ _ _ (by omega), getD_cons_zero,
        getD_eq_getElem _ _ (by omega), getElem_map, getElem_range, Nat.pow_mul]
    | succ i =>
      rw [getD_append_right _ _ _ _ (by omega), length, getD_cons_succ,
        ← ih (Nat.lt_of_succ_lt_succ hi)]
      congr 1
      omega

/-- The arguments of a program in its stack page, the page above `n`: the array of pointers at `sp` and
the strings that they point to. -/
structure ArgsInMemory (mem : Mem) (t : Table) (frame : Page) (n : ℕ)
    (argv : List (List Byte)) (ptrs : List ℕ) (sp : ℕ) : Prop where
  registers : pte frame A1 = BitVec.ofNat 64 sp ∧ pte frame SP = BitVec.ofNat 64 sp
  aligned : sp % 16 = 0
  count : ptrs.length = argv.length
  words : ∀ i ≤ argv.length, number (mem.bytesAt t (sp + 8 * i) 8) 0 8 = (ptrs ++ [0]).getD i 0
  strings : ∀ x ∈ argv.zip ptrs, mem.bytesAt t x.2 (x.1.length + 1) = x.1 ++ [0]
  base : (n + 1) * PGSIZE ≤ sp
  inside : ∀ x ∈ argv.zip ptrs, sp + 8 * (argv.length + 1) ≤ x.2 ∧
    x.2 + x.1.length + 1 ≤ (n + 2) * PGSIZE
  apart : (argv.zip ptrs).Pairwise fun x y => y.2 + y.1.length + 1 ≤ x.2
  guard : ∀ a, a / PGSIZE = n → mem.byteAt t a = 0

theorem execFrame_registers (frame : Page) (entry sp : ℕ) :
    pte (execFrame frame entry sp) A1 = BitVec.ofNat 64 sp ∧
      pte (execFrame frame entry sp) SP = BitVec.ofNat 64 sp := by
  constructor
  · rw [execFrame, pte, setPte, Bytes.word_setWord_out _ _ (by decide), setPte,
      Bytes.word_setWord_out _ _ (by decide), setPte, Bytes.word_setWord _ _ (by decide)]
  · rw [execFrame, pte, setPte, Bytes.word_setWord _ _ (by decide)]

theorem Executed.byte_eq (done : Executed ram m p h frame path argv file m' t' h' sp) {a : ℕ}
    (inside : a < (pages (execCore file).sz + 2) * PGSIZE) : m'.mem.byteAt t' a = t'.byte a := by
  have maps := done.lives.maps
  rw [done.sz_eq, pages_mul] at maps
  have page : a / PGSIZE < pages (execCore file).sz + 2 := Nat.div_lt_of_lt_mul (by rwa [mul_comm])
  obtain ⟨x, hx⟩ := ne_none_iff_exists'.mp (maps.user _ page)
  rw [done.lives.byteAt hx, Table.byte, hx, getD_some]

theorem stringPlaces_lt {top : ℕ} (small : top < 256 ^ 8) (argv : List (List Byte)) {i : ℕ} :
    (stringPlaces top argv ++ [0]).getD i 0 < 256 ^ 8 := by
  have all : ∀ w ∈ stringPlaces top argv ++ [0], w ≤ top := by
    intro w mem
    rcases mem_append.mp mem with mem | mem
    · exact stringPlaces_le mem
    · rw [mem_singleton.mp mem]
      exact zero_le
  by_cases hi : i < (stringPlaces top argv ++ [0]).length
  · rw [getD_eq_getElem _ _ hi]
    exact lt_of_le_of_lt (all _ (getElem_mem hi)) small
  · rw [getD_eq_default _ _ (not_lt.mp hi)]
    decide

theorem Executed.arguments (done : Executed ram m p h frame path argv file m' t' h' sp) :
    ArgsInMemory m'.mem t' (execFrame frame (Elfhdr.ofBytes file).entry sp) (pages (execCore file).sz)
      argv (stringPlaces ((pages (execCore file).sz + 2) * PGSIZE) argv) sp := by
  obtain ⟨guard, -, fits, pointer, pushed⟩ := done.stacked
  have top : (pages (execCore file).sz + 2) * PGSIZE = (pages (execCore file).sz + 1) * PGSIZE + PGSIZE :=
    Nat.succ_mul (pages (execCore file).sz + 1) PGSIZE
  have space : 8 * (argv.length + 1) ≤ argSpace argv := by
    rw [argSpace, round16]
    omega
  have small : (pages (execCore file).sz + 2) * PGSIZE < 256 ^ 8 := by
    have page := (done.page_lt (Nat.lt_succ_self (pages (execCore file).sz + 1))).1
    simp only [MAXVA, PGSIZE] at page ⊢
    omega
  have array : sp + 8 * (argv.length + 1) ≤ (pages (execCore file).sz + 2) * PGSIZE := by
    rw [pointer]
    omega
  refine ⟨execFrame_registers .., pushed.aligned, stringPlaces_length .., fun i hi => ?_,
    fun x mem => ?_, ?_, pushed.inside, pushed.apart, fun a page => ?_⟩
  · refine (number_eq fun j hj => ?_).trans (Nat.mod_eq_of_lt (stringPlaces_lt small argv))
    have length : i < (stringPlaces ((pages (execCore file).sz + 2) * PGSIZE) argv ++ [0]).length := by
      rw [length_append, stringPlaces_length, length_singleton]
      omega
    rw [← getD_wordBytes length hj, ← pushed.array _ (by omega), zero_add, ← add_assoc,
      ← done.byte_eq (by omega), Mem.bytesAt, getD_eq_getElem _ _ (by simpa using hj),
      getElem_map, getElem_range]
  · have string := (forall₂_iff_zip.mp pushed.strings).2 mem
    have last := (pushed.inside x mem).2
    refine ext_getElem (by simp [Mem.length_bytesAt]) fun k hk hk' => ?_
    rw [Mem.length_bytesAt] at hk
    rw [← getD_eq_getElem _ 0 hk', ← string k (by omega), ← done.byte_eq (by omega)]
    simp only [Mem.bytesAt, getElem_map, getElem_range]
  · have base := pushed.base
    rw [top] at base
    exact Nat.le_of_add_le_add_right base
  · rw [← page] at guard
    rw [done.lives.byteAt guard.1, Bytes.byte, dif_pos (Nat.mod_lt a (by decide)), fill]

/-- The arguments that a program finds after a successful `exec`, which fails to store them exactly if
the strings and the pointers, rounded to multiples of 16 bytes, do not fit into one page. -/
theorem exec_arguments (lives : Lives ram m p t h frame) (ready : ExecReady p m.kernel)
    (args : ArgsOk argv) :
    (∀ argc m', (exec ram path argv).run (Machine.exec ram p) m = (.ok (some argc), m') →
      argc = argv.length ∧ ∃ t' h' frame' n ptrs sp, Lives ram m' p t' h' frame' ∧
        (m'.image p).sz = (n + 2) * PGSIZE ∧ ¬t'.Accessible n ∧
        ArgsInMemory m'.mem t' frame' n argv ptrs sp) ∧
    ∀ (mem : Mem) (t : Table) (h : Heap Page) (v : ℕ), mem.Owns ram h → t.Repr ram h → t.Private →
      t.Accessible v → 0 < v → ∃ r mem',
        (pushArgs t.root (v * PGSIZE) argv (v * PGSIZE + PGSIZE)).run (Mem.exec ram) mem =
          (.ok r, mem') ∧ (r = none ↔ PGSIZE < argSpace argv) := by
  refine ⟨fun argc m' ran => ?_, fun mem t h v owns rep priv acc pos => ?_⟩
  · obtain ⟨rfl, file, t', h', sp, -, done⟩ := executed_of_run lives ready args ran
    refine ⟨rfl, t', h', _, _, _, sp, done.lives, done.sz_eq, fun user => ?_, done.arguments⟩
    have := user.2.2
    rw [done.stacked.guard.2] at this
    exact absurd this (by decide)
  · have push := pushArgs_follows (p := p) priv acc argv (Nat.le_mul_of_pos_left PGSIZE pos) args.few
      args.short rep
    obtain ⟨r, mem', h', run, ⟨t', -, -, post⟩, -, -⟩ := run_owned push owns
    refine ⟨r, mem', run, ?_⟩
    by_cases room : argSpace argv ≤ PGSIZE
    · rw [if_pos room] at post
      rw [post.1]
      exact iff_of_false nofun (not_lt.mpr room)
    · rw [if_neg room] at post
      exact iff_of_true post (not_le.mp room)

/-- The small program finds its argument. -/
theorem exec_arguments_program : ∃ m' t' frame' n ptrs sp, (exec textRam programPath [[97#8]]).run
    (Machine.exec textRam 0) (emptyMachine programState) = (.ok (some 1), m') ∧
      ArgsInMemory m'.mem t' frame' n [[97#8]] ptrs sp := by
  obtain ⟨t, h, frame, lives, -⟩ := emptyMachine_lives programState
  obtain ⟨m', run⟩ := program_exec
  obtain ⟨-, t', h', frame', n, ptrs, sp, -, -, -, arguments⟩ :=
    (exec_arguments lives programState_ready program_args).1 1 m' run
  exact ⟨m', t', frame', n, ptrs, sp, run, arguments⟩

end

end Xv6.Task
