import Xv6.Sys.Path
import Xv6.Task.Alloc

/-!
# Loading a program

What `loadseg` and the loop of `exec` over the program headers build in an address space, for every
contents of the file.
-/

namespace Xv6.Task

open Sys Vm List Proghdr

section

variable {ram : Ram} {p : ℕ} {A : Panic → Prop} {m₀ m : Machine} {h₀ h f : Heap Page}

theorem ends_readi {file : List Byte} {ip : ℕ}
    (file_eq : (m.kernel.disk (m.kernel.itable ip).inum).bytes = file) (off n : ℕ) :
    Ends ram p A (sys (disk (.readi ip off n))) m fun r m' => m' = m ∧ r = readBytes file off n := by
  refine ends_act (r := readBytes file off n) ?_ ⟨rfl, rfl⟩
  rw [← file_eq]
  rfl

/-! ## Segments -/

theorem readBytes_length {file : List Byte} {off n : ℕ} (pos : 0 < n)
    (full : (readBytes file off n).length = n) :
    off + n ≤ file.length ∧ readBytes file off n = (file.drop off).take n := by
  rw [readBytes] at full ⊢
  split_ifs at full ⊢ with short
  · simp only [length_nil] at full
    omega
  · rw [length_take, length_drop] at full
    exact ⟨by omega, rfl⟩

theorem readBytes_le (file : List Byte) (off n : ℕ) : (readBytes file off n).length ≤ n := by
  rw [readBytes]
  split_ifs
  · exact zero_le
  · rw [length_take]
    exact min_le_left ..

variable {t : Table} {n : ℕ} {rest : ℕ → Pte} {file : List Byte} {ip v₀ offset sz : ℕ}

theorem load_round {i : ℕ} (small : file.length + PGSIZE < 2 ^ 32) (off_lt : offset < 2 ^ 32)
    (more : i < sz) (done : ((file.drop offset).take i).length = i)
    (full : (readBytes file ((offset + i) % 2 ^ 32) (min (sz - i) PGSIZE)).length =
      min (sz - i) PGSIZE) :
    i + PGSIZE < 2 ^ 32 ∧
      (file.drop offset).take i ++ readBytes file ((offset + i) % 2 ^ 32) (min (sz - i) PGSIZE) =
        (file.drop offset).take (min (i + PGSIZE) sz) ∧
      ((file.drop offset).take (min (i + PGSIZE) sz)).length = min (i + PGSIZE) sz := by
  have page : 0 < PGSIZE := by decide
  rw [length_take, length_drop] at done
  have no_wrap : (offset + i) % 2 ^ 32 = offset + i := Nat.mod_eq_of_lt (by omega)
  rw [no_wrap] at full ⊢
  obtain ⟨inside, bytes⟩ := readBytes_length (by omega) full
  have amount : min (i + PGSIZE) sz = i + min (sz - i) PGSIZE := by omega
  refine ⟨by omega, ?_, ?_⟩
  · rw [bytes, amount, take_add, drop_drop]
  · rw [amount, length_take, length_drop]
    omega

theorem loadsegFrom_ends (moves : Moves ram f m₀ h₀ m h)
    (file_eq : (m₀.kernel.disk (m₀.kernel.itable ip).inum).bytes = file)
    (small : file.length + PGSIZE < 2 ^ 32) (maps : t.Maps n UserPage rest)
    (fits : v₀ * PGSIZE + sz ≤ n * PGSIZE) (off_lt : offset < 2 ^ 32) (k j : ℕ)
    (fuel : sz / PGSIZE + 2 ≤ k + j) (bound : j * PGSIZE < sz + PGSIZE)
    (done : ((file.drop offset).take (min (j * PGSIZE) sz)).length = min (j * PGSIZE) sz)
    (rep : (t.put (v₀ * PGSIZE) ((file.drop offset).take (min (j * PGSIZE) sz))).Repr ram h) :
    Ends ram p A (loadsegFrom t.root (v₀ * PGSIZE) ip offset sz k (j * PGSIZE)) m fun r m' =>
      ∃ h' bytes, (t.put (v₀ * PGSIZE) bytes).Repr ram h' ∧ Moves ram f m₀ h₀ m' h' ∧
        (r = true → bytes = (file.drop offset).take sz ∧ bytes.length = sz) := by
  induction k generalizing m h j with
  | zero =>
    simp only [PGSIZE] at fuel bound
    omega
  | succ k ih =>
    rw [loadsegFrom]
    by_cases more : j * PGSIZE < sz
    swap
    · rw [if_neg more]
      rw [min_eq_right (not_lt.mp more)] at done rep
      exact ⟨trivial, h, _, rep, moves, fun _ => ⟨rfl, done⟩⟩
    rw [if_pos more]
    rw [min_eq_left more.le] at done rep
    have maps' := maps.put (v₀ * PGSIZE) ((file.drop offset).take (j * PGSIZE))
    have inside : v₀ + j < n := by
      simp only [PGSIZE] at fits more
      omega
    have acc := maps'.accessible rep inside
    have address : (v₀ * PGSIZE + j * PGSIZE) % 2 ^ 64 = (v₀ + j) * PGSIZE := by
      rw [← add_mul]
      exact Nat.mod_eq_of_lt (lt_trans (maps'.address_lt rep inside.le) (by decide))
    rw [address]
    refine ((moves.vm (walkaddr_follows rep _)).mono ?_).bind
    rintro _ m₁ ⟨_, ⟨rfl, rfl⟩, moves₁⟩
    rw [mul_div_page, if_pos acc]
    obtain ⟨x, hx⟩ := Option.ne_none_iff_exists'.mp (maps'.user _ inside)
    have page := rep.user_page hx
    rw [if_neg (page_pos (rep.within _ (Option.ne_none_iff_exists'.mpr ⟨x, page⟩)))]
    have amount : (if sz - j * PGSIZE < PGSIZE then sz - j * PGSIZE else PGSIZE) =
        min (sz - j * PGSIZE) PGSIZE := by
      rw [Nat.min_def]
      split_ifs <;> omega
    rw [amount]
    have file_eq₁ : (m₁.kernel.disk (m₁.kernel.itable ip).inum).bytes = file := by
      rw [moves₁.kernel, file_eq]
    refine ((ends_readi file_eq₁ _ _).mono ?_).bind
    rintro _ _ ⟨rfl, rfl⟩
    -- the bytes go to the page at its beginning
    have short : 0 + (readBytes file ((offset + j * PGSIZE) % 2 ^ 32)
        (min (sz - j * PGSIZE) PGSIZE)).length ≤ PGSIZE := by
      rw [zero_add]
      exact le_trans (readBytes_le ..) (min_le_right ..)
    refine ((moves₁.vm (follows_write page 0 _)).mono ?_).bind
    rintro _ m₂ ⟨_, rfl, moves₂⟩
    have stored := Table.put_page hx short
    have rep₂ := rep.setUser (maps'.user _ inside) (splice x 0 (readBytes file
      ((offset + j * PGSIZE) % 2 ^ 32) (min (sz - j * PGSIZE) PGSIZE)))
    rw [← stored, add_zero, add_mul] at rep₂
    have joined := t.put_append (v₀ * PGSIZE) ((file.drop offset).take (j * PGSIZE)) (readBytes file
      ((offset + j * PGSIZE) % 2 ^ 32) (min (sz - j * PGSIZE) PGSIZE))
    rw [done] at joined
    rw [joined] at rep₂
    by_cases full : (readBytes file ((offset + j * PGSIZE) % 2 ^ 32)
        (min (sz - j * PGSIZE) PGSIZE)).length = min (sz - j * PGSIZE) PGSIZE
    swap
    · rw [if_pos full]
      exact ⟨trivial, _, _, rep₂, moves₂, nofun⟩
    · obtain ⟨next_lt, bytes, length⟩ := load_round small off_lt more done full
      rw [if_neg (not_not.mpr full), Nat.mod_eq_of_lt next_lt, ← Nat.succ_mul]
      rw [bytes, ← Nat.succ_mul] at rep₂
      rw [← Nat.succ_mul] at length
      refine ih moves₂ (j + 1) (by omega) ?_ length rep₂
      rw [Nat.succ_mul]
      exact Nat.add_lt_add_right more PGSIZE

theorem loadseg_ends (moves : Moves ram f m₀ h₀ m h) (rep : t.Repr ram h)
    (file_eq : (m₀.kernel.disk (m₀.kernel.itable ip).inum).bytes = file)
    (small : file.length + PGSIZE < 2 ^ 32) (maps : t.Maps n UserPage rest)
    (fits : v₀ * PGSIZE + sz ≤ n * PGSIZE) (off_lt : offset < 2 ^ 32) :
    Ends ram p A (loadseg t.root (v₀ * PGSIZE) ip offset sz) m fun r m' =>
      ∃ h' bytes, (t.put (v₀ * PGSIZE) bytes).Repr ram h' ∧ Moves ram f m₀ h₀ m' h' ∧
        (r = true → bytes = (file.drop offset).take sz ∧ bytes.length = sz) := by
  have start := loadsegFrom_ends (A := A) (p := p) moves file_eq small maps fits off_lt
    (sz / PGSIZE + 2) 0 (le_refl _)
  rw [zero_mul, Nat.zero_min, take_zero, Table.put_nil] at start
  exact start (by simp only [PGSIZE]; omega) rfl rep

/-! ## The loop over the program headers -/

/-- The program headers in a file: `n` of them from offset `off` on. -/
def headers (file : List Byte) : (n off : ℕ) → List Proghdr
  | 0, _ => []
  | n + 1, off => .ofBytes (readBytes file off PROGHDR) ::
      headers file n ((off + PROGHDR) % 2 ^ 32)

def segments (file : List Byte) (n off : ℕ) : List Proghdr :=
  (headers file n off).filter (·.type = ELF_PROG_LOAD)

/-- What the user program will find in its memory: its size, the bytes and the flags of its pages. -/
structure Core where
  sz : ℕ
  byte : ℕ → Byte
  perm : ℕ → Flags

def Core.empty : Core := ⟨0, fun _ => 0, fun _ => 0⟩

@[simps] def Core.load (file : List Byte) (c : Core) (ph : Proghdr) : Core where
  sz := max c.sz (ph.vaddr + ph.memsz)
  byte a := if ph.vaddr ≤ a ∧ a < ph.vaddr + ph.filesz % 2 ^ 32 then
    file.getD (ph.off % 2 ^ 32 + (a - ph.vaddr)) 0 else c.byte a
  perm v := if pages c.sz ≤ v then PTE_R ||| PTE_U ||| flags2perm ph.flags ||| PTE_V else c.perm v

/-- The table has the bytes and flags that `c` says. -/
structure Core.In (c : Core) (t : Table) : Prop where
  page : ∀ v < pages c.sz, ∃ x, t.user v = some x ∧ (∀ j < PGSIZE, x.byte j = c.byte (v * PGSIZE + j)) ∧
    flags (t.leaf v) = c.perm v
  clear : ∀ a, pages c.sz * PGSIZE ≤ a → c.byte a = 0

theorem number_lt (bytes : List Byte) (off k : ℕ) : number bytes off k < 256 ^ k := by
  induction k generalizing off with
  | zero => exact one_pos
  | succ k ih =>
    have byte := (bytes.getD off 0).isLt
    have rest := ih (off + 1)
    rw [number, Nat.pow_succ]
    omega

theorem number_take {bytes : List Byte} {n off k : ℕ} (fits : off + k ≤ n) :
    number (bytes.take n) off k = number bytes off k := by
  induction k generalizing off with
  | zero => rfl
  | succ k ih =>
    rw [number, number, ih (by omega), getD_eq_getElem?_getD, getD_eq_getElem?_getD,
      getElem?_take_of_lt (by omega)]

theorem le_pages (sz : ℕ) : sz ≤ pages sz * PGSIZE := by
  simp only [pages, PGSIZE]
  omega

theorem Core.In.load {c : Core} {t' : Table} {ph : Proghdr} (inside : c.In t)
    (ext : t.Extends t' (pages c.sz) (pages (c.load file ph).sz - pages c.sz)
      (PTE_R ||| PTE_U ||| flags2perm ph.flags ||| PTE_V))
    (fits : ph.filesz ≤ ph.memsz)
    (read : ((file.drop (ph.off % 2 ^ 32)).take (ph.filesz % 2 ^ 32)).length = ph.filesz % 2 ^ 32) :
    (c.load file ph).In
      (t'.put ph.vaddr ((file.drop (ph.off % 2 ^ 32)).take (ph.filesz % 2 ^ 32))) := by
  have larger : pages c.sz ≤ pages (c.load file ph).sz := pages_mono (le_max_left ..)
  constructor
  · intro v hv
    have before : ∃ y, t'.user v = some y ∧ (∀ j < PGSIZE, y.byte j = c.byte (v * PGSIZE + j)) ∧
        flags (t'.leaf v) = (c.load file ph).perm v := by
      by_cases old : v < pages c.sz
      · obtain ⟨y, user, bytes, perm⟩ := inside.page v old
        rw [(ext.others v (.inl old)).1, (ext.others v (.inl old)).2]
        refine ⟨y, user, bytes, ?_⟩
        rw [perm, Core.load_perm, if_neg (not_le.mpr old)]
      · obtain ⟨user, perm⟩ := ext.fresh v (not_lt.mp old) (by omega)
        refine ⟨fill 0, user, fun j hj => ?_, ?_⟩
        · rw [inside.clear]
          · rw [Bytes.byte, dif_pos hj, fill]
          · exact Nat.le_add_right_of_le (Nat.mul_le_mul_right PGSIZE (not_lt.mp old))
        · rw [perm, Core.load_perm, if_pos (not_lt.mp old)]
    obtain ⟨y, user, bytes, perm⟩ := before
    refine ⟨overlay v ph.vaddr ((file.drop (ph.off % 2 ^ 32)).take (ph.filesz % 2 ^ 32)) y,
      by simp only [Table.put, user, Option.map_some], fun j hj => ?_, perm⟩
    rw [Bytes.byte, dif_pos hj, overlay, read, Core.load_byte]
    dsimp only
    by_cases mine : ph.vaddr ≤ v * PGSIZE + j ∧ v * PGSIZE + j < ph.vaddr + ph.filesz % 2 ^ 32
    · rw [if_pos mine, if_pos mine, getD_eq_getElem?_getD, getD_eq_getElem?_getD,
        getElem?_take_of_lt (by omega), getElem?_drop]
    · rw [if_neg mine, if_neg mine, ← bytes j hj, Bytes.byte, dif_pos hj]
  · intro a above
    have size := le_pages (c.load file ph).sz
    have last : ph.vaddr + ph.memsz ≤ (c.load file ph).sz := le_max_right ..
    have loaded := Nat.mod_le ph.filesz (2 ^ 32)
    have beyond := le_trans size above
    have outside : ¬(ph.vaddr ≤ a ∧ a < ph.vaddr + ph.filesz % 2 ^ 32) := by
      clear above size
      omega
    rw [Core.load_byte, if_neg outside]
    exact inside.clear a (le_trans (Nat.mul_le_mul_right PGSIZE larger) above)

theorem userPage_perm (perm : Flags) : UserPage (PTE_R ||| PTE_U ||| perm ||| PTE_V) := by
  rw [UserPage, has_or, has_or, has_or]
  rfl

/-- The loop of `exec` over the program headers builds the segments of the program, or stops with an
address space of the size that it returns. -/
theorem loadFrom_ends (file_eq : (m₀.kernel.disk (m₀.kernel.itable ip).inum).bytes = file)
    (small : file.length + PGSIZE < 2 ^ 32) (k off sz : ℕ) {t : Table}
    (moves : Moves ram f m₀ h₀ m h) (rep : t.Repr ram h) (maps : t.Maps (pages sz) UserPage rest) :
    Ends ram p A (loadFrom ip t.root k off sz) m fun r m' => ∃ t' h', t'.root = t.root ∧
      t'.Repr ram h' ∧ t'.Maps (pages r.2) UserPage rest ∧ Moves ram f m₀ h₀ m' h' ∧
      (r.1 = true → ∀ c : Core, c.sz = sz → c.In t →
        ((segments file k off).foldl (Core.load file) c).sz = r.2 ∧
        ((segments file k off).foldl (Core.load file) c).In t') := by
  induction k generalizing m h t off sz with
  | zero => exact ⟨trivial, t, h, rfl, rep, maps, moves, fun _ c same inside => ⟨same, inside⟩⟩
  | succ k ih =>
    have stop {t' : Table} {h' : Heap Page} {m' : Machine} {sz' : ℕ} (root : t'.root = t.root)
        (rep' : t'.Repr ram h') (maps' : t'.Maps (pages sz') UserPage rest)
        (moves' : Moves ram f m₀ h₀ m' h') :
        Ends ram p A (pure (false, sz')) m' fun r m' => ∃ t' h', t'.root = t.root ∧
          t'.Repr ram h' ∧ t'.Maps (pages r.2) UserPage rest ∧ Moves ram f m₀ h₀ m' h' ∧
          (r.1 = true → ∀ c : Core, c.sz = sz → c.In t →
            ((segments file (k + 1) off).foldl (Core.load file) c).sz = r.2 ∧
            ((segments file (k + 1) off).foldl (Core.load file) c).In t') :=
      ⟨trivial, t', h', root, rep', maps', moves', nofun⟩
    rw [loadFrom]
    have file_eq₁ : (m.kernel.disk (m.kernel.itable ip).inum).bytes = file := by
      rw [moves.kernel, file_eq]
    refine ((ends_readi file_eq₁ _ _).mono ?_).bind
    rintro _ _ ⟨rfl, rfl⟩
    have list : segments file (k + 1) off = if (ofBytes (readBytes file off PROGHDR)).type =
        ELF_PROG_LOAD then .ofBytes (readBytes file off PROGHDR) ::
          segments file k ((off + PROGHDR) % 2 ^ 32) else segments file k ((off + PROGHDR) % 2 ^ 32) := by
      rw [segments, headers, filter_cons]
      simp only [decide_eq_true_eq]
      rfl
    have bounds : (ofBytes (readBytes file off PROGHDR)).vaddr < 2 ^ 64 ∧
        (ofBytes (readBytes file off PROGHDR)).memsz < 2 ^ 64 :=
      ⟨number_lt _ _ _, number_lt _ _ _⟩
    generalize ofBytes (readBytes file off PROGHDR) = ph at list bounds ⊢
    by_cases short : (readBytes file off PROGHDR).length = PROGHDR
    swap
    · rw [if_pos short]
      exact stop rfl rep maps moves
    rw [if_neg (not_not.mpr short)]
    by_cases load : ph.type = ELF_PROG_LOAD
    swap
    · rw [if_neg load] at list
      rw [if_pos load, list]
      exact ih _ _ moves rep maps
    rw [if_pos load] at list
    rw [if_neg (not_not.mpr load)]
    by_cases long : ph.memsz < ph.filesz
    · rw [if_pos long]
      exact stop rfl rep maps moves
    rw [if_neg long]
    by_cases wrap : (ph.vaddr + ph.memsz) % 2 ^ 64 < ph.vaddr
    · rw [if_pos wrap]
      exact stop rfl rep maps moves
    rw [if_neg wrap]
    by_cases aligned : ph.vaddr % PGSIZE = 0
    swap
    · rw [if_pos aligned]
      exact stop rfl rep maps moves
    have top : (ph.vaddr + ph.memsz) % 2 ^ 64 = ph.vaddr + ph.memsz := by omega
    rw [if_neg (not_not.mpr aligned), top]
    refine ((moves.vm (uvmalloc_follows rep maps rfl (userPage_perm _))).mono ?_).bind
    rintro sz1 m₁ ⟨h₁, ⟨t₁, rep₁, outcome⟩, moves₁⟩
    have readable (perm : Flags) : has (PTE_R ||| PTE_U ||| perm ||| PTE_V) PTE_R := by
      rw [has_or, has_or, has_or]
      rfl
    by_cases zero : sz1 = 0
    · rw [if_pos zero]
      rcases outcome with ⟨-, same⟩ | ⟨value, ext⟩
      · exact stop same.root rep₁ (maps.same same) moves₁
      · have none_new : pages sz1 - pages sz = 0 :=
          Nat.sub_eq_zero_of_le (pages_mono (by omega))
        have maps₁ := maps.extends ext (userPage_perm _) (readable _)
        rw [none_new, add_zero] at maps₁
        exact stop ext.root rep₁ maps₁ moves₁
    rw [if_neg zero]
    obtain ⟨value, ext⟩ := outcome.resolve_left fun fail => zero fail.1
    have maps₁ := maps.extends ext (userPage_perm _) (readable _)
    rw [Nat.add_sub_cancel' (pages_mono (value ▸ le_max_left ..))] at maps₁
    obtain ⟨v₀, page⟩ : ∃ v₀, ph.vaddr = v₀ * PGSIZE :=
      ⟨_, (Nat.div_mul_cancel (Nat.dvd_of_mod_eq_zero aligned)).symm⟩
    have fits : v₀ * PGSIZE + ph.filesz % 2 ^ 32 ≤ pages sz1 * PGSIZE := by
      have size := le_pages sz1
      have loaded := Nat.mod_le ph.filesz (2 ^ 32)
      rw [← page]
      refine le_trans ?_ size
      omega
    have segment := loadseg_ends (A := A) (p := p) moves₁ rep₁ file_eq small maps₁ fits
      (Nat.mod_lt ph.off (show 0 < 2 ^ 32 by decide))
    rw [ext.root, ← page] at segment
    refine (segment.mono ?_).bind
    rintro r m₂ ⟨h₂, bytes, rep₂, moves₂, all⟩
    have root₂ : (t₁.put ph.vaddr bytes).root = t.root := ext.root
    have maps₂ := maps₁.put ph.vaddr bytes
    cases r with
    | false => exact stop root₂ rep₂ maps₂ moves₂
    | true =>
      obtain ⟨rfl, length⟩ := all rfl
      have next := ih ((off + PROGHDR) % 2 ^ 32) sz1 moves₂ rep₂ maps₂
      rw [root₂] at next
      refine next.mono ?_
      rintro r m' ⟨t', h', root, rep', maps', moves', built⟩
      refine ⟨t', h', root, rep', maps', moves', fun ok c same inside => ?_⟩
      subst same
      rw [list, foldl_cons]
      refine built ok (c.load file ph) value.symm (inside.load ?_ (not_lt.mp long) length)
      rwa [value] at ext

end

end Xv6.Task
