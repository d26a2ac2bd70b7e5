import Xv6.Vm.Protect

/-!
# Copying page by page and byte by byte

`copyin`, `copyout` and `copyinstr` work page by page.  They do what a loop over the single bytes
would do, for every page table, address and length.
-/

namespace Xv6.Vm

open Function List Bytes Mem

/-- The page of the user address is mapped for user access, and not to page 0, which `walkaddr` cannot
tell from an error. -/
def Table.Reaches (t : Table) (va : ℕ) : Prop :=
  t.Accessible (va / PGSIZE) ∧ pte2pa (t.leaf (va / PGSIZE)) ≠ 0

instance (t : Table) (va : ℕ) : Decidable (t.Reaches va) := inferInstanceAs (Decidable (_ ∧ _))

namespace Mem

variable (m : Mem) (t : Table)

/-- The byte at a user address. -/
def byteAt (va : ℕ) : Byte := (m.page (pte2pa (t.leaf (va / PGSIZE)))).byte (va % PGSIZE)

/-- The `n` bytes from `va` on. -/
def bytesAt (va n : ℕ) : List Byte := (List.range n).map fun i => m.byteAt t (va + i)

/-- Store a byte at a user address. -/
def poke (va : ℕ) (b : Byte) : Mem :=
  m.set (pte2pa (t.leaf (va / PGSIZE)))
    (splice (m.page (pte2pa (t.leaf (va / PGSIZE)))) (va % PGSIZE) [b])

/-- Store bytes from `va` on. -/
def pokes : Mem → ℕ → List Byte → Mem
  | m, _, [] => m
  | m, va, b :: bytes => pokes (m.poke t va b) (va + 1) bytes

end Mem

/-- The string at a user address ends with its byte `k`. -/
def StringEnds (m : Mem) (t : Table) (va k : ℕ) : Prop :=
  m.byteAt t (va + k) = 0 ∧ (∀ i < k, m.byteAt t (va + i) ≠ 0) ∧ ∀ i ≤ k, t.Reaches (va + i)

section

variable {ram : Ram} {p : ℕ} {m : Mem} {t : Table}

/-! ## Reading -/

theorem byteAt_eq {h : Heap Page} {x : Page} (rep : t.Repr ram h)
    (agree : ∀ a x, h a = some x → m.page a = x) {va : ℕ} (there : t.user (va / PGSIZE) = some x) :
    m.byteAt t va = x.byte (va % PGSIZE) := by
  rw [byteAt, agree _ x (rep.user_page there)]

theorem Mem.bytesAt_add (va a b : ℕ) :
    m.bytesAt t va (a + b) = m.bytesAt t va a ++ m.bytesAt t (va + a) b := by
  simp only [bytesAt, range_add, map_append, map_map, Function.comp_def, add_assoc]

theorem Mem.length_bytesAt (va n : ℕ) : (m.bytesAt t va n).length = n := by
  rw [bytesAt, length_map, length_range]

theorem slice_page {v off n : ℕ} (fits : off + n ≤ PGSIZE) :
    slice (m.page (pte2pa (t.leaf v))) off n = m.bytesAt t (v * PGSIZE + off) n := by
  refine map_congr_left fun i hi => ?_
  rw [mem_range] at hi
  have page : (v * PGSIZE + off + i) / PGSIZE = v := by
    rw [add_assoc]
    exact div_page (by omega)
  have place : (v * PGSIZE + off + i) % PGSIZE = off + i := by
    rw [add_assoc, Nat.mul_add_mod_of_lt (by omega)]
  rw [byteAt, page, place]

theorem follows_whole {α : Type} {x : MProg α} {R : α → Prop} (shown : m.Shows ram t)
    (follows : ∀ h, t.Repr ram h → x.Follows (owned ram) p h fun r h' => h' = h ∧ R r) :
    x.Follows (owned ram) p m.whole fun r h' => h' = m.whole ∧ R r := by
  obtain ⟨h, rep, agree⟩ := shown
  let f : Heap Page := fun a => if h a = none then some (m.page a) else none
  have apart : h.Apart f := by
    intro a
    by_cases own : h a = none
    · exact .inl own
    · exact .inr (if_neg own)
  have whole : m.whole = h.join f := by
    funext a
    cases own : h a with
    | none => rw [Heap.join_of_none own, whole, show f a = _ from if_pos own]
    | some x => rw [Heap.join_of_left own, whole, agree a x own]
  have framed := (follows h rep).frame (owned_local ram) apart
  rw [← whole] at framed
  refine framed.mono ?_
  rintro r _ ⟨_, _, -, rfl, ⟨rfl, hr⟩, rfl⟩
  exact ⟨whole.symm, hr⟩

theorem walkaddr_whole (shown : m.Shows ram t) (va : ℕ) :
    (walkaddr t.root (pgrounddown va)).Follows (owned ram) p m.whole fun r h' => h' = m.whole ∧
      r = if t.Reaches va then pte2pa (t.leaf (va / PGSIZE)) else 0 := by
  refine (follows_whole shown fun _ rep => walkaddr_follows rep (pgrounddown va)).mono ?_
  rintro r h' ⟨rfl, rfl⟩
  refine ⟨rfl, ?_⟩
  rw [pgrounddown, mul_div_page]
  by_cases acc : t.Accessible (va / PGSIZE)
  · by_cases zero : pte2pa (t.leaf (va / PGSIZE)) = 0
    · rw [if_pos acc, if_neg fun reach => reach.2 zero, zero]
    · rw [if_pos acc, if_pos ⟨acc, zero⟩]
  · rw [if_neg acc, if_neg fun reach => acc reach.1]

/-! ## One round -/

/-- The part of a range of `len` bytes from `va` that lies in the first page. -/
def chunk (va len : ℕ) : ℕ := min (PGSIZE - (va - pgrounddown va)) len

theorem sub_pgrounddown (va : ℕ) : va - pgrounddown va = va % PGSIZE := by
  simp only [pgrounddown, PGSIZE]
  omega

theorem chunk_fits (va len : ℕ) : va % PGSIZE + chunk va len ≤ PGSIZE := by
  have := Nat.mod_lt va (show 0 < PGSIZE by decide)
  rw [chunk, sub_pgrounddown]
  omega

theorem chunk_le (va len : ℕ) : chunk va len ≤ len := min_le_right ..

theorem chunk_pos (va : ℕ) {len : ℕ} (pos : 0 < len) : 0 < chunk va len := by
  have := Nat.mod_lt va (show 0 < PGSIZE by decide)
  rw [chunk, sub_pgrounddown]
  omega

theorem Table.Reaches.chunk {va n i : ℕ} (reach : t.Reaches va) (hi : i < chunk va n) :
    t.Reaches (va + i) := by
  have same : (va + i) / PGSIZE = va / PGSIZE := by
    have := chunk_fits va n
    simp only [PGSIZE] at this ⊢
    omega
  rwa [Table.Reaches, same]

theorem Table.Reaches.next {va : ℕ} (reach : t.Reaches va) (len : ℕ) :
    len - Vm.chunk va len = 0 ∨ (pgrounddown va + PGSIZE) % 2 ^ 64 = va + Vm.chunk va len := by
  have low := reach.1.1
  simp only [Vm.chunk, pgrounddown, MAXVA, PGSIZE] at low ⊢
  omega

theorem Table.Reaches.all_iff {va len va' : ℕ} (reach : t.Reaches va)
    (next : len - Vm.chunk va len = 0 ∨ va' = va + Vm.chunk va len) :
    (∀ i < len, t.Reaches (va + i)) ↔ ∀ i < len - Vm.chunk va len, t.Reaches (va' + i) := by
  constructor
  · intro all i hi
    obtain none | rfl := next
    · omega
    · rw [add_assoc]
      exact all _ (by omega)
  · intro rest i hi
    by_cases first : i < Vm.chunk va len
    · exact reach.chunk first
    · obtain none | rfl := next
      · omega
      · have := rest (i - Vm.chunk va len) (by omega)
        rwa [add_assoc, Nat.add_sub_cancel' (by omega)] at this

theorem Mem.bytesAt_chunk {va len va' : ℕ} (next : len - chunk va len = 0 ∨ va' = va + chunk va len) :
    m.bytesAt t va (chunk va len) ++ m.bytesAt t va' (len - chunk va len) = m.bytesAt t va len := by
  have le := chunk_le va len
  obtain none | rfl := next
  · rw [none, le_antisymm le (by omega)]
    exact append_nil _
  · rw [← bytesAt_add, Nat.add_sub_cancel' le]

theorem slice_chunk (va len : ℕ) :
    slice (m.page (pte2pa (t.leaf (va / PGSIZE)))) (va - pgrounddown va) (chunk va len) =
      m.bytesAt t va (chunk va len) := by
  rw [sub_pgrounddown, slice_page (chunk_fits va len), Nat.div_add_mod']

theorem copyinFrom_whole (shown : m.Shows ram t) (k va : ℕ) {len : ℕ} (enough : len ≤ k) :
    (copyinFrom t.root k va len).Follows (owned ram) p m.whole fun r h' => h' = m.whole ∧
      r = if ∀ i < len, t.Reaches (va + i) then some (m.bytesAt t va len) else none := by
  induction k generalizing va len with
  | zero =>
    obtain rfl := Nat.le_zero.mp enough
    exact ⟨rfl, (if_pos fun i hi => absurd hi (Nat.not_lt_zero i)).symm⟩
  | succ k ih =>
    rw [copyinFrom]
    by_cases empty : len = 0
    · subst empty
      exact ⟨rfl, (if_pos fun i hi => absurd hi (Nat.not_lt_zero i)).symm⟩
    have pos := chunk_pos va (Nat.pos_of_ne_zero empty)
    rw [if_neg empty]
    refine (walkaddr_whole shown va).bind ?_
    rintro _ _ ⟨rfl, rfl⟩
    by_cases reach : t.Reaches va
    · have next := reach.next len
      rw [if_pos reach, if_neg reach.2]
      refine (follows_read rfl _ _).bind ?_
      rintro _ _ ⟨rfl, rfl⟩
      change ((copyinFrom t.root k _ (len - chunk va len)) >>= _).Follows _ _ _ _
      refine (ih ((pgrounddown va + PGSIZE) % 2 ^ 64) (by omega)).bind ?_
      rintro _ _ ⟨rfl, rfl⟩
      refine ⟨rfl, ?_⟩
      show Option.map (slice _ _ (chunk va len) ++ ·) _ = _
      rw [slice_chunk]
      by_cases all : ∀ i < len, t.Reaches (va + i)
      · rw [if_pos all, if_pos ((reach.all_iff next).mp all), Option.map_some, bytesAt_chunk next]
      · rw [if_neg all, if_neg fun rest => all ((reach.all_iff next).mpr rest), Option.map_none]
    · rw [if_neg reach, if_pos rfl]
      refine ⟨rfl, (if_neg fun all => reach ?_).symm⟩
      exact all 0 (by omega)

/-! ## Strings -/

theorem Mem.bytesAt_succ (va n : ℕ) :
    m.bytesAt t va (n + 1) = m.byteAt t va :: m.bytesAt t (va + 1) n := by
  rw [add_comm n 1, bytesAt_add]
  rfl

theorem copyChars_bytesAt (va n : ℕ) :
    ((copyChars (m.bytesAt t va n)).2 = true ∧ ∃ k < n, m.byteAt t (va + k) = 0 ∧
      (∀ i < k, m.byteAt t (va + i) ≠ 0) ∧
      (copyChars (m.bytesAt t va n)).1 = m.bytesAt t va (k + 1)) ∨
    ((copyChars (m.bytesAt t va n)).2 = false ∧ (∀ i < n, m.byteAt t (va + i) ≠ 0) ∧
      (copyChars (m.bytesAt t va n)).1 = m.bytesAt t va n) := by
  induction n generalizing va with
  | zero => exact .inr ⟨rfl, fun i hi => absurd hi (Nat.not_lt_zero i), rfl⟩
  | succ n ih =>
    rw [bytesAt_succ, copyChars]
    by_cases zero : m.byteAt t va = 0
    · rw [if_pos zero]
      refine .inl ⟨rfl, 0, Nat.succ_pos n, zero, fun i hi => absurd hi (Nat.not_lt_zero i), ?_⟩
      rw [bytesAt_succ, zero]
      rfl
    · rw [if_neg zero]
      have shift {k : ℕ} (rest : ∀ i < k, m.byteAt t (va + 1 + i) ≠ 0) (i : ℕ) (hi : i < k + 1) :
          m.byteAt t (va + i) ≠ 0 := by
        cases i with
        | zero => exact zero
        | succ i =>
          have := rest i (by omega)
          rwa [add_right_comm, add_assoc] at this
      rcases ih (va + 1) with ⟨found, k, hk, last, before, chars⟩ | ⟨found, all, chars⟩
      · refine .inl ⟨found, k + 1, by omega, ?_, shift before, ?_⟩
        · rwa [add_right_comm, add_assoc] at last
        · rw [chars, ← bytesAt_succ]
      · exact .inr ⟨found, shift all, by rw [chars]⟩

theorem stringEnds_add {va n j : ℕ} (nonzero : ∀ i < n, m.byteAt t (va + i) ≠ 0)
    (reach : ∀ i < n, t.Reaches (va + i)) : StringEnds m t va (n + j) ↔ StringEnds m t (va + n) j := by
  have split {P : ℕ → Prop} (first : ∀ i < n, P i) {k : ℕ} (rest : ∀ i < k, P (n + i)) (i : ℕ)
      (hi : i < n + k) : P i := by
    by_cases lt : i < n
    · exact first i lt
    · have := rest (i - n) (by omega)
      rwa [Nat.add_sub_cancel' (by omega)] at this
  simp only [StringEnds, add_assoc]
  refine and_congr_right fun _ => ⟨?_, ?_⟩
  · rintro ⟨before, all⟩
    exact ⟨fun i hi => before (n + i) (by omega), fun i hi => all (n + i) (by omega)⟩
  · rintro ⟨before, all⟩
    refine ⟨split nonzero before, fun i hi => ?_⟩
    exact split reach (k := j + 1) (fun i hi => all i (by omega)) i (by omega)

theorem StringEnds.unique {va k j : ℕ} (ends : StringEnds m t va k) (ends' : StringEnds m t va j) :
    k = j := by
  rcases lt_trichotomy k j with lt | same | gt
  · exact absurd ends.1 (ends'.2.1 k lt)
  · exact same
  · exact absurd ends'.1 (ends.2.1 j gt)

def CopiesString (m : Mem) (t : Table) (va max : ℕ) : Bool × List Byte → Prop
  | (true, dst) => dst.length ≤ max ∧ ∃ k < max, StringEnds m t va k ∧ dst = m.bytesAt t va (k + 1)
  | (false, dst) => dst.length ≤ max ∧ ∀ k < max, ¬StringEnds m t va k

theorem copyinstrFrom_whole (shown : m.Shows ram t) (k va : ℕ) {max : ℕ} (enough : max ≤ k) :
    (copyinstrFrom t.root k va max).Follows (owned ram) p m.whole fun r h' => h' = m.whole ∧
      CopiesString m t va max r := by
  induction k generalizing va max with
  | zero =>
    obtain rfl := Nat.le_zero.mp enough
    exact ⟨rfl, Nat.le_refl 0, fun k hk => absurd hk (Nat.not_lt_zero k)⟩
  | succ k ih =>
    rw [copyinstrFrom]
    by_cases empty : max = 0
    · subst empty
      exact ⟨rfl, Nat.le_refl 0, fun k hk => absurd hk (Nat.not_lt_zero k)⟩
    have pos := chunk_pos va (Nat.pos_of_ne_zero empty)
    have le := chunk_le va max
    rw [if_neg empty]
    refine (walkaddr_whole shown va).bind ?_
    rintro _ _ ⟨rfl, rfl⟩
    by_cases reach : t.Reaches va
    swap
    · rw [if_neg reach, if_pos rfl]
      exact ⟨rfl, zero_le, fun k _ ends => reach (ends.2.2 0 zero_le)⟩
    rw [if_pos reach, if_neg reach.2]
    refine (follows_read rfl _ _).bind ?_
    rintro _ _ ⟨rfl, rfl⟩
    rw [← chunk, slice_chunk]
    rcases copyChars_bytesAt (m := m) (t := t) va (chunk va max) with
      ⟨found, j, hj, last, before, chars⟩ | ⟨found, nonzero, chars⟩
    · rw [if_pos found, chars]
      refine ⟨rfl, ?_, j, by omega, ⟨last, before, fun i hi => ?_⟩, rfl⟩
      · rw [length_bytesAt]
        omega
      · exact reach.chunk (n := max) (by omega)
    rw [if_neg (by rw [found]; exact Bool.false_ne_true), chars]
    refine (ih ((pgrounddown va + PGSIZE) % 2 ^ 64) (by omega)).bind ?_
    rintro ⟨ok, dst⟩ _ ⟨rfl, copies⟩
    -- the string ends in this page or in the rest
    have reachable (i : ℕ) (hi : i < chunk va max) : t.Reaches (va + i) := reach.chunk hi
    have short (length : dst.length ≤ max - chunk va max) :
        (m.bytesAt t va (chunk va max) ++ dst).length ≤ max := by
      rw [length_append, length_bytesAt]
      omega
    have next := reach.next max
    refine ⟨rfl, ?_⟩
    cases ok with
    | true =>
      obtain ⟨length, j, hj, ends, rfl⟩ := copies
      obtain none | start := next
      · omega
      rw [start] at ends short length ⊢
      refine ⟨short length, chunk va max + j, by omega, (stringEnds_add nonzero reachable).mpr ends, ?_⟩
      rw [add_assoc, bytesAt_add _ (chunk va max)]
    | false =>
      obtain ⟨length, no_end⟩ := copies
      refine ⟨short length, fun j hj ends => ?_⟩
      by_cases first : j < chunk va max
      · exact nonzero j first ends.1
      · obtain none | start := next
        · omega
        rw [start] at no_end
        refine no_end (j - chunk va max) (by omega) ((stringEnds_add nonzero reachable).mp ?_)
        rwa [Nat.add_sub_cancel' (by omega)]

/-! ## Writing -/

theorem Mem.pokes_append (va : ℕ) (a b : List Byte) :
    pokes t m va (a ++ b) = pokes t (pokes t m va a) (va + a.length) b := by
  induction a generalizing m va with
  | nil => rfl
  | cons c a ih =>
    rw [cons_append, pokes, ih, pokes, length_cons]
    congr 1
    omega

theorem splice_cons {x : Page} {off : ℕ} {b : Byte} {bytes : List Byte} :
    splice (splice x off [b]) (off + 1) bytes = splice x off (b :: bytes) := by
  refine ext_byte fun i hi => ?_
  simp only [splice, length_cons, length_nil]
  by_cases later : off + 1 ≤ i ∧ i < off + 1 + bytes.length
  · rw [byte_blit_in _ _ hi later.1 later.2, byte_blit_in _ _ hi (by omega) (by omega),
      show i - off = i - (off + 1) + 1 by omega, getD_cons_succ]
  · rw [byte_blit_out _ _ (by omega)]
    by_cases first : i = off
    · subst first
      rw [byte_blit_in _ _ hi (by omega) (by omega),
        byte_blit_in _ _ hi (by omega) (by omega), Nat.sub_self]
      rfl
    · rw [byte_blit_out _ _ (by omega), byte_blit_out _ _ (by omega)]

theorem Mem.set_set (pg : ℕ) (x y : Page) : (m.set pg x).set pg y = m.set pg y := by
  simp only [set, update_idem]

theorem Mem.pokes_page {va : ℕ} {bytes : List Byte} (fits : va % PGSIZE + bytes.length ≤ PGSIZE) :
    pokes t m va bytes = m.set (pte2pa (t.leaf (va / PGSIZE)))
      (splice (m.page (pte2pa (t.leaf (va / PGSIZE)))) (va % PGSIZE) bytes) := by
  induction bytes generalizing m va with
  | nil => rw [pokes, splice, length_nil, blit_zero, set, update_eq_self]
  | cons b bytes ih =>
    rw [pokes]
    rw [length_cons] at fits
    by_cases last : bytes = []
    · subst last
      rfl
    have more : 0 < bytes.length := length_pos_iff.mpr last
    have page : (va + 1) / PGSIZE = va / PGSIZE := by
      simp only [PGSIZE] at fits ⊢
      omega
    have place : (va + 1) % PGSIZE = va % PGSIZE + 1 := by
      simp only [PGSIZE] at fits ⊢
      omega
    rw [ih (by omega), page, place, poke, set_set]
    congr 1
    simp only [set, update_self, splice_cons]

/-- The pages of the range are not pages of the table. -/
def Table.Clear (t : Table) (va len : ℕ) : Prop :=
  ∀ i < len, ∀ n, t.place n ≠ some (pte2pa (t.leaf ((va + i) / PGSIZE)))

theorem Mem.Shows.set (shown : m.Shows ram t) {pg : ℕ} (clear : ∀ n, t.place n ≠ some pg) (x : Page) :
    (m.set pg x).Shows ram t := by
  obtain ⟨h, rep, agree⟩ := shown
  refine ⟨h, rep, fun a y hy => ?_⟩
  have ne : a ≠ pg := by
    rintro rfl
    obtain ⟨n, at'⟩ := rep.placed.own_iff.mp (by rw [hy]; nofun)
    exact clear n at'
  simp only [Mem.set, update_of_ne ne]
  exact agree a y hy

theorem copyoutFrom_whole (shown : m.Shows ram t) (k va : ℕ) (src : List Byte)
    (enough : src.length ≤ k) (clear : t.Clear va src.length) :
    (copyoutFrom t.root k va src).Follows (owned ram) p m.whole fun r h' =>
      (r = true ∧ (∀ i < src.length, t.Reaches (va + i)) ∧ h' = (pokes t m va src).whole) ∨
      (r = false ∧ ¬∀ i < src.length, t.Reaches (va + i)) := by
  induction k generalizing m va src with
  | zero =>
    obtain rfl := length_eq_zero_iff.mp (Nat.le_zero.mp enough)
    exact .inl ⟨rfl, fun i hi => absurd hi (Nat.not_lt_zero i), rfl⟩
  | succ k ih =>
    rw [copyoutFrom]
    by_cases empty : src = []
    · subst empty
      exact .inl ⟨rfl, fun i hi => absurd hi (Nat.not_lt_zero i), rfl⟩
    have pos : 0 < src.length := length_pos_iff.mpr empty
    have pos' := chunk_pos va pos
    have le := chunk_le va src.length
    rw [if_neg empty]
    refine (walkaddr_whole shown va).bind ?_
    rintro _ _ ⟨rfl, rfl⟩
    by_cases reach : t.Reaches va
    swap
    · rw [if_neg reach, if_pos rfl]
      exact .inr ⟨rfl, fun all => reach (all 0 pos)⟩
    rw [if_pos reach, if_neg reach.2, ← chunk, sub_pgrounddown]
    refine (follows_write rfl _ _).bind ?_
    rintro _ _ rfl
    have fits : va % PGSIZE + (src.take (chunk va src.length)).length ≤ PGSIZE := by
      have := chunk_fits va src.length
      rw [length_take]
      omega
    have stored := pokes_page (m := m) (t := t) fits
    have shown' := shown.set (clear 0 pos) (splice (m.page (pte2pa (t.leaf (va / PGSIZE))))
      (va % PGSIZE) (src.take (chunk va src.length)))
    rw [add_zero, ← stored] at shown'
    rw [← whole_set, ← stored]
    -- the rest of the bytes, in the memory with the first ones stored
    have next := reach.next src.length
    have length : (src.drop (chunk va src.length)).length = src.length - chunk va src.length :=
      length_drop
    have rest := ih shown' ((pgrounddown va + PGSIZE) % 2 ^ 64) (src.drop (chunk va src.length))
      (by omega) ?_
    · refine rest.mono ?_
      rw [length, ← reach.all_iff next]
      rintro r h' (⟨rfl, all, rfl⟩ | ⟨rfl, fault⟩)
      · refine .inl ⟨rfl, all, ?_⟩
        congr 1
        obtain none | start := next
        · rw [drop_of_length_le (by omega), take_of_length_le (by omega)]
          rfl
        · have taken : (src.take (chunk va src.length)).length = chunk va src.length := by
            rw [length_take]
            omega
          have joined := pokes_append (m := m) (t := t) va (src.take (chunk va src.length))
            (src.drop (chunk va src.length))
          rw [take_append_drop, taken] at joined
          rw [start, joined]
      · exact .inr ⟨rfl, fault⟩
    · intro i hi
      rw [length] at hi
      obtain none | start := next
      · omega
      rw [start, add_assoc]
      exact clear _ (by omega)

/-! ## Runs -/

theorem copyinFrom_reads (pagetable k va len : ℕ) :
    (copyinFrom pagetable k va len).Only MemOp.Reads := by
  induction k generalizing va len with
  | zero => trivial
  | succ k ih =>
    rw [copyinFrom]
    split_ifs
    · trivial
    · refine (walkaddr_reads _ _).bind fun pa0 => ?_
      split_ifs
      · trivial
      · refine (mem_reads (o := .read _ _ _) trivial).bind fun bytes => ?_
        exact (ih _ _).bind fun _ => trivial

theorem copyinstrFrom_reads (pagetable k va max : ℕ) :
    (copyinstrFrom pagetable k va max).Only MemOp.Reads := by
  induction k generalizing va max with
  | zero => trivial
  | succ k ih =>
    rw [copyinstrFrom]
    split_ifs
    · trivial
    · refine (walkaddr_reads _ _).bind fun pa0 => ?_
      split_ifs
      · trivial
      · refine (mem_reads (o := .read _ _ _) trivial).bind fun chars => ?_
        split_ifs
        · trivial
        · exact (ih _ _).bind fun _ => trivial

theorem run_read {α : Type} {x : MProg α} {R : α → Prop} (reads : x.Only MemOp.Reads)
    (follows : x.Follows (owned ram) p m.whole fun r h' => h' = m.whole ∧ R r) :
    ∃ r, x.run (exec ram) m = (.ok r, m) ∧ R r := by
  obtain ⟨r, m', run, -, hr⟩ := run_whole (reads.mono reads_calm) follows
  have same := run_reads ram reads m
  rw [run] at same
  exact ⟨r, by rw [run, ← same], hr⟩

/-- `copyin` and `copyout` succeed if and only if every byte of the range can be used, and then copy
what a loop over the bytes would copy; `copyinstr` succeeds if and only if the string ends before `max`,
and then stores exactly the string.  `copyout` must not write on the page table that it uses. -/
theorem copies_bytewise (shown : m.Shows ram t) (va : BitVec 64) :
    (∀ len : BitVec 64, (copyin t.root va.toNat len.toNat).run (exec ram) m =
      (.ok (if ∀ i < len.toNat, t.Reaches (va.toNat + i) then
        some (m.bytesAt t va.toNat len.toNat) else none), m)) ∧
    (∀ src : List Byte, t.Clear va.toNat src.length → ∃ m',
      (copyout t.root va.toNat src).run (exec ram) m =
        (.ok (decide (∀ i < src.length, t.Reaches (va.toNat + i))), m') ∧
      ((∀ i < src.length, t.Reaches (va.toNat + i)) →
        m'.page = (pokes t m va.toNat src).page)) ∧
    ∀ max : BitVec 64, ∃ ok dst,
      (copyinstr t.root va.toNat max.toNat).run (exec ram) m = (.ok (ok, dst), m) ∧
      (ok = true ↔ ∃ k < max.toNat, StringEnds m t va.toNat k) ∧
      (∀ k < max.toNat, StringEnds m t va.toNat k → dst = m.bytesAt t va.toNat (k + 1)) ∧
      dst.length ≤ max.toNat := by
  refine ⟨fun len => ?_, fun src clear => ?_, fun max => ?_⟩
  · obtain ⟨r, run, rfl⟩ := run_read (p := 0) (copyinFrom_reads _ _ _ _)
      (copyinFrom_whole shown len.toNat va.toNat (le_refl _))
    exact run
  · obtain ⟨r, m', run, post⟩ := run_whole (p := 0) (copyoutFrom_calm _ _ _ _)
      (copyoutFrom_whole shown src.length va.toNat src (le_refl _) clear)
    refine ⟨m', ?_, fun all => ?_⟩
    · rw [copyout, run]
      rcases post with ⟨rfl, all, -⟩ | ⟨rfl, fault⟩
      · rw [decide_eq_true all]
      · rw [decide_eq_false fault]
    · rcases post with ⟨rfl, -, whole⟩ | ⟨-, fault⟩
      · funext a
        exact Option.some.inj (congrFun whole a)
      · exact absurd all fault
  · obtain ⟨⟨ok, dst⟩, run, copies⟩ := run_read (p := 0) (copyinstrFrom_reads _ _ _ _)
      (copyinstrFrom_whole shown max.toNat va.toNat (le_refl _))
    refine ⟨ok, dst, run, ?_⟩
    cases ok with
    | true =>
      obtain ⟨length, k, hk, ends, rfl⟩ := copies
      refine ⟨⟨fun _ => ⟨k, hk, ends⟩, fun _ => rfl⟩, fun j _ ends' => ?_, length⟩
      rw [ends.unique ends']
    | false =>
      obtain ⟨length, no_end⟩ := copies
      refine ⟨⟨nofun, fun ⟨k, hk, ends⟩ => absurd ends (no_end k hk)⟩, fun j hj ends => ?_, length⟩
      exact absurd ends (no_end j hj)

end

/-! ## Tables that map one page -/

abbrev userPte (pg : ℕ) : Pte := mkPte pg (PTE_R ||| PTE_W ||| PTE_U ||| PTE_V)

/-- A page table that maps its first virtual page to `pg`. -/
def leafTable (pg : ℕ) : Table := dirsTable.setLeaf 0 (userPte pg)

theorem leafTable_leaf (pg : ℕ) : (leafTable pg).leaf 0 = userPte pg := by
  rw [leafTable, Table.setLeaf_leaf, update_self]

theorem dirsTable_low (v : ℕ) (hv : v < 512) : dirsTable.low (v / 512) = some 12 := by
  rw [Nat.div_eq_of_lt hv]
  rfl

theorem leafTable_shown (pg : ℕ) : ∃ m : Mem, m.Shows textRam (leafTable pg) ∧
    ∀ n, (leafTable pg).place n ≠ some 13 := by
  obtain ⟨h, rep, free⟩ := dirsTable_repr
  have mapped := rep.setLeaf (v := 0) (dirsTable_low 0 (by decide)) (x := userPte pg)
    fun user => absurd rfl user
  refine ⟨_, mapped.shown, fun n at' => ?_⟩
  have own := mapped.own at'
  rw [update_of_ne (by decide), free] at own
  exact own rfl

theorem accessible_of_leaf {t : Table} {v : ℕ} (pg : ℕ) (hv : v < MAXVA / PGSIZE) (fits : pg < 2 ^ 52)
    (entry : t.leaf v = userPte pg) : t.Accessible v := by
  rw [Table.Accessible, entry, flags_mkPte fits]
  exact ⟨hv, by decide, by decide⟩

/-- Copying two bytes from and to a mapped page. -/
theorem copies_bytewise_leafTable : ∃ m m' : Mem, m.Shows textRam (leafTable 13) ∧
    (copyin (leafTable 13).root 0 2).run (exec textRam) m =
      (.ok (some (m.bytesAt (leafTable 13) 0 2)), m) ∧
    (copyout (leafTable 13).root 0 [7, 8]).run (exec textRam) m = (.ok true, m') ∧
    m'.page = (pokes (leafTable 13) m 0 [7, 8]).page := by
  obtain ⟨m, shown, clear⟩ := leafTable_shown 13
  have page (i : ℕ) (hi : i < 2) : (0 + i) / PGSIZE = 0 := by
    rw [zero_add, Nat.div_eq_of_lt (hi.trans (by decide))]
  have all : ∀ i < 2, (leafTable 13).Reaches (0 + i) := by
    intro i hi
    rw [Table.Reaches, page i hi, leafTable_leaf, pte2pa_mkPte (by decide)]
    exact ⟨accessible_of_leaf 13 (by decide) (by decide) (leafTable_leaf 13), by decide⟩
  obtain ⟨copied, stored, -⟩ := copies_bytewise shown 0
  have read := copied 2
  rw [show (2 : BitVec 64).toNat = 2 from rfl, show (0 : BitVec 64).toNat = 0 from rfl,
    if_pos all] at read
  obtain ⟨m', write, same⟩ := stored [7, 8] fun i hi n => by
    rw [show (0 : BitVec 64).toNat = 0 from rfl, page i hi, leafTable_leaf,
      pte2pa_mkPte (by decide)]
    exact clear n
  refine ⟨m, m', shown, read, ?_, same all⟩
  rw [← decide_eq_true all]
  exact write

/-! ## Page 0 and the pages of the table -/

theorem copyin_page_zero : ∃ (m : Mem) (t : Table), m.Shows textRam t ∧ t.Accessible 0 ∧
    (copyin t.root 0 1).run (exec textRam) m = (.ok none, m) := by
  obtain ⟨m, shown, -⟩ := leafTable_shown 0
  have fault : ¬∀ i < 1, (leafTable 0).Reaches (0 + i) := by
    intro all
    refine (all 0 (by decide)).2 ?_
    rw [zero_add, Nat.zero_div, leafTable_leaf, pte2pa_mkPte (by decide)]
  obtain ⟨r, run, rfl⟩ := run_read (p := 0) (copyinFrom_reads _ _ _ _)
    (copyinFrom_whole shown 1 0 (le_refl _))
  rw [if_neg fault] at run
  exact ⟨_, _, shown, accessible_of_leaf 0 (by decide) (by decide) (leafTable_leaf 0), run⟩

/-- The first virtual page is the page-table page that maps the first two virtual pages. -/
def selfTable : Table := (leafTable 12).setLeaf 1 (userPte 13)

theorem selfTable_leaf_zero : selfTable.leaf 0 = userPte 12 := by
  rw [selfTable, Table.setLeaf_leaf, update_of_ne (by decide), leafTable_leaf]

theorem selfTable_leaf_one : selfTable.leaf 1 = userPte 13 := by
  rw [selfTable, Table.setLeaf_leaf, update_self]

theorem selfTable_shown : ∃ m : Mem, m.Shows textRam selfTable ∧
    (m.set 12 (fill 0)).Shows textRam dirsTable := by
  obtain ⟨h, rep, -⟩ := dirsTable_repr
  have first := rep.setLeaf (v := 0) (dirsTable_low 0 (by decide)) (x := userPte 12)
    fun user => absurd rfl user
  have both := first.setLeaf (v := 1) (dirsTable_low 1 (by decide)) (x := userPte 13)
    fun user => absurd rfl user
  rw [update_idem] at both
  refine ⟨_, both.shown, h, rep, fun a x own => ?_⟩
  by_cases e : a = 12
  · subst e
    have cell : h 12 = _ := rep.get (n := .low 0) rfl
    rw [own, Option.some.injEq] at cell
    simp only [Mem.set, update_self, cell, fill_zero]
    rfl
  · simp only [Mem.set, Mem.ofHeap, update_of_ne e, own, Option.getD_some]

theorem splice_fill (x : Page) (c : Byte) : splice x 0 (List.replicate PGSIZE c) = fill c := by
  refine ext_byte fun i hi => ?_
  rw [splice, byte_blit_in _ _ hi zero_le (by rw [length_replicate]; omega),
    getD_replicate _ (by omega), byte, dif_pos hi, fill]

theorem dirsTable_unreachable (va : ℕ) : ¬dirsTable.Reaches va := by
  rintro ⟨⟨-, valid, -⟩, -⟩
  exact absurd valid (by
    rw [show dirsTable.leaf (va / PGSIZE) = 0 from rfl, flags_zero, has_zero]
    decide)

theorem copyout_own_table : ∃ (m : Mem) (t : Table) (src : List Byte), m.Shows textRam t ∧
    (∀ i < src.length, t.Accessible (i / PGSIZE) ∧ pte2pa (t.leaf (i / PGSIZE)) ≠ 0) ∧
    ((copyout t.root 0 src).run (exec textRam) m).1 = .ok false := by
  obtain ⟨m, shown, cleared⟩ := selfTable_shown
  have length : (List.replicate PGSIZE (0 : Byte) ++ [0]).length = PGSIZE + 1 := by
    rw [length_append, length_replicate, length_singleton]
  have reach : selfTable.Reaches 0 := by
    refine ⟨accessible_of_leaf 12 (by decide) (by decide) selfTable_leaf_zero, ?_⟩
    rw [Nat.zero_div, selfTable_leaf_zero, pte2pa_mkPte (by decide)]
    decide
  have follows : (copyoutFrom selfTable.root (PGSIZE + 1) 0
      (List.replicate PGSIZE 0 ++ [0])).Follows (owned textRam) 0 m.whole fun r _ => r = false := by
    rw [copyoutFrom, if_neg (by simp)]
    refine (walkaddr_whole shown 0).bind ?_
    rintro _ _ ⟨rfl, rfl⟩
    rw [if_pos reach, if_neg reach.2, ← chunk, length]
    refine (follows_write rfl _ _).bind ?_
    rintro _ _ rfl
    have fault : ¬∀ i < 1, dirsTable.Reaches ((pgrounddown 0 + PGSIZE) % 2 ^ 64 + i) :=
      fun all => dirsTable_unreachable _ (all 0 (by decide))
    rw [show chunk 0 (PGSIZE + 1) = PGSIZE from rfl, take_left' length_replicate,
      drop_left' length_replicate, show 0 - pgrounddown 0 = 0 from rfl, splice_fill,
      Nat.zero_div, selfTable_leaf_zero, pte2pa_mkPte (by decide), ← whole_set]
    refine (copyoutFrom_whole cleared PGSIZE _ [0] (by decide) ?_).mono ?_
    · intro i _ n at'
      obtain ⟨h, rep, -⟩ := cleared
      have inside := (rep.within _ (rep.own at')).1
      exact absurd inside (by
        rw [show dirsTable.leaf _ = 0 from rfl]
        decide)
    · rintro r h' (⟨-, all, -⟩ | ⟨rfl, -⟩)
      · exact absurd all fault
      · rfl
  refine ⟨m, selfTable, List.replicate PGSIZE 0 ++ [0], shown, fun i hi => ?_, ?_⟩
  · rw [length] at hi
    have page : i / PGSIZE = 0 ∨ i / PGSIZE = 1 := by
      simp only [PGSIZE] at hi ⊢
      omega
    rcases page with page | page
    · rw [page, selfTable_leaf_zero, pte2pa_mkPte (by decide)]
      exact ⟨accessible_of_leaf 12 (by decide) (by decide) selfTable_leaf_zero, by decide⟩
    · rw [page, selfTable_leaf_one, pte2pa_mkPte (by decide)]
      exact ⟨accessible_of_leaf 13 (by decide) (by decide) selfTable_leaf_one, by decide⟩
  · obtain ⟨r, m', run, rfl⟩ := run_whole (copyoutFrom_calm _ _ _ _) follows
    rw [copyout, length, run]

/-- Mapped pages are not enough: `copyin` takes page 0 for an error, and `copyout` may overwrite the
page table that it uses. -/
theorem copies_not_bytewise :
    (∃ (m : Mem) (t : Table), m.Shows textRam t ∧ t.Accessible 0 ∧
      (copyin t.root 0 1).run (exec textRam) m = (.ok none, m)) ∧
    ∃ (m : Mem) (t : Table) (src : List Byte), m.Shows textRam t ∧
      (∀ i < src.length, t.Accessible (i / PGSIZE) ∧ pte2pa (t.leaf (i / PGSIZE)) ≠ 0) ∧
      ((copyout t.root 0 src).run (exec textRam) m).1 = .ok false :=
  ⟨copyin_page_zero, copyout_own_table⟩

end Xv6.Vm
