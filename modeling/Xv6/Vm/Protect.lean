import Xv6.Vm.Copy
import Xv6.Vm.Run

/-!
# Protection of user memory

Which pages of physical memory a call of `copyout` changes, compared with the pages that the user
program itself may write.
-/

namespace Xv6.Vm

open Function List Heap Table Option Mem

def Mem.whole (m : Mem) : Heap Page := fun a => some (m.page a)

/-- The page table `t` and its user pages are in memory. -/
def Mem.Shows (ram : Ram) (m : Mem) (t : Table) : Prop :=
  ∃ h, t.Repr ram h ∧ ∀ a x, h a = some x → m.page a = x

/-- The page belongs to a virtual page that the user program may write. -/
def Table.Writable (t : Table) (pg : ℕ) : Prop :=
  ∃ v, t.Accessible v ∧ has (flags (t.leaf v)) PTE_W ∧ pte2pa (t.leaf v) = pg

/-- The operations that neither allocate nor free pages. -/
def MemOp.Calm : MemOp → Prop
  | .kalloc | .kfree _ => False
  | _ => True

/-! ## Programs that neither allocate nor free -/

section Calm

theorem mem_calm {o : MemOp} (calm : o.Calm) : (mem o).Only MemOp.Calm := ⟨calm, fun _ => trivial⟩

theorem reads_calm (o : MemOp) (reads : o.Reads) : o.Calm := by
  cases o with
  | kalloc | kfree => exact reads
  | _ => trivial

theorem copyoutFrom_calm (pagetable k dstva : ℕ) (src : List Byte) :
    (copyoutFrom pagetable k dstva src).Only MemOp.Calm := by
  induction k generalizing dstva src with
  | zero => trivial
  | succ k ih =>
    rw [copyoutFrom]
    split_ifs
    · trivial
    · refine ((walkaddr_reads _ _).mono reads_calm).bind fun pa0 => ?_
      split_ifs
      · trivial
      · exact (mem_calm (o := .write _ _ _) trivial).bind fun _ => ih _ _

variable {ram : Ram} {p : ℕ}

theorem Mem.whole_set (m : Mem) (pg : ℕ) (x : Page) :
    (m.set pg x).whole = update m.whole pg (some x) := by
  funext a
  by_cases e : a = pg
  · subst e
    simp [whole, set]
  · simp [whole, set, e]

/-- A program that owns all pages and allocates none runs to its end. -/
theorem run_whole {α : Type} {x : MProg α} {m : Mem} {Q : α → Heap Page → Prop}
    (calm : x.Only MemOp.Calm) (follows : x.Follows (owned ram) p m.whole Q) :
    ∃ r m', x.run (exec ram) m = (.ok r, m') ∧ Q r m'.whole := by
  induction x generalizing m with
  | ret a => exact ⟨a, m, rfl, follows⟩
  | op o k ih =>
    obtain ⟨allowed, next⟩ := follows
    cases o with
    | panic | deeper => exact allowed.elim
    | kalloc | kfree => exact calm.1.elim
    | load pg i => exact ih _ (calm.2 _) (next _ _ ⟨rfl, _, rfl, rfl⟩)
    | read pg off n => exact ih _ (calm.2 _) (next _ _ ⟨rfl, _, rfl, rfl⟩)
    | store pg i v => exact ih _ (calm.2 _) (next _ _ ⟨_, rfl, m.whole_set ..⟩)
    | clear pg => exact ih _ (calm.2 _) (next _ _ (m.whole_set ..))
    | write pg off bytes => exact ih _ (calm.2 _) (next _ _ ⟨_, rfl, m.whole_set ..⟩)

end Calm

/-! ## The pages that `copyout` changes -/

section Copyout

variable {ram : Ram} {m : Mem} {t : Table}

theorem Table.put_place (t : Table) (va : ℕ) (bytes : List Byte) :
    (t.put va bytes).place = t.place := by
  funext n
  cases n with
  | user v => simp only [place, put, Option.map_map, Function.comp_def]
  | root | mid | low => rfl

/-- A call of `copyout` stores its bytes in the pages of the table and changes no other page. -/
theorem copyout_run (shown : m.Shows ram t) (priv : t.Private) (dstva : ℕ) (src : List Byte) :
    ∃ r m' n, (copyout t.root dstva src).run (exec ram) m = (.ok r, m') ∧
      Stored t dstva src r n ∧
      (∀ nd pg, t.place nd = some pg → m'.page pg = (t.put dstva (src.take n)).content nd) ∧
      ∀ pg, (∀ nd, t.place nd ≠ some pg) → m'.page pg = m.page pg := by
  obtain ⟨h, rep, agree⟩ := shown
  let f : Heap Page := fun a => if h a = none then some (m.page a) else none
  have apart : h.Apart f := by
    intro a
    by_cases own : h a = none
    · exact .inl own
    · exact .inr (if_neg own)
  have whole : m.whole = h.join f := by
    funext a
    cases own : h a with
    | none => rw [join_of_none own, whole, show f a = _ from if_pos own]
    | some x => rw [join_of_left own, whole, agree a x own]
  have follows := (copyout_follows (p := 0) rep priv dstva src).frame (owned_local ram) apart
  rw [← whole] at follows
  obtain ⟨r, m', run, h', _, apart', whole', ⟨n, stored, rep'⟩, rfl⟩ :=
    run_whole (copyoutFrom_calm _ _ _ _) follows
  refine ⟨r, m', n, run, stored, fun nd pg at' => ?_, fun pg outside => ?_⟩
  · have cell := rep'.get (n := nd) (by rwa [put_place])
    have := congrFun whole' pg
    rw [join_of_left cell] at this
    exact some.inj this
  · have free : h pg = none := by
      by_contra own
      obtain ⟨nd, at'⟩ := rep.placed.own_iff.mp own
      exact outside nd at'
    have free' : h' pg = none := by
      by_contra own
      obtain ⟨nd, at'⟩ := rep'.placed.own_iff.mp own
      rw [put_place] at at'
      exact outside nd at'
    have := congrFun whole' pg
    rw [join_of_none free', show f pg = _ from if_pos free] at this
    exact some.inj this

theorem Mem.Shows.content (shown : m.Shows ram t) {nd : Node} {pg : ℕ}
    (at' : t.place nd = some pg) : m.page pg = t.content nd := by
  obtain ⟨h, rep, agree⟩ := shown
  exact agree _ _ (rep.get at')

theorem Mem.Shows.inj (shown : m.Shows ram t) (priv : t.Private) {v w : ℕ} (hv : t.Accessible v)
    (hw : t.Accessible w) (same : pte2pa (t.leaf v) = pte2pa (t.leaf w)) : v = w := by
  obtain ⟨h, rep, -⟩ := shown
  have at' {u : ℕ} (hu : t.Accessible u) : t.place (.user u) = some (pte2pa (t.leaf u)) := by
    obtain ⟨x, hx⟩ := ne_none_iff_exists'.mp (priv u hu)
    rw [place, hx, map_some]
  exact Node.user.inj (rep.placed.inj _ _ _ (at' hv) (same ▸ at' hw))

theorem overlay_byte {v va i : ℕ} {bytes : List Byte} (x : Page) (hi : i < bytes.length)
    (page : (va + i) / PGSIZE = v) :
    (overlay v va bytes x).byte ((va + i) % PGSIZE) = bytes.getD i 0 := by
  have lt : (va + i) % PGSIZE < PGSIZE := Nat.mod_lt _ (by decide)
  have split : v * PGSIZE + (va + i) % PGSIZE = va + i := by
    rw [← page]
    exact Nat.div_add_mod' ..
  rw [Bytes.byte, dif_pos lt, overlay]
  simp only [split]
  rw [if_pos (by omega), Nat.add_sub_cancel_left]

theorem copyout_changed (shown : m.Shows ram t) (priv : t.Private) (dstva : ℕ) (src : List Byte)
    {pg : ℕ} (changed : ((copyout t.root dstva src).run (exec ram) m).2.page pg ≠ m.page pg) :
    ∃ i < src.length, (∀ j ≤ i, t.Accessible ((dstva + j) / PGSIZE)) ∧
      pte2pa (t.leaf ((dstva + i) / PGSIZE)) = pg := by
  obtain ⟨r, m', n, run, ⟨le, before, -⟩, inside, outside⟩ := copyout_run shown priv dstva src
  rw [run] at changed
  by_cases owned : ∀ nd, t.place nd ≠ some pg
  · exact absurd (outside pg owned) changed
  obtain ⟨nd, at'⟩ := not_forall_not.mp owned
  rw [inside nd pg at', shown.content at'] at changed
  cases nd with
  | root | mid | low => exact absurd rfl changed
  | user v =>
    cases hx : t.user v with
    | none =>
      rw [place, hx] at at'
      cases at'
    | some x =>
      rw [place, hx, map_some, some.injEq] at at'
      -- some byte of the page differs, so it is in the range
      by_contra none_in
      refine changed ?_
      simp only [content, put, hx, map_some, getD_some]
      funext j
      rw [overlay, if_neg]
      rintro ⟨lower, upper⟩
      rw [length_take, min_eq_left le] at upper
      have page : (dstva + (v * PGSIZE + j - dstva)) / PGSIZE = v := by
        rw [Nat.add_sub_cancel' lower, div_page j.isLt]
      refine none_in ⟨v * PGSIZE + j - dstva, by omega, fun i hi => before i (by omega), ?_⟩
      rw [page, at']

theorem copyout_reaches (shown : m.Shows ram t) (priv : t.Private) {dstva len i : ℕ} (hi : i < len)
    (acc : ∀ j ≤ i, t.Accessible ((dstva + j) / PGSIZE)) :
    ∃ src : List Byte, src.length = len ∧
      ((copyout t.root dstva src).run (exec ram) m).2.page
        (pte2pa (t.leaf ((dstva + i) / PGSIZE))) ≠
      m.page (pte2pa (t.leaf ((dstva + i) / PGSIZE))) := by
  -- the complement of the byte that is there now
  let c := ~~~(m.page (pte2pa (t.leaf ((dstva + i) / PGSIZE)))).byte ((dstva + i) % PGSIZE)
  refine ⟨List.replicate len c, length_replicate, ?_⟩
  obtain ⟨r, m', n, run, ⟨le, before, last⟩, inside, -⟩ :=
    copyout_run shown priv dstva (List.replicate len c)
  rw [length_replicate] at le last
  have reached : i < n := by
    rcases last with ⟨-, rfl⟩ | ⟨-, -, fault⟩
    · exact hi
    · by_contra short
      exact fault (acc n (by omega))
  obtain ⟨x, hx⟩ := ne_none_iff_exists'.mp (priv _ (acc i (le_refl i)))
  have at' : t.place (.user ((dstva + i) / PGSIZE)) =
      some (pte2pa (t.leaf ((dstva + i) / PGSIZE))) := by rw [place, hx, map_some]
  rw [run]
  intro same
  have byte := congrArg (fun y : Page => y.byte ((dstva + i) % PGSIZE)) same
  rw [inside _ _ at'] at byte
  simp only [content, put, hx, map_some, getD_some] at byte
  rw [overlay_byte x (by rw [length_take, length_replicate]; omega) rfl,
    take_replicate, getD_replicate _ (by omega)] at byte
  exact absurd byte.symm (by
    show _ ≠ ~~~_
    intro e
    have bit := congrArg (fun y : Byte => y.getLsbD 0) e
    simp at bit)

/-- `copyout` changes only pages that the user program may write, if and only if every virtual page that
it reaches before the first one that is not accessible is writable. -/
theorem copyout_protects (shown : m.Shows ram t) (priv : t.Private) (dstva len : ℕ) :
    (∀ src : List Byte, src.length = len → ∀ pg,
      ((copyout t.root dstva src).run (exec ram) m).2.page pg ≠ m.page pg → t.Writable pg) ↔
    ∀ i < len, (∀ j ≤ i, t.Accessible ((dstva + j) / PGSIZE)) →
      has (flags (t.leaf ((dstva + i) / PGSIZE))) PTE_W := by
  constructor
  · intro protects i hi acc
    obtain ⟨src, length, changed⟩ := copyout_reaches shown priv hi acc
    obtain ⟨v, accV, writable, same⟩ := protects src length _ changed
    rwa [shown.inj priv accV (acc i (le_refl i)) same] at writable
  · rintro writable src rfl pg changed
    obtain ⟨i, hi, acc, page⟩ := copyout_changed shown priv dstva src changed
    exact ⟨_, acc i (le_refl i), writable i hi acc, page⟩

end Copyout

/-! ## Program text -/

def textRam : Ram where
  first := 10
  last := 27
  trampoline := 1
  trampoline_lt := by decide
  first_le := by decide
  last_le := by decide
  few := by decide

def dirsTable : Table := ((bare 10).setMid 0 (some 11)).setLow 0 (some 12)

theorem dirsTable_repr : ∃ h, dirsTable.Repr textRam h ∧ h 13 = none := by
  have inside (pg : ℕ) (lower : 10 ≤ pg) (upper : pg < 27) :
      textRam.first ≤ pg ∧ pg < textRam.last := ⟨lower, upper⟩
  have root := bare_repr (inside 10 (by decide) (by decide))
  have mid := root.addMid (i := 0) (by decide) rfl (by simp [single, empty])
    (inside 11 (by decide) (by decide))
  have low := mid.addLow (m := 0) (show _ = some 11 by simp) rfl
    (by simp [single, empty, bare]) (inside 12 (by decide) (by decide))
  exact ⟨_, low, by simp [single, empty, bare]⟩

def Mem.ofHeap (h : Heap Page) : Mem := ⟨fun a => (h a).getD (fill 0), [], []⟩

theorem Table.Repr.shown {ram : Ram} {t : Table} {h : Heap Page} (rep : t.Repr ram h) :
    (ofHeap h).Shows ram t := by
  refine ⟨h, rep, fun a x own => ?_⟩
  simp only [ofHeap, own, getD_some]

/-- An address space whose only page is program text, which `exec` maps without `PTE_W`. -/
def textTable : Table :=
  ((((bare 10).setMid 0 (some 11)).setLow 0 (some 12)).setLeaf 0
    (mkPte 13 (PTE_R ||| PTE_U ||| PTE_X ||| PTE_V))).setUser 0 (some (fill 0))

theorem textTable_shown : ∃ m : Mem, m.Shows textRam textTable := by
  obtain ⟨h, rep, free⟩ := dirsTable_repr
  have leaf := rep.setLeaf (v := 0) (show _ = some 12 by simp [dirsTable])
    (x := mkPte 13 (PTE_R ||| PTE_U ||| PTE_X ||| PTE_V)) (fun user => absurd rfl user)
  have page := leaf.changeUser (v := 0)
  have entry : (dirsTable.setLeaf 0 (mkPte 13 (PTE_R ||| PTE_U ||| PTE_X ||| PTE_V))).leaf 0 =
      mkPte 13 (PTE_R ||| PTE_U ||| PTE_X ||| PTE_V) := by
    rw [setLeaf_leaf, update_self]
  rw [entry, flags_mkPte (by decide), pte2pa_mkPte (by decide)] at page
  exact ⟨_, (page (by decide) (.inr (by rwa [update_of_ne (by decide)]))
    ⟨by decide, by decide⟩ (fill 0)).shown⟩

theorem textTable_leaf (v : ℕ) : textTable.leaf v =
    if v = 0 then mkPte 13 (PTE_R ||| PTE_U ||| PTE_X ||| PTE_V) else 0 := by
  by_cases e : v = 0
  · rw [e, if_pos rfl]
    rfl
  · rw [if_neg e]
    exact update_of_ne e _ _

theorem textTable_accessible (v : ℕ) : textTable.Accessible v ↔ v = 0 := by
  rw [Table.Accessible, textTable_leaf]
  by_cases e : v = 0
  · subst e
    rw [if_pos rfl, flags_mkPte (by decide)]
    decide
  · rw [if_neg e, flags_zero, has_zero]
    simp [e]

theorem textTable_private : textTable.Private := by
  intro v acc
  obtain rfl := (textTable_accessible v).mp acc
  exact nofun

/-- The bytes of an empty range are protected, and a byte of program text is not. -/
theorem copyout_protects_text : ∃ m : Mem, m.Shows textRam textTable ∧
    ∀ len, ((∀ src : List Byte, src.length = len → ∀ pg,
      ((copyout textTable.root 0 src).run (exec textRam) m).2.page pg ≠ m.page pg →
        textTable.Writable pg) ↔
      ∀ i < len, (∀ j ≤ i, textTable.Accessible ((0 + j) / PGSIZE)) →
        has (flags (textTable.leaf ((0 + i) / PGSIZE))) PTE_W) := by
  obtain ⟨m, shown⟩ := textTable_shown
  exact ⟨m, shown, fun len => copyout_protects shown textTable_private 0 len⟩

/-- A call of `copyout` changes program text. -/
theorem copyout_writes_text : ∃ m : Mem, m.Shows textRam textTable ∧
    ∃ src : List Byte, src.length = 1 ∧
      ((copyout textTable.root 0 src).run (exec textRam) m).2.page 13 ≠ m.page 13 ∧
      ¬textTable.Writable 13 := by
  obtain ⟨m, shown⟩ := textTable_shown
  obtain ⟨src, length, changed⟩ := copyout_reaches shown textTable_private
    (show 0 < 1 by decide) fun j hj => show textTable.Accessible ((0 + j) / PGSIZE) by
      rw [textTable_accessible, Nat.le_zero.mp hj]
      rfl
  have page : pte2pa (textTable.leaf ((0 + 0) / PGSIZE)) = 13 := by
    rw [textTable_leaf, if_pos (by decide), pte2pa_mkPte (by decide)]
  rw [page] at changed
  refine ⟨m, shown, src, length, changed, ?_⟩
  rintro ⟨v, acc, writable, -⟩
  obtain rfl := (textTable_accessible v).mp acc
  rw [textTable_leaf, if_pos rfl, flags_mkPte (by decide)] at writable
  exact absurd writable (by decide)

end Xv6.Vm
