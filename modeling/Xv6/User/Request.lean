import Xv6.User.FreeList

/-!
# A call of `malloc`

`malloc` searches the free list once around.  If it finds no block, `morecore` puts a new one at the
break into the list, and a second search finds that one.
-/

namespace Xv6.User

open Function Intervals SList FreeList List

variable {base fuel : ℕ} {s : Heap} {bs l : List (ℕ × ℕ)} {nunits : BitVec 32} {oks : List Bool}

/-! ## The search -/

theorem mallocLoop_search (nunits : BitVec 32) (oks : List Bool) {prevp : ℕ} {l : List ℕ}
    (links : Links (next s.mem) prevp l s.freep) (absent : s.freep ∉ l) (k : ℕ) :
    (∃ prev ∈ prevp :: l, nunits ≤ (s.mem (next s.mem prev)).size ∧
      mallocLoop nunits (k + 1 + l.length) s prevp (next s.mem prevp) oks =
        some (take s nunits prev (next s.mem prev))) ∨
    ((∀ y ∈ l ++ [s.freep], ¬ nunits ≤ (s.mem y).size) ∧ ∃ prev,
      mallocLoop nunits (k + 1 + l.length) s prevp (next s.mem prevp) oks =
        mallocLoop nunits (k + 1) s prev s.freep oks) := by
  induction l generalizing prevp with
  | nil =>
    by_cases big : nunits ≤ (s.mem (next s.mem prevp)).size
    · exact .inl ⟨prevp, mem_cons_self, big, by rw [mallocLoop.eq_def]; exact if_pos big⟩
    · rw [show next s.mem prevp = s.freep from links] at big ⊢
      exact .inr ⟨fun y hy => by rwa [mem_singleton.mp hy], prevp, rfl⟩
  | cons x l ih =>
    obtain ⟨step, rest⟩ := links
    obtain ⟨other, absent'⟩ := not_or.mp (fun h => absent (mem_cons.mpr h))
    rw [length_cons, ← add_assoc]
    by_cases big : nunits ≤ (s.mem (next s.mem prevp)).size
    · exact .inl ⟨prevp, mem_cons_self, big, by rw [mallocLoop.eq_def]; exact if_pos big⟩
    have onward : mallocLoop nunits (k + 1 + l.length + 1) s prevp (next s.mem prevp) oks =
        mallocLoop nunits (k + 1 + l.length) s x (next s.mem x) oks := by
      rw [mallocLoop.eq_def]
      dsimp only
      rw [if_neg big, step, if_neg (Ne.symm other)]
    rw [onward]
    rcases ih rest absent' with ⟨prev, hp, found⟩ | ⟨small, wrapped⟩
    · exact .inl ⟨prev, mem_cons_of_mem _ hp, found⟩
    · refine .inr ⟨?_, wrapped⟩
      rw [cons_append]
      refine forall_mem_cons.mpr ⟨?_, small⟩
      rwa [← step]

/-- The free list with the node `freep` on it. -/
structure Listed (base : ℕ) (s : Heap) (bs : List (ℕ × ℕ)) : Prop where
  list : FreeList base s.mem bs
  node : s.freep ∈ nodes base bs

def HasRoom (bs : List (ℕ × ℕ)) (nunits : BitVec 32) : Prop :=
  ∃ x ∈ bs, x.1 + HEADER * nunits.toNat ≤ x.2

theorem Listed.big_iff (h : Listed base s bs) {x : ℕ × ℕ} (hx : x ∈ bs) :
    nunits ≤ (s.mem x.1).size ↔ x.1 + HEADER * nunits.toNat ≤ x.2 := by
  have size := h.list.sizes x hx
  rw [endOf] at size
  rw [BitVec.le_def, ← size]
  simp only [HEADER]
  omega

/-- What `malloc` does when it takes the numbers from `q` to `d`. -/
structure Takes (base : ℕ) (s : Heap) (bs : List (ℕ × ℕ)) (nunits : BitVec 32) (q d : ℕ) (s' : Heap)
    (r : List (ℕ × ℕ)) : Prop where
  length : q + HEADER * nunits.toNat = d
  cut : Cut q d bs r
  listed : Listed base s' r
  size : (s'.mem q).size = nunits
  brk : s'.brk = s.brk
  frame : ∀ a ≠ q, a ∉ nodes base bs → s'.mem a = s.mem a

theorem Listed.search (h : Listed base s bs) (pos : 0 < nunits.toNat) (enough : bs.length < fuel)
    (room : HasRoom bs nunits) : ∃ x ∈ bs, x.1 + HEADER * nunits.toNat ≤ x.2 ∧ ∃ q s' r,
      mallocLoop nunits fuel s s.freep (next s.mem s.freep) oks = some (s', .block (q + HEADER)) ∧
      Takes base s bs nunits q x.2 s' r := by
  obtain ⟨l, links, perm⟩ := h.list.circle.around h.node
  have nodup := perm.nodup_iff.mpr h.list.nodup
  have count := perm.length_eq
  simp only [length_cons, length_map] at count
  obtain ⟨k, rfl⟩ : ∃ k, fuel = k + 1 + l.length := ⟨fuel - (1 + l.length), by omega⟩
  rcases mallocLoop_search nunits oks links (nodup_cons.mp nodup).1 k with
    ⟨prev, onList, big, found⟩ | ⟨small, -⟩
  · -- The node that was found is not `base`, so that it is a block of the list.
    have target : next s.mem prev ∈ nodes base bs := by
      have image : next s.mem prev ∈ (s.freep :: l).map (next s.mem) := mem_map_of_mem onList
      rw [links.map] at image
      refine perm.mem_iff.mp ?_
      rcases mem_append.mp image with later | last
      · exact mem_cons_of_mem _ later
      · rw [mem_singleton.mp last]
        exact mem_cons_self
    rcases mem_cons.mp target with isBase | isBlock
    · rw [isBase, h.list.empty, BitVec.le_def] at big
      exact absurd pos (Nat.not_lt_of_le big)
    obtain ⟨⟨c, d⟩, hx, same⟩ := mem_map.mp isBlock
    obtain ⟨l₁, l₂, rfl⟩ := append_of_mem hx
    have unique : prev = before base l₁ := by
      refine h.list.circle.injective h.list.nodup (perm.mem_iff.mp onList) ?_ ?_
      · rw [map_append, ← cons_append]
        exact mem_append_left _ (before_mem base l₁)
      · rw [← same]
        exact h.list.next_before.symm
    dsimp only at same
    rw [← same] at big found
    have fits := (h.big_iff hx).mp big
    dsimp only at fits
    obtain ⟨mem', r, result, cut, list, node, size, frame⟩ :=
      h.list.take_spec pos big (Nat.sub_add_cancel (by omega : HEADER * nunits.toNat ≤ d))
    rw [unique, result] at found
    exact ⟨(c, d), hx, fits, _, _, r, found, Nat.sub_add_cancel (by omega), cut, ⟨list, node⟩, size,
      rfl, frame⟩
  · obtain ⟨x, hx, fits⟩ := room
    refine absurd ((h.big_iff hx).mpr fits) (small x.1 ?_)
    have known : x.1 ∈ s.freep :: l :=
      perm.mem_iff.mpr (mem_cons_of_mem _ (mem_map_of_mem hx))
    rcases mem_cons.mp known with isLast | early
    · rw [isLast]
      exact mem_append_right _ mem_cons_self
    · exact mem_append_left _ early

theorem Listed.search_fails (h : Listed base s bs) (oks : List Bool) (pos : 0 < nunits.toNat) (k : ℕ)
    (none' : ¬ HasRoom bs nunits) : ∃ prev,
      ¬ nunits ≤ (s.mem s.freep).size ∧
      mallocLoop nunits (k + 1 + bs.length) s s.freep (next s.mem s.freep) oks =
        mallocLoop nunits (k + 1) s prev s.freep oks := by
  have tooSmall : ∀ y ∈ nodes base bs, ¬ nunits ≤ (s.mem y).size := fun y hy big => by
    rcases mem_cons.mp hy with rfl | hy
    · rw [h.list.empty, BitVec.le_def] at big
      exact absurd pos (Nat.not_lt_of_le big)
    · obtain ⟨x, hx, rfl⟩ := mem_map.mp hy
      exact none' ⟨x, hx, (h.big_iff hx).mp big⟩
  obtain ⟨l, links, perm⟩ := h.list.circle.around h.node
  have nodup := perm.nodup_iff.mpr h.list.nodup
  have count := perm.length_eq
  simp only [length_cons, length_map] at count
  obtain same : bs.length = l.length := by omega
  rw [same]
  rcases mallocLoop_search nunits oks links (nodup_cons.mp nodup).1 k with
    ⟨prev, onList, big, -⟩ | ⟨-, prev, wrapped⟩
  · have image : next s.mem prev ∈ (s.freep :: l).map (next s.mem) := mem_map_of_mem onList
    rw [links.map] at image
    refine absurd big (tooSmall _ (perm.mem_iff.mp ?_))
    exact (perm_append_singleton s.freep l).mem_iff.mp image
  · exact ⟨prev, tooSmall _ h.node, wrapped⟩

/-! ## More memory -/

theorem toNat_coreUnits (nu : BitVec 32) : (coreUnits nu).toNat = max nu.toNat 4096 := by
  rw [coreUnits]
  split_ifs with less
  · exact (max_eq_right (le_of_lt less)).symm
  · exact (max_eq_left (Nat.le_of_not_lt less)).symm

theorem le_pagesEnd (brk : ℕ) : brk ≤ pagesEnd brk := by
  simp only [pagesEnd, Vm.PGSIZE]
  omega

/-- The kernel does not give the memory for which `morecore` asks. -/
def Refuses (nunits : BitVec 32) (ok : Bool) : Prop := 0 < coreBytes (coreUnits nunits) ∧ ok = false

def newBrk (s : Heap) (nunits : BitVec 32) : ℕ := Task.sbrkSize s.brk (coreBytes (coreUnits nunits))

/-- `malloc` has put a new block behind all others into the list. -/
structure Grown (base : ℕ) (s : Heap) (bs : List (ℕ × ℕ)) (nunits : BitVec 32) (s' : Heap)
    (r : List (ℕ × ℕ)) : Prop where
  joined : Joined s.brk (s.brk + HEADER * (coreUnits nunits).toNat) bs [] r
  listed : Listed base s' r
  brk : s'.brk = newBrk s nunits
  frame : ∀ a ≠ s.brk, a ∉ nodes base bs → s'.mem a = s.mem a

theorem Listed.short_of_full (h : Listed base s bs) (below : ∀ x ∈ bs, x.2 ≤ s.brk)
    (pos : 0 < nunits.toNat) (full : ¬ HasRoom bs nunits) {c d hi : ℕ} (lower : c ≤ s.brk)
    (upper : hi ≤ d) (more : s.brk < hi)
    (covered : ∀ a, c ≤ a → a < d → Covers bs a ∨ (s.brk ≤ a ∧ a < hi)) :
    d - c < HEADER * nunits.toNat + (hi - s.brk) := by
  have last : d = hi := by
    refine le_antisymm (Nat.le_of_not_lt fun beyond => ?_) upper
    rcases covered hi (by omega) beyond with ⟨x, hx, -, inside⟩ | ⟨-, inside⟩
    · have := below x hx
      omega
    · exact lt_irrefl _ inside
  rcases Nat.lt_or_eq_of_le lower with first | rfl
  · obtain ⟨x, hx, start, stop⟩ := h.list.sep.within first fun a lower upper =>
      (covered a lower (by omega)).resolve_right fun beyond => by omega
    have tooSmall : ¬ x.1 + HEADER * nunits.toNat ≤ x.2 := fun fits => full ⟨x, hx, fits⟩
    have := below x hx
    omega
  · simp only [HEADER]
    omega

theorem Listed.morecore_spec (h : Listed base s bs) (below : ∀ x ∈ bs, x.2 ≤ s.brk)
    (room : base + HEADER ≤ s.brk) (pos : 0 < nunits.toNat) (bound : nunits.toNat ≤ 2 ^ 28 + 1)
    (full : ¬ HasRoom bs nunits) (enough : bs.length < fuel) (ok : Bool) :
    (Refuses nunits ok ∧ morecore fuel s nunits ok = some (.refused, s)) ∨
    (¬ Refuses nunits ok ∧ pagesEnd (newBrk s nunits) < s.brk + HEADER ∧
      morecore fuel s nunits ok = some (.fault, { s with brk := newBrk s nunits })) ∨
    (¬ Refuses nunits ok ∧ s.brk + HEADER ≤ pagesEnd (newBrk s nunits) ∧ ∃ s' r,
      morecore fuel s nunits ok = some (.got, s') ∧ Grown base s bs nunits s' r) := by
  have core := toNat_coreUnits nunits
  by_cases refused : Refuses nunits ok
  · refine .inl ⟨refused, ?_⟩
    have called : sbrk s (coreBytes (coreUnits nunits)) ok = (none, s) := if_pos refused
    rw [morecore, called]
  refine .inr ?_
  have called : sbrk s (coreBytes (coreUnits nunits)) ok =
      (some s.brk, { s with brk := newBrk s nunits }) := if_neg refused
  by_cases fault : pagesEnd (newBrk s nunits) < s.brk + HEADER
  · refine .inl ⟨refused, fault, ?_⟩
    rw [morecore, called]
    exact if_pos fault
  refine .inr ⟨refused, Nat.le_of_not_lt fault, ?_⟩
  -- The header of the new block is no node of the list.
  have fresh : ∀ y ∈ nodes base bs, y ≠ s.brk := fun y hy => by
    rcases mem_cons.mp hy with rfl | hy
    · simp only [HEADER] at room
      omega
    · obtain ⟨x, hx, rfl⟩ := mem_map.mp hy
      have := below x hx
      have := h.list.sep.proper x hx
      omega
  have list : FreeList base (setSize s.mem s.brk (coreUnits nunits)) bs := by
    refine h.list.congr (fun y _ => by rw [next_setSize]) fun y hy => ?_
    rw [setSize, update_of_ne (fresh y hy)]
  have size : endOf (setSize s.mem s.brk (coreUnits nunits)) s.brk =
      s.brk + HEADER * (coreUnits nunits).toNat := by
    rw [endOf, setSize, update_self]
  have more : s.brk < s.brk + HEADER * (coreUnits nunits).toNat := by
    simp only [HEADER]
    omega
  obtain ⟨mem', p, l₁, l₂, r, result, parts, joined, list', node', frame⟩ :=
    FreeList.free_spec (s := ⟨setSize s.mem s.brk (coreUnits nunits), s.freep, newBrk s nunits⟩)
      list h.node size (by simp only [HEADER] at room; omega) more
      (fun x hx => .inl (below x hx))
      (fun c d lower upper covered => by
        have := h.short_of_full below pos full lower upper more covered
        simp only [HEADER] at this ⊢
        omega) enough
  obtain rfl : l₂ = [] := eq_nil_iff_forall_not_mem.mpr fun x hx => by
    have known : x ∈ bs := parts ▸ mem_append_right l₁ hx
    have := joined.above (parts ▸ h.list.sep) x hx
    have := h.list.sep.proper x known
    have := below x known
    omega
  obtain rfl : bs = l₁ := parts.trans (append_nil l₁)
  refine ⟨⟨mem', p, newBrk s nunits⟩, r, ?_, joined, ⟨list', node'⟩, rfl, fun a other absent => ?_⟩
  · rw [morecore, called]
    dsimp only
    rw [if_neg fault, result]
    rfl
  · exact (frame a other absent).trans (update_of_ne other _ _)

/-! ## The whole call -/

/-- The heap before a call of `malloc`: the free blocks are below the break, or the list is not yet
made. -/
structure Ready (base : ℕ) (s : Heap) (bs : List (ℕ × ℕ)) : Prop where
  bottom : 0 < base
  room : base + HEADER ≤ s.brk
  list : (s.freep = 0 ∧ bs = []) ∨ Listed base s bs
  below : ∀ x ∈ bs, x.2 ≤ s.brk

theorem Ready.prepare (h : Ready base s bs) : Listed base (prepare base s) bs := by
  rcases h.list with ⟨new, rfl⟩ | listed
  · rw [User.prepare, if_pos new]
    refine ⟨⟨?_, fun x hx => absurd hx not_mem_nil, ?_, ⟨?_, .nil⟩, ?_⟩, mem_cons_self⟩
    · exact congrArg Header.ptr (update_self base _ s.mem)
    · exact congrArg Header.size (update_self base _ s.mem)
    · exact fun x hx => absurd hx not_mem_nil
    · exact fun x hx => absurd hx not_mem_nil
  · have made : s.freep ≠ 0 := by
      have bottom := h.bottom
      rcases mem_cons.mp listed.node with same | inside
      · omega
      · obtain ⟨x, hx, same⟩ := mem_map.mp inside
        have := listed.list.above x hx
        omega
    rwa [User.prepare, if_neg made]

@[simp]
theorem brk_prepare (base : ℕ) (s : Heap) : (prepare base s).brk = s.brk := by
  rw [prepare]
  split_ifs <;> rfl

theorem mem_prepare {a : ℕ} (other : a ≠ base) (s : Heap) : (prepare base s).mem a = s.mem a := by
  rw [prepare]
  split_ifs
  · exact update_of_ne other _ _
  · rfl

/-- How `malloc` ends: it takes a free block, the kernel refuses more memory, the process is killed at
the header of the new block, or it takes the new block. -/
inductive Served (base : ℕ) (s : Heap) (bs : List (ℕ × ℕ)) (nunits : BitVec 32) (ok : Bool) :
    Heap → Result → List (ℕ × ℕ) → Prop where
  | found {x : ℕ × ℕ} {q : ℕ} {s' : Heap} {r : List (ℕ × ℕ)} (hx : x ∈ bs)
      (fits : x.1 + HEADER * nunits.toNat ≤ x.2) (takes : Takes base s bs nunits q x.2 s' r) :
      Served base s bs nunits ok s' (.block (q + HEADER)) r
  | refused (full : ¬ HasRoom bs nunits) (refuses : Refuses nunits ok) :
      Served base s bs nunits ok s .zero bs
  | fault (full : ¬ HasRoom bs nunits) (gives : ¬ Refuses nunits ok)
      (pages : pagesEnd (newBrk s nunits) < s.brk + HEADER) :
      Served base s bs nunits ok { s with brk := newBrk s nunits } .fault bs
  | grown {q : ℕ} {s₁ s' : Heap} {r₁ r : List (ℕ × ℕ)} (full : ¬ HasRoom bs nunits)
      (gives : ¬ Refuses nunits ok) (grown : Grown base s bs nunits s₁ r₁)
      (takes : Takes base s₁ r₁ nunits q (s.brk + HEADER * (coreUnits nunits).toNat) s' r) :
      Served base s bs nunits ok s' (.block (q + HEADER)) r

theorem Grown.search {s' : Heap} {r : List (ℕ × ℕ)} (h : Listed base s bs)
    (grown : Grown base s bs nunits s' r) (full : ¬ HasRoom bs nunits) (pos : 0 < nunits.toNat)
    (enough : bs.length + 1 < fuel) (oks : List Bool) : ∃ q s'' r',
      mallocLoop nunits fuel s' s'.freep (next s'.mem s'.freep) oks = some (s'', .block (q + HEADER)) ∧
      Takes base s' r nunits q (s.brk + HEADER * (coreUnits nunits).toNat) s'' r' := by
  obtain ⟨⟨z, hz, start, stop⟩, others⟩ := grown.joined.last h.list.sep.proper
  have core := toNat_coreUnits nunits
  have length := grown.joined.length_le
  rw [append_nil] at length
  have room : HasRoom r nunits := ⟨z, hz, by simp only [HEADER] at stop ⊢; omega⟩
  obtain ⟨x, hx, fits, q, s'', r', result, takes⟩ :=
    grown.listed.search pos (lt_of_le_of_lt length enough) room
  rcases others x hx with old | isNew
  · exact absurd ⟨x, old, fits⟩ full
  · rw [isNew] at takes
    exact ⟨q, s'', r', result, takes⟩

theorem Listed.served (h : Listed base s bs) (below : ∀ x ∈ bs, x.2 ≤ s.brk)
    (room : base + HEADER ≤ s.brk) (pos : 0 < nunits.toNat) (bound : nunits.toNat ≤ 2 ^ 28 + 1)
    (enough : 2 * bs.length + 2 < fuel) (oks : List Bool) : ∃ s' res r,
      mallocLoop nunits fuel s s.freep (next s.mem s.freep) oks = some (s', res) ∧
      Served base s bs nunits (oks.headD false) s' res r := by
  by_cases full : HasRoom bs nunits
  · obtain ⟨x, hx, fits, q, s', r, result, takes⟩ := h.search pos (by omega : bs.length < fuel) full
    exact ⟨s', _, r, result, .found hx fits takes⟩
  obtain ⟨k, rfl⟩ : ∃ k, fuel = k + 1 + bs.length := ⟨fuel - (1 + bs.length), by omega⟩
  obtain ⟨prev, small, wrapped⟩ := h.search_fails oks pos k full
  rw [mallocLoop.eq_def nunits (k + 1) s prev] at wrapped
  dsimp only at wrapped
  rw [if_neg small, if_pos rfl] at wrapped
  rw [wrapped]
  rcases h.morecore_spec below room pos bound full (by omega : bs.length < k) (oks.headD false) with
    ⟨refuses, result⟩ | ⟨gives, pages, result⟩ | ⟨gives, -, s₁, r₁, result, grown⟩
  · rw [result]
    exact ⟨s, _, bs, rfl, .refused full refuses⟩
  · rw [result]
    exact ⟨_, _, bs, rfl, .fault full gives pages⟩
  · rw [result]
    obtain ⟨q, s', r, result', takes⟩ := grown.search h full pos
      (by omega : bs.length + 1 < k) oks.tail
    exact ⟨s', _, r, result', .grown full gives grown takes⟩

theorem toNat_units (nbytes : BitVec 32) :
    (units nbytes).toNat = (nbytes.toNat + HEADER - 1) / HEADER + 1 := by
  rw [units, BitVec.toNat_ofNat, Nat.mod_eq_of_lt]
  simp only [HEADER]
  omega

theorem Ready.served (h : Ready base s bs) (nbytes : BitVec 32) (oks : List Bool) : ∃ s' res r,
    MallocEnds base s nbytes oks s' res ∧
      Served base (User.prepare base s) bs (units nbytes) (oks.headD false) s' res r := by
  have count := toNat_units nbytes
  simp only [HEADER] at count
  have below : ∀ x ∈ bs, x.2 ≤ (User.prepare base s).brk := by
    rw [brk_prepare]
    exact h.below
  have room : base + HEADER ≤ (User.prepare base s).brk := by
    rw [brk_prepare]
    exact h.room
  have pos : 0 < (units nbytes).toNat := by omega
  have bound : (units nbytes).toNat ≤ 2 ^ 28 + 1 := by omega
  obtain ⟨s', res, r, result, served⟩ := h.prepare.served below room pos bound
    (Nat.lt_succ_self (2 * bs.length + 2)) oks
  exact ⟨s', res, r, ⟨2 * bs.length + 3, result⟩, served⟩

/-! ## Requests of every size -/

theorem coreBytes_of_small {nu : BitVec 32} (small : HEADER * nu.toNat < 2 ^ 31) :
    coreBytes nu = (HEADER * nu.toNat : ℕ) := by
  rw [coreBytes, mul_comm, BitVec.toInt_eq_toNat_of_lt]
  · rw [BitVec.toNat_ofNat, Nat.mod_eq_of_lt (by omega)]
  · rw [BitVec.toNat_ofNat, Nat.mod_eq_of_lt (by omega)]
    omega

theorem coreBytes_of_large {nu : BitVec 32} (large : 2 ^ 31 ≤ HEADER * nu.toNat)
    (bound : nu.toNat ≤ 2 ^ 28 + 1) :
    coreBytes nu ≤ HEADER ∧ (0 < coreBytes nu ↔ 2 ^ 28 < nu.toNat) := by
  rw [coreBytes, BitVec.toInt_eq_toNat_cond, BitVec.toNat_ofNat]
  simp only [HEADER] at *
  split_ifs with positive <;> constructor <;> omega

theorem newBrk_of_small (small : HEADER * nunits.toNat < 2 ^ 31) :
    newBrk s nunits = s.brk + HEADER * (coreUnits nunits).toNat := by
  have core := toNat_coreUnits nunits
  have bytes : coreBytes (coreUnits nunits) = (HEADER * (coreUnits nunits).toNat : ℕ) := by
    refine coreBytes_of_small ?_
    simp only [HEADER] at small ⊢
    omega
  rw [newBrk, bytes, Task.sbrkSize, if_pos (by omega)]
  omega

theorem newBrk_of_large (large : 2 ^ 31 ≤ HEADER * nunits.toNat) (bound : nunits.toNat ≤ 2 ^ 28 + 1) :
    newBrk s nunits ≤ s.brk + HEADER ∧ coreUnits nunits = nunits := by
  have same : coreUnits nunits = nunits := by
    refine if_neg (Nat.not_lt_of_le ?_)
    simp only [HEADER] at large
    change 4096 ≤ nunits.toNat
    omega
  obtain ⟨most, -⟩ := coreBytes_of_large large bound
  refine ⟨?_, same⟩
  rw [newBrk, same, Task.sbrkSize]
  split_ifs <;> omega

/-- The call ends with 0, or with a pointer to `nbytes` bytes below the break, which has not become
lower. -/
def SafeMalloc (base : ℕ) (s : Heap) (nbytes : BitVec 32) (oks : List Bool) : Prop :=
  ∃ s' res, MallocEnds base s nbytes oks s' res ∧ s.brk ≤ s'.brk ∧
    (res = .zero ∨ ∃ ap, res = .block ap ∧ ap + nbytes.toNat ≤ s'.brk)

/-- The requests that `malloc` serves: the bytes for `sbrk` are an `int`, or there is a free block, or
the kernel refuses the 16 bytes for which the largest requests ask. -/
def Works (bs : List (ℕ × ℕ)) (nbytes : BitVec 32) (ok : Bool) : Prop :=
  nbytes.toNat ≤ 2 ^ 31 - 32 ∨ HasRoom bs (units nbytes) ∨ (2 ^ 32 - 16 < nbytes.toNat ∧ ok = false)

theorem Ready.safe (h : Ready base s bs) {nbytes : BitVec 32} {oks : List Bool}
    (works : Works bs nbytes (oks.headD false)) : SafeMalloc base s nbytes oks := by
  have count := toNat_units nbytes
  simp only [HEADER] at count
  obtain ⟨s', res, r, ended, served⟩ := h.served nbytes oks
  refine ⟨s', res, ended, ?_⟩
  -- Without a free block the request is small, unless the kernel refuses it.
  have small : ¬ HasRoom bs (units nbytes) → ¬ Refuses (units nbytes) (oks.headD false) →
      newBrk (User.prepare base s) (units nbytes) =
        s.brk + HEADER * (coreUnits (units nbytes)).toNat := fun full gives => by
    rcases works with fits | room | ⟨top, no⟩
    · rw [newBrk_of_small (by simp only [HEADER]; omega), brk_prepare]
    · exact absurd room full
    · have large : 2 ^ 31 ≤ HEADER * (units nbytes).toNat := by
        simp only [HEADER]
        omega
      have same := (newBrk_of_large (s := s) large (by omega)).2
      refine absurd ⟨?_, no⟩ gives
      rw [same]
      exact (coreBytes_of_large large (by omega)).2.mpr (by omega)
  have core := toNat_coreUnits (units nbytes)
  cases served with
  | @found x q s' r hx fits takes =>
    have length := takes.length
    have below := h.below x hx
    have brk := takes.brk
    rw [brk_prepare] at brk
    simp only [HEADER] at length
    refine ⟨le_of_eq brk.symm, .inr ⟨_, rfl, ?_⟩⟩
    simp only [HEADER]
    omega
  | refused => exact ⟨le_of_eq (brk_prepare base s).symm, .inl rfl⟩
  | fault full gives pages =>
    have := le_pagesEnd (newBrk (User.prepare base s) (units nbytes))
    rw [small full gives, brk_prepare] at *
    simp only [HEADER] at *
    omega
  | grown full gives grown takes =>
    have length := takes.length
    have brk := takes.brk.trans grown.brk
    rw [small full gives] at brk
    rw [brk_prepare] at length
    simp only [HEADER] at *
    exact ⟨by omega, .inr ⟨_, rfl, by omega⟩⟩

theorem Ready.unsafe_of_not_works (h : Ready base s bs) {nbytes : BitVec 32} {oks : List Bool}
    (fails : ¬ Works bs nbytes (oks.headD false)) : ¬ SafeMalloc base s nbytes oks := by
  rintro ⟨s', res, ended, -, good⟩
  obtain ⟨large, full, gives⟩ := (not_or.mp fails).imp_right not_or.mp
  have count := toNat_units nbytes
  simp only [HEADER] at count
  have large' : 2 ^ 31 ≤ HEADER * (units nbytes).toNat := by
    simp only [HEADER]
    omega
  have bound : (units nbytes).toNat ≤ 2 ^ 28 + 1 := by omega
  obtain ⟨s₁, res₁, r, ended₁, served⟩ := h.served nbytes oks
  obtain ⟨rfl, rfl⟩ := ended₁.unique ended
  cases served with
  | found hx fits takes => exact full ⟨_, hx, fits⟩
  | refused _ refuses =>
    obtain ⟨positive, no⟩ := refuses
    rw [(newBrk_of_large (s := s) large' bound).2] at positive
    have := (coreBytes_of_large large' bound).2.mp positive
    exact gives ⟨by omega, no⟩
  | fault => rcases good with absurd' | ⟨ap, absurd', -⟩ <;> cases absurd'
  | @grown q s₁ s' r₁ r _ _ grown takes =>
    rcases good with absurd' | ⟨ap, isBlock, below⟩
    · cases absurd'
    obtain rfl : q + HEADER = ap := Result.block.inj isBlock
    obtain ⟨most, same⟩ := newBrk_of_large (s := User.prepare base s) large' bound
    have length := takes.length
    rw [takes.brk, grown.brk] at below
    rw [same] at length
    simp only [HEADER] at *
    omega

/-- `malloc` returns 0 or memory below the break, and does not lower the break, if and only if the
request is not too large. -/
theorem malloc_safe_iff (h : Ready base s bs) (nbytes : BitVec 32) (oks : List Bool) :
    SafeMalloc base s nbytes oks ↔ Works bs nbytes (oks.headD false) :=
  ⟨fun safe => by_contra fun fails => h.unsafe_of_not_works fails safe, h.safe⟩

def freshHeap (brk : ℕ) : Heap := ⟨fun _ => ⟨0, 0⟩, 0, brk⟩

theorem freshHeap_ready {brk : ℕ} (bottom : 0 < base) (room : base + HEADER ≤ brk) :
    Ready base (freshHeap brk) [] :=
  ⟨bottom, room, .inl ⟨rfl, rfl⟩, fun _ absent => absurd absent not_mem_nil⟩

/-- A small first request. -/
theorem malloc_safe_eight : SafeMalloc 4112 (freshHeap 16384) 8 [true] :=
  (malloc_safe_iff (freshHeap_ready (by decide) (by decide)) 8 [true]).mpr (.inl (by decide))

/-- A first request of almost 4 GiB: `sbrk` is called with -8176, and the header of the new block is
where the pages were that it has freed. -/
theorem malloc_lowers_break : ¬ SafeMalloc 4112 (freshHeap 16384) 4294959104 [true] ∧
    (malloc 4112 3 (freshHeap 16384) 4294959104 [true]).map (fun r => (r.1.brk, r.2)) =
      some (8208, .fault) := by
  refine ⟨(freshHeap_ready (by decide) (by decide)).unsafe_of_not_works ?_, by decide⟩
  rintro (small | ⟨x, absent, -⟩ | ⟨top, -⟩)
  · exact absurd small (by decide)
  · exact absurd absent not_mem_nil
  · exact absurd top (by decide)

end Xv6.User
