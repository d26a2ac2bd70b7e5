import Mathlib.Data.List.GetD
import Xv6.Vm.Space

/-!
# Copying between kernel and user memory

What `walkaddr`, `copyout` and `copyin` find and change in an address space.
-/

namespace Xv6.Vm

open Function List Table Option

/-- A user program may use the virtual page: its entry is valid for user access. -/
def Table.Accessible (t : Table) (v : ℕ) : Prop :=
  v < MAXVA / PGSIZE ∧ has (flags (t.leaf v)) PTE_V ∧ has (flags (t.leaf v)) PTE_U

instance (t : Table) (v : ℕ) : Decidable (t.Accessible v) := inferInstanceAs (Decidable (_ ∧ _ ∧ _))

/-- Only pages that belong to the table are accessible. -/
def Table.Private (t : Table) : Prop := ∀ v, t.Accessible v → t.user v ≠ none

/-- The page with number `v` after `bytes` have been stored from address `va` on. -/
def overlay (v va : ℕ) (bytes : List Byte) (x : Page) : Page := fun j =>
  if va ≤ v * PGSIZE + j ∧ v * PGSIZE + j < va + bytes.length then
    bytes.getD (v * PGSIZE + j - va) 0
  else x j

/-- The address space after `bytes` have been stored from address `va` on. -/
def Table.put (t : Table) (va : ℕ) (bytes : List Byte) : Table :=
  { t with user := fun v => (t.user v).map (overlay v va bytes) }

theorem div_page {v off : ℕ} (inside : off < PGSIZE) : (v * PGSIZE + off) / PGSIZE = v := by
  simp only [PGSIZE] at inside ⊢
  omega

section Put

variable {t : Table} {v va : ℕ} {bytes : List Byte}

theorem Table.put_nil (t : Table) (va : ℕ) : t.put va [] = t := by
  have none_in (v : ℕ) : overlay v va [] = id := by
    funext x j
    rw [overlay, if_neg]
    · rfl
    · simp only [length_nil]
      omega
  simp only [put, none_in, Option.map_id_fun, id_eq]

theorem Table.put_append (t : Table) (va : ℕ) (a b : List Byte) :
    (t.put va a).put (va + a.length) b = t.put va (a ++ b) := by
  have both (v : ℕ) (x : Page) :
      overlay v (va + a.length) b (overlay v va a x) = overlay v va (a ++ b) x := by
    funext j
    simp only [overlay, length_append]
    by_cases second : va + a.length ≤ v * PGSIZE + j ∧ v * PGSIZE + j < va + a.length + b.length
    · rw [if_pos second, if_pos (by omega), getD_append_right _ _ _ _ (by omega)]
      congr 1
      omega
    · rw [if_neg second]
      by_cases first : va ≤ v * PGSIZE + j ∧ v * PGSIZE + j < va + a.length
      · rw [if_pos first, if_pos (by omega), getD_append _ _ _ _ (by omega)]
      · rw [if_neg first, if_neg (by omega)]
  simp only [put, Option.map_map]
  congr 1
  funext v
  congr 1
  funext x
  exact both v x

theorem Table.put_page {x : Page} (hx : t.user v = some x) {off : ℕ}
    (fits : off + bytes.length ≤ PGSIZE) :
    t.put (v * PGSIZE + off) bytes = t.setUser v (some (splice x off bytes)) := by
  simp only [put, setUser, mk.injEq, true_and]
  funext w
  by_cases e : w = v
  · subst e
    rw [update_self, hx, map_some]
    congr 1
    funext j
    simp only [overlay, splice, Bytes.blit]
    by_cases inside : off ≤ j.val ∧ j.val < off + bytes.length
    · rw [if_pos (by omega), if_pos inside]
      congr 1
      omega
    · rw [if_neg (by omega), if_neg inside]
  · rw [update_of_ne e]
    cases hw : t.user w with
    | none => rfl
    | some y =>
      rw [map_some]
      congr 1
      funext j
      have := j.isLt
      simp only [PGSIZE] at this fits
      simp only [overlay, PGSIZE]
      rw [if_neg]
      rcases Nat.lt_or_gt_of_ne e with lt | gt
      · have := Nat.mul_le_mul_right 4096 (Nat.succ_le_of_lt lt)
        omega
      · have := Nat.mul_le_mul_right 4096 (Nat.succ_le_of_lt gt)
        omega

end Put

section

variable {ram : Ram} {p n : ℕ} {h : Heap Page} {t : Table} {rest : ℕ → Pte} {F : Flags → Prop}

theorem walkaddr_follows (rep : t.Repr ram h) (va : ℕ) :
    (walkaddr t.root va).Follows (owned ram) p h fun r h' =>
      h' = h ∧ r = if t.Accessible (va / PGSIZE) then pte2pa (t.leaf (va / PGSIZE)) else 0 := by
  rw [walkaddr]
  by_cases high : MAXVA ≤ va
  · rw [if_pos high]
    refine ⟨rfl, ?_⟩
    rw [if_neg]
    rintro ⟨lt, -⟩
    simp only [MAXVA, PGSIZE] at lt high
    omega
  · have low : va / PGSIZE < MAXVA / PGSIZE := by
      simp only [MAXVA, PGSIZE] at high ⊢
      omega
    rw [if_neg high]
    refine (walk_find rep (by omega)).bind ?_
    rintro _ _ ⟨rfl, rfl⟩
    cases there : t.low (va / PGSIZE / 512) with
    | none =>
      refine ⟨rfl, ?_⟩
      rw [if_neg]
      rintro ⟨-, valid, -⟩
      obtain ⟨pg, hpg⟩ := rep.low_of_valid valid
      rw [there] at hpg
      cases hpg
    | some pg =>
      obtain ⟨own, entry⟩ := rep.entry there
      refine (follows_load own _).bind ?_
      rintro _ _ ⟨rfl, rfl⟩
      rw [entry]
      by_cases valid : has (flags (t.leaf (va / PGSIZE))) PTE_V
      · by_cases user : has (flags (t.leaf (va / PGSIZE))) PTE_U
        · rw [valid, user, if_neg (by decide), if_neg (by decide)]
          exact ⟨rfl, (if_pos ⟨low, valid, user⟩).symm⟩
        · rw [valid, Bool.eq_false_iff.mpr user, if_neg (by decide), if_pos (by decide)]
          exact ⟨rfl, (if_neg fun acc => user acc.2.2).symm⟩
      · rw [Bool.eq_false_iff.mpr valid, if_pos (by decide)]
        exact ⟨rfl, (if_neg fun acc => valid acc.2.1).symm⟩

theorem Table.Repr.accessible (rep : t.Repr ram h) (priv : t.Private) {v : ℕ}
    (acc : t.Accessible v) : ∃ x, t.user v = some x ∧ h (pte2pa (t.leaf v)) = some x ∧
      pte2pa (t.leaf v) ≠ 0 := by
  obtain ⟨x, hx⟩ := ne_none_iff_exists'.mp (priv v acc)
  have page := rep.user_page hx
  have above := (rep.within _ (ne_none_iff_exists'.mpr ⟨x, page⟩)).1
  have kernel := ram.trampoline_lt
  exact ⟨x, hx, page, by omega⟩

abbrev UserPage (f : Flags) : Prop := has f PTE_U

theorem Table.Maps.accessible (maps : t.Maps n UserPage rest)
    (rep : t.Repr ram h) {v : ℕ} (hv : v < n) : t.Accessible v := by
  refine ⟨?_, rep.wf.user_valid v (maps.user v hv), maps.flags v hv⟩
  have few := maps.lt rep
  simp only [TRAPFRAME, TRAMPOLINE, MAXVA, PGSIZE] at few ⊢
  omega

theorem Table.Maps.address_lt (maps : t.Maps n F rest)
    (rep : t.Repr ram h) {v : ℕ} (hv : v ≤ n) : v * PGSIZE < 2 ^ 38 := by
  have few := maps.lt rep
  simp only [TRAPFRAME, TRAMPOLINE, MAXVA, PGSIZE] at few ⊢
  omega

theorem Table.Maps.private {trapframe : ℕ}
    (maps : t.Maps n F (kernelPtes ram trapframe)) (fits : trapframe < 2 ^ 52) : t.Private := by
  rintro v ⟨-, -, user⟩
  by_cases inside : v < n
  · exact maps.user v inside
  · rw [(maps.beyond v (by omega)).2, kernelPtes] at user
    split_ifs at user
    · rw [flags_mkPte ram.trampoline_fits] at user
      exact absurd user (by decide)
    · rw [flags_mkPte fits] at user
      exact absurd user (by decide)
    · rw [flags_zero, has_zero] at user
      cases user

theorem Table.Maps.clearU (maps : t.Maps n F rest) {v : ℕ} (hv : v < n) :
    (t.setLeaf v (t.leaf v &&& ~~~(PTE_U.setWidth 64))).Maps n (fun _ => True) rest where
  user := maps.user
  readable w hw := by
    by_cases e : w = v
    · rw [e, setLeaf_leaf, update_self, flags_clearU, has_clearU _ (by decide)]
      exact maps.readable v hv
    · rw [setLeaf_leaf, update_of_ne e]
      exact maps.readable w hw
  flags _ _ := trivial
  beyond w hw := by
    rw [setLeaf_leaf, update_of_ne (by omega)]
    exact maps.beyond w hw
  rest_zero := maps.rest_zero

theorem Table.Maps.put (maps : t.Maps n F rest)
    (va : ℕ) (bytes : List Byte) : (t.put va bytes).Maps n F rest where
  user v hv := by
    rw [Table.put, Ne, map_eq_none_iff]
    exact maps.user v hv
  readable := maps.readable
  flags := maps.flags
  beyond v hv := by
    refine ⟨?_, (maps.beyond v hv).2⟩
    rw [Table.put, map_eq_none_iff]
    exact (maps.beyond v hv).1
  rest_zero := maps.rest_zero

/-- The bytes that `copyout` stores: all of them, or those before the first page that is not
accessible. -/
def Stored (t : Table) (va : ℕ) (bytes : List Byte) (done : Bool) (n : ℕ) : Prop :=
  n ≤ bytes.length ∧ (∀ i < n, t.Accessible ((va + i) / PGSIZE)) ∧
    ((done = true ∧ n = bytes.length) ∨
      (done = false ∧ n < bytes.length ∧ ¬t.Accessible ((va + n) / PGSIZE)))

theorem copyoutFrom_follows (k dstva : ℕ) {src : List Byte} (enough : src.length ≤ k)
    (rep : t.Repr ram h) (priv : t.Private) :
    (copyoutFrom t.root k dstva src).Follows (owned ram) p h fun r h' =>
      ∃ n, Stored t dstva src r n ∧ (t.put dstva (src.take n)).Repr ram h' := by
  have nothing (t : Table) (va : ℕ) : Stored t va [] true 0 :=
    ⟨Nat.le_refl 0, fun i hi => absurd hi (Nat.not_lt_zero i), .inl ⟨rfl, rfl⟩⟩
  induction k generalizing h t dstva src with
  | zero =>
    obtain rfl := length_eq_zero_iff.mp (Nat.le_zero.mp enough)
    exact ⟨0, nothing t dstva, by rwa [take_nil, put_nil]⟩
  | succ k ih =>
    rw [copyoutFrom]
    by_cases empty : src = []
    · subst empty
      exact ⟨0, nothing t dstva, by rwa [take_nil, put_nil]⟩
    have pos : 0 < src.length := length_pos_iff.mpr empty
    rw [if_neg empty]
    -- the page and the offset of the first byte
    obtain ⟨v, off, inside, rfl⟩ : ∃ v off, off < PGSIZE ∧ dstva = v * PGSIZE + off :=
      ⟨dstva / PGSIZE, dstva % PGSIZE, Nat.mod_lt _ (by decide), (Nat.div_add_mod' ..).symm⟩
    have page : (v * PGSIZE + off) / PGSIZE = v := div_page inside
    have down : pgrounddown (v * PGSIZE + off) = v * PGSIZE := by rw [pgrounddown, page]
    dsimp only
    rw [down]
    refine (walkaddr_follows rep _).bind ?_
    rintro _ _ ⟨rfl, rfl⟩
    rw [mul_div_page]
    by_cases acc : t.Accessible v
    · obtain ⟨x, hx, own, ne⟩ := rep.accessible priv acc
      rw [if_pos acc, if_neg ne, Nat.add_sub_cancel_left]
      refine (follows_write own _ _).bind ?_
      rintro _ _ rfl
      have low : v * PGSIZE + PGSIZE < 2 ^ 64 := by
        have := acc.1
        simp only [MAXVA, PGSIZE] at this ⊢
        omega
      have here : ∀ i < min (PGSIZE - off) src.length,
          t.Accessible ((v * PGSIZE + off + i) / PGSIZE) := by
        intro i hi
        rwa [add_assoc, div_page (by omega)]
      have fits : off + (src.take (min (PGSIZE - off) src.length)).length ≤ PGSIZE := by
        rw [length_take]
        omega
      have stored := put_page hx fits
      have rep' := rep.setUser (priv v acc) (splice x off (src.take (min (PGSIZE - off) src.length)))
      rw [← stored] at rep'
      rw [Nat.mod_eq_of_lt low]
      by_cases short : src.length ≤ PGSIZE - off
      · rw [min_eq_right short] at rep' here ⊢
        rw [take_length] at rep' ⊢
        rw [drop_length]
        have finish : (copyoutFrom t.root k (v * PGSIZE + PGSIZE) []) = .ret true := by
          cases k <;> rfl
        rw [finish]
        refine ⟨src.length, ⟨le_refl _, here, .inl ⟨rfl, rfl⟩⟩, ?_⟩
        rwa [take_length]
      · rw [min_eq_left (by omega)] at rep' here ⊢
        have next : v * PGSIZE + PGSIZE = v * PGSIZE + off + (PGSIZE - off) := by omega
        have len : (src.take (PGSIZE - off)).length = PGSIZE - off := by
          rw [length_take]
          omega
        have shorter : (src.drop (PGSIZE - off)).length ≤ k := by
          rw [length_drop]
          omega
        have rest := ih (v * PGSIZE + PGSIZE) shorter rep' (fun w hw => by
            rw [put, Ne, map_eq_none_iff]
            exact priv w hw)
        refine rest.mono ?_
        rintro r h' ⟨n, ⟨le, before, last⟩, rep''⟩
        rw [length_drop] at le last
        refine ⟨PGSIZE - off + n, ⟨by omega, fun i hi => ?_, ?_⟩, ?_⟩
        · by_cases first : i < PGSIZE - off
          · exact here i first
          · have := before (i - (PGSIZE - off)) (by omega)
            rwa [next, add_assoc _ (PGSIZE - off), Nat.add_sub_cancel' (by omega)] at this
        · rcases last with ⟨rfl, rfl⟩ | ⟨rfl, lt, fault⟩
          · exact .inl ⟨rfl, by omega⟩
          · refine .inr ⟨rfl, by omega, ?_⟩
            rwa [next, add_assoc] at fault
        · have joined := t.put_append (v * PGSIZE + off) (src.take (PGSIZE - off))
            ((src.drop (PGSIZE - off)).take n)
          rw [len] at joined
          rw [next, joined] at rep''
          rwa [take_add]
    · rw [if_neg acc, if_pos rfl]
      refine ⟨0, ⟨zero_le, fun i hi => absurd hi (Nat.not_lt_zero i), .inr ⟨rfl, pos, ?_⟩⟩, ?_⟩
      · rwa [add_zero, page]
      · rwa [take_zero, put_nil]

theorem copyout_follows (rep : t.Repr ram h) (priv : t.Private) (dstva : ℕ) (src : List Byte) :
    (copyout t.root dstva src).Follows (owned ram) p h fun r h' =>
      ∃ n, Stored t dstva src r n ∧ (t.put dstva (src.take n)).Repr ram h' :=
  copyoutFrom_follows src.length _ (le_refl _) rep priv

theorem copyout_page (rep : t.Repr ram h) (priv : t.Private) {v dstva : ℕ} {src : List Byte}
    (acc : t.Accessible v) (lower : v * PGSIZE ≤ dstva)
    (upper : dstva + src.length ≤ v * PGSIZE + PGSIZE) :
    (copyout t.root dstva src).Follows (owned ram) p h fun r h' =>
      r = true ∧ (t.put dstva src).Repr ram h' := by
  refine (copyout_follows rep priv dstva src).mono ?_
  rintro r h' ⟨n, ⟨le, -, ⟨rfl, rfl⟩ | ⟨-, lt, fault⟩⟩, rep'⟩
  · rw [take_length] at rep'
    exact ⟨rfl, rep'⟩
  · have page : (dstva + n) / PGSIZE = v := by
      simp only [PGSIZE] at lower upper ⊢
      omega
    rw [page] at fault
    exact absurd acc fault

/-! ## The bytes of an address space -/

/-- The byte at an address, zero outside the user pages. -/
def Table.byte (t : Table) (va : ℕ) : Byte :=
  ((t.user (va / PGSIZE)).getD (fill 0)).byte (va % PGSIZE)

theorem Table.byte_put_out {va a : ℕ} {bytes : List Byte} (out : a < va ∨ va + bytes.length ≤ a) :
    (t.put va bytes).byte a = t.byte a := by
  have place : a / PGSIZE * PGSIZE + a % PGSIZE = a := Nat.div_add_mod' ..
  have inside : a % PGSIZE < PGSIZE := Nat.mod_lt a (by decide)
  simp only [byte, put]
  cases t.user (a / PGSIZE) with
  | none => rfl
  | some x =>
    rw [map_some, getD_some, getD_some, Bytes.byte, Bytes.byte, dif_pos inside,
      dif_pos inside, overlay]
    dsimp only
    rw [place, if_neg (by omega)]

theorem Table.byte_put_in {va a : ℕ} {bytes : List Byte} (there : t.user (a / PGSIZE) ≠ none)
    (lower : va ≤ a) (upper : a < va + bytes.length) :
    (t.put va bytes).byte a = bytes.getD (a - va) 0 := by
  obtain ⟨x, hx⟩ := ne_none_iff_exists'.mp there
  have place : a / PGSIZE * PGSIZE + a % PGSIZE = a := Nat.div_add_mod' ..
  simp only [byte, put, hx, map_some, getD_some]
  rw [Bytes.byte, dif_pos (Nat.mod_lt a (by decide)), overlay]
  dsimp only
  rw [place, if_pos ⟨lower, upper⟩]

end

end Xv6.Vm
