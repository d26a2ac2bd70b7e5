import Mathlib.Data.List.Nodup

/-!
# Allocation of resources to slots

A region of resources is shared out to slots, and a map says which resources are in use.  In an
`Allocation` no resource belongs to two slots and the map is exact, up to a list of resources that are
in use and belong to no slot yet.
-/

/-- `ref i` is the resource of slot `i`, `used` the map of the resources in use, and `spare` the
resources that are in use and belong to no slot. -/
structure Allocation {ι β : Type} (region : β → Prop) (ref : ι → Option β) (used : β → Prop)
    (spare : List β) : Prop where
  inside : ∀ i b, ref i = some b → region b
  inj : ∀ i j b, ref i = some b → ref j = some b → i = j
  spare_inside : ∀ b ∈ spare, region b
  spare_free : ∀ b ∈ spare, ∀ i, ref i ≠ some b
  nodup : spare.Nodup
  used_iff : ∀ b, region b → (used b ↔ (∃ i, ref i = some b) ∨ b ∈ spare)

namespace Allocation

open List

open Function

variable {ι β : Type} {region : β → Prop} {ref : ι → Option β} {used used' : β → Prop}
variable {spare : List β}

section

variable (h : Allocation region ref used spare)
include h

theorem used_of_ref {i : ι} {b : β} (hi : ref i = some b) : used b :=
  (h.used_iff b (h.inside i b hi)).mpr (.inl ⟨i, hi⟩)

theorem used_of_spare {b : β} (hb : b ∈ spare) : used b :=
  (h.used_iff b (h.spare_inside b hb)).mpr (.inr hb)

theorem congr_used (same : ∀ b, region b → (used' b ↔ used b)) : Allocation region ref used' spare :=
  ⟨h.inside, h.inj, h.spare_inside, h.spare_free, h.nodup,
    fun b hb => (same b hb).trans (h.used_iff b hb)⟩

theorem take {b : β} (hb : region b) (free : ¬ used b)
    (mark : ∀ c, region c → (used' c ↔ c = b ∨ used c)) : Allocation region ref used' (b :: spare) where
  inside := h.inside
  inj := h.inj
  spare_inside := forall_mem_cons.mpr ⟨hb, h.spare_inside⟩
  spare_free := forall_mem_cons.mpr
    ⟨fun _ hi => free (h.used_of_ref hi), h.spare_free⟩
  nodup := nodup_cons.mpr ⟨fun mem => free (h.used_of_spare mem), h.nodup⟩
  used_iff := by
    intro c hc
    rw [mark c hc, h.used_iff c hc, mem_cons]
    tauto

end

theorem link [DecidableEq ι] {b : β} (h : Allocation region ref used (b :: spare)) {i : ι}
    (empty : ref i = none) : Allocation region (update ref i (some b)) used spare := by
  have fresh := h.spare_free b mem_cons_self
  have only : ∀ j c, update ref i (some b) j = some c →
      j = i ∧ c = b ∨ j ≠ i ∧ ref j = some c := by
    intro j c hj
    by_cases hji : j = i
    · subst hji
      rw [update_self] at hj
      exact .inl ⟨rfl, (Option.some.inj hj).symm⟩
    · rw [update_of_ne hji] at hj
      exact .inr ⟨hji, hj⟩
  have distinct := nodup_cons.mp h.nodup
  refine ⟨?_, ?_, ?_, ?_, distinct.2, ?_⟩
  · intro j c hj
    obtain ⟨-, rfl⟩ | ⟨-, hj⟩ := only j c hj
    · exact h.spare_inside _ mem_cons_self
    · exact h.inside j c hj
  · intro j k c hj hk
    obtain ⟨rfl, rfl⟩ | ⟨-, atj⟩ := only j c hj
    · obtain ⟨rfl, -⟩ | ⟨-, atk⟩ := only k c hk
      · rfl
      · exact absurd atk (fresh k)
    · obtain ⟨-, rfl⟩ | ⟨-, atk⟩ := only k c hk
      · exact absurd atj (fresh j)
      · exact h.inj j k c atj atk
  · exact fun c hc => h.spare_inside c (mem_cons_of_mem b hc)
  · intro c hc j hj
    obtain ⟨-, rfl⟩ | ⟨-, hj⟩ := only j c hj
    · exact distinct.1 hc
    · exact h.spare_free c (mem_cons_of_mem b hc) j hj
  · intro c hc
    rw [h.used_iff c hc, mem_cons]
    constructor
    · rintro (⟨j, hj⟩ | rfl | mem)
      · refine .inl ⟨j, ?_⟩
        rwa [update_of_ne]
        rintro rfl
        rw [empty] at hj
        cases hj
      · exact .inl ⟨i, update_self ..⟩
      · exact .inr mem
    · rintro (⟨j, hj⟩ | mem)
      · obtain ⟨-, rfl⟩ | ⟨-, hj⟩ := only j c hj
        · exact .inr (.inl rfl)
        · exact .inl ⟨j, hj⟩
      · exact .inr (.inr mem)

theorem release (h : Allocation region ref used []) {ref' : ι → Option β} {slots : List ι}
    (distinct : slots.Nodup) (emptied : ∀ i ∈ slots, ref' i = none)
    (kept : ∀ i, i ∉ slots → ref' i = ref i) : Allocation region ref' used (slots.filterMap ref) := by
  have only : ∀ {i b}, ref' i = some b → i ∉ slots ∧ ref i = some b := by
    intro i b hi
    by_cases mem : i ∈ slots
    · rw [emptied i mem] at hi
      cases hi
    · exact ⟨mem, kept i mem ▸ hi⟩
  have owner : ∀ {b}, b ∈ slots.filterMap ref → ∃ i ∈ slots, ref i = some b :=
    fun hb => mem_filterMap.mp hb
  refine ⟨fun i b hi => h.inside i b (only hi).2,
    fun i j b hi hj => h.inj i j b (only hi).2 (only hj).2, ?_, ?_, ?_, ?_⟩
  · intro b hb
    obtain ⟨i, -, hi⟩ := owner hb
    exact h.inside i b hi
  · intro b hb j hj
    obtain ⟨i, mem, hi⟩ := owner hb
    exact (only hj).1 (h.inj i j b hi (only hj).2 ▸ mem)
  · exact distinct.filterMap fun i j b hi hj => h.inj i j b hi hj
  · intro b hb
    rw [h.used_iff b hb]
    constructor
    · rintro (⟨i, hi⟩ | mem)
      · by_cases mem : i ∈ slots
        · exact .inr (mem_filterMap.mpr ⟨i, mem, hi⟩)
        · exact .inl ⟨i, (kept i mem).trans hi⟩
      · exact absurd mem not_mem_nil
    · rintro (⟨i, hi⟩ | mem)
      · exact .inl ⟨i, (only hi).2⟩
      · obtain ⟨i, -, hi⟩ := owner mem
        exact .inl ⟨i, hi⟩

theorem free {b : β} (h : Allocation region ref used (b :: spare))
    (mark : ∀ c, region c → (used' c ↔ c ≠ b ∧ used c)) : Allocation region ref used' spare where
  inside := h.inside
  inj := h.inj
  spare_inside := (forall_mem_cons.mp h.spare_inside).2
  spare_free := (forall_mem_cons.mp h.spare_free).2
  nodup := (nodup_cons.mp h.nodup).2
  used_iff := by
    intro c hc
    have fresh := h.spare_free b mem_cons_self
    have distinct := (nodup_cons.mp h.nodup).1
    rw [mark c hc, h.used_iff c hc, mem_cons]
    constructor
    · rintro ⟨ne, owned | rfl | mem⟩
      · exact .inl owned
      · exact absurd rfl ne
      · exact .inr mem
    · rintro (⟨i, hi⟩ | mem)
      · exact ⟨fun same => fresh i (same ▸ hi), .inl ⟨i, hi⟩⟩
      · exact ⟨fun same => distinct (same ▸ mem), .inr (.inr mem)⟩

end Allocation
