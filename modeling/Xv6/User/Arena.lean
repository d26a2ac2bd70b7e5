import Xv6.User.Request

/-!
# The heap of a program

A program calls `malloc` and `free`, writes into its blocks, and may itself call `sbrk`.  The free blocks
and the live ones together are the memory that `malloc` has obtained.
-/

namespace Xv6.User

open Function Intervals FreeList List

/-- The heap with what the program holds: its blocks, as pointers with the number of the bytes it asked
for, and the memory that `malloc` has obtained from `sbrk`. -/
structure Arena where
  heap : Heap
  live : List (ℕ × ℕ)
  regions : List (ℕ × ℕ)

/-- A call of the program. -/
inductive HeapAction where
  | malloc (nbytes : BitVec 32) (oks : List Bool)
  /-- `free` of the live block with this index. -/
  | free (i : ℕ)
  | sbrk (n : ℕ) (ok : Bool)
  | write (a : ℕ) (h : Header)

/-- The bytes for which `malloc` asks `sbrk` are a positive `int`. -/
def Fits (nbytes : BitVec 32) : Prop := HEADER * (units nbytes).toNat < 2 ^ 31

/-- The request is not too large. -/
def HeapAction.Fits : HeapAction → Prop
  | .malloc nbytes _ => User.Fits nbytes
  | _ => True

/-- The interval of the block at `ap`, with its header. -/
def blockOf (mem : ℕ → Header) (ap : ℕ) : ℕ × ℕ := (ap - HEADER, endOf mem (ap - HEADER))

namespace Arena

variable {heap : Heap} {action : HeapAction} {actions : List HeapAction}

/-- A step of the program; `none` if a call does not end with `fuel` rounds, or the process is killed. -/
def step (base fuel : ℕ) (s : Arena) : HeapAction → Option Arena
  | .malloc nbytes oks =>
      match malloc base fuel s.heap nbytes oks with
      | none => none
      | some (_, .fault) => none
      | some (heap, .zero) => some { s with heap }
      | some (heap, .block ap) =>
          some ⟨heap, (ap, nbytes.toNat) :: s.live, (s.heap.brk, heap.brk) :: s.regions⟩
  | .free i =>
      match s.live[i]? with
      | none => some s
      | some b => (free fuel s.heap b.1).map fun heap => { s with heap, live := s.live.eraseIdx i }
  | .sbrk n ok => some { s with heap := (sbrk s.heap n ok).2 }
  | .write a h =>
      if ∃ b ∈ s.live, b.1 ≤ a ∧ a < b.1 + b.2 then
        some { s with heap := { s.heap with mem := update s.heap.mem a h } }
      else some s

def run (base fuel : ℕ) (s : Arena) (actions : List HeapAction) : Option Arena :=
  actions.foldlM (step base fuel) s

/-- The live blocks, as intervals. -/
def blocks (s : Arena) : List (ℕ × ℕ) := s.live.map fun b => blockOf s.heap.mem b.1

/-- No action makes 64 GiB in a row free, the length that the header of a block cannot express. -/
def Room (s : Arena) : HeapAction → Prop
  | .free i => ∀ c d, (∀ a, c ≤ a → a < d →
      Covers s.regions a ∧ ¬ Covers (blocks { s with live := s.live.eraseIdx i }) a) → d - c < 2 ^ 36
  | _ => True

/-- The free blocks `bs` are in a circular list in the order of their addresses, with gaps between them;
they and the live blocks are disjoint and make up the memory from `sbrk`; and each live block has the
bytes that the program asked for. -/
structure Ok (base : ℕ) (s : Arena) (bs : List (ℕ × ℕ)) : Prop where
  bottom : 0 < base
  room : base + HEADER ≤ s.heap.brk
  list : (s.heap.freep = 0 ∧ bs = [] ∧ s.live = []) ∨ Listed base s.heap bs
  inside : ∀ x ∈ bs ++ s.blocks, base + HEADER ≤ x.1 ∧ x.1 < x.2 ∧ x.2 ≤ s.heap.brk
  apart : (bs ++ s.blocks).Pairwise Apart
  tile : ∀ a, Covers (bs ++ s.blocks) a ↔ Covers s.regions a
  enough : ∀ b ∈ s.live, HEADER ≤ b.1 ∧ b.1 + b.2 ≤ (blockOf s.heap.mem b.1).2

variable {base fuel : ℕ} {s : Arena} {bs r : List (ℕ × ℕ)} {nunits : BitVec 32}

namespace Ok

variable {b y : ℕ × ℕ} {live regions : List (ℕ × ℕ)}

theorem ready (h : Ok base s bs) : Ready base s.heap bs :=
  ⟨h.bottom, h.room, h.list.imp_left fun ⟨new, empty, _⟩ => ⟨new, empty⟩,
    fun x hx => (h.inside x (mem_append_left _ hx)).2.2⟩

theorem separated (h : Ok base s bs) : Separated bs := by
  rcases h.list with ⟨-, rfl, -⟩ | listed
  · exact ⟨fun x hx => absurd hx not_mem_nil, .nil⟩
  · exact listed.list.sep

theorem mem_blocks (hb : b ∈ s.live) : blockOf s.heap.mem b.1 ∈ s.blocks :=
  mem_map_of_mem hb

theorem clear (h : Ok base s bs) (hy : y ∈ s.blocks) {a : ℕ} (lower : y.1 ≤ a)
    (upper : a < y.2) : ¬ Covers bs a :=
  (forall_apart_iff h.separated.proper (h.inside y (mem_append_right _ hy)).2.1).mp
    (fun x hx => (pairwise_append.mp h.apart).2.2 x hx y hy) a lower upper

theorem header_notMem (h : Ok base s bs) (hy : y ∈ s.blocks) : y.1 ∉ nodes base bs := by
  obtain ⟨low, proper, -⟩ := h.inside y (mem_append_right _ hy)
  intro node
  rcases mem_cons.mp node with isBase | isBlock
  · simp only [HEADER] at low
    omega
  · obtain ⟨x, hx, same⟩ := mem_map.mp isBlock
    have order := h.separated.proper x hx
    exact h.clear hy (le_refl _) proper ⟨x, hx, le_of_eq same, by omega⟩

theorem blocks_congr
    (same : ∀ y ∈ s.blocks, heap.mem y.1 = s.heap.mem y.1) (part : ∀ b ∈ live, b ∈ s.live) :
    blocks ⟨heap, live, regions⟩ = live.map fun b => blockOf s.heap.mem b.1 := by
  refine map_congr_left fun b hb => ?_
  have header : heap.mem (b.1 - HEADER) = s.heap.mem (b.1 - HEADER) :=
    same _ (mem_blocks (part b hb))
  rw [blockOf, blockOf, endOf, endOf, header]

theorem change (h : Ok base s bs) {regions : List (ℕ × ℕ)}
    (same : ∀ y ∈ s.blocks, heap.mem y.1 = s.heap.mem y.1) (listed : Listed base heap r)
    (more : s.heap.brk ≤ heap.brk) (inside : ∀ x ∈ r, base + HEADER ≤ x.1 ∧ x.1 < x.2 ∧ x.2 ≤ heap.brk)
    (clear : ∀ y ∈ s.blocks, ∀ a, y.1 ≤ a → a < y.2 → ¬ Covers r a)
    (tile : ∀ a, Covers (r ++ s.blocks) a ↔ Covers regions a) : Ok base ⟨heap, s.live, regions⟩ r := by
  have blocks' : blocks ⟨heap, s.live, regions⟩ = s.blocks := blocks_congr same fun b hb => hb
  have within : ∀ y ∈ s.blocks, base + HEADER ≤ y.1 ∧ y.1 < y.2 ∧ y.2 ≤ s.heap.brk := fun y hy =>
    h.inside y (mem_append_right _ hy)
  refine ⟨h.bottom, h.room.trans more, .inr listed, fun x hx => ?_, ?_, fun a => ?_, fun b hb => ?_⟩
  · rw [blocks'] at hx
    rcases mem_append.mp hx with hx | hx
    · exact inside x hx
    · obtain ⟨low, proper, high⟩ := within x hx
      exact ⟨low, proper, high.trans more⟩
  · rw [blocks']
    refine pairwise_append.mpr ⟨?_, (pairwise_append.mp h.apart).2.1, fun x hx y hy => ?_⟩
    · exact listed.list.sep.apart.imp fun lt => .inl (le_of_lt lt)
    · exact (forall_apart_iff listed.list.sep.proper (within y hy).2.1).mpr (clear y hy) x hx
  · rw [blocks']
    exact tile a
  · have header : heap.mem (b.1 - HEADER) = s.heap.mem (b.1 - HEADER) := same _ (mem_blocks hb)
    have := h.enough b hb
    rwa [blockOf, endOf, ← header] at this

theorem cons {live regions regions' : List (ℕ × ℕ)} {ap n : ℕ}
    (h : Ok base ⟨heap, live, regions⟩ bs) (listed : Listed base heap bs) (start : HEADER ≤ ap)
    (inside : base + HEADER ≤ (blockOf heap.mem ap).1 ∧
      (blockOf heap.mem ap).1 < (blockOf heap.mem ap).2 ∧ (blockOf heap.mem ap).2 ≤ heap.brk)
    (apart : ∀ x ∈ bs ++ blocks ⟨heap, live, regions⟩, Apart x (blockOf heap.mem ap))
    (tile : ∀ a, Covers regions' a ↔ Covers regions a ∨
      ((blockOf heap.mem ap).1 ≤ a ∧ a < (blockOf heap.mem ap).2))
    (bytes : ap + n ≤ (blockOf heap.mem ap).2) : Ok base ⟨heap, (ap, n) :: live, regions'⟩ bs := by
  have blocks' : blocks ⟨heap, (ap, n) :: live, regions'⟩ =
    blockOf heap.mem ap :: blocks ⟨heap, live, regions⟩ := rfl
  refine ⟨h.bottom, h.room, .inr listed, fun x hx => ?_, ?_, fun a => ?_, ?_⟩
  · rw [blocks'] at hx
    rcases mem_append.mp hx with hx | hx
    · exact h.inside x (mem_append_left _ hx)
    rcases mem_cons.mp hx with rfl | hx
    · exact inside
    · exact h.inside x (mem_append_right _ hx)
  · obtain ⟨first, second, across⟩ := pairwise_append.mp h.apart
    rw [blocks']
    refine pairwise_append.mpr ⟨first, pairwise_cons.mpr ⟨fun y hy => ?_, second⟩,
      fun x hx y hy => ?_⟩
    · exact Or.symm (apart y (mem_append_right _ hy))
    · rcases mem_cons.mp hy with rfl | hy
      · exact apart x (mem_append_left _ hx)
      · exact across x hx y hy
  · rw [blocks', tile, ← h.tile, covers_append, covers_append, covers_cons]
    tauto
  · exact forall_mem_cons.mpr ⟨⟨start, bytes⟩, h.enough⟩

theorem tail (h : Ok base ⟨heap, b :: live, regions⟩ bs) (listed : Listed base heap bs) :
    Ok base ⟨heap, live, bs ++ blocks ⟨heap, live, []⟩⟩ bs := by
  have part : (bs ++ blocks ⟨heap, live, []⟩).Sublist (bs ++ blocks ⟨heap, b :: live, regions⟩) :=
    (List.Sublist.refl bs).append (sublist_cons_self _ _)
  exact ⟨h.bottom, h.room, .inr listed, fun x hx => h.inside x (part.subset hx),
    h.apart.sublist part, fun a => Iff.rfl, fun c hc => h.enough c (mem_cons_of_mem b hc)⟩

theorem perm {live live' regions : List (ℕ × ℕ)} (h : Ok base ⟨heap, live, regions⟩ bs)
    (perm : live'.Perm live) : Ok base ⟨heap, live', regions⟩ bs := by
  have perm' : (bs ++ blocks ⟨heap, live', regions⟩).Perm (bs ++ blocks ⟨heap, live, regions⟩) :=
    (List.Perm.refl bs).append (perm.map _)
  refine ⟨h.bottom, h.room, ?_, fun x hx => h.inside x (perm'.mem_iff.mp hx),
    (perm'.pairwise_iff fun {_ _} => Std.Symm.symm _ _).mpr h.apart, fun a => ?_,
    fun b hb => h.enough b (perm.mem_iff.mp hb)⟩
  · refine h.list.imp_left fun ⟨new, empty, none'⟩ => ⟨new, empty, ?_⟩
    exact perm_nil.mp (none' ▸ perm)
  · rw [← h.tile a]
    simp only [Covers, perm'.mem_iff]

/-! ## `malloc` -/

section

variable (h : Ok base s bs)
include h

theorem prepare_header (hy : y ∈ s.blocks) : (User.prepare base s.heap).mem y.1 = s.heap.mem y.1 := by
  refine mem_prepare (fun isBase => h.header_notMem hy ?_) s.heap
  rw [isBase]
  exact mem_cons_self

theorem grown_header (grown : Grown base s.heap bs nunits heap r)
    (hy : y ∈ s.blocks) : heap.mem y.1 = s.heap.mem y.1 := by
  refine grown.frame y.1 ?_ (h.header_notMem hy)
  obtain ⟨-, proper, high⟩ := h.inside y (mem_append_right _ hy)
  omega

theorem takes_header {q d : ℕ} (takes : Takes base s.heap bs nunits q d heap r)
    (proper : q < d) (hy : y ∈ s.blocks) : heap.mem y.1 = s.heap.mem y.1 := by
  refine takes.frame y.1 (fun isNew => ?_) (h.header_notMem hy)
  refine h.clear hy (le_refl _) (h.inside y (mem_append_right _ hy)).2.1 ?_
  rw [isNew]
  exact (takes.cut.covers proper).mpr (.inr ⟨le_refl _, proper⟩)

theorem prepare : Ok base { s with heap := User.prepare base s.heap } bs := by
  refine h.change (fun y hy => h.prepare_header hy) h.ready.prepare
    (le_of_eq (brk_prepare base s.heap).symm) (fun x hx => ?_) (fun y hy a => h.clear hy) h.tile
  rw [brk_prepare]
  exact h.inside x (mem_append_left _ hx)

theorem grown (listed : Listed base s.heap bs)
    (grown : Grown base s.heap bs nunits heap r) (small : HEADER * nunits.toNat < 2 ^ 31) :
    Ok base ⟨heap, s.live, (s.heap.brk, heap.brk) :: s.regions⟩ r := by
  have brk : heap.brk = s.heap.brk + HEADER * (coreUnits nunits).toNat :=
    grown.brk.trans (newBrk_of_small small)
  have core := toNat_coreUnits nunits
  have more : s.heap.brk < heap.brk := by
    simp only [HEADER] at brk
    omega
  have joined := grown.joined
  rw [← brk] at joined
  have covers : ∀ a, Covers r a ↔ Covers bs a ∨ (s.heap.brk ≤ a ∧ a < heap.brk) := fun a => by
    have := joined.covers (a := a) more (by rw [append_nil]; exact listed.list.sep.proper)
    rwa [append_nil] at this
  refine h.change (fun y hy => h.grown_header grown hy) grown.listed
    (le_of_lt more) (fun x hx => ?_) (fun y hy a lower upper => ?_) fun a => ?_
  · have proper := grown.listed.list.sep.proper x hx
    refine ⟨?_, proper, ?_⟩
    · rcases joined.start hx with isNew | ⟨z, hz, same⟩
      · rw [isNew]
        exact h.room
      · rw [← same]
        rw [append_nil] at hz
        exact (h.inside z (mem_append_left _ hz)).1
    · rcases (joined.last listed.list.sep.proper).2 x hx with old | isNew
      · have := (h.inside x (mem_append_left _ old)).2.2
        omega
      · exact le_of_eq isNew
  · rw [covers]
    rintro (old | ⟨beyond, -⟩)
    · exact h.clear hy lower upper old
    · have := (h.inside y (mem_append_right _ hy)).2.2
      omega
  · rw [covers_append, covers, covers_cons, ← h.tile, covers_append]
    tauto

theorem takes (listed : Listed base s.heap bs) {q d n : ℕ}
    (takes : Takes base s.heap bs nunits q d heap r) (pos : 0 < nunits.toNat)
    (bytes : n + HEADER ≤ HEADER * nunits.toNat) :
    Ok base ⟨heap, (q + HEADER, n) :: s.live, s.regions⟩ r := by
  have length := takes.length
  have proper : q < d := by
    simp only [HEADER] at length
    omega
  have covers : ∀ a, Covers bs a ↔ Covers r a ∨ (q ≤ a ∧ a < d) := fun a => takes.cut.covers proper
  have block : blockOf heap.mem (q + HEADER) = (q, d) := by
    rw [blockOf, Nat.add_sub_cancel, endOf, takes.size, length]
  obtain ⟨z, hz, lower, upper⟩ := (covers q).mpr (.inr ⟨le_refl _, proper⟩)
  have within := h.inside z (mem_append_left _ hz)
  have last : d ≤ s.heap.brk := by
    obtain ⟨x, hx, -, upper⟩ := (covers (d - 1)).mpr (.inr ⟨by omega, by omega⟩)
    have := (h.inside x (mem_append_left _ hx)).2.2
    omega
  have rest : Ok base ⟨heap, s.live, r ++ s.blocks⟩ r := by
    refine h.change (fun y hy => h.takes_header takes proper hy) takes.listed
      (le_of_eq takes.brk.symm) (fun x hx => ?_) (fun y hy a lower upper left => ?_)
      fun a => Iff.rfl
    · obtain ⟨x', hx', start, stop⟩ := takes.cut.part proper hx
      have := h.inside x' (mem_append_left _ hx')
      have := takes.listed.list.sep.proper x hx
      rw [takes.brk]
      omega
    · exact h.clear hy lower upper ((covers a).mpr (.inl left))
  have blocks' : blocks ⟨heap, s.live, r ++ s.blocks⟩ = s.blocks :=
    blocks_congr (fun y hy => h.takes_header takes proper hy) fun b hb => hb
  refine rest.cons takes.listed (Nat.le_add_left _ _) ?_ ?_ (fun a => ?_) ?_
  · rw [block]
    dsimp only
    refine ⟨by omega, proper, ?_⟩
    rwa [takes.brk]
  · rw [block, blocks']
    intro x hx
    rcases mem_append.mp hx with hx | hx
    · exact takes.cut.apart listed.list.sep x hx
    · refine ((forall_apart_iff ?_ proper).mpr ?_) x hx
      · exact fun y hy => (h.inside y (mem_append_right _ hy)).2.1
      · rintro a lower upper ⟨y, hy, lower', upper'⟩
        exact h.clear hy lower' upper' ((covers a).mpr (.inr ⟨lower, upper⟩))
  · rw [block, ← h.tile, covers_append, covers_append, covers]
    dsimp only
    tauto
  · rw [block]
    dsimp only
    omega

theorem regions_congr {regions : List (ℕ × ℕ)}
    (same : ∀ a, Covers regions a ↔ Covers s.regions a) : Ok base { s with regions } bs :=
  ⟨h.bottom, h.room, h.list, h.inside, h.apart, fun a => (h.tile a).trans (same a).symm, h.enough⟩

/-- `malloc` ends; it returns 0 if the kernel has refused to give memory, or a new live block. -/
theorem malloc_ends {nbytes : BitVec 32} (fits : Fits nbytes) (oks : List Bool) :
    ∃ heap res r, MallocEnds base s.heap nbytes oks heap res ∧
      (∀ y ∈ s.blocks, heap.mem y.1 = s.heap.mem y.1) ∧
      ((res = .zero ∧ oks.headD false = false ∧ Ok base { s with heap } r) ∨
        ∃ ap, res = .block ap ∧
          Ok base ⟨heap, (ap, nbytes.toNat) :: s.live, (s.heap.brk, heap.brk) :: s.regions⟩ r) := by
  have count := toNat_units nbytes
  have pos : 0 < (units nbytes).toNat := by
    rw [count]
    exact Nat.succ_pos _
  have bytes : nbytes.toNat + HEADER ≤ HEADER * (units nbytes).toNat := by
    simp only [HEADER] at count ⊢
    omega
  have idle : ∀ a, Covers ((s.heap.brk, s.heap.brk) :: s.regions) a ↔ Covers s.regions a := fun a => by
    rw [covers_cons]
    refine or_iff_right fun ⟨lower, upper⟩ => ?_
    exact Nat.not_le_of_lt upper lower
  have made := h.prepare
  have same : blocks { s with heap := User.prepare base s.heap } = s.blocks :=
    blocks_congr (fun y hy => h.prepare_header hy) fun b hb => hb
  obtain ⟨heap, res, r, result, served⟩ := h.ready.served nbytes oks
  refine ⟨heap, res, r, result, ?_⟩
  cases served with
  | @found x q heap r hx fits' takes =>
    have proper : q < x.2 := by
      have := takes.length
      simp only [HEADER] at this
      omega
    have brk := takes.brk
    rw [brk_prepare] at brk
    refine ⟨fun y hy => ?_, .inr ⟨_, rfl, ?_⟩⟩
    · rw [made.takes_header takes proper (same ▸ hy), h.prepare_header hy]
    · rw [brk]
      exact (made.takes h.ready.prepare takes pos bytes).regions_congr idle
  | refused full refuses =>
    exact ⟨fun y hy => h.prepare_header hy, .inl ⟨rfl, refuses.2, made⟩⟩
  | fault full gives pages =>
    have := le_pagesEnd (newBrk (User.prepare base s.heap) (units nbytes))
    have core := toNat_coreUnits (units nbytes)
    rw [newBrk_of_small fits] at *
    simp only [HEADER] at *
    omega
  | @grown q heap₁ heap r₁ r full gives grown takes =>
    have proper : q < (User.prepare base s.heap).brk + HEADER * (coreUnits (units nbytes)).toNat := by
      have := takes.length
      simp only [HEADER] at this ⊢
      omega
    have made' := made.grown h.ready.prepare grown fits
    have same' : blocks ⟨heap₁, s.live, ((User.prepare base s.heap).brk, heap₁.brk) :: s.regions⟩ =
        s.blocks :=
      (blocks_congr (fun y hy => made.grown_header grown hy) fun b hb => hb).trans same
    refine ⟨fun y hy => ?_, .inr ⟨_, rfl, ?_⟩⟩
    · rw [made'.takes_header takes proper (same' ▸ hy), made.grown_header grown (same ▸ hy),
        h.prepare_header hy]
    · have := made'.takes grown.listed takes pos bytes
      rwa [takes.brk, ← brk_prepare base s.heap]

/-! ## `free` and the rest -/

theorem listed_of_live (hb : b ∈ s.live) : Listed base s.heap bs := by
  rcases h.list with ⟨-, -, none'⟩ | listed
  · exact absurd hb (none' ▸ not_mem_nil)
  · exact listed

end

theorem free_head
    (h : Ok base ⟨heap, b :: live, regions⟩ bs)
    (bounded : ∀ c d, (∀ a, c ≤ a → a < d → Covers regions a ∧ ¬ Covers (blocks ⟨heap, live, []⟩) a) →
      d - c < 2 ^ 36) :
    ∃ heap' fuel r, free fuel heap b.1 = some heap' ∧ Ok base ⟨heap', live, regions⟩ r := by
  have listed : Listed base heap bs := h.listed_of_live mem_cons_self
  obtain ⟨start, -⟩ := h.enough b mem_cons_self
  have here : blockOf heap.mem b.1 ∈ blocks ⟨heap, b :: live, regions⟩ := mem_cons_self
  obtain ⟨low, proper, high⟩ := h.inside _ (mem_append_right bs here)
  obtain ⟨-, lives, across⟩ := pairwise_append.mp h.apart
  have others : ∀ y ∈ blocks ⟨heap, live, []⟩, Apart (blockOf heap.mem b.1) y :=
    (pairwise_cons.mp lives).1
  have rest := h.tail listed
  have whole : ∀ a, Covers regions a ↔ (Covers bs a ∨ ((blockOf heap.mem b.1).1 ≤ a ∧
      a < (blockOf heap.mem b.1).2)) ∨ Covers (blocks ⟨heap, live, []⟩) a := fun a => by
    rw [← h.tile, covers_append, or_assoc]
    exact or_congr_right covers_cons
  have size : endOf heap.mem (blockOf heap.mem b.1).1 = (blockOf heap.mem b.1).2 := rfl
  -- What is covered by the free blocks and this one is not live.
  have small : ∀ c d, c ≤ (blockOf heap.mem b.1).1 → (blockOf heap.mem b.1).2 ≤ d →
      (∀ a, c ≤ a → a < d → Covers bs a ∨ ((blockOf heap.mem b.1).1 ≤ a ∧
        a < (blockOf heap.mem b.1).2)) → d - c < HEADER * 2 ^ 32 := fun c d _ _ covered => by
    refine bounded c d fun a lower upper => ⟨(whole a).mpr (.inl (covered a lower upper)), ?_⟩
    rintro ⟨y, hy, lower', upper'⟩
    rcases covered a lower upper with old | ⟨lower'', upper''⟩
    · exact rest.clear hy lower' upper' old
    · rcases others y hy with before' | after <;> omega
  obtain ⟨mem', p, l₁, l₂, r, result, rfl, joined, list, node, frame⟩ :=
    listed.list.free_spec listed.node size (by simp only [HEADER] at low; omega) proper
      (fun x hx => across x hx _ here) small (Nat.lt_succ_self _)
  have covers := fun a => joined.covers (a := a) proper listed.list.sep.proper
  refine ⟨⟨mem', p, heap.brk⟩, (l₁ ++ l₂).length + 1, r, ?_, rest.change (fun y hy => ?_)
    ⟨list, node⟩ (le_refl _) (fun x hx => ?_) (fun y hy a lower upper => ?_) fun a => ?_⟩
  · rwa [blockOf, Nat.sub_add_cancel start] at result
  · refine frame y.1 (fun same => ?_) (rest.header_notMem hy)
    have order := (rest.inside y (mem_append_right _ hy)).2.1
    rcases others y hy with before' | after <;> omega
  · have order := list.sep.proper x hx
    refine ⟨?_, order, ?_⟩
    · rcases joined.start hx with isNew | ⟨z, hz, same⟩
      · rwa [isNew]
      · rw [← same]
        exact (h.inside z (mem_append_left _ hz)).1
    · rcases (covers (x.2 - 1)).mp ⟨x, hx, by omega, by omega⟩ with ⟨z, hz, -, upper⟩ | ⟨-, upper⟩
      · have := (h.inside z (mem_append_left _ hz)).2.2
        dsimp only at this ⊢
        omega
      · dsimp only at high ⊢
        omega
  · rw [covers]
    rintro (old | ⟨lower', upper'⟩)
    · exact rest.clear hy lower upper old
    · rcases others y hy with before' | after <;> omega
  · rw [whole, covers_append, covers]
    rfl

theorem free_ends (h : Ok base s bs) {i : ℕ} (hb : s.live[i]? = some b)
    (room : s.Room (.free i)) : ∃ heap fuel r, free fuel s.heap b.1 = some heap ∧
      Ok base { s with heap, live := s.live.eraseIdx i } r := by
  obtain ⟨inRange, rfl⟩ := List.getElem?_eq_some_iff.mp hb
  exact (h.perm (getElem_cons_eraseIdx_perm inRange)).free_head room

theorem raise (h : Ok base s bs) {brk : ℕ} (more : s.heap.brk ≤ brk) :
    Ok base { s with heap := { s.heap with brk } } bs :=
  ⟨h.bottom, h.room.trans more, h.list.imp_right fun listed => ⟨listed.list, listed.node⟩,
    fun x hx => (h.inside x hx).imp_right fun ⟨proper, high⟩ => ⟨proper, high.trans more⟩, h.apart,
    h.tile, h.enough⟩

theorem sbrk (h : Ok base s bs) (n : ℕ) (ok : Bool) :
    Ok base { s with heap := (User.sbrk s.heap n ok).2 } bs := by
  rw [User.sbrk]
  split_ifs
  · exact h
  · refine h.raise ?_
    rw [Task.sbrkSize, if_pos (by omega)]
    omega

theorem write (h : Ok base s bs) (hb : b ∈ s.live) {a : ℕ} (lower : b.1 ≤ a)
    (upper : a < b.1 + b.2) (header : Header) :
    Ok base { s with heap := { s.heap with mem := update s.heap.mem a header } } bs := by
  have listed := h.listed_of_live hb
  obtain ⟨start, bytes⟩ := h.enough b hb
  have here := mem_blocks hb
  have inside : (blockOf s.heap.mem b.1).1 + HEADER ≤ a ∧ a < (blockOf s.heap.mem b.1).2 := by
    refine ⟨?_, by omega⟩
    rw [blockOf, Nat.sub_add_cancel start]
    exact lower
  -- No header is there: the block has no other one, and no other block has this byte.
  have other : ∀ y ∈ s.blocks, y.1 ≠ a := fun y hy same => by
    by_cases own : y = blockOf s.heap.mem b.1
    · rw [own] at same
      simp only [HEADER] at inside
      omega
    · have order := (h.inside y (mem_append_right _ hy)).2.1
      have := (pairwise_append.mp h.apart).2.1.forall hy here own
      rw [Apart] at this
      omega
  have node : ∀ y ∈ nodes base bs, y ≠ a := fun y hy same => by
    subst same
    have low := (h.inside _ (mem_append_right _ here)).1
    rcases mem_cons.mp hy with isBase | isBlock
    · simp only [HEADER] at low inside
      omega
    · obtain ⟨x, hx, same⟩ := mem_map.mp isBlock
      have order := h.separated.proper x hx
      exact h.clear here (by omega) inside.2 ⟨x, hx, le_of_eq same, by omega⟩
  refine h.change (fun y hy => update_of_ne (other y hy) _ _) ⟨?_, listed.node⟩
    (le_refl _) (fun x hx => h.inside x (mem_append_left _ hx)) (fun y hy a => h.clear hy)
    h.tile
  refine listed.list.congr (fun y hy => ?_) fun y hy => ?_
  · exact congrArg Header.ptr (update_of_ne (node y hy) _ _)
  · exact congrArg Header.size (update_of_ne (node y hy) _ _)

end Ok

/-! ## Runs -/

theorem step_mono {fuel' : ℕ} {s' : Arena} (le : fuel ≤ fuel')
    (ended : step base fuel s action = some s') : step base fuel' s action = some s' := by
  cases action with
  | malloc nbytes oks =>
    rw [step] at ended ⊢
    cases result : malloc base fuel s.heap nbytes oks with
    | none =>
      rw [result] at ended
      exact absurd ended (Option.some_ne_none s').symm
    | some r =>
      rw [result] at ended
      rw [malloc_mono le result]
      exact ended
  | free i =>
    rw [step] at ended ⊢
    cases found : s.live[i]? with
    | none =>
      rw [found] at ended
      exact ended
    | some b =>
      rw [found] at ended
      obtain ⟨heap, freed, result⟩ := Option.map_eq_some_iff.mp ended
      exact Option.map_eq_some_iff.mpr ⟨heap, free_mono le freed, result⟩
  | sbrk => exact ended
  | write => exact ended

/-- The actions lead there. -/
def Reaches (base : ℕ) (s : Arena) (actions : List HeapAction) (s' : Arena) : Prop :=
  ∃ fuel, run base fuel s actions = some s'

theorem run_mono {fuel' : ℕ} {s' : Arena} (le : fuel ≤ fuel')
    (ended : run base fuel s actions = some s') : run base fuel' s actions = some s' := by
  induction actions generalizing s with
  | nil => exact ended
  | cons action actions ih =>
    rw [run, foldlM_cons] at ended ⊢
    obtain ⟨s₁, first, rest⟩ := Option.bind_eq_some_iff.mp ended
    exact Option.bind_eq_some_iff.mpr ⟨s₁, step_mono le first, ih rest⟩

theorem Reaches.unique {s₁ s₂ : Arena}
    (first : Reaches base s actions s₁) (second : Reaches base s actions s₂) : s₁ = s₂ := by
  obtain ⟨fuel₁, first⟩ := first
  obtain ⟨fuel₂, second⟩ := second
  have ended := run_mono (le_max_left fuel₁ fuel₂) first
  rw [run_mono (le_max_right fuel₁ fuel₂) second] at ended
  exact (Option.some.inj ended).symm

theorem Reaches.concat {s₁ s₂ : Arena} (first : Reaches base s actions s₁)
    (last : step base fuel s₁ action = some s₂) : Reaches base s (actions ++ [action]) s₂ := by
  obtain ⟨fuel₁, first⟩ := first
  refine ⟨max fuel₁ fuel, ?_⟩
  have first' := run_mono (le_max_left fuel₁ fuel) first
  rw [run] at first' ⊢
  rw [foldlM_append, first']
  refine Option.bind_eq_some_iff.mpr ⟨s₁, rfl, ?_⟩
  rw [foldlM_cons, step_mono (le_max_right fuel₁ fuel) last]
  rfl

theorem step_ok (h : Ok base s bs) (fits : action.Fits)
    (room : s.Room action) : ∃ s' fuel r, step base fuel s action = some s' ∧ Ok base s' r := by
  cases action with
  | malloc nbytes oks =>
    obtain ⟨heap, res, r, ⟨fuel, result⟩, -, ⟨rfl, -, ok⟩ | ⟨ap, rfl, ok⟩⟩ := h.malloc_ends fits oks
    · exact ⟨_, fuel, r, by rw [step, result], ok⟩
    · exact ⟨_, fuel, r, by rw [step, result], ok⟩
  | free i =>
    cases found : s.live[i]? with
    | none => exact ⟨s, 0, bs, by rw [step, found], h⟩
    | some b =>
      obtain ⟨heap, fuel, r, result, ok⟩ := h.free_ends found room
      refine ⟨_, fuel, r, ?_, ok⟩
      rw [step, found]
      dsimp only
      rw [result, Option.map_some]
  | sbrk n ok => exact ⟨_, 0, bs, rfl, h.sbrk n ok⟩
  | write a header =>
    by_cases inside : ∃ b ∈ s.live, b.1 ≤ a ∧ a < b.1 + b.2
    · obtain ⟨b, hb, lower, upper⟩ := inside
      exact ⟨_, 0, bs, if_pos ⟨b, hb, lower, upper⟩, h.write hb lower upper header⟩
    · exact ⟨s, 0, bs, if_neg inside, h⟩

/-- No block is live. -/
def init (heap : Heap) : Arena := ⟨heap, [], []⟩

theorem init_ok (bottom : 0 < base) (room : base + HEADER ≤ heap.brk)
    (fresh : heap.freep = 0) : Ok base (init heap) [] :=
  ⟨bottom, room, .inl ⟨fresh, rfl, rfl⟩, fun _ absent => absurd absent not_mem_nil, .nil,
    fun _ => Iff.rfl, fun _ absent => absurd absent not_mem_nil⟩

/-- No action of the program makes 64 GiB in a row free. -/
def Bounded (base : ℕ) (heap : Heap) (actions : List HeapAction) : Prop :=
  ∀ first action s, first ++ [action] <+: actions → Reaches base (init heap) first s → s.Room action

theorem run_ok (bottom : 0 < base) (room : base + HEADER ≤ heap.brk) (fresh : heap.freep = 0)
    (actions : List HeapAction) (fits : ∀ a ∈ actions, a.Fits) (bounded : Bounded base heap actions) :
    ∃ s bs, Reaches base (init heap) actions s ∧ Ok base s bs := by
  induction actions using List.reverseRecOn with
  | nil => exact ⟨_, [], ⟨0, rfl⟩, init_ok bottom room fresh⟩
  | append_singleton actions action ih =>
    have part : actions <+: actions ++ [action] := prefix_append _ _
    obtain ⟨s, bs, reached, ok⟩ := ih (fun a ha => fits a (part.subset ha))
      fun first action s earlier => bounded first action s (earlier.trans part)
    obtain ⟨s', fuel, r, result, ok'⟩ := step_ok ok (fits action (by simp))
      (bounded actions action s (prefix_refl _) reached)
    exact ⟨s', r, reached.concat result, ok'⟩

/-- The free blocks are in a circular list in the order of their addresses with gaps between them, and
they and the live blocks are the memory obtained from `sbrk`; every `malloc` ends, with 0 only if `sbrk`
has failed, or else with a block of enough bytes that is apart from the live blocks. -/
theorem heap_invariant (bottom : 0 < base) (room : base + HEADER ≤ heap.brk) (fresh : heap.freep = 0)
    (actions : List HeapAction) (fits : ∀ a ∈ actions, a.Fits) (bounded : Bounded base heap actions) :
    ∃ s bs, Reaches base (init heap) actions s ∧ Ok base s bs ∧
      ∀ nbytes oks, Fits nbytes → ∃ heap' res, MallocEnds base s.heap nbytes oks heap' res ∧
        ((res = .zero ∧ oks.headD false = false) ∨
          ∃ ap, res = .block ap ∧ ap + nbytes.toNat ≤ (blockOf heap'.mem ap).2 ∧
            ∀ y ∈ s.blocks, Apart y (blockOf heap'.mem ap)) := by
  obtain ⟨s, bs, reached, ok⟩ := run_ok bottom room fresh actions fits bounded
  refine ⟨s, bs, reached, ok, fun nbytes oks fits' => ?_⟩
  obtain ⟨heap', res, r, ended, same, served⟩ := ok.malloc_ends fits' oks
  refine ⟨heap', res, ended, ?_⟩
  rcases served with ⟨rfl, refused, -⟩ | ⟨ap, rfl, ok'⟩
  · exact .inl ⟨rfl, refused⟩
  · have blocks' : blocks ⟨heap', s.live, s.regions⟩ = s.blocks := Ok.blocks_congr same fun b hb => hb
    obtain ⟨apart, -⟩ := pairwise_cons.mp (pairwise_append.mp ok'.apart).2.1
    refine .inr ⟨ap, rfl, (ok'.enough _ mem_cons_self).2, fun y hy => ?_⟩
    rw [← blocks'] at hy
    exact Or.symm (apart y hy)

instance : DecidablePred HeapAction.Fits
  | .malloc nbytes _ => inferInstanceAs (Decidable (HEADER * (units nbytes).toNat < 2 ^ 31))
  | .free _ => isTrue trivial
  | .sbrk _ _ => isTrue trivial
  | .write _ _ => isTrue trivial

theorem room_of_total (small : total s.regions < 2 ^ 36) (action : HeapAction) : s.Room action := by
  cases action with
  | free i =>
    intro c d covered
    exact lt_of_le_of_lt (length_le_total fun a lower upper => (covered a lower upper).1) small
  | _ => trivial

theorem bounded_of_run (fuel : ℕ)
    (small : ∀ first ∈ actions.inits, (run base fuel (init heap) first).map
      (fun s => decide (total s.regions < 2 ^ 36)) = some true) : Bounded base heap actions := by
  intro first action s part reached
  have known : first ∈ actions.inits :=
    (mem_inits first actions).mpr ((prefix_append first [action]).trans part)
  obtain ⟨s', result, less⟩ := Option.map_eq_some_iff.mp (small first known)
  rw [reached.unique ⟨fuel, result⟩]
  exact room_of_total (of_decide_eq_true less) action

def smallProgram : List HeapAction :=
  [.malloc 100 [true], .malloc 200 [], .write 81600 ⟨7, 7⟩, .free 1, .sbrk 100 true,
    .malloc 70000 [true]]

theorem heap_invariant_small : (∀ a ∈ smallProgram, a.Fits) ∧
    Bounded 4112 (freshHeap 16384) smallProgram ∧
    ∃ s bs, Reaches 4112 (init (freshHeap 16384)) smallProgram s ∧ Ok 4112 s bs := by
  have fits : ∀ a ∈ smallProgram, a.Fits := by decide
  have bounded : Bounded 4112 (freshHeap 16384) smallProgram := bounded_of_run 8 (by decide)
  have room : 4112 + HEADER ≤ (freshHeap 16384).brk := by decide
  obtain ⟨s, bs, reached, ok, -⟩ := heap_invariant (by decide) room rfl smallProgram fits bounded
  exact ⟨fits, bounded, s, bs, reached, ok⟩

/-- The free list has one block, which ends before a byte that was obtained from `sbrk`, although the
program has no live block. -/
def hasLost (base p a : ℕ) (s : Arena) : Bool :=
  s.heap.freep ≠ 0 ∧ next s.heap.mem base = p ∧ next s.heap.mem p = base ∧ p ≠ base ∧ s.live = [] ∧
    endOf s.heap.mem p ≤ a ∧ ∃ x ∈ s.regions, x.1 ≤ a ∧ a < x.2

theorem not_ok_of_hasLost {p a : ℕ} (lost : hasLost base p a s = true) : ¬ Ok base s bs := by
  intro ok
  obtain ⟨made, first, second, other, none', short, owned⟩ := of_decide_eq_true lost
  obtain ⟨listed⟩ := ok.list.resolve_left fun ⟨new, _⟩ => made new
  have circle := listed.circle
  have covered := (ok.tile a).mpr owned
  rw [blocks, none', map_nil, append_nil] at covered
  match bs, circle, listed, covered with
  | [], circle, _, _ => exact other (first.symm.trans circle)
  | [x], ⟨start, _⟩, listed, ⟨y, hy, lower, upper⟩ =>
    obtain rfl := mem_singleton.mp hy
    rw [← listed.sizes y hy, ← start, first] at upper
    exact Nat.not_le_of_lt upper short
  | x :: y :: rest, ⟨start, next', _⟩, listed, _ =>
    rw [← start, first, second] at next'
    exact ne_of_lt (listed.above y (by simp)) next'

def largeProgram : List HeapAction :=
  List.replicate 33 (.malloc 2147483616 [true]) ++ List.replicate 33 (.free 0)

/-- Blocks of more than 64 GiB are joined to one whose number of units does not fit into its header. -/
theorem heap_invariant_fails : (∀ a ∈ largeProgram, a.Fits) ∧ ∃ s,
    Reaches 4112 (init (freshHeap 16384)) largeProgram s ∧ ∀ bs, ¬ Ok 4112 s bs := by
  constructor
  · set_option maxRecDepth 10000 in decide
  · have final : (run 4112 3 (init (freshHeap 16384)) largeProgram).map
        (hasLost 4112 16384 70866967000) = some true := by set_option maxRecDepth 10000 in decide
    obtain ⟨s, reached, lost⟩ := Option.map_eq_some_iff.mp final
    exact ⟨s, ⟨3, reached⟩, fun bs => not_ok_of_hasLost lost⟩

end Arena

end Xv6.User
