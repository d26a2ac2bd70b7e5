import Mathlib.Data.List.GetD
import Mathlib.Data.List.TakeWhile
import Mathlib.Order.Interval.Finset.Nat
import Xv6.Sys.Inodes

/-!
# Path resolution

The elements of a path, the walk through the directories that they name, and what `namex` finds for a
path in a file system that does not change meanwhile.
-/

namespace Xv6.Sys

open List KState Dent

open Fs (Name)

/-! ## The elements of a path -/

/-- The maximal parts of a path without slashes that are not empty. -/
def pathWords (path : Path) : List (List Byte) := (path.splitOn slash).filter (· ≠ [])

/-- The name of a part of a path: its first `DIRSIZ` bytes. -/
def elementName (word : List Byte) : Name := .ofChars (word.take DIRSIZ)

/-- The elements that repeated calls of `skipelem` find; `k` bounds their number. -/
def skipelems : ℕ → Path → List Name
  | 0, _ => []
  | k + 1, path =>
      match skipelem path with
      | none => []
      | some (name, rest) => name :: skipelems k rest

section Words

variable {path rest : Path} {word : List Byte}

theorem pathWords_cons (plain : ∀ c ∈ word, c ≠ slash) (rest : Path) :
    pathWords (word ++ slash :: rest) = if word = [] then pathWords rest
      else word :: pathWords rest := by
  have split := splitOnP_append_cons_of_forall_mem (p := (· == slash)) (by simpa using plain)
    slash (by simp) rest
  rw [pathWords, List.splitOn, split, filter_cons]
  by_cases empty : word = []
  · rw [if_pos empty, if_neg (by simpa using empty)]
    rfl
  · rw [if_neg empty, if_pos (by simpa using empty)]
    rfl

theorem pathWords_slash (path : Path) : pathWords (slash :: path) = pathWords path := by
  have plain (c : Byte) (mem : c ∈ ([] : Path)) : c ≠ slash := absurd mem not_mem_nil
  have split := pathWords_cons plain path
  rwa [nil_append, if_pos rfl] at split

theorem pathWords_drop (path : Path) : pathWords (path.dropWhile (· = slash)) = pathWords path := by
  induction path with
  | nil => rfl
  | cons c path ih =>
    by_cases here : c = slash
    · subst here
      rw [dropWhile_cons_of_pos (by simp), ih, pathWords_slash]
    · rw [dropWhile_cons_of_neg (by simpa using here)]

theorem pathWords_first (nonempty : path ≠ []) (front : path.head? ≠ some slash) :
    path.takeWhile (· ≠ slash) ≠ [] ∧
      pathWords path = path.takeWhile (· ≠ slash) :: pathWords (path.dropWhile (· ≠ slash)) := by
  have plain : ∀ c ∈ path.takeWhile (· ≠ slash), c ≠ slash := by
    intro c hc
    simpa using mem_takeWhile_imp hc
  have first : path.takeWhile (· ≠ slash) ≠ [] := by
    cases path with
    | nil => exact absurd rfl nonempty
    | cons c path =>
      have here : c ≠ slash := by simpa using front
      rw [takeWhile_cons_of_pos (by simpa using here)]
      nofun
  refine ⟨first, ?_⟩
  have whole := takeWhile_append_dropWhile (p := (· ≠ slash)) (l := path)
  cases hrest : path.dropWhile (· ≠ slash) with
  | nil =>
    rw [hrest, append_nil] at whole
    nth_rewrite 1 [← whole]
    rw [pathWords, List.splitOn, splitOnP_eq_singleton (by simpa using plain),
      filter_cons_of_pos (by simpa using first), filter_nil]
    rfl
  | cons c rest =>
    have here : c = slash := by
      have := head?_dropWhile_not (· ≠ slash) path
      rw [hrest] at this
      simpa using this
    subst here
    rw [hrest] at whole
    nth_rewrite 1 [← whole]
    rw [pathWords_cons plain, if_neg first, pathWords_slash]

theorem head_drop (path : Path) : (path.dropWhile (· = slash)).head? ≠ some slash := by
  intro front
  have := head?_dropWhile_not (· = slash) path
  rw [front] at this
  simp at this

theorem skipelem_words (path : Path) :
    (skipelem path = none ∧ pathWords path = []) ∨
    ∃ word rest, skipelem path = some (elementName word, rest) ∧
      pathWords path = word :: pathWords rest ∧ rest.length < path.length ∧
      (rest = [] ↔ pathWords rest = []) := by
  rw [skipelem, ← pathWords_drop path]
  have shorter := length_dropWhile_le (· = slash) path
  generalize hp : path.dropWhile (· = slash) = start at shorter ⊢
  by_cases empty : start = []
  · subst empty
    exact .inl ⟨if_pos rfl, rfl⟩
  have front := head_drop path
  rw [hp] at front
  obtain ⟨first, words⟩ := pathWords_first empty front
  refine .inr ⟨start.takeWhile (· ≠ slash), (start.dropWhile (· ≠ slash)).dropWhile (· = slash),
    if_neg empty, ?_, ?_, ?_⟩
  · rw [words, pathWords_drop]
  · have split := congrArg List.length
      (takeWhile_append_dropWhile (p := (· ≠ slash)) (l := start))
    have pos := length_pos_iff.mpr first
    have := length_dropWhile_le (· = slash) (start.dropWhile (· ≠ slash))
    rw [length_append] at split
    omega
  · refine ⟨fun done => by rw [done]; rfl, fun none => ?_⟩
    by_contra more
    have := pathWords_first more (head_drop _)
    rw [none] at this
    cases this.2

theorem skipelems_eq {k : ℕ} (enough : path.length ≤ k) :
    skipelems k path = (pathWords path).map elementName := by
  induction k generalizing path with
  | zero =>
    obtain rfl := length_eq_zero_iff.mp (Nat.le_zero.mp enough)
    rfl
  | succ k ih =>
    rw [skipelems]
    rcases skipelem_words path with ⟨skip, words⟩ | ⟨word, rest, skip, words, shorter, -⟩
    · rw [skip, words]
      rfl
    · rw [skip, words, map_cons, ← ih (by omega)]

end Words

/-! ## Walking through directories -/

/-- The inode number that a directory has for a name. -/
def entryInum (dents : List Dent) (name : Name) : Option ℕ :=
  (DiskOp.find dents name).map fun k => (dents.map inum).getD k 0

/-- One step of a walk; it fails if there is no directory or no entry. -/
def descend (disk : ℕ → Dinode) (x : ℕ) (name : Name) : Option ℕ :=
  if (disk x).attr.type = T_DIR then entryInum (disk x).dents name else none

/-- The inode that the names lead to from `x`. -/
def resolve (disk : ℕ → Dinode) (x : ℕ) (names : List Name) : Option ℕ :=
  names.foldlM (descend disk) x

/-- The directory of the last name of a list, with that name. -/
def resolveParent (disk : ℕ → Dinode) (x : ℕ) (names : List Name) : Option (ℕ × Name) :=
  names.getLast?.bind fun last => (resolve disk x names.dropLast).bind fun y =>
    if (disk y).attr.type = T_DIR then some (y, last) else none

def found (disk : ℕ → Dinode) (parent : Bool) : ℕ → List Name → Option (ℕ × Name)
  | x, [] => if parent then none else some (x, fun _ => 0)
  | x, name :: names =>
      if (disk x).attr.type ≠ T_DIR then none
      else if parent = true ∧ names = [] then some (x, name)
      else (entryInum (disk x).dents name).bind fun y => found disk parent y names

theorem found_namei (disk : ℕ → Dinode) (x : ℕ) (names : List Name) :
    found disk false x names = (resolve disk x names).map fun y => (y, fun _ => 0) := by
  induction names generalizing x with
  | nil => rfl
  | cons name names ih =>
    rw [found, resolve, foldlM_cons, descend]
    by_cases dir : (disk x).attr.type = T_DIR
    · rw [if_neg (not_not.mpr dir), if_neg (by simp), if_pos dir]
      cases entryInum (disk x).dents name with
      | none => rfl
      | some y => exact ih y
    · rw [if_pos dir, if_neg dir]
      rfl

theorem found_nameiparent (disk : ℕ → Dinode) (x : ℕ) (names : List Name) :
    found disk true x names = resolveParent disk x names := by
  induction names generalizing x with
  | nil => rfl
  | cons name names ih =>
    rw [found]
    by_cases last : names = []
    · subst last
      by_cases dir : (disk x).attr.type = T_DIR
      · rw [if_neg (not_not.mpr dir), if_pos ⟨rfl, rfl⟩]
        simp [resolveParent, resolve, dir]
      · rw [if_pos dir]
        simpa [resolveParent, resolve] using dir
    · have tail : (name :: names).getLast? = names.getLast? := getLast?_cons_of_ne_nil last
      rw [resolveParent, tail, dropLast_cons_of_ne_nil last, resolve, foldlM_cons, descend]
      by_cases dir : (disk x).attr.type = T_DIR
      · rw [if_neg (not_not.mpr dir), if_neg (by simp [last]), if_pos dir]
        cases entryInum (disk x).dents name with
        | none => simp
        | some y => exact ih y
      · rw [if_pos dir, if_neg dir]
        simp

/-! ## Room in the inode table -/

def KState.freeSlots (s : KState) : ℕ :=
  ((Finset.range NINODE).filter fun i => (s.itable i).ref = 0).card

/-- There is a slot for inode `y` while inode `x` is referenced too. -/
def HasRoom (s : KState) (x y : ℕ) : Prop :=
  s.cached ROOTDEV y ≠ none ∨ y = x ∨
    (if s.cached ROOTDEV x = none then 2 else 1) ≤ s.freeSlots

/-- The walk can go on: every inode that it locks is in use on disk, and there is a slot for every
inode that it comes to. -/
def Room (s : KState) (parent : Bool) : ℕ → List Name → Prop
  | _, [] => True
  | x, name :: names => (s.disk x).attr.type ≠ 0 ∧ (parent = true ∧ names = [] ∨
      ∀ y, descend s.disk x name = some y → HasRoom s x y ∧ Room s parent y names)

section Walk

variable {p i x y : ℕ} {s₀ s : KState} {e : ℕ → ℕ}

theorem Kept.free_iff {locked : Option ℕ} (kept : Kept p s₀ s e locked)
    (mine : ∀ k, e k = if k = i then 1 else 0) (hi : i < NINODE) (here : (s.itable i).inum = x) :
    s.freeSlot ≠ none ↔ (if s₀.cached ROOTDEV x = none then 2 else 1) ≤ s₀.freeSlots := by
  have count (k : ℕ) (hk : k < NINODE) :
      (s.itable k).ref = 0 ↔ (s₀.itable k).ref = 0 ∧ k ≠ i := by
    rw [kept.ref k hk, mine k]
    by_cases ki : k = i
    · simp [ki]
    · simp [ki]
  have used : 0 < (s.itable i).ref := by
    rw [kept.ref i hi, mine i, if_pos rfl]
    omega
  -- the slot of `x` is a new one if `x` was not in the table
  have fresh : s₀.cached ROOTDEV x = none ↔ (s₀.itable i).ref = 0 := by
    refine not_iff_not.mp (kept.base.cached_iff.trans ⟨?_, ?_⟩)
    · rintro ⟨k, hk, ref, same⟩
      have : k = i := by
        refine kept.ok.unique k hk i hi (by rw [kept.ref k hk]; omega) used ?_
        rw [kept.inum k hk ref, same, here]
      subst this
      omega
    · intro ref
      exact ⟨i, hi, by omega, by rw [← kept.inum i hi (by omega), here]⟩
  have free : s.freeSlot ≠ none ↔
      ∃ k ∈ (Finset.range NINODE).filter (fun k => (s₀.itable k).ref = 0), k ≠ i := by
    rw [freeSlot_iff]
    constructor
    · rintro ⟨k, hk, zero⟩
      obtain ⟨zero, ne⟩ := (count k hk).mp zero
      exact ⟨k, Finset.mem_filter.mpr ⟨Finset.mem_range.mpr hk, zero⟩, ne⟩
    · rintro ⟨k, mem, ne⟩
      obtain ⟨hk, zero⟩ := Finset.mem_filter.mp mem
      have hk := Finset.mem_range.mp hk
      exact ⟨k, hk, (count k hk).mpr ⟨zero, ne⟩⟩
  rw [free, freeSlots]
  by_cases new : (s₀.itable i).ref = 0
  · have mem : i ∈ (Finset.range NINODE).filter (fun k => (s₀.itable k).ref = 0) :=
      Finset.mem_filter.mpr ⟨Finset.mem_range.mpr hi, new⟩
    rw [if_pos (fresh.mpr new)]
    constructor
    · rintro ⟨k, there, ne⟩
      exact Finset.one_lt_card.mpr ⟨k, there, i, mem, ne⟩
    · intro two
      exact Finset.exists_mem_ne two i
  · rw [if_neg fun absent => new (fresh.mp absent), Nat.succ_le_iff, Finset.card_pos]
    constructor
    · rintro ⟨k, there, -⟩
      exact ⟨k, there⟩
    · rintro ⟨k, there⟩
      refine ⟨k, there, ?_⟩
      rintro rfl
      exact new (Finset.mem_filter.mp there).2

theorem Kept.hasRoom_iff {locked : Option ℕ} (kept : Kept p s₀ s e locked)
    (mine : ∀ k, e k = if k = i then 1 else 0) (hi : i < NINODE) (here : (s.itable i).inum = x) :
    HasRoom s₀ x y ↔ (s.cached ROOTDEV y = none → s.freeSlot ≠ none) := by
  have there : s.cached ROOTDEV y ≠ none ↔ s₀.cached ROOTDEV y ≠ none ∨ y = x := by
    rw [kept.ok.cached_iff, kept.base.cached_iff]
    constructor
    · rintro ⟨k, hk, ref, rfl⟩
      by_cases ki : k = i
      · exact .inr (by rw [ki, here])
      · rw [kept.ref k hk, mine k, if_neg ki, add_zero] at ref
        exact .inl ⟨k, hk, ref, (kept.inum k hk ref).symm⟩
    · rintro (⟨k, hk, ref, rfl⟩ | rfl)
      · exact ⟨k, hk, by rw [kept.ref k hk]; omega, kept.inum k hk ref⟩
      · exact ⟨i, hi, by rw [kept.ref i hi, mine i, if_pos rfl]; omega, here⟩
  rw [HasRoom, ← kept.free_iff mine hi here, ← or_assoc, ← there, imp_iff_not_or]

/-- An entry of a directory leads to an inode that has links or is referenced, or to a free one: the
entry `..` of a removed directory that is still in use may be left behind. -/
structure DirsOk (s : KState) : Prop where
  root : (s.disk ROOTINO).attr.nlink ≠ 0
  entry : ∀ x, (s.disk x).attr.type = T_DIR → ∀ d ∈ (s.disk x).dents, d.inum ≠ 0 →
    (s.disk d.inum).attr.type = 0 ∨ s.cached ROOTDEV d.inum ≠ none ∨ (s.disk d.inum).attr.nlink ≠ 0

theorem DirsOk.stays {j : ℕ} {locked : Option ℕ} (dirs : DirsOk s₀) (kept : Kept p s₀ s e locked)
    (hj : j < NINODE) (ref : 0 < (s.itable j).ref) (there : (s.itable j).inum = y) {d : Dent}
    (dir : (s₀.disk x).attr.type = T_DIR) (mem : d ∈ (s₀.disk x).dents) (same : d.inum = y)
    (nonzero : y ≠ 0) : Stays s₀ j y := by
  subst same
  rcases dirs.entry x dir d mem nonzero with free | used | linked
  · exact .inl free
  · obtain ⟨k, hk, refk, here⟩ := kept.base.cached_iff.mp used
    have slot : k = j := by
      refine kept.ok.unique k hk j hj (by rw [kept.ref k hk]; omega) ref ?_
      rw [kept.inum k hk refk, here, there]
    exact .inr (.inl (slot ▸ refk))
  · exact .inr (.inr linked)

theorem entryInum_mem {dents : List Dent} {name : Name} (there : entryInum dents name = some y) :
    ∃ d ∈ dents, d.inum = y ∧ y ≠ 0 := by
  obtain ⟨k, hk, rfl⟩ := Option.map_eq_some_iff.mp there
  obtain ⟨lt, test, -⟩ := findIdx?_eq_some_iff_getElem.mp hk
  have get : (dents.map inum).getD k 0 = (dents.get ⟨k, lt⟩).inum := by
    rw [getD_eq_getElem _ _ (by rwa [length_map]), getElem_map]
    rfl
  rw [get]
  refine ⟨_, get_mem dents ⟨k, lt⟩, rfl, ?_⟩
  simp only [Bool.and_eq_true, decide_eq_true_eq] at test
  exact test.1

/-- The outcome of a walk: a reference to what has been found, which can be dropped again, and no other
change. -/
def Walked (p : ℕ) (s₀ : KState) (goal : Option (ℕ × Name)) (r : Option (ℕ × Name)) (s : KState) :
    Prop :=
  match goal with
  | none => r = none ∧ Kept p s₀ s (fun _ => 0) none
  | some (y, name) => ∃ j < NINODE, r = some (j, name) ∧
      Kept p s₀ s (more (fun _ => 0) j) none ∧ (s.itable j).inum = y ∧ Stays s₀ j y

/-- The program ends as a walk should, or panics because the inode table is full or the walk has come
to a free inode. -/
abbrev Walks (p : ℕ) (s₀ : KState) (room : Prop) (goal : Option (ℕ × Name))
    (x : KProg (Option (ℕ × Name))) (s : KState) : Prop :=
  x.Total (exec p) (fun err => (err = .igetNoInodes ∨ err = .ilockNoType) ∧ ¬room)
    (fun _ => True) s
    fun r s' => room ∧ Walked p s₀ goal r s'

theorem one_more (j k : ℕ) : more (fun _ => 0) j k = if k = j then 1 else 0 := by
  simp only [more, Function.update_apply, zero_add]

theorem iunlockput_total {A : Panic → Prop} (kept : Kept p s₀ s (more e i) (some i)) (hi : i < NINODE)
    (stays : Stays s₀ i (s.itable i).inum) :
    (iunlockput i).Total (exec p) A (fun _ => True) s fun _ s' =>
      Kept p s₀ s' e none ∧ ∀ k, (s'.itable k).inum = (s.itable k).inum := by
  have ref : 0 < (s.itable i).ref := by
    rw [kept.ref i hi, more_self]
    omega
  refine ((iunlock_total kept hi ref).mono ?_).bind
  rintro _ s₁ ⟨kept₁, same₁⟩
  refine (iput_total kept₁ hi (by rw [more_self]; omega) ?_).mono ?_
  · rwa [(same₁ i).1]
  · rintro _ s₂ ⟨kept₂, same₂⟩
    rw [less_more] at kept₂
    exact ⟨kept₂, fun k => (same₂ k).trans (same₁ k).1⟩

theorem dirlookup_total (kept : Kept p s₀ s (more (fun _ => 0) i) (some i)) (hi : i < NINODE)
    (here : (s.itable i).inum = x) (attr : (s.itable i).attr = (s₀.disk x).attr)
    (dir : (s₀.disk x).attr.type = T_DIR) (name : Name) :
    (dirlookup i name).Total (exec p)
      (fun err => err = .igetNoInodes ∧
        ∃ y, entryInum (s₀.disk x).dents name = some y ∧ ¬HasRoom s₀ x y)
      (fun _ => True) s fun r s' => (s'.itable i).inum = x ∧
        match entryInum (s₀.disk x).dents name with
        | none => r = none ∧ s' = s
        | some y => HasRoom s₀ x y ∧ ∃ j off, r = some (j, off) ∧ j < NINODE ∧
            Kept p s₀ s' (more (more (fun _ => 0) i) j) (some i) ∧ (s'.itable j).inum = y := by
  have ref : 0 < (s.itable i).ref := by
    rw [kept.ref i hi, more_self]
    omega
  have look : exec p (.disk (.lookup i name)) s =
      .ok ((DiskOp.find (s₀.disk x).dents name).map fun k =>
        ((((s₀.disk x).dents).map inum).getD k 0, k), s) := by
    simp only [exec, DiskOp.exec, DiskOp.dents]
    rw [if_pos (by rw [attr, dir]), here, kept.disk]
  refine (atomic_total look ?_).bind
  cases hk : DiskOp.find (s₀.disk x).dents name with
  | none =>
    have absent : entryInum (s₀.disk x).dents name = none := by rw [entryInum, hk, Option.map_none]
    rw [absent]
    exact ⟨trivial, here, rfl, rfl⟩
  | some k =>
    have there : entryInum (s₀.disk x).dents name =
        some ((((s₀.disk x).dents).map inum).getD k 0) := by rw [entryInum, hk, Option.map_some]
    rw [Option.map_some]
    generalize (((s₀.disk x).dents).map inum).getD k 0 = y at there ⊢
    have room := kept.hasRoom_iff (y := y) (one_more i) hi here
    rw [there]
    have get : exec p (.disk (.get i)) s = .ok (s.itable i, s) := rfl
    refine (atomic_total get ?_).bind
    rw [kept.ok.dev i hi ref]
    refine (((iget_total kept).weaken ?_ fun _ _ => trivial).mono ?_).bind
    · rintro err ⟨rfl, absent, full⟩
      exact ⟨rfl, y, rfl, fun has => room.mp has absent full⟩
    · rintro j s' ⟨free, hj, kept', same, others⟩
      exact ⟨trivial, (others i ref).trans here, room.mpr free, j, k, rfl, hj, kept', same⟩

theorem namexFrom_total (parent : Bool) (k : ℕ) (path : Path) (enough : path.length < k)
    (dirs : DirsOk s₀) (kept : Kept p s₀ s (more (fun _ => 0) i) none) (hi : i < NINODE)
    (here : (s.itable i).inum = x) (stays : Stays s₀ i x) :
    Walks p s₀ (Room s₀ parent x ((pathWords path).map elementName))
      (found s₀.disk parent x ((pathWords path).map elementName)) (namexFrom parent k i path) s := by
  induction k generalizing path s i x with
  | zero => omega
  | succ k ih =>
    have ref : 0 < (s.itable i).ref := by
      rw [kept.ref i hi, more_self]
      omega
    rw [namexFrom]
    rcases skipelem_words path with ⟨skip, words⟩ | ⟨word, rest, skip, words, shorter, end_iff⟩
    · rw [skip, words]
      cases parent with
      | false => exact ⟨trivial, trivial, i, hi, rfl, kept, here, stays⟩
      | true =>
        refine ((iput_total kept hi (by rw [more_self]; omega) (by rwa [here])).mono ?_).bind
        rintro _ s' ⟨kept', -⟩
        rw [less_more] at kept'
        exact ⟨trivial, trivial, rfl, kept'⟩
    rw [skip, words, map_cons]
    by_cases free : (s₀.disk x).attr.type = 0
    · refine ((ilock_free kept hi ref (by rwa [here])).weaken ?_ fun _ _ => trivial).bind
      rintro err rfl
      exact ⟨.inr rfl, fun room => room.1 free⟩
    refine ((ilock_total kept hi ref (by rwa [here])).mono ?_).bind
    rintro _ s₁ ⟨kept₁, same₁, ref₁, attr₁⟩
    rw [here] at same₁ attr₁
    have get : exec p (.disk (.get i)) s₁ = .ok (s₁.itable i, s₁) := rfl
    refine (atomic_total get ?_).bind
    rw [attr₁, found]
    by_cases dir : (s₀.disk x).attr.type = T_DIR
    swap
    · -- not a directory
      rw [if_pos dir, if_pos dir]
      refine ((iunlockput_total kept₁ hi (by rwa [same₁])).mono ?_).bind
      rintro _ s₂ ⟨kept₂, -⟩
      refine ⟨trivial, ⟨free, .inr fun y step => ?_⟩, rfl, kept₂⟩
      rw [descend, if_neg dir] at step
      cases step
    rw [if_neg (not_not.mpr dir), if_neg (not_not.mpr dir)]
    have last_iff : (parent = true ∧ rest = []) ↔
        parent = true ∧ (pathWords rest).map elementName = [] := by
      rw [map_eq_nil_iff, end_iff]
    by_cases last : parent = true ∧ rest = []
    · -- stop one level early
      rw [if_pos last, if_pos (last_iff.mp last)]
      refine ((iunlock_total kept₁ hi (by omega)).mono ?_).bind
      rintro _ s₂ ⟨kept₂, same₂⟩
      exact ⟨trivial, ⟨free, .inl (last_iff.mp last)⟩, i, hi, rfl, kept₂, (same₂ i).1.trans same₁,
        stays⟩
    rw [if_neg last, if_neg fun names => last (last_iff.mpr names)]
    have look := dirlookup_total kept₁ hi same₁ attr₁ dir (elementName word)
    cases hy : entryInum (s₀.disk x).dents (elementName word) with
    | none =>
      rw [hy] at look
      refine ((look.weaken ?_ fun _ _ => trivial).mono ?_).bind
      · rintro err ⟨-, y, impossible, -⟩
        cases impossible
      · rintro _ _ ⟨-, rfl, rfl⟩
        refine ((iunlockput_total kept₁ hi (by rwa [same₁])).mono ?_).bind
        rintro _ s₂ ⟨kept₂, -⟩
        refine ⟨trivial, ⟨free, .inr fun y step => ?_⟩, rfl, kept₂⟩
        rw [descend, if_pos dir, hy] at step
        cases step
    | some y =>
      rw [hy] at look
      have step : descend s₀.disk x (elementName word) = some y := by rw [descend, if_pos dir, hy]
      have room_iff : Room s₀ parent x (elementName word :: (pathWords rest).map elementName) ↔
          HasRoom s₀ x y ∧ Room s₀ parent y ((pathWords rest).map elementName) := by
        rw [Room, and_iff_right free, or_iff_right fun names => last (last_iff.mpr names), step]
        exact ⟨fun all => all y rfl, fun both y' same => Option.some.inj same ▸ both⟩
      obtain ⟨d, mem, same, nonzero⟩ := entryInum_mem hy
      rw [Option.bind_some, room_iff]
      refine ((look.weaken ?_ fun _ _ => trivial).mono ?_).bind
      · rintro err ⟨full, y', same', none_free⟩
        exact ⟨.inl full, fun both => none_free (Option.some.inj same' ▸ both.1)⟩
      · rintro _ s₂ ⟨same₂, room, j, off, rfl, hj, kept₂, there⟩
        rw [more_comm] at kept₂
        refine ((iunlockput_total kept₂ hi (by rwa [same₂])).mono ?_).bind
        rintro _ s₃ ⟨kept₃, same₃⟩
        have there₃ := (same₃ j).trans there
        have ref₃ : 0 < (s₃.itable j).ref := by
          rw [kept₃.ref j hj, more_self]
          omega
        have next := ih rest (by omega) kept₃ hj there₃
          (dirs.stays kept₃ hj ref₃ there₃ dir mem same nonzero)
        refine (next.weaken ?_ fun _ _ => trivial).mono ?_
        · rintro err ⟨full, none_free⟩
          exact ⟨full, fun both => none_free both.2⟩
        · rintro r s' ⟨more_room, walked⟩
          exact ⟨⟨room, more_room⟩, walked⟩

/-- Where `namex` starts. -/
def startInum (p : ℕ) (s : KState) (path : Path) : ℕ :=
  if path.head? = some slash then ROOTINO else (s.itable ((s.procs p).cwd.getD 0)).inum

/-- There is a slot for every inode that `namex` comes to, and every inode that it locks is in use. -/
def NamexRoom (p : ℕ) (s : KState) (path : Path) (parent : Bool) : Prop :=
  (path.head? = some slash → s.cached ROOTDEV ROOTINO = none → s.freeSlot ≠ none) ∧
    Room s parent (startInum p s path) ((pathWords path).map elementName)

/-- The process has a current directory. -/
def CwdOk (p : ℕ) (s : KState) : Prop :=
  ∃ c < NINODE, (s.procs p).cwd = some c ∧ 0 < (s.itable c).ref

theorem namex_total (ok : InodesOk p s none) (dirs : DirsOk s) (cwd : CwdOk p s) (path : Path)
    (parent : Bool) :
    Walks p s (NamexRoom p s path parent)
      (found s.disk parent (startInum p s path) ((pathWords path).map elementName))
      (namex path parent) s := by
  rw [namex, namexStart, NamexRoom, startInum]
  by_cases absolute : path.head? = some slash
  · rw [if_pos absolute, if_pos absolute]
    refine (((iget_total (.refl ok)).weaken ?_ fun _ _ => trivial).mono ?_).bind
    · rintro err ⟨rfl, absent, full⟩
      exact ⟨.inl rfl, fun room => room.1 absolute absent full⟩
    · rintro j s' ⟨free, hj, kept, here, -⟩
      have walk := namexFrom_total parent _ path (Nat.lt_succ_self path.length) dirs kept hj here
        (.inr (.inr dirs.root))
      refine (walk.weaken ?_ fun _ _ => trivial).mono ?_
      · rintro err ⟨full, none_free⟩
        exact ⟨full, fun room => none_free room.2⟩
      · rintro r s' ⟨room, walked⟩
        exact ⟨⟨fun _ => free, room⟩, walked⟩
  · obtain ⟨c, hc, mine, ref⟩ := cwd
    rw [if_neg absolute, if_neg absolute, mine, Option.getD_some]
    have dup : exec p .idupCwd s =
        .ok (c, s.setSlot c { s.itable c with ref := (s.itable c).ref + 1 }) := by
      simp only [exec, mine]
    refine (atomic_total dup ?_).bind
    have here : ((s.setSlot c { s.itable c with ref := (s.itable c).ref + 1 }).itable c).inum =
        (s.itable c).inum := by simp only [setSlot, Function.update_self]
    have walk := namexFrom_total parent _ path (Nat.lt_succ_self path.length) dirs
      ((Kept.refl ok).refer hc ref) hc here (.inr (.inl ref))
    refine (walk.weaken ?_ fun _ _ => trivial).mono ?_
    · rintro err ⟨full, none_free⟩
      exact ⟨full, fun room => none_free room.2⟩
    · rintro r s' ⟨room, walked⟩
      exact ⟨⟨fun yes => absurd yes absolute, room⟩, walked⟩

def KState.begun (s : KState) : KState := { s with outstanding := s.outstanding + 1 }

theorem InodesOk.begun (ok : InodesOk p s none) : InodesOk p s.begun none :=
  ⟨ok.unique, ok.dev, ok.fresh, ok.live, ok.lock⟩

theorem Kept.ended (kept : Kept p s₀.begun s e none) (base : InodesOk p s₀ none) :
    Kept p s₀ { s with outstanding := s.outstanding - 1 } e none := by
  obtain ⟨-, rest, ref, inum, ok⟩ := kept
  refine ⟨base, ?_, ref, inum, ⟨ok.unique, ok.dev, ok.fresh, ok.live, ok.lock⟩⟩
  rw [rest]
  rfl

theorem namexRoom_begun (path : Path) (parent : Bool) :
    NamexRoom p s.begun path parent ↔ NamexRoom p s path parent := by
  have rooms (names : List Name) (x : ℕ) : Room s.begun parent x names ↔ Room s parent x names := by
    induction names generalizing x with
    | nil => exact Iff.rfl
    | cons name names ih =>
      rw [Room, Room]
      simp only [ih]
      rfl
  rw [NamexRoom, NamexRoom, rooms]
  rfl

theorem resolve_parent (disk : ℕ → Dinode) (x : ℕ) {names : List Name} (some_name : names ≠ []) :
    resolve disk x names =
      (resolveParent disk x names).bind fun d => entryInum (disk d.1).dents d.2 := by
  obtain ⟨front, last, rfl⟩ := (eq_nil_or_concat names).resolve_left some_name
  rw [concat_eq_append, resolveParent, getLast?_concat, dropLast_concat, Option.bind_some,
    resolve, foldlM_append]
  show (resolve disk x front).bind _ = ((resolve disk x front).bind _).bind _
  cases resolve disk x front with
  | none => rfl
  | some y =>
    rw [Option.bind_some, Option.bind_some, foldlM_cons, descend]
    by_cases dir : (disk y).attr.type = T_DIR
    · rw [if_pos dir, if_pos dir, Option.bind_some]
      exact bind_pure _
    · rw [if_neg dir, if_neg dir]
      rfl

theorem Walks.run {room : Prop} {goal : Option (ℕ × Name)} {prog : KProg (Option (ℕ × Name))}
    (walks : Walks p s₀ room goal prog s) :
    (∃ r s', prog.run (exec p) s = (.ok r, s') ∧ Walked p s₀ goal r s' ∧ room) ∨
      ∃ err s', prog.run (exec p) s = (.error (.panic err), s') ∧ ¬room := by
  rcases Prog.Total.run walks with ⟨r, ret, room', walked⟩ | ⟨err, ret, -, full⟩
  · exact .inl ⟨r, _, Prod.ext ret rfl, walked, room'⟩
  · exact .inr ⟨err, _, Prod.ext ret rfl, full⟩

theorem Walks.run_iff {room : Prop} {goal : Option (ℕ × Name)} {prog : KProg (Option (ℕ × Name))}
    (walks : Walks p s₀ room goal prog s) :
    (∃ r s', prog.run (exec p) s = (.ok r, s') ∧ Walked p s₀ goal r s') ↔ room := by
  rcases walks.run with ⟨r, s', run, walked, room'⟩ | ⟨err, s', run, full⟩
  · exact ⟨fun _ => room', fun _ => ⟨r, s', run, walked⟩⟩
  · refine ⟨?_, fun yes => absurd yes full⟩
    rintro ⟨r, s'', ret, -⟩
    rw [run] at ret
    cases ret

/-- `skipelem` finds the elements of every path.  `namei` and `nameiparent` return a reference to the
inode that the names lead to, or fail with the walk, and change no other reference count, if and only if
every inode on the way finds a slot in the inode table and every inode that has to be locked is in use.
-/
theorem path_resolution (ok : InodesOk p s none) (dirs : DirsOk s) (cwd : CwdOk p s) (path : Path)
    {names : List Name} (elements : names = (pathWords path).map elementName) :
    (∀ k, path.length ≤ k → skipelems k path = names) ∧
    ((∃ r s', (namex path false).run (exec p) s = (.ok r, s') ∧
      Walked p s ((resolve s.disk (startInum p s path) names).map fun y => (y, fun _ => 0)) r s') ↔
      NamexRoom p s path false) ∧
    ((∃ r s', (namex path true).run (exec p) s = (.ok r, s') ∧
      Walked p s (resolveParent s.disk (startInum p s path) names) r s') ↔
      NamexRoom p s path true) ∧
    (names ≠ [] → resolve s.disk (startInum p s path) names =
      (resolveParent s.disk (startInum p s path) names).bind fun d =>
        entryInum (s.disk d.1).dents d.2) := by
  subst elements
  refine ⟨fun k enough => skipelems_eq enough, ?_, ?_, fun some_name => resolve_parent _ _ some_name⟩
  · rw [← found_namei]
    exact (namex_total ok dirs cwd path false).run_iff
  · rw [← found_nameiparent]
    exact (namex_total ok dirs cwd path true).run_iff

end Walk

/-! ## A small file system -/

/-- A root directory with the file `/x` and the file `/d/x`, and a removed directory, inode 100, whose
parent, inode 101, has been freed. -/
def smallDisk : ℕ → Dinode
  | 1 => ⟨⟨T_DIR, 0, 0, 1⟩, [⟨41, .ofChars [100#8]⟩, ⟨40, .ofChars [120#8]⟩], []⟩
  | 41 => ⟨⟨T_DIR, 0, 0, 1⟩, [⟨1, .ofChars [46#8, 46#8]⟩, ⟨40, .ofChars [120#8]⟩], []⟩
  | 100 => ⟨⟨T_DIR, 0, 0, 0⟩, [⟨100, .ofChars [46#8]⟩, ⟨101, .ofChars [46#8, 46#8]⟩], []⟩
  | 101 => ⟨⟨0, 0, 0, 0⟩, [], []⟩
  | _ => ⟨⟨T_FILE, 0, 0, 1⟩, [], []⟩

/-- The small file system with the root directory in slot 0 and the inodes from `first` on in slots 1 to
`n`; the processes work in the directory of slot `cwd`. -/
def smallState (first n cwd : ℕ) : KState where
  disk := smallDisk
  itable i := ⟨ROOTDEV, if i = 0 then ROOTINO else first + (i - 1), if i ≤ n then 1 else 0, none,
    false, (smallDisk 0).attr⟩
  ftable _ := ⟨.none, 0, false, false, 0, 0, 0⟩
  procs _ := ⟨.runnable, none, fun _ => none, some cwd⟩
  outstanding := 0

section Small

variable {p first n cwd : ℕ}

theorem smallState_ok (other : ROOTINO < first) : InodesOk p (smallState first n cwd) none where
  unique i _ j _ _ _ same := by
    simp only [smallState] at same
    grind
  dev _ _ _ := rfl
  fresh _ _ _ := nofun
  live _ _ _ := nofun
  lock _ _ := rfl

theorem smallDisk_entry (x : ℕ) {d : Dent} (mem : d ∈ (smallDisk x).dents) :
    d.inum = 100 ∨ (smallDisk d.inum).attr.type = 0 ∨ (smallDisk d.inum).attr.nlink ≠ 0 := by
  have all : ∀ x ∈ [1, 41, 100], ∀ y ∈ (smallDisk x).dents.map inum,
      y = 100 ∨ (smallDisk y).attr.type = 0 ∨ (smallDisk y).attr.nlink ≠ 0 := by decide
  by_cases dir : x ∈ [1, 41, 100]
  · exact all x dir _ (mem_map_of_mem mem)
  · simp only [mem_cons, not_mem_nil, or_false, not_or] at dir
    unfold smallDisk at mem
    split at mem <;> simp_all

/-- The removed directory has to be in the table. -/
theorem smallState_dirs (other : ROOTINO < first) (after : first ≤ 100) (before : 100 < first + n)
    (bound : n < NINODE) : DirsOk (smallState first n cwd) where
  root := show (smallDisk ROOTINO).attr.nlink ≠ 0 by decide
  entry x _ d mem _ := by
    rcases smallDisk_entry x mem with removed | free | linked
    · refine .inr (.inl ((smallState_ok (p := 0) other).cached_iff.mpr ⟨100 - first + 1, ?_⟩))
      simp only [smallState, removed, NINODE] at bound ⊢
      grind
    · exact .inl free
    · exact .inr (.inr linked)

theorem smallState_cwd (bound : cwd < NINODE) (used : cwd ≤ n) : CwdOk p (smallState first n cwd) := by
  refine ⟨cwd, bound, rfl, ?_⟩
  simp only [smallState, if_pos used]
  decide

end Small

/-- The path `/d/x` leads to inode 40, in two steps that both need a new slot. -/
theorem path_resolution_steps : ∃ r s',
    (namex [slash, 100#8, slash, 120#8] false).run (exec 0) (smallState 100 1 0) = (.ok r, s') ∧
      Walked 0 (smallState 100 1 0) (some (40, fun _ => 0)) r s' := by
  have names : [elementName [100#8], elementName [120#8]] =
      (pathWords [slash, 100#8, slash, 120#8]).map elementName := by
    decide
  have first : descend smallDisk ROOTINO (elementName [100#8]) = some 41 := by decide
  have second : descend smallDisk 41 (elementName [120#8]) = some 40 := by decide
  have all := path_resolution (p := 0) (s := smallState 100 1 0) (smallState_ok (by decide))
    (smallState_dirs (by decide) (by decide) (by decide) (by decide))
    (smallState_cwd (by decide) (by decide)) _ names
  refine all.2.1.mpr ⟨fun _ absent => absurd absent (by decide), ?_⟩
  rw [← names]
  refine ⟨by decide, .inr fun y step => ?_⟩
  obtain rfl : 41 = y := Option.some.inj (first.symm.trans step)
  refine ⟨.inr (.inr (by decide)), by decide, .inr fun y step => ?_⟩
  obtain rfl : 40 = y := Option.some.inj (second.symm.trans step)
  exact ⟨.inr (.inr (by decide)), trivial⟩

/-- With all slots but that of the root directory in use for inodes not on the way, the path `/x` cannot
be resolved; from a removed directory whose parent has been freed, `../x` cannot, although 48 slots are
free. -/
theorem path_panics : (∃ s : KState, InodesOk 0 s none ∧ DirsOk s ∧ CwdOk 0 s ∧
      s.cached ROOTDEV ROOTINO ≠ none ∧
      ((namex [slash, 120#8] false).run (exec 0) s).1 = .error (.panic .igetNoInodes)) ∧
    ∃ s : KState, InodesOk 0 s none ∧ DirsOk s ∧ CwdOk 0 s ∧ s.cached ROOTDEV ROOTINO ≠ none ∧
      s.freeSlots = 48 ∧
      ((namex [46#8, 46#8, slash, 120#8] false).run (exec 0) s).1 =
        .error (.panic .ilockNoType) := by
  refine ⟨⟨smallState 52 49 0, smallState_ok (by decide),
    smallState_dirs (by decide) (by decide) (by decide) (by decide),
    smallState_cwd (by decide) (by decide), by decide, by rfl⟩,
    ⟨smallState 100 1 1, smallState_ok (by decide),
    smallState_dirs (by decide) (by decide) (by decide) (by decide),
    smallState_cwd (by decide) (by decide), by decide, by decide, by rfl⟩⟩

end Xv6.Sys
