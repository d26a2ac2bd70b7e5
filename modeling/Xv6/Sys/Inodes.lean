import Xv6.Lib.Crash
import Xv6.Sys.Prog

/-!
# References to inodes

The inode table while one process looks up and locks inodes: the table of an earlier state with some
references more, of which one may be locked.  One lemma for each operation on the table.
-/

namespace Xv6.Sys

open Function List KState

/-- The table of in-memory inodes agrees with the disk, and only `locked` is locked, by `p`.  A slot
that has not been read from disk yet may refer to a free inode. -/
structure InodesOk (p : ℕ) (s : KState) (locked : Option ℕ) : Prop where
  unique : ∀ i < NINODE, ∀ j < NINODE, 0 < (s.itable i).ref → 0 < (s.itable j).ref →
    (s.itable i).inum = (s.itable j).inum → i = j
  dev : ∀ i < NINODE, 0 < (s.itable i).ref → (s.itable i).dev = ROOTDEV
  fresh : ∀ i < NINODE, 0 < (s.itable i).ref → (s.itable i).valid = true →
    (s.itable i).attr = (s.disk (s.itable i).inum).attr
  live : ∀ i < NINODE, 0 < (s.itable i).ref → (s.itable i).valid = true →
    (s.disk (s.itable i).inum).attr.type ≠ 0
  lock : ∀ i < NINODE, (s.itable i).lock = if locked = some i then some p else none

/-- The state `s` is `s₀` with `e i` more references to the inode in slot `i`. -/
structure Kept (p : ℕ) (s₀ s : KState) (e : ℕ → ℕ) (locked : Option ℕ) : Prop where
  base : InodesOk p s₀ none
  rest : s = { s₀ with itable := s.itable }
  ref : ∀ i < NINODE, (s.itable i).ref = (s₀.itable i).ref + e i
  inum : ∀ i < NINODE, 0 < (s₀.itable i).ref → (s.itable i).inum = (s₀.itable i).inum
  ok : InodesOk p s locked

/-- Nothing happens to the inode `y` in slot `i` when one more reference is dropped. -/
def Stays (s₀ : KState) (i y : ℕ) : Prop :=
  (s₀.disk y).attr.type = 0 ∨ 0 < (s₀.itable i).ref ∨ (s₀.disk y).attr.nlink ≠ 0

def more (e : ℕ → ℕ) (i : ℕ) : ℕ → ℕ := update e i (e i + 1)

def less (e : ℕ → ℕ) (i : ℕ) : ℕ → ℕ := update e i (e i - 1)

section

variable {p i j inum : ℕ} {s₀ s : KState} {e : ℕ → ℕ} {locked : Option ℕ} {A : Panic → Prop}

theorem less_more (e : ℕ → ℕ) (i : ℕ) : less (more e i) i = e := by
  simp [less, more]

theorem more_comm (e : ℕ → ℕ) (i j : ℕ) : more (more e i) j = more (more e j) i := by
  by_cases same : i = j
  · rw [same]
  · funext k
    simp only [more, update_apply]
    grind

theorem Kept.refl (ok : InodesOk p s none) : Kept p s s (fun _ => 0) none :=
  ⟨ok, rfl, fun _ _ => rfl, fun _ _ _ => rfl, ok⟩

theorem Kept.disk (kept : Kept p s₀ s e locked) : s.disk = s₀.disk := by
  rw [kept.rest]

@[simp] theorem KState.setSlot_disk (s : KState) (i : ℕ) (x : Slot) : (s.setSlot i x).disk = s.disk :=
  rfl

/-! ## Finding a slot -/

theorem cached_some {dev : ℕ} (found : s.cached dev inum = some i) :
    i < NINODE ∧ 0 < (s.itable i).ref ∧ (s.itable i).dev = dev ∧ (s.itable i).inum = inum := by
  have mem := mem_of_find?_eq_some found
  have test := find?_some found
  rw [mem_range] at mem
  simp only [Bool.and_eq_true, decide_eq_true_eq, beq_iff_eq] at test
  exact ⟨mem, test.1.1, test.1.2, test.2⟩

theorem cached_none {dev : ℕ} (absent : s.cached dev inum = none) (hi : i < NINODE)
    (used : 0 < (s.itable i).ref) (same : (s.itable i).dev = dev) : (s.itable i).inum ≠ inum := by
  have test := find?_eq_none.mp absent i (mem_range.mpr hi)
  simp only [Bool.and_eq_true, decide_eq_true_eq, beq_iff_eq] at test
  exact fun here => test ⟨⟨used, same⟩, here⟩

theorem InodesOk.cached_iff (ok : InodesOk p s locked) :
    s.cached ROOTDEV inum ≠ none ↔ ∃ k < NINODE, 0 < (s.itable k).ref ∧ (s.itable k).inum = inum := by
  constructor
  · intro there
    obtain ⟨k, hk⟩ := Option.ne_none_iff_exists'.mp there
    obtain ⟨lt, ref, -, same⟩ := cached_some hk
    exact ⟨k, lt, ref, same⟩
  · rintro ⟨k, lt, ref, same⟩ absent
    exact cached_none absent lt ref (ok.dev k lt ref) same

theorem freeSlot_iff : s.freeSlot ≠ none ↔ ∃ k < NINODE, (s.itable k).ref = 0 := by
  simp [freeSlot]

theorem freeSlot_some (found : s.freeSlot = some i) : i < NINODE ∧ (s.itable i).ref = 0 := by
  have mem := mem_of_find?_eq_some found
  have test := find?_some found
  exact ⟨mem_range.mp mem, beq_iff_eq.mp test⟩

/-! ## The operations -/

theorem Kept.set (kept : Kept p s₀ s e locked) {x : Slot} {e' : ℕ → ℕ} {locked' : Option ℕ}
    (ref : x.ref = (s₀.itable i).ref + e' i) (refs : ∀ k ≠ i, e' k = e k)
    (lock : x.lock = if locked' = some i then some p else none)
    (locks : ∀ k ≠ i, locked' = some k ↔ locked = some k)
    (inum : 0 < (s₀.itable i).ref → x.inum = (s₀.itable i).inum)
    (used : 0 < x.ref → x.dev = ROOTDEV ∧ (x.valid = true → x.attr = (s.disk x.inum).attr) ∧
      (x.valid = true → (s.disk x.inum).attr.type ≠ 0) ∧
      ∀ j < NINODE, j ≠ i → 0 < (s.itable j).ref → (s.itable j).inum ≠ x.inum) :
    Kept p s₀ (s.setSlot i x) e' locked' := by
  have self : (s.setSlot i x).itable i = x := update_self ..
  have other {k : ℕ} (ne : k ≠ i) : (s.setSlot i x).itable k = s.itable k :=
    update_of_ne ne _ _
  refine ⟨kept.base, ?_, fun k hk => ?_, fun k hk old => ?_, ⟨fun k hk j hj refk refj same => ?_,
    fun k hk refk => ?_, fun k hk refk valid => ?_, fun k hk refk valid => ?_, fun k hk => ?_⟩⟩
  · exact congrArg (fun s' => setSlot s' i x) kept.rest
  · by_cases ne : k = i
    · subst ne
      rw [self, ref]
    · rw [other ne, kept.ref k hk, refs k ne]
  · by_cases ne : k = i
    · subst ne
      rw [self, inum old]
    · rw [other ne, kept.inum k hk old]
  · by_cases ek : k = i <;> by_cases ej : j = i
    · rw [ek, ej]
    · subst ek
      rw [self] at refk same
      rw [other ej] at refj same
      exact absurd same.symm ((used refk).2.2.2 j hj ej refj)
    · subst ej
      rw [self] at refj same
      rw [other ek] at refk same
      exact absurd same ((used refj).2.2.2 k hk ek refk)
    · rw [other ek] at refk same
      rw [other ej] at refj same
      exact kept.ok.unique k hk j hj refk refj same
  · by_cases ne : k = i
    · subst ne
      rw [self] at refk ⊢
      exact (used refk).1
    · rw [other ne] at refk ⊢
      exact kept.ok.dev k hk refk
  · by_cases ne : k = i
    · subst ne
      rw [self] at refk valid ⊢
      exact (used refk).2.1 valid
    · rw [other ne] at refk valid ⊢
      exact kept.ok.fresh k hk refk valid
  · by_cases ne : k = i
    · subst ne
      rw [self] at refk valid ⊢
      exact (used refk).2.2.1 valid
    · rw [other ne] at refk valid ⊢
      exact kept.ok.live k hk refk valid
  · by_cases ne : k = i
    · subst ne
      rw [self, lock]
    · rw [other ne, kept.ok.lock k hk]
      simp only [locks k ne]

theorem Kept.used (kept : Kept p s₀ s e locked) (hi : i < NINODE) (ref : 0 < (s.itable i).ref) :
    (s.itable i).dev = ROOTDEV ∧
      ((s.itable i).valid = true → (s.itable i).attr = (s.disk (s.itable i).inum).attr) ∧
      ((s.itable i).valid = true → (s.disk (s.itable i).inum).attr.type ≠ 0) ∧
      ∀ j < NINODE, j ≠ i → 0 < (s.itable j).ref → (s.itable j).inum ≠ (s.itable i).inum :=
  ⟨kept.ok.dev i hi ref, kept.ok.fresh i hi ref, kept.ok.live i hi ref,
    fun j hj ne refj same => ne (kept.ok.unique j hj i hi refj ref same)⟩

theorem more_self (e : ℕ → ℕ) (i : ℕ) : more e i i = e i + 1 := update_self ..

theorem more_of_ne {k : ℕ} (ne : k ≠ i) : more e i k = e k := update_of_ne ne _ _

theorem less_self (e : ℕ → ℕ) (i : ℕ) : less e i i = e i - 1 := update_self ..

theorem less_of_ne {k : ℕ} (ne : k ≠ i) : less e i k = e k := update_of_ne ne _ _

theorem Kept.refer (kept : Kept p s₀ s e locked) (hi : i < NINODE) (ref : 0 < (s.itable i).ref) :
    Kept p s₀ (s.setSlot i { s.itable i with ref := (s.itable i).ref + 1 }) (more e i) locked := by
  refine kept.set ?_ (fun k ne => more_of_ne ne) (kept.ok.lock i hi) (fun _ _ => Iff.rfl)
    (kept.inum i hi) fun _ => kept.used hi ref
  rw [more_self, kept.ref i hi, Nat.add_assoc]

theorem iget_total (kept : Kept p s₀ s e locked) :
    (atomic (.iget ROOTDEV inum)).Total (exec p)
      (fun err => err = .igetNoInodes ∧ s.cached ROOTDEV inum = none ∧ s.freeSlot = none)
      (fun _ => True) s fun j s' =>
        (s.cached ROOTDEV inum = none → s.freeSlot ≠ none) ∧ j < NINODE ∧
        Kept p s₀ s' (more e j) locked ∧ (s'.itable j).inum = inum ∧
        ∀ k, 0 < (s.itable k).ref → (s'.itable k).inum = (s.itable k).inum := by
  refine ⟨trivial, ?_⟩
  simp only [exec]
  cases found : s.cached ROOTDEV inum with
  | some j =>
    obtain ⟨hj, ref, -, rfl⟩ := cached_some found
    refine ⟨trivial, nofun, hj, kept.refer hj ref, ?_, fun k _ => ?_⟩
    · simp only [setSlot, update_self]
    · by_cases kj : k = j
      · subst kj
        simp only [setSlot, update_self]
      · simp only [setSlot, update_of_ne kj]
  | none =>
    cases free : s.freeSlot with
    | none => exact ⟨rfl, rfl, rfl⟩
    | some j =>
      obtain ⟨hj, unused⟩ := freeSlot_some free
      have before := kept.ref j hj
      refine ⟨trivial, fun _ => nofun, hj, kept.set ?_ (fun k ne => more_of_ne ne)
        (kept.ok.lock j hj) (fun _ _ => Iff.rfl) (fun old => by omega) fun _ => ⟨rfl, nofun, nofun, ?_⟩, ?_,
        fun k ref => ?_⟩
      · rw [more_self]
        dsimp only
        omega
      · intro k hk _ refk
        exact cached_none found hk refk (kept.ok.dev k hk refk)
      · simp only [setSlot, update_self]
      · have kj : k ≠ j := by
          rintro rfl
          omega
        simp only [setSlot, update_of_ne kj]

theorem atomic_total {o : KOp} {r : o.Res} {s' : KState}
    {Q : o.Res → KState → Prop} (step : exec p o s = .ok (r, s')) (done : Q r s') :
    (atomic o).Total (exec p) A (fun _ => True) s Q :=
  .op trivial step ⟨trivial, done⟩

theorem acquiresleep_total (kept : Kept p s₀ s e none) (hi : i < NINODE) (ref : 0 < (s.itable i).ref)
    {Q : Unit → KState → Prop} (next : Q () (s.setSlot i { s.itable i with lock := some p })) :
    (atomic (.acquiresleep i)).Total (exec p) A (fun _ => True) s Q := by
  have free : (s.itable i).lock = none := by rw [kept.ok.lock i hi, if_neg nofun]
  have lockIt : exec p (.acquiresleep i) s =
      .ok ((), s.setSlot i { s.itable i with lock := some p }) := by
    simp only [exec]
    rw [if_neg (by omega), if_pos free]
  exact atomic_total lockIt next

theorem ilock_total (kept : Kept p s₀ s e none) (hi : i < NINODE) (ref : 0 < (s.itable i).ref)
    (live : (s₀.disk (s.itable i).inum).attr.type ≠ 0) :
    (ilock i).Total (exec p) A (fun _ => True) s fun _ s' =>
      Kept p s₀ s' e (some i) ∧ (s'.itable i).inum = (s.itable i).inum ∧
        (s'.itable i).ref = (s.itable i).ref ∧
        (s'.itable i).attr = (s₀.disk (s.itable i).inum).attr := by
  have locks (k : ℕ) (ne : k ≠ i) : some i = some k ↔ none = some k := by simp [ne.symm]
  refine (acquiresleep_total kept hi ref ?_).bind
  have self : (s.setSlot i { s.itable i with lock := some p }).itable i =
      { s.itable i with lock := some p } := update_self ..
  cases valid : (s.itable i).valid with
  | true =>
    have load : exec p (.disk (.load i)) (s.setSlot i { s.itable i with lock := some p }) =
        .ok ((), s.setSlot i { s.itable i with lock := some p }) := by
      simp only [exec, DiskOp.exec, self]
      rw [if_pos valid]
    refine atomic_total load ⟨?_, ?_, ?_, ?_⟩
    · exact kept.set (kept.ref i hi) (fun _ _ => rfl) (if_pos rfl).symm locks (kept.inum i hi)
        fun _ => kept.used hi ref
    · rw [self]
    · rw [self]
    · rw [self, ← kept.disk]
      exact kept.ok.fresh i hi ref valid
  | false =>
    have load : exec p (.disk (.load i)) (s.setSlot i { s.itable i with lock := some p }) =
        .ok ((), s.setSlot i { s.itable i with
          lock := some p, valid := true, attr := (s.disk (s.itable i).inum).attr }) := by
      simp only [exec, DiskOp.exec, self, setSlot_disk]
      rw [if_neg (by rw [valid]; exact Bool.false_ne_true), if_neg (by rwa [kept.disk])]
      simp only [setSlot, update_idem]
    have loaded : (s.setSlot i { s.itable i with
        lock := some p, valid := true, attr := (s.disk (s.itable i).inum).attr }).itable i = _ :=
      update_self ..
    have used := kept.used hi ref
    refine atomic_total load ⟨?_, ?_, ?_, ?_⟩
    · exact kept.set (kept.ref i hi) (fun _ _ => rfl) (if_pos rfl).symm locks (kept.inum i hi)
        fun _ => ⟨used.1, fun _ => rfl, fun _ => by rwa [kept.disk], used.2.2.2⟩
    · rw [loaded]
    · rw [loaded]
    · rw [loaded, kept.disk]

/-- `ilock` of a free inode panics. -/
theorem ilock_free (kept : Kept p s₀ s e none) (hi : i < NINODE) (ref : 0 < (s.itable i).ref)
    (free : (s₀.disk (s.itable i).inum).attr.type = 0) {Q : Unit → KState → Prop} :
    (ilock i).Total (exec p) (· = .ilockNoType) (fun _ => True) s Q := by
  rw [← kept.disk] at free
  have unread : (s.itable i).valid = false :=
    Bool.eq_false_iff.mpr fun valid => kept.ok.live i hi ref valid free
  refine (acquiresleep_total kept hi ref ?_).bind
  have load : exec p (.disk (.load i)) (s.setSlot i { s.itable i with lock := some p }) =
      .error (.panic .ilockNoType) := by
    simp [exec, DiskOp.exec, setSlot, unread, free]
  refine ⟨trivial, ?_⟩
  rw [load]
  rfl

theorem iunlock_total (kept : Kept p s₀ s e (some i)) (hi : i < NINODE) (ref : 0 < (s.itable i).ref) :
    (iunlock i).Total (exec p) A (fun _ => True) s fun _ s' =>
      Kept p s₀ s' e none ∧ ∀ k, (s'.itable k).inum = (s.itable k).inum ∧
        (s'.itable k).ref = (s.itable k).ref := by
  have mine : (s.itable i).lock = some p := by rw [kept.ok.lock i hi, if_pos rfl]
  have locks (k : ℕ) (ne : k ≠ i) : none = some k ↔ some i = some k := by simp [ne.symm]
  have step : exec p (.iunlock i) s = .ok ((), s.setSlot i { s.itable i with lock := none }) := by
    simp only [exec]
    rw [if_neg]
    rintro (other | low)
    · exact other mine
    · omega
  refine atomic_total step ⟨?_, fun k => ?_⟩
  · exact kept.set (kept.ref i hi) (fun _ _ => rfl) (if_neg nofun).symm locks (kept.inum i hi)
      fun _ => kept.used hi ref
  · by_cases e : k = i
    · subst e
      simp only [setSlot, update_self, and_self]
    · simp only [setSlot, update_of_ne e, and_self]

theorem iput_total (kept : Kept p s₀ s e none) (hi : i < NINODE) (mine : 0 < e i)
    (stays : Stays s₀ i (s.itable i).inum) :
    (iput i).Total (exec p) A (fun _ => True) s fun _ s' =>
      Kept p s₀ s' (less e i) none ∧ ∀ k, (s'.itable k).inum = (s.itable k).inum := by
  have count := kept.ref i hi
  have step : exec p (.iputStart i) s =
      .ok (false, s.setSlot i { s.itable i with ref := (s.itable i).ref - 1 }) := by
    simp only [exec]
    rw [if_neg]
    rintro ⟨last, valid, unlinked⟩
    rcases stays with free | others | linked
    · rw [← kept.disk] at free
      exact kept.ok.live i hi (by omega) valid free
    · omega
    · rw [kept.ok.fresh i hi (by omega) valid, kept.disk] at unlinked
      exact linked unlinked
  refine (atomic_total step ?_).bind
  refine ⟨trivial, ?_, fun k => ?_⟩
  · refine kept.set ?_ (fun k ne => less_of_ne ne) (kept.ok.lock i hi) (fun _ _ => Iff.rfl)
      (kept.inum i hi) fun _ => kept.used hi (by omega)
    rw [less_self]
    dsimp only
    omega
  · by_cases e : k = i
    · subst e
      simp only [setSlot, update_self]
    · simp only [setSlot, update_of_ne e]

end

end Xv6.Sys
