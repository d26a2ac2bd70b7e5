import Xv6.Fs.Prog
import Xv6.Lib.Crash

/-!
# The block store

The meaning of the buffer operations for one file-system operation at a time: the buffer cache, the
log and the disk together are one store of blocks.  `Does` is the rule for a program on the store.
-/

namespace Xv6.Fs

/-- The blocks of the disk as `bread` returns them. -/
abbrev Store := ℕ → Block

/-- The state of the buffer operations during a transaction. -/
structure FsState where
  store : Store
  /-- Blocks whose buffers are locked. -/
  held : List ℕ
  /-- Locked buffers that have been changed and not been handed to the log since. -/
  dirty : List ℕ
  /-- The calls of `log_write` in this transaction. -/
  logged : List ℕ
  /-- Blocks whose buffers were changed and released, and were never handed to the log. -/
  lost : List ℕ

/-- One operation; a second `bread` of a held block would wait for ever. -/
def FsState.exec : Handler FsSig FsState Panic
  | .bread b, s =>
      if b ∈ s.held then .error .blocked else .ok (s.store b, { s with held := b :: s.held })
  | .bset b d, s =>
      if b ∈ s.held then
        .ok ((), { s with store := Function.update s.store b d, dirty := b :: s.dirty })
      else .error .blocked
  | .logWrite b, s =>
      if b ∈ s.held then
        .ok ((), { s with dirty := s.dirty.filter (· ≠ b), logged := b :: s.logged })
      else .error .blocked
  | .brelse b, s =>
      if b ∈ s.held then
        .ok ((), { s with
          held := s.held.erase b
          dirty := s.dirty.filter (· ≠ b)
          lost := if b ∈ s.dirty ∧ b ∉ s.logged then b :: s.lost else s.lost })
      else .error (.panic .brelse)
  | .panic e, _ => .error (.panic e)

/-- The panics that tell of a bad inode number or a malformed directory, not of a fault of the
allocation. -/
def Benign (e : Panic) : Prop :=
  e ∈ [Panic.ilockNoType, .dirlookupNotDir, .dirlookupRead, .dirlinkRead]

instance (e : Panic) : Decidable (Benign e) := inferInstanceAs (Decidable (_ ∈ _))

/-- Only inode, bitmap and data blocks are locked or have been logged. -/
def HomeOnly (L : Layout) (s : FsState) : Prop :=
  (∀ b ∈ s.logged, L.Home b) ∧ ∀ b ∈ s.held, L.Home b

/-- The state shows the store `σ` with the buffers in `K` locked. -/
structure Shows (L : Layout) (s : FsState) (σ : Store) (K : List ℕ) : Prop where
  store : s.store = σ
  held : s.held = K
  home : HomeOnly L s

/-- The program returns with `Q` or raises a benign panic; it never waits, and it locks and logs only
blocks of the file system. -/
def Does {α : Type} (L : Layout) (x : FsProg α) (σ : Store) (K : List ℕ)
    (Q : α → Store → List ℕ → Prop) : Prop :=
  ∀ s, Shows L s σ K →
    x.Total FsState.exec Benign (HomeOnly L) s fun a s' => ∃ σ' K', Shows L s' σ' K' ∧ Q a σ' K'

section Rules

variable {α β : Type} {L : Layout} {σ : Store} {K : List ℕ} {b : ℕ} {f : Unit → FsProg β}
variable {Q : β → Store → List ℕ → Prop}

theorem does_ret {a : β} (h : Q a σ K) : Does L (.ret a) σ K Q :=
  fun _ hs => ⟨hs.home, σ, K, hs, h⟩

theorem Does.bind {x : FsProg α} {f : α → FsProg β}
    (hx : Does L x σ K fun a σ' K' => Does L (f a) σ' K' Q) : Does L (x >>= f) σ K Q := by
  intro s hs
  refine Prog.Total.bind ((hx s hs).mono ?_)
  rintro a s' ⟨σ', K', hs', rest⟩
  exact rest s' hs'

theorem Does.mono {x : FsProg β} {Q' : β → Store → List ℕ → Prop} (hx : Does L x σ K Q)
    (hQ : ∀ a σ' K', Q a σ' K' → Q' a σ' K') : Does L x σ K Q' := by
  intro s hs
  refine (hx s hs).mono ?_
  rintro a s' ⟨σ', K', hs', h⟩
  exact ⟨σ', K', hs', hQ a σ' K' h⟩

theorem does_bread {f : Block → FsProg β} (free : b ∉ K) (hb : L.Home b)
    (rest : Does L (f (σ b)) σ (b :: K) Q) : Does L (bread b >>= f) σ K Q := by
  rintro s ⟨rfl, rfl, home⟩
  refine Prog.Total.op home (if_neg free) ?_
  exact rest _ ⟨rfl, rfl, home.1, List.forall_mem_cons.mpr ⟨hb, home.2⟩⟩

theorem does_bset {d : Block} (mem : b ∈ K)
    (rest : Does L (f ()) (Function.update σ b d) K Q) : Does L (bset b d >>= f) σ K Q := by
  rintro s ⟨rfl, rfl, home⟩
  refine Prog.Total.op home (if_pos mem) ?_
  exact rest _ ⟨rfl, rfl, home⟩

theorem does_logWrite (mem : b ∈ K) (hb : L.Home b)
    (rest : Does L (f ()) σ K Q) : Does L (logWrite b >>= f) σ K Q := by
  rintro s ⟨rfl, rfl, home⟩
  refine Prog.Total.op home (if_pos mem) ?_
  exact rest _ ⟨rfl, rfl, List.forall_mem_cons.mpr ⟨hb, home.1⟩, home.2⟩

theorem does_brelse (rest : Does L (f ()) σ K Q) : Does L (brelse b >>= f) σ (b :: K) Q := by
  rintro s ⟨rfl, held, home⟩
  have mem : b ∈ s.held := held ▸ List.mem_cons_self
  refine Prog.Total.op home (if_pos mem) (rest _ ⟨rfl, ?_, home.1, fun c hc => ?_⟩)
  · simp only [held, List.erase_cons_head]
  · exact home.2 c (List.mem_of_mem_erase hc)

theorem does_panic {e : Panic} (he : Benign e) : Does L (panic e : FsProg β) σ K Q :=
  fun _ hs => Prog.Total.panic hs.home rfl he

theorem does_brelse_end {Q : Unit → Store → List ℕ → Prop} (h : Q () σ K) :
    Does L (brelse b) σ (b :: K) Q := by
  have ends : Does L (brelse b >>= fun _ => pure ()) σ (b :: K) Q := does_brelse (does_ret h)
  rwa [bind_pure] at ends

theorem Does.loop {f : ℕ → FsProg Unit} {J : ℕ → Store → Prop} (lo n : ℕ)
    (body : ∀ i τ, lo ≤ i → i < lo + n → J i τ → Does L (f i) τ K fun _ τ' K' => K' = K ∧ J (i + 1) τ')
    (start : J lo σ) : Does L (Prog.loop f lo n) σ K fun _ τ' K' => K' = K ∧ J (lo + n) τ' := by
  induction n generalizing lo σ with
  | zero => exact does_ret ⟨rfl, start⟩
  | succ n ih =>
    refine Does.bind ((body lo σ (le_refl lo) (by omega) start).mono ?_)
    rintro _ τ _ ⟨rfl, hJ⟩
    have rest := ih (lo + 1) (fun i τ' lower upper hi => body i τ' (by omega) (by omega) hi) hJ
    rwa [add_right_comm] at rest

end Rules

end Xv6.Fs
