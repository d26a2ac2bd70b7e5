import Mathlib.Data.List.GetD
import Xv6.Fs.Read

/-!
# Looking up a name

What `namecmp` compares, and the rule for `dirlookup`: it returns the first entry with the name.
-/

namespace Xv6.Fs

open List Bytes

/-! ## Names -/

theorem strncpy_byte (s : Name) {i : ℕ} (hi : i < DIRSIZ) :
    (strncpy s).byte i = if ∀ j < i, s.byte j ≠ 0 then s.byte i else 0 := by
  rw [byte, dif_pos hi, strncpy]
  by_cases all : ∀ j < i, s.byte j ≠ 0
  · rw [if_pos all, if_neg]
    simpa using all
  · rw [if_neg all, if_pos]
    simpa using all

/-- `strncmp` stops at the first zero byte and at the first difference. -/
theorem strncmp_iff {s t : Name} {n i : ℕ} : strncmp s t n i = true ↔
    ∀ j, i ≤ j → j < i + n → (∀ l, i ≤ l → l < j → s.byte l ≠ 0 ∧ s.byte l = t.byte l) →
      s.byte j = t.byte j := by
  induction n generalizing i with
  | zero =>
    refine iff_of_true rfl fun j lower upper => ?_
    omega
  | succ n ih =>
    rw [strncmp]
    split_ifs with same
    · rw [ih]
      constructor
      · intro rest j lower upper before
        rcases eq_or_lt_of_le lower with rfl | later
        · exact same.2
        · exact rest j later (by omega) fun l low high => before l (by omega) high
      · intro all j lower upper before
        refine all j (by omega) (by omega) fun l low high => ?_
        rcases eq_or_lt_of_le low with rfl | later
        · exact same
        · exact before l later high
    · rw [beq_iff_eq]
      constructor
      · intro equal j lower upper before
        rcases eq_or_lt_of_le lower with rfl | later
        · exact equal
        · exact absurd (before i (le_refl _) later) same
      · intro all
        refine all i (le_refl _) (by omega) fun l low high => ?_
        omega

theorem namecmp_iff {s t : Name} : namecmp s t = true ↔ strncpy s = strncpy t := by
  rw [namecmp, strncmp_iff]
  constructor
  · intro agree
    -- the names agree up to the first zero byte
    have first : ∀ i < DIRSIZ, (∀ j < i, s.byte j ≠ 0) → s.byte i = t.byte i := by
      intro i
      induction i using Nat.strong_induction_on with
      | h i ih =>
        intro hi nonzero
        refine agree i zero_le (by omega) fun l _ hl => ⟨nonzero l hl, ?_⟩
        exact ih l hl (lt_trans hl hi) fun j hj => nonzero j (lt_trans hj hl)
    have ends : ∀ i ≤ DIRSIZ, (∀ j < i, s.byte j ≠ 0) ↔ ∀ j < i, t.byte j ≠ 0 := by
      intro i
      induction i with
      | zero => exact fun _ => iff_of_true (fun _ => nofun) fun _ => nofun
      | succ i ih =>
        intro hi
        have before := ih (Nat.le_of_succ_le hi)
        simp only [Nat.lt_succ_iff_lt_or_eq, or_imp, forall_and, forall_eq, before]
        refine and_congr_right fun below => ?_
        rw [first i hi (before.mpr below)]
    refine ext_byte fun i hi => ?_
    rw [strncpy_byte s hi, strncpy_byte t hi]
    by_cases nonzero : ∀ j < i, s.byte j ≠ 0
    · rw [if_pos nonzero, if_pos ((ends i (le_of_lt hi)).mp nonzero), first i hi nonzero]
    · rw [if_neg nonzero, if_neg fun h => nonzero ((ends i (le_of_lt hi)).mpr h)]
  · intro same j _ hj before
    have hj : j < DIRSIZ := by omega
    have here := congrArg (byte · j) same
    simp only [strncpy_byte _ hj] at here
    rw [if_pos fun l hl => (before l zero_le hl).1, if_pos fun l hl => ?_] at here
    · exact here
    · obtain ⟨nonzero, equal⟩ := before l zero_le hl
      exact equal ▸ nonzero

theorem strncpy_strncpy (s : Name) : strncpy (strncpy s) = strncpy s := by
  refine ext_byte fun i hi => ?_
  rw [strncpy_byte _ hi]
  split_ifs with all
  · rfl
  · push Not at all
    obtain ⟨j, hj, zero⟩ := all
    rw [strncpy_byte s hi, if_neg]
    rw [strncpy_byte s (lt_trans hj hi)] at zero
    intro nonzero
    rw [if_pos fun l hl => nonzero l (lt_trans hl hj)] at zero
    exact nonzero j hj zero

theorem strncpy_ofChars {cs : List Byte} (nonzero : ∀ c ∈ cs, c ≠ 0) :
    strncpy (Name.ofChars cs) = Name.ofChars cs := by
  have byte : ∀ i < DIRSIZ, (Name.ofChars cs).byte i = cs.getD i 0 :=
    fun i hi => dif_pos hi
  refine ext_byte fun i hi => ?_
  rw [strncpy_byte _ hi]
  split_ifs with all
  · rfl
  · push Not at all
    obtain ⟨j, hj, zero⟩ := all
    rw [byte j (lt_trans hj hi)] at zero
    have short : cs.length ≤ j := by
      refine Nat.le_of_not_lt fun inside => ?_
      rw [getD_eq_getElem _ _ inside] at zero
      exact nonzero _ (getElem_mem inside) zero
    rw [byte i hi, getD_eq_default _ _ (by omega)]

theorem ofChars_inj {cs ds : List Byte} (hcs : ∀ c ∈ cs, c ≠ 0) (hds : ∀ d ∈ ds, d ≠ 0)
    (same : Name.ofChars cs = Name.ofChars ds) : cs.take DIRSIZ = ds.take DIRSIZ := by
  have nonzero : ∀ {l : List Byte}, (∀ c ∈ l, c ≠ 0) →
      ∀ i, l.getD i 0 = 0 ↔ l[i]? = none := by
    intro l hl i
    rw [getD_eq_getElem?_getD]
    cases h : l[i]? with
    | none => exact iff_of_true rfl rfl
    | some c => exact iff_of_false (hl c (mem_of_getElem? h)) nofun
  refine ext_getElem? fun i => ?_
  by_cases hi : i < DIRSIZ
  · rw [getElem?_take_of_lt hi, getElem?_take_of_lt hi]
    have byte : cs.getD i 0 = ds.getD i 0 := congrFun same ⟨i, hi⟩
    by_cases zero : cs.getD i 0 = 0
    · rw [(nonzero hcs i).mp zero, (nonzero hds i).mp (byte ▸ zero)]
    · have hc := mt (nonzero hcs i).mpr zero
      have hd := mt (nonzero hds i).mpr (byte ▸ zero)
      obtain ⟨c, hc⟩ := Option.ne_none_iff_exists'.mp hc
      obtain ⟨d, hd⟩ := Option.ne_none_iff_exists'.mp hd
      rw [getD_eq_getElem?_getD, getD_eq_getElem?_getD, hc, hd] at byte
      rw [hc, hd]
      exact congrArg some byte
  · rw [getElem?_eq_none (by rw [length_take]; omega),
      getElem?_eq_none (by rw [length_take]; omega)]

/-! ## Directory entries -/

theorem Dirent.inum_make {inum : ℕ} (small : inum < 2 ^ 16) (name : Name) :
    (Dirent.make inum name).inum = inum := by
  have word : (Dirent.make inum name).word 0 2 = BitVec.ofNat 16 inum :=
    word_eq_of_byte fun j hj => by
      rw [zero_add, byte, dif_pos (lt_trans hj (by decide))]
      exact if_pos hj
  rw [Dirent.inum, word, BitVec.toNat_ofNat, Nat.mod_eq_of_lt small]

theorem Dirent.name_make (inum : ℕ) (name : Name) : (Dirent.make inum name).name = strncpy name := by
  funext i
  have hi : i.val < 14 := i.isLt
  rw [Dirent.name, byte, dif_pos (by omega), Dirent.make, if_neg (by simp only; omega)]
  simp only [Nat.add_sub_cancel_left]
  rw [byte, dif_pos hi]

def direntAt (σ : Store) (dp : Inode) (k : ℕ) : Dirent := fun j => fileByte σ dp (16 * k + j)

section

variable {L : Layout} {σ : Store} {B : ℕ → Prop} {dp : Inode} {P : Dirent → Bool}

theorem looks_dirscan_succ {e : Panic} {k a : ℕ}
    {Q : ℕ × Option Dirent × Inode → Prop} (inside : 16 * (a + 1) ≤ dp.size.toNat)
    (readable : ∀ p, 16 * a ≤ p → p < 16 * (a + 1) → Readable B σ dp p)
    (found : P (direntAt σ dp a) = true → Q (16 * a, some (direntAt σ dp a), dp))
    (next : P (direntAt σ dp a) = false → Looks NoPanic B (dirscan L e P k dp (16 * (a + 1))) σ Q) :
    Looks NoPanic B (dirscan L e P (k + 1) dp (16 * a)) σ Q := by
  have bound := dp.size.isLt
  have number : (BitVec.ofNat 32 (16 * a)).toNat = 16 * a := by
    rw [BitVec.toNat_ofNat, Nat.mod_eq_of_lt (by omega)]
  unfold dirscan
  rw [if_pos (by omega)]
  refine Looks.bind ((looks_readi_bytes (fun _ => true) (BitVec.ofNat 32 (16 * a)) 16
    fun p lower upper _ => readable p (number ▸ lower) ?_).mono ?_)
  · rw [number] at upper
    change p < 16 * a + 16 at upper
    omega
  rintro ⟨data, dp'⟩ ⟨same, all⟩
  obtain rfl : dp = dp' := same.symm
  have whole : min (16 : BitVec 32).toNat (dp.size.toNat - 16 * a) = 16 := by
    change min 16 _ = 16
    omega
  have small : (BitVec.ofNat 32 (16 * a)).toNat + (16 : BitVec 32).toNat < 2 ^ 32 := by
    rw [number]
    change 16 * a + 16 < 2 ^ 32
    omega
  have bytes := all (fun _ => rfl) small
  rw [number, whole] at bytes
  dsimp only at bytes ⊢
  rw [bytes, Option.getD_some, if_pos (by rw [length_map, length_range])]
  have entry : (fun i : Fin 16 => ((List.range 16).map fun i =>
      fileByte σ dp (16 * a + i)).getD i 0) = direntAt σ dp a := by
    funext i
    rw [getD_eq_getElem _ _ (by rw [length_map, length_range]; exact i.isLt),
      getElem_map, getElem_range, direntAt]
  rw [entry]
  split_ifs with here
  · exact looks_ret (found here)
  · exact next (Bool.eq_false_iff.mpr here)

theorem looks_dirscan {e : Panic} {m : ℕ} (inside : 16 * (m + 1) ≤ dp.size.toNat)
    (readable : ∀ p < 16 * (m + 1), Readable B σ dp p)
    (found : P (direntAt σ dp m) = true) (k : ℕ) {a : ℕ} (le : a ≤ m) (fuel : m < a + k)
    (before : ∀ l, a ≤ l → l < m → P (direntAt σ dp l) = false) :
    Looks NoPanic B (dirscan L e P k dp (16 * a)) σ fun r =>
      r = (16 * m, some (direntAt σ dp m), dp) := by
  induction k generalizing a with
  | zero => omega
  | succ k ih =>
    refine looks_dirscan_succ (by omega) (fun p _ upper => readable p (by omega)) ?_ ?_
    · intro here
      rcases eq_or_lt_of_le le with rfl | later
      · rfl
      · rw [before a (le_refl _) later] at here
        cases here
    · intro other
      have later : a < m := by
        refine lt_of_le_of_ne le ?_
        rintro rfl
        rw [found] at other
        cases other
      exact ih later (by omega) fun l lower upper => before l (by omega) upper

theorem looks_dirscan_cases {e : Panic} {m : ℕ} (size : dp.size.toNat = 16 * m)
    (readable : ∀ p < dp.size.toNat, Readable B σ dp p) (k : ℕ) {a : ℕ} (le : a ≤ m)
    (fuel : m < a + k) :
    Looks NoPanic B (dirscan L e P k dp (16 * a)) σ fun r =>
      (∃ i < m, (∀ j, a ≤ j → j < i → P (direntAt σ dp j) = false) ∧ P (direntAt σ dp i) = true ∧
          r = (16 * i, some (direntAt σ dp i), dp)) ∨
        (∀ i, a ≤ i → i < m → P (direntAt σ dp i) = false) ∧ r = (16 * m, none, dp) := by
  induction k generalizing a with
  | zero => omega
  | succ k ih =>
    rcases eq_or_lt_of_le le with rfl | inside
    · unfold dirscan
      rw [if_neg (by omega)]
      exact looks_ret (.inr ⟨fun i lower upper => absurd upper (by omega), rfl⟩)
    refine looks_dirscan_succ (by omega) (fun p _ upper => readable p (by omega)) ?_ ?_
    · exact fun here => .inl ⟨a, inside, fun j lower upper => absurd upper (by omega), here, rfl⟩
    · intro other
      have all {i : ℕ} (rest : ∀ j, a + 1 ≤ j → j < i → P (direntAt σ dp j) = false) (j : ℕ)
          (lower : a ≤ j) (upper : j < i) : P (direntAt σ dp j) = false := by
        rcases eq_or_lt_of_le lower with rfl | later
        · exact other
        · exact rest j later upper
      refine (ih inside (by omega)).mono ?_
      rintro r (⟨i, hi, rest, found⟩ | ⟨rest, stop⟩)
      · exact .inl ⟨i, hi, all rest, found⟩
      · exact .inr ⟨all rest, stop⟩

theorem looks_dirlookup {name : Name} {m : ℕ} (dir : dp.type = T_DIR)
    (inside : 16 * (m + 1) ≤ dp.size.toNat) (readable : ∀ p < 16 * (m + 1), Readable B σ dp p)
    (used : (direntAt σ dp m).inum ≠ 0) (found : strncpy name = strncpy (direntAt σ dp m).name)
    (before : ∀ l < m, strncpy name ≠ strncpy (direntAt σ dp l).name) :
    Looks NoPanic B (dirlookup L dp name) σ fun r =>
      r = (some ((direntAt σ dp m).inum, 16 * m), dp) := by
  unfold dirlookup
  rw [if_neg (not_not.mpr dir)]
  refine Looks.bind ((looks_dirscan (a := 0) inside readable ?_ _ zero_le ?_ ?_).mono ?_)
  · simp only [Bool.and_eq_true, decide_eq_true_eq]
    exact ⟨used, namecmp_iff.mpr found⟩
  · omega
  · intro l _ hl
    have differ : namecmp name (direntAt σ dp l).name = false :=
      Bool.eq_false_iff.mpr fun same => before l hl (namecmp_iff.mp same)
    rw [differ, Bool.and_false]
  · rintro r rfl
    exact looks_ret rfl

end

end Xv6.Fs
