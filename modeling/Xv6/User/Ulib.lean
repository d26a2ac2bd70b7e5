import Xv6.Lib.Bytes

/-!
# Strings and memory of user programs

`strchr` and `memmove` of `user/ulib.c`, and the string that stands at an address, inside one array
of bytes; and the `memmove` of `kernel/string.c`, which chooses the direction by another test.
-/

namespace Xv6.User

open Bytes List

variable {n p : ℕ} {b : Bytes n} {c : Byte} {s : List Byte}

/-! ## The code -/

/-- `strchr(s, c)`, where the string `s` stands at `s` in the array `b`. -/
def strchr (b : Bytes n) (c : Byte) (s : ℕ) : Option ℕ :=
  if s < n then
    if b.byte s = 0 then none
    else if b.byte s = c then some s
    else strchr b c (s + 1)
  else none
termination_by n - s

def cstr (b : Bytes n) (s : ℕ) : List Byte :=
  if s < n then
    if b.byte s = 0 then [] else b.byte s :: cstr b (s + 1)
  else []
termination_by n - s

def poke (b : Bytes n) (d : ℕ) (v : Byte) : Bytes n := b.blit d 1 fun _ => v

def copyUp (b : Bytes n) (dst src : ℕ) : ℕ → Bytes n
  | 0 => b
  | len + 1 => copyUp (poke b dst (b.byte src)) (dst + 1) (src + 1) len

def copyDown (b : Bytes n) (dst src : ℕ) : ℕ → Bytes n
  | 0 => b
  | len + 1 => copyDown (poke b (dst + len) (b.byte (src + len))) dst src len

def memmove (b : Bytes n) (dst src len : ℕ) : Bytes n :=
  if dst < src then copyUp b dst src len else copyDown b dst src len

/-! ## Copies -/

theorem byte_poke (b : Bytes n) {d : ℕ} (v : Byte) (fits : d < n) : (poke b d v).byte d = v :=
  byte_blit_in b _ fits (le_refl d) (Nat.lt_succ_self d)

theorem byte_poke_of_ne (b : Bytes n) {d i : ℕ} (v : Byte) (other : i ≠ d) :
    (poke b d v).byte i = b.byte i :=
  byte_blit_out b _ (by omega)

/-- No byte is overwritten before it is read when the copy starts below the source or behind it. -/
theorem copyUp_eq (b : Bytes n) {dst src len : ℕ} (safe : dst ≤ src ∨ src + len ≤ dst) :
    copyUp b dst src len = b.blit dst len fun i => b.byte (src + i) := by
  induction len generalizing b dst src with
  | zero => rw [copyUp, blit_zero]
  | succ len ih =>
    rw [copyUp, ih _ (by omega)]
    refine ext_byte fun j fits => ?_
    by_cases first : j = dst
    · rw [first, byte_blit_out _ _ (by omega), byte_poke _ _ (first ▸ fits),
        byte_blit_in _ _ (first ▸ fits) (by omega) (by omega), Nat.sub_self, add_zero]
    · by_cases inside : dst + 1 ≤ j ∧ j < dst + 1 + len
      · rw [byte_blit_in _ _ fits inside.1 inside.2, byte_poke_of_ne _ _ (by omega),
          byte_blit_in _ _ fits (by omega) (by omega)]
        congr 1
        omega
      · rw [byte_blit_out _ _ (by omega), byte_poke_of_ne _ _ first, byte_blit_out _ _ (by omega)]

theorem copyDown_eq (b : Bytes n) {dst src : ℕ} (above : src ≤ dst) (len : ℕ) :
    copyDown b dst src len = b.blit dst len fun i => b.byte (src + i) := by
  induction len generalizing b with
  | zero => rw [copyDown, blit_zero]
  | succ len ih =>
    rw [copyDown, ih]
    refine ext_byte fun j fits => ?_
    by_cases last : j = dst + len
    · rw [last, byte_blit_out _ _ (by omega), byte_poke _ _ (last ▸ fits),
        byte_blit_in _ _ (last ▸ fits) (by omega) (by omega), Nat.add_sub_cancel_left]
    · by_cases inside : dst ≤ j ∧ j < dst + len
      · rw [byte_blit_in _ _ fits inside.1 inside.2, byte_poke_of_ne _ _ (by omega),
          byte_blit_in _ _ fits (by omega) (by omega)]
      · rw [byte_blit_out _ _ (by omega), byte_poke_of_ne _ _ last, byte_blit_out _ _ (by omega)]

theorem memmove_eq (b : Bytes n) (dst src len : ℕ) :
    memmove b dst src len = b.blit dst len fun i => b.byte (src + i) := by
  rw [memmove]
  split_ifs with below
  · exact copyUp_eq b (.inl (le_of_lt below))
  · exact copyDown_eq b (Nat.le_of_not_lt below) len

/-! ## Lists of bytes in an array -/

def HoldsAt (b : Bytes n) (p : ℕ) (s : List Byte) : Prop :=
  ∀ i < s.length, b.byte (p + i) = s.getD i 0

theorem HoldsAt.nil (b : Bytes n) (p : ℕ) : HoldsAt b p [] := nofun

theorem holdsAt_cons : HoldsAt b p (c :: s) ↔ b.byte p = c ∧ HoldsAt b (p + 1) s := by
  constructor
  · intro holds
    refine ⟨holds 0 (Nat.succ_pos _), fun i hi => ?_⟩
    rw [add_assoc, add_comm 1 i]
    exact holds (i + 1) (Nat.succ_lt_succ hi)
  · rintro ⟨first, rest⟩ i hi
    cases i with
    | zero => exact first
    | succ i =>
      rw [add_comm i 1, ← add_assoc, add_comm 1 i]
      exact rest i (Nat.lt_of_succ_lt_succ hi)

theorem holdsAt_append {s t : List Byte} :
    HoldsAt b p (s ++ t) ↔ HoldsAt b p s ∧ HoldsAt b (p + s.length) t := by
  induction s generalizing p with
  | nil => exact ⟨fun holds => ⟨.nil b p, holds⟩, fun holds => holds.2⟩
  | cons c s ih =>
    rw [cons_append, holdsAt_cons, ih, holdsAt_cons, and_assoc, length_cons,
      add_assoc p 1, add_comm 1]

theorem HoldsAt.congr {b b' : Bytes n} (holds : HoldsAt b p s)
    (same : ∀ i, p ≤ i → i < p + s.length → b'.byte i = b.byte i) : HoldsAt b' p s := by
  intro i hi
  rw [same _ (Nat.le_add_right p i) (Nat.add_lt_add_left hi p)]
  exact holds i hi

theorem holdsAt_blit {src : ℕ → Byte} (fits : p + s.length ≤ n)
    (same : ∀ i < s.length, src i = s.getD i 0) : HoldsAt (b.blit p s.length src) p s := by
  intro i hi
  rw [byte_blit_in _ _ (by omega) (by omega) (by omega), Nat.add_sub_cancel_left]
  exact same i hi

theorem strchr_eq_some
    (holds : HoldsAt b p s) (found : b.byte (p + s.length) = c) (fits : p + s.length < n)
    (nonzero : 0 ∉ s) (proper : c ≠ 0) (first : c ∉ s) : strchr b c p = some (p + s.length) := by
  induction s generalizing p with
  | nil =>
    rw [strchr, if_pos (show p < n from fits), show b.byte p = c from found, if_neg proper, if_pos rfl]
    rfl
  | cons d s ih =>
    obtain ⟨here, rest⟩ := holdsAt_cons.mp holds
    rw [mem_cons, not_or] at nonzero first
    have next : p + 1 + s.length = p + (d :: s).length := by
      rw [length_cons]
      omega
    rw [strchr, if_pos (by omega), here, if_neg (Ne.symm nonzero.1), if_neg (Ne.symm first.1),
      ih rest (by rwa [next]) (by rwa [next]) nonzero.2 first.2, next]

theorem strchr_eq_none (holds : HoldsAt b p s) (ends : b.byte (p + s.length) = 0) (absent : c ∉ s) :
    strchr b c p = none := by
  induction s generalizing p with
  | nil =>
    rw [strchr, show b.byte p = 0 from ends, if_pos rfl, ite_self]
  | cons d s ih =>
    obtain ⟨here, rest⟩ := holdsAt_cons.mp holds
    rw [mem_cons, not_or] at absent
    have next : p + 1 + s.length = p + (d :: s).length := by
      rw [length_cons]
      omega
    rw [strchr, here, if_neg (Ne.symm absent.1), ih rest (by rwa [next]) absent.2, ite_self, ite_self]

theorem strchr_bounds {p q : ℕ} (found : strchr b c p = some q) : p ≤ q ∧ q < n := by
  fun_induction strchr b c p with
  | case1 => cases found
  | case2 s inside nonzero =>
    cases found
    exact ⟨le_refl _, inside⟩
  | case3 s inside nonzero other ih =>
    obtain ⟨lower, upper⟩ := ih found
    exact ⟨by omega, upper⟩
  | case4 => cases found

theorem cstr_eq (holds : HoldsAt b p s) (ends : b.byte (p + s.length) = 0) (fits : p + s.length ≤ n)
    (nonzero : 0 ∉ s) : cstr b p = s := by
  induction s generalizing p with
  | nil => rw [cstr, show b.byte p = 0 from ends, if_pos rfl, ite_self]
  | cons d s ih =>
    obtain ⟨here, rest⟩ := holdsAt_cons.mp holds
    rw [mem_cons, not_or] at nonzero
    have next : p + 1 + s.length = p + (d :: s).length := by
      rw [length_cons]
      omega
    rw [cstr, if_pos (by omega), here, if_neg (Ne.symm nonzero.1),
      ih rest (by rwa [next]) (by rwa [next]) nonzero.2]

end Xv6.User

/-! ## The kernel's memmove -/

namespace Xv6.Kernel

open User

variable {n : ℕ}

/-- `memmove` of the kernel; the pointer `s + n` wraps at the end of the address space. -/
def memmove (b : Bytes n) (dst src len : ℕ) : Bytes n :=
  if len = 0 then b
  else if src < dst ∧ dst < (src + len) % 2 ^ 64 then copyDown b dst src len
  else copyUp b dst src len

theorem memmove_eq (b : Bytes n) {dst src len : ℕ} (fits : dst + len ≤ 2 ^ 64) :
    memmove b dst src len = b.blit dst len fun i => b.byte (src + i) := by
  rw [memmove]
  split_ifs with empty down
  · rw [empty, Bytes.blit_zero]
  · exact copyDown_eq b (le_of_lt down.1) len
  · apply copyUp_eq
    by_contra overlap
    -- the source starts below the destination, so it ends before the address space does
    rw [Nat.mod_eq_of_lt (by omega)] at down
    omega

/-- Both versions of `memmove` copy the old bytes of the source and change nothing else. -/
theorem memmove_copies (b : Bytes n) (memory : n ≤ 2 ^ 64) (dst src len : ℕ) (target : dst + len ≤ n) :
    (∀ i < len, (memmove b dst src len).byte (dst + i) = b.byte (src + i)) ∧
    (∀ a, a < dst ∨ dst + len ≤ a → (memmove b dst src len).byte a = b.byte a) ∧
    (∀ i < len, (User.memmove b dst src len).byte (dst + i) = b.byte (src + i)) ∧
    (∀ a, a < dst ∨ dst + len ≤ a → (User.memmove b dst src len).byte a = b.byte a) ∧
    memmove b dst src len = User.memmove b dst src len := by
  have copied (i : ℕ) (hi : i < len) :
      (b.blit dst len fun i => b.byte (src + i)).byte (dst + i) = b.byte (src + i) := by
    rw [Bytes.byte_blit_in _ _ (by omega) (by omega) (by omega), Nat.add_sub_cancel_left]
  have kept (a : ℕ) (outside : a < dst ∨ dst + len ≤ a) :
      (b.blit dst len fun i => b.byte (src + i)).byte a = b.byte a :=
    Bytes.byte_blit_out b _ outside
  rw [memmove_eq b (le_trans target memory), User.memmove_eq]
  exact ⟨copied, kept, copied, kept, rfl⟩

/-- Three bytes are moved by one place in either direction. -/
theorem memmove_copies_four :
    let b : Bytes 4 := fun i => BitVec.ofNat 8 i
    (memmove b 1 0 3).byte 3 = 2 ∧ (memmove b 0 1 3).byte 0 = 1 ∧
      memmove b 1 0 3 = User.memmove b 1 0 3 := by
  intro b
  have up := memmove_copies b (by decide) 1 0 3 (by decide)
  have down := memmove_copies b (by decide) 0 1 3 (by decide)
  exact ⟨up.1 2 (by decide), down.1 0 (by decide), up.2.2.2.2⟩

end Xv6.Kernel
