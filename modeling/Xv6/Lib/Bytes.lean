import Mathlib.Data.BitVec

/-!
# Fixed-size byte arrays

A block of memory of `n` bytes with a total accessor, copying of a range of bytes, little-endian
words at any offset and single bits.  Each writer has one lemma for the place it writes and one
for everything else.
-/

abbrev Byte := BitVec 8

abbrev Bytes (n : ℕ) := Fin n → Byte

namespace Bytes

variable {n : ℕ}

/-- Byte `i`, or zero outside. -/
def byte (b : Bytes n) (i : ℕ) : Byte := if h : i < n then b ⟨i, h⟩ else 0

/-- Overwrite the bytes `off`, …, `off + len - 1` by `src 0`, …, `src (len - 1)`. -/
def blit (b : Bytes n) (off len : ℕ) (src : ℕ → Byte) : Bytes n := fun j =>
  if off ≤ j.val ∧ j.val < off + len then src (j.val - off) else b j

theorem ext_byte {b b' : Bytes n} (h : ∀ i < n, b.byte i = b'.byte i) : b = b' := by
  funext j
  have := h j.val j.isLt
  simpa only [byte, j.isLt, dite_true] using this

theorem byte_blit_in (b : Bytes n) {off len i : ℕ} (src : ℕ → Byte) (hn : i < n)
    (lo : off ≤ i) (hi : i < off + len) : (b.blit off len src).byte i = src (i - off) := by
  simp only [byte, blit, hn, dite_true, lo, hi, and_self, if_true]

theorem byte_blit_out (b : Bytes n) {off len i : ℕ} (src : ℕ → Byte)
    (out : i < off ∨ off + len ≤ i) : (b.blit off len src).byte i = b.byte i := by
  unfold byte blit
  split
  · rw [if_neg]
    simp only
    omega
  · rfl

theorem blit_congr (b : Bytes n) {off len : ℕ} {src src' : ℕ → Byte}
    (same : ∀ i < len, src i = src' i) : b.blit off len src = b.blit off len src' := by
  funext j
  unfold blit
  split_ifs with inside
  · exact same _ (by omega)
  · rfl

theorem blit_zero (b : Bytes n) (off : ℕ) (src : ℕ → Byte) : b.blit off 0 src = b := by
  funext j
  rw [blit, if_neg]
  omega

/-! ## Bits -/

def bit (b : Bytes n) (i : ℕ) : Bool := (b.byte (i / 8)).getLsbD (i % 8)

def setBit (b : Bytes n) (i : ℕ) (v : Bool) : Bytes n :=
  b.blit (i / 8) 1 fun _ =>
    if v then b.byte (i / 8) ||| (1#8 <<< (i % 8)) else b.byte (i / 8) &&& ~~~(1#8 <<< (i % 8))

theorem bit_setBit_self (b : Bytes n) {i : ℕ} (v : Bool) (fits : i / 8 < n) :
    (b.setBit i v).bit i = v := by
  have hi : i % 8 < 8 := Nat.mod_lt _ (by decide)
  rw [bit, setBit, byte_blit_in _ _ fits (le_refl _) (Nat.lt_succ_self _)]
  cases v <;> simp [hi]

theorem bit_setBit_of_ne (b : Bytes n) {i j : ℕ} (v : Bool) (fits : i / 8 < n) (hj : j ≠ i) :
    (b.setBit i v).bit j = b.bit j := by
  have hi : i % 8 < 8 := Nat.mod_lt _ (by decide)
  have hj' : j % 8 < 8 := Nat.mod_lt _ (by decide)
  by_cases same : j / 8 = i / 8
  · have apart : j % 8 < i % 8 ∨ j % 8 - i % 8 ≠ 0 := by omega
    rw [bit, bit, setBit, same, byte_blit_in _ _ fits (le_refl _) (Nat.lt_succ_self _)]
    cases v
    · simp [hj', apart]
    · rcases apart with lt | ne
      · simp [hj', lt]
      · simp [hj', ne]
  · rw [bit, bit, setBit, byte_blit_out _ _ (by omega)]

/-! ## Words -/

/-- The little-endian word of `k` bytes at offset `off`. -/
def word (b : Bytes n) (off : ℕ) : (k : ℕ) → BitVec (8 * k)
  | 0 => 0#0
  | k + 1 => b.word (off + 1) k ++ b.byte off

theorem getLsbD_word (b : Bytes n) {off k i : ℕ} (hi : i < 8 * k) :
    (b.word off k).getLsbD i = b.bit (8 * off + i) := by
  induction k generalizing off i with
  | zero => omega
  | succ k ih =>
    rw [word, BitVec.getLsbD_append]
    split_ifs with low
    · rw [bit, show (8 * off + i) / 8 = off by omega, show (8 * off + i) % 8 = i by omega]
    · rw [ih (by omega), show 8 * (off + 1) + (i - 8) = 8 * off + i by omega]

def setWord (b : Bytes n) (off k : ℕ) (v : BitVec (8 * k)) : Bytes n :=
  b.blit off k fun i => v.extractLsb' (8 * i) 8

theorem word_congr {b b' : Bytes n} {off k : ℕ}
    (h : ∀ i, off ≤ i → i < off + k → b.byte i = b'.byte i) : b.word off k = b'.word off k := by
  refine BitVec.eq_of_getLsbD_eq fun i hi => ?_
  rw [getLsbD_word b hi, getLsbD_word b' hi, bit, bit, h _ (by omega) (by omega)]

theorem word_eq_of_byte {b : Bytes n} {off k : ℕ} {v : BitVec (8 * k)}
    (h : ∀ j < k, b.byte (off + j) = v.extractLsb' (8 * j) 8) : b.word off k = v := by
  refine BitVec.eq_of_getLsbD_eq fun i hi => ?_
  have place : (8 * off + i) / 8 = off + i / 8 := by omega
  have within : (8 * off + i) % 8 = i % 8 := by omega
  rw [getLsbD_word _ hi, bit, place, within, h _ (by omega), BitVec.getLsbD_extractLsb',
    decide_eq_true (Nat.mod_lt i (by decide)), Bool.true_and, Nat.div_add_mod]

theorem word_setWord (b : Bytes n) {off k : ℕ} (v : BitVec (8 * k)) (fits : off + k ≤ n) :
    (b.setWord off k v).word off k = v := by
  refine word_eq_of_byte fun j hj => ?_
  rw [setWord, byte_blit_in _ _ (by omega) (by omega) (by omega), Nat.add_sub_cancel_left]

theorem word_zero (off k : ℕ) : word (fun _ => 0 : Bytes n) off k = 0 := by
  refine word_eq_of_byte fun j _ => ?_
  simp [byte]

theorem word_blit_in {m : ℕ} (b : Bytes n) (src : Bytes m) {off len o k : ℕ} (inside : o + k ≤ len)
    (fits : off + len ≤ n) : (b.blit off len src.byte).word (off + o) k = src.word o k := by
  refine BitVec.eq_of_getLsbD_eq fun i hi => ?_
  have place : (8 * (off + o) + i) / 8 = off + (8 * o + i) / 8 := by omega
  have within : (8 * (off + o) + i) % 8 = (8 * o + i) % 8 := by omega
  rw [getLsbD_word _ hi, getLsbD_word _ hi, bit, bit, place, within,
    byte_blit_in _ _ (by omega) (by omega) (by omega), Nat.add_sub_cancel_left]

theorem word_blit_out (b : Bytes n) {off len off' k : ℕ} (src : ℕ → Byte)
    (apart : off' + k ≤ off ∨ off + len ≤ off') : (b.blit off len src).word off' k = b.word off' k :=
  word_congr fun i _ _ => byte_blit_out b src (by omega)

theorem word_setWord_out (b : Bytes n) {off k off' k' : ℕ} (v : BitVec (8 * k))
    (apart : off' + k' ≤ off ∨ off + k ≤ off') : (b.setWord off k v).word off' k' = b.word off' k' :=
  word_blit_out b _ apart

end Bytes
