import Mathlib.Data.Nat.ModEq
import Mathlib.Tactic.NormNum.GCD
import Mathlib.Tactic.Ring

/-!
# The random generators

`rand`, `srand` and `rand_r` of `user/ulib.c` and `grind_do_rand` of `user/grind.c`, on machine words.
All three multiply by `16807` modulo `2 ^ 31 - 1` and differ in the range in which they keep their
state.
-/

namespace Xv6.User

open BitVec

/-! ## The code -/

def schrage (hi lo : BitVec 64) : BitVec 64 :=
  let x := 16807 * lo - 2836 * hi
  if x.slt 0 then x + 0x7fffffff else x

/-- `do_rand`: what it leaves in `*ctx` and what it returns. -/
def doRand (ctx : BitVec 64) : BitVec 64 × BitVec 32 :=
  let x := schrage (ctx / 127773) (ctx % 127773)
  (x, (x - 1).setWidth 32)

/-- `srand(seed)`. -/
def srand (seed : BitVec 32) : BitVec 64 := (seed % 0x7ffffffe + 1).setWidth 64

/-- `rand()`. -/
def rand (nextRand : BitVec 64) : BitVec 64 × BitVec 32 := doRand nextRand

def randVal (state : BitVec 32) : BitVec 64 := (state % 0x7ffffffe + 1).setWidth 64

/-- `rand_r()`. -/
def randR (state : BitVec 32) : BitVec 32 × BitVec 32 :=
  let (val, r) := doRand (randVal state)
  ((val - 1).setWidth 32, r)

def grindVal (ctx : BitVec 64) : BitVec 64 := ctx % 0x7ffffffe + 1

/-- `grind_do_rand`, with `*ctx` before and after; its division is signed. -/
def grindDoRand (ctx : BitVec 64) : BitVec 64 × BitVec 32 :=
  let x := grindVal ctx
  let x := schrage (x.sdiv 127773) (x.srem 127773) - 1
  (x, x.setWidth 32)

def RAND_MAX : ℤ := 0x7ffffffd

section Calls

variable {σ : Type} (f : σ → σ × BitVec 32)

def stateAfter (s : σ) (n : ℕ) : σ := (fun s => (f s).1)^[n] s

/-- The value that the call number `n` returns, the first call being number 0. -/
def valueAt (s : σ) (n : ℕ) : BitVec 32 := (f (stateAfter f s n)).2

theorem stateAfter_succ (s : σ) (n : ℕ) : stateAfter f s (n + 1) = (f (stateAfter f s n)).1 :=
  Function.iterate_succ_apply' ..

end Calls

/-- No operation of `do_rand` on this state leaves the range of its type. -/
structure NoOverflow (ctx : BitVec 64) : Prop where
  lo : |16807 * (ctx % 127773).toInt| < 2 ^ 63
  hi : |2836 * (ctx / 127773).toInt| < 2 ^ 63
  diff : |16807 * (ctx % 127773).toInt - 2836 * (ctx / 127773).toInt| < 2 ^ 63
  sum : |16807 * (ctx % 127773).toInt - 2836 * (ctx / 127773).toInt + 0x7fffffff| < 2 ^ 63
  ret : |(doRand ctx).1.toInt - 1| < 2 ^ 31

/-! ## One call -/

/-- The state of the generator as a number: the `n`-th power of the multiplier times the seed. -/
def park (seed n : ℕ) : ℕ := 16807 ^ n * (seed % 0x7ffffffe + 1) % (2 ^ 31 - 1)

theorem park_succ (seed n : ℕ) : park seed (n + 1) = 16807 * park seed n % (2 ^ 31 - 1) := by
  rw [park, park, Nat.mul_mod_mod, pow_succ']
  congr 1
  ring

/-- The multiplier is invertible, so no state is zero. -/
theorem park_range (seed n : ℕ) : 1 ≤ park seed n ∧ park seed n ≤ 2 ^ 31 - 2 := by
  have lt : park seed n < 2 ^ 31 - 1 := Nat.mod_lt _ (by decide)
  refine ⟨Nat.pos_of_ne_zero fun zero => ?_, by omega⟩
  have coprime : Nat.Coprime (2 ^ 31 - 1) (16807 ^ n) :=
    Nat.Coprime.pow_right n (by norm_num)
  have divides := coprime.dvd_of_dvd_mul_left (Nat.dvd_of_mod_eq_zero zero)
  have := Nat.le_of_dvd (Nat.succ_pos _) divides
  omega

section Step

variable {s : ℕ} {hi lo : BitVec 64}

theorem product_toInt (hlo : lo.toNat < 127773) (hhi : hi.toNat ≤ 16807) :
    (16807 * lo - 2836 * hi).toInt = 16807 * (lo.toNat : ℤ) - 2836 * hi.toNat := by
  rw [toInt_eq_toNat_cond, toNat_sub, toNat_mul, toNat_mul]
  simp only [ofNat_eq_ofNat, toNat_ofNat]
  omega

/-- Schrage's method computes the product modulo `2 ^ 31 - 1`. -/
theorem schrage_toNat (hs : s ≤ 2 ^ 31 - 2) (hlo : lo.toNat = s % 127773)
    (hhi : hi.toNat = s / 127773) : (schrage hi lo).toNat = 16807 * s % (2 ^ 31 - 1) := by
  have value : (16807 * lo - 2836 * hi).toInt = _ := product_toInt (by omega) (by omega)
  -- `16807 * 127773 = 2 ^ 31 - 1 - 2836`
  have split : (16807 * s : ℤ) = (2 ^ 31 - 1) * hi.toNat + (16807 * lo.toNat - 2836 * hi.toNat) := by
    omega
  simp only [schrage]
  generalize 16807 * lo - 2836 * hi = x at value ⊢
  simp only [slt_iff_toInt_lt, ofNat_eq_ofNat, toInt_zero]
  rw [toInt_eq_toNat_cond] at value
  split_ifs with negative <;> rw [toInt_eq_toNat_cond] at negative
  · have wraps : (x + 2147483647#64).toNat = x.toNat + 2147483647 - 2 ^ 64 := by
      rw [toNat_add, toNat_ofNat]
      omega
    rw [wraps]
    omega
  · omega

end Step

theorem doRand_fst {ctx : BitVec 64} (range : ctx.toNat ≤ 2 ^ 31 - 2) :
    (doRand ctx).1.toNat = 16807 * ctx.toNat % (2 ^ 31 - 1) :=
  schrage_toNat range (toNat_umod ..) (toNat_udiv ..)

theorem doRand_snd (ctx : BitVec 64) : (doRand ctx).2 = ((doRand ctx).1 - 1).setWidth 32 := rfl

theorem toInt_pred {x : BitVec 64} (range : 1 ≤ x.toNat ∧ x.toNat ≤ 2 ^ 31 - 2) :
    ((x - 1).setWidth 32).toInt = x.toNat - 1 := by
  rw [toInt_eq_toNat_cond, toNat_setWidth, toNat_sub]
  simp only [ofNat_eq_ofNat, toNat_ofNat]
  omega

theorem noOverflow {ctx : BitVec 64} (range : 1 ≤ ctx.toNat ∧ ctx.toNat ≤ 2 ^ 31 - 2) :
    NoOverflow ctx := by
  have lo : (ctx % 127773).toInt = ctx.toNat % 127773 := by
    rw [toInt_eq_toNat_cond, toNat_umod]
    simp only [ofNat_eq_ofNat, toNat_ofNat, Nat.reduceMod, Nat.reducePow]
    omega
  have hi : (ctx / 127773).toInt = ctx.toNat / 127773 := by
    rw [toInt_eq_toNat_cond, toNat_udiv]
    simp only [ofNat_eq_ofNat, toNat_ofNat, Nat.reduceMod, Nat.reducePow]
    omega
  have next : (doRand ctx).1.toInt = (16807 * ctx.toNat % (2 ^ 31 - 1) : ℕ) := by
    rw [toInt_eq_toNat_cond, doRand_fst range.2]
    omega
  constructor
  · rw [lo, abs_lt]
    omega
  · rw [hi, abs_lt]
    omega
  · rw [lo, hi, abs_lt]
    omega
  · rw [lo, hi, abs_lt]
    omega
  · rw [next, abs_lt]
    omega

/-! ## The three generators -/

theorem srand_toNat (seed : BitVec 32) : (srand seed).toNat = seed.toNat % 0x7ffffffe + 1 := by
  rw [srand, toNat_setWidth, toNat_add, toNat_umod]
  simp only [ofNat_eq_ofNat, toNat_ofNat, Nat.reduceMod, Nat.reducePow]
  omega

theorem grindVal_toNat (ctx : BitVec 64) : (grindVal ctx).toNat = ctx.toNat % 0x7ffffffe + 1 := by
  rw [grindVal, toNat_add, toNat_umod]
  simp only [ofNat_eq_ofNat, toNat_ofNat, Nat.reduceMod, Nat.reducePow]
  omega

theorem grindDoRand_eq (ctx : BitVec 64) :
    grindDoRand ctx = ((doRand (grindVal ctx)).1 - 1, (doRand (grindVal ctx)).2) := by
  have positive : (grindVal ctx).msb = false := by
    rw [msb_eq_false_iff_two_mul_lt, grindVal_toNat]
    omega
  have divide : (grindVal ctx).sdiv 127773 = grindVal ctx / 127773 := by
    rw [sdiv_eq, positive]
    rfl
  have rest : (grindVal ctx).srem 127773 = grindVal ctx % 127773 := by
    rw [srem_eq, positive]
    rfl
  simp only [grindDoRand, divide, rest, doRand]

theorem rand_state (seed : BitVec 32) (n : ℕ) :
    (stateAfter rand (srand seed) n).toNat = park seed.toNat n := by
  induction n with
  | zero =>
    rw [stateAfter, Function.iterate_zero_apply, srand_toNat, park, pow_zero, one_mul]
    omega
  | succ n ih =>
    rw [stateAfter_succ, rand, doRand_fst (ih ▸ (park_range _ _).2), ih, park_succ]

theorem randR_state (seed : BitVec 32) (n : ℕ) :
    (randVal (stateAfter randR seed n)).toNat = park seed.toNat n := by
  induction n with
  | zero => exact rand_state seed 0
  | succ n ih =>
    have range := park_range seed.toNat (n + 1)
    rw [park_succ, ← ih, ← doRand_fst (ih ▸ (park_range _ _).2)] at range
    rw [stateAfter_succ, park_succ, ← ih, ← doRand_fst (ih ▸ (park_range _ _).2)]
    exact (srand_toNat _).trans (by
      simp only [randR, toNat_setWidth, toNat_sub, ofNat_eq_ofNat, toNat_ofNat]
      omega)

theorem grind_state (seed : BitVec 32) (n : ℕ) :
    (grindVal (stateAfter grindDoRand (seed.setWidth 64) n)).toNat = park seed.toNat n := by
  induction n with
  | zero =>
    rw [stateAfter, Function.iterate_zero_apply, grindVal_toNat, park, pow_zero, one_mul,
      toNat_setWidth]
    omega
  | succ n ih =>
    have range := park_range seed.toNat (n + 1)
    rw [park_succ, ← ih, ← doRand_fst (ih ▸ (park_range _ _).2)] at range
    rw [stateAfter_succ, grindDoRand_eq, park_succ, ← ih, ← doRand_fst (ih ▸ (park_range _ _).2),
      grindVal_toNat, toNat_sub]
    simp only [ofNat_eq_ofNat, toNat_ofNat]
    omega

/-- What `do_rand` or its copy in `grind.c` gets as its state in call `n` of the three generators. -/
def states (seed : BitVec 32) (n : ℕ) : List (BitVec 64) :=
  [stateAfter rand (srand seed) n, randVal (stateAfter randR seed n),
    grindVal (stateAfter grindDoRand (seed.setWidth 64) n)]

/-- The `n`-th values of the three generators are the power of the multiplier times the seed, less
one; no state is zero and nothing overflows. -/
theorem generators_agree (seed : BitVec 32) (n : ℕ) :
    ((valueAt rand (srand seed) n).toInt = park seed.toNat (n + 1) - 1 ∧
      (valueAt randR seed n).toInt = park seed.toNat (n + 1) - 1 ∧
      (valueAt grindDoRand (seed.setWidth 64) n).toInt = park seed.toNat (n + 1) - 1) ∧
    (0 ≤ (park seed.toNat (n + 1) : ℤ) - 1 ∧ (park seed.toNat (n + 1) : ℤ) - 1 ≤ RAND_MAX) ∧
    (∀ s ∈ states seed n, 1 ≤ s.toNat ∧ s.toNat ≤ 2 ^ 31 - 2) ∧
    ∀ s ∈ states seed n, NoOverflow s := by
  have same : ∀ s ∈ states seed n, s.toNat = park seed.toNat n := by
    intro s hs
    rcases List.mem_cons.mp hs with rfl | hs
    · exact rand_state seed n
    rcases List.mem_cons.mp hs with rfl | hs
    · exact randR_state seed n
    · rw [List.mem_singleton.mp hs]
      exact grind_state seed n
  have range (s : BitVec 64) (hs : s ∈ states seed n) : 1 ≤ s.toNat ∧ s.toNat ≤ 2 ^ 31 - 2 := by
    rw [same s hs]
    exact park_range _ _
  -- one call returns the next state less one
  have value (s : BitVec 64) (hs : s ∈ states seed n) :
      (doRand s).2.toInt = (park seed.toNat (n + 1) : ℤ) - 1 := by
    have moved : (doRand s).1.toNat = park seed.toNat (n + 1) := by
      rw [doRand_fst (range s hs).2, same s hs, ← park_succ]
    have bounds := park_range seed.toNat (n + 1)
    rw [doRand_snd, toInt_pred (moved ▸ bounds), moved]
  have bounds := park_range seed.toNat (n + 1)
  refine ⟨⟨value _ (by simp [states]), value (randVal _) (by simp [states]), ?_⟩, ?_, range, ?_⟩
  · rw [valueAt, grindDoRand_eq]
    exact value _ (by simp [states])
  · rw [RAND_MAX]
    omega
  · intro s hs
    exact noOverflow (range s hs)

end Xv6.User
