import Mathlib.Data.Nat.Bitwise
import Mathlib.Data.Nat.Factorization.Basic
import Mathlib.Tactic.Ring

namespace Diem.Word64

open Nat

/-!
# Unsigned 64-bit arithmetic on natural numbers

A 64-bit word is a natural number below `2 ^ 64`.  Addition and multiplication of
an optimised build wrap around, which `wrap` states; checked addition fails
instead.  The bit counts of the standard library are defined by recursion over the
64 bits, and specified through the odd part of a word.
-/

/-- Reduce a result to 64 bits, as wrapping arithmetic does. -/
def wrap (value : Nat) : Nat := value % 2 ^ 64

/-- Addition that fails when the sum does not fit in 64 bits. -/
def checkedAdd? (first second : Nat) : Option Nat :=
  if first + second < 2 ^ 64 then
    some (first + second)
  else
    none

/-- Wrapping subtraction. -/
def sub (left right : Nat) : Nat := wrap (left + 2 ^ 64 - right)

/-- Flip all 64 bits. -/
def complement (value : Nat) : Nat := 2 ^ 64 - 1 - value

/-- Shift left, dropping what leaves the 64 bits. -/
def shiftLeft (value amount : Nat) : Nat :=
  wrap (value <<< amount)

/-- Count the zero bits below the lowest set bit of the first `bits` bits. -/
def trailingZerosFrom : (bits : Nat) → Nat → Nat
  | 0, _ => 0
  | bits + 1, value =>
    if value % 2 = 1 then
      0
    else
      trailingZerosFrom bits (value / 2) + 1

/-- The number of zero bits below the lowest set bit, 64 for zero. -/
def trailingZeros (value : Nat) : Nat :=
  trailingZerosFrom 64 value

/-- The number of zero bits above the highest set bit, 64 for zero. -/
def leadingZeros (value : Nat) : Nat :=
  if value = 0 then 64 else 63 - log2 value

/-- Count the set bits among the first `bits` bits. -/
def countOnesFrom : (bits : Nat) → Nat → Nat
  | 0, _ => 0
  | bits + 1, value => value % 2 + countOnesFrom bits (value / 2)

/-- The number of set bits. -/
def countOnes (value : Nat) : Nat := countOnesFrom 64 value

theorem wrap_lt (value : Nat) : wrap value < 2 ^ 64 := mod_lt value (by decide)

variable {value : Nat}

theorem wrap_eq_self (fits : value < 2 ^ 64) : wrap value = value := mod_eq_of_lt fits

theorem wrap_wrap_add (first second : Nat) :
    wrap (wrap first + second) = wrap (first + second) := by
  simp [wrap, mod_add_mod]

/-- A checked sum exists exactly when it fits, and then it is the sum. -/
theorem checkedAdd?_eq_some_iff {first second sum : Nat} :
    checkedAdd? first second = some sum ↔ sum = first + second ∧ first + second < 2 ^ 64 := by
  by_cases fits : first + second < 2 ^ 64
  · rw [checkedAdd?, if_pos fits]
    constructor
    · intro same
      exact ⟨(Option.some.inj same).symm, fits⟩
    · rintro ⟨sumShape, -⟩
      rw [sumShape]
  · rw [checkedAdd?, if_neg fits]
    constructor
    · intro impossible
      exact (Option.some_ne_none sum impossible.symm).elim
    · rintro ⟨-, fitsAfterAll⟩
      exact (fits fitsAfterAll).elim

theorem sub_of_le {left right : Nat} (ordered : right ≤ left) (fits : left < 2 ^ 64) :
    sub left right = left - right := by
  have shifted : left + 2 ^ 64 - right = left - right + 2 ^ 64 := by omega
  rw [sub, wrap, shifted, add_mod_right, mod_eq_of_lt (by omega)]

theorem testBit_complement (fits : value < 2 ^ 64) (bit : Nat) :
    (complement value).testBit bit = (decide (bit < 64) && !value.testBit bit) := by
  rw [complement, Nat.sub_sub, Nat.add_comm 1 value]
  exact testBit_two_pow_sub_succ fits bit

section

variable {operation : Bool → Bool → Bool} {bits low : Nat}

/-- A bitwise operation splits at every boundary. -/
theorem bitwise_split {low' : Nat} (zero : operation false false = false) (small : low < 2 ^ bits)
    (small' : low' < 2 ^ bits) (high high' : Nat) :
    bitwise operation (2 ^ bits * high + low) (2 ^ bits * high' + low') =
      2 ^ bits * bitwise operation high high' + bitwise operation low low' := by
  have positive := Nat.two_pow_pos bits
  rw [← Nat.div_add_mod (bitwise operation _ _) (2 ^ bits), bitwise_div_two_pow zero,
    bitwise_mod_two_pow zero]
  simp [Nat.mul_add_div positive, Nat.div_eq_of_lt, Nat.mod_eq_of_lt, small, small']

/-- An operation with a word of one bit changes that bit. -/
theorem bitwise_two_pow (idle : ∀ flag, operation flag false = flag) (small : low < 2 ^ bits)
    (flag : Bool) (high : Nat) :
    bitwise operation (2 ^ bits * bit flag high + low) (2 ^ bits) =
      2 ^ bits * bit (operation flag true) high + low := by
  have split := bitwise_split (idle false) small (Nat.two_pow_pos bits) (bit flag high) (bit true 0)
  rw [bitwise_bit (idle false)] at split
  simpa [idle] using split

/-- Masking with a complement. -/
theorem and_complement {mask : Nat} (fits : value < 2 ^ 64) (maskFits : mask < 2 ^ 64) :
    value &&& complement mask = bitwise (fun first second => first && !second) value mask := by
  apply eq_of_testBit_eq
  intro bit
  rw [testBit_and, testBit_complement maskFits, testBit_bitwise rfl]
  by_cases inside : bit < 64
  · simp [inside]
  · have absent := fits.trans_le (Nat.pow_le_pow_right (by decide) (not_lt.mp inside))
    simp [inside, testBit_lt_two_pow absent]

/-- Clearing a bit. -/
theorem and_complement_two_pow {high : Nat} (bitsSmall : bits < 64) (small : low < 2 ^ bits)
    (fits : 2 ^ bits * high + low < 2 ^ 64) :
    (2 ^ bits * high + low) &&& complement (2 ^ bits) = 2 ^ bits * (2 * (high / 2)) + low := by
  rw [and_complement fits (Nat.pow_lt_pow_right (by decide) bitsSmall)]
  have cleared := @bitwise_two_pow (fun first second => first && !second) bits low
    (by simp) small (high.testBit 0) (high / 2)
  rw [← Nat.shiftRight_one, bit_testBit_zero_shiftRight_one] at cleared
  simpa [Nat.shiftRight_one] using cleared

end

variable {bits zeros odd : Nat}

theorem trailingZerosFrom_two_pow_mul (isOdd : odd % 2 = 1) (inside : zeros < bits) :
    trailingZerosFrom bits (2 ^ zeros * odd) = zeros := by
  induction zeros generalizing bits with
  | zero =>
    obtain ⟨bits, rfl⟩ := exists_eq_add_one.mpr inside
    simp [trailingZerosFrom, isOdd]
  | succ zeros ih =>
    obtain ⟨bits, rfl⟩ := exists_eq_add_one.mpr (by omega : 0 < bits)
    have doubled : 2 ^ (zeros + 1) * odd = 2 * (2 ^ zeros * odd) := by ring
    rw [doubled, trailingZerosFrom, if_neg (by omega), Nat.mul_div_cancel_left _ (by decide),
      ih (by omega)]

theorem trailingZeros_two_pow_mul (isOdd : odd % 2 = 1) (inside : zeros < 64) :
    trailingZeros (2 ^ zeros * odd) = zeros :=
  trailingZerosFrom_two_pow_mul isOdd inside

theorem exponent_lt {exponent factor bound : Nat} (positive : 0 < factor)
    (fits : 2 ^ exponent * factor < 2 ^ bound) : exponent < bound := by
  have least : 2 ^ exponent * 1 ≤ 2 ^ exponent * factor := mul_le_mul_left _ positive
  exact (Nat.pow_lt_pow_iff_right Nat.one_lt_two).mp (by omega)

variable {ones : Nat}

/-- The trailing ones of a word whose successor has a known odd part. -/
theorem trailingZeros_complement (isOdd : odd % 2 = 1) (shape : value + 1 = 2 ^ ones * odd)
    (fits : value + 1 < 2 ^ 64) : trailingZeros (complement value) = ones := by
  have inside : ones < 64 := exponent_lt (by omega : 0 < odd) (by omega)
  have split := (pow_mul_pow_sub 2 inside.le).symm
  have oddSmall : odd < 2 ^ (64 - ones) := by
    rw [shape, split] at fits
    exact Nat.lt_of_mul_lt_mul_left fits
  have complementShape : complement value = 2 ^ ones * (2 ^ (64 - ones) - odd) := by
    rw [Nat.mul_sub, ← split, ← shape, complement]
    omega
  have evenPower := Nat.two_pow_mod_two_eq_zero.mpr (by omega : 0 < 64 - ones)
  rw [complementShape]
  exact trailingZeros_two_pow_mul (by omega) inside

/-- Every nonzero word is a power of two times an odd number. -/
theorem exists_odd_part (positive : 0 < value) (fits : value < 2 ^ 64) :
    ∃ zeros odd, zeros < 64 ∧ odd % 2 = 1 ∧ value = 2 ^ zeros * odd := by
  obtain ⟨zeros, odd, isOdd, shape⟩ := exists_eq_two_pow_mul_odd (by omega : value ≠ 0)
  have oddRemainder : odd % 2 = 1 := odd_iff.mp isOdd
  exact ⟨zeros, odd, exponent_lt (by omega : 0 < odd) (by omega), oddRemainder, shape⟩

theorem countOnesFrom_succ (fits : value < 2 ^ bits) :
    countOnesFrom (bits + 1) value = countOnesFrom bits value := by
  induction bits generalizing value with
  | zero =>
    have isZero : value = 0 := by omega
    simp [isZero, countOnesFrom]
  | succ bits ih =>
    have halfFits : value / 2 < 2 ^ bits := by omega
    rw [countOnesFrom, ih halfFits, countOnesFrom]

theorem countOnes_eq (fits : value < 2 ^ 64) :
    countOnes value = value % 2 + countOnes (value / 2) := by
  have halfFits : value / 2 < 2 ^ 63 := by omega
  have unfolded : countOnes value = value % 2 + countOnesFrom 63 (value / 2) := rfl
  rw [unfolded, countOnes, countOnesFrom_succ halfFits]

theorem countOnes_two_pow_mul (fits : 2 ^ zeros * value < 2 ^ 64) :
    countOnes (2 ^ zeros * value) = countOnes value := by
  induction zeros with
  | zero => simp
  | succ zeros ih =>
    have doubled : 2 ^ (zeros + 1) * value = 2 * (2 ^ zeros * value) := by ring
    rw [doubled] at fits ⊢
    rw [countOnes_eq fits, mul_mod_right, Nat.mul_div_cancel_left _ (by decide), Nat.zero_add,
      ih (by omega)]

theorem countOnes_two_mul_add_one {half : Nat} (fits : 2 * half + 1 < 2 ^ 64) :
    countOnes (2 * half + 1) = countOnes half + 1 := by
  have halved : (2 * half + 1) / 2 = half := by omega
  rw [countOnes_eq fits, halved]
  omega

theorem countOnes_two_mul {half : Nat} (fits : 2 * half < 2 ^ 64) :
    countOnes (2 * half) = countOnes half := by
  rw [countOnes_eq fits, Nat.mul_div_cancel_left half (by decide)]
  omega

/-- The bits below a multiple of a power of two are ones. -/
theorem countOnes_pred {high : Nat} (shape : value + 1 = 2 ^ ones * (high + 1))
    (fits : value < 2 ^ 64) : countOnes value = countOnes high + ones := by
  induction ones generalizing value with
  | zero => rw [show value = high by omega, Nat.add_zero]
  | succ ones ih =>
    have doubled : 2 ^ (ones + 1) * (high + 1) = 2 * (2 ^ ones * (high + 1)) := by ring
    obtain ⟨half, rfl⟩ : ∃ half, value = 2 * half + 1 := ⟨value / 2, by omega⟩
    rw [countOnes_two_mul_add_one fits, ih (by omega) (by omega), Nat.add_assoc]

/-- Incrementing clears the trailing ones and sets one bit. -/
theorem countOnes_succ (isOdd : odd % 2 = 1) (shape : value + 1 = 2 ^ ones * odd)
    (fits : value + 1 < 2 ^ 64) : countOnes (value + 1) + ones = countOnes value + 1 := by
  obtain ⟨half, rfl⟩ : ∃ half, odd = 2 * half + 1 := ⟨odd / 2, by omega⟩
  have oddSmall := Nat.le_mul_of_pos_left (2 * half + 1) (Nat.two_pow_pos ones)
  rw [countOnes_pred shape (by omega), shape, countOnes_two_pow_mul (by omega),
    countOnes_two_mul_add_one (by omega), countOnes_two_mul (by omega)]
  omega

theorem countOnes_add_le {distance : Nat} (fits : value + distance < 2 ^ 64) :
    countOnes (value + distance) ≤ countOnes value + distance := by
  induction distance with
  | zero => rw [Nat.add_zero, Nat.add_zero]
  | succ distance ih =>
    obtain ⟨zeros, odd, -, isOdd, shape⟩ := exists_odd_part (succ_pos (value + distance)) fits
    have next := countOnes_succ isOdd shape fits
    have earlier := ih (by omega)
    rw [← Nat.add_assoc]
    omega

section

variable (fits : value < 2 ^ 64)
include fits

theorem countOnes_le : countOnes value ≤ value := by
  have bound := @countOnes_add_le 0 value (by omega)
  rw [Nat.zero_add, show countOnes 0 = 0 by decide, Nat.zero_add] at bound
  exact bound

/-- The set bits are those below and those above a boundary. -/
theorem countOnes_mod_add_div (bits : Nat) :
    countOnes value = countOnes (value % 2 ^ bits) + countOnes (value / 2 ^ bits) := by
  induction bits generalizing value with
  | zero =>
    have none : countOnes 0 = 0 := by decide
    rw [pow_zero, Nat.mod_one, Nat.div_one, none, Nat.zero_add]
  | succ bits ih =>
    have lowFits : value % 2 ^ (bits + 1) < 2 ^ 64 := (mod_le _ _).trans_lt fits
    have parity : value % 2 ^ (bits + 1) % 2 = value % 2 :=
      mod_mod_of_dvd _ (Dvd.intro_left _ (pow_succ 2 bits).symm)
    have low : value % 2 ^ (bits + 1) / 2 = value / 2 % 2 ^ bits := by
      rw [pow_succ', Nat.mod_mul_right_div_self]
    have high : value / 2 ^ (bits + 1) = value / 2 / 2 ^ bits := by
      rw [pow_succ', Nat.div_div_eq_div_mul]
    rw [countOnes_eq fits, ih (by omega), countOnes_eq lowFits, parity, low, high]
    omega

theorem eq_zero_of_countOnes (none : countOnes value = 0) : value = 0 := by
  induction value using Nat.strong_induction_on with
  | _ value ih =>
    rw [countOnes_eq fits] at none
    by_contra nonzero
    have half := ih (value / 2) (by omega) (by omega) (by omega)
    omega

theorem lt_of_countOnes_mod (same : countOnes value = countOnes (value % 2 ^ bits)) :
    value < 2 ^ bits := by
  have split := countOnes_mod_add_div fits bits
  have noneAbove : value / 2 ^ bits = 0 :=
    eq_zero_of_countOnes ((div_le_self _ _).trans_lt fits) (by omega)
  exact (Nat.div_eq_zero_iff_lt (Nat.two_pow_pos bits)).mp noneAbove

end

theorem countOnes_two_pow_add {rest : Nat} (restSmall : rest < 2 ^ bits)
    (fits : 2 ^ bits + rest < 2 ^ 64) : countOnes (2 ^ bits + rest) = countOnes rest + 1 := by
  have quotient : (2 ^ bits + rest) / 2 ^ bits = 1 := by
    rw [Nat.add_div_left _ (Nat.two_pow_pos bits), Nat.div_eq_of_lt restSmall]
  have split := countOnes_mod_add_div fits bits
  rw [Nat.add_mod_left, Nat.mod_eq_of_lt restSmall, quotient] at split
  exact split

end Diem.Word64
