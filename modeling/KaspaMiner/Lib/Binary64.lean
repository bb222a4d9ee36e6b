import Mathlib

/-!
# Binary64 arithmetic that can be run

The model of `Float` rounds one bit at a time. `Number` computes the same from the digits all at
once, with the operations on natural numbers the kernel has, so that a long computation can be
checked: a number is zero, or normal with its 53 bits, or `other`, about which nothing is said. The
operations on floats keep to those on numbers (`Represents`).

`other` is what makes this short. Subnormal numbers, infinities and the rest of what an operation
may run into are not computed; the result is `other`, which every float is represented by, and a
computation that gets there says nothing. One that never gets there, and ends in a comparison, says
what the floats do.

There are three layers, and a theorem for each operation on each of them:

* `Number.mul`, `Number.sub` and so on, to be run;
* the unpacked floats of the model, which have a sign, a mantissa and an exponent. `Denotes` relates
  the two, and everything there is to prove about rounding is proved here (`Denotes.mul`, ...);
* `Float` itself, which packs each result into 64 bits. As packing loses nothing of a number that is
  rounded already (`Denotes.pack`), the lemmas about floats are one line each.

What all of the operations come down to is `denotes_scaled`: the model's way of rounding a mantissa
of `53 + k` bits is `roundTo`.
-/

namespace KaspaMiner
namespace Lib
namespace Binary64

/-- `normal neg m e` is `m * 2 ^ (e - 1074)` with a sign, for an `m` of 53 bits. The exponent is
counted from the least there is, so that it is a natural number. -/
inductive Number where
  | zero
  | normal (neg : Bool) (m e : ℕ)
  | other
  deriving DecidableEq

namespace Number

/-! ## The operations

Written with the functions of `Nat` themselves, which the kernel evaluates with big integers, and
with recursors for the tests and the loops, which it reduces in one step, with no instance to
unfold. For the same reason powers of two are written out: the constants are `2 ^ 52`, `2 ^ 53`,
`2 ^ 55` and `2 ^ 105`.
-/

/-- `if b then x else y`. -/
def pick {α : Type} (b : Bool) (x y : α) : α := b.rec y x

theorem pick_eq_ite {α : Type} (b : Bool) (x y : α) :
    pick b x y = if b = true then x else y := Bool.rec_eq b

/-- To the nearest multiple of `2 ^ k`, ties to even. -/
def roundTo (m k : ℕ) : ℕ :=
  Nat.shiftRight (Nat.add (Nat.add m m)
    (Nat.add (Nat.sub (Nat.shiftLeft 1 k) 1) (Nat.land (Nat.shiftRight m k) 1))) (Nat.succ k)

/-- 2045 is the exponent of the greatest finite number. -/
def bounded (neg : Bool) (m e : ℕ) : Number := pick (Nat.ble e 2045) (.normal neg m e) .other

/-- After rounding there may be a bit more. -/
def carry (neg : Bool) (m e : ℕ) : Number :=
  pick (Nat.beq m 9007199254740992) (bounded neg 4503599627370496 (Nat.succ e)) (bounded neg m e)

/-- `k` bits are dropped. -/
def round (neg : Bool) (m e k : ℕ) : Number := carry neg (roundTo m k) (Nat.add e k)

/-- The same with the exponent reduced by `b`. -/
def scaled (neg : Bool) (m e b k : ℕ) : Number :=
  pick (Nat.ble b (Nat.add e k)) (carry neg (roundTo m k) (Nat.sub (Nat.add e k) b)) .other

/-- A product of two numbers with 53 bits has 105 or 106. -/
def mul : Number → Number → Number
  | .normal neg₁ m₁ e₁, .normal neg₂ m₂ e₂ =>
    scaled (xor neg₁ neg₂) (Nat.mul m₁ m₂) (Nat.add e₁ e₂) 1074
      (pick (Nat.ble 40564819207303340847894502572032 (Nat.mul m₁ m₂)) 53 52)
  | .zero, .normal _ _ _ => .zero
  | .normal _ _ _, .zero => .zero
  | .zero, .zero => .zero
  | _, _ => .other

/-- How many bits there are above the 53 of a number, if there are at most `k`. -/
def excess (m k : ℕ) : ℕ :=
  k.rec 0 fun k rest => pick (Nat.ble (Nat.shiftLeft 9007199254740992 k) m) (Nat.succ k) rest

theorem excess_succ (m k : ℕ) : excess m (k + 1) =
    pick (Nat.ble (Nat.shiftLeft 9007199254740992 k) m) (Nat.succ k) (excess m k) := rfl

/-- How many bits there are below the 53 of a number, if there are `j` or more. -/
def missing (m k : ℕ) : ℕ → ℕ :=
  k.rec id fun _ rest j =>
    pick (Nat.ble 4503599627370496 (Nat.shiftLeft m j)) j (rest (Nat.succ j))

theorem missing_succ (m k j : ℕ) : missing m (k + 1) j =
    pick (Nat.ble 4503599627370496 (Nat.shiftLeft m j)) j (missing m k (Nat.succ j)) := rfl

/-- Zeros are put in for `j` missing bits, if the exponent allows it. -/
def raise (neg : Bool) (m e j : ℕ) : Number :=
  pick (Nat.ble j e) (.normal neg (Nat.shiftLeft m j) (Nat.sub e j)) .other

/-- After a difference any number of bits may be left. -/
def cancelled (neg : Bool) (m e d : ℕ) : Number :=
  pick (Nat.ble 4503599627370496 m) (round neg m e (excess m d))
    (pick (Nat.beq m 0) .zero (raise neg m e (missing m 52 1)))

/-- A number of about `53 + d` bits. -/
def normalize (neg : Bool) (m e d : ℕ) : Number :=
  pick (Nat.ble (Nat.shiftLeft 9007199254740992 d) m) (round neg m e (Nat.succ d))
    (pick (Nat.ble (Nat.shiftLeft 4503599627370496 d) m) (round neg m e d) (cancelled neg m e d))

/-- The sign is that of the greater one. -/
def difference (neg : Bool) (a b e d : ℕ) : Number :=
  pick (Nat.ble a b) (normalize (!neg) (Nat.sub b a) e d) (normalize neg (Nat.sub a b) e d)

/-- With the exponents made the same. -/
def subAligned (neg₁ neg₂ : Bool) (a b e d : ℕ) : Number :=
  pick (xor neg₁ neg₂) (normalize neg₁ (Nat.add a b) e d) (difference neg₁ a b e d)

/-- The number with the greater exponent is written with the lesser. -/
def sub : Number → Number → Number
  | .normal neg₁ m₁ e₁, .normal neg₂ m₂ e₂ =>
    pick (Nat.ble e₁ e₂)
      (subAligned neg₁ neg₂ m₁ (Nat.shiftLeft m₂ (Nat.sub e₂ e₁)) e₁ (Nat.sub e₂ e₁))
      (subAligned neg₁ neg₂ (Nat.shiftLeft m₁ (Nat.sub e₁ e₂)) m₂ e₂ (Nat.sub e₁ e₂))
  | .zero, .normal neg m e => .normal (!neg) m e
  | .normal neg m e, .zero => .normal neg m e
  | .zero, .zero => .zero
  | _, _ => .other

/-- A quotient with two more bits: whether the rest is half of the divisor, and what it is off. -/
def extended (q r m : ℕ) : ℕ :=
  pick (Nat.beq r 0) (Nat.mul 4 q)
    (pick (Nat.ble m (Nat.mul 2 r))
      (pick (Nat.ble (Nat.mul 2 r) m) (Nat.add (Nat.mul 4 q) 2) (Nat.add (Nat.mul 4 q) 3))
      (Nat.add (Nat.mul 4 q) 1))

/-- A quotient of 54 bits or 53, and two more for the rest. -/
def quotient (m₁ m₂ : ℕ) : ℕ :=
  extended (Nat.div (Nat.shiftLeft m₁ 53) m₂) (Nat.mod (Nat.shiftLeft m₁ 53) m₂) m₂

/-- Dividing by zero is `other`, whatever is divided. -/
def div : Number → Number → Number
  | .normal neg₁ m₁ e₁, .normal neg₂ m₂ e₂ =>
    pick (Nat.ble e₂ (Nat.add e₁ 1021))
      (scaled (xor neg₁ neg₂) (quotient m₁ m₂) (Nat.add e₁ 1019) e₂
        (pick (Nat.ble 36028797018963968 (quotient m₁ m₂)) 3 2))
      .other
  | .zero, .normal _ _ _ => .zero
  | _, _ => .other

/-- Which zero it is does not matter to anything here. -/
def abs : Number → Number
  | .normal _ m e => .normal false m e
  | n => n

/-- Whether the absolute value is more than `m₀ * 2 ^ (e₀ - 1074)`. -/
def above (m₀ e₀ : ℕ) : Number → Option Bool
  | .zero => some false
  | .normal _ m e => some (pick (Nat.beq e e₀) (Nat.blt m₀ m) (Nat.ble e₀ e))
  | .other => none

end Number

open Float.Model
open Float.Model.UnpackedFloat

/-! ## Rounding

The model keeps two bits of what it shifts out, the last one and whether there was any before it,
and decides from these at the end. Here they are computed from the remainder. -/

/-- What is left of a number when `k` bits are shifted out one by one. The first of the two bits
says that the remainder is a half or more, the second that it is not a half and not nothing. -/
theorem shiftRight_exact (m k : ℕ) : (ExtendedMantissa.mk m false false >>> k : ExtendedMantissa) =
    ⟨m / 2 ^ k, decide (2 ^ k ≤ 2 * (m % 2 ^ k)),
      decide (m % 2 ^ k ≠ 0 ∧ 2 * (m % 2 ^ k) ≠ 2 ^ k)⟩ := by
  induction k with
  | zero => simp [HShiftRight.hShiftRight, Nat.repeat, Nat.mod_one]
  | succ k ih =>
    have hpos : 0 < 2 ^ k := Nat.two_pow_pos k
    have hlt : m % 2 ^ k < 2 ^ k := Nat.mod_lt _ hpos
    have hbit : m / 2 ^ k % 2 = 0 ∨ m / 2 ^ k % 2 = 1 := Nat.mod_two_eq_zero_or_one _
    show ExtendedMantissa.shiftRightOne (ExtendedMantissa.mk m false false >>> k) = _
    rw [ih]
    unfold ExtendedMantissa.shiftRightOne
    rw [pow_succ, Nat.div_div_eq_div_mul, Nat.mod_mul]
    congr 1
    -- The bit that is shifted out now is the half, and all that went before is less than that.
    · rcases hbit with h | h
      · rw [h]
        simp
        omega
      · rw [h]
        simp
        omega
    · rw [← Bool.decide_or]
      apply decide_eq_decide.mpr
      rcases hbit with h | h
      · rw [h]
        omega
      · rw [h]
        omega

/-- `roundTo` in terms of the quotient and the remainder. What is added to the quotient is zero or
one: one if the remainder is more than a half, or a half of an odd quotient. -/
theorem roundTo_eq (m k : ℕ) : Number.roundTo m k =
    m / 2 ^ k + (2 * (m % 2 ^ k) + (2 ^ k - 1) + m / 2 ^ k % 2) / 2 ^ (k + 1) := by
  have hpos : 0 < 2 ^ (k + 1) := Nat.two_pow_pos _
  have hsum : m + m + (2 ^ k - 1 + m / 2 ^ k % 2) =
      2 * (m % 2 ^ k) + (2 ^ k - 1) + m / 2 ^ k % 2 + 2 ^ (k + 1) * (m / 2 ^ k) := by
    have hm := Nat.div_add_mod m (2 ^ k)
    have hdouble : 2 ^ (k + 1) * (m / 2 ^ k) = 2 * (2 ^ k * (m / 2 ^ k)) := by
      ring
    omega
  unfold Number.roundTo
  show (m + m + ((1 <<< k - 1) + ((m >>> k) &&& 1))) >>> (k + 1) = _
  rw [Nat.shiftRight_eq_div_pow, Nat.shiftLeft_eq, Nat.one_mul, Nat.shiftRight_eq_div_pow,
    Nat.and_one_is_mod, hsum, Nat.add_mul_div_left _ _ hpos, Nat.add_comm]

/-- **Both ways of rounding are the same**, to the nearest and ties to even. -/
theorem roundedMantissa_eq (m k : ℕ) :
    (ExtendedMantissa.mk m false false >>> k : ExtendedMantissa).roundedMantissa =
      Number.roundTo m k := by
  have hpos : 0 < 2 ^ k := Nat.two_pow_pos k
  have hlt : m % 2 ^ k < 2 ^ k := Nat.mod_lt _ hpos
  have hbit : m / 2 ^ k % 2 = 0 ∨ m / 2 ^ k % 2 = 1 := Nat.mod_two_eq_zero_or_one _
  rw [shiftRight_exact, roundTo_eq]
  generalize m / 2 ^ k = q at hbit ⊢
  generalize m % 2 ^ k = r at hlt ⊢
  have hdown : 2 * r + (2 ^ k - 1) + q % 2 < 2 ^ (k + 1) →
      (2 * r + (2 ^ k - 1) + q % 2) / 2 ^ (k + 1) = 0 := Nat.div_eq_of_lt
  have hup : 2 ^ (k + 1) ≤ 2 * r + (2 ^ k - 1) + q % 2 →
      (2 * r + (2 ^ k - 1) + q % 2) / 2 ^ (k + 1) = 1 := by
    intro h
    rw [pow_succ] at h ⊢
    exact Nat.div_eq_of_lt_le (by omega) (by omega)
  rw [pow_succ] at hdown hup
  -- Below the half, on it, and above it.
  rcases Nat.lt_trichotomy (2 * r) (2 ^ k) with h | h | h
  · rw [pow_succ, hdown (by omega), Nat.add_zero, decide_eq_false (by omega)]
    by_cases hr : r = 0
    · rw [decide_eq_false (by omega)]
      rfl
    · rw [decide_eq_true (by omega)]
      rfl
  · rw [decide_eq_true (by omega), decide_eq_false (by omega)]
    show q + q % 2 = _
    rcases hbit with hq | hq
    · rw [pow_succ, hdown (by omega), hq]
    · rw [pow_succ, hup (by omega), hq]
  · rw [pow_succ, hup (by omega), decide_eq_true (by omega), decide_eq_true (by omega)]
    rfl

theorem log2_eq {m k : ℕ} (hlo : 2 ^ k ≤ m) (hhi : m < 2 ^ (k + 1)) : m.log2 = k :=
  (Nat.log2_eq_iff (Nat.lt_of_lt_of_le (Nat.two_pow_pos k) hlo).ne').mpr ⟨hlo, hhi⟩

theorem log2_mul_two_pow {m j : ℕ} (hm : m ≠ 0) : (m * 2 ^ j).log2 = m.log2 + j := by
  obtain ⟨hlo, hhi⟩ := (Nat.log2_eq_iff hm).mp rfl
  apply log2_eq
  · rw [pow_add]
    exact Nat.mul_le_mul_right _ hlo
  · rw [Nat.add_right_comm, pow_add]
    exact Nat.mul_lt_mul_of_pos_right hhi (Nat.two_pow_pos j)

/-- Of 53 bits there are 53 left, unless all of them are set and one is carried. -/
theorem roundTo_bounds {m k : ℕ} (hlo : 2 ^ (52 + k) ≤ m) (hhi : m < 2 ^ (53 + k)) :
    2 ^ 52 ≤ Number.roundTo m k ∧ Number.roundTo m k ≤ 2 ^ 53 := by
  have hpos : 0 < 2 ^ k := Nat.two_pow_pos k
  have hlt : m % 2 ^ k < 2 ^ k := Nat.mod_lt _ hpos
  have hqlo : 2 ^ 52 ≤ m / 2 ^ k := by
    rw [Nat.le_div_iff_mul_le hpos, ← pow_add]
    exact hlo
  have hqhi : m / 2 ^ k < 2 ^ 53 := by
    rw [Nat.div_lt_iff_lt_mul hpos, ← pow_add]
    exact hhi
  have hcarry : (2 * (m % 2 ^ k) + (2 ^ k - 1) + m / 2 ^ k % 2) / 2 ^ (k + 1) < 2 := by
    rw [Nat.div_lt_iff_lt_mul (Nat.two_pow_pos _), pow_succ]
    omega
  rw [roundTo_eq]
  exact ⟨Nat.le_add_right_of_le hqlo, Nat.add_le_of_le_sub (by omega) (by omega)⟩

/-- The target of a number of `53 + k` bits that does not become subnormal. -/
theorem targetExponent_eq {m k : ℕ} {e : ℤ} (hlog : m.log2 = 52 + k) (he : -1074 ≤ e + k) :
    Format.binary64.targetExponent (totalExponent m e) = e + k := by
  unfold Format.targetExponent totalExponent Format.mantissaBits Format.minExponent
    Format.mantissaBits
  rw [hlog]
  norm_num
  omega

/-- So it is shifted by `k`, which leaves 53 bits. -/
theorem shiftToTargetExponent_eq {m k : ℕ} {e : ℤ} (acc : Accuracy) (hlog : m.log2 = 52 + k)
    (he : -1074 ≤ e + k) : shiftToTargetExponent .binary64 m e acc =
      (ExtendedMantissa.ofMantissaAndAccuracy m acc >>> k, e + k) := by
  have hshift : (e + k - e).toNat = k := by omega
  simp only [shiftToTargetExponent, targetExponent_eq hlog he, shiftToExponent, hshift]

/-- A number of the model, zero if it has no bits. -/
def unpacked (sign : Sign) (m : ℕ) (e : ℤ) : UnpackedFloat :=
  if h : m = 0 then .zero sign else .finite sign m e (Nat.pos_of_ne_zero h)

/-- The number of the model that is rounded to `r`. -/
def carried (sign : Sign) (r : ℕ) (e : ℤ) : UnpackedFloat :=
  if r = 2 ^ 53 then unpacked sign (2 ^ 52) (e + 1) else unpacked sign r e

/-- The mantissa is shifted once to be rounded and once more for the carry. -/
theorem roundWithAccuracy_unpacked (sign : Sign) (m : ℕ) (e : ℤ) (acc : Accuracy) :
    roundWithAccuracy .binary64 sign m e acc =
      unpacked sign
        (shiftToTargetExponent .binary64
          (shiftToTargetExponent .binary64 m e acc).1.roundedMantissa
          (shiftToTargetExponent .binary64 m e acc).2 .exact).1.mantissa
        (shiftToTargetExponent .binary64
          (shiftToTargetExponent .binary64 m e acc).1.roundedMantissa
          (shiftToTargetExponent .binary64 m e acc).2 .exact).2 := rfl

/-- If the first shift leaves a mantissa that rounds to `r`, the second leaves `r` alone or, if it
is `2 ^ 53`, halves it. -/
theorem roundWithAccuracy_eq {sign : Sign} {m k r : ℕ} {e : ℤ} {acc : Accuracy}
    (hlog : m.log2 = 52 + k) (he : -1074 ≤ e + k)
    (hr : (ExtendedMantissa.ofMantissaAndAccuracy m acc >>> k : ExtendedMantissa).roundedMantissa =
      r) (hlo : 2 ^ 52 ≤ r) (hhi : r ≤ 2 ^ 53) :
    roundWithAccuracy .binary64 sign m e acc = carried sign r (e + k) := by
  rw [roundWithAccuracy_unpacked, shiftToTargetExponent_eq acc hlog he]
  simp only [hr]
  unfold carried
  split
  next htop =>
    have hlog : r.log2 = 52 + 1 := by
      rw [htop, Nat.log2_two_pow]
    rw [shiftToTargetExponent_eq .exact hlog (by omega)]
    show unpacked sign (ExtendedMantissa.mk r false false >>> 1 : ExtendedMantissa).mantissa _ = _
    rw [shiftRight_exact, htop]
    rfl
  next htop =>
    have hlog : r.log2 = 52 + 0 := log2_eq hlo (by omega)
    rw [shiftToTargetExponent_eq .exact hlog (by omega)]
    show unpacked sign (ExtendedMantissa.mk r false false >>> 0 : ExtendedMantissa).mantissa _ = _
    rw [shiftRight_exact, pow_zero, Nat.div_one]
    show unpacked sign r (e + k + 0) = _
    rw [add_zero]

/-! ## What a number stands for

The relation is one of bits and not of values: a normal number denotes one unpacked float and no
other, with the mantissa it would have in memory. That is why it can be packed and unpacked again.
-/

def signOf : Bool → Sign
  | true => .negative
  | false => .positive

/-- The model has a signed zero; which of the two it is is left open. -/
def Denotes (u : UnpackedFloat) : Number → Prop
  | .zero => ∃ sign, u = .zero sign
  | .normal b m e =>
    2 ^ 52 ≤ m ∧ m < 2 ^ 53 ∧ e ≤ 2045 ∧ u = unpacked (signOf b) m (e - 1074)
  | .other => True

/-- A normal number has the exponent it is packed with, and the first bit of its mantissa back. -/
theorem unpack_pack_normal (sign : Sign) {m e : ℕ} (hlo : 2 ^ 52 ≤ m) (hhi : m < 2 ^ 53)
    (he : e ≤ 2045) : UnpackedFloat.unpack .binary64
      (UnpackedFloat.pack .binary64 (unpacked sign m (e - 1074))) = unpacked sign m (e - 1074) := by
  have hne : m ≠ 0 := by omega
  have hlog : m.log2 = 52 := log2_eq hlo hhi
  have hbiased : ((e : ℤ) - 1074 + 1023 + 52).toNat = e + 1 := by omega
  have hpack : UnpackedFloat.pack .binary64 (unpacked sign m (e - 1074)) =
      packComponents .binary64 sign (BitVec.ofNat 11 (e + 1)) (BitVec.ofNat 52 m) := by
    unfold unpacked
    rw [dif_neg hne]
    show (if 2 ^ 11 ≤ ((e : ℤ) - 1074 + 1023 + 52).toNat + 1 then packedInfinity .binary64 sign
      else if m.log2 + 1 = 53 then packComponents .binary64 sign
        (BitVec.ofNat 11 ((e : ℤ) - 1074 + 1023 + 52).toNat) (BitVec.ofNat 52 m)
      else packComponents .binary64 sign 0#11 (BitVec.ofNat 52 m)) = _
    rw [hbiased, if_neg (by omega), if_pos (by omega)]
  have hexp : (BitVec.ofNat 11 (e + 1)).toNat = e + 1 := by
    rw [BitVec.toNat_ofNat]
    exact Nat.mod_eq_of_lt (by omega)
  -- Neither all ones, which an infinity has, nor all zeros, which a subnormal number has.
  have htop : BitVec.ofNat 11 (e + 1) ≠ -1#11 := by
    intro h
    have hval := congrArg BitVec.toNat h
    rw [hexp] at hval
    exact absurd hval (by simp; omega)
  have hzero : BitVec.ofNat 11 (e + 1) ≠ 0#11 := by
    intro h
    have hval := congrArg BitVec.toNat h
    rw [hexp] at hval
    exact absurd hval (by simp)
  have hmantissa : (1#1 ++ BitVec.ofNat 52 m).toNat = m := by
    have hlt : m % 2 ^ 52 < 2 ^ 52 := Nat.mod_lt _ (by norm_num)
    rw [BitVec.toNat_append]
    show 1 <<< 52 ||| m % 2 ^ 52 = m
    rw [← Nat.shiftLeft_add_eq_or_of_lt hlt, Nat.shiftLeft_eq, Nat.one_mul]
    omega
  rw [hpack]
  unfold UnpackedFloat.unpack
  simp only [unpackMantissa_packComponents, unpackExponent_packComponents,
    unpackSign_packComponents, Sign.ofBitVec_toBitVec]
  rw [if_neg htop, if_neg hzero]
  unfold unpacked
  rw [dif_neg hne]
  congr 1
  rw [hexp]
  show ((e + 1 : ℕ) : ℤ) - (1023 + 52) = e - 1074
  omega

/-- What is packed can be unpacked. For `other` there is nothing to show, which is also why no
float is ever in the way. -/
theorem Denotes.pack {u : UnpackedFloat} {n : Number} (h : Denotes u n) :
    Denotes (Float.Model.pack u).unpack n := by
  cases n with
  | zero =>
    obtain ⟨sign, rfl⟩ := h
    exact ⟨sign, unpack_packedZero⟩
  | normal b m e =>
    obtain ⟨hlo, hhi, he, rfl⟩ := h
    exact ⟨hlo, hhi, he, unpack_pack_normal (signOf b) hlo hhi he⟩
  | other => trivial

/-- What is too great is `other`. -/
theorem denotes_bounded (b : Bool) {m e : ℕ} (hlo : 2 ^ 52 ≤ m) (hhi : m < 2 ^ 53) :
    Denotes (unpacked (signOf b) m (e - 1074)) (Number.bounded b m e) := by
  simp only [Number.bounded, Number.pick_eq_ite, Nat.ble_eq]
  split
  next he => exact ⟨hlo, hhi, he, rfl⟩
  next => trivial

theorem denotes_carried (b : Bool) {r e : ℕ} (hlo : 2 ^ 52 ≤ r) (hhi : r ≤ 2 ^ 53) :
    Denotes (carried (signOf b) r (e - 1074)) (Number.carry b r e) := by
  simp only [Number.carry, carried, Number.pick_eq_ite, Nat.beq_eq]
  by_cases htop : r = 2 ^ 53
  · have hexp : ((e : ℤ) - 1074 + 1) = ((e + 1 : ℕ) : ℤ) - 1074 := by
      push_cast
      ring
    rw [if_pos htop, if_pos (by omega), hexp]
    exact denotes_bounded b (by norm_num) (by norm_num)
  · rw [if_neg htop, if_neg (by omega)]
    exact denotes_bounded b hlo (by omega)

/-- **A number of `53 + k` bits, rounded.** The model does not know `k` and finds it with a
logarithm; `scaled` is given it by the operation. The exponent `f` may be any that is `e - c` in
the end. -/
theorem denotes_scaled {b : Bool} {m e k c : ℕ} {f : ℤ} (hlo : 2 ^ (52 + k) ≤ m)
    (hhi : m < 2 ^ (53 + k)) (hf : f = e - c - 1074) :
    Denotes (roundWithAccuracy .binary64 (signOf b) m f .exact) (Number.scaled b m e c k) := by
  obtain ⟨hrlo, hrhi⟩ := roundTo_bounds hlo hhi
  have hlog : m.log2 = 52 + k := log2_eq hlo (by rwa [Nat.add_right_comm])
  simp only [Number.scaled, Number.pick_eq_ite, Nat.ble_eq]
  split
  next hle =>
    have hle : c ≤ e + k := hle
    have hexp : f + k = ((e + k - c : ℕ) : ℤ) - 1074 := by omega
    have hacc : -1074 ≤ f + k := by omega
    rw [@roundWithAccuracy_eq _ _ _ _ _ .exact hlog hacc (roundedMantissa_eq m k) hrlo hrhi, hexp]
    exact denotes_carried b hrlo hrhi
  next => trivial

theorem denotes_round {b : Bool} {m e k : ℕ} (hlo : 2 ^ (52 + k) ≤ m) (hhi : m < 2 ^ (53 + k)) :
    Denotes (roundWithAccuracy .binary64 (signOf b) m (e - 1074) .exact)
      (Number.round b m e k) := by
  have hscaled := @denotes_scaled b m e k 0 (e - 1074) hlo hhi (by simp)
  simp only [Number.scaled, Number.pick_eq_ite, Nat.ble_eq, Nat.zero_le, if_true] at hscaled
  exact hscaled

/-! ## Products

The product of the mantissas is exact, and is rounded once. Whether 52 or 53 bits are too many is
one comparison. -/

theorem unpacked_of_le (sign : Sign) {m : ℕ} (e : ℤ) (hlo : 2 ^ 52 ≤ m) :
    ∃ h, unpacked sign m e = .finite sign m e h := by
  have hne : m ≠ 0 := by omega
  exact ⟨Nat.pos_of_ne_zero hne, dif_neg hne⟩

theorem signOf_mul (b₁ b₂ : Bool) : signOf b₁ * signOf b₂ = signOf (xor b₁ b₂) := by
  cases b₁ with
  | true =>
    cases b₂ with
    | true => rfl
    | false => rfl
  | false =>
    cases b₂ with
    | true => rfl
    | false => rfl

theorem denotes_mul_normal (b₁ b₂ : Bool) {m₁ m₂ e₁ e₂ : ℕ} (hlo₁ : 2 ^ 52 ≤ m₁)
    (hhi₁ : m₁ < 2 ^ 53) (hlo₂ : 2 ^ 52 ≤ m₂) (hhi₂ : m₂ < 2 ^ 53) :
    Denotes (UnpackedFloat.mul .binary64 (unpacked (signOf b₁) m₁ (e₁ - 1074))
      (unpacked (signOf b₂) m₂ (e₂ - 1074)))
      (Number.mul (.normal b₁ m₁ e₁) (.normal b₂ m₂ e₂)) := by
  obtain ⟨h₁, hu₁⟩ := unpacked_of_le (signOf b₁) (e₁ - 1074) hlo₁
  obtain ⟨h₂, hu₂⟩ := unpacked_of_le (signOf b₂) (e₂ - 1074) hlo₂
  have hlo : 2 ^ (52 + 52) ≤ m₁ * m₂ := by
    rw [pow_add]
    exact Nat.mul_le_mul hlo₁ hlo₂
  have hhi : m₁ * m₂ < 2 ^ (53 + 53) := by
    rw [pow_add]
    exact Nat.mul_lt_mul'' hhi₁ hhi₂
  rw [hu₁, hu₂]
  show Denotes (roundWithAccuracy .binary64 (signOf b₁ * signOf b₂) (m₁ * m₂)
    (e₁ - 1074 + (e₂ - 1074)) .exact) (Number.scaled (xor b₁ b₂) (m₁ * m₂) (e₁ + e₂) 1074
      (Number.pick (Nat.ble 40564819207303340847894502572032 (m₁ * m₂)) 53 52))
  rw [signOf_mul]
  have hexp : ((e₁ : ℤ) - 1074 + (e₂ - 1074)) = ((e₁ + e₂ : ℕ) : ℤ) - (1074 : ℕ) - 1074 := by
    push_cast
    ring
  simp only [Number.pick_eq_ite, Nat.ble_eq]
  split
  next h => exact denotes_scaled (by norm_num; omega) hhi hexp
  next h => exact denotes_scaled hlo (by norm_num; omega) hexp

/-- With a zero on either side the product is a zero, of some sign. -/
theorem Denotes.mul {u v : UnpackedFloat} {a b : Number} (hu : Denotes u a) (hv : Denotes v b) :
    Denotes (UnpackedFloat.mul .binary64 u v) (a.mul b) := by
  cases a with
  | zero =>
    obtain ⟨sign₁, rfl⟩ := hu
    cases b with
    | zero =>
      obtain ⟨sign₂, rfl⟩ := hv
      exact ⟨_, rfl⟩
    | normal b₂ m₂ e₂ =>
      obtain ⟨hlo, -, -, rfl⟩ := hv
      obtain ⟨h₂, hu₂⟩ := unpacked_of_le (signOf b₂) (e₂ - 1074) hlo
      rw [hu₂]
      exact ⟨_, rfl⟩
    | other => trivial
  | normal b₁ m₁ e₁ =>
    obtain ⟨hlo₁, hhi₁, -, rfl⟩ := hu
    cases b with
    | zero =>
      obtain ⟨sign₂, rfl⟩ := hv
      obtain ⟨h₁, hu₁⟩ := unpacked_of_le (signOf b₁) (e₁ - 1074) hlo₁
      rw [hu₁]
      exact ⟨_, rfl⟩
    | normal b₂ m₂ e₂ =>
      obtain ⟨hlo₂, hhi₂, -, rfl⟩ := hv
      exact denotes_mul_normal b₁ b₂ hlo₁ hhi₁ hlo₂ hhi₂
    | other => trivial
  | other => trivial

/-! ## Differences

The difference of two numbers with one exponent is exact too, and what is left of it may have any
number of bits: up to `54 + d` when the exponents were `d` apart, and as few as one when the
numbers were close. With 53 or more it is rounded (`round_of_excess`). With fewer it is shifted the
other way and nothing is lost (`round_of_missing`). -/

/-- Counted from the top: the first `k` that fits is the number of bits above the 53. -/
theorem excess_spec {m k : ℕ} (hlo : 2 ^ 52 ≤ m) (hhi : m < 2 ^ (53 + k)) :
    2 ^ (52 + Number.excess m k) ≤ m ∧ m < 2 ^ (53 + Number.excess m k) := by
  induction k with
  | zero => exact ⟨hlo, hhi⟩
  | succ k ih =>
    simp only [Number.excess_succ, Number.pick_eq_ite, Nat.ble_eq]
    split
    next h =>
      have h : 2 ^ 53 <<< k ≤ m := h
      rw [Nat.shiftLeft_eq, ← pow_add] at h
      exact ⟨by rwa [show 52 + k.succ = 53 + k by omega], hhi⟩
    next h =>
      have h : ¬ 2 ^ 53 <<< k ≤ m := h
      rw [Nat.shiftLeft_eq, ← pow_add] at h
      exact ih (Nat.lt_of_not_le h)

/-- Counted from the bottom. -/
theorem missing_spec {m k j : ℕ} (hlt : m * 2 ^ j < 2 ^ 53) (hle : 2 ^ 52 ≤ m * 2 ^ (j + k)) :
    2 ^ 52 ≤ m * 2 ^ Number.missing m k j ∧ m * 2 ^ Number.missing m k j < 2 ^ 53 := by
  induction k generalizing j with
  | zero => exact ⟨hle, hlt⟩
  | succ k ih =>
    simp only [Number.missing_succ, Number.pick_eq_ite, Nat.ble_eq]
    split
    next h =>
      have h : 2 ^ 52 ≤ m <<< j := h
      rw [Nat.shiftLeft_eq] at h
      exact ⟨h, hlt⟩
    next h =>
      have h : ¬ 2 ^ 52 ≤ m <<< j := h
      rw [Nat.shiftLeft_eq] at h
      refine ih ?_ ?_
      · rw [Nat.succ_eq_add_one, pow_succ, ← mul_assoc]
        omega
      · rwa [Nat.succ_eq_add_one, Nat.add_assoc, Nat.add_comm 1 k]

/-- Where there are bits enough, the model's `round` has nothing to put in before it rounds. -/
theorem round_of_excess {sign : Sign} {m k : ℕ} {e : ℤ} (hlog : m.log2 = 52 + k)
    (he : -1074 ≤ e + k) :
    UnpackedFloat.round .binary64 sign m e = roundWithAccuracy .binary64 sign m e .exact := by
  have hshift : (e - (e + k)).toNat = 0 := by omega
  unfold UnpackedFloat.round
  simp only [targetExponent_eq hlog he, decreaseExponent, hshift, Nat.shiftLeft_zero,
    Nat.cast_zero, sub_zero]

/-- Nothing is rounded where bits are missing. -/
theorem round_of_missing {sign : Sign} {m j : ℕ} {e : ℤ} (hlo : 2 ^ 52 ≤ m * 2 ^ j)
    (hhi : m * 2 ^ j < 2 ^ 53) (he : -1074 ≤ e - j) :
    UnpackedFloat.round .binary64 sign m e = unpacked sign (m * 2 ^ j) (e - j) := by
  have hne : m ≠ 0 := by
    rintro rfl
    simp at hlo
  have hlog : (m * 2 ^ j).log2 = 52 := log2_eq hlo hhi
  have hbits : m.log2 + j = 52 := by rw [← log2_mul_two_pow hne, hlog]
  have htarget : Format.binary64.targetExponent (totalExponent m e) = e - j := by
    unfold Format.targetExponent totalExponent Format.mantissaBits Format.minExponent
      Format.mantissaBits
    norm_num
    omega
  have hshift : (e - (e - j)).toNat = j := by omega
  unfold UnpackedFloat.round
  simp only [htarget, decreaseExponent, hshift, Nat.shiftLeft_eq]
  rw [@roundWithAccuracy_eq _ _ 0 _ _ .exact hlog (by omega) rfl hlo hhi.le]
  show carried sign (m * 2 ^ j) _ = _
  rw [carried, if_neg hhi.ne, Nat.cast_zero, add_zero]

/-- The three cases of `normalize` that are not zero. -/
theorem denotes_round_of_pos {b : Bool} {m e d : ℕ} (hpos : 0 < m) (hhi : m < 2 ^ (54 + d))
    (he : e ≤ 2045) :
    Denotes (UnpackedFloat.round .binary64 (signOf b) m (e - 1074)) (Number.normalize b m e d) := by
  have hround : ∀ k, 2 ^ (52 + k) ≤ m → m < 2 ^ (53 + k) →
      Denotes (UnpackedFloat.round .binary64 (signOf b) m (e - 1074)) (Number.round b m e k) := by
    intro k hlo hhi
    have hlog : m.log2 = 52 + k := log2_eq hlo (by rwa [Nat.add_right_comm])
    rw [round_of_excess hlog (by omega)]
    exact denotes_round hlo hhi
  have hhigh : (9007199254740992 : ℕ).shiftLeft d = 2 ^ (53 + d) := by
    rw [pow_add]
    exact Nat.shiftLeft_eq _ _
  have hlow : (4503599627370496 : ℕ).shiftLeft d = 2 ^ (52 + d) := by
    rw [pow_add]
    exact Nat.shiftLeft_eq _ _
  simp only [Number.normalize, Number.pick_eq_ite, Nat.ble_eq, hhigh, hlow]
  split
  next h =>
    refine hround (d + 1) ?_ ?_
    · rwa [show 52 + (d + 1) = 53 + d by omega]
    · rwa [show 53 + (d + 1) = 54 + d by omega]
  next hlt =>
    split
    next h => exact hround d h (Nat.lt_of_not_le hlt)
    next =>
      simp only [Number.cancelled, Number.pick_eq_ite, Nat.ble_eq, Nat.beq_eq]
      split
      next h =>
        obtain ⟨hlo, hhi⟩ := excess_spec h (Nat.lt_of_not_le hlt)
        exact hround _ hlo hhi
      -- Fewer than 53 bits: shifted to the left, and by 52 places at most, as `m` is not zero.
      next h =>
        rw [if_neg hpos.ne']
        obtain ⟨hlo, hhi⟩ := @missing_spec m 52 1 (by omega) (by omega)
        simp only [Number.raise, Number.pick_eq_ite, Nat.ble_eq]
        split
        next hle =>
          generalize Number.missing m 52 1 = j at hlo hhi hle
          have hexp : ((e : ℤ) - 1074 - j) = ((e - j : ℕ) : ℤ) - 1074 := by omega
          rw [round_of_missing hlo hhi (by omega), hexp]
          have hraised : m.shiftLeft j = m * 2 ^ j := Nat.shiftLeft_eq _ _
          rw [hraised]
          exact ⟨hlo, hhi, (Nat.sub_le e j).trans he, rfl⟩
        next => trivial

/-- The sum of the digits with their sign, normalized. -/
theorem denotes_normalize {b : Bool} {m e d : ℕ} {z : ℤ} (hz : z = (signOf b).apply m)
    (hhi : m < 2 ^ (54 + d)) (he : e ≤ 2045) :
    Denotes (UnpackedFloat.normalize .binary64 z (e - 1074) .positive)
      (Number.normalize b m e d) := by
  rcases Nat.eq_zero_or_pos m with rfl | hpos
  · have hzero : z = 0 := by
      rw [hz]
      cases b with
      | true => rfl
      | false => rfl
    have hsmall : ∀ c, 0 < c → ¬ Nat.shiftLeft c d ≤ 0 := by
      intro c hc
      have hshift : c.shiftLeft d = c * 2 ^ d := Nat.shiftLeft_eq _ _
      rw [hshift]
      exact Nat.not_le_of_lt (Nat.mul_pos hc (Nat.two_pow_pos d))
    simp only [Number.normalize, Number.pick_eq_ite, Nat.ble_eq]
    rw [hzero, if_neg (hsmall _ (by norm_num)), if_neg (hsmall _ (by norm_num))]
    exact ⟨_, rfl⟩
  · have hround := @denotes_round_of_pos b m e d hpos hhi he
    unfold UnpackedFloat.normalize
    cases b with
    | true =>
      have hneg : z = -(m : ℤ) := hz
      rw [hneg, Int.compare_eq_lt.mpr (by omega)]
      simp only [neg_neg, Int.toNat_natCast]
      exact hround
    | false =>
      have hnonneg : z = (m : ℤ) := hz
      rw [hnonneg, Int.compare_eq_gt.mpr (by omega)]
      simp only [Int.toNat_natCast]
      exact hround

/-! Numbers with the same exponent: of one sign they are subtracted, of two they are added up. -/

theorem denotes_difference {b : Bool} {m₁ m₂ e d : ℕ} (hhi₁ : m₁ < 2 ^ (53 + d))
    (hhi₂ : m₂ < 2 ^ (53 + d)) (he : e ≤ 2045) :
    Denotes (UnpackedFloat.normalize .binary64 ((signOf b).apply m₁ - (signOf b).apply m₂)
      (e - 1074) .positive) (Number.difference b m₁ m₂ e d) := by
  have hpow : 2 ^ (53 + d) ≤ 2 ^ (54 + d) := Nat.pow_le_pow_right (by decide) (by omega)
  simp only [Number.difference, Number.pick_eq_ite, Nat.ble_eq]
  split
  next hle =>
    refine denotes_normalize ?_ (lt_of_le_of_lt (Nat.sub_le _ _) (lt_of_lt_of_le hhi₂ hpow)) he
    cases b with
    | true =>
      show -(m₁ : ℤ) - -(m₂ : ℤ) = ((m₂ - m₁ : ℕ) : ℤ)
      omega
    | false =>
      show (m₁ : ℤ) - (m₂ : ℤ) = -((m₂ - m₁ : ℕ) : ℤ)
      omega
  next hlt =>
    refine denotes_normalize ?_ (lt_of_le_of_lt (Nat.sub_le _ _) (lt_of_lt_of_le hhi₁ hpow)) he
    cases b with
    | true =>
      show -(m₁ : ℤ) - -(m₂ : ℤ) = -((m₁ - m₂ : ℕ) : ℤ)
      omega
    | false =>
      show (m₁ : ℤ) - (m₂ : ℤ) = ((m₁ - m₂ : ℕ) : ℤ)
      omega

theorem denotes_sum {b : Bool} {m₁ m₂ e d : ℕ} (hhi₁ : m₁ < 2 ^ (53 + d))
    (hhi₂ : m₂ < 2 ^ (53 + d)) (he : e ≤ 2045) :
    Denotes (UnpackedFloat.normalize .binary64 ((signOf b).apply m₁ - (signOf !b).apply m₂)
      (e - 1074) .positive) (Number.normalize b (m₁ + m₂) e d) := by
  have hpow : 2 ^ (54 + d) = 2 ^ (53 + d) + 2 ^ (53 + d) := by
    rw [show 54 + d = 53 + d + 1 by omega, pow_succ, Nat.mul_two]
  refine denotes_normalize ?_ (by omega) he
  cases b with
  | true =>
    show -(m₁ : ℤ) - (m₂ : ℤ) = -((m₁ + m₂ : ℕ) : ℤ)
    omega
  | false =>
    show (m₁ : ℤ) - -(m₂ : ℤ) = ((m₁ + m₂ : ℕ) : ℤ)
    omega

theorem denotes_subAligned {b₁ b₂ : Bool} {m₁ m₂ e d : ℕ} (hhi₁ : m₁ < 2 ^ (53 + d))
    (hhi₂ : m₂ < 2 ^ (53 + d)) (he : e ≤ 2045) :
    Denotes (UnpackedFloat.normalize .binary64 ((signOf b₁).apply m₁ - (signOf b₂).apply m₂)
      (e - 1074) .positive) (Number.subAligned b₁ b₂ m₁ m₂ e d) := by
  by_cases hb : b₂ = b₁
  · rw [hb, Number.subAligned, Bool.xor_self]
    exact denotes_difference hhi₁ hhi₂ he
  · obtain rfl : b₂ = !b₁ := Bool.eq_not_of_ne hb
    rw [Number.subAligned, Bool.xor_not_self]
    exact denotes_sum hhi₁ hhi₂ he

theorem denotes_sub_normal (b₁ b₂ : Bool) {m₁ m₂ e₁ e₂ : ℕ} (hlo₁ : 2 ^ 52 ≤ m₁)
    (hhi₁ : m₁ < 2 ^ 53) (he₁ : e₁ ≤ 2045) (hlo₂ : 2 ^ 52 ≤ m₂) (hhi₂ : m₂ < 2 ^ 53)
    (he₂ : e₂ ≤ 2045) :
    Denotes (UnpackedFloat.sub .binary64 (unpacked (signOf b₁) m₁ (e₁ - 1074))
      (unpacked (signOf b₂) m₂ (e₂ - 1074)))
      (Number.sub (.normal b₁ m₁ e₁) (.normal b₂ m₂ e₂)) := by
  obtain ⟨h₁, hu₁⟩ := unpacked_of_le (signOf b₁) (e₁ - 1074) hlo₁
  obtain ⟨h₂, hu₂⟩ := unpacked_of_le (signOf b₂) (e₂ - 1074) hlo₂
  have halign : ∀ m d : ℕ, m < 2 ^ 53 → m <<< d < 2 ^ (53 + d) := by
    intro m d hm
    rw [Nat.shiftLeft_eq, pow_add]
    exact Nat.mul_lt_mul_of_pos_right hm (Nat.two_pow_pos d)
  have hlift : ∀ m d : ℕ, m < 2 ^ 53 → m < 2 ^ (53 + d) := by
    intro m d hm
    exact lt_of_lt_of_le hm (Nat.pow_le_pow_right (by decide) (by omega))
  rw [hu₁, hu₂]
  simp only [UnpackedFloat.sub, decreaseExponent, Number.sub, Number.pick_eq_ite, Nat.ble_eq]
  split
  next hle =>
    have hmin : min ((e₁ : ℤ) - 1074) (e₂ - 1074) = e₁ - 1074 := by omega
    have hkeep : ((e₁ : ℤ) - 1074 - (e₁ - 1074)).toNat = 0 := by omega
    have hshift : ((e₂ : ℤ) - 1074 - (e₁ - 1074)).toNat = e₂ - e₁ := by omega
    rw [hmin, hkeep, hshift, Nat.shiftLeft_zero]
    exact denotes_subAligned (hlift _ _ hhi₁) (halign _ _ hhi₂) he₁
  next hlt =>
    have hmin : min ((e₁ : ℤ) - 1074) (e₂ - 1074) = e₂ - 1074 := by omega
    have hkeep : ((e₂ : ℤ) - 1074 - (e₂ - 1074)).toNat = 0 := by omega
    have hshift : ((e₁ : ℤ) - 1074 - (e₂ - 1074)).toNat = e₁ - e₂ := by omega
    rw [hmin, hkeep, hshift, Nat.shiftLeft_zero]
    exact denotes_subAligned (halign _ _ hhi₁) (hlift _ _ hhi₂) he₂

theorem Denotes.sub {u v : UnpackedFloat} {a b : Number} (hu : Denotes u a) (hv : Denotes v b) :
    Denotes (UnpackedFloat.sub .binary64 u v) (a.sub b) := by
  cases a with
  | zero =>
    obtain ⟨sign₁, rfl⟩ := hu
    cases b with
    | zero =>
      obtain ⟨sign₂, rfl⟩ := hv
      simp only [UnpackedFloat.sub]
      split
      next => exact ⟨_, rfl⟩
      next => exact ⟨_, rfl⟩
    | normal b₂ m₂ e₂ =>
      obtain ⟨hlo, hhi, he, rfl⟩ := hv
      obtain ⟨h₂, hu₂⟩ := unpacked_of_le (signOf b₂) (e₂ - 1074) hlo
      have hneg : -signOf b₂ = signOf !b₂ := by
        cases b₂ with
        | true => rfl
        | false => rfl
      refine ⟨hlo, hhi, he, ?_⟩
      rw [hu₂, unpacked, dif_neg (by omega), ← hneg]
      rfl
    | other => trivial
  | normal b₁ m₁ e₁ =>
    obtain ⟨hlo₁, hhi₁, he₁, rfl⟩ := hu
    cases b with
    | zero =>
      obtain ⟨sign₂, rfl⟩ := hv
      obtain ⟨h₁, hu₁⟩ := unpacked_of_le (signOf b₁) (e₁ - 1074) hlo₁
      refine ⟨hlo₁, hhi₁, he₁, ?_⟩
      rw [hu₁]
      rfl
    | normal b₂ m₂ e₂ =>
      obtain ⟨hlo₂, hhi₂, he₂, rfl⟩ := hv
      exact denotes_sub_normal b₁ b₂ hlo₁ hhi₁ he₁ hlo₂ hhi₂ he₂
    | other => trivial
  | other => trivial

/-! ## Quotients

A quotient is not exact. The model keeps, next to it, how the rest compares with half of the
divisor (`Accuracy`), and lets that stand for the bits behind. Two bits are enough to say the same
(`code`), so that a quotient is an exact number again, with two more bits than it needs. -/

/-- The two bits that say how far a mantissa is off. -/
def code : Accuracy → ℕ
  | .exact => 0
  | .inexact .lt => 1
  | .inexact .eq => 2
  | .inexact .gt => 3

theorem code_lt (acc : Accuracy) : code acc < 4 := by
  unfold code
  split
  all_goals decide

/-- Shifting the two bits out first leaves what the model starts from. -/
theorem shiftRight_code (m k : ℕ) (acc : Accuracy) :
    (ExtendedMantissa.ofMantissaAndAccuracy m acc >>> k : ExtendedMantissa) =
      (ExtendedMantissa.mk (4 * m + code acc) false false >>> (k + 2) : ExtendedMantissa) := by
  induction k with
  | zero =>
    have hcut : ∀ c < 4, (4 * m + c) / 2 ^ (0 + 2) = m ∧ (4 * m + c) % 2 ^ (0 + 2) = c := by
      intro c hc
      omega
    rw [shiftRight_exact, (hcut _ (code_lt acc)).1, (hcut _ (code_lt acc)).2]
    cases acc with
    | exact => rfl
    | inexact o =>
      cases o with
      | lt => rfl
      | eq => rfl
      | gt => rfl
  | succ k ih =>
    show ExtendedMantissa.shiftRightOne (ExtendedMantissa.ofMantissaAndAccuracy m acc >>> k) =
      ExtendedMantissa.shiftRightOne
        (ExtendedMantissa.mk (4 * m + code acc) false false >>> (k + 2))
    rw [ih]

/-- An inexact number is an exact one with two more bits. -/
theorem roundWithAccuracy_code {sign : Sign} {m k : ℕ} {e : ℤ} (acc : Accuracy)
    (hlo : 2 ^ (52 + k) ≤ m) (hhi : m < 2 ^ (53 + k)) (he : -1074 ≤ e + k) :
    roundWithAccuracy .binary64 sign m e acc =
      roundWithAccuracy .binary64 sign (4 * m + code acc) (e - 2) .exact := by
  have hcode := code_lt acc
  have hlo' : 2 ^ (52 + (k + 2)) ≤ 4 * m + code acc := by
    rw [← Nat.add_assoc, pow_add]
    omega
  have hhi' : 4 * m + code acc < 2 ^ (53 + (k + 2)) := by
    rw [← Nat.add_assoc, pow_add]
    omega
  have hlog : m.log2 = 52 + k := log2_eq hlo (by rwa [Nat.add_right_comm])
  have hlog' : (4 * m + code acc).log2 = 52 + (k + 2) :=
    log2_eq hlo' (by rwa [Nat.add_right_comm])
  have hround := roundedMantissa_eq (4 * m + code acc) (k + 2)
  obtain ⟨hrlo, hrhi⟩ := roundTo_bounds hlo' hhi'
  rw [@roundWithAccuracy_eq sign _ _ _ _ acc hlog he (by rw [shiftRight_code, hround]) hrlo hrhi,
    @roundWithAccuracy_eq sign _ _ _ (e - 2) .exact hlog' (by push_cast; omega) hround hrlo hrhi]
  congr 1
  push_cast
  ring

theorem extended_eq (q r m : ℕ) :
    Number.extended q r m = 4 * q + code (accuracyOfFraction r m) := by
  simp only [Number.extended, accuracyOfFraction, Number.pick_eq_ite, Nat.ble_eq, Nat.beq_eq]
  by_cases hr : r = 0
  · rw [if_pos hr, if_pos hr]
    rfl
  · rw [if_neg hr, if_neg hr]
    rcases Nat.lt_trichotomy (2 * r) m with h | h | h
    · have hno : ¬ m ≤ Nat.mul 2 r := Nat.not_le_of_lt h
      rw [if_neg hno, Nat.compare_eq_lt.mpr h]
      rfl
    · have hge : m ≤ Nat.mul 2 r := h.ge
      have hle : Nat.mul 2 r ≤ m := h.le
      rw [if_pos hge, if_pos hle, Nat.compare_eq_eq.mpr h]
      rfl
    · have hge : m ≤ Nat.mul 2 r := h.le
      have hno : ¬ Nat.mul 2 r ≤ m := Nat.not_le_of_lt h
      rw [if_pos hge, if_neg hno, Nat.compare_eq_gt.mpr h]
      rfl

theorem signOf_div (b₁ b₂ : Bool) : signOf b₁ / signOf b₂ = signOf (xor b₁ b₂) := by
  cases b₁ with
  | true =>
    cases b₂ with
    | true => rfl
    | false => rfl
  | false =>
    cases b₂ with
    | true => rfl
    | false => rfl

/-- Two mantissas of 53 bits are divided with one bit too many, or two. -/
theorem divCore_eq {m₁ m₂ : ℕ} {e₁ e₂ : ℤ} (hlo₁ : 2 ^ 52 ≤ m₁) (hhi₁ : m₁ < 2 ^ 53)
    (hlo₂ : 2 ^ 52 ≤ m₂) (hhi₂ : m₂ < 2 ^ 53) (he : -1074 ≤ e₁ - e₂ - 53) :
    divCore .binary64 m₁ e₁ m₂ e₂ =
      ((m₁ <<< 53) / m₂, e₁ - e₂ - 53, accuracyOfFraction ((m₁ <<< 53) % m₂) m₂) := by
  have hlog₁ : m₁.log2 = 52 := log2_eq hlo₁ hhi₁
  have hlog₂ : m₂.log2 = 52 := log2_eq hlo₂ hhi₂
  have htarget : min (e₁ - e₂) (Format.binary64.targetExponent
      (totalExponent m₁ e₁ - totalExponent m₂ e₂)) = e₁ - e₂ - 53 := by
    unfold Format.targetExponent totalExponent Format.mantissaBits Format.minExponent
      Format.mantissaBits
    rw [hlog₁, hlog₂]
    norm_num
    omega
  have hshift : (e₁ - e₂ - (e₁ - e₂ - 53)).toNat = 53 := by omega
  simp only [divCore, htarget, hshift]

theorem denotes_div_normal (b₁ b₂ : Bool) {m₁ m₂ e₁ e₂ : ℕ} (hlo₁ : 2 ^ 52 ≤ m₁)
    (hhi₁ : m₁ < 2 ^ 53) (hlo₂ : 2 ^ 52 ≤ m₂) (hhi₂ : m₂ < 2 ^ 53) :
    Denotes (UnpackedFloat.div .binary64 (unpacked (signOf b₁) m₁ (e₁ - 1074))
      (unpacked (signOf b₂) m₂ (e₂ - 1074)))
      (Number.div (.normal b₁ m₁ e₁) (.normal b₂ m₂ e₂)) := by
  obtain ⟨h₁, hu₁⟩ := unpacked_of_le (signOf b₁) (e₁ - 1074) hlo₁
  obtain ⟨h₂, hu₂⟩ := unpacked_of_le (signOf b₂) (e₂ - 1074) hlo₂
  have hquot : Number.quotient m₁ m₂ = 4 * ((m₁ <<< 53) / m₂) +
      code (accuracyOfFraction ((m₁ <<< 53) % m₂) m₂) := extended_eq _ _ _
  have hcode := code_lt (accuracyOfFraction ((m₁ <<< 53) % m₂) m₂)
  have hqlo : 2 ^ 52 ≤ (m₁ <<< 53) / m₂ := by
    rw [Nat.le_div_iff_mul_le (by omega), Nat.shiftLeft_eq]
    exact Nat.mul_le_mul hlo₁ hhi₂.le
  have hqhi : (m₁ <<< 53) / m₂ < 2 ^ 54 := by
    rw [Nat.div_lt_iff_lt_mul (by omega), Nat.shiftLeft_eq]
    omega
  simp only [Number.div, Number.pick_eq_ite, Nat.ble_eq]
  split
  next hle =>
    have hle : e₂ ≤ e₁ + 1021 := hle
    have he : (-1074 : ℤ) ≤ e₁ - 1074 - (e₂ - 1074) - 53 := by omega
    have hexp : ((e₁ : ℤ) - 1074 - (e₂ - 1074) - 53 - 2) = ((e₁ + 1019 : ℕ) : ℤ) - e₂ - 1074 := by
      push_cast
      ring
    have hdiv : UnpackedFloat.div .binary64 (unpacked (signOf b₁) m₁ (e₁ - 1074))
        (unpacked (signOf b₂) m₂ (e₂ - 1074)) =
        roundWithAccuracy .binary64 (signOf (xor b₁ b₂)) (Number.quotient m₁ m₂)
          (e₁ - 1074 - (e₂ - 1074) - 53 - 2) .exact := by
      rw [hu₁, hu₂, ← signOf_div, hquot]
      simp only [UnpackedFloat.div, divCore_eq hlo₁ hhi₁ hlo₂ hhi₂ he]
      by_cases h : 2 ^ 53 ≤ (m₁ <<< 53) / m₂
      · exact roundWithAccuracy_code (k := 1) _ h hqhi (by omega)
      · exact roundWithAccuracy_code (k := 0) _ hqlo (by omega) (by omega)
    rw [hdiv]
    split
    next h =>
      have h : 2 ^ 55 ≤ Number.quotient m₁ m₂ := h
      exact denotes_scaled h (by omega) hexp
    next h =>
      have h : ¬ 2 ^ 55 ≤ Number.quotient m₁ m₂ := h
      exact denotes_scaled (by omega) (Nat.lt_of_not_le h) hexp
  next => trivial

theorem Denotes.div {u v : UnpackedFloat} {a b : Number} (hu : Denotes u a) (hv : Denotes v b) :
    Denotes (UnpackedFloat.div .binary64 u v) (a.div b) := by
  cases a with
  | zero =>
    obtain ⟨sign₁, rfl⟩ := hu
    cases b with
    | normal b₂ m₂ e₂ =>
      obtain ⟨hlo, -, -, rfl⟩ := hv
      obtain ⟨h₂, hu₂⟩ := unpacked_of_le (signOf b₂) (e₂ - 1074) hlo
      rw [hu₂]
      exact ⟨_, rfl⟩
    | zero => trivial
    | other => trivial
  | normal b₁ m₁ e₁ =>
    obtain ⟨hlo₁, hhi₁, -, rfl⟩ := hu
    cases b with
    | normal b₂ m₂ e₂ =>
      obtain ⟨hlo₂, hhi₂, -, rfl⟩ := hv
      exact denotes_div_normal b₁ b₂ hlo₁ hhi₁ hlo₂ hhi₂
    | zero => trivial
    | other => trivial
  | other => trivial

/-! ## Comparisons

Of two normal numbers the one with the greater exponent is greater, and of two with the same
exponent the one with the greater mantissa. -/

theorem Denotes.abs {u : UnpackedFloat} {n : Number} (h : Denotes u n) : Denotes u.abs n.abs := by
  cases n with
  | zero =>
    obtain ⟨sign, rfl⟩ := h
    exact ⟨_, rfl⟩
  | normal b m e =>
    obtain ⟨hlo, hhi, he, rfl⟩ := h
    obtain ⟨hpos, hu⟩ := unpacked_of_le (signOf b) (e - 1074) hlo
    refine ⟨hlo, hhi, he, ?_⟩
    rw [hu, unpacked, dif_neg (by omega)]
    rfl
  | other => trivial

theorem Denotes.lt {u v : UnpackedFloat} {n : Number} {m₀ e₀ : ℕ} {b : Bool}
    (hv : Denotes v (.normal false m₀ e₀)) (hu : Denotes u n.abs) (h : n.above m₀ e₀ = some b) :
    v.lt u = b := by
  obtain ⟨hlo, -, -, rfl⟩ := hv
  obtain ⟨h₀, hv⟩ := unpacked_of_le (signOf false) (e₀ - 1074) hlo
  rw [hv]
  cases n with
  | zero =>
    obtain ⟨sign, rfl⟩ := hu
    rw [← Option.some.inj h]
    rfl
  | normal b₁ m e =>
    obtain ⟨hlo₁, -, -, rfl⟩ := hu
    obtain ⟨h₁, hu⟩ := unpacked_of_le (signOf false) (e - 1074) hlo₁
    rw [hu, ← Option.some.inj h]
    simp only [Number.pick_eq_ite, Nat.beq_eq]
    show (some ((compare ((e₀ : ℤ) - 1074) (e - 1074)).then (compare m₀ m)) == some .lt) = _
    rcases Nat.lt_trichotomy e₀ e with he | rfl | he
    · have hle : Nat.ble e₀ e = true := Nat.ble_eq.mpr he.le
      rw [Int.compare_eq_lt.mpr (by omega), if_neg he.ne', hle]
      rfl
    · rw [Int.compare_eq_eq.mpr rfl, if_pos rfl]
      rcases Nat.lt_trichotomy m₀ m with hm | rfl | hm
      · have hlt : Nat.blt m₀ m = true := Nat.ble_eq.mpr hm
        rw [Nat.compare_eq_lt.mpr hm, hlt]
        rfl
      · have hlt : Nat.blt m₀ m₀ = false := Bool.eq_false_iff.mpr fun h =>
          absurd (Nat.ble_eq.mp h) (Nat.not_succ_le_self m₀)
        rw [Nat.compare_eq_eq.mpr rfl, hlt]
        rfl
      · have hlt : Nat.blt m₀ m = false := Bool.eq_false_iff.mpr fun h =>
          absurd (Nat.ble_eq.mp h) (by omega)
        rw [Nat.compare_eq_gt.mpr hm, hlt]
        rfl
    · have hle : Nat.ble e₀ e = false := Bool.eq_false_iff.mpr fun h =>
        absurd (Nat.ble_eq.mp h) (by omega)
      rw [Int.compare_eq_gt.mpr (by omega), if_neg he.ne, hle]
      rfl
  | other => exact absurd h (by simp [Number.above])

/-! ## Floats -/

/-- The float is computed by the number, unless that is `other`. -/
def Represents (x : Float) (n : Number) : Prop := Denotes x.toModel.unpack n

section
variable {x y : Float} {a b : Number}

theorem Represents.mul (hx : Represents x a) (hy : Represents y b) :
    Represents (x * y) (a.mul b) := (Denotes.mul hx hy).pack

theorem Represents.sub (hx : Represents x a) (hy : Represents y b) :
    Represents (x - y) (a.sub b) := (Denotes.sub hx hy).pack

theorem Represents.div (hx : Represents x a) (hy : Represents y b) :
    Represents (x / y) (a.div b) := (Denotes.div hx hy).pack

theorem Represents.lt_abs {m₀ e₀ : ℕ} {c : Bool} (hy : Represents y (.normal false m₀ e₀))
    (hx : Represents x a) (h : a.above m₀ e₀ = some c) : decide (y < x.abs) = c := by
  have hlt : y.toModel.unpack.lt x.abs.toModel.unpack = c := hy.lt (Denotes.abs hx).pack h
  rw [← hlt]
  show decide (decide (y.toModel.unpack.lt x.abs.toModel.unpack = true) = true) = _
  rw [Bool.decide_eq_true, Bool.decide_eq_true]

/-- A natural number. -/
theorem represents_toFloat {n : ℕ} (hn : n < 2 ^ 53) :
    Represents n.toUInt64.toFloat (Number.normalize false n 1074 0) := by
  have hval : n.toUInt64.toNat = n := by
    show (UInt64.ofNat n).toNat = n
    rw [UInt64.toNat_ofNat']
    exact Nat.mod_eq_of_lt (by omega)
  have hnorm : Denotes (UnpackedFloat.normalize .binary64 (n.toUInt64.toNat : ℤ) ((1074 : ℕ) - 1074)
      .positive) (Number.normalize false n 1074 0) :=
    denotes_normalize (by rw [hval]; rfl) (by omega) (by norm_num)
  exact hnorm.pack

theorem represents_one : Represents (Float.ofBits 0x3FF0000000000000)
    (.normal false 4503599627370496 1022) :=
  ⟨by norm_num, by norm_num, by norm_num, rfl⟩

theorem represents_billion : Represents (Float.ofBits 0x41CDCD6500000000)
    (.normal false 8388608000000000 1051) :=
  ⟨by norm_num, by norm_num, by norm_num, rfl⟩

theorem represents_ofNat {n : ℕ} (hn : n < 2 ^ 53) : Represents (Float.ofNat n)
    ((Number.normalize false n 1074 0).mul (.normal false 4503599627370496 1022)) := by
  have hmul := (represents_toFloat hn).mul represents_one
  have hnat : Float.ofNat n = n.toUInt64.toFloat * Float.ofBits 0x3FF0000000000000 := by
    show (if h : n < 2 ^ 53 ∧ 0 ≤ 22 then _ else _) = _
    rw [dif_pos ⟨hn, by norm_num⟩]
    rfl
  rwa [hnat]

/-- `1e-9`. -/
theorem represents_nano : Represents (1e-9 : Float) (.normal false 4835703278458517 992) := by
  have hdiv := (@represents_toFloat 1 (by norm_num)).div represents_billion
  have hnum : (Number.normalize false 1 1074 0).div (.normal false 8388608000000000 1051) =
      .normal false 4835703278458517 992 := by decide
  rw [hnum] at hdiv
  exact hdiv

end

end Binary64
end Lib
end KaspaMiner
