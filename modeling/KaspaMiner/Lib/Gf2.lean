import Mathlib.Algebra.CharP.Two
import Mathlib.Algebra.Ring.GeomSum
import Mathlib.Data.Nat.Bitwise
import Mathlib.Data.Nat.Digits.Lemmas
import KaspaMiner.Lib.Order

/-!
# Polynomials over GF(2) in natural numbers

A polynomial with a bit for each coefficient is written with sixteen binary places for each bit, a
*lane*. Then an integer product holds the coefficients of the product of the two polynomials over
the integers, each in its lane as long as it is below `2 ^ 16`, and the last bits of the lanes are
the coefficients over GF(2) (`value_mul`). So a multiplication is a multiplication and a mask.

What is computed is not the polynomial but its value at an `x` of a ring of characteristic two, so
that reducing a product by a polynomial that vanishes at `x` changes nothing, whatever the quotient
was (`mulMod_represents`).
-/

namespace KaspaMiner
namespace Lib
namespace Gf2

/-- A lane holds a coefficient below this. -/
abbrev lane : ℕ := 2 ^ 16

theorem lane_pos : 0 < lane := by decide

/-- The low `n` bits of a number, a lane for each. -/
def spread : ℕ → ℕ → ℕ
  | 0, _ => 0
  | n + 1, a => a % 2 + lane * spread n (a / 2)

/-- Induction on two numbers at once, from the first lane on. -/
theorem lanes_induction {motive : ℕ → ℕ → Prop} (zero : motive 0 0)
    (step : ∀ a b, motive (a / lane) (b / lane) → motive a b) (a b : ℕ) : motive a b := by
  have hlanes : ∀ n a b, a < lane ^ n → b < lane ^ n → motive a b := by
    intro n
    induction n with
    | zero =>
      intro a b ha hb
      have ha : a = 0 := by simpa using ha
      have hb : b = 0 := by simpa using hb
      rw [ha, hb]
      exact zero
    | succ n ih =>
      intro a b ha hb
      rw [pow_succ'] at ha hb
      exact step a b (ih _ _ (Nat.div_lt_of_lt_mul ha) (Nat.div_lt_of_lt_mul hb))
  have hlt : a + b < lane ^ (a + b) := Nat.lt_pow_self (by decide)
  exact hlanes (a + b) a b (by omega) (by omega)

/-! ## Masks -/

/-- The last bit of each of `n` lanes. -/
def mask (n : ℕ) : ℕ := (lane ^ n - 1) / (lane - 1)

theorem mask_mul (n : ℕ) : mask n * (lane - 1) = lane ^ n - 1 := by
  refine Nat.div_mul_cancel ?_
  have h := Nat.sub_dvd_pow_sub_pow lane 1 n
  rwa [one_pow] at h

theorem mask_lt (n : ℕ) : mask n < lane ^ n := by
  have hpos : 0 < lane ^ n := Nat.pow_pos lane_pos
  exact lt_of_le_of_lt (Nat.div_le_self _ _) (Nat.sub_lt hpos Nat.one_pos)

theorem mask_succ (n : ℕ) : mask (n + 1) = 1 + lane * mask n := by
  have hone : 1 ≤ lane ^ n := Nat.one_le_pow _ _ lane_pos
  have hpred : 0 < lane - 1 := by decide
  refine Nat.eq_of_mul_eq_mul_right hpred ?_
  rw [mask_mul, Nat.add_mul, Nat.mul_assoc, mask_mul, pow_succ]
  show lane ^ n * 65536 - 1 = 1 * 65535 + 65536 * (lane ^ n - 1)
  omega

theorem and_mask_mod (n a : ℕ) : (a &&& mask (n + 1)) % lane = a % 2 := by
  have hmask : mask (n + 1) % lane = 1 := by
    rw [mask_succ, Nat.add_mul_mod_self_left]
    rfl
  rw [Nat.and_mod_two_pow, hmask, Nat.and_one_is_mod, Nat.mod_mod_of_dvd a (by decide)]

theorem and_mask_div (n a : ℕ) : (a &&& mask (n + 1)) / lane = a / lane &&& mask n := by
  have hmask : mask (n + 1) / lane = mask n := by
    rw [mask_succ, Nat.add_mul_div_left _ _ lane_pos]
    exact Nat.zero_add _
  rw [Nat.and_div_two_pow, hmask]

/-- No lane of the `n` holds more than a bit, and there are no others. -/
def Flat (n a : ℕ) : Prop := a &&& mask n = a

instance (n a : ℕ) : Decidable (Flat n a) := inferInstanceAs (Decidable (_ = _))

theorem flat_and_mask (n a : ℕ) : Flat n (a &&& mask n) := by
  unfold Flat
  rw [Nat.and_assoc, Nat.and_self]

theorem Flat.lt {n a : ℕ} (h : Flat n a) : a < lane ^ n := by
  rw [← h]
  exact lt_of_le_of_lt Nat.and_le_right (mask_lt n)

theorem Flat.mod {n a : ℕ} (h : Flat (n + 1) a) : a % lane = a % 2 := by
  rw [← and_mask_mod n a, h]

theorem Flat.div {n a : ℕ} (h : Flat (n + 1) a) : Flat n (a / lane) := by
  unfold Flat
  rw [← and_mask_div, h]

theorem flat_of_div {n a : ℕ} (hmod : a % lane = a % 2) (hdiv : Flat n (a / lane)) :
    Flat (n + 1) a := by
  unfold Flat
  rw [← Nat.div_add_mod (a &&& mask (n + 1)) lane, and_mask_mod, and_mask_div, hdiv, ← hmod,
    Nat.div_add_mod]

theorem flat_zero (n : ℕ) : Flat n 0 := Nat.zero_and _

theorem flat_one {n : ℕ} (h : 0 < n) : Flat n 1 := by
  obtain ⟨k, rfl⟩ := Nat.exists_eq_add_one.mpr h
  exact flat_of_div rfl (flat_zero k)

theorem flat_lane {n : ℕ} (h : 1 < n) : Flat n lane := by
  obtain ⟨k, rfl⟩ := Nat.exists_eq_add_one.mpr (Nat.lt_of_succ_lt h)
  exact flat_of_div rfl (flat_one (Nat.lt_of_succ_lt_succ h))

theorem Flat.div_pow {m n a : ℕ} (h : Flat (m + n) a) : Flat n (a / lane ^ m) := by
  induction m generalizing a with
  | zero => simpa using h
  | succ m ih =>
    rw [pow_succ', ← Nat.div_div_eq_div_mul]
    exact ih (Flat.div (by rwa [Nat.succ_add] at h))

theorem Flat.xor {n a b : ℕ} (ha : Flat n a) (hb : Flat n b) : Flat n (a ^^^ b) := by
  unfold Flat at ha hb ⊢
  rw [Nat.and_xor_distrib_right, ha, hb]

/-! ## The value -/

section
variable {R : Type*} [CommRing R] (x : R)

/-- The value at `x`. -/
def value (a : ℕ) : R := Nat.ofDigits x (Nat.digits lane a)

theorem value_zero : value x 0 = 0 := by
  unfold value
  rw [Nat.digits_zero]
  rfl

theorem value_step (a : ℕ) : value x a = ((a % lane : ℕ) : R) + x * value x (a / lane) := by
  rcases Nat.eq_zero_or_pos a with rfl | ha
  · rw [Nat.zero_div, Nat.zero_mod, value_zero, mul_zero, Nat.cast_zero, add_zero]
  · unfold value
    rw [Nat.digits_def' (by decide) ha]
    rfl

theorem value_of_lt {a : ℕ} (h : a < lane) : value x a = (a : R) := by
  rw [value_step, Nat.mod_eq_of_lt h, Nat.div_eq_of_lt h, value_zero, mul_zero, add_zero]

theorem value_one : value x 1 = 1 := by
  rw [value_of_lt x (by decide), Nat.cast_one]

theorem value_lane_mul (a : ℕ) : value x (lane * a) = x * value x a := by
  rw [value_step, Nat.mul_mod_right, Nat.mul_div_cancel_left _ lane_pos, Nat.cast_zero, zero_add]

theorem value_lane : value x lane = x := by
  rw [← Nat.mul_one lane, value_lane_mul, value_one, mul_one]

variable [CharP R 2]

theorem cast_xor (a b : ℕ) : ((a ^^^ b : ℕ) : R) = (a : R) + b := by
  rw [← Nat.cast_add, CharP.cast_eq_mod R 2 (a ^^^ b), CharP.cast_eq_mod R 2 (a + b),
    Nat.xor_mod_two_eq]

theorem value_xor (a b : ℕ) : value x (a ^^^ b) = value x a + value x b := by
  induction a, b using lanes_induction with
  | zero => rw [Nat.xor_self, value_zero, zero_add]
  | step a b ih =>
    rw [value_step, value_step x a, value_step x b, Nat.xor_div_two_pow, Nat.xor_mod_two_pow,
      cast_xor, ih]
    ring

theorem value_and_mask {n a : ℕ} (h : a < lane ^ n) : value x (a &&& mask n) = value x a := by
  induction n generalizing a with
  | zero =>
    have ha : a = 0 := by simpa using h
    rw [ha, Nat.zero_and]
  | succ n ih =>
    have hdiv : a / lane < lane ^ n := Nat.div_lt_of_lt_mul (by rwa [← pow_succ'])
    rw [value_step, value_step x a, and_mask_mod, and_mask_div, ih hdiv,
      CharP.cast_eq_mod R 2 (a % lane), Nat.mod_mod_of_dvd a (by decide)]

end

/-! ## Products -/

/-- No lane holds more than `c`. -/
def Bounded (c a : ℕ) : Prop := ∀ i, a / lane ^ i % lane ≤ c

theorem Bounded.mod {c a : ℕ} (h : Bounded c a) : a % lane ≤ c := by simpa using h 0

theorem Bounded.div {c a : ℕ} (h : Bounded c a) : Bounded c (a / lane) := by
  intro i
  rw [Nat.div_div_eq_div_mul, ← pow_succ']
  exact h (i + 1)

theorem bounded_of_div {c a : ℕ} (hmod : a % lane ≤ c) (hdiv : Bounded c (a / lane)) :
    Bounded c a := by
  intro i
  cases i with
  | zero => simpa using hmod
  | succ i =>
    rw [pow_succ', ← Nat.div_div_eq_div_mul]
    exact hdiv i

theorem bounded_zero (c : ℕ) : Bounded c 0 := by
  intro i
  rw [Nat.zero_div, Nat.zero_mod]
  exact Nat.zero_le c

theorem Flat.bounded {n a : ℕ} (h : Flat n a) : Bounded 1 a := by
  induction n generalizing a with
  | zero =>
    have ha : a = 0 := by simpa using h.lt
    rw [ha]
    exact bounded_zero 1
  | succ n ih =>
    refine bounded_of_div ?_ (ih h.div)
    rw [h.mod]
    omega

section
variable {R : Type*} [CommRing R] (x : R)

/-- Lanes that do not overflow are added each by itself. -/
theorem value_add {c d : ℕ} (hcd : c + d < lane) {a b : ℕ} (ha : Bounded c a) (hb : Bounded d b) :
    Bounded (c + d) (a + b) ∧ value x (a + b) = value x a + value x b := by
  induction a, b using lanes_induction with
  | zero =>
    rw [value_zero]
    exact ⟨bounded_zero _, (add_zero 0).symm⟩
  | step a b ih =>
    obtain ⟨hbound, hvalue⟩ := ih ha.div hb.div
    have hsum : a % lane + b % lane ≤ c + d := Nat.add_le_add ha.mod hb.mod
    have hmod : (a + b) % lane = a % lane + b % lane := by
      rw [Nat.add_mod, Nat.mod_eq_of_lt (lt_of_le_of_lt hsum hcd)]
    have hdiv : (a + b) / lane = a / lane + b / lane :=
      Nat.add_div_eq_of_add_mod_lt (lt_of_le_of_lt hsum hcd)
    constructor
    · refine bounded_of_div ?_ ?_
      · rwa [hmod]
      · rwa [hdiv]
    · rw [value_step, value_step x a, value_step x b, hmod, hdiv, hvalue, Nat.cast_add]
      ring

/-- The lanes of a product of flat numbers count pairs, so one of the numbers has to be short. -/
theorem value_mul {n a b : ℕ} (hn : n < lane) (ha : Flat n a) (hb : Bounded 1 b) :
    Bounded n (a * b) ∧ value x (a * b) = value x a * value x b := by
  induction n generalizing a with
  | zero =>
    have ha : a = 0 := by simpa using ha.lt
    rw [ha, Nat.zero_mul, value_zero, zero_mul]
    exact ⟨bounded_zero 0, rfl⟩
  | succ n ih =>
    obtain ⟨hbound, hvalue⟩ := ih (Nat.lt_of_succ_lt hn) ha.div
    have hshift : Bounded n (lane * (a / lane * b)) := by
      refine bounded_of_div ?_ ?_
      · rw [Nat.mul_mod_right]
        exact Nat.zero_le n
      · rwa [Nat.mul_div_cancel_left _ lane_pos]
    -- The first coefficient of `a` on its own, and the rest of them one lane further up.
    have hsplit : a * b = lane * (a / lane * b) + a % lane * b := by
      conv_lhs => rw [← Nat.div_add_mod a lane]
      ring
    have hbit : Bounded 1 (a % lane * b) ∧
        value x (a % lane * b) = ((a % lane : ℕ) : R) * value x b := by
      rw [ha.mod]
      rcases Nat.mod_two_eq_zero_or_one a with h | h
      · rw [h, Nat.zero_mul, value_zero, Nat.cast_zero, zero_mul]
        exact ⟨bounded_zero 1, rfl⟩
      · rw [h, Nat.one_mul, Nat.cast_one, one_mul]
        exact ⟨hb, rfl⟩
    obtain ⟨hsum, hadd⟩ := value_add x hn hshift hbit.1
    rw [hsplit, value_step x a, hadd, value_lane_mul, hvalue, hbit.2]
    exact ⟨hsum, by ring⟩

variable [CharP R 2]

/-! ## Products modulo a polynomial -/

/-- A polynomial of degree `n`, and its Barrett constant. -/
structure Modulus (n : ℕ) where
  poly : ℕ
  mu : ℕ
  poly_flat : Flat (n + 1) poly
  one_lt : 1 < n
  lt_lane : n < lane

namespace Modulus

variable {n : ℕ} (m : Modulus n)

theorem pos (m : Modulus n) : 0 < n := Nat.lt_of_succ_lt m.one_lt

/-- There is no answer if what is left of the product is not below the degree. -/
def mul (a b : ℕ) : Option ℕ :=
  let c := a * b &&& mask (n + n)
  let q := (c / lane ^ n * m.mu &&& mask (n + n)) / lane ^ n
  let r := (c ^^^ q * m.poly) &&& mask (n + (n + 1))
  if Flat n r then some r else none

theorem mul_value (hzero : value x m.poly = 0) {a b r : ℕ} (ha : Flat n a) (hb : Flat n b)
    (h : m.mul a b = some r) : Flat n r ∧ value x r = value x a * value x b := by
  unfold mul at h
  extract_lets c q r' at h
  split at h
  · rename_i hr
    obtain rfl : r' = r := Option.some.inj h
    refine ⟨hr, ?_⟩
    have hab : a * b < lane ^ (n + n) := by
      rw [pow_add]
      exact Nat.mul_lt_mul'' ha.lt hb.lt
    have hc : value x c = value x a * value x b := by
      rw [← (value_mul x m.lt_lane ha hb.bounded).2]
      exact value_and_mask x hab
    have hq : Flat n q := (flat_and_mask _ _).div_pow
    -- What is taken off is a multiple of the modulus, and is nothing where the modulus is.
    have hqm : value x (q * m.poly) = 0 := by
      rw [(value_mul x m.lt_lane hq m.poly_flat.bounded).2, hzero, mul_zero]
    have hclt : c < lane ^ (n + (n + 1)) :=
      lt_of_lt_of_le (flat_and_mask _ _).lt (Nat.pow_le_pow_right lane_pos (by omega))
    have hqlt : q * m.poly < lane ^ (n + (n + 1)) := by
      rw [pow_add]
      exact Nat.mul_lt_mul'' hq.lt m.poly_flat.lt
    have hlt : c ^^^ q * m.poly < lane ^ (n + (n + 1)) := by
      rw [← pow_mul] at hclt hqlt ⊢
      exact Nat.xor_lt_two_pow hclt hqlt
    rw [value_and_mask x hlt, value_xor, hc, hqm, add_zero]
  · exact absurd h (by simp)

/-- What is computed, if anything is, stands for `y`. -/
def Represents (n : ℕ) (x : R) (o : Option ℕ) (y : R) : Prop :=
  ∀ a, o = some a → Flat n a ∧ value x a = y

/-- `x ^ e` for an exponent of `bits` bits. -/
def pow (bits e : ℕ) : Option ℕ :=
  powBy (fun o p => o.bind fun a => p.bind (m.mul a)) (some 1) (some lane) bits e

theorem pow_represents (hzero : value x m.poly = 0) {bits e : ℕ} (h : e < 2 ^ bits) :
    Represents n x (m.pow bits e) (x ^ e) := by
  refine powBy_represents (Represents n x) ?_ ?_ ?_ h
  · rintro a ⟨⟩
    exact ⟨flat_one m.pos, value_one x⟩
  · rintro a ⟨⟩
    exact ⟨flat_lane m.one_lt, value_lane x⟩
  · intro o p y z hy hz r hr
    obtain ⟨a, ho, hr⟩ := Option.bind_eq_some_iff.mp hr
    obtain ⟨b, hp, hr⟩ := Option.bind_eq_some_iff.mp hr
    obtain ⟨ha, rfl⟩ := hy a ho
    obtain ⟨hb, rfl⟩ := hz b hp
    exact m.mul_value x hzero ha hb hr

/-- A prime factor `f.1` of the order, with an inverse of what `x ^ (order / f.1)` is off one. -/
def Certifies (bits order : ℕ) (f : ℕ × ℕ) : Prop :=
  Flat n f.2 ∧ ((m.pow bits (order / f.1)).bind fun a => m.mul f.2 (a ^^^ 1)) = some 1

instance (bits order : ℕ) (f : ℕ × ℕ) : Decidable (m.Certifies bits order f) :=
  inferInstanceAs (Decidable (_ ∧ _))

/-- **The order of a root.** -/
theorem orderOf_eq [Nontrivial R] (hzero : value x m.poly = 0) {bits order : ℕ}
    (factors : List (ℕ × ℕ)) (hprime : ∀ f ∈ factors, f.1.Prime)
    (hprod : (factors.map Prod.fst).prod = order) (hpos : 0 < order) (hbits : order < 2 ^ bits)
    (hone : m.pow bits order = some 1) (hcert : ∀ f ∈ factors, m.Certifies bits order f) :
    orderOf x = order := by
  refine orderOf_eq_of_units (factors.map Prod.fst) ?_ hprod hpos ?_ ?_
  · intro q hq
    obtain ⟨f, hf, rfl⟩ := List.mem_map.mp hq
    exact hprime f hf
  · rw [← (m.pow_represents x hzero hbits 1 hone).2, value_one]
  · intro q hq
    obtain ⟨f, hf, rfl⟩ := List.mem_map.mp hq
    obtain ⟨hflat, hinv⟩ := hcert f hf
    obtain ⟨a, ha, hinv⟩ := Option.bind_eq_some_iff.mp hinv
    have hlt : order / f.1 < 2 ^ bits := lt_of_le_of_lt (Nat.div_le_self _ _) hbits
    obtain ⟨haflat, hpow⟩ := m.pow_represents x hzero hlt a ha
    have hprod := (m.mul_value x hzero hflat (haflat.xor (flat_one m.pos)) hinv).2
    rw [value_xor, value_one, hpow] at hprod
    refine ⟨value x f.2, ?_⟩
    rw [CharTwo.sub_eq_add, ← hprod]

end Modulus

end

end Gf2
end Lib
end KaspaMiner
