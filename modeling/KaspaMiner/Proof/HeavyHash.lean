import KaspaMiner.Proof.Generate
import KaspaMiner.Proof.Bench
import Mathlib.Algebra.BigOperators.Fin

/-!
# The multiplication of `heavy_hash`

The accumulators are `u16` and nothing checks them. A matrix that was generated has entries below
16 and so has the vector, so a row sums to at most `64 * 15 * 15 = 14400`: the accumulators hold the
exact sums all the way through, what is left after the shift is one nibble, and the two nibbles of a
byte do not meet.

`exactHeavyHash` is the definition over the natural numbers, with no width in it but the last one.
-/

namespace KaspaMiner
namespace Pow

open Lib (foldl_finRange foldlM_finRange)

namespace Matrix

/-- Nibble `j` of the bytes, the high one of each byte first. -/
def exactNibble (bytes : Vector UInt8 32) (j : Fin 64) : ℕ :=
  if j.val % 2 = 0 then (bytes.get (Fin.ofNat 32 (j / 2))).toNat / 16
  else (bytes.get (Fin.ofNat 32 (j / 2))).toNat % 16

/-- Entry `r` of the product, over the natural numbers, and without its low ten bits. -/
def exactProduct (self : Matrix) (bytes : Vector UInt8 32) (r : Fin 64) : ℕ :=
  (∑ j : Fin 64, (self.entry r j).toNat * exactNibble bytes j) / 1024

theorem even_lt (i : Fin 32) : 2 * i.val < 64 := by omega

theorem odd_lt (i : Fin 32) : 2 * i.val + 1 < 64 := by omega

/-- The two rows byte `i` of the product is made of. -/
def even (i : Fin 32) : Fin 64 := ⟨2 * i, even_lt i⟩

def odd (i : Fin 32) : Fin 64 := ⟨2 * i + 1, odd_lt i⟩

def exactHeavyHash (P : Prims) (self : Matrix) (hash : Hash) : Hash :=
  let bytes := hash.toLeBytes
  HeavyHasher.hash P (Uint256.fromLeBytes (Vector.ofFn fun i : Fin 32 =>
    UInt8.ofNat (16 * self.exactProduct bytes (even i) +
      self.exactProduct bytes (odd i)) ^^^ bytes.get i))

theorem exactNibble_lt (bytes : Vector UInt8 32) (j : Fin 64) : exactNibble bytes j < 16 := by
  unfold exactNibble
  have hb := (bytes.get (Fin.ofNat 32 (j / 2))).toNat_lt
  split
  · omega
  · omega

theorem nibbles_toNat (bytes : Vector UInt8 32) (j : Fin 64) :
    ((nibbles bytes).get j).toNat = exactNibble bytes j := by
  have hindex : Fin.ofNat 32 (j / 2) = ⟨j / 2, by omega⟩ :=
    Fin.ext (Nat.mod_eq_of_lt (by omega))
  unfold nibbles exactNibble
  rw [hindex, get_ofFn]
  split
  · rw [UInt8.toNat_shiftRight]
    exact Nat.shiftRight_eq_div_pow _ 4
  · rw [UInt8.toNat_and]
    exact Nat.and_two_pow_sub_one_eq_mod _ 4

/-! ## The accumulators -/

/-- What every matrix drawn by `generate` has. -/
def Nibbly (self : Matrix) : Prop := ∀ i j, (self.entry i j).toNat < 16

def term (self : Matrix) (bytes : Vector UInt8 32) (r : Fin 64) (j : ℕ) : ℕ :=
  (self.entry r (Fin.ofNat 64 j)).toNat * exactNibble bytes (Fin.ofNat 64 j)

/-- The first `k` terms of a row. -/
def exactSum (self : Matrix) (bytes : Vector UInt8 32) (r : Fin 64) (k : ℕ) : ℕ :=
  ∑ j ∈ Finset.range k, self.term bytes r j

theorem exactSum_succ (self : Matrix) (bytes : Vector UInt8 32) (r : Fin 64) (k : ℕ) :
    self.exactSum bytes r (k + 1) = self.exactSum bytes r k + self.term bytes r k :=
  Finset.sum_range_succ ..

theorem exactProduct_eq (self : Matrix) (bytes : Vector UInt8 32) (r : Fin 64) :
    self.exactProduct bytes r = self.exactSum bytes r 64 / 1024 := by
  unfold exactProduct exactSum
  rw [Finset.sum_range]
  simp [term]

section
variable {self : Matrix} (bytes : Vector UInt8 32) (r : Fin 64)

theorem term_le (h : self.Nibbly) (j : ℕ) : self.term bytes r j ≤ 225 :=
  Nat.mul_le_mul (Nat.le_of_lt_succ (h r _)) (Nat.le_of_lt_succ (exactNibble_lt bytes _))

theorem exactSum_le (h : self.Nibbly) (k : ℕ) : self.exactSum bytes r k ≤ 225 * k := by
  induction k with
  | zero => exact Nat.le_refl 0
  | succ k ih =>
    have hterm := term_le bytes r h k
    rw [exactSum_succ]
    omega

theorem exactProduct_lt (h : self.Nibbly) : self.exactProduct bytes r < 16 := by
  have hle := exactSum_le bytes r h 64
  rw [exactProduct_eq]
  omega

variable {bytes r}

/-- One iteration of one accumulator: neither the product nor the sum overflows. -/
theorem accumulate (h : self.Nibbly) {k : Fin 64} {sum : UInt16}
    (hsum : sum.toNat = self.exactSum bytes r k) :
    u16CheckedMul (self.entry r k) ((nibbles bytes).get k).toUInt16 =
      some (self.entry r k * ((nibbles bytes).get k).toUInt16) ∧
    u16CheckedAdd sum (self.entry r k * ((nibbles bytes).get k).toUInt16) =
      some (sum + self.entry r k * ((nibbles bytes).get k).toUInt16) ∧
    (sum + self.entry r k * ((nibbles bytes).get k).toUInt16).toNat =
      self.exactSum bytes r (k + 1) := by
  have hprod : (self.entry r k).toNat * ((nibbles bytes).get k).toUInt16.toNat =
      self.term bytes r k := by
    rw [UInt8.toNat_toUInt16, nibbles_toNat]
    simp [term]
  have hterm := term_le bytes r h k
  have hle := exactSum_le bytes r h k
  obtain ⟨hmul, hmulv⟩ := u16CheckedMul_some (x := self.entry r k)
    (y := ((nibbles bytes).get k).toUInt16) (by omega)
  obtain ⟨hadd, haddv⟩ := u16CheckedAdd_some (x := sum)
    (y := self.entry r k * ((nibbles bytes).get k).toUInt16) (by omega)
  refine ⟨hmul, hadd, ?_⟩
  rw [haddv, hmulv, exactSum_succ, hsum, hprod]

/-- The accumulators of byte `i` after `k` iterations. -/
def Accumulated (self : Matrix) (bytes : Vector UInt8 32) (i : Fin 32) (k : ℕ)
    (sums : UInt16 × UInt16) : Prop :=
  sums.1.toNat = self.exactSum bytes (even i) k ∧
  sums.2.toNat = self.exactSum bytes (odd i) k

theorem accumulated_succ (h : self.Nibbly) {i : Fin 32} (k : Fin 64) (sums : UInt16 × UInt16)
    (hsums : Accumulated self bytes i k sums) :
    Accumulated self bytes i (k + 1)
      (sums.1 + self.entry (even i) k * ((nibbles bytes).get k).toUInt16,
        sums.2 + self.entry (odd i) k * ((nibbles bytes).get k).toUInt16) :=
  ⟨(accumulate h hsums.1).2.2, (accumulate h hsums.2).2.2⟩

theorem rowSums_accumulated (h : self.Nibbly) (bytes : Vector UInt8 32) (i : Fin 32) :
    Accumulated self bytes i 64 (self.rowSums (nibbles bytes) i) := by
  unfold rowSums
  exact foldl_finRange (Accumulated self bytes i) (accumulated_succ h) ⟨rfl, rfl⟩

/-- The accumulators never overflow. -/
theorem rowSumsChecked_eq (h : self.Nibbly) (bytes : Vector UInt8 32) (i : Fin 32) :
    self.rowSumsChecked (nibbles bytes) i = some (self.rowSums (nibbles bytes) i) := by
  unfold rowSumsChecked rowSums
  refine foldlM_finRange (Accumulated self bytes i) ?_ (accumulated_succ h) ⟨rfl, rfl⟩
  rintro k ⟨sum1, sum2⟩ ⟨h1, h2⟩
  obtain ⟨hmul1, hadd1, -⟩ := accumulate h h1
  obtain ⟨hmul2, hadd2, -⟩ := accumulate h h2
  show ((u16CheckedMul (self.entry (even i) k) ((nibbles bytes).get k).toUInt16).bind fun prod1 =>
    (u16CheckedAdd sum1 prod1).bind fun sum1 =>
    (u16CheckedMul (self.entry (odd i) k) ((nibbles bytes).get k).toUInt16).bind fun prod2 =>
    (u16CheckedAdd sum2 prod2).bind fun sum2 => some (sum1, sum2)) = _
  rw [hmul1, Option.bind_some, hadd1, Option.bind_some, hmul2, Option.bind_some, hadd2]
  rfl

end

/-! ## The bytes -/

theorem shifted_toNat (sum : UInt16) : (sum >>> 10).toNat = sum.toNat / 1024 := by
  rw [UInt16.toNat_shiftRight]
  exact Nat.shiftRight_eq_div_pow _ 10

/-- Two nibbles in one byte. -/
theorem combine {a b : UInt16} (ha : a.toNat < 16) (hb : b.toNat < 16) :
    ((a <<< 4).toUInt8 ||| b.toUInt8) = UInt8.ofNat (16 * a.toNat + b.toNat) ∧
    ((a <<< 4).toUInt8 &&& b.toUInt8) = 0 := by
  have hhigh : (a <<< 4).toUInt8.toNat = 2 ^ 4 * a.toNat := by
    rw [UInt16.toNat_toUInt8, UInt16.toNat_shiftLeft]
    show a.toNat <<< 4 % 2 ^ 16 % 2 ^ 8 = _
    rw [Nat.shiftLeft_eq]
    omega
  have hlow : b.toUInt8.toNat = b.toNat := by
    rw [UInt16.toNat_toUInt8]
    omega
  constructor
  · rw [← UInt8.toNat_inj, UInt8.toNat_or, hhigh, hlow, ← Nat.two_pow_add_eq_or_of_lt hb,
      UInt8.toNat_ofNat']
    omega
  -- No bit is in both: below the fourth none is in the first, from there on none in the second.
  · rw [← UInt8.toNat_inj, UInt8.toNat_and, hhigh, hlow]
    apply Nat.eq_of_testBit_eq
    intro n
    rw [Nat.testBit_and, Nat.testBit_two_pow_mul]
    by_cases hn : n < 4
    · simp [Nat.not_le_of_lt hn]
    · have hbit : b.toNat.testBit n = false :=
        Nat.testBit_lt_two_pow (hb.trans_le (Nat.pow_le_pow_right Nat.zero_lt_two (not_lt.mp hn)))
      simp [hbit]

section
variable {M : Matrix} (hM : M.Nibbly) (bytes : Vector UInt8 32) (i : Fin 32)
include hM

/-- What the shift leaves of the accumulators of a byte. -/
theorem shifted_rowSums :
    ((M.rowSums (nibbles bytes) i).1 >>> 10).toNat = M.exactProduct bytes (even i) ∧
    ((M.rowSums (nibbles bytes) i).2 >>> 10).toNat =
      M.exactProduct bytes (odd i) := by
  obtain ⟨h1, h2⟩ := rowSums_accumulated hM bytes i
  rw [shifted_toNat, shifted_toNat, h1, h2, exactProduct_eq, exactProduct_eq]
  exact ⟨rfl, rfl⟩

theorem combine_rowSums :
    ((M.rowSums (nibbles bytes) i).1 >>> 10 <<< 4).toUInt8 |||
      ((M.rowSums (nibbles bytes) i).2 >>> 10).toUInt8 =
      UInt8.ofNat (16 * M.exactProduct bytes (even i) +
        M.exactProduct bytes (odd i)) ∧
    ((M.rowSums (nibbles bytes) i).1 >>> 10 <<< 4).toUInt8 &&&
      ((M.rowSums (nibbles bytes) i).2 >>> 10).toUInt8 = 0 := by
  obtain ⟨h1, h2⟩ := shifted_rowSums hM bytes i
  have hcombine := combine (h1.trans_lt (exactProduct_lt bytes _ hM))
    (h2.trans_lt (exactProduct_lt bytes _ hM))
  rwa [h1, h2] at hcombine

end

theorem heavyHash_bytes (P : Prims) (self : Matrix) (hash : Hash) :
    self.heavyHash P hash = HeavyHasher.hash P (Uint256.fromLeBytes (Vector.ofFn fun i =>
      (((self.rowSums (nibbles hash.toLeBytes) i).1 >>> 10 <<< 4).toUInt8 |||
        ((self.rowSums (nibbles hash.toLeBytes) i).2 >>> 10).toUInt8) ^^^
          hash.toLeBytes.get i)) := by
  unfold heavyHash
  simp only [Fin.getElem_fin, Vector.getElem_ofFn]
  rfl

/-- **The result of `heavy_hash` is the exact one.** On a matrix that was generated, a build with
overflow checks computes the same accumulators, what is left of each is one nibble, the nibbles of
a byte do not overlap, and the hash is the one defined over the natural numbers. -/
theorem heavyHash_eq_exact {P : Prims} {fuel : ℕ} {seed : Hash} {M : Matrix}
    (h : generate P fuel seed = some M) (x : Hash) :
    (∀ i, M.rowSumsChecked (nibbles x.toLeBytes) i = some (M.rowSums (nibbles x.toLeBytes) i)) ∧
    (∀ i, ((M.rowSums (nibbles x.toLeBytes) i).1 >>> 10).toNat =
        M.exactProduct x.toLeBytes (even i) ∧
      ((M.rowSums (nibbles x.toLeBytes) i).2 >>> 10).toNat =
        M.exactProduct x.toLeBytes (odd i)) ∧
    (∀ r, M.exactProduct x.toLeBytes r < 16) ∧
    (∀ i, ((M.rowSums (nibbles x.toLeBytes) i).1 >>> 10 <<< 4).toUInt8 &&&
      ((M.rowSums (nibbles x.toLeBytes) i).2 >>> 10).toUInt8 = 0) ∧
    M.heavyHash P x = M.exactHeavyHash P x := by
  have hM : M.Nibbly := generate_entry_lt h
  refine ⟨rowSumsChecked_eq hM _, shifted_rowSums hM _, fun r => exactProduct_lt _ r hM,
    fun i => (combine_rowSums hM _ i).2, ?_⟩
  rw [heavyHash_bytes]
  simp only [fun i => (combine_rowSums hM x.toLeBytes i).1]
  rfl

/-- The matrix of the benchmark's template on the hash it comes from, a nibble of every size. -/
theorem heavyHash_eq_exact_bench :
    (∀ k : Fin 16, ∃ i : Fin 64,
      ((nibbles (Uint256.fromLeBytes benchDigest).toLeBytes).get i).toNat = k) ∧
    ∃ M, generate benchPrims 1 (Uint256.fromLeBytes benchDigest) = some M ∧
      (∀ i, M.rowSumsChecked (nibbles (Uint256.fromLeBytes benchDigest).toLeBytes) i =
        some (M.rowSums (nibbles (Uint256.fromLeBytes benchDigest).toLeBytes) i)) ∧
      M.heavyHash benchPrims (Uint256.fromLeBytes benchDigest) =
        M.exactHeavyHash benchPrims (Uint256.fromLeBytes benchDigest) := by
  obtain ⟨M, hM⟩ := generate_coarse (P := benchPrims) computeRank_coarse
    (Uint256.fromLeBytes benchDigest)
  obtain ⟨hchecked, -, -, -, hhash⟩ := heavyHash_eq_exact hM (Uint256.fromLeBytes benchDigest)
  exact ⟨by decide +kernel, M, hM, hchecked, hhash⟩

end Matrix

end Pow
end KaspaMiner
