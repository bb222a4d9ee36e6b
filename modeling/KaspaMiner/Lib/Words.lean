import Mathlib.Algebra.BigOperators.Fin
import Mathlib.Algebra.Order.BigOperators.Group.Finset
import Mathlib.Data.Nat.ModEq
import Mathlib.Tactic.Ring

/-!
# Numbers of several words

A little-endian vector of `u64` words read as one number, and what an update of one word does to
it. `addAt` is the update that carries and shifts are made of; it drops what lands above the last
word, so it is an addition modulo `2 ^ (64 * n)` as long as the word itself does not overflow
(`value_addAt`).
-/

namespace KaspaMiner
namespace Lib
namespace Words

open Finset

variable {n : ℕ}

/-- What word `i` contributes. -/
def digit (v : Vector UInt64 n) (i : Fin n) : ℕ := (v.get i).toNat * 2 ^ (64 * i.val)

def value (v : Vector UInt64 n) : ℕ := ∑ i, digit v i

/-- The value of the first `k` words. -/
def low (v : Vector UInt64 n) (k : ℕ) : ℕ := ∑ i with i.val < k, digit v i

@[simp] theorem low_zero (v : Vector UInt64 n) : low v 0 = 0 := by simp [low]

theorem low_succ (v : Vector UInt64 n) (k : Fin n) : low v (k + 1) = low v k + digit v k := by
  have hfilter : (univ.filter fun i : Fin n => i.val < k + 1) =
      insert k (univ.filter fun i : Fin n => i.val < k) := by
    ext i
    simp only [mem_filter, mem_insert, mem_univ, true_and, Fin.ext_iff]
    omega
  unfold low
  rw [hfilter, sum_insert (by simp), Nat.add_comm]

theorem low_length (v : Vector UInt64 n) : low v n = value v := by
  unfold low value
  rw [filter_true_of_mem fun i _ => i.isLt]

theorem low_lt (v : Vector UInt64 n) {k : ℕ} (hk : k ≤ n) : low v k < 2 ^ (64 * k) := by
  induction k with
  | zero => simp
  | succ k ih =>
    have hword := (v.get ⟨k, hk⟩).toNat_lt
    have hlow := ih (Nat.le_of_succ_le hk)
    rw [low_succ v ⟨k, hk⟩, Nat.mul_succ, Nat.pow_add]
    calc low v k + digit v ⟨k, hk⟩ < 2 ^ (64 * k) + (v.get ⟨k, hk⟩).toNat * 2 ^ (64 * k) :=
          Nat.add_lt_add_right hlow _
      _ = ((v.get ⟨k, hk⟩).toNat + 1) * 2 ^ (64 * k) := by
          rw [Nat.add_mul, Nat.one_mul, Nat.add_comm]
      _ ≤ 2 ^ 64 * 2 ^ (64 * k) := Nat.mul_le_mul_right _ hword
      _ = 2 ^ (64 * k) * 2 ^ 64 := Nat.mul_comm _ _

theorem value_lt (v : Vector UInt64 n) : value v < 2 ^ (64 * n) :=
  low_length v ▸ low_lt v le_rfl

theorem digit_set_self (v : Vector UInt64 n) (k : Fin n) (w : UInt64) :
    digit (v.set k w) k = w.toNat * 2 ^ (64 * k.val) := by
  unfold digit
  show ((v.set k w)[k.val]).toNat * _ = _
  rw [Vector.getElem_set_self]

theorem digit_set_ne (v : Vector UInt64 n) {k i : Fin n} (w : UInt64) (h : i ≠ k) :
    digit (v.set k w) i = digit v i := by
  unfold digit
  show ((v.set k w)[i.val]).toNat * _ = (v[i.val]).toNat * _
  rw [Vector.getElem_set_ne _ _ fun heq => h (Fin.ext heq.symm)]

/-- Only the word that is written changes. -/
theorem value_set (v : Vector UInt64 n) (k : Fin n) (w : UInt64) :
    value (v.set k w) + digit v k = value v + w.toNat * 2 ^ (64 * k.val) := by
  have hrest : ∑ i ∈ univ.erase k, digit (v.set k w) i = ∑ i ∈ univ.erase k, digit v i :=
    sum_congr rfl fun i hi => digit_set_ne v w (ne_of_mem_erase hi)
  unfold value
  rw [← add_sum_erase _ _ (mem_univ k), ← add_sum_erase univ (digit v) (mem_univ k),
    digit_set_self, hrest]
  omega

/-! ## Adding at a word -/

/-- Add `d` to word `j`, or nothing where there is no word `j`. -/
def addAt (v : Vector UInt64 n) (j : ℕ) (d : UInt64) : Vector UInt64 n :=
  if h : j < n then v.set j (v.get ⟨j, h⟩ + d) else v

theorem addAt_get (v : Vector UInt64 n) (j : ℕ) (d : UInt64) (i : Fin n) :
    (addAt v j d).get i = if i.val = j then v.get i + d else v.get i := by
  unfold addAt
  by_cases hj : j < n
  · rw [dif_pos hj]
    show (v.set j _)[i.val] = if i.val = j then _ else v[i.val]
    rw [Vector.getElem_set]
    by_cases hij : i.val = j
    · subst hij
      rw [if_pos rfl]
    · rw [if_neg (Ne.symm hij), if_neg hij]
  · rw [dif_neg hj, if_neg]
    rintro rfl
    exact hj i.isLt

@[simp] theorem addAt_zero (v : Vector UInt64 n) (j : ℕ) : addAt v j 0 = v := by
  refine Vector.ext fun i hi => ?_
  have hget := addAt_get v j 0 ⟨i, hi⟩
  rw [UInt64.add_zero, ite_self] at hget
  exact hget

/-- Where the word has room, this is an addition modulo the width. -/
theorem value_addAt {v : Vector UInt64 n} {j : ℕ} {d : UInt64}
    (hroom : ∀ h : j < n, (v.get ⟨j, h⟩).toNat + d.toNat < 2 ^ 64) :
    value (addAt v j d) ≡ value v + d.toNat * 2 ^ (64 * j) [MOD 2 ^ (64 * n)] := by
  unfold addAt
  by_cases hj : j < n
  · rw [dif_pos hj]
    have hset := value_set v ⟨j, hj⟩ (v.get ⟨j, hj⟩ + d)
    rw [UInt64.toNat_add, Nat.mod_eq_of_lt (hroom hj), Nat.add_mul] at hset
    have hval : value (v.set j (v.get ⟨j, hj⟩ + d)) = value v + d.toNat * 2 ^ (64 * j) := by
      unfold digit at hset
      simp only at hset
      omega
    rw [hval]
  · rw [dif_neg hj]
    have hdvd : 2 ^ (64 * n) ∣ d.toNat * 2 ^ (64 * j) :=
      Dvd.dvd.mul_left (pow_dvd_pow 2 (Nat.mul_le_mul_left 64 (not_lt.mp hj))) _
    exact (Nat.ModEq.add_left (value v) (Nat.modEq_zero_iff_dvd.mpr hdvd).symm)

/-! ## Shifting a word -/

theorem toNat_shiftLeft (x : UInt64) {b : ℕ} (h : b < 64) :
    (x <<< UInt64.ofNat b).toNat = x.toNat * 2 ^ b % 2 ^ 64 := by
  have hb : (UInt64.ofNat b).toNat % 64 = b := by
    rw [UInt64.toNat_ofNat']
    omega
  rw [UInt64.toNat_shiftLeft, hb, Nat.shiftLeft_eq]

theorem toNat_shiftRight (x : UInt64) {b : ℕ} (h : b < 64) :
    (x >>> UInt64.ofNat b).toNat = x.toNat / 2 ^ b := by
  have hb : (UInt64.ofNat b).toNat % 64 = b := by
    rw [UInt64.toNat_ofNat']
    omega
  rw [UInt64.toNat_shiftRight, hb, Nat.shiftRight_eq_div_pow]

/-- What a shift by `b` places pushes out of a word. -/
def carry (x : UInt64) (b : ℕ) : UInt64 := if 0 < b then x >>> UInt64.ofNat (64 - b) else 0

/-- The two halves a word falls into when it is shifted across a word boundary. -/
theorem shift_split (x : UInt64) {b : ℕ} (hb : b < 64) :
    (x <<< UInt64.ofNat b).toNat + 2 ^ 64 * (carry x b).toNat = x.toNat * 2 ^ b := by
  unfold carry
  rw [toNat_shiftLeft x hb]
  by_cases hpos : 0 < b
  · have hpow : 2 ^ 64 = 2 ^ (64 - b) * 2 ^ b := by
      rw [← Nat.pow_add, Nat.sub_add_cancel hb.le]
    have hhigh : x.toNat / 2 ^ (64 - b) = x.toNat * 2 ^ b / 2 ^ 64 := by
      rw [hpow, Nat.mul_div_mul_right _ _ (Nat.two_pow_pos b)]
    rw [if_pos hpos, toNat_shiftRight x (by omega), hhigh, Nat.mod_add_div]
  · have hzero : b = 0 := Nat.eq_zero_of_not_pos hpos
    subst hzero
    have hx := x.toNat_lt
    simp [Nat.mod_eq_of_lt hx]

/-- The low `b` bits of a word that was shifted are free. -/
theorem shiftLeft_room (x : UInt64) {b : ℕ} (hb : b < 64) :
    (x <<< UInt64.ofNat b).toNat + 2 ^ b ≤ 2 ^ 64 := by
  have hpow : 2 ^ 64 = 2 ^ (64 - b) * 2 ^ b := by
    rw [← Nat.pow_add, Nat.sub_add_cancel hb.le]
  have hlt : x.toNat % 2 ^ (64 - b) < 2 ^ (64 - b) := Nat.mod_lt _ (Nat.two_pow_pos _)
  rw [toNat_shiftLeft x hb, hpow, Nat.mul_mod_mul_right, ← Nat.succ_mul]
  exact Nat.mul_le_mul_right _ hlt

theorem carry_lt (x : UInt64) {b : ℕ} (hb : b < 64) : (carry x b).toNat < 2 ^ b := by
  have hsplit := shift_split x hb
  have hx : x.toNat * 2 ^ b < 2 ^ 64 * 2 ^ b :=
    Nat.mul_lt_mul_of_pos_right x.toNat_lt (Nat.two_pow_pos b)
  have hle : 2 ^ 64 * (carry x b).toNat ≤ x.toNat * 2 ^ b := by omega
  exact Nat.lt_of_mul_lt_mul_left (hle.trans_lt hx)

/-- Add a word, shifted by `b` places, at word `j`: what does not fit goes to the next word. -/
def shiftAt (v : Vector UInt64 n) (j b : ℕ) (x : UInt64) : Vector UInt64 n :=
  addAt (addAt v j (x <<< UInt64.ofNat b)) (j + 1) (carry x b)

section
variable {v : Vector UInt64 n} {j b : ℕ} (hb : b < 64)
  (hlow : ∀ i : Fin n, i.val = j → (v.get i).toNat < 2 ^ b)
  (hzero : ∀ i : Fin n, j < i.val → v.get i = 0) (x : UInt64)

include hb hlow in
theorem shiftAt_room (h : j < n) :
    (v.get ⟨j, h⟩).toNat + (x <<< UInt64.ofNat b).toNat < 2 ^ 64 := by
  have hfree := hlow ⟨j, h⟩ rfl
  have hroom := shiftLeft_room x hb
  omega

include hzero in
theorem shiftAt_next (h : j + 1 < n) :
    (addAt v j (x <<< UInt64.ofNat b)).get ⟨j + 1, h⟩ = 0 := by
  rw [addAt_get, if_neg (Nat.succ_ne_self j)]
  exact hzero ⟨j + 1, h⟩ (Nat.lt_succ_self j)

include hb hlow hzero in
theorem value_shiftAt :
    value (shiftAt v j b x) ≡ value v + x.toNat * 2 ^ (64 * j + b) [MOD 2 ^ (64 * n)] := by
  have hfirst := value_addAt (v := v) (d := x <<< UInt64.ofNat b) (shiftAt_room hb hlow x)
  have hsecond := value_addAt (v := addAt v j (x <<< UInt64.ofNat b)) (j := j + 1)
    (d := carry x b) (fun h => by
      rw [shiftAt_next hzero x h]
      simpa using (carry x b).toNat_lt)
  have hsplit : (x <<< UInt64.ofNat b).toNat * 2 ^ (64 * j) +
      (carry x b).toNat * 2 ^ (64 * (j + 1)) = x.toNat * 2 ^ (64 * j + b) := by
    rw [Nat.mul_succ, Nat.pow_add, Nat.pow_add, Nat.mul_comm (2 ^ (64 * j)) (2 ^ b),
      ← Nat.mul_assoc x.toNat, ← shift_split x hb]
    ring
  rw [← hsplit, ← Nat.add_assoc]
  exact hsecond.trans (hfirst.add_right _)

include hb hzero in
/-- What is left for the next word to be shifted in. -/
theorem shiftAt_free (i : Fin n) (hi : i.val = j + 1) :
    ((shiftAt v j b x).get i).toNat < 2 ^ b := by
  have hget : v.get i = 0 := hzero i (by omega)
  unfold shiftAt
  rw [addAt_get, if_pos hi, addAt_get, if_neg (by omega), hget, UInt64.zero_add]
  exact carry_lt x hb

include hzero in
theorem shiftAt_zero (i : Fin n) (hi : j + 1 < i.val) : (shiftAt v j b x).get i = 0 := by
  unfold shiftAt
  rw [addAt_get, if_neg (by omega), addAt_get, if_neg (by omega)]
  exact hzero i (by omega)

end

end Words
end Lib
end KaspaMiner
