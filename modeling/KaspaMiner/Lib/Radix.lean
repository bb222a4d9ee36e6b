import Mathlib.Algebra.BigOperators.Fin
import Mathlib.Data.Nat.Digits.Lemmas

/-!
# Positional notation with the least significant digit first

Readings of a fixed number of digits, all over `Nat.ofDigits`:

* `leBytes w n` writes a number as exactly `w` bytes, least significant first, and drops what does
  not fit. It is a function of `n % 256 ^ w` and nothing else (`leValue_leBytes`), and injective
  on the numbers that fit (`leBytes_inj`).
* equally long digit strings with the same value are the same (`ofDigits_map_inj`).
* comparing two equally long digit strings *from the most significant end* is comparing the
  numbers (`compareLex_reverse`), in any base and for any digit type that is compared like its
  value. It is the whole content of ordering a little-endian array of words.
-/

namespace KaspaMiner
namespace Lib

theorem ofDigits_map_inj {α : Type*} {b : ℕ} {v : α → ℕ} (hv : Function.Injective v)
    (hb : ∀ x, v x < b) {as bs : List α} (hlen : as.length = bs.length)
    (h : Nat.ofDigits b (as.map v) = Nat.ofDigits b (bs.map v)) : as = bs := by
  induction as generalizing bs with
  | nil => exact (List.length_eq_zero_iff.mp hlen.symm).symm
  | cons x as ih =>
    cases bs with
    | nil => exact absurd hlen (by simp)
    | cons y bs =>
      rw [List.map_cons, List.map_cons, Nat.ofDigits_cons, Nat.ofDigits_cons] at h
      have hmod := congrArg (· % b) h
      have hdiv := congrArg (· / b) h
      have hpos : 0 < b := Nat.lt_of_le_of_lt (Nat.zero_le _) (hb x)
      simp only [Nat.add_mul_mod_self_left, Nat.mod_eq_of_lt (hb _)] at hmod
      simp only [Nat.add_mul_div_left _ _ hpos, Nat.div_eq_of_lt (hb _), Nat.zero_add] at hdiv
      rw [hv hmod, ih (Nat.succ.inj hlen) hdiv]

/-- The `w` little-endian bytes of `n`. -/
def leBytes : ℕ → ℕ → List UInt8
  | 0, _ => []
  | w + 1, n => UInt8.ofNat n :: leBytes w (n / 256)

@[simp] theorem leBytes_zero (n : ℕ) : leBytes 0 n = [] := rfl

theorem leBytes_succ (w n : ℕ) :
    leBytes (w + 1) n = UInt8.ofNat n :: leBytes w (n / 256) := rfl

@[simp] theorem leBytes_length (w n : ℕ) : (leBytes w n).length = w := by
  induction w generalizing n with
  | zero => rfl
  | succ w ih => rw [leBytes_succ, List.length_cons, ih]

/-- The number a byte string stands for, least significant byte first. -/
def leValue (bs : List UInt8) : ℕ := Nat.ofDigits 256 (bs.map UInt8.toNat)

@[simp] theorem leValue_nil : leValue [] = 0 := rfl

theorem leValue_cons (b : UInt8) (bs : List UInt8) :
    leValue (b :: bs) = b.toNat + 256 * leValue bs := by
  simp [leValue, Nat.ofDigits_cons]

theorem leValue_append (as bs : List UInt8) :
    leValue (as ++ bs) = leValue as + 256 ^ as.length * leValue bs := by
  simp [leValue, Nat.ofDigits_append]

theorem leValue_inj {as bs : List UInt8} (hlen : as.length = bs.length)
    (h : leValue as = leValue bs) : as = bs :=
  ofDigits_map_inj (fun _ _ => UInt8.toNat_inj.mp) UInt8.toNat_lt hlen h

/-- The sum of the digits, each at its place. -/
theorem leValue_ofFn {n : ℕ} (f : Fin n → UInt8) :
    leValue (List.ofFn f) = ∑ i : Fin n, (f i).toNat * 256 ^ i.val := by
  induction n with
  | zero => simp
  | succ n ih =>
    rw [List.ofFn_succ, leValue_cons, ih, Fin.sum_univ_succ, Finset.mul_sum]
    simp only [Fin.val_zero, pow_zero, mul_one, Fin.val_succ]
    congr 1
    refine Finset.sum_congr rfl fun i _ => ?_
    rw [pow_succ]
    ring

theorem leValue_lt (bs : List UInt8) : leValue bs < 256 ^ bs.length := by
  induction bs with
  | nil => exact Nat.one_pos
  | cons b bs ih =>
    have hb := b.toNat_lt
    rw [leValue_cons, List.length_cons, pow_succ]
    omega

theorem leValue_leBytes (w n : ℕ) : leValue (leBytes w n) = n % 256 ^ w := by
  induction w generalizing n with
  | zero => simp [Nat.mod_one]
  | succ w ih =>
    have hhead : (UInt8.ofNat n).toNat = n % 256 := UInt8.toNat_ofNat'
    rw [leBytes_succ, leValue_cons, ih, hhead, Nat.pow_succ', Nat.mod_mul]

/-- Two numbers that fit are written alike only if they are the same. -/
theorem leBytes_inj {w n m : ℕ} (hn : n < 256 ^ w) (hm : m < 256 ^ w)
    (h : leBytes w n = leBytes w m) : n = m := by
  have hv : n % 256 ^ w = m % 256 ^ w := by
    rw [← leValue_leBytes, ← leValue_leBytes, h]
  rwa [Nat.mod_eq_of_lt hn, Nat.mod_eq_of_lt hm] at hv

/-! ## Order -/

section
variable {α : Type*} [Ord α]

theorem compareLex_append {as bs : List α} (hlen : as.length = bs.length) (cs ds : List α) :
    List.compareLex compare (as ++ cs) (bs ++ ds) =
      (List.compareLex compare as bs).then (List.compareLex compare cs ds) := by
  induction as generalizing bs with
  | nil =>
    cases bs with
    | nil => rfl
    | cons b bs => simp at hlen
  | cons a as ih =>
    cases bs with
    | nil => simp at hlen
    | cons b bs =>
      simp only [List.cons_append, List.compareLex_cons_cons]
      cases compare a b with
      | lt => rfl
      | gt => rfl
      | eq => exact ih (by simpa using hlen)

/-- One more digit below two numbers decides their order only where the numbers agree. -/
theorem compare_digit {b x y : ℕ} (hx : x < b) (hy : y < b) (m n : ℕ) :
    compare (x + b * m) (y + b * n) = (compare m n).then (compare x y) := by
  rcases lt_trichotomy m n with h | h | h
  · have hmul : b * (m + 1) ≤ b * n := Nat.mul_le_mul_left b h
    rw [Nat.compare_eq_lt.mpr h, Nat.compare_eq_lt.mpr (by rw [Nat.mul_succ] at hmul; omega)]
    rfl
  · subst h
    rw [Nat.compare_eq_eq.mpr rfl]
    rcases lt_trichotomy x y with h | h | h
    · rw [Nat.compare_eq_lt.mpr h, Nat.compare_eq_lt.mpr (by omega)]
      rfl
    · rw [h, Nat.compare_eq_eq.mpr rfl, Nat.compare_eq_eq.mpr rfl]
      rfl
    · rw [Nat.compare_eq_gt.mpr h, Nat.compare_eq_gt.mpr (by omega)]
      rfl
  · have hmul : b * (n + 1) ≤ b * m := Nat.mul_le_mul_left b h
    rw [Nat.compare_eq_gt.mpr h, Nat.compare_eq_gt.mpr (by rw [Nat.mul_succ] at hmul; omega)]
    rfl

/-- **Most significant digit first is the numeric order.** `v` reads a digit, and `α` is compared
like what is read. -/
theorem compareLex_reverse {b : ℕ} {v : α → ℕ} (hv : ∀ x y : α, compare x y = compare (v x) (v y))
    (hb : ∀ x, v x < b) {as bs : List α} (hlen : as.length = bs.length) :
    List.compareLex compare as.reverse bs.reverse =
      compare (Nat.ofDigits b (as.map v)) (Nat.ofDigits b (bs.map v)) := by
  induction as generalizing bs with
  | nil =>
    cases bs with
    | nil => rfl
    | cons b' bs => simp at hlen
  | cons x as ih =>
    cases bs with
    | nil => simp at hlen
    | cons y bs =>
      have hlen' : as.length = bs.length := by simpa using hlen
      have hone : List.compareLex compare [x] [y] = compare (v x) (v y) := by
        rw [List.compareLex_cons_cons, hv x y]
        cases compare (v x) (v y) <;> rfl
      rw [List.reverse_cons, List.reverse_cons, compareLex_append (by simpa using hlen'), ih hlen',
        hone, List.map_cons, List.map_cons, Nat.ofDigits_cons, Nat.ofDigits_cons]
      exact (compare_digit (hb x) (hb y) _ _).symm

end

end Lib
end KaspaMiner
