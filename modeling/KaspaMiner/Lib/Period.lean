import Mathlib.Algebra.Module.Torsion.Basic
import Mathlib.Algebra.Polynomial.Module.AEval
import Mathlib.Dynamics.PeriodicPts.Lemmas
import Mathlib.Order.Interval.Set.Nat
import KaspaMiner.Lib.Gf2

/-!
# Periods of linear maps over GF(2)

The polynomials that send `v` to zero are an ideal, and modulo it the powers of `X` are the orbit of
`v`. So the period of `v` is an order, and the certificates of `Lib/Gf2.lean` find it from one
polynomial that sends `v` to zero (`minimalPeriod_eq`). If the period is the number of nonzero
vectors there is nothing outside the orbit (`exists_iterate_eq`).
-/

namespace KaspaMiner
namespace Lib
namespace Gf2

open Polynomial

theorem map_value {R S : Type*} [CommRing R] [CommRing S] (f : R →+* S) (x : R) (a : ℕ) :
    f (value x a) = value (f x) a := by
  induction a using Nat.strong_induction_on with
  | _ a ih =>
    rcases Nat.eq_zero_or_pos a with rfl | ha
    · rw [value_zero, value_zero, map_zero]
    · rw [value_step, value_step (f x), map_add, map_mul, map_natCast,
        ih _ (Nat.div_lt_self ha (by decide))]

variable {V : Type*} [AddCommGroup V] [Module (ZMod 2) V] (t : V →ₗ[ZMod 2] V) (v : V)

/-- The polynomial of the first `n` lanes, at `t`, applied to `v`. -/
def apply (t : V → V) (v : V) : ℕ → ℕ → V
  | 0, _ => 0
  | n + 1, a => (if a % 2 = 1 then v else 0) + t (apply t v n (a / lane))

/-- The polynomials that send `v` to zero. -/
noncomputable def annihilator : Ideal (ZMod 2)[X] :=
  Ideal.torsionOf (ZMod 2)[X] (Module.AEval' t) (Module.AEval'.of t v)

theorem value_smul {n a : ℕ} (h : a < lane ^ n) :
    value (X : (ZMod 2)[X]) a • Module.AEval'.of t v = Module.AEval'.of t (apply t v n a) := by
  induction n generalizing a with
  | zero =>
    have ha : a = 0 := by simpa using h
    rw [ha, value_zero, zero_smul]
    exact (map_zero _).symm
  | succ n ih =>
    have hdiv : a / lane < lane ^ n := Nat.div_lt_of_lt_mul (by rwa [← pow_succ'])
    have hbit : ((a % lane : ℕ) : (ZMod 2)[X]) • Module.AEval'.of t v =
        Module.AEval'.of t (if a % 2 = 1 then v else 0) := by
      rw [CharP.cast_eq_mod (ZMod 2)[X] 2, Nat.mod_mod_of_dvd a (by decide)]
      rcases Nat.mod_two_eq_zero_or_one a with h | h
      · rw [h, Nat.cast_zero, zero_smul, if_neg Nat.zero_ne_one, map_zero]
      · rw [h, Nat.cast_one, one_smul, if_pos rfl]
    rw [value_step, add_smul, mul_smul, ih hdiv, Module.AEval'.X_smul_of, hbit, ← map_add]
    rfl

theorem pow_mem_annihilator (k : ℕ) : X ^ k - 1 ∈ annihilator t v ↔ t^[k] v = v := by
  unfold annihilator
  rw [Ideal.mem_torsionOf_iff, sub_smul, one_smul, Module.AEval'.X_pow_smul_of, sub_eq_zero,
    EmbeddingLike.apply_eq_iff_eq]
  show (t ^ k) v = v ↔ _
  rw [Module.End.pow_apply]

/-- **The period of a vector.** -/
theorem minimalPeriod_eq {n : ℕ} (m : Modulus n) {bits order : ℕ} (factors : List (ℕ × ℕ))
    (hv : v ≠ 0) (hzero : apply t v (n + 1) m.poly = 0) (hprime : ∀ f ∈ factors, f.1.Prime)
    (hprod : (factors.map Prod.fst).prod = order) (hpos : 0 < order) (hbits : order < 2 ^ bits)
    (hone : m.pow bits order = some 1) (hcert : ∀ f ∈ factors, m.Certifies bits order f) :
    Function.minimalPeriod t v = order := by
  let x : (ZMod 2)[X] ⧸ annihilator t v := Ideal.Quotient.mk _ X
  have hone_mem : (1 : (ZMod 2)[X]) ∉ annihilator t v := by
    intro h
    rw [annihilator, Ideal.mem_torsionOf_iff, one_smul, EmbeddingLike.map_eq_zero_iff] at h
    exact hv h
  have : Nontrivial ((ZMod 2)[X] ⧸ annihilator t v) :=
    Submodule.Quotient.nontrivial_iff.mpr ((Ideal.ne_top_iff_one _).mpr hone_mem)
  have : CharP ((ZMod 2)[X] ⧸ annihilator t v) 2 := by
    refine CharTwo.of_one_ne_zero_of_two_eq_zero one_ne_zero ?_
    have htwo : (2 : (ZMod 2)[X]) = 0 := CharTwo.two_eq_zero
    rw [← map_ofNat (Ideal.Quotient.mk (annihilator t v)) 2, htwo, map_zero]
  have hroot : value x m.poly = 0 := by
    rw [← map_value, Ideal.Quotient.eq_zero_iff_mem, annihilator, Ideal.mem_torsionOf_iff,
      value_smul t v m.poly_flat.lt, hzero, map_zero]
  -- `x ^ k - 1` kills `v` exactly when `t` is back after `k` steps.
  have hpow : ∀ k, x ^ k = 1 ↔ Function.IsPeriodicPt t k v := by
    intro k
    rw [← map_pow, ← map_one (Ideal.Quotient.mk (annihilator t v)), Ideal.Quotient.eq,
      pow_mem_annihilator]
    rfl
  rw [← m.orderOf_eq x hroot factors hprime hprod hpos hbits hone hcert]
  refine Nat.dvd_antisymm ?_ ?_
  · rw [← Function.isPeriodicPt_iff_minimalPeriod_dvd, ← hpow, pow_orderOf_eq_one]
  · rw [orderOf_dvd_iff_pow_eq_one, hpow]
    exact Function.isPeriodicPt_minimalPeriod t v

/-- **A full period.** Every other vector is on the orbit of `v`. -/
theorem exists_iterate_eq [Finite V] (hv : v ≠ 0)
    (hperiod : Function.minimalPeriod t v + 1 = Nat.card V) {w : V} (hw : w ≠ 0) :
    ∃ k, t^[k] v = w := by
  have hne : ∀ k < Function.minimalPeriod t v, t^[k] v ≠ 0 := by
    intro k hk hzero
    have hback : t^[Function.minimalPeriod t v - k] (t^[k] v) = v := by
      rw [← Function.iterate_add_apply, Nat.sub_add_cancel hk.le, Function.iterate_minimalPeriod]
    rw [hzero, iterate_map_zero] at hback
    exact hv hback.symm
  have horbit : (t^[·] v) '' Set.Iio (Function.minimalPeriod t v) = {0}ᶜ := by
    refine Set.eq_of_subset_of_ncard_le ?_ ?_
    · rintro _ ⟨k, hk, rfl⟩
      exact hne k hk
    · rw [Function.iterate_injOn_Iio_minimalPeriod.ncard_image, Set.ncard_Iio_nat, Set.ncard_compl,
        Set.ncard_singleton, ← hperiod, Nat.add_sub_cancel]
  have hmem : w ∈ ({0}ᶜ : Set V) := hw
  rw [← horbit] at hmem
  obtain ⟨k, -, hk⟩ := hmem
  exact ⟨k, hk⟩

/-- A number of steps that is prime to the period goes everywhere on the orbit. -/
theorem exists_iterate_mul_eq {α : Type*} {f : α → α} {x : α} {n : ℕ}
    (hperiod : 1 < Function.minimalPeriod f x) (hn : n.Coprime (Function.minimalPeriod f x))
    (i j : ℕ) : ∃ a, f^[n * a] (f^[i] x) = f^[j] x := by
  obtain ⟨r, -, hr⟩ := Nat.exists_mul_mod_eq_one_of_coprime hn hperiod
  obtain ⟨q, hq⟩ := Nat.exists_eq_add_of_le hperiod.le
  have hinv : n * r ≡ 1 [MOD Function.minimalPeriod f x] := by
    rw [Nat.ModEq, hr, Nat.mod_eq_of_lt hperiod]
  have hsteps : n * (r * (j + q * i)) + i ≡ 1 * (j + q * i) + i
      [MOD Function.minimalPeriod f x] := by
    rw [← mul_assoc]
    exact (hinv.mul_right _).add_right i
  have hturns : 1 * (j + q * i) + i = j + Function.minimalPeriod f x * i := by
    rw [hq]
    ring
  rw [hturns, Nat.ModEq, Nat.add_mul_mod_self_left] at hsteps
  refine ⟨r * (j + q * i), ?_⟩
  rw [← Function.iterate_add_apply, ← Function.iterate_mod_minimalPeriod_eq, hsteps,
    Function.iterate_mod_minimalPeriod_eq]

end Gf2
end Lib
end KaspaMiner
