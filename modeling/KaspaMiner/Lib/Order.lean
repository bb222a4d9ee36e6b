import Mathlib.NumberTheory.LucasPrimality

/-!
# Orders from certificates

That `x` has order `n` is a power that is one, and one power for each prime factor of `n` that is
not. `powBy` computes the powers by squaring, in whatever representation the numbers have: it only
has to multiply what it represents (`powBy_represents`). The prime factors may need a certificate
themselves, and `prime_of_lucas` is the one they get.
-/

namespace KaspaMiner
namespace Lib

/-! ## Squaring -/

/-- The power `a ^ e` of a multiplication `mul`, for an exponent of `n` bits. -/
def powBy {α : Type*} (mul : α → α → α) (one a : α) : ℕ → ℕ → α
  | 0, _ => one
  | n + 1, e =>
    let r := powBy mul one a n (e / 2)
    let s := mul r r
    if e % 2 = 1 then mul s a else s

theorem powBy_represents {α M : Type*} [Monoid M] {mul : α → α → α} {one a : α} {x : M}
    (Rep : α → M → Prop) (hone : Rep one 1) (ha : Rep a x)
    (hmul : ∀ {b c y z}, Rep b y → Rep c z → Rep (mul b c) (y * z)) {n e : ℕ} (h : e < 2 ^ n) :
    Rep (powBy mul one a n e) (x ^ e) := by
  induction n generalizing e with
  | zero =>
    have he : e = 0 := by simpa using h
    rw [he, pow_zero]
    exact hone
  | succ n ih =>
    have hhalf : e / 2 < 2 ^ n := by
      rw [pow_succ] at h
      omega
    have hsquare := hmul (ih hhalf) (ih hhalf)
    rw [← pow_add] at hsquare
    unfold powBy
    by_cases he : e % 2 = 1
    · have hsplit : e = e / 2 + e / 2 + 1 := by omega
      have hodd := hmul hsquare ha
      rw [← pow_succ, ← hsplit] at hodd
      rwa [if_pos he]
    · have hsplit : e / 2 + e / 2 = e := by omega
      rw [hsplit] at hsquare
      rwa [if_neg he]

/-! ## Primes -/

def powMod (p : ℕ) (a : ℕ) : ℕ → ℕ → ℕ := powBy (fun b c => b * c % p) 1 a

theorem powMod_cast {p a n e : ℕ} (h : e < 2 ^ n) :
    (powMod p a n e : ZMod p) = (a : ZMod p) ^ e := by
  refine powBy_represents (fun b y => ((b : ℕ) : ZMod p) = y) Nat.cast_one rfl ?_ h
  rintro b c _ _ rfl rfl
  rw [ZMod.natCast_mod, Nat.cast_mul]

/-- Lucas's test, with the prime factors of `p - 1` given. -/
theorem prime_of_lucas {p : ℕ} (a n : ℕ) (factors : List ℕ) (hprime : ∀ q ∈ factors, q.Prime)
    (hprod : factors.prod = p - 1) (hp : 1 < p) (hn : p < 2 ^ n) (ha : powMod p a n (p - 1) = 1)
    (hne : ∀ q ∈ factors, powMod p a n ((p - 1) / q) % p ≠ 1) : p.Prime := by
  have hcast : ∀ e < 2 ^ n, (a : ZMod p) ^ e = 1 ↔ powMod p a n e % p = 1 := by
    intro e he
    rw [← powMod_cast he, ← Nat.cast_one, ZMod.natCast_eq_natCast_iff', Nat.mod_eq_of_lt hp]
  have hlt : p - 1 < 2 ^ n := lt_of_le_of_lt (Nat.sub_le p 1) hn
  refine lucas_primality p (a : ZMod p) ?_ ?_
  · rw [hcast _ hlt, ha, Nat.mod_eq_of_lt hp]
  · intro q hq hdvd
    rw [← hprod, Prime.dvd_prod_iff hq.prime] at hdvd
    obtain ⟨r, hr, hqr⟩ := hdvd
    rw [(Nat.prime_dvd_prime_iff_eq hq (hprime r hr)).mp hqr, Ne,
      hcast _ (lt_of_le_of_lt (Nat.div_le_self _ _) hlt)]
    exact hne r hr

/-! ## Orders -/

/-- In a ring, a power that differs from one by a unit is not one. -/
theorem orderOf_eq_of_units {R : Type*} [Ring R] [Nontrivial R] {x : R} {n : ℕ} (factors : List ℕ)
    (hprime : ∀ q ∈ factors, q.Prime) (hprod : factors.prod = n) (hn : 0 < n) (hx : x ^ n = 1)
    (hunit : ∀ q ∈ factors, ∃ u, u * (x ^ (n / q) - 1) = 1) : orderOf x = n := by
  refine orderOf_eq_of_pow_and_pow_div_prime hn hx ?_
  intro q hq hdvd hone
  rw [← hprod, Prime.dvd_prod_iff hq.prime] at hdvd
  obtain ⟨r, hr, hqr⟩ := hdvd
  obtain ⟨u, hu⟩ := hunit r hr
  rw [← (Nat.prime_dvd_prime_iff_eq hq (hprime r hr)).mp hqr, hone, sub_self, mul_zero] at hu
  exact zero_ne_one hu

end Lib
end KaspaMiner
