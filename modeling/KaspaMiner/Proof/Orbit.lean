import Mathlib.Algebra.Module.ZMod
import Mathlib.Tactic.NormNum.Prime
import KaspaMiner.Lib.Period
import KaspaMiner.Proof.Xoshiro

/-!
# The orbits of the generator

The state of the generator is 256 bits and a draw changes it by a linear map of GF(2), whatever is
drawn. The map has two orbits, the zero state and all the others: `period` is the polynomial of the
map, and the factors of `2 ^ 256 - 1` come with what shows that no smaller power of it is one. So
every state but zero is reached from every other, and as a candidate takes `2 ^ 8` draws and the
period is odd, it is reached after a whole number of candidates (`exists_after_mul_eq`).
-/

namespace KaspaMiner
namespace Pow

open Lib.Gf2 (Modulus spread)

namespace XoShiRo256PlusPlus

instance : Add XoShiRo256PlusPlus :=
  ⟨fun g h => ⟨g.s0 ^^^ h.s0, g.s1 ^^^ h.s1, g.s2 ^^^ h.s2, g.s3 ^^^ h.s3⟩⟩

instance : Neg XoShiRo256PlusPlus := ⟨id⟩

theorem ext {g h : XoShiRo256PlusPlus} (h0 : g.s0 = h.s0) (h1 : g.s1 = h.s1) (h2 : g.s2 = h.s2)
    (h3 : g.s3 = h.s3) : g = h := by
  cases g
  cases h
  simp_all

theorem add_self (g : XoShiRo256PlusPlus) : g + g = 0 :=
  ext UInt64.xor_self UInt64.xor_self UInt64.xor_self UInt64.xor_self

/-- States are added without carries. -/
instance : AddCommGroup XoShiRo256PlusPlus where
  add_assoc g h k := ext (UInt64.xor_assoc _ _ _) (UInt64.xor_assoc _ _ _) (UInt64.xor_assoc _ _ _)
    (UInt64.xor_assoc _ _ _)
  zero_add g := ext UInt64.zero_xor UInt64.zero_xor UInt64.zero_xor UInt64.zero_xor
  add_zero g := ext UInt64.xor_zero UInt64.xor_zero UInt64.xor_zero UInt64.xor_zero
  add_comm g h := ext (UInt64.xor_comm _ _) (UInt64.xor_comm _ _) (UInt64.xor_comm _ _)
    (UInt64.xor_comm _ _)
  neg_add_cancel := add_self
  nsmul := nsmulRec
  zsmul := zsmulRec

instance : Module (ZMod 2) XoShiRo256PlusPlus := AddCommGroup.zmodModule fun g => by
  rw [two_nsmul, add_self]

theorem next_add (g h : XoShiRo256PlusPlus) : (g + h).next = g.next + h.next := by
  have hswap : ∀ a b c d : UInt64, a ^^^ b ^^^ (c ^^^ d) = a ^^^ c ^^^ (b ^^^ d) := by
    intro a b c d
    ac_rfl
  refine ext ?_ ?_ ?_ ?_
  · show g.s0 ^^^ h.s0 ^^^ (g.s3 ^^^ h.s3 ^^^ (g.s1 ^^^ h.s1)) =
      g.s0 ^^^ (g.s3 ^^^ g.s1) ^^^ (h.s0 ^^^ (h.s3 ^^^ h.s1))
    rw [hswap g.s3, hswap]
  · show g.s1 ^^^ h.s1 ^^^ (g.s2 ^^^ h.s2 ^^^ (g.s0 ^^^ h.s0)) =
      g.s1 ^^^ (g.s2 ^^^ g.s0) ^^^ (h.s1 ^^^ (h.s2 ^^^ h.s0))
    rw [hswap g.s2, hswap]
  · show g.s2 ^^^ h.s2 ^^^ (g.s0 ^^^ h.s0) ^^^ (g.s1 ^^^ h.s1) <<< 17 = _
    rw [shiftLeft_xor, hswap g.s2, hswap]
    rfl
  · show rotateLeft (g.s3 ^^^ h.s3 ^^^ (g.s1 ^^^ h.s1)) 45 =
      rotateLeft (g.s3 ^^^ g.s1) 45 ^^^ rotateLeft (h.s3 ^^^ h.s1) 45
    rw [← rotateLeft_xor, hswap]

def nextHom : XoShiRo256PlusPlus →ₗ[ZMod 2] XoShiRo256PlusPlus :=
  AddMonoidHom.toZModLinearMap 2 ⟨⟨next, rfl⟩, next_add⟩

theorem natCard : Nat.card XoShiRo256PlusPlus = 2 ^ 256 := by
  have hword : Nat.card UInt64 = 2 ^ 64 := by
    rw [Nat.card_congr ⟨UInt64.toFin, UInt64.ofFin, fun _ => rfl, fun _ => rfl⟩]
    exact Nat.card_fin _
  have hstate : XoShiRo256PlusPlus ≃ UInt64 × UInt64 × UInt64 × UInt64 :=
    ⟨fun g => (g.s0, g.s1, g.s2, g.s3), fun (s0, s1, s2, s3) => ⟨s0, s1, s2, s3⟩,
      fun _ => rfl, fun _ => rfl⟩
  rw [Nat.card_congr hstate, Nat.card_prod, Nat.card_prod, Nat.card_prod, hword, ← pow_add,
    ← pow_add, ← pow_add]

/-! ## The certificate -/

/-- The polynomial of the map. -/
def period : Modulus 256 where
  poly := spread 257 0x10003c03c3f3ecb1904b4edcf26259f850280002bcefd1a5e9d116f2bb0f0f001
  mu := spread 257 0x10003c0396f32c298132b61f2778b69e1aa1297eadd5e76b793a906d956fbc489
  poly_flat := by decide +kernel
  one_lt := by decide
  lt_lane := by decide

/-- The prime factors of the order, each with an inverse. -/
def factors : List (ℕ × ℕ) :=
  [(3,
     spread 256 0x54d6a48aae687fb68b7f13ce6607e276afab085596734aa97762f281b25ed783),
   (5,
     spread 256 0x9b17f5767b72e1a3c673d4c3e369b20235e972559753b37fdedc95dc103781f),
   (17,
     spread 256 0xf4646ef27133b2d46393a4c40448d75b8f3adcab0a20793ef8bb26f5b81e7ecf),
   (257,
     spread 256 0x618e9a9a97b4105e9870464ee696824b10a336ec58f59159b1165cabfe23cd76),
   (641,
     spread 256 0x56ced9120f236c15fdd49ed161d46abc0269afa58693de573c5dcc0645c4b0ff),
   (65537,
     spread 256 0x5b7382b05dc5a20686e618650a39fab806017ce589bb2d98cf9b5a05139e793f),
   (274177,
     spread 256 0x24d5461cfd63732f63b6b60adc840b312db07c0c8c7b46872d3955d70f9e6ac5),
   (6700417,
     spread 256 0x1c10854fe79f6066b6b1fe5c68be2282e701b5777ef01c8fd5b0ea5458d18c36),
   (67280421310721,
     spread 256 0xc3bc6f4888606c0bfb4a6ce96aa43d28506b49c1c962aba2928641dd24af8cf8),
   (59649589127497217,
     spread 256 0x2b0b5d0e0d5dcbfd343a0c7c13920e58856efc82f8b6f3e99a6368bb225afce6),
   (5704689200685129054721,
     spread 256 0xca8fcba3c0dd08871d4e3f7290e3e7fb8436109b90a55fd4bc6fe9d31b611e5)]

theorem prime_18533742247 : Nat.Prime 18533742247 := by
  refine Lib.prime_of_lucas 6 35 [2, 3, 3, 3, 181, 1896229] ?_ (by norm_num) (by norm_num)
    (by norm_num) (by decide +kernel) (by decide +kernel)
  norm_num

theorem prime_67280421310721 : Nat.Prime 67280421310721 := by
  refine Lib.prime_of_lucas 3 46 [2, 2, 2, 2, 2, 2, 2, 2, 5, 47, 373, 2998279] ?_ (by norm_num)
    (by norm_num) (by norm_num) (by decide +kernel) (by decide +kernel)
  norm_num

theorem prime_116503103764643 : Nat.Prime 116503103764643 := by
  refine Lib.prime_of_lucas 2 47 [2, 7, 449, 18533742247] ?_ (by norm_num) (by norm_num)
    (by norm_num) (by decide +kernel) (by decide +kernel)
  simp only [List.forall_mem_cons, prime_18533742247]
  norm_num

theorem prime_733803839347 : Nat.Prime 733803839347 := by
  refine Lib.prime_of_lucas 2 40 [2, 3, 2203, 55515497] ?_ (by norm_num) (by norm_num)
    (by norm_num) (by decide +kernel) (by decide +kernel)
  norm_num

theorem prime_59649589127497217 : Nat.Prime 59649589127497217 := by
  refine Lib.prime_of_lucas 3 56 [2, 2, 2, 2, 2, 2, 2, 2, 2, 116503103764643] ?_ (by norm_num)
    (by norm_num) (by norm_num) (by decide +kernel) (by decide +kernel)
  simp only [List.forall_mem_cons, prime_116503103764643]
  norm_num

theorem prime_5704689200685129054721 : Nat.Prime 5704689200685129054721 := by
  refine Lib.prime_of_lucas 21 73
    [2, 2, 2, 2, 2, 2, 2, 2, 2, 3, 3, 3, 3, 3, 5, 12497, 733803839347] ?_ (by norm_num)
    (by norm_num) (by norm_num) (by decide +kernel) (by decide +kernel)
  simp only [List.forall_mem_cons, prime_733803839347]
  norm_num

theorem factors_prime : ∀ f ∈ factors, f.1.Prime := by
  simp only [factors, List.forall_mem_cons, prime_67280421310721, prime_59649589127497217,
    prime_5704689200685129054721]
  norm_num

/-! ## The two orbits -/

def start : XoShiRo256PlusPlus := ⟨1, 0, 0, 0⟩

theorem minimalPeriod_start : Function.minimalPeriod next start = 2 ^ 256 - 1 :=
  @Lib.Gf2.minimalPeriod_eq _ _ _ nextHom start _ period 256 _ factors (by decide)
    (by decide +kernel) factors_prime (by decide +kernel) (by decide +kernel) (by decide +kernel)
    (by decide +kernel) (by decide +kernel)

theorem exists_iterate_start {g : XoShiRo256PlusPlus} (hg : g ≠ 0) : ∃ k, next^[k] start = g := by
  have : Finite XoShiRo256PlusPlus := Nat.finite_of_card_ne_zero (by rw [natCard]; positivity)
  refine Lib.Gf2.exists_iterate_eq nextHom start (by decide) ?_ hg
  show Function.minimalPeriod next start + 1 = _
  rw [minimalPeriod_start, natCard]
  norm_num

/-- **Every state but zero is reached**, and after any number of draws that is odd to the period. -/
theorem exists_after_mul_eq {g h : XoShiRo256PlusPlus} (hg : g ≠ 0) (hh : h ≠ 0) :
    ∃ a, g.after (256 * a) = h := by
  obtain ⟨i, rfl⟩ := exists_iterate_start hg
  obtain ⟨j, rfl⟩ := exists_iterate_start hh
  have hperiod : 1 < Function.minimalPeriod next start := by
    rw [minimalPeriod_start]
    norm_num
  have hodd : Nat.Coprime 256 (Function.minimalPeriod next start) := by
    rw [minimalPeriod_start]
    norm_num
  exact Lib.Gf2.exists_iterate_mul_eq hperiod hodd i j

end XoShiRo256PlusPlus

end Pow
end KaspaMiner
