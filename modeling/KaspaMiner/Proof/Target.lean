import KaspaMiner.Lib.Loop
import KaspaMiner.Lib.Words
import KaspaMiner.Proof.Bench
import Mathlib.Algebra.Order.Floor.Semifield
import Mathlib.Data.Nat.Bitwise
import Mathlib.Data.Rat.Floor

/-!
# The compact target

The decoder splits on the exponent: a small one shifts the mantissa right, any other shifts a word
left by hand. Both are the one formula `⌊mantissa * 256 ^ (exponent - 3)⌋`, modulo `2 ^ 256`.
-/

namespace KaspaMiner

open Lib (foldl_finRange foldlM_finRange)
open Lib.Words

namespace Uint256

/-! ## `<<` -/

theorem toNat_eq_value (x : Uint256) : x.toNat = value x.words := by
  have hlist : x.words.toList = List.ofFn x.words.get := by
    apply List.ext_getElem (by simp)
    intro i h₁ h₂
    rw [List.getElem_ofFn]
    rfl
  unfold toNat value digit
  rw [hlist, Fin.sum_univ_four]
  simp only [List.ofFn_succ, List.ofFn_zero, List.map_cons, List.map_nil, Nat.ofDigits_cons,
    Nat.ofDigits_nil]
  show _ = (x.words.get 0).toNat * 2 ^ 0 + (x.words.get 1).toNat * 2 ^ 64 +
    (x.words.get 2).toNat * 2 ^ 128 + (x.words.get 3).toNat * 2 ^ 192
  simp only [Fin.succ_zero_eq_one, Fin.succ_one_eq_two]
  show (x.words.get 0).toNat + 2 ^ 64 * ((x.words.get 1).toNat + 2 ^ 64 *
    ((x.words.get 2).toNat + 2 ^ 64 * ((x.words.get 3).toNat + 2 ^ 64 * 0))) = _
  omega

/-- The body of the loop, for word `i`. -/
def shiftWord (x : Uint256) (shift : ℕ) (ret : Vector UInt64 4) (i : Fin 4) : Vector UInt64 4 :=
  shiftAt ret (i + shift / 64) (shift % 64) (x.words.get i)

theorem shl_eq (x : Uint256) (shift : ℕ) :
    x.shl shift = ⟨(List.finRange 4).foldl (x.shiftWord shift) (Vector.replicate 4 0)⟩ := by
  have hb : shift % 64 < 64 := Nat.mod_lt _ (by decide)
  unfold shl
  refine congrArg (fun body => (⟨(List.finRange 4).foldl body (Vector.replicate 4 0)⟩ : Uint256))
    (funext fun ret => funext fun i => ?_)
  unfold shiftWord shiftAt carry
  by_cases hpos : 0 < shift % 64
  · simp only [addAt, hpos, hb, if_true, true_and]
    rfl
  · simp only [hpos, hb, if_false, true_and, false_and, addAt_zero]
    rfl

/-- After `k` words. The next word to be written has its low bits free, those above are empty. -/
structure Shifted (x : Uint256) (shift k : ℕ) (ret : Vector UInt64 4) : Prop where
  value : value ret ≡ low x.words k * 2 ^ shift [MOD 2 ^ 256]
  free : ∀ i : Fin 4, i.val = k + shift / 64 → (ret.get i).toNat < 2 ^ (shift % 64)
  zero : ∀ i : Fin 4, k + shift / 64 < i.val → ret.get i = 0

theorem Shifted.init (x : Uint256) (shift : ℕ) : Shifted x shift 0 (Vector.replicate 4 0) := by
  refine ⟨?_, fun i _ => ?_, fun i _ => get_replicate 4 0 i⟩
  · rw [low_zero, Nat.zero_mul]
    simp [Lib.Words.value, digit, Nat.ModEq]
  · rw [get_replicate]
    exact Nat.two_pow_pos _

theorem Shifted.succ {x : Uint256} {shift : ℕ} (k : Fin 4) (ret : Vector UInt64 4)
    (h : Shifted x shift k ret) : Shifted x shift (k + 1) (x.shiftWord shift ret k) := by
  have hb : shift % 64 < 64 := Nat.mod_lt _ (by decide)
  have hnext : k.val + 1 + shift / 64 = k + shift / 64 + 1 := by omega
  refine ⟨?_, ?_, ?_⟩
  · have hexp : 64 * (k.val + shift / 64) + shift % 64 = 64 * k + shift := by omega
    have hword := value_shiftAt hb h.free h.zero (x.words.get k)
    rw [hexp, Nat.pow_add, ← Nat.mul_assoc] at hword
    rw [low_succ, Nat.add_mul]
    exact hword.trans (h.value.add_right _)
  · rw [hnext]
    exact shiftAt_free hb h.zero (x.words.get k)
  · rw [hnext]
    exact shiftAt_zero h.zero (x.words.get k)

/-- **`<<` multiplies by a power of two, modulo `2 ^ 256`.** -/
theorem shl_toNat (x : Uint256) (shift : ℕ) :
    (x.shl shift).toNat = x.toNat * 2 ^ shift % 2 ^ 256 := by
  have hall := (foldl_finRange (Shifted x shift) Shifted.succ (Shifted.init x shift)).value
  rw [low_length] at hall
  rw [shl_eq, toNat_eq_value, toNat_eq_value]
  exact (Nat.mod_eq_of_lt (value_lt _)).symm.trans hall

/-- The addition at one word, with its check. -/
theorem addAt_checked {ret : Vector UInt64 4} {j : ℕ} {d : UInt64}
    (hroom : ∀ h : j < 4, (ret.get ⟨j, h⟩).toNat + d.toNat < 2 ^ 64) :
    (if h : j < 4 then (u64CheckedAdd (ret.get ⟨j, h⟩) d).bind fun sum => some (ret.set j sum h)
      else some ret) = some (addAt ret j d) := by
  unfold addAt u64CheckedAdd
  by_cases hj : j < 4
  · rw [dif_pos hj, dif_pos hj, if_pos (hroom hj), Option.bind_some]
  · rw [dif_neg hj, dif_neg hj]

theorem Shifted.checked {x : Uint256} {shift : ℕ} (hshift : shift < 2 ^ 64) (k : Fin 4)
    (ret : Vector UInt64 4) (h : Shifted x shift k ret) :
    x.shlBodyChecked (shift / 64) (shift % 64) ret k = some (x.shiftWord shift ret k) := by
  have hb : shift % 64 < 64 := Nat.mod_lt _ (by decide)
  have hdst : usizeChecked (k + shift / 64) = some (k + shift / 64) := if_pos (by omega)
  have hnext : usizeChecked (k + shift / 64 + 1) = some (k + shift / 64 + 1) := if_pos (by omega)
  have hshl : u64CheckedShl (x.words.get k) (shift % 64) = some _ := if_pos hb
  have hfirst := addAt_checked (shiftAt_room hb h.free (x.words.get k))
  unfold shlBodyChecked shiftWord shiftAt carry
  simp only [hdst, hnext, hshl, hb, true_and, Option.bind_eq_bind, Option.bind_some, hfirst]
  by_cases hpos : 0 < shift % 64
  · have hplaces : usizeCheckedSub 64 (shift % 64) = some (64 - shift % 64) := if_pos hb.le
    have hshr : u64CheckedShr (x.words.get k) (64 - shift % 64) = some _ := if_pos (by omega)
    simp only [hpos, true_and, hplaces, hshr, Option.bind_some, if_true]
    apply addAt_checked
    intro hlt
    rw [shiftAt_next h.zero _ hlt]
    rw [UInt64.toNat_zero, Nat.zero_add]
    exact UInt64.toNat_lt _
  · simp only [hpos, false_and, dif_neg, not_false_iff, if_false, addAt_zero]

/-- No word overflows. -/
theorem shlChecked_eq (x : Uint256) {shift : ℕ} (hshift : shift < 2 ^ 64) :
    x.shlChecked shift = some (x.shl shift) := by
  unfold shlChecked
  rw [foldlM_finRange (Shifted x shift) (Shifted.checked hshift) Shifted.succ
    (Shifted.init x shift), shl_eq]
  rfl

/-- **`<<` is a multiplication by a power of two, modulo `2 ^ 256`**, and in a build with overflow
checks it is the same one: no sum overflows, no word is shifted by 64 or more, and every index the
loop computes is in range where it is used. -/
theorem shl_multiplies (x : Uint256) (shift : ℕ) (hshift : shift < 2 ^ 64) :
    (x.shl shift).toNat = x.toNat * 2 ^ shift % 2 ^ 256 ∧
    x.shlChecked shift = some (x.shl shift) :=
  ⟨shl_toNat x shift, shlChecked_eq x hshift⟩

/-- Past the end of the first word. -/
theorem shl_multiplies_third_word : ((fromU64 3).shl 129).toNat = 3 * 2 ^ 129 % 2 ^ 256 :=
  (shl_multiplies (fromU64 3) 129 (by decide)).1

theorem fromU64_toNat (w : UInt64) : (fromU64 w).toNat = w.toNat := by
  show Nat.ofDigits (2 ^ 64) [w.toNat, 0, 0, 0] = w.toNat
  simp [Nat.ofDigits_cons]

theorem default_toNat : (default : Uint256).toNat = 0 := rfl

/-- The bytes of a hash, read as one little-endian number. -/
theorem leValue_toLeBytes (x : Uint256) : Lib.leValue x.toLeBytes.toList = x.toNat := by
  show Lib.leValue (x.words.toList.flatMap u64Bytes) = _
  unfold toNat
  induction x.words.toList with
  | nil => rfl
  | cons w ws ih =>
    have hw : Lib.leValue (u64Bytes w) = w.toNat :=
      (Lib.leValue_leBytes 8 w.toNat).trans (Nat.mod_eq_of_lt w.toNat_lt)
    rw [List.flatMap_cons, Lib.leValue_append, u64Bytes_length, ih, hw, List.map_cons,
      Nat.ofDigits_cons]
    rfl

end Uint256

/-! ## The decoder -/

section
variable (bits : UInt32)

theorem exponent_toNat : (bits >>> 24).toNat = bits.toNat / 2 ^ 24 := by
  rw [UInt32.toNat_shiftRight]
  exact Nat.shiftRight_eq_div_pow _ 24

theorem mantissa_toNat : (bits &&& 0xFFFFFF).toNat = bits.toNat % 2 ^ 24 := by
  rw [UInt32.toNat_and]
  exact Nat.and_two_pow_sub_one_eq_mod _ 24

theorem magnitude_toNat : (bits &&& 0x7FFFFF).toNat = bits.toNat % 2 ^ 23 := by
  rw [UInt32.toNat_and]
  exact Nat.and_two_pow_sub_one_eq_mod _ 23

theorem sign_eq_zero_iff : bits &&& 0x800000 = 0 ↔ bits.toNat / 2 ^ 23 % 2 = 0 := by
  rw [← UInt32.toNat_inj, UInt32.toNat_and]
  show bits.toNat &&& 2 ^ 23 = 0 ↔ _
  rw [Nat.and_two_pow, Nat.testBit_eq_decide_div_mod_eq]
  rcases Nat.mod_two_eq_zero_or_one (bits.toNat / 2 ^ 23) with h | h
  · simp
  · simp

/-- The exponent of the second branch. -/
theorem places_toNat (h : ¬ bits >>> 24 ≤ 3) :
    ((8 : UInt32) * ((bits >>> 24) - 3)).toNat = 8 * (bits.toNat / 2 ^ 24 - 3) := by
  have hexp := exponent_toNat bits
  have hle : (3 : UInt32) ≤ bits >>> 24 := Std.le_of_not_ge h
  have hlt := bits.toNat_lt
  rw [UInt32.toNat_mul, UInt32.toNat_sub_of_le _ _ hle, hexp]
  show 8 * (bits.toNat / 2 ^ 24 - 3) % 2 ^ 32 = _
  omega

/-- The places of the first one. -/
theorem back_toNat (h : bits >>> 24 ≤ 3) :
    ((8 : UInt32) * ((3 : UInt32) - (bits >>> 24))).toNat = 8 * (3 - bits.toNat / 2 ^ 24) := by
  rw [UInt32.toNat_mul, UInt32.toNat_sub_of_le _ _ h, exponent_toNat]
  show 8 * (3 - bits.toNat / 2 ^ 24) % 2 ^ 32 = _
  omega

/-- The mantissa and the exponent the decoder goes on with. -/
def decoded : UInt32 × UInt32 :=
  if bits >>> 24 ≤ 3 then ((bits &&& 0xFFFFFF) >>> ((8 : UInt32) * ((3 : UInt32) - bits >>> 24)), 0)
  else (bits &&& 0xFFFFFF, (8 : UInt32) * ((bits >>> 24) - 3))

theorem u256FromCompactTarget_eq : u256FromCompactTarget bits =
    if (decoded bits).1 > 0x7FFFFF then default
    else (Uint256.fromU64 (decoded bits).1.toUInt64).shl (decoded bits).2.toNat := rfl

/-- One formula for both branches: one of the two powers is 1. -/
theorem decoded_toNat :
    (decoded bits).1.toNat = bits.toNat % 2 ^ 24 / 256 ^ (3 - bits.toNat / 2 ^ 24) ∧
    (decoded bits).2.toNat = 8 * (bits.toNat / 2 ^ 24 - 3) := by
  have hexp := exponent_toNat bits
  unfold decoded
  by_cases h : bits >>> 24 ≤ 3
  · have hle : bits.toNat / 2 ^ 24 ≤ 3 := hexp ▸ h
    rw [if_pos h]
    constructor
    · have hback := back_toNat bits h
      rw [UInt32.toNat_shiftRight, hback, mantissa_toNat, Nat.shiftRight_eq_div_pow,
        Nat.mod_eq_of_lt (show 8 * (3 - bits.toNat / 2 ^ 24) < 32 by omega), Nat.pow_mul]
    · rw [Nat.sub_eq_zero_of_le hle]
      rfl
  · have hlt : 3 < bits.toNat / 2 ^ 24 := by
      rw [← hexp]
      exact not_le.mp h
    rw [if_neg h]
    constructor
    · rw [Nat.sub_eq_zero_of_le hlt.le, Nat.pow_zero, Nat.div_one]
      exact mantissa_toNat bits
    · exact places_toNat bits h

theorem u256FromCompactTarget_toNat : (u256FromCompactTarget bits).toNat =
    if bits.toNat % 2 ^ 24 / 256 ^ (3 - bits.toNat / 2 ^ 24) > 0x7FFFFF then 0
    else bits.toNat % 2 ^ 24 / 256 ^ (3 - bits.toNat / 2 ^ 24) *
      256 ^ (bits.toNat / 2 ^ 24 - 3) % 2 ^ 256 := by
  obtain ⟨hmant, hexpt⟩ := decoded_toNat bits
  have hcond : (decoded bits).1 > 0x7FFFFF ↔ (decoded bits).1.toNat > 0x7FFFFF := Iff.rfl
  rw [u256FromCompactTarget_eq, apply_ite Uint256.toNat, Uint256.default_toNat, Uint256.shl_toNat,
    Uint256.fromU64_toNat, UInt32.toNat_toUInt64, hexpt, ← hmant, Nat.pow_mul]
  exact if_congr hcond rfl rfl

/-- No operation of the decoder overflows. -/
theorem u256FromCompactTargetChecked_eq :
    u256FromCompactTargetChecked bits = some (u256FromCompactTarget bits) := by
  have hexp := exponent_toNat bits
  have hlt := bits.toNat_lt
  have hexpt := (decoded_toNat bits).2
  have hshr : u32CheckedShr bits 24 = some (bits >>> 24) := rfl
  have hshl : ∀ w : UInt64, (Uint256.fromU64 w).shlChecked (decoded bits).2.toNat =
      some ((Uint256.fromU64 w).shl (decoded bits).2.toNat) := by
    intro w
    apply Uint256.shlChecked_eq
    omega
  rw [u256FromCompactTarget_eq, apply_ite some, ← hshl]
  unfold u256FromCompactTargetChecked decoded
  simp only [hshr, Option.bind_eq_bind, Option.bind_some]
  by_cases h : bits >>> 24 ≤ 3
  · have hle : bits.toNat / 2 ^ 24 ≤ 3 := hexp ▸ h
    have hback := back_toNat bits h
    have hsub : u32CheckedSub 3 (bits >>> 24) = some ((3 : UInt32) - bits >>> 24) := if_pos h
    have hmul : u32CheckedMul 8 ((3 : UInt32) - bits >>> 24) =
        some ((8 : UInt32) * ((3 : UInt32) - bits >>> 24)) := by
      apply if_pos
      rw [UInt32.toNat_sub_of_le _ _ h, hexp]
      show 8 * (3 - bits.toNat / 2 ^ 24) < 2 ^ 32
      omega
    have hright : ∀ w, u32CheckedShr w ((8 : UInt32) * ((3 : UInt32) - bits >>> 24)) =
        some (w >>> ((8 : UInt32) * ((3 : UInt32) - bits >>> 24))) := by
      intro w
      apply if_pos
      rw [UInt32.lt_iff_toNat_lt, hback]
      show 8 * (3 - bits.toNat / 2 ^ 24) < 32
      omega
    simp only [h, if_true, hsub, hmul, hright, Option.bind_some]
  · have hgt : 3 < bits.toNat / 2 ^ 24 := hexp ▸ not_le.mp h
    have hsub : u32CheckedSub (bits >>> 24) 3 = some (bits >>> 24 - 3) :=
      if_pos (Std.le_of_not_ge h)
    have hmul : u32CheckedMul 8 (bits >>> 24 - 3) = some ((8 : UInt32) * (bits >>> 24 - 3)) := by
      apply if_pos
      rw [UInt32.toNat_sub_of_le _ _ (Std.le_of_not_ge h), hexp]
      show 8 * (bits.toNat / 2 ^ 24 - 3) < 2 ^ 32
      omega
    simp only [h, if_false, hsub, hmul, Option.bind_some]

end

/-- The powers of the formula, as one rational power. -/
theorem floor_mul_zpow (m e : ℕ) :
    ⌊(m : ℚ) * (256 : ℚ) ^ ((e : ℤ) - 3)⌋₊ = m / 256 ^ (3 - e) * 256 ^ (e - 3) := by
  rcases Nat.le_total e 3 with h | h
  · have hexp : (e : ℤ) - 3 = -((3 - e : ℕ) : ℤ) := by omega
    have hpow : (256 : ℚ) ^ (3 - e) = ((256 ^ (3 - e) : ℕ) : ℚ) := by push_cast; rfl
    rw [hexp, zpow_neg, zpow_natCast, ← div_eq_mul_inv, hpow, Nat.floor_div_eq_div,
      Nat.sub_eq_zero_of_le h, Nat.pow_zero, Nat.mul_one]
  · have hexp : (e : ℤ) - 3 = ((e - 3 : ℕ) : ℤ) := by omega
    have hprod : (m : ℚ) * (256 : ℚ) ^ (e - 3) = ((m * 256 ^ (e - 3) : ℕ) : ℚ) := by push_cast; rfl
    rw [hexp, zpow_natCast, hprod, Nat.floor_natCast, Nat.sub_eq_zero_of_le h, Nat.pow_zero,
      Nat.div_one]

namespace Pow

open Uint256

/-- The comparison of `check_pow`, on the bytes of the pow hash. -/
theorem State.checkPow_iff_leValue (P : Prims) (s : State) : s.checkPow P = true ↔
    Lib.leValue (s.calculatePow P).toLeBytes.toList ≤ s.target.toNat := by
  rw [leValue_toLeBytes]
  exact ble_iff _ _

theorem State.new_target {P : Prims} {fuel : ℕ} {id : USize} {block : RpcBlock} {s : State}
    {header : RpcBlockHeader} (hheader : block.header = some header)
    (h : State.new P fuel id block = .ok s) : s.target = u256FromCompactTarget header.bits := by
  obtain ⟨header', hash, matrix, hheader', -, -, rfl⟩ := State.new_ok_iff.mp h
  rw [hheader] at hheader'
  rw [Option.some_inj.mp hheader']

/-- **What a compact target with the sign bit clear means.** The decoder computes
`⌊m * 256 ^ (e - 3)⌋` modulo `2 ^ 256`, no operation in it overflows, and the proof of work of a
state with that target is the comparison with this number. -/
theorem compactTarget_value (bits : UInt32) (hsign : bits &&& 0x800000 = 0) :
    (u256FromCompactTarget bits).toNat = ⌊((bits &&& 0x7FFFFF).toNat : ℚ) *
      (256 : ℚ) ^ (((bits >>> 24).toNat : ℤ) - 3)⌋₊ % 2 ^ 256 ∧
    u256FromCompactTargetChecked bits = some (u256FromCompactTarget bits) ∧
    ∀ (P : Prims) (s : State), s.target = u256FromCompactTarget bits →
      (s.checkPow P = true ↔ Lib.leValue (s.calculatePow P).toLeBytes.toList ≤
        ⌊((bits &&& 0x7FFFFF).toNat : ℚ) * (256 : ℚ) ^ (((bits >>> 24).toNat : ℤ) - 3)⌋₊ %
          2 ^ 256) := by
  have hvalue : (u256FromCompactTarget bits).toNat = ⌊((bits &&& 0x7FFFFF).toNat : ℚ) *
      (256 : ℚ) ^ (((bits >>> 24).toNat : ℤ) - 3)⌋₊ % 2 ^ 256 := by
    have hbit := (sign_eq_zero_iff bits).mp hsign
    have hmant : bits.toNat % 2 ^ 24 = bits.toNat % 2 ^ 23 := by omega
    have hle : bits.toNat % 2 ^ 23 / 256 ^ (3 - bits.toNat / 2 ^ 24) ≤ bits.toNat % 2 ^ 23 :=
      Nat.div_le_self _ _
    rw [floor_mul_zpow, exponent_toNat, magnitude_toNat, u256FromCompactTarget_toNat, hmant,
      if_neg (by omega)]
  refine ⟨hvalue, u256FromCompactTargetChecked_eq bits, ?_⟩
  intro P s htarget
  rw [State.checkPow_iff_leValue, htarget, hvalue]

/-- The bits of the bench template. -/
theorem compactTarget_value_bench : (u256FromCompactTarget 0x1e7fffff).toNat =
    ⌊(((0x1e7fffff : UInt32) &&& 0x7FFFFF).toNat : ℚ) *
      (256 : ℚ) ^ ((((0x1e7fffff : UInt32) >>> 24).toNat : ℤ) - 3)⌋₊ % 2 ^ 256 :=
  (compactTarget_value 0x1e7fffff (by decide)).1

/-! ## Negative mantissas

The test for the sign bit comes after the shift of a small exponent, which has moved the bit away
by then. An exponent of 0 loses the whole mantissa and one of 3 or more does not move it.
-/

theorem negativeTarget_toNat {bits : UInt32} (hsign : bits &&& 0x800000 ≠ 0) :
    (u256FromCompactTarget bits).toNat = 0 ↔ bits >>> 24 ≠ 1 ∧ bits >>> 24 ≠ 2 := by
  have hbit : ¬ bits.toNat / 2 ^ 23 % 2 = 0 := fun h => hsign ((sign_eq_zero_iff bits).mpr h)
  have hlow : 2 ^ 23 ≤ bits.toNat % 2 ^ 24 := by omega
  have hhigh : bits.toNat % 2 ^ 24 < 2 ^ 24 := Nat.mod_lt _ (by decide)
  have hone : bits >>> 24 = 1 ↔ bits.toNat / 2 ^ 24 = 1 := by
    rw [← exponent_toNat, ← UInt32.toNat_inj]
    rfl
  have htwo : bits >>> 24 = 2 ↔ bits.toNat / 2 ^ 24 = 2 := by
    rw [← exponent_toNat, ← UInt32.toNat_inj]
    rfl
  rw [u256FromCompactTarget_toNat, ne_eq, ne_eq, hone, htwo]
  generalize bits.toNat % 2 ^ 24 = m at hlow hhigh
  generalize bits.toNat / 2 ^ 24 = e
  -- Where the mantissa is moved off by three, two and one bytes, and where it stays.
  match e with
  | 0 =>
    have hgone : m / 256 ^ (3 - 0) = 0 := Nat.div_eq_of_lt hhigh
    rw [hgone, if_neg (by decide), Nat.zero_mul, Nat.zero_mod]
    simp
  | 1 =>
    have hmant : 0 < m / 256 ^ (3 - 1) ∧ m / 256 ^ (3 - 1) < 256 := by omega
    rw [if_neg (by omega), show 256 ^ (1 - 3) = 1 from rfl]
    omega
  | 2 =>
    have hmant : 0 < m / 256 ^ (3 - 2) ∧ m / 256 ^ (3 - 2) < 2 ^ 16 := by omega
    rw [if_neg (by omega), show 256 ^ (2 - 3) = 1 from rfl]
    omega
  | e + 3 =>
    have hmant : m / 256 ^ (3 - (e + 3)) = m := by
      rw [Nat.sub_eq_zero_of_le (Nat.le_add_left 3 e), Nat.pow_zero, Nat.div_one]
    rw [hmant, if_pos (by omega)]
    simp

/-- **A negative target is zero, for all exponents but two.** Then no nonce passes on any template
with such bits, unless the pow hash is zero as well. -/
theorem negativeTarget_iff (bits : UInt32) (hsign : bits &&& 0x800000 ≠ 0) :
    ((u256FromCompactTarget bits).toNat = 0 ∧
      ∀ (P : Prims) (fuel : ℕ) (id : USize) (block : RpcBlock) (header : RpcBlockHeader)
        (s : State) (nonce : UInt64), block.header = some header → header.bits = bits →
        State.new P fuel id block = .ok s →
        State.checkPow P { s with nonce } = true →
        (State.calculatePow P { s with nonce }).toNat = 0) ↔
      bits >>> 24 ≠ 1 ∧ bits >>> 24 ≠ 2 := by
  rw [← negativeTarget_toNat hsign]
  constructor
  · exact And.left
  · intro hzero
    refine ⟨hzero, ?_⟩
    intro P fuel id block header s nonce hheader hbits hnew hpow
    have htarget : s.target = u256FromCompactTarget bits := hbits ▸ State.new_target hheader hnew
    have hle := (ble_iff _ _).mp hpow
    rw [show ({ s with nonce } : State).target = s.target from rfl, htarget, hzero] at hle
    exact Nat.le_zero.mp hle

/-- Every bit of the mantissa set, at an exponent that occurs. -/
theorem negativeTarget_iff_bench : (u256FromCompactTarget 0x1effffff).toNat = 0 :=
  ((negativeTarget_iff 0x1effffff (by decide)).mpr (by decide)).1

/-- Exponent 2: the sign bit has become a bit of the magnitude. -/
theorem negativeTarget_nonzero :
    (0x02800000 : UInt32) &&& 0x800000 ≠ 0 ∧ (u256FromCompactTarget 0x02800000).toNat ≠ 0 := by
  decide

end Pow

end KaspaMiner
