import Mathlib.Logic.Function.Iterate
import KaspaMiner.Pow.Xoshiro

/-!
# The state update of the generator

The update is undone line by line from the last: the rotation, then the sums, and in between the
word that was added to itself shifted, which four shifts clear (`unshift`). Nothing is lost in a
draw, so the state is zero after a draw only if it was zero before.
-/

namespace KaspaMiner
namespace Pow

/-! ## Words -/

theorem rotateLeft_xor (x y : UInt64) (n : ℕ) :
    rotateLeft (x ^^^ y) n = rotateLeft x n ^^^ rotateLeft y n := by
  apply UInt64.toBitVec_inj.mp
  apply BitVec.eq_of_getElem_eq
  intro i hi
  show (BitVec.rotateLeft (x.toBitVec ^^^ y.toBitVec) n)[i] =
    (x.toBitVec.rotateLeft n ^^^ y.toBitVec.rotateLeft n)[i]
  rw [BitVec.getElem_xor]
  simp only [BitVec.getElem_rotateLeft, BitVec.getElem_xor]
  split
  · rfl
  · rfl

/-- Rotating on by what is left to a full turn. -/
theorem rotateLeft_rotateLeft (x : UInt64) {m n : ℕ} (hm : 0 < m) (hn : 0 < n) (h : m + n = 64) :
    rotateLeft (rotateLeft x m) n = x := by
  apply UInt64.toBitVec_inj.mp
  apply BitVec.eq_of_getElem_eq
  intro i hi
  show ((x.toBitVec.rotateLeft m).rotateLeft n)[i] = x.toBitVec[i]
  simp only [BitVec.getElem_rotateLeft, Nat.mod_eq_of_lt (show m < 64 by omega),
    Nat.mod_eq_of_lt (show n < 64 by omega)]
  by_cases hlow : i < n
  · have hge : ¬ 64 - n + i < m := by omega
    have hidx : 64 - n + i - m = i := by omega
    simp only [hlow, hge, dif_pos, dif_neg, not_false_iff, hidx]
  · have hlt : i - n < m := by omega
    have hidx : 64 - m + (i - n) = i := by omega
    simp only [hlow, hlt, dif_pos, dif_neg, not_false_iff, hidx]

theorem shiftLeft_xor (x y n : UInt64) : (x ^^^ y) <<< n = x <<< n ^^^ y <<< n := by
  apply UInt64.toBitVec_inj.mp
  simp only [UInt64.toBitVec_shiftLeft, UInt64.toBitVec_xor]
  exact BitVec.shiftLeft_xor_distrib _ _ _

theorem shiftLeft_four (x : UInt64) : x <<< 17 <<< 17 <<< 17 <<< 17 = 0 := by
  apply UInt64.toBitVec_inj.mp
  show x.toBitVec <<< 17 <<< 17 <<< 17 <<< 17 = 0#64
  rw [← BitVec.shiftLeft_add, ← BitVec.shiftLeft_add, ← BitVec.shiftLeft_add]
  exact BitVec.shiftLeft_eq_zero (by decide)

theorem xor_cancel_left (x y : UInt64) : x ^^^ (x ^^^ y) = y := by
  rw [← UInt64.xor_assoc, UInt64.xor_self, UInt64.zero_xor]

theorem xor_cancel_right (x y : UInt64) : x ^^^ y ^^^ y = x := by
  rw [UInt64.xor_assoc, UInt64.xor_self, UInt64.xor_zero]

theorem xor_right_comm (x y z : UInt64) : x ^^^ y ^^^ z = x ^^^ z ^^^ y := by
  rw [UInt64.xor_assoc, UInt64.xor_comm y z, ← UInt64.xor_assoc]

/-- The word that gives `y` when it is added to itself shifted by 17. -/
def unshift (y : UInt64) : UInt64 :=
  y ^^^ y <<< 17 ^^^ y <<< 17 <<< 17 ^^^ y <<< 17 <<< 17 <<< 17

-- Shifted sums are sums of shifts, and all but one of these occur twice.
theorem unshift_shift (x : UInt64) : unshift (x ^^^ x <<< 17) = x := by
  unfold unshift
  simp only [shiftLeft_xor, shiftLeft_four, UInt64.xor_assoc, xor_cancel_left, UInt64.xor_zero,
    UInt64.xor_self]

theorem shift_unshift (y : UInt64) : unshift y ^^^ unshift y <<< 17 = y := by
  unfold unshift
  simp only [shiftLeft_xor, shiftLeft_four, UInt64.xor_assoc, UInt64.xor_zero, UInt64.xor_self]

namespace XoShiRo256PlusPlus

instance : Zero XoShiRo256PlusPlus := ⟨⟨0, 0, 0, 0⟩⟩

/-- The state after a draw. -/
def next (self : XoShiRo256PlusPlus) : XoShiRo256PlusPlus := self.u64.2

/-- The state before a draw. -/
def prev (self : XoShiRo256PlusPlus) : XoShiRo256PlusPlus :=
  let { s0, s1, s2, s3 } := self
  let s3 := rotateLeft s3 19
  let s0 := s0 ^^^ s3
  let s1 := s1 ^^^ s0
  let s2 := s2 ^^^ s0
  let s1' := unshift (s1 ^^^ s2)
  { s0, s1 := s1', s2 := s1 ^^^ s1', s3 := s3 ^^^ s1' }

theorem prev_next (g : XoShiRo256PlusPlus) : g.next.prev = g := by
  obtain ⟨s0, s1, s2, s3⟩ := g
  have hrot : rotateLeft (rotateLeft (s3 ^^^ s1) 45) 19 = s3 ^^^ s1 :=
    rotateLeft_rotateLeft _ (by decide) (by decide) rfl
  have h0 : s0 ^^^ (s3 ^^^ s1) ^^^ (s3 ^^^ s1) = s0 := xor_cancel_right _ _
  have h1 : s1 ^^^ (s2 ^^^ s0) ^^^ s0 = s1 ^^^ s2 := by
    rw [UInt64.xor_assoc, xor_cancel_right]
  have h2 : s2 ^^^ s0 ^^^ s1 <<< 17 ^^^ s0 = s2 ^^^ s1 <<< 17 := by
    rw [xor_right_comm, xor_cancel_right]
  have hword : s1 ^^^ s2 ^^^ (s2 ^^^ s1 <<< 17) = s1 ^^^ s1 <<< 17 := by
    rw [UInt64.xor_assoc, xor_cancel_left]
  simp only [next, u64, prev, hrot, h0, h1, h2, hword, unshift_shift, xor_cancel_right]
  rw [UInt64.xor_comm s1 s2, xor_cancel_right]

theorem next_prev (g : XoShiRo256PlusPlus) : g.prev.next = g := by
  obtain ⟨s0, s1, s2, s3⟩ := g
  have hrot : rotateLeft (rotateLeft s3 19) 45 = s3 :=
    rotateLeft_rotateLeft _ (by decide) (by decide) rfl
  simp only [next, u64, prev, xor_cancel_right, hrot]
  generalize rotateLeft s3 19 = r
  have hunshift := shift_unshift (s1 ^^^ (s0 ^^^ r) ^^^ (s2 ^^^ (s0 ^^^ r)))
  generalize unshift (s1 ^^^ (s0 ^^^ r) ^^^ (s2 ^^^ (s0 ^^^ r))) = w at hunshift
  generalize s0 ^^^ r = p at hunshift
  have h1 : w ^^^ (s1 ^^^ p ^^^ w ^^^ p) = s1 := by
    rw [xor_right_comm (s1 ^^^ p), xor_cancel_right, UInt64.xor_comm, xor_cancel_right]
  have h2 : s1 ^^^ p ^^^ w ^^^ p ^^^ w <<< 17 = s2 := by
    rw [xor_right_comm (s1 ^^^ p), xor_cancel_right, UInt64.xor_assoc, hunshift,
      UInt64.xor_comm s2 p, UInt64.xor_assoc s1, xor_cancel_left, xor_cancel_left]
  rw [h1, h2]

theorem next_bijective : Function.Bijective next :=
  ⟨Function.LeftInverse.injective prev_next, Function.RightInverse.surjective next_prev⟩

/-! ## The zero state -/

theorem after_eq (g : XoShiRo256PlusPlus) (n : ℕ) : g.after n = next^[n] g := rfl

theorem zero_after (n : ℕ) : (0 : XoShiRo256PlusPlus).after n = 0 := Function.iterate_fixed rfl n

theorem zero_output (n : ℕ) : (0 : XoShiRo256PlusPlus).output n = 0 := by
  unfold output
  rw [zero_after]
  rfl

/-- Only the zero state becomes zero. -/
theorem after_eq_zero_iff {g : XoShiRo256PlusPlus} {n : ℕ} : g.after n = 0 ↔ g = 0 := by
  constructor
  · intro h
    apply next_bijective.injective.iterate n
    rw [← after_eq, ← after_eq, h, zero_after]
  · rintro rfl
    exact zero_after n

theorem new_eq_zero_iff {hash : Hash} : new hash = 0 ↔ hash = default := by
  constructor
  · intro h
    have hwords : ∀ i : Fin 4, hash.words.get i = 0
      | 0 => congrArg s0 h
      | 1 => congrArg s1 h
      | 2 => congrArg s2 h
      | 3 => congrArg s3 h
    obtain ⟨words⟩ := hash
    refine congrArg Uint256.mk (Vector.ext fun i hi => ?_)
    rw [Vector.getElem_replicate]
    exact hwords ⟨i, hi⟩
  · rintro rfl
    rfl

/-- **No state is lost.** The update is undone by `prev`, a seed other than zero never leads to the
zero state, and the zero seed never leaves it and draws nothing but zeros. -/
theorem orbits :
    Function.LeftInverse prev next ∧ Function.RightInverse prev next ∧ Function.Bijective next ∧
    (∀ hash : Hash, hash ≠ default → ∀ n, (new hash).after n ≠ 0) ∧
    (∀ n, (new default).output n = 0 ∧ (new default).after n = 0) := by
  refine ⟨prev_next, next_prev, next_bijective, ?_, fun n => ⟨zero_output n, zero_after n⟩⟩
  intro hash hhash n h
  exact hhash (new_eq_zero_iff.mp (after_eq_zero_iff.mp h))

end XoShiRo256PlusPlus

end Pow
end KaspaMiner
