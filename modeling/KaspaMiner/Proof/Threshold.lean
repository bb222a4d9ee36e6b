import Mathlib.LinearAlgebra.Matrix.ToLinearEquiv
import KaspaMiner.Proof.Rank

/-!
# What the threshold costs

`generate` accepts a matrix when `compute_rank` answers 64. By `computeRank_backward` that is when
the matrix without its residues is non-singular, and the residues are at most `EPS` each. Nibbles
are enough for that to be the wrong answer about the matrix itself, and in both directions: in
`chain 0` the last pivot is lost with an entry that the elimination left behind, in `chain 1` the
same entry leaves a pivot standing that should have been zero.
-/

namespace KaspaMiner
namespace Pow
namespace Matrix

/-- All entries are nibbles, as in every candidate of `generate`. -/
def IsNibbles (self : Matrix) : Prop := ∀ k p : Fin 64, (self.rows.get k).get p ≤ 15

/-! ## The chain -/

def chainDiag (k : ℕ) : UInt16 := if k < 8 then 15 else 1

def chainNext (k : ℕ) : UInt16 := if k < 8 then 1 else if k < 16 then 15 else 1

def chainEntry (corner : UInt16) (k p : ℕ) : UInt16 :=
  if k = 63 then if p = 0 then 1 else if p = 63 then corner else 0
  else if p = k then chainDiag k else if p = k + 1 then chainNext k else 0

/-- Every row but the last hands the last one on to the next column, eight times divided by 15, then
eight times multiplied by it, and from there as it is. -/
def chain (corner : UInt16) : Matrix :=
  ⟨Vector.ofFn fun k => Vector.ofFn fun p => chainEntry corner k p⟩

theorem chain_toRat (corner : UInt16) (k p : Fin 64) :
    (chain corner).toRat k p = ((chainEntry corner k p).toNat : ℚ) := by
  unfold toRat chain
  rw [get_ofFn, get_ofFn]

theorem chain_isNibbles {corner : UInt16} (h : corner ≤ 15) : (chain corner).IsNibbles := by
  intro k p
  unfold chain
  rw [get_ofFn, get_ofFn, chainEntry]
  unfold chainDiag chainNext
  split_ifs <;> first | exact h | decide

/-! ## The run on the chain -/

/-- What is left of the last row at column `i`, when column `i` comes. -/
def carried (i : ℕ) : ℚ := if i < 9 then (-1 / 15) ^ i else 0

theorem carried_above {i : ℕ} (h : i < 8) : aboveEps (carried i) = true := by
  have hbase : |(-1 / 15 : ℚ)| = 1 / 15 := by
    rw [abs_of_neg (by norm_num)]
    norm_num
  rw [aboveEps_iff, carried, if_pos (by omega), abs_pow, hbase, EPS]
  interval_cases i <;> norm_num

theorem carried_succ {i : ℕ} (h : i < 8) : carried (i + 1) = -(1 / 15 * carried i) := by
  rw [carried, carried, if_pos (by omega), if_pos (by omega), pow_succ]
  ring

/-- The eighth power of 15 is past the threshold, and so the ninth is never computed. -/
theorem carried_small {i : ℕ} (h : 8 ≤ i) : aboveEps (carried i) = false := by
  rw [aboveEps_false_iff, carried, EPS]
  split
  · obtain rfl : i = 8 := by omega
    norm_num
  · norm_num

theorem carried_end {i : ℕ} (h : 8 ≤ i) : carried (i + 1) = 0 := if_neg (by omega)

/-- The state before column `i` of the run on `chain corner`. -/
structure Chained (corner : UInt16) (i : ℕ) (st : RankState ℚ) : Prop where
  rank : st.rank = i
  selected : ∀ k, st.selected k = decide (k.val < i)
  rows : ∀ k p : Fin 64, i ≤ k.val → k.val < 63 → i ≤ p.val →
    st.entry k p = ((chainEntry corner k p).toNat : ℚ)
  last : ∀ p : Fin 64, i ≤ p.val → st.entry 63 p =
    (if p.val = i then carried i else 0) + if p.val = 63 then (corner.toNat : ℚ) else 0

theorem chained_init (corner : UInt16) : Chained corner 0 ((chain corner).exactRun 0) where
  rank := rfl
  selected k := get_replicate 64 false k
  rows k p _ _ _ := by rw [entry_zero, chain_toRat]
  last p _ := by
    rw [entry_zero, chain_toRat, chainEntry, carried]
    by_cases h0 : p.val = 0
    · simp [h0]
    by_cases h63 : p.val = 63
    · simp [h63]
    · simp [h0, h63]

theorem chainEntry_diag {corner : UInt16} {k : ℕ} (h : k < 63) :
    chainEntry corner k k = chainDiag k := by
  rw [chainEntry, if_neg (by omega), if_pos rfl]

theorem chainEntry_next {corner : UInt16} {k : ℕ} (h : k < 63) :
    chainEntry corner k (k + 1) = chainNext k := by
  rw [chainEntry, if_neg (by omega), if_neg (by omega), if_pos rfl]

theorem chainEntry_zero {corner : UInt16} {k p : ℕ} (h : k < 63) (hk : p ≠ k) (hnext : p ≠ k + 1) :
    chainEntry corner k p = 0 := by
  rw [chainEntry, if_neg (by omega), if_neg hk, if_neg hnext]

theorem chainDiag_toNat (k : ℕ) : (chainDiag k).toNat = if k < 8 then 15 else 1 := by
  unfold chainDiag
  split <;> rfl

theorem chainNext_toNat (k : ℕ) :
    (chainNext k).toNat = if k < 8 then 1 else if k < 16 then 15 else 1 := by
  unfold chainNext
  split_ifs <;> rfl

theorem chainDiag_above (k : ℕ) : aboveEps ((chainDiag k).toNat : ℚ) = true := by
  rw [aboveEps_iff, chainDiag_toNat, EPS]
  split <;> norm_num

theorem Chained.pivot {corner : UInt16} {st : RankState ℚ} {i : Fin 64} (h : Chained corner i st)
    (hi : i.val < 63) : findPivot st i = some i := by
  refine findPivot_eq_some_iff.mpr ⟨⟨?_, ?_⟩, ?_⟩
  · simp [h.selected]
  · rw [h.rows i i le_rfl hi le_rfl, chainEntry_diag hi, chainDiag_above]
  · intro k hk hselected
    rw [h.selected] at hselected
    exact absurd hk (of_decide_eq_false hselected)

theorem Chained.step {corner : UInt16} {st : RankState ℚ} {i : Fin 64} (h : Chained corner i st)
    (hi : i.val < 63) : Chained corner (i + 1) (rankStep st i) where
  rank := by rw [rankStep_rank (h.pivot hi), h.rank]
  selected k := by
    rw [Bool.eq_iff_iff, rankStep_selected (h.pivot hi), h.selected, decide_eq_true_iff,
      decide_eq_true_iff, Fin.ext_iff]
    omega
  rows k p hk hk63 hp := by
    have hki : k ≠ i := by omega
    have hzero : chainEntry corner k i = 0 := chainEntry_zero hk63 (by omega) (by omega)
    have hbelow : aboveEps (st.entry k i) = false := by
      rw [h.rows k i (by omega) hk63 le_rfl, hzero]
      exact aboveEps_zero
    rw [rankStep_entry (h.pivot hi) hki (by omega), hbelow]
    exact h.rows k p (by omega) hk63 (by omega)
  last p hp := by
    have hlast : (63 : Fin 64) ≠ i := by omega
    have hip : p.val ≠ i.val := by omega
    have hcarried : st.entry 63 i = carried i := by
      rw [h.last i le_rfl, if_pos rfl, if_neg hi.ne, add_zero]
    rw [rankStep_entry (h.pivot hi) hlast (by omega), hcarried, h.last p (by omega), if_neg hip,
      zero_add, h.rows i p le_rfl hi (by omega), h.rows i i le_rfl hi le_rfl, chainEntry_diag hi]
    -- Up to the eighth column what is carried is above the threshold and goes on to the next; from
    -- there on it is below, and is left behind.
    rcases lt_or_ge i.val 8 with h8 | h8
    · rw [if_pos (carried_above h8), chainDiag_toNat, if_pos h8]
      by_cases hnext : p.val = i.val + 1
      · have h63 : p.val ≠ 63 := by omega
        rw [if_neg h63, if_pos hnext, hnext, chainEntry_next hi, chainNext_toNat, if_pos h8,
          carried_succ h8]
        norm_num
      · rw [if_neg hnext, chainEntry_zero hi hip hnext]
        simp
    · rw [if_neg (by simp [carried_small h8]), carried_end h8, ite_self, zero_add]

theorem chained_run (corner : UInt16) (i : ℕ) (hi : i ≤ 63) :
    Chained corner i ((chain corner).exactRun i) := by
  induction i with
  | zero => exact chained_init corner
  | succ i ih =>
    rw [exactRun_succ _ (Nat.lt_succ_of_le (Nat.le_of_succ_le hi))]
    exact (ih (by omega)).step (i := ⟨i, by omega⟩) hi

theorem chain_end (corner : UInt16) : ((chain corner).exactRun 63).entry 63 63 = corner.toNat := by
  rw [(chained_run corner 63 le_rfl).last 63 le_rfl]
  simp [carried]

/-- The corner decides the last column. -/
theorem computeRank_chain_zero : (chain 0).computeRank ℚ = 63 := by
  have h := chained_run 0 63 le_rfl
  have hpivot : findPivot ((chain 0).exactRun 63) 63 = none := by
    refine findPivot_eq_none_iff.mpr fun k hselected => ?_
    rw [h.selected, decide_eq_false_iff_not] at hselected
    obtain rfl : k = 63 := by omega
    rw [chain_end]
    exact aboveEps_zero
  rw [computeRank_eq_exactRun, exactRun_succ _ (by decide : 63 < 64)]
  exact (congrArg RankState.rank (rankStep_none hpivot)).trans h.rank

theorem computeRank_chain_one : (chain 1).computeRank ℚ = 64 := by
  have h := chained_run 1 63 le_rfl
  have hpivot : findPivot ((chain 1).exactRun 63) 63 = some 63 := by
    refine findPivot_eq_some_iff.mpr ⟨⟨?_, ?_⟩, ?_⟩
    · simp [h.selected]
    · rw [chain_end]
      exact aboveEps_one
    · intro k hk hselected
      rw [h.selected] at hselected
      exact absurd hk (of_decide_eq_false hselected)
  rw [computeRank_eq_exactRun, exactRun_succ _ (by decide : 63 < 64)]
  exact (rankStep_rank hpivot).trans (congrArg (· + 1) h.rank)

/-! ## The chain itself -/

theorem chain_mulVec (corner : UInt16) (v : Fin 64 → ℚ) {k : ℕ} (hk : k < 63) :
    (chain corner).toRat.mulVec v ⟨k, by omega⟩ =
      (chainDiag k).toNat * v ⟨k, by omega⟩ + (chainNext k).toNat * v ⟨k + 1, by omega⟩ := by
  have hsum := Finset.sum_eq_add (f := fun p => (chain corner).toRat ⟨k, by omega⟩ p * v p)
    (s := Finset.univ) ⟨k, by omega⟩ ⟨k + 1, by omega⟩ (by simp) (fun p _ hp => by
      rw [chain_toRat, chainEntry_zero hk (fun h => hp.1 (Fin.ext h)) fun h => hp.2 (Fin.ext h)]
      simp) (by simp) (by simp)
  refine hsum.trans ?_
  simp only [chain_toRat, chainEntry_diag hk, chainEntry_next hk]

theorem chain_mulVec_last (corner : UInt16) (v : Fin 64 → ℚ) :
    (chain corner).toRat.mulVec v 63 = v 0 + corner.toNat * v 63 := by
  have hsum := Finset.sum_eq_add (f := fun p => (chain corner).toRat 63 p * v p)
    (s := Finset.univ) 0 63 (by decide) (fun p _ hp => by
      have h0 : p.val ≠ 0 := fun h => hp.1 (Fin.ext h)
      have h63 : p.val ≠ 63 := fun h => hp.2 (Fin.ext h)
      simp [chain_toRat, chainEntry, h0, h63]) (by simp) (by simp)
  refine hsum.trans ?_
  simp [chain_toRat, chainEntry]

theorem chain_zero_det : (chain 0).toRat.det ≠ 0 := by
  intro hdet
  obtain ⟨v, hv, hzero⟩ := Matrix.exists_mulVec_eq_zero_iff.mpr hdet
  -- the last row starts the vector at zero, and the chain carries it on
  have hall : ∀ k (hk : k < 64), v ⟨k, hk⟩ = 0 := by
    intro k hk
    induction k with
    | zero =>
      have hrow := (chain_mulVec_last 0 v).symm.trans (congrFun hzero 63)
      simpa using hrow
    | succ k ih =>
      have hrow := (chain_mulVec 0 v (k := k) (by omega)).symm.trans (congrFun hzero ⟨k, by omega⟩)
      have hnext : ((chainNext k).toNat : ℚ) ≠ 0 := by
        rw [chainNext_toNat]
        split_ifs <;> norm_num
      rw [ih (by omega), mul_zero, zero_add, Pi.zero_apply] at hrow
      exact (mul_eq_zero.mp hrow).resolve_left hnext
  exact hv (funext fun k => hall k k.isLt)

/-- What `chain 1` sends to zero. -/
def chainKernel (k : ℕ) : ℚ :=
  (-1) ^ k * 15 ^ (if k < 8 then k else if k < 16 then 16 - k else 0)

theorem chainKernel_succ (k : ℕ) :
    ((chainDiag k).toNat : ℚ) * chainKernel k + (chainNext k).toNat * chainKernel (k + 1) = 0 := by
  rw [chainDiag_toNat, chainNext_toNat, chainKernel, chainKernel, pow_succ (-1 : ℚ) k]
  rcases lt_trichotomy k 7 with h | rfl | h
  · have h8 : k < 8 := by omega
    have h8' : k + 1 < 8 := by omega
    simp only [h8, h8', if_true, pow_succ]
    push_cast
    ring
  · norm_num
  have h8 : ¬ k < 8 := by omega
  have h8' : ¬ k + 1 < 8 := by omega
  simp only [h8, h8', if_false]
  rcases lt_trichotomy k 15 with h | rfl | h
  · have h16 : k < 16 := by omega
    have h16' : k + 1 < 16 := by omega
    simp only [h16, h16', if_true, show 16 - k = 16 - (k + 1) + 1 by omega, pow_succ]
    push_cast
    ring
  · norm_num
  · have h16 : ¬ k < 16 := by omega
    have h16' : ¬ k + 1 < 16 := by omega
    simp only [h16, h16', if_false]
    push_cast
    ring

theorem chain_one_det : (chain 1).toRat.det = 0 := by
  refine Matrix.exists_mulVec_eq_zero_iff.mp ⟨fun k => chainKernel k, ?_, funext fun k => ?_⟩
  · intro h
    exact absurd (congrFun h 0) (by simp [chainKernel])
  · rcases Nat.lt_or_ge k.val 63 with hk | hk
    · exact (chain_mulVec 1 _ hk).trans (chainKernel_succ k.val)
    · obtain rfl : k = 63 := by omega
      have hone : ((UInt16.toNat 1 : ℕ) : ℚ) = 1 := rfl
      rw [chain_mulVec_last, hone]
      norm_num [chainKernel]

/-! ## The test of `generate` -/

/-- **What `generate` accepts**: the matrices that are non-singular once their residues are taken
off. The residues are within the threshold; and where every entry that is compared with `EPS` is
zero or above it, the test is exact. -/
theorem computeRank_full_iff (self : Matrix) :
    (self.computeRank ℚ = 64 ↔ (self.toRat - self.residue).det ≠ 0) ∧
      (∀ k i, |self.residue k i| ≤ EPS) ∧
      ((∀ k i, self.Searched k i ∨ self.Eliminated k i →
        self.entryAt k i = 0 ∨ EPS < |self.entryAt k i|) →
          (self.computeRank ℚ = 64 ↔ self.toRat.det ≠ 0)) := by
  refine ⟨?_, self.abs_residue_le, fun h => ?_⟩
  · rw [computeRank_backward]
    exact Lib.Elimination.rank_eq_iff_det_ne_zero _
  · have hresidue : self.residue = 0 := by
      funext k i
      exact residue_eq_zero (h k i)
    rw [computeRank_backward, hresidue, sub_zero]
    exact Lib.Elimination.rank_eq_iff_det_ne_zero _

/-- It is not exact on nibbles, neither in what it refuses nor in what it accepts. -/
theorem computeRank_full_inexact :
    ((chain 0).IsNibbles ∧ (chain 0).toRat.det ≠ 0 ∧ (chain 0).computeRank ℚ = 63) ∧
      (chain 1).IsNibbles ∧ (chain 1).toRat.det = 0 ∧ (chain 1).computeRank ℚ = 64 :=
  ⟨⟨chain_isNibbles (by decide), chain_zero_det, computeRank_chain_zero⟩,
    chain_isNibbles (by decide), chain_one_det, computeRank_chain_one⟩

end Matrix
end Pow
end KaspaMiner
