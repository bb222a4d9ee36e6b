import KaspaMiner.Lib.Elimination
import KaspaMiner.Proof.Columns

/-!
# What `compute_rank` computes

Here the `f64` operations are exact: `F64 ℚ`. What is left of the difference between `compute_rank`
and the rank is `EPS`. An entry of at most `EPS` is passed over as if it were zero, and the rank
that comes out is that of the matrix where it is: `computeRank_backward` says so for every matrix,
with the entries passed over collected in `residue`. A selected row is never looked at again in a
way that matters, so only the entries in rows not yet selected are in it.
-/

namespace KaspaMiner

/-- `f64` without its rounding. -/
instance : F64 ℚ where
  ofU16 x := (x.toNat : ℚ)
  abs x := |x|
  gt x y := decide (y < x)

abbrev RatMatrix := Matrix (Fin 64) (Fin 64) ℚ

namespace Pow
namespace Matrix

open Lib.Elimination (Accounts leftBehind accounts_init)

/-- `EPS`. -/
def EPS : ℚ := 1 / 10 ^ 9

theorem aboveEps_iff (x : ℚ) : aboveEps x = true ↔ EPS < |x| := by
  show decide ((1e-9 : ℚ) < |x|) = true ↔ EPS < |x|
  rw [decide_eq_true_iff, EPS]
  norm_num

theorem aboveEps_false_iff (x : ℚ) : aboveEps x = false ↔ |x| ≤ EPS := by
  rw [← Bool.not_eq_true, aboveEps_iff, not_lt]

theorem ne_zero_of_aboveEps {x : ℚ} (h : aboveEps x = true) : x ≠ 0 := by
  rintro rfl
  rw [aboveEps_iff, abs_zero, EPS] at h
  exact absurd h (by norm_num)

/-! ## The entries passed over -/

def toRat (self : Matrix) : RatMatrix := fun k p => (((self.rows.get k).get p).toNat : ℚ)

/-- The run without rounding. -/
abbrev exactRun (self : Matrix) (i : ℕ) : RankState ℚ := self.rankRun i

theorem exactRun_succ (self : Matrix) {i : ℕ} (hi : i < 64) :
    self.exactRun (i + 1) = rankStep (self.exactRun i) ⟨i, hi⟩ := self.rankRun_succ ⟨i, hi⟩

theorem computeRank_eq_exactRun (self : Matrix) :
    self.computeRank ℚ = (self.exactRun 64).rank := self.computeRank_eq_rankRun

/-- The entry of row `k` at column `i`, when column `i` comes. -/
def entryAt (self : Matrix) (k i : Fin 64) : ℚ := (self.exactRun i).entry k i

/-- What is passed over there: an entry of at most `EPS`, in a row not selected yet. -/
def residue (self : Matrix) : RatMatrix := fun k i =>
  if (self.exactRun i).selected k = false ∧ |self.entryAt k i| ≤ EPS then self.entryAt k i else 0

theorem abs_residue_le (self : Matrix) (k i : Fin 64) : |self.residue k i| ≤ EPS := by
  unfold residue
  split
  · rename_i h
    exact h.2
  · rw [abs_zero, EPS]
    positivity

def array (st : RankState ℚ) : RatMatrix := fun k p => st.entry k p

/-- The residues of the columns before `i`. -/
def residueBefore (self : Matrix) (i : ℕ) : RatMatrix := fun k p =>
  if p.val < i then self.residue k p else 0

theorem residueBefore_succ (self : Matrix) (i : Fin 64) :
    self.residueBefore (i + 1) = self.residueBefore i +
      leftBehind (self.exactRun i).selected
        (fun k => !aboveEps ((self.exactRun i).entry k i)) i (array (self.exactRun i)) := by
  funext k p
  show self.residueBefore (i + 1) k p = self.residueBefore i k p + leftBehind _ _ i _ k p
  unfold residueBefore leftBehind
  rcases lt_trichotomy p i with hp | rfl | hp
  · have hlt : p.val < i.val := hp
    rw [if_pos (by omega), if_pos hlt, if_neg (fun h => hp.ne h.1), add_zero]
  · rw [if_pos (Nat.lt_succ_self _), if_neg (lt_irrefl _), zero_add]
    simp only [residue, entryAt, array, Bool.not_eq_true', true_and, aboveEps_false_iff]
    rfl
  · have hlt : i.val < p.val := hp
    rw [if_neg (by omega), if_neg (by omega), if_neg (fun h => hp.ne' h.1), add_zero]

/-- **One column** of `compute_rank`. -/
theorem accounts_step {self : Matrix} {i : Fin 64}
    (h : Accounts (self.toRat - self.residueBefore i) (self.exactRun i).selected i
      (array (self.exactRun i)) (self.exactRun i).rank) :
    Accounts (self.toRat - self.residueBefore (i + 1)) (self.exactRun (i + 1)).selected (i + 1)
      (array (self.exactRun (i + 1))) (self.exactRun (i + 1)).rank := by
  rw [residueBefore_succ, ← sub_sub, self.exactRun_succ i.isLt]
  cases hpivot : findPivot (self.exactRun i) i with
  | none =>
    rw [rankStep_none hpivot]
    exact h.skip fun k hk => by rw [findPivot_eq_none_iff.mp hpivot k hk, Bool.not_false]
  | some j =>
    obtain ⟨hj, hjabove⟩ := findPivot_some hpivot
    have hne : array (self.exactRun i) j i ≠ 0 := ne_zero_of_aboveEps hjabove
    rw [rankStep_rank hpivot]
    refine h.pivot hj (by rw [hjabove, Bool.not_true]) hne (rankStep_selected hpivot) ?_
    intro k p hk _ hp
    show (rankStep (self.exactRun i) i).entry k p = _
    rw [rankStep_entry hpivot hk hp]
    cases aboveEps ((self.exactRun i).entry k i) with
    | true => rfl
    | false => rfl

theorem entry_zero (self : Matrix) (k p : Fin 64) :
    (self.exactRun 0).entry k p = self.toRat k p := rankInit_entry self k p

theorem accounts_run (self : Matrix) (i : ℕ) (hi : i ≤ 64) :
    Accounts (self.toRat - self.residueBefore i) (self.exactRun i).selected i
      (array (self.exactRun i)) (self.exactRun i).rank := by
  induction i with
  | zero =>
    have hresidue : self.residueBefore 0 = 0 := by
      funext k p
      exact if_neg (Nat.not_lt_zero _)
    have hselected : (self.exactRun 0).selected = fun _ => false := by
      funext k
      exact get_replicate 64 false k
    have harray : array (self.exactRun 0) = self.toRat := by
      funext k p
      exact self.entry_zero k p
    rw [hresidue, sub_zero, hselected, harray]
    exact accounts_init _
  | succ i ih => exact accounts_step (i := ⟨i, hi⟩) (ih (by omega))

/-- **`compute_rank` is exact on a matrix near its argument**: the one without the residues. -/
theorem computeRank_backward (self : Matrix) :
    self.computeRank ℚ = (self.toRat - self.residue).rank := by
  have hresidue : self.residueBefore 64 = self.residue := by
    funext k p
    exact if_pos p.isLt
  rw [computeRank_eq_exactRun, ← hresidue, (self.accounts_run 64 le_rfl).rank_eq]

/-! ## Where nothing is passed over -/

/-- Row `k` is tested in the search for a pivot of column `i`. -/
def Searched (self : Matrix) (k i : Fin 64) : Prop :=
  (self.exactRun i).selected k = false ∧ ∀ j < k, (self.exactRun i).selected j = false →
    aboveEps (self.entryAt j i) = false

/-- Row `k` is tested in the elimination of column `i`. -/
def Eliminated (self : Matrix) (k i : Fin 64) : Prop :=
  ∃ j, findPivot (self.exactRun i) i = some j ∧ k ≠ j

/-- What is passed over was tested: in the search when it found no pivot, in the elimination when it
did. -/
theorem residue_eq_zero {self : Matrix} {k i : Fin 64}
    (h : self.Searched k i ∨ self.Eliminated k i →
      self.entryAt k i = 0 ∨ EPS < |self.entryAt k i|) : self.residue k i = 0 := by
  unfold residue
  split
  · rename_i hk
    obtain ⟨hselected, habove⟩ := hk
    have htested : self.Searched k i ∨ self.Eliminated k i := by
      cases hpivot : findPivot (self.exactRun i) i with
      | none => exact .inl ⟨hselected, fun j _ hj => findPivot_eq_none_iff.mp hpivot j hj⟩
      | some j =>
        refine .inr ⟨j, hpivot, ?_⟩
        rintro rfl
        exact absurd ((aboveEps_iff _).mp (findPivot_some hpivot).2) (not_lt.mpr habove)
    exact (h htested).resolve_right (not_lt.mpr habove)
  · rfl

/-- **`compute_rank` is the rank** when every entry it compares against `EPS` is zero or above. And
then, as always, no pivot it divides by is zero. -/
theorem computeRank_eq_rank (self : Matrix)
    (h : ∀ k i, self.Searched k i ∨ self.Eliminated k i →
      self.entryAt k i = 0 ∨ EPS < |self.entryAt k i|) :
    self.computeRank ℚ = self.toRat.rank ∧
      ∀ i j : Fin 64, findPivot (self.exactRun i) i = some j → self.entryAt j i ≠ 0 := by
  have hresidue : self.residue = 0 := by
    funext k i
    exact residue_eq_zero (h k i)
  refine ⟨?_, fun i j hj => ne_zero_of_aboveEps (findPivot_some hj).2⟩
  rw [computeRank_backward, hresidue, sub_zero]

theorem aboveEps_one : aboveEps (1 : ℚ) = true := by
  rw [aboveEps_iff, EPS]
  norm_num

theorem aboveEps_zero : aboveEps (0 : ℚ) = false := by
  rw [aboveEps_false_iff, EPS]
  norm_num

theorem aboveEps_natCast {n : ℕ} (h : 0 < n) : aboveEps (n : ℚ) = true := by
  have hone : (1 : ℚ) ≤ n := by exact_mod_cast h
  rw [aboveEps_iff, EPS, abs_of_nonneg (by positivity)]
  linarith

/-- The multiplication table. Its first column eliminates all rows but the first one, and there is
no pivot for the others. -/
def table : Matrix :=
  ⟨Vector.ofFn fun k => Vector.ofFn fun p => UInt16.ofNat ((k + 1) * (p + 1))⟩

theorem table_toRat (k p : Fin 64) : table.toRat k p = (k.val + 1 : ℕ) * (p.val + 1 : ℕ) := by
  have hbound : (k.val + 1) * (p.val + 1) ≤ 64 * 64 := Nat.mul_le_mul k.isLt p.isLt
  rw [toRat, table, get_ofFn, get_ofFn, UInt16.toNat_ofNat', Nat.mod_eq_of_lt (by omega)]
  exact Nat.cast_mul _ _

theorem table_pivot : findPivot (table.exactRun 0) 0 = some 0 := by
  refine findPivot_eq_some_iff.mpr ⟨⟨get_replicate 64 false 0, ?_⟩, fun k hk => absurd hk (by simp)⟩
  rw [entry_zero, table_toRat]
  exact_mod_cast aboveEps_natCast (n := 1) Nat.one_pos

/-- After the first column. -/
theorem table_run {i : ℕ} (hpos : 1 ≤ i) (hi : i ≤ 64) :
    (table.exactRun i).rank = 1 ∧ (∀ k, (table.exactRun i).selected k = true ↔ k = 0) ∧
      ∀ k p : Fin 64, (table.exactRun i).entry k p =
        if p = 0 then (k.val + 1 : ℕ) else if k = 0 then (p.val + 1 : ℕ) else 0 := by
  induction i, hpos using Nat.le_induction with
  | base =>
    have hstep : table.exactRun 1 = rankStep (table.exactRun 0) 0 := table.exactRun_succ (by omega)
    rw [hstep]
    refine ⟨rankStep_rank table_pivot, fun k => ?_, fun k p => ?_⟩
    · have hnone : (table.exactRun 0).selected k = false := get_replicate 64 false k
      rw [rankStep_selected table_pivot, hnone]
      simp
    · have hzero : ((0 : Fin 64).val + 1 : ℕ) = 1 := rfl
      by_cases hp : p = 0
      · rw [if_pos hp, rankStep_entry_left table_pivot hp.le, entry_zero, table_toRat, hp, hzero,
          Nat.cast_one, mul_one]
      have hlt : 0 < p := Fin.pos_of_ne_zero hp
      rw [if_neg hp]
      by_cases hk : k = 0
      · rw [if_pos hk, hk, rankStep_entry_pivot table_pivot hlt, entry_zero, entry_zero,
          table_toRat, table_toRat, hzero, Nat.cast_one, one_mul, one_mul, div_one]
      · have habove : aboveEps ((table.exactRun 0).entry k 0) = true := by
          rw [entry_zero, table_toRat, hzero, Nat.cast_one, mul_one]
          exact aboveEps_natCast (Nat.succ_pos _)
        rw [if_neg hk, rankStep_entry table_pivot hk hlt, if_pos habove, entry_zero, entry_zero,
          entry_zero, entry_zero, table_toRat, table_toRat, table_toRat, table_toRat, hzero]
        push_cast
        ring
  -- All rows but the first are zero by now, and the first has been selected.
  | succ i hpos ih =>
    obtain ⟨hrank, hselected, hentry⟩ := ih (by omega)
    have hnone : findPivot (table.exactRun i) ⟨i, hi⟩ = none := by
      refine findPivot_eq_none_iff.mpr fun k hk => ?_
      have hk0 : k ≠ 0 := fun h => absurd ((hselected k).mpr h) (by simp [hk])
      have hi0 : (⟨i, hi⟩ : Fin 64) ≠ 0 := by simp [Fin.ext_iff]; omega
      rw [hentry, if_neg hi0, if_neg hk0, Nat.cast_zero, aboveEps_zero]
    rw [table.exactRun_succ hi, rankStep_none hnone]
    exact ⟨hrank, hselected, hentry⟩

theorem computeRank_eq_rank_table :
    table.computeRank ℚ = table.toRat.rank ∧ table.computeRank ℚ = 1 := by
  refine ⟨(computeRank_eq_rank table fun k i _ => ?_).1, ?_⟩
  · -- whatever is compared is a natural number
    have hnat : ∃ n : ℕ, table.entryAt k i = n := by
      by_cases hi : i = 0
      · refine ⟨(k.val + 1) * (i.val + 1), ?_⟩
        rw [entryAt, hi]
        exact (table.entry_zero k 0).trans ((table_toRat k 0).trans (Nat.cast_mul _ _).symm)
      · exact ⟨_, (table_run (Nat.pos_of_ne_zero (Fin.val_ne_zero_iff.mpr hi)) i.isLt.le).2.2 k i⟩
    obtain ⟨n, hn⟩ := hnat
    rw [hn]
    rcases Nat.eq_zero_or_pos n with rfl | hpos
    · exact .inl Nat.cast_zero
    · exact .inr ((aboveEps_iff _).mp (aboveEps_natCast hpos))
  · rw [computeRank_eq_exactRun]
    exact (table_run (by omega) le_rfl).1

end Matrix
end Pow
end KaspaMiner
