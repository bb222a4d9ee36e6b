import KaspaMiner.Lib.Loop
import KaspaMiner.Pow.HeavyHash

/-!
# `compute_rank`, column by column

What one iteration of the outer loop of `compute_rank` finds and does, whatever the arithmetic is:
which row is the pivot (`findPivot_eq_some_iff`), and every field of the state after the column.
-/

namespace KaspaMiner
namespace Pow
namespace Matrix

variable {F : Type} [F64 F]

namespace RankState

def entry (st : RankState F) (k p : Fin 64) : F := (st.matFloat.get k).get p

def selected (st : RankState F) (k : Fin 64) : Bool := st.rowSelected.get k

end RankState

theorem rankInit_entry (self : Matrix) (k p : Fin 64) :
    (self.rankInit (F := F)).entry k p = F64.ofU16 ((self.rows.get k).get p) := by
  show ((self.rows.map fun row => row.map (F64.ofU16 (F := F)))[k.val])[p.val] = _
  rw [Vector.getElem_map, Vector.getElem_map]
  rfl

/-! ## The pivot -/

theorem findPivot_eq_some_iff {st : RankState F} {i j : Fin 64} :
    findPivot st i = some j ↔ (st.selected j = false ∧ aboveEps (st.entry j i) = true) ∧
      ∀ k < j, st.selected k = false → aboveEps (st.entry k i) = false := by
  unfold findPivot
  rw [Lib.find?_finRange]
  show ((!st.selected j && aboveEps (st.entry j i)) = true ∧
    ∀ k < j, (!st.selected k && aboveEps (st.entry k i)) = false) ↔ _
  simp only [Bool.and_eq_true, Bool.and_eq_false_iff, Bool.not_eq_eq_eq_not, Bool.not_false,
    Bool.not_true, or_iff_not_imp_left, Bool.not_eq_true]

theorem findPivot_some {st : RankState F} {i j : Fin 64} (h : findPivot st i = some j) :
    st.selected j = false ∧ aboveEps (st.entry j i) = true := (findPivot_eq_some_iff.mp h).1

theorem findPivot_eq_none_iff {st : RankState F} {i : Fin 64} :
    findPivot st i = none ↔ ∀ k, st.selected k = false → aboveEps (st.entry k i) = false := by
  unfold findPivot
  rw [List.find?_eq_none]
  show (∀ k ∈ List.finRange 64, ¬ (!st.selected k && aboveEps (st.entry k i)) = true) ↔ _
  simp only [List.mem_finRange, true_imp_iff, Bool.not_eq_true, Bool.and_eq_false_iff,
    Bool.not_eq_false', or_iff_not_imp_left]

/-! ## The state after a column -/

theorem rankStep_none {st : RankState F} {i : Fin 64} (h : findPivot st i = none) :
    rankStep st i = st := by
  unfold rankStep
  rw [h]

theorem rankStep_rank {st : RankState F} {i j : Fin 64} (h : findPivot st i = some j) :
    (rankStep st i).rank = st.rank + 1 := by
  unfold rankStep
  rw [h]

theorem rankStep_selected {st : RankState F} {i j : Fin 64} (h : findPivot st i = some j)
    (k : Fin 64) : (rankStep st i).selected k = true ↔ k = j ∨ st.selected k = true := by
  unfold rankStep
  rw [h]
  show (st.rowSelected.set j true)[k.val] = true ↔ k = j ∨ st.rowSelected[k.val] = true
  rw [Vector.getElem_set]
  by_cases hk : j.val = k.val
  · simp [hk, Fin.ext_iff]
  · simp [hk, Fin.ext_iff, Ne.symm hk]

/-- Columns up to the pivot's go stale. -/
theorem rankStep_entry_left {st : RankState F} {i j : Fin 64} (h : findPivot st i = some j)
    {p : Fin 64} (hp : p ≤ i) (k : Fin 64) : (rankStep st i).entry k p = st.entry k p := by
  have hip : ¬ i < p := not_lt.mpr hp
  unfold rankStep
  rw [h]
  unfold RankState.entry
  simp only [get_ofFn]
  split
  · rename_i hk
    rw [get_ofFn, if_neg hip, hk]
    rfl
  · split
    · rw [get_ofFn, if_neg hip]
      rfl
    · rfl

theorem rankStep_entry_pivot {st : RankState F} {i j : Fin 64} (h : findPivot st i = some j)
    {p : Fin 64} (hp : i < p) : (rankStep st i).entry j p = st.entry j p / st.entry j i := by
  unfold rankStep
  rw [h]
  unfold RankState.entry
  simp only [get_ofFn, if_true, if_pos hp]
  rfl

/-- A row that is not the pivot, right of the pivot's column. -/
theorem rankStep_entry {st : RankState F} {i j : Fin 64} (h : findPivot st i = some j)
    {k p : Fin 64} (hk : k ≠ j) (hp : i < p) :
    (rankStep st i).entry k p =
      if aboveEps (st.entry k i) = true
      then st.entry k p - st.entry j p / st.entry j i * st.entry k i else st.entry k p := by
  unfold rankStep
  rw [h]
  unfold RankState.entry
  simp only [get_ofFn, if_neg hk]
  by_cases ha : aboveEps ((st.matFloat.get k).get i) = true
  · rw [if_pos ha, if_pos (show aboveEps (st.matFloat[k][i]) = true from ha)]
    simp only [get_ofFn, if_pos hp]
    simp only [Fin.getElem_fin, Vector.getElem_ofFn, Fin.eta, if_pos hp]
    rfl
  · rw [if_neg ha, if_neg (show ¬ aboveEps (st.matFloat[k][i]) = true from ha)]
    rfl

/-! ## The run -/

/-- The locals before column `i`. -/
def rankRun (self : Matrix) (i : ℕ) : RankState F :=
  ((List.finRange 64).take i).foldl rankStep self.rankInit

theorem rankRun_succ (self : Matrix) (i : Fin 64) :
    self.rankRun (F := F) (i + 1) = rankStep (self.rankRun i) i := by
  unfold rankRun
  rw [Lib.take_finRange_succ, List.foldl_append]
  rfl

theorem computeRank_eq_rankRun (self : Matrix) :
    self.computeRank F = (self.rankRun (F := F) 64).rank := by
  rw [computeRank_eq, rankRun, List.take_of_length_le (by simp)]

end Matrix
end Pow
end KaspaMiner
