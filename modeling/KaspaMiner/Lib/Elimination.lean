import Mathlib.LinearAlgebra.Matrix.Rank
import Mathlib.LinearAlgebra.Matrix.NonsingularInverse
import Mathlib.LinearAlgebra.FiniteDimensional.Lemmas

/-!
# Elimination that leaves small entries behind

Gaussian elimination, column by column, on an array whose rows stay where they are: a row is marked
when it is chosen as a pivot, and after that nobody looks at it any more. A column whose entries in
the unmarked rows are all called zero is skipped, and in a column with a pivot the rows called zero
there are left alone.

Calling an entry zero that is not is the same as eliminating another matrix, the one with the entry
taken off. So what the invariant counts is the rank of that matrix: `Accounts A marked i a r` says
that `A` has rank `r` more than what is left of the array, and that it still does after a change to
what is left. With the change free, a column is two lines: `Accounts.column` takes the entries
called zero off `A`, whatever they are. `Accounts.rank_eq` reads the rank off at the end.
-/

namespace KaspaMiner
namespace Lib
namespace Elimination

variable {K m : Type*} [Field K]

/-! ## One pivot -/

section
variable {n : Type*} [DecidableEq m]

/-- Row `j` taken off the others until column `i` is zero, and then dropped. -/
def eliminate (M : Matrix m n K) (j : m) (i : n) : Matrix m n K :=
  fun k p => if k = j then 0 else M k p - M k i / M j i * M j p

theorem eliminate_pivot (M : Matrix m n K) (j : m) (i : n) (p : n) : eliminate M j i j p = 0 :=
  if_pos rfl

theorem eliminate_of_ne (M : Matrix m n K) {j k : m} (h : k ≠ j) (i p : n) :
    eliminate M j i k p = M k p - M k i / M j i * M j p := if_neg h

theorem eliminate_column {M : Matrix m n K} {j : m} {i : n} (h : M j i ≠ 0) (k : m) :
    eliminate M j i k i = 0 := by
  by_cases hk : k = j
  · rw [hk, eliminate_pivot]
  · rw [eliminate_of_ne M hk, div_mul_cancel₀ _ h, sub_self]

open Submodule in
theorem span_eliminate (M : Matrix m n K) (j : m) (i : n) :
    span K (Set.range M.row) = span K {M.row j} ⊔ span K (Set.range (eliminate M j i).row) := by
  -- Every other row is what is left of it and a multiple of the pivot's, so either side spans both.
  have hrow : ∀ k, k ≠ j →
      M.row k = (M k i / M j i) • M.row j + (eliminate M j i).row k := by
    intro k hk
    funext p
    show M k p = M k i / M j i * M j p + eliminate M j i k p
    rw [eliminate_of_ne M hk, add_sub_cancel]
  have hj : M.row j ∈ span K (Set.range M.row) := subset_span ⟨j, rfl⟩
  apply le_antisymm
  · rw [span_le]
    rintro _ ⟨k, rfl⟩
    by_cases hk : k = j
    · rw [hk]
      exact mem_sup_left (mem_span_singleton_self _)
    · rw [hrow k hk]
      exact add_mem (mem_sup_left (smul_mem _ _ (mem_span_singleton_self _)))
        (mem_sup_right (subset_span ⟨k, rfl⟩))
  · refine sup_le (span_le.mpr (Set.singleton_subset_iff.mpr hj)) (span_le.mpr ?_)
    rintro _ ⟨k, rfl⟩
    by_cases hk : k = j
    · have hzero : (eliminate M j i).row k = 0 := by
        funext p
        rw [hk]
        exact eliminate_pivot M j i p
      rw [hzero]
      exact zero_mem _
    · rw [eq_sub_of_add_eq' (hrow k hk).symm]
      exact sub_mem (subset_span ⟨k, rfl⟩) (smul_mem _ _ hj)

open Submodule in
theorem span_eliminate_disjoint {M : Matrix m n K} {j : m} {i : n} (h : M j i ≠ 0) :
    span K {M.row j} ⊓ span K (Set.range (eliminate M j i).row) = ⊥ := by
  rw [eq_bot_iff]
  rintro x ⟨hx, hx'⟩
  obtain ⟨c, rfl⟩ := mem_span_singleton.mp hx
  -- everything in the second span is zero at `i`
  have hcolumn : span K (Set.range (eliminate M j i).row) ≤
      LinearMap.ker (LinearMap.proj i : (n → K) →ₗ[K] K) := by
    rw [span_le]
    rintro _ ⟨k, rfl⟩
    exact eliminate_column h k
  have hc : c * M j i = 0 := hcolumn hx'
  rw [(mul_eq_zero.mp hc).resolve_right h, zero_smul]
  exact zero_mem _

theorem rank_eliminate [Finite m] [Fintype n] {M : Matrix m n K} {j : m} {i : n} (h : M j i ≠ 0) :
    M.rank = (eliminate M j i).rank + 1 := by
  have hne : M.row j ≠ 0 := fun h0 => h (congrFun h0 i)
  have hsum := Submodule.finrank_sup_add_finrank_inf_eq (Submodule.span K {M.row j})
    (Submodule.span K (Set.range (eliminate M j i).row))
  rw [← span_eliminate, span_eliminate_disjoint h, finrank_bot, finrank_span_singleton hne] at hsum
  rw [Matrix.rank_eq_finrank_span_row, Matrix.rank_eq_finrank_span_row]
  omega

end

/-! ## The sweep -/

variable {c : ℕ}

/-- What is left of the array before column `i`. -/
def live (marked : m → Bool) (i : ℕ) (a : Matrix m (Fin c) K) : Matrix m (Fin c) K :=
  fun k p => if marked k = true ∨ p.val < i then 0 else a k p

/-- A change to what is left. -/
def InLive (marked : m → Bool) (i : ℕ) (D : Matrix m (Fin c) K) : Prop :=
  ∀ k p, marked k = true ∨ p.val < i → D k p = 0

/-- The entries of column `i` that are called zero. -/
def leftBehind (marked small : m → Bool) (i : Fin c) (a : Matrix m (Fin c) K) :
    Matrix m (Fin c) K :=
  fun k p => if p = i ∧ marked k = false ∧ small k = true then a k p else 0

/-- `A` has rank `r` more than what is left of the array, and keeps it when both change alike. -/
def Accounts (A : Matrix m (Fin c) K) (marked : m → Bool) (i : ℕ) (a : Matrix m (Fin c) K)
    (r : ℕ) : Prop :=
  ∀ D, InLive marked i D → (A - D).rank = (live marked i a - D).rank + r

theorem live_of_unmarked {marked : m → Bool} {i : ℕ} {k : m} {p : Fin c} (hk : marked k = false)
    (hp : i ≤ p.val) (a : Matrix m (Fin c) K) : live marked i a k p = a k p := by
  apply if_neg
  simp [hk, hp]

theorem InLive.leftBehind_add {marked marked' : m → Bool} {i : Fin c} {D : Matrix m (Fin c) K}
    (small : m → Bool) (a : Matrix m (Fin c) K)
    (hmarked : ∀ k, marked k = true → marked' k = true) (hD : InLive marked' (i + 1) D) :
    InLive marked i (leftBehind marked small i a + D) := by
  rintro k p hkp
  have hDkp : D k p = 0 := hD k p (hkp.imp (hmarked k) fun h => by omega)
  have hleft : leftBehind marked small i a k p = 0 := by
    apply if_neg
    rintro ⟨rfl, hk, -⟩
    simp [hk] at hkp
  show leftBehind marked small i a k p + D k p = 0
  rw [hleft, hDkp, add_zero]

section
variable {A a a' : Matrix m (Fin c) K} {marked marked' small : m → Bool} {r : ℕ}

theorem accounts_init (A : Matrix m (Fin c) K) : Accounts A (fun _ => false) 0 A 0 := by
  intro D _
  rw [show live (fun _ => false) 0 A = A from by
    funext k p
    exact live_of_unmarked rfl (Nat.zero_le _) A]
  rfl

/-- At the end nothing is left. -/
theorem Accounts.rank_eq (h : Accounts A marked c a r) : A.rank = r := by
  have hlive : live marked c a = 0 := by
    funext k p
    exact if_pos (.inr p.isLt)
  have h0 := h 0 fun _ _ _ => rfl
  rwa [hlive, sub_zero, sub_zero, Matrix.rank_zero, Nat.zero_add] at h0

/-- A column without a pivot. -/
theorem Accounts.skip {i : Fin c} (h : Accounts A marked i a r)
    (hsmall : ∀ k, marked k = false → small k = true) :
    Accounts (A - leftBehind marked small i a) marked (i + 1) a r := by
  intro D hD
  rw [sub_sub, h _ (hD.leftBehind_add small a fun _ hk => hk)]
  congr 2
  funext k p
  show live marked i a k p - (leftBehind marked small i a k p + D k p) =
    live marked (i + 1) a k p - D k p
  unfold live leftBehind
  -- columns before, at and after `i`
  cases hk : marked k with
  | true => simp
  | false =>
    rcases lt_trichotomy p i with hp | rfl | hp
    · have hp' : p.val < i.val + 1 := by omega
      simp [hp, hp', hp.ne]
    · simp [hsmall k hk]
    · have hp' : ¬ p.val < i.val + 1 := by omega
      have hp'' : ¬ p.val < i.val := by omega
      simp [hp', hp'', hp.ne']

/-- A column with pivot `j`. -/
theorem Accounts.pivot [Finite m] [DecidableEq m] {i : Fin c} {j : m} (h : Accounts A marked i a r)
    (hj : marked j = false) (hsmall : small j = false) (hpivot : a j i ≠ 0)
    (hmarked : ∀ k, marked' k = true ↔ k = j ∨ marked k = true)
    (hrows : ∀ k p, k ≠ j → marked k = false → i < p →
      a' k p = if small k = true then a k p else a k p - a j p / a j i * a k i) :
    Accounts (A - leftBehind marked small i a) marked' (i + 1) a' (r + 1) := by
  intro D hD
  have hlive := hD.leftBehind_add small a fun k hk => (hmarked k).mpr (.inr hk)
  let M := live marked i a - (leftBehind marked small i a + D)
  have hM : ∀ k p, M k p =
      live marked i a k p - (leftBehind marked small i a k p + D k p) := fun _ _ => rfl
  have hmarkedj : marked' j = true := (hmarked j).mpr (.inl rfl)
  have hMj : ∀ p, i ≤ p → M j p = a j p := by
    intro p hp
    have hleft : leftBehind marked small i a j p = 0 := if_neg (by simp [hsmall])
    rw [hM, live_of_unmarked hj hp, hleft, hD j p (.inl hmarkedj), add_zero, sub_zero]
  have hMi : M j i ≠ 0 := by rwa [hMj i le_rfl]
  rw [sub_sub, h _ hlive, show live marked i a - (leftBehind marked small i a + D) = M from rfl,
    rank_eliminate hMi, Nat.add_right_comm, Nat.add_assoc]
  congr 2
  funext k p
  show eliminate M j i k p = live marked' (i + 1) a' k p - D k p
  have hMzero : ∀ p, marked k = true ∨ p.val < i.val → M k p = 0 := by
    intro p hp
    rw [hM, show live marked i a k p = 0 from if_pos hp, zero_sub, neg_eq_zero]
    exact hlive k p hp
  by_cases hkp : marked' k = true ∨ p.val < i.val + 1
  · -- gone on the right, and on the left for one of four reasons
    rw [hD k p hkp, show live marked' (i + 1) a' k p = 0 from if_pos hkp, sub_zero]
    by_cases hkj : k = j
    · rw [hkj, eliminate_pivot]
    rw [hmarked, or_assoc, or_iff_right hkj] at hkp
    rcases hkp with hk | hp
    · rw [eliminate_of_ne M hkj, hMzero p (.inl hk), hMzero i (.inl hk), zero_div, zero_mul,
        sub_zero]
    · rcases Nat.lt_succ_iff_lt_or_eq.mp hp with hp | hp
      · have hMjp : M j p = 0 := by
          rw [hM, show live marked i a j p = 0 from if_pos (.inr hp), zero_sub, neg_eq_zero]
          exact hlive j p (.inr hp)
        rw [eliminate_of_ne M hkj, hMzero p (.inr hp), hMjp, mul_zero, sub_zero]
      · rw [Fin.ext hp]
        exact eliminate_column hMi k
  · obtain ⟨hk', hp⟩ := not_or.mp hkp
    obtain ⟨hkj, hk⟩ := not_or.mp (mt (hmarked k).mpr hk')
    have hip : i < p := by omega
    have hkf : marked k = false := by simpa using hk
    have hleft : leftBehind marked small i a k p = 0 := if_neg fun h => hip.ne' h.1
    have hMkp : M k p = a k p - D k p := by
      rw [hM, live_of_unmarked hkf hip.le, hleft, zero_add]
    have hMki : M k i = if small k = true then 0 else a k i := by
      rw [hM, live_of_unmarked hkf le_rfl, hD k i (.inr (Nat.lt_succ_self _)), add_zero]
      unfold leftBehind
      cases small k <;> simp [hkf]
    rw [eliminate_of_ne M hkj, hMkp, hMki, hMj p hip.le, hMj i le_rfl,
      live_of_unmarked (by simpa using hk') (by omega), hrows k p hkj hkf hip]
    cases small k with
    | true => simp
    | false =>
      simp only [Bool.false_eq_true, if_false]
      ring

end

/-! ## Full rank -/

theorem rank_eq_iff_det_ne_zero (M : Matrix (Fin c) (Fin c) K) : M.rank = c ↔ M.det ≠ 0 := by
  rw [← isUnit_iff_ne_zero, ← Matrix.isUnit_iff_isUnit_det,
    ← Matrix.linearIndependent_rows_iff_isUnit, linearIndependent_iff_card_eq_finrank_span,
    Fintype.card_fin, Matrix.rank_eq_finrank_span_row, Set.finrank]
  exact eq_comm

end Elimination
end Lib
end KaspaMiner
