import Mathlib.Data.List.FinRange
import Mathlib.Data.List.Forall2
import KaspaMiner.Lib.Binary64
import KaspaMiner.Proof.Bench
import KaspaMiner.Proof.Columns
import KaspaMiner.Proof.Generate
import KaspaMiner.Proof.Orbit

/-!
# `generate` returns

All hashes but zero draw their candidates on one orbit, so it is enough that one candidate of the
orbit is accepted, whichever it is. That of `seed` is: its elimination is run on the numbers of
`Lib/Binary64.lean`, which the kernel can compute with, and the run follows `compute_rank` on floats
column by column (`Follows`). From the zero hash nothing but the zero matrix is drawn.
-/

namespace KaspaMiner
namespace Pow
namespace Matrix

open Lib.Binary64

/-! ## An elimination that can be run

The rows that are not selected, each from the column at hand on.
-/

/-- `x.abs() > EPS`; the constant is `1e-9`. -/
def isPivot : Number → Option Bool := Number.above 4835703278458517 992

/-- `c` times the pivot row, subtracted; by the recursors, as in `Number`. -/
def subMul (c : Number) (row : List Number) : List Number → List Number :=
  row.rec (fun _ => []) fun a _ rest pivotRow =>
    pivotRow.rec [] fun r pivotRow _ => a.sub (r.mul c) :: rest pivotRow

theorem subMul_cons (c a r : Number) (row pivotRow : List Number) :
    subMul c (a :: row) (r :: pivotRow) = a.sub (r.mul c) :: subMul c row pivotRow := rfl

/-- What a row becomes, with the pivot row divided. -/
def eliminate (pivotRow : List Number) : List Number → List Number
  | c :: row =>
    match isPivot c with
    | some true => subMul c row pivotRow
    | some false => row
    | none => row.map fun _ => .other
  | [] => []

/-- The first row with a pivot, cut at the pivot, and the other rows. -/
def pivot : List (List Number) → Option (Number × List Number × List (List Number))
  | (c :: row) :: rows =>
    match isPivot c with
    | some true => some (c, row, rows)
    | some false => (pivot rows).map fun (c', row', rows') => (c', row', (c :: row) :: rows')
    | none => none
  | _ => none

/-- Whether there is a pivot in each of `n` columns. -/
def eliminates : ℕ → List (List Number) → Bool
  | 0, _ => true
  | n + 1, rows =>
    match pivot rows with
    | some (c, row, rows) => eliminates n (rows.map (eliminate (row.map (·.div c))))
    | none => false

/-! ## It follows `compute_rank` -/

/-- The entries of a row in some columns. -/
def RowIs {ι : Type} (x : ι → Float) (ps : List ι) (row : List Number) : Prop :=
  List.Forall₂ (fun p n => Represents (x p) n) ps row

section
variable {ι : Type} {x y : ι → Float} {p : ι} {ps : List ι} {row pivotRow : List Number}
  {c : Number}

theorem aboveEps_of_isPivot {z : Float} {b : Bool} (hz : Represents z c) (h : isPivot c = some b) :
    aboveEps z = b := represents_nano.lt_abs hz h

theorem RowIs.congr (h : RowIs x ps row) (hxy : ∀ p ∈ ps, y p = x p) : RowIs y ps row :=
  ((List.forall₂_and_left _ _).mpr ⟨hxy, h⟩).imp fun _ _ ⟨heq, h⟩ => by rwa [heq]

theorem RowIs.other (h : RowIs x ps row) : RowIs y ps (row.map fun _ => .other) :=
  List.forall₂_map_right_iff.mpr (h.imp fun _ _ _ => trivial)

theorem RowIs.div {z : Float} (h : RowIs x ps row) (hz : Represents z c) :
    RowIs (fun p => x p / z) ps (row.map (·.div c)) :=
  List.forall₂_map_right_iff.mpr (h.imp fun _ _ h => h.div hz)

theorem RowIs.subMul {z : Float} (hrow : RowIs x ps row) (hpivot : RowIs y ps pivotRow)
    (hz : Represents z c) : RowIs (fun p => x p - y p * z) ps (subMul c row pivotRow) := by
  induction hrow generalizing pivotRow with
  | nil => exact .nil
  | cons ha _ ih =>
    cases hpivot with
    | cons hr hrest =>
      rw [subMul_cons]
      exact .cons (ha.sub (hr.mul hz)) (ih hrest)

theorem RowIs.eliminate (hrow : RowIs x (p :: ps) row) (hpivot : RowIs y ps pivotRow) :
    RowIs (fun q => if aboveEps (x p) = true then x q - y q * x p else x q) ps
      (eliminate pivotRow row) := by
  cases hrow with
  | @cons _ c _ row hc hrest =>
    have habove : ∀ b, isPivot c = some b → aboveEps (x p) = b := fun _ => aboveEps_of_isPivot hc
    cases hc' : isPivot c with
    | none =>
      simp only [Matrix.eliminate, hc']
      exact RowIs.other hrest
    | some b =>
      rw [habove b hc']
      cases b with
      | true =>
        simp only [Matrix.eliminate, hc', if_true]
        exact RowIs.subMul hrest hpivot hc
      | false =>
        simp only [Matrix.eliminate, hc', Bool.false_eq_true, if_false]
        exact hrest

end

/-- The row that is found, and that the others stay. -/
theorem pivot_spec {κ ι : Type} [DecidableEq κ] {x : κ → ι → Float} {p : ι} {ps : List ι}
    {ks : List κ} {rows others : List (List Number)} {c : Number} {row : List Number}
    (h : List.Forall₂ (fun k => RowIs (x k) (p :: ps)) ks rows)
    (hpivot : pivot rows = some (c, row, others)) :
    ∃ j, ks.find? (fun k => aboveEps (x k p)) = some j ∧ Represents (x j p) c ∧
      RowIs (x j) ps row ∧ List.Forall₂ (fun k => RowIs (x k) (p :: ps)) (ks.erase j) others := by
  induction h generalizing others with
  | nil => exact absurd hpivot (by simp [pivot])
  | @cons k first ks rows hfirst hrows ih =>
    cases hfirst with
    | @cons _ n _ rest hn hrest =>
      simp only [pivot] at hpivot
      split at hpivot
      next hyes =>
        obtain ⟨rfl, rfl, rfl⟩ : n = c ∧ rest = row ∧ rows = others := by simpa using hpivot
        refine ⟨k, ?_, hn, hrest, ?_⟩
        · exact List.find?_cons_of_pos (aboveEps_of_isPivot hn hyes)
        · rwa [List.erase_cons_head]
      -- The first row is passed over, and stays among the others.
      next hno =>
        obtain ⟨⟨c', row', others'⟩, hfound, heq⟩ := Option.map_eq_some_iff.mp hpivot
        obtain ⟨rfl, rfl, rfl⟩ : c' = c ∧ row' = row ∧ (n :: rest) :: others' = others := by
          simpa using heq
        obtain ⟨j, hfind, hc, hrow, hothers⟩ := ih hfound
        have hk : ¬ aboveEps (x k p) = true := by
          rw [aboveEps_of_isPivot hn hno]
          exact Bool.false_ne_true
        have hne : k ≠ j := by
          rintro rfl
          exact hk (List.find?_some (p := fun k => aboveEps (x k p)) hfind)
        refine ⟨j, ?_, hc, hrow, ?_⟩
        · exact (List.find?_cons_of_neg (p := fun k => aboveEps (x k p)) hk).trans hfind
        · rw [List.erase_cons_tail (by simpa using hne)]
          exact .cons (.cons hn hrest) hothers
      next => exact absurd hpivot (by simp)

/-- The columns from `i` on. -/
def columns (i : ℕ) : List (Fin 64) := (List.finRange 64).drop i

theorem columns_eq (i : Fin 64) : columns i = i :: columns (i + 1) := by
  unfold columns
  rw [List.drop_eq_getElem_cons (by simp)]
  simp

theorem lt_of_mem_columns {i p : Fin 64} (h : p ∈ columns (i + 1)) : i < p := by
  have hsorted : (columns i).Pairwise (· < ·) :=
    (List.pairwise_lt_finRange 64).sublist (List.drop_sublist _ _)
  rw [columns_eq] at hsorted
  exact (List.pairwise_cons.mp hsorted).1 p h

/-- The rows the `while` loop still looks at. -/
def unselected {F : Type} (st : RankState F) : List (Fin 64) :=
  (List.finRange 64).filter fun k => !st.rowSelected.get k

theorem unselected_nodup {F : Type} (st : RankState F) : (unselected st).Nodup :=
  (List.nodup_finRange 64).filter _

/-- Before column `i`. -/
def Follows (i : ℕ) (st : RankState Float) (rows : List (List Number)) : Prop :=
  List.Forall₂ (fun k => RowIs (st.entry k) (columns i)) (unselected st) rows

theorem unselected_rankStep {st : RankState Float} {i j : Fin 64} (h : findPivot st i = some j) :
    unselected (rankStep st i) = (unselected st).erase j := by
  rw [(unselected_nodup st).erase_eq_filter]
  unfold unselected
  rw [List.filter_filter]
  apply List.filter_congr
  intro k _
  have hk := rankStep_selected h k
  unfold RankState.selected at hk
  rw [Bool.eq_iff_iff]
  simp only [Bool.not_eq_true', Bool.and_eq_true, bne_iff_ne, ← Bool.not_eq_true, hk, not_or]

theorem findPivot_unselected (st : RankState Float) (i : Fin 64) :
    findPivot st i = (unselected st).find? fun k => aboveEps (st.entry k i) := by
  unfold unselected
  rw [List.find?_filter]
  simp only [Bool.decide_and, Bool.decide_eq_true]
  rfl

theorem Follows.step {i : Fin 64} {st : RankState Float} {rows others : List (List Number)}
    {c : Number} {row : List Number} (h : Follows i st rows)
    (hpivot : pivot rows = some (c, row, others)) :
    (∃ j, findPivot st i = some j) ∧
      Follows (i + 1) (rankStep st i) (others.map (eliminate (row.map (·.div c)))) := by
  unfold Follows at h
  rw [columns_eq] at h
  obtain ⟨j, hfind, hc, hrow, hothers⟩ := pivot_spec h hpivot
  rw [← findPivot_unselected] at hfind
  refine ⟨⟨j, hfind⟩, ?_⟩
  unfold Follows
  rw [unselected_rankStep hfind, List.forall₂_map_right_iff]
  have hne : ∀ k ∈ (unselected st).erase j, k ≠ j := by
    intro k hk
    exact ((unselected_nodup st).mem_erase_iff.mp hk).1
  refine ((List.forall₂_and_left _ _).mpr ⟨hne, hothers⟩).imp ?_
  rintro k first ⟨hk, hfirst⟩
  refine (hfirst.eliminate (hrow.div hc)).congr ?_
  intro q hq
  exact rankStep_entry hfind hk (lt_of_mem_columns hq)

theorem Follows.computeRank {n i : ℕ} {m : Matrix} {rows : List (List Number)} (hi : i + n = 64)
    (h : Follows i (m.rankRun i) rows) (hrun : eliminates n rows = true) :
    m.computeRank Float = (m.rankRun (F := Float) i).rank + n := by
  induction n generalizing i rows with
  | zero =>
    obtain rfl : i = 64 := by omega
    rw [computeRank_eq_rankRun, Nat.add_zero]
  | succ n ih =>
    unfold eliminates at hrun
    split at hrun
    next hpivot =>
      obtain ⟨i, rfl⟩ : ∃ k : Fin 64, k.val = i := ⟨⟨i, by omega⟩, rfl⟩
      obtain ⟨⟨j, hj⟩, hnext⟩ := h.step hpivot
      rw [← rankRun_succ] at hnext
      rw [ih (by omega) hnext hrun, rankRun_succ, rankStep_rank hj]
      omega
    next => exact absurd hrun Bool.false_ne_true

/-! ## The candidate -/

/-- A number below 16. -/
def nibble (n : ℕ) : Number :=
  bif Nat.beq n 0 then .zero
  else Number.raise false n 1074
    (bif Nat.ble 8 n then 49 else bif Nat.ble 4 n then 50 else bif Nat.ble 2 n then 51 else 52)

theorem represents_nibble {x : UInt16} {n : ℕ} (hx : x.toNat = n) (hn : n < 16) :
    Represents (F64.ofU16 x) (nibble n) := by
  have htable : ∀ n < 16, (Number.normalize false n 1074 0).mul
      (.normal false 4503599627370496 1022) = nibble n := by decide
  rw [← htable n hn, ← hx]
  exact represents_ofNat (by omega)

/-- The sixteen nibbles of a word. -/
def wordRow (w : ℕ) : List Number :=
  (List.range 16).map fun j => nibble (Nat.land (Nat.shiftRight w (Nat.mul 4 j)) 15)

/-- The nibbles of the next `n` words. -/
def drawnRow : ℕ → XoShiRo256PlusPlus → List Number
  | 0, _ => []
  | n + 1, g => wordRow g.u64.1.toNat ++ drawnRow n g.u64.2

def drawnRows : ℕ → XoShiRo256PlusPlus → List (List Number)
  | 0, _ => []
  | n + 1, g => drawnRow 4 g :: drawnRows n (g.after 4)

theorem drawnRow_eq (g : XoShiRo256PlusPlus) :
    drawnRow 4 g = (List.finRange 64).map fun p : Fin 64 =>
      nibble (Nat.land (Nat.shiftRight (g.output (p / 16)).toNat (Nat.mul 4 (p % 16))) 15) := rfl

theorem drawnRows_eq (n : ℕ) (g : XoShiRo256PlusPlus) :
    drawnRows n g = (List.finRange n).map fun k : Fin n => drawnRow 4 (g.after (4 * k)) := by
  induction n generalizing g with
  | zero => rfl
  | succ n ih =>
    unfold drawnRows
    rw [ih, List.finRange_succ, List.map_cons, List.map_map]
    refine congrArg₂ List.cons rfl (List.map_congr_left ?_)
    intro k _
    rw [XoShiRo256PlusPlus.after_after, Nat.add_comm]
    rfl

theorem rowIs_drawnRow (g : XoShiRo256PlusPlus) (k : Fin 64) :
    RowIs (fun p => F64.ofU16 ((candidate g).entry k p)) (List.finRange 64)
      (drawnRow 4 (g.after (4 * k))) := by
  unfold RowIs
  rw [drawnRow_eq, List.forall₂_map_right_iff, List.forall₂_same]
  intro p _
  have hnibble : ∀ w : UInt64, Nat.land (Nat.shiftRight w.toNat (Nat.mul 4 (p % 16))) 15 =
      w.toNat / 2 ^ (4 * (p.val % 16)) % 16 := by
    intro w
    show (w.toNat >>> (4 * (p.val % 16))) &&& 2 ^ 4 - 1 = _
    rw [Nat.and_two_pow_sub_one_eq_mod, Nat.shiftRight_eq_div_pow]
  rw [hnibble, XoShiRo256PlusPlus.output_after]
  refine represents_nibble ?_ (Nat.mod_lt _ (by decide))
  rw [candidate_entry, nibbleOf_toNat _ (Nat.mod_lt _ (by decide))]

theorem follows_drawnRows (g : XoShiRo256PlusPlus) :
    Follows 0 ((candidate g).rankRun 0) (drawnRows 64 g) := by
  have hall : unselected ((candidate g).rankRun (F := Float) 0) = List.finRange 64 := by
    refine List.filter_eq_self.mpr ?_
    intro k _
    show (!(Vector.replicate 64 false).get k) = true
    simp
  unfold Follows
  rw [hall, drawnRows_eq, List.forall₂_map_right_iff, List.forall₂_same]
  intro k _
  exact (rowIs_drawnRow g k).congr fun p _ => rankInit_entry (candidate g) k p

/-- A candidate is accepted if its rows are eliminated. -/
theorem computeRank_candidate {g : XoShiRo256PlusPlus} (h : eliminates 64 (drawnRows 64 g) = true) :
    (candidate g).computeRank Float = 64 := (follows_drawnRows g).computeRank rfl h

def seed : XoShiRo256PlusPlus := ⟨1, 2, 3, 4⟩

-- About 90 000 products and as many differences.
theorem computeRank_seed : (candidate seed).computeRank Float = 64 :=
  computeRank_candidate (by decide +kernel)

/-! ## Which hashes -/

/-- The zero matrix. -/
theorem computeRank_zero {m : Matrix} (h : ∀ k p, m.entry k p = 0) : m.computeRank Float = 0 := by
  have hzero : aboveEps (F64.ofU16 (F := Float) 0) = false :=
    aboveEps_of_isPivot (represents_nibble rfl (by decide)) rfl
  have hstep : ∀ i, rankStep (m.rankInit (F := Float)) i = m.rankInit := by
    intro i
    refine rankStep_none (findPivot_eq_none_iff.mpr ?_)
    intro k _
    rw [rankInit_entry]
    show aboveEps (F64.ofU16 (m.entry k i)) = false
    rw [h, hzero]
  rw [computeRank_eq, List.foldl_fixed' hstep]
  rfl

/-- The loop ends if an attempt is accepted. -/
theorem exists_generate_iff {P : Prims} {hash : Hash} :
    (∃ fuel m, generate P fuel hash = some m) ↔ ∃ a, (attempt hash a).computeRank P.F = 64 := by
  constructor
  · rintro ⟨fuel, m, h⟩
    obtain ⟨a, -, hacc, -⟩ := generate_eq_some_iff.mp h
    exact ⟨a, hacc.1⟩
  · intro h
    refine ⟨Nat.find h + 1, attempt hash (Nat.find h), generate_eq_some_iff.mpr ?_⟩
    exact ⟨Nat.find h, Nat.lt_succ_self _, ⟨Nat.find_spec h, fun b => Nat.find_min h⟩, rfl⟩

theorem computeRank_attempt_default (a : ℕ) : (attempt default a).computeRank Float = 0 := by
  refine computeRank_zero ?_
  intro k p
  have hseed : XoShiRo256PlusPlus.new default = 0 := XoShiRo256PlusPlus.new_eq_zero_iff.mpr rfl
  rw [attempt_eq, candidate_entry, hseed, XoShiRo256PlusPlus.zero_after,
    XoShiRo256PlusPlus.zero_output]
  unfold nibbleOf
  simp

/-- **`generate` returns for every hash but zero.** -/
theorem generate_returns_iff (P : Prims) (hash : Hash) :
    (∃ fuel m, generate P.withFloat fuel hash = some m) ↔ hash ≠ default := by
  rw [exists_generate_iff]
  show (∃ a, (attempt hash a).computeRank Float = 64) ↔ _
  constructor
  · rintro ⟨a, ha⟩ rfl
    rw [computeRank_attempt_default] at ha
    exact absurd ha (by decide)
  · intro hne
    have hseed : XoShiRo256PlusPlus.new hash ≠ 0 := by
      intro h
      exact hne (XoShiRo256PlusPlus.new_eq_zero_iff.mp h)
    obtain ⟨a, ha⟩ := XoShiRo256PlusPlus.exists_after_mul_eq hseed (h := seed) (by decide)
    refine ⟨a, ?_⟩
    rw [attempt_eq, ha]
    exact computeRank_seed

theorem generate_default_hangs :
    ¬ ∃ fuel m, generate benchPrims.withFloat fuel default = some m := by
  rw [exists_generate_iff]
  show ¬ ∃ a, (attempt default a).computeRank Float = 64
  rintro ⟨a, ha⟩
  rw [computeRank_attempt_default] at ha
  exact absurd ha (by decide)

end Matrix
end Pow
end KaspaMiner
