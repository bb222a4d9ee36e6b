import KaspaMiner.Proof.Header
import KaspaMiner.Proof.Columns
import KaspaMiner.Lib.Keccak

/-!
# The template of the benchmark

The theorems about a `State` need one to be about. This is the block template `miner.rs` benches
on (with the nonce and the timestamp it has there), and primitives the kernel can run it under:
the Keccak permutation itself, and for BLAKE2b the digest of this template's pre-pow stream.

Sixty-four columns of `f64` elimination are out of the kernel's reach, so the rank is left to an
arithmetic in which no number is near zero (`Coarse`). There the pivot of column `i` is row `i`
for any matrix whatever (`computeRank_coarse`) — which is what the elimination on `f64` finds on
this template's matrix too.
-/

namespace KaspaMiner
namespace Pow

/-- An arithmetic with one number, which counts as far from zero. -/
inductive Coarse where
  | nonzero

instance : F64 Coarse where
  sub _ _ := .nonzero
  mul _ _ := .nonzero
  div _ _ := .nonzero
  ofScientific _ _ _ := .nonzero
  ofU16 _ := .nonzero
  abs x := x
  gt _ _ := true

namespace Matrix

/-- Before column `k`, the first `k` rows are selected. -/
def FirstSelected (k : ℕ) (st : RankState Coarse) : Prop :=
  st.rank = k ∧ st.rowSelected = Vector.ofFn fun j => decide (j.val < k)

theorem FirstSelected.selected {k : ℕ} {st : RankState Coarse} (h : FirstSelected k st)
    (j : Fin 64) : st.selected j = decide (j.val < k) := by
  unfold RankState.selected
  rw [h.2, get_ofFn]

theorem findPivot_coarse {st : RankState Coarse} {i : Fin 64} (h : FirstSelected i st) :
    findPivot st i = some i := by
  refine findPivot_eq_some_iff.mpr ⟨⟨by simp [h.selected], rfl⟩, ?_⟩
  intro k hk hselected
  rw [h.selected] at hselected
  exact absurd hk (of_decide_eq_false hselected)

theorem rankStep_coarse {st : RankState Coarse} {i : Fin 64} (h : FirstSelected i st) :
    FirstSelected (i + 1) (rankStep st i) := by
  have hpivot := findPivot_coarse h
  refine ⟨by rw [rankStep_rank hpivot, h.1], Vector.ext ?_⟩
  intro j hj
  show (rankStep st i).selected ⟨j, hj⟩ = _
  rw [Bool.eq_iff_iff, rankStep_selected hpivot, h.selected, Vector.getElem_ofFn]
  simp only [Fin.ext_iff, decide_eq_true_eq]
  omega

theorem firstSelected_init (self : Matrix) : FirstSelected 0 (self.rankInit (F := Coarse)) :=
  ⟨rfl, Vector.ext fun j hj => by simp [rankInit]⟩

theorem computeRank_coarse (self : Matrix) : self.computeRank Coarse = 64 := by
  rw [computeRank_eq]
  exact (Lib.foldl_finRange FirstSelected (fun _ _ => rankStep_coarse)
    (firstSelected_init self)).1

end Matrix

/-- The digest of the template's pre-pow stream under the key `BlockHash`. -/
def benchDigest : Vector UInt8 32 := #v[
  203, 94, 138, 216, 49, 22, 190, 66, 178, 148, 75, 117, 236, 40, 135, 228,
  138, 155, 195, 49, 0, 33, 159, 182, 174, 51, 234, 130, 95, 83, 236, 212]

def benchPrims : Prims where
  F := Coarse
  f64 := inferInstance
  f1600 := Lib.Keccak.f1600
  blake2b _ _ := benchDigest

def benchHeader : RpcBlockHeader where
  version := 1
  parents := .nil
  hashMerkleRoot := "23618af45051560529440541e7dc56be27676d278b1e00324b048d410a19d764"
  acceptedIdMerkleRoot := "947d1a10378d6478b6957a0ed71866812dee33684968031b1cace4908c149d94"
  utxoCommitment := "ec5e8fc0bc0c637004cee262cef12e7cf6d9cd7772513dbd466176a07ab7c4f4"
  timestamp := 654654353
  bits := 0x1e7fffff
  nonce := 0
  daaScore := 654456
  blueWork := "d8e28a03234786"
  pruningPoint := "be4c415d378f9113fabd3c09fcc84ddb6a00f900c87cb6a1186993ddc3014e2d"
  blueScore := 1164419

def benchBlock : RpcBlock where
  header := some benchHeader
  transactions := .nil
  verboseData := none

/-- On a literal, whose characters are there to be looked at. -/
theorem isHexText_ofList {cs : List Char} {n : ℕ} (h : cs.length = n ∧ ∀ c ∈ cs, Lib.IsHex c) :
    IsHexText (String.ofList cs) n := by
  unfold IsHexText
  rwa [String.toList_ofList]

theorem benchHeader_serializable : Serializable benchHeader where
  version := by decide
  parents := by
    intro level hlevel
    exact absurd hlevel (by simp [benchHeader, Vec.nil])
  hashMerkleRoot := isHexText_ofList (by decide +kernel)
  acceptedIdMerkleRoot := isHexText_ofList (by decide +kernel)
  utxoCommitment := isHexText_ofList (by decide +kernel)
  blueWork := by
    have h : IsHexText benchHeader.blueWork 14 := isHexText_ofList (by decide +kernel)
    exact ⟨by rw [h.1]; decide, h.2⟩
  pruningPoint := isHexText_ofList (by decide +kernel)

/-- Under a coarse arithmetic the first candidate is accepted. -/
theorem generate_coarse {P : Prims} (h : ∀ m : Matrix, m.computeRank P.F = 64) (hash : Hash) :
    ∃ m, Matrix.generate P 1 hash = some m := by
  unfold Matrix.generate
  rw [Matrix.generateLoop_succ, if_pos (h _)]
  exact ⟨_, rfl⟩

theorem benchBlock_new (id : USize) : ∃ s, State.new benchPrims 1 id benchBlock = .ok s := by
  obtain ⟨m, hm⟩ := generate_coarse (P := benchPrims) Matrix.computeRank_coarse
    (Uint256.fromLeBytes benchDigest)
  exact ⟨_, State.new_ok_iff.mpr
    ⟨benchHeader, _, m, rfl, prePowHash_ok benchHeader_serializable, hm, rfl⟩⟩

/-- The same with a constant where the permutation was. Every nonce solves every template. -/
def solvingPrims : Prims := { benchPrims with f1600 := fun _ => .replicate 25 0 }

theorem solving_new (id : USize) : ∃ s, State.new solvingPrims 1 id benchBlock = .ok s := by
  obtain ⟨m, hm⟩ := generate_coarse (P := solvingPrims) Matrix.computeRank_coarse
    (Uint256.fromLeBytes benchDigest)
  exact ⟨_, State.new_ok_iff.mpr
    ⟨benchHeader, _, m, rfl, prePowHash_ok benchHeader_serializable, hm, rfl⟩⟩

theorem solving_calculatePow (s : State) : (s.calculatePow solvingPrims).toNat = 0 := by
  show (stateHash (.replicate 25 0)).toNat = 0
  decide

end Pow
end KaspaMiner
