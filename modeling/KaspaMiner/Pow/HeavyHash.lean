import KaspaMiner.Pow.Hasher
import KaspaMiner.Pow.Xoshiro

/-!
# `pow/heavy_hash.rs`

The 64×64 matrix of a block template, drawn from the pre-pow hash until it has full rank, and the
hash that multiplies by it.

`Matrix::generate` loops until a candidate is accepted and nothing in the code bounds the number
of candidates, so `Matrix.generate` counts them: it answers `none` when `fuel` candidates were
drawn and none was accepted. More fuel never changes an answer (`generate_mono`).
-/

namespace KaspaMiner
namespace Pow

structure Matrix where
  rows : Vector (Vector UInt16 64) 64
  deriving DecidableEq

/-- `array_from_fn`: the callback is called with `0, 1, …` in order; `σ` is what it captures. -/
def arrayFromFn {σ α : Type} : (n : ℕ) → (ℕ → σ → α × σ) → σ → Vector α n × σ
  | 0, _, s => (#v[], s)
  | n + 1, cb, s =>
    let (out, s) := arrayFromFn n cb s
    let (a, s) := cb n s
    (out.push a, s)

namespace Matrix

/-- The inner closure captures `val` and the generator. -/
@[irreducible] def randMatrixNoRankCheck (generator : XoShiRo256PlusPlus) :
    Matrix × XoShiRo256PlusPlus :=
  let (rows, generator) := arrayFromFn 64 (fun _ generator =>
    let (row, _, generator) := arrayFromFn 64 (fun j (val, generator) =>
      let shift := j % 16
      let (val, generator) := if shift = 0 then generator.u64 else (val, generator)
      ((val >>> UInt64.ofNat (4 * shift) &&& 0x0F).toUInt16, val, generator))
      ((0 : UInt64), generator)
    (row, generator)) generator
  (⟨rows⟩, generator)

/-! ## `compute_rank` -/

section
variable {F : Type} [F64 F]

def convertToFloat (self : Matrix) : Vector (Vector F 64) 64 :=
  self.rows.map fun row => row.map F64.ofU16

/-- The locals of `compute_rank`. -/
structure RankState (F : Type) where
  matFloat : Vector (Vector F 64) 64
  rank : ℕ
  rowSelected : Vector Bool 64

/-- `x.abs() > EPS`, with `EPS = 1e-9`. -/
def aboveEps (x : F) : Bool := F64.gt (F64.abs x) (1e-9 : F)

/-- The `while` loop: the first row that is not selected yet and has a pivot in column `i`. -/
def findPivot (st : RankState F) (i : Fin 64) : Option (Fin 64) :=
  (List.finRange 64).find? fun j => !st.rowSelected[j] && aboveEps st.matFloat[j][i]

/-- The body of the `for` loop at column `i`. -/
def rankStep (st : RankState F) (i : Fin 64) : RankState F :=
  match findPivot st i with
  | none => st
  | some j =>
    let pivotRow := Vector.ofFn fun p : Fin 64 =>
      if i < p then st.matFloat[j][p] / st.matFloat[j][i] else st.matFloat[j][p]
    { matFloat := Vector.ofFn fun k : Fin 64 =>
        if k = j then pivotRow
        else if aboveEps st.matFloat[k][i] then
          Vector.ofFn fun p : Fin 64 =>
            if i < p then st.matFloat[k][p] - pivotRow[p] * st.matFloat[k][i]
            else st.matFloat[k][p]
        else st.matFloat[k]
      rank := st.rank + 1
      rowSelected := st.rowSelected.set j true }

def rankInit (self : Matrix) : RankState F :=
  { matFloat := self.convertToFloat, rank := 0, rowSelected := Vector.replicate 64 false }

@[irreducible] def computeRank (F : Type) [F64 F] (self : Matrix) : ℕ :=
  ((List.finRange 64).foldl rankStep (self.rankInit (F := F))).rank

theorem computeRank_eq (self : Matrix) : self.computeRank F =
    ((List.finRange 64).foldl rankStep (self.rankInit (F := F))).rank := by
  unfold computeRank
  exact Eq.refl _

end

/-! ## `generate` -/

/-- The loop of `generate`, at most `fuel` candidates long. -/
def generateLoop (P : Prims) : ℕ → XoShiRo256PlusPlus → Option Matrix
  | 0, _ => none
  | fuel + 1, generator =>
    let (mat, generator) := randMatrixNoRankCheck generator
    if mat.computeRank P.F = 64 then some mat else generateLoop P fuel generator

def generate (P : Prims) (fuel : ℕ) (hash : Hash) : Option Matrix :=
  generateLoop P fuel (XoShiRo256PlusPlus.new hash)

theorem generateLoop_succ (P : Prims) (fuel : ℕ) (g : XoShiRo256PlusPlus) :
    generateLoop P (fuel + 1) g =
      if (randMatrixNoRankCheck g).1.computeRank P.F = 64 then some (randMatrixNoRankCheck g).1
      else generateLoop P fuel (randMatrixNoRankCheck g).2 := rfl

theorem generateLoop_mono {P : Prims} {fuel : ℕ} {g : XoShiRo256PlusPlus} {m : Matrix} (k : ℕ)
    (h : generateLoop P fuel g = some m) : generateLoop P (fuel + k) g = some m := by
  induction fuel generalizing g with
  | zero => exact absurd h (by simp [generateLoop])
  | succ fuel ih =>
    rw [generateLoop_succ] at h
    rw [Nat.succ_add, Nat.succ_eq_add_one, generateLoop_succ]
    by_cases hrank : (randMatrixNoRankCheck g).1.computeRank P.F = 64
    · rwa [if_pos hrank] at h ⊢
    · rw [if_neg hrank] at h ⊢
      exact ih h

/-- The number of candidates allowed for matters only to whether there is an answer. -/
theorem generate_mono {P : Prims} {fuel k : ℕ} {hash : Hash} {m : Matrix}
    (h : generate P fuel hash = some m) : generate P (fuel + k) hash = some m :=
  generateLoop_mono k h

/-! ## The plain generator

The comment above `generate` in the source keeps the loops it was made from. There `mat` is one
array that every attempt writes over.
-/

def write (mat : Matrix) (i : Fin 64) (j : ℕ) (val : UInt16) : Matrix :=
  ⟨mat.rows.set i ((mat.rows.get i).setIfInBounds j val)⟩

/-- `for j in (0..64).step_by(16)`, which is the loop over `j = 16 * b`. -/
def plainRow (s : Matrix × XoShiRo256PlusPlus) (i : Fin 64) : Matrix × XoShiRo256PlusPlus :=
  (List.finRange 4).foldl (fun (mat, generator) b =>
    let j := 16 * b.val
    let (val, generator) := generator.u64
    let mat := (List.finRange 16).foldl (fun mat (shift : Fin 16) =>
      mat.write i (j + shift) (val >>> UInt64.ofNat (4 * shift) &&& 0x0F).toUInt16) mat
    (mat, generator)) s

/-- `for i in 0..64` -/
@[irreducible] def plainFill (mat : Matrix) (generator : XoShiRo256PlusPlus) :
    Matrix × XoShiRo256PlusPlus :=
  (List.finRange 64).foldl plainRow (mat, generator)

def plainLoop (P : Prims) : ℕ → Matrix → XoShiRo256PlusPlus → Option Matrix
  | 0, _, _ => none
  | fuel + 1, mat, generator =>
    let (mat, generator) := plainFill mat generator
    if mat.computeRank P.F = 64 then some mat else plainLoop P fuel mat generator

def plainGenerate (P : Prims) (fuel : ℕ) (hash : Hash) : Option Matrix :=
  plainLoop P fuel ⟨Vector.replicate 64 (Vector.replicate 64 0)⟩ (XoShiRo256PlusPlus.new hash)

/-! ## `heavy_hash` -/

/-- The nibbles of the input, the high half of each byte first. -/
def nibbles (hash : Vector UInt8 32) : Vector UInt8 64 :=
  Vector.ofFn fun k : Fin 64 =>
    if k.val % 2 = 0 then hash[k.val / 2] >>> 4 else hash[k.val / 2] &&& 0x0F

/-- The two accumulators of byte `i` of the product, in the `u16` arithmetic of a release build. -/
def rowSums (self : Matrix) (vec : Vector UInt8 64) (i : Fin 32) : UInt16 × UInt16 :=
  (List.finRange 64).foldl (fun (sum1, sum2) j =>
    (sum1 + self.rows[2 * i.val][j] * vec[j].toUInt16,
      sum2 + self.rows[2 * i.val + 1][j] * vec[j].toUInt16)) (0, 0)

/-- The same in a build with overflow checks. -/
def rowSumsChecked (self : Matrix) (vec : Vector UInt8 64) (i : Fin 32) :
    Option (UInt16 × UInt16) :=
  (List.finRange 64).foldlM (fun (sum1, sum2) j => do
    let sum1 ← u16CheckedAdd sum1 (← u16CheckedMul self.rows[2 * i.val][j] vec[j].toUInt16)
    let sum2 ← u16CheckedAdd sum2 (← u16CheckedMul self.rows[2 * i.val + 1][j] vec[j].toUInt16)
    return (sum1, sum2)) (0, 0)

def heavyHash (P : Prims) (self : Matrix) (hash : Hash) : Hash :=
  let hash := hash.toLeBytes
  let vec := nibbles hash
  -- Matrix-vector multiplication, convert to 4 bits, and then combine back to 8 bits.
  let product : Vector UInt8 32 := Vector.ofFn fun i =>
    let (sum1, sum2) := self.rowSums vec i
    ((sum1 >>> 10) <<< 4).toUInt8 ||| (sum2 >>> 10).toUInt8
  -- Concatenate 4 LSBs back to 8 bit xor with sum1
  HeavyHasher.hash P (Uint256.fromLeBytes (Vector.ofFn fun i => product[i] ^^^ hash[i]))

end Matrix

end Pow
end KaspaMiner
