import Mathlib.Data.List.Basic
import Mathlib.Data.Nat.Bitwise

/-!
# Bitwise expressions over 64-bit words

Words under exclusive or, and, or, complement and rotation. With `xor` as the sum and `and` as the
product they are a Boolean ring, and a rotation is an automorphism of it, so every expression is a
sum of products of rotated variables in exactly one way (its algebraic normal form). Two expressions
with the same normal form have the same value for all values of their variables.

A product is the set of its factors, as the bits of a number: variable `v` rotated by `r` is bit
`64 * v + r`. The empty product is the word of ones. A sum is a list of products in increasing
order.
-/

namespace KaspaMiner
namespace Lib
namespace Bitwise

/-- `rol`. -/
def rotateLeft (x : UInt64) (n : ℕ) : UInt64 := UInt64.ofBitVec (x.toBitVec.rotateLeft n)

inductive Expr where
  | var (v : ℕ)
  | xor (e f : Expr)
  | or (e f : Expr)
  | and (e f : Expr)
  | not (e : Expr)
  | rol (n : ℕ) (e : Expr)
  deriving DecidableEq

namespace Expr

def eval (env : ℕ → UInt64) : Expr → UInt64
  | var v => env v
  | xor e f => e.eval env ^^^ f.eval env
  | or e f => e.eval env ||| f.eval env
  | and e f => e.eval env &&& f.eval env
  | not e => ~~~ e.eval env
  | rol n e => rotateLeft (e.eval env) n

end Expr

/-! ## Rotations -/

/-- The bit at `i` comes from `n` places further down. -/
theorem getLsbD_rotateLeft (x : UInt64) (n : ℕ) {i : ℕ} (hi : i < 64) :
    (rotateLeft x n).toBitVec.getLsbD i = x.toBitVec.getLsbD ((i + (64 - n % 64)) % 64) := by
  show (x.toBitVec.rotateLeft n).getLsbD i = _
  rw [BitVec.getLsbD_rotateLeft]
  by_cases hlt : i < n % 64
  · rw [decide_eq_true hlt, cond_true]
    congr 1
    omega
  · rw [decide_eq_false hlt, cond_false, decide_eq_true hi, Bool.true_and]
    congr 1
    omega

theorem rotateLeft_mod (x : UInt64) (n : ℕ) : rotateLeft x (n % 64) = rotateLeft x n := by
  refine UInt64.toBitVec_inj.mp (BitVec.eq_of_getLsbD_eq ?_)
  intro i hi
  rw [getLsbD_rotateLeft x _ hi, getLsbD_rotateLeft x n hi, Nat.mod_mod]

theorem rotateLeft_rotateLeft (x : UInt64) (n k : ℕ) :
    rotateLeft (rotateLeft x n) k = rotateLeft x (k + n) := by
  refine UInt64.toBitVec_inj.mp (BitVec.eq_of_getLsbD_eq ?_)
  intro i hi
  rw [getLsbD_rotateLeft _ k hi, getLsbD_rotateLeft x n (Nat.mod_lt _ (by omega)),
    getLsbD_rotateLeft x (k + n) hi]
  congr 1
  omega

theorem rotateLeft_zero (x : UInt64) : rotateLeft x 0 = x := by
  refine UInt64.toBitVec_inj.mp (BitVec.eq_of_getLsbD_eq ?_)
  intro i hi
  rw [getLsbD_rotateLeft x 0 hi]
  congr 1
  omega

/-! ## Normal forms -/

/-- The sum with one more product. A product twice is none. -/
def toggle (m : ℕ) : List ℕ → List ℕ
  | [] => [m]
  | k :: p => if m < k then m :: k :: p else if m = k then p else k :: toggle m p

/-- `m` and, by `rest`, what comes after it, merged into a sum. -/
def merge (m : ℕ) (rest : List ℕ → List ℕ) : List ℕ → List ℕ
  | [] => m :: rest []
  | k :: q =>
    if m < k then m :: rest (k :: q) else if m = k then rest q else k :: merge m rest q

def add : List ℕ → List ℕ → List ℕ
  | [], q => q
  | m :: p, q => merge m (add p) q

/-- One product times a sum. -/
def scale (m : ℕ) (q : List ℕ) : List ℕ := q.foldr (fun k acc => toggle (m ||| k) acc) []

def mul (p q : List ℕ) : List ℕ := p.foldr (fun m acc => add (scale m q) acc) []

/-- The normal form of an expression rotated by `r`. -/
def Expr.anf : Expr → ℕ → List ℕ
  | var v, r => [2 ^ (64 * v + r)]
  | xor e f, r => add (e.anf r) (f.anf r)
  | or e f, r =>
    let p := e.anf r
    let q := f.anf r
    add (add p q) (mul p q)
  | and e f, r => mul (e.anf r) (f.anf r)
  | not e, r => toggle 0 (e.anf r)
  | rol n e, r => e.anf ((r + n) % 64)

section
variable (env : ℕ → UInt64) (i : ℕ)

/-- Bit `i` of the factor `a`. -/
def factorBit (a : ℕ) : Bool := (rotateLeft (env (a / 64)) (a % 64)).toBitVec.getLsbD i

open Classical in
/-- Bit `i` of a product. -/
noncomputable def productBit (m : ℕ) : Bool :=
  decide (∀ a, m.testBit a = true → factorBit env i a = true)

/-- Bit `i` of a sum. -/
noncomputable def sumBit (p : List ℕ) : Bool := p.foldr (fun m b => productBit env i m ^^ b) false

@[simp] theorem sumBit_nil : sumBit env i [] = false := rfl

@[simp] theorem sumBit_cons (m : ℕ) (p : List ℕ) :
    sumBit env i (m :: p) = (productBit env i m ^^ sumBit env i p) := rfl

theorem productBit_zero : productBit env i 0 = true := by simp [productBit]

theorem productBit_pow (a : ℕ) : productBit env i (2 ^ a) = factorBit env i a := by
  simp [productBit, Nat.testBit_two_pow]

theorem productBit_or (m k : ℕ) :
    productBit env i (m ||| k) = (productBit env i m && productBit env i k) := by
  rw [Bool.eq_iff_iff, Bool.and_eq_true]
  simp only [productBit, decide_eq_true_eq, Nat.testBit_or, Bool.or_eq_true]
  constructor
  · intro h
    exact ⟨fun a ha => h a (.inl ha), fun a ha => h a (.inr ha)⟩
  · rintro ⟨hm, hk⟩ a (ha | ha)
    · exact hm a ha
    · exact hk a ha

theorem sumBit_toggle (m : ℕ) (p : List ℕ) :
    sumBit env i (toggle m p) = (productBit env i m ^^ sumBit env i p) := by
  induction p with
  | nil => rfl
  | cons k p ih =>
    unfold toggle
    split
    · rfl
    · split
      · next heq => rw [sumBit_cons, heq, ← Bool.xor_assoc, Bool.xor_self, Bool.false_xor]
      · rw [sumBit_cons, sumBit_cons, ih, Bool.xor_left_comm]

theorem sumBit_merge {m : ℕ} {rest : List ℕ → List ℕ} {b : Bool}
    (hrest : ∀ q, sumBit env i (rest q) = (b ^^ sumBit env i q)) (q : List ℕ) :
    sumBit env i (merge m rest q) = (productBit env i m ^^ (b ^^ sumBit env i q)) := by
  induction q with
  | nil =>
    unfold merge
    rw [sumBit_cons, hrest]
  | cons k q ih =>
    unfold merge
    split
    · rw [sumBit_cons, hrest]
    · split
      · next heq =>
        rw [hrest, sumBit_cons, heq, Bool.xor_left_comm b, ← Bool.xor_assoc, Bool.xor_self,
          Bool.false_xor]
      · rw [sumBit_cons, sumBit_cons, ih, Bool.xor_left_comm b, Bool.xor_left_comm]

theorem sumBit_add (p : List ℕ) : ∀ q,
    sumBit env i (add p q) = (sumBit env i p ^^ sumBit env i q) := by
  induction p with
  | nil =>
    intro q
    rw [sumBit_nil, Bool.false_xor, add]
  | cons m p ih =>
    intro q
    rw [add, sumBit_merge env i ih, sumBit_cons, Bool.xor_assoc]

theorem sumBit_scale (m : ℕ) (q : List ℕ) :
    sumBit env i (scale m q) = (productBit env i m && sumBit env i q) := by
  induction q with
  | nil => rw [sumBit_nil, Bool.and_false]; rfl
  | cons k q ih =>
    show sumBit env i (toggle (m ||| k) (scale m q)) = _
    rw [sumBit_toggle, ih, productBit_or, sumBit_cons, Bool.and_xor_distrib_left]

theorem sumBit_mul (p q : List ℕ) :
    sumBit env i (mul p q) = (sumBit env i p && sumBit env i q) := by
  induction p with
  | nil => rw [sumBit_nil, Bool.false_and]; rfl
  | cons m p ih =>
    show sumBit env i (add (scale m q) (mul p q)) = _
    rw [sumBit_add, sumBit_scale, ih, sumBit_cons, Bool.and_xor_distrib_right]

variable {i} in
/-- The normal form describes the rotated value, bit for bit. -/
theorem sumBit_anf (hi : i < 64) (e : Expr) : ∀ r < 64,
    sumBit env i (e.anf r) = (rotateLeft (e.eval env) r).toBitVec.getLsbD i := by
  induction e with
  | var v =>
    intro r hr
    have hdiv : (64 * v + r) / 64 = v := by omega
    have hmod : (64 * v + r) % 64 = r := by omega
    unfold Expr.anf
    rw [sumBit_cons, sumBit_nil, Bool.xor_false, productBit_pow, factorBit, hdiv, hmod]
    rfl
  | xor e f ihe ihf =>
    intro r hr
    rw [Expr.anf, sumBit_add, ihe r hr, ihf r hr]
    simp only [getLsbD_rotateLeft _ r hi, Expr.eval, UInt64.toBitVec_xor, BitVec.getLsbD_xor]
  -- A disjunction is the sum of both and their product.
  | or e f ihe ihf =>
    intro r hr
    rw [Expr.anf, sumBit_add, sumBit_add, sumBit_mul, ihe r hr, ihf r hr]
    simp only [getLsbD_rotateLeft _ r hi, Expr.eval, UInt64.toBitVec_or, BitVec.getLsbD_or]
    generalize BitVec.getLsbD _ _ = b
    generalize BitVec.getLsbD _ _ = c
    cases b <;> cases c <;> rfl
  | and e f ihe ihf =>
    intro r hr
    rw [Expr.anf, sumBit_mul, ihe r hr, ihf r hr]
    simp only [getLsbD_rotateLeft _ r hi, Expr.eval, UInt64.toBitVec_and, BitVec.getLsbD_and]
  | not e ih =>
    intro r hr
    have hlt : (i + (64 - r % 64)) % 64 < 64 := Nat.mod_lt _ (by omega)
    rw [Expr.anf, sumBit_toggle, productBit_zero, ih r hr]
    simp only [getLsbD_rotateLeft _ r hi, Expr.eval, UInt64.toBitVec_not, BitVec.getLsbD_not,
      decide_eq_true hlt, Bool.true_and, Bool.true_xor]
  -- A rotation is left for the leaves: it is added to the one there is.
  | rol n e ih =>
    intro r hr
    rw [Expr.anf, ih _ (Nat.mod_lt _ (by omega)), Expr.eval, rotateLeft_rotateLeft, rotateLeft_mod]

end

/-- **The decision procedure.** -/
theorem Expr.eval_congr {e f : Expr} (h : e.anf 0 = f.anf 0) (env : ℕ → UInt64) :
    e.eval env = f.eval env := by
  refine UInt64.toBitVec_inj.mp (BitVec.eq_of_getLsbD_eq ?_)
  intro i hi
  have he := sumBit_anf env hi e 0 (by omega)
  have hf := sumBit_anf env hi f 0 (by omega)
  rw [rotateLeft_zero] at he hf
  rw [← he, ← hf, h]

end Bitwise
end Lib
end KaspaMiner
