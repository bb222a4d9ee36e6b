import KaspaMiner.Rust

/-!
# The primitives the proof of work is built on

Three things the sources call and do not define: `blake2b_simd`, the Keccak permutation (an
assembly file or the `keccak` crate, behind `keccak::f1600`), and the `f64` arithmetic of
`compute_rank`. They are parameters: `Prims` is one choice of all three, and every definition that
reaches one of them takes a `Prims`. Nothing is assumed about them, except where a theorem says so.
-/

namespace KaspaMiner

/-- The arithmetic `compute_rank` does on `f64`. -/
class F64 (F : Type) extends Sub F, Mul F, Div F, OfScientific F where
  /-- `f64::from` at `u16`. -/
  ofU16 : UInt16 → F
  abs : F → F
  gt : F → F → Bool

/-- The real one. -/
instance : F64 Float where
  ofU16 x := Float.ofNat x.toNat
  abs := Float.abs
  gt x y := decide (y < x)

/-- The primitives. -/
structure Prims where
  /-- The type of an `f64`. -/
  F : Type
  /-- Its operations. -/
  f64 : F64 F
  /-- `keccak::f1600`. -/
  f1600 : Vector UInt64 25 → Vector UInt64 25
  /-- BLAKE2b with a 32-byte digest: the key, then everything that was written. -/
  blake2b : List UInt8 → List UInt8 → Vector UInt8 32

attribute [instance] Prims.f64

/-- With the real arithmetic. -/
def Prims.withFloat (P : Prims) : Prims := { P with F := Float, f64 := inferInstance }

end KaspaMiner
