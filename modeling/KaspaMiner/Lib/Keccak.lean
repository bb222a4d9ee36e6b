import Mathlib.Data.List.Basic

/-!
# The permutation Keccak-f[1600]

The state is 25 lanes of 64 bits; lane `(x, y)` is entry `x + 5 * y`. One round is the five step
mappings θ, ρ, π, χ, ι, with ρ and π taken together since both only move bits around.
-/

namespace KaspaMiner
namespace Lib
namespace Keccak

abbrev Lanes := Vector UInt64 25

/-- Lane `(x, y)`, both coordinates modulo 5. -/
def lane (a : Lanes) (x y : ℕ) : UInt64 := a[x % 5 + 5 * (y % 5)]

def rotl (w : UInt64) (n : ℕ) : UInt64 := UInt64.ofBitVec (w.toBitVec.rotateLeft n)

/-- Column parities mixed into every lane. -/
def theta (a : Lanes) : Lanes :=
  let parity := Vector.ofFn fun x : Fin 5 =>
    lane a x 0 ^^^ lane a x 1 ^^^ lane a x 2 ^^^ lane a x 3 ^^^ lane a x 4
  let d := Vector.ofFn fun x : Fin 5 => parity[(x.val + 4) % 5] ^^^ rotl parity[(x.val + 1) % 5] 1
  Vector.ofFn fun i => a[i] ^^^ d[i.val % 5]

/-- The rotation of each lane, by its entry. -/
def rhoOffsets : Vector ℕ 25 := #v[
  0, 1, 62, 28, 27,
  36, 44, 6, 55, 20,
  3, 10, 43, 25, 39,
  41, 45, 15, 21, 8,
  18, 2, 61, 56, 14]

/-- Lane `(x, y)` comes from lane `(x + 3 y, x)`, rotated by the offset of where it came from. -/
def rhoPi (a : Lanes) : Lanes :=
  Vector.ofFn fun i =>
    let x := i.val % 5
    let y := i.val / 5
    rotl (lane a (x + 3 * y) x) rhoOffsets[(x + 3 * y) % 5 + 5 * (x % 5)]

/-- The only nonlinear step. -/
def chi (a : Lanes) : Lanes :=
  Vector.ofFn fun i =>
    let x := i.val % 5
    let y := i.val / 5
    a[i] ^^^ (~~~ lane a (x + 1) y &&& lane a (x + 2) y)

def iota (rc : UInt64) (a : Lanes) : Lanes := a.set 0 (a[0] ^^^ rc)

def roundConstants : List UInt64 := [
  0x0000000000000001, 0x0000000000008082, 0x800000000000808A, 0x8000000080008000,
  0x000000000000808B, 0x0000000080000001, 0x8000000080008081, 0x8000000000008009,
  0x000000000000008A, 0x0000000000000088, 0x0000000080008009, 0x000000008000000A,
  0x000000008000808B, 0x800000000000008B, 0x8000000000008089, 0x8000000000008003,
  0x8000000000008002, 0x8000000000000080, 0x000000000000800A, 0x800000008000000A,
  0x8000000080008081, 0x8000000000008080, 0x0000000080000001, 0x8000000080008008]

/-- Keccak-f[1600]. -/
def f1600 (a : Lanes) : Lanes :=
  roundConstants.foldl (fun a rc => iota rc (chi (rhoPi (theta a)))) a

end Keccak
end Lib
end KaspaMiner
