import KaspaMiner.Target

/-!
# `pow/xoshiro.rs`

The xoshiro256++ generator, seeded with the four words of a hash.
-/

namespace KaspaMiner
namespace Pow

/-- `u64::rotate_left`. -/
def rotateLeft (x : UInt64) (n : ℕ) : UInt64 := UInt64.ofBitVec (x.toBitVec.rotateLeft n)

structure XoShiRo256PlusPlus where
  s0 : UInt64
  s1 : UInt64
  s2 : UInt64
  s3 : UInt64
  deriving DecidableEq

namespace XoShiRo256PlusPlus

def new (hash : Hash) : XoShiRo256PlusPlus :=
  { s0 := hash.words.get 0, s1 := hash.words.get 1, s2 := hash.words.get 2, s3 := hash.words.get 3 }

/-- One draw, and the state after it. -/
def u64 (self : XoShiRo256PlusPlus) : UInt64 × XoShiRo256PlusPlus :=
  let { s0, s1, s2, s3 } := self
  let res := s0 + rotateLeft (s0 + s3) 23
  let t := s1 <<< 17
  let s2 := s2 ^^^ s0
  let s3 := s3 ^^^ s1
  let s1 := s1 ^^^ s2
  let s0 := s0 ^^^ s3
  let s2 := s2 ^^^ t
  let s3 := rotateLeft s3 45
  (res, { s0, s1, s2, s3 })

/-- The generator after `n` draws. -/
def after (self : XoShiRo256PlusPlus) (n : ℕ) : XoShiRo256PlusPlus :=
  (fun g : XoShiRo256PlusPlus => g.u64.2)^[n] self

/-- The draws, numbered from 0. -/
def output (self : XoShiRo256PlusPlus) (n : ℕ) : UInt64 := (self.after n).u64.1

theorem u64_after (self : XoShiRo256PlusPlus) (n : ℕ) :
    (self.after n).u64 = (self.output n, self.after (n + 1)) := by
  unfold output after
  rw [Function.iterate_succ_apply']

theorem after_after (self : XoShiRo256PlusPlus) (m n : ℕ) :
    (self.after m).after n = self.after (m + n) := by
  unfold after
  rw [Nat.add_comm, Function.iterate_add_apply]

theorem output_after (self : XoShiRo256PlusPlus) (m n : ℕ) :
    (self.after m).output n = self.output (m + n) := by
  unfold output
  rw [after_after]

end XoShiRo256PlusPlus

end Pow
end KaspaMiner
