import Mathlib.Data.List.Basic
import KaspaMiner.Lib.Radix

/-!
# What the Rust types carry

The few facts about Rust's own types that the program relies on without writing them down.

* `Vec`: a vector's length is at most `isize::MAX`, so it fits a `u64`. The bound is a field, so
  that casting a length to `u64` loses nothing without anybody having to assume it.
* `asRef`: the bytes of a `String`, which is what `len`, `as_ref` and indexing see.
* `toLeBytes`: the little-endian bytes of each fixed-width integer.
* `checked_add` and its kind: what the operators are in a build with overflow checks, where a
  `none` is a panic. A release build wraps.
-/

namespace KaspaMiner

/-- `Vec<T>`: a list no longer than `isize::MAX`. -/
structure Vec (α : Type) where
  toList : List α
  length_lt : toList.length < 2 ^ 63

namespace Vec

def nil {α : Type} : Vec α := ⟨[], by simp⟩

/-- `vec.len()`. -/
def len {α : Type} (v : Vec α) : ℕ := v.toList.length

theorem ext {α : Type} {v w : Vec α} (h : v.toList = w.toList) : v = w := by
  cases v
  cases w
  simpa using h

end Vec

/-! ## Arrays

An array `[T; N]` is a `Vector`, read at a `Fin` where the index is in range for a reason.
-/

@[simp] theorem get_ofFn {α : Type*} {n : ℕ} (f : Fin n → α) (i : Fin n) :
    (Vector.ofFn f).get i = f i := Vector.getElem_ofFn i.isLt

@[simp] theorem get_replicate {α : Type*} (n : ℕ) (a : α) (i : Fin n) :
    (Vector.replicate n a).get i = a := Vector.getElem_replicate i.isLt

/-- `s.as_ref()` at `[u8]`: the UTF-8 bytes of a string. -/
def asRef (s : String) : List UInt8 := s.toByteArray.data.toList

theorem asRef_eq (s : String) : asRef s = s.toList.flatMap String.utf8EncodeChar := by
  unfold asRef
  rw [← String.utf8Encode_toList]
  simp [List.utf8Encode]

/-! ## `to_le_bytes` -/

def u16Bytes (x : UInt16) : List UInt8 := Lib.leBytes 2 x.toNat

def u32Bytes (x : UInt32) : List UInt8 := Lib.leBytes 4 x.toNat

def u64Bytes (x : UInt64) : List UInt8 := Lib.leBytes 8 x.toNat

/-- An `i64` is written as the two's complement word. -/
def i64Bytes (x : Int64) : List UInt8 := u64Bytes x.toUInt64

@[simp] theorem u16Bytes_length (x : UInt16) : (u16Bytes x).length = 2 := Lib.leBytes_length _ _

@[simp] theorem u32Bytes_length (x : UInt32) : (u32Bytes x).length = 4 := Lib.leBytes_length _ _

@[simp] theorem u64Bytes_length (x : UInt64) : (u64Bytes x).length = 8 := Lib.leBytes_length _ _

@[simp] theorem i64Bytes_length (x : Int64) : (i64Bytes x).length = 8 := u64Bytes_length _

theorem u16Bytes_inj {x y : UInt16} (h : u16Bytes x = u16Bytes y) : x = y :=
  UInt16.toNat_inj.mp (Lib.leBytes_inj x.toNat_lt y.toNat_lt h)

theorem u32Bytes_inj {x y : UInt32} (h : u32Bytes x = u32Bytes y) : x = y :=
  UInt32.toNat_inj.mp (Lib.leBytes_inj x.toNat_lt y.toNat_lt h)

theorem u64Bytes_inj {x y : UInt64} (h : u64Bytes x = u64Bytes y) : x = y :=
  UInt64.toNat_inj.mp (Lib.leBytes_inj x.toNat_lt y.toNat_lt h)

theorem i64Bytes_inj {x y : Int64} (h : i64Bytes x = i64Bytes y) : x = y :=
  Int64.toBitVec_inj.mp (congrArg UInt64.toBitVec (u64Bytes_inj h))

/-! ## Overflow checks -/

def u16CheckedAdd (x y : UInt16) : Option UInt16 :=
  if x.toNat + y.toNat < 2 ^ 16 then some (x + y) else none

def u16CheckedMul (x y : UInt16) : Option UInt16 :=
  if x.toNat * y.toNat < 2 ^ 16 then some (x * y) else none

def u32CheckedSub (x y : UInt32) : Option UInt32 := if y ≤ x then some (x - y) else none

def u32CheckedMul (x y : UInt32) : Option UInt32 :=
  if x.toNat * y.toNat < 2 ^ 32 then some (x * y) else none

/-- `>>` only minds the number of places. -/
def u32CheckedShr (x : UInt32) (n : UInt32) : Option UInt32 :=
  if n < 32 then some (x >>> n) else none

def u64CheckedAdd (x y : UInt64) : Option UInt64 :=
  if x.toNat + y.toNat < 2 ^ 64 then some (x + y) else none

def u64CheckedShl (x : UInt64) (n : ℕ) : Option UInt64 :=
  if n < 64 then some (x <<< UInt64.ofNat n) else none

def u64CheckedShr (x : UInt64) (n : ℕ) : Option UInt64 :=
  if n < 64 then some (x >>> UInt64.ofNat n) else none

/-- A `usize` is a number here; these are its bounds. -/
def usizeChecked (n : ℕ) : Option ℕ := if n < 2 ^ 64 then some n else none

def usizeCheckedSub (n m : ℕ) : Option ℕ := if m ≤ n then some (n - m) else none

theorem u16CheckedAdd_some {x y : UInt16} (h : x.toNat + y.toNat < 2 ^ 16) :
    u16CheckedAdd x y = some (x + y) ∧ (x + y).toNat = x.toNat + y.toNat := by
  refine ⟨if_pos h, ?_⟩
  rw [UInt16.toNat_add]
  exact Nat.mod_eq_of_lt h

theorem u16CheckedMul_some {x y : UInt16} (h : x.toNat * y.toNat < 2 ^ 16) :
    u16CheckedMul x y = some (x * y) ∧ (x * y).toNat = x.toNat * y.toNat := by
  refine ⟨if_pos h, ?_⟩
  rw [UInt16.toNat_mul]
  exact Nat.mod_eq_of_lt h

end KaspaMiner
