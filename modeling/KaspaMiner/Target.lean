import KaspaMiner.Rust

/-!
# `target.rs`

`Uint256` is four `u64` words, least significant word first. Its value is `toNat`, and the one
thing the proof of work rests on is proved here: the hand-written order, which compares the words
from the last one backwards, is the order of the values (`Uint256.ble_iff`).
-/

namespace KaspaMiner

/-- Little-endian large integer type. -/
structure Uint256 where
  words : Vector UInt64 4
  deriving DecidableEq

/-- `Hash` is an alias in `main.rs`. -/
abbrev Hash := Uint256

namespace Uint256

instance : Inhabited Uint256 := ⟨⟨Vector.replicate 4 0⟩⟩

def fromU64 (init : UInt64) : Uint256 := ⟨(Vector.replicate 4 0).set 0 init⟩

/-- `u64::from_le_bytes` of one chunk. -/
def wordFromLeBytes (chunk : List UInt8) : UInt64 := UInt64.ofNat (Lib.leValue chunk)

/-- Word `i` is read from the `i`-th chunk of eight bytes. -/
def fromLeBytes (bytes : Vector UInt8 32) : Uint256 :=
  ⟨Vector.ofFn fun i => wordFromLeBytes ((bytes.toList.drop (8 * i.val)).take 8)⟩

def toLeBytes (x : Uint256) : Vector UInt8 32 :=
  ⟨(x.words.toList.flatMap u64Bytes).toArray, by simp [List.length_flatMap]⟩

/-- `{:02x}` at a byte. -/
def fmt02x (c : UInt8) : List Char := (Nat.toDigits 16 c.toNat).leftpad 2 '0'

/-- `fmt::LowerHex`. -/
def lowerHex (x : Uint256) : String := String.ofList (x.toLeBytes.toList.flatMap fmt02x)

/-- `Ord::cmp`: the words are compared lexicographically, both iterators reversed. -/
def cmp (x y : Uint256) : Ordering :=
  List.compareLex compare x.words.toList.reverse y.words.toList.reverse

/-- `<=`, which `PartialOrd` derives from `cmp`. -/
def ble (x y : Uint256) : Bool := (x.cmp y).isLE

/-- `<<`. The two guarded additions of the loop body, word by word. -/
def shl (x : Uint256) (shift : ℕ) : Uint256 :=
  let wordShift := shift / 64
  let bitShift := shift % 64
  ⟨(List.finRange 4).foldl (fun ret i =>
    let original := x.words[i]
    -- Shift
    let ret :=
      if h : bitShift < 64 ∧ i.val + wordShift < 4 then
        have hi := h.2
        ret.set (i.val + wordShift) (ret[i.val + wordShift] + original <<< UInt64.ofNat bitShift)
      else ret
    -- Carry
    if h : bitShift > 0 ∧ i.val + wordShift + 1 < 4 then
      have hi := h.2
      ret.set (i.val + wordShift + 1)
        (ret[i.val + wordShift + 1] + original >>> UInt64.ofNat (64 - bitShift))
    else ret) (Vector.replicate 4 0)⟩

/-- The body of the loop in a build with overflow checks. -/
def shlBodyChecked (x : Uint256) (wordShift bitShift : ℕ) (ret : Vector UInt64 4) (i : Fin 4) :
    Option (Vector UInt64 4) := do
  let original := x.words.get i
  let dst ← usizeChecked (i + wordShift)
  let ret ← (if h : bitShift < 64 ∧ dst < 4 then do
      let shifted ← u64CheckedShl original bitShift
      let sum ← u64CheckedAdd (ret.get ⟨dst, h.2⟩) shifted
      some (ret.set dst sum h.2)
    else some ret)
  let next ← usizeChecked (dst + 1)
  if h : bitShift > 0 ∧ next < 4 then do
    let places ← usizeCheckedSub 64 bitShift
    let carry ← u64CheckedShr original places
    let sum ← u64CheckedAdd (ret.get ⟨next, h.2⟩) carry
    some (ret.set next sum h.2)
  else some ret

def shlChecked (x : Uint256) (shift : ℕ) : Option Uint256 := do
  let ret ← (List.finRange 4).foldlM (x.shlBodyChecked (shift / 64) (shift % 64))
    (Vector.replicate 4 0)
  return ⟨ret⟩

/-! ## The value of a `Uint256` -/

/-- The integer the four words stand for. -/
def toNat (x : Uint256) : ℕ := Nat.ofDigits (2 ^ 64) (x.words.toList.map UInt64.toNat)

theorem compare_word (a b : UInt64) : compare a b = compare a.toNat b.toNat := by
  rw [UInt64.compare_eq_toNat_compare_toNat]

/-- The word-reversed order is the order of the values. -/
theorem cmp_eq_compare (x y : Uint256) : x.cmp y = compare x.toNat y.toNat :=
  Lib.compareLex_reverse compare_word (fun w => w.toNat_lt) (by simp)

theorem ble_iff (x y : Uint256) : x.ble y = true ↔ x.toNat ≤ y.toNat := by
  unfold ble
  rw [cmp_eq_compare, Nat.isLE_compare]

end Uint256

/-- The compact target of a header: an exponent in the top byte, a signed mantissa below it. -/
def u256FromCompactTarget (bits : UInt32) : Uint256 :=
  let unshiftedExpt := bits >>> 24
  let (mant, expt) : UInt32 × UInt32 :=
    if unshiftedExpt ≤ 3 then
      ((bits &&& 0xFFFFFF) >>> ((8 : UInt32) * (3 - unshiftedExpt)), 0)
    else
      (bits &&& 0xFFFFFF, (8 : UInt32) * ((bits >>> 24) - 3))
  -- The mantissa is signed but may not be negative
  if mant > 0x7FFFFF then
    default
  else
    (Uint256.fromU64 mant.toUInt64).shl expt.toNat

/-- The same in a build with overflow checks. -/
def u256FromCompactTargetChecked (bits : UInt32) : Option Uint256 := do
  let unshiftedExpt ← u32CheckedShr bits 24
  let (mant, expt) ← (if unshiftedExpt ≤ 3 then do
      let back ← u32CheckedSub 3 unshiftedExpt
      let places ← u32CheckedMul 8 back
      let mant ← u32CheckedShr (bits &&& 0xFFFFFF) places
      some (mant, (0 : UInt32))
    else do
      let expt ← u32CheckedShr bits 24
      let excess ← u32CheckedSub expt 3
      let places ← u32CheckedMul 8 excess
      some (bits &&& 0xFFFFFF, places))
  if mant > 0x7FFFFF then
    some default
  else
    (Uint256.fromU64 mant.toUInt64).shlChecked expt.toNat

end KaspaMiner
