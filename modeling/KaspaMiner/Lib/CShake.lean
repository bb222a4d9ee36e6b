import Mathlib.Data.List.GetD
import KaspaMiner.Lib.Keccak
import KaspaMiner.Lib.Radix

/-!
# The sponge and cSHAKE256

A sponge over any permutation of 25 lanes and with any rate, on bytes, and on top of it cSHAKE256 of
SP 800-185 with its encodings. The bits that separate the domains and the first bit of the padding
are one byte (`suffix`): `0x04` for cSHAKE, `0x1F` for SHAKE.

What a program that starts from a precomputed state relies on is `sponge_two_blocks`: if the prefix
fills a block, the permuted prefix is where the message begins.
-/

namespace KaspaMiner
namespace Lib
namespace CShake

open Keccak (Lanes)

/-! ## Bytes and lanes -/

def wordBytes (w : UInt64) : List UInt8 := leBytes 8 w.toNat

/-- Lane `i` of a string of bytes, with zeros after its end. -/
def laneWord (bytes : List UInt8) (i : ℕ) : UInt64 :=
  UInt64.ofNat (leValue ((bytes.drop (8 * i)).take 8))

def stateBytes (st : Lanes) : List UInt8 := st.toList.flatMap wordBytes

@[simp] theorem wordBytes_length (w : UInt64) : (wordBytes w).length = 8 := leBytes_length _ _

theorem leValue_wordBytes (w : UInt64) : leValue (wordBytes w) = w.toNat :=
  (leValue_leBytes 8 w.toNat).trans (Nat.mod_eq_of_lt w.toNat_lt)

theorem laneWord_flatMap (ws : List UInt64) (i : ℕ) :
    laneWord (ws.flatMap wordBytes) i = ws.getD i 0 := by
  unfold laneWord
  induction ws generalizing i with
  | nil => simp
  | cons w ws ih =>
    cases i with
    | zero =>
      rw [List.flatMap_cons, Nat.mul_zero, List.drop_zero, List.take_left' (wordBytes_length w),
        leValue_wordBytes]
      simp
    | succ i =>
      have hdrop : (wordBytes w ++ ws.flatMap wordBytes).drop (8 * (i + 1)) =
          (ws.flatMap wordBytes).drop (8 * i) := by
        rw [Nat.mul_succ, Nat.add_comm, ← List.drop_drop, List.drop_left' (wordBytes_length w)]
      rw [List.flatMap_cons, hdrop, ih]
      rfl

theorem take_flatMap (ws : List UInt64) (k : ℕ) :
    (ws.flatMap wordBytes).take (8 * k) = (ws.take k).flatMap wordBytes := by
  induction ws generalizing k with
  | nil => simp
  | cons w ws ih =>
    cases k with
    | zero => simp
    | succ k =>
      rw [List.flatMap_cons, List.take_succ_cons, List.flatMap_cons, ← ih, List.take_append,
        wordBytes_length, List.take_of_length_le (by rw [wordBytes_length]; omega),
        show 8 * (k + 1) - 8 = 8 * k by omega]

theorem flatMap_replicate_zero (n : ℕ) :
    (List.replicate n (0 : UInt64)).flatMap wordBytes = List.replicate (8 * n) 0 := by
  induction n with
  | zero => rfl
  | succ n ih =>
    rw [List.replicate_succ, List.flatMap_cons, ih, Nat.mul_succ, Nat.add_comm,
      List.replicate_add]
    rfl

theorem flatMap_length (ws : List UInt64) : (ws.flatMap wordBytes).length = 8 * ws.length := by
  simp [List.length_flatMap, Nat.mul_comm]

/-- Reading past the end gives zeros, which change nothing. -/
theorem getD_append_xor (ws qs : List UInt64) (i : ℕ) :
    (ws ++ qs).getD i 0 = ws.getD i 0 ^^^ (List.replicate ws.length 0 ++ qs).getD i 0 := by
  by_cases h : i < ws.length
  · have hzero : (List.replicate ws.length (0 : UInt64) ++ qs).getD i 0 = 0 := by
      rw [List.getD_append _ _ _ _ (by simpa using h)]
      simp [h]
    rw [List.getD_append _ _ _ _ h, hzero, UInt64.xor_zero]
  · have hlen : ws.length ≤ i := Nat.le_of_not_lt h
    rw [List.getD_append_right _ _ _ _ hlen, List.getD_append_right _ _ _ _ (by simpa using hlen),
      List.getD_eq_default _ _ hlen, UInt64.zero_xor, List.length_replicate]

/-! ## The sponge -/

section
variable (f : Lanes → Lanes) (rate : ℕ)

def absorbBlock (st : Lanes) (block : List UInt8) : Lanes :=
  f (Vector.ofFn fun i => st.get i ^^^ laneWord block i)

/-- `n` blocks. -/
def absorb : ℕ → Lanes → List UInt8 → Lanes
  | 0, st, _ => st
  | n + 1, st, bytes => absorb n (absorbBlock f st (bytes.take rate)) (bytes.drop rate)

/-- `n` blocks. -/
def squeeze : ℕ → Lanes → List UInt8
  | 0, _ => []
  | n + 1, st => (stateBytes st).take rate ++ squeeze n (f st)

/-- The suffix and `pad10*1`, for a message of `len` bytes. -/
def padding (suffix : UInt8) (len : ℕ) : List UInt8 :=
  if rate - len % rate = 1 then [suffix ||| 0x80]
  else suffix :: List.replicate (rate - len % rate - 2) 0 ++ [0x80]

def padded (suffix : UInt8) (message : List UInt8) : List UInt8 :=
  message ++ padding rate suffix message.length

def sponge (suffix : UInt8) (message : List UInt8) (outLen : ℕ) : List UInt8 :=
  (squeeze f rate (outLen / rate + 1)
    (absorb f rate ((padded rate suffix message).length / rate) (Vector.replicate 25 0)
      (padded rate suffix message))).take outLen

/-- The padding of a message of whole words, when there is room for two more. -/
def paddingWords (suffix : UInt8) (n : ℕ) : List UInt64 :=
  suffix.toUInt64 :: List.replicate n 0 ++ [0x8000000000000000]

theorem absorbBlock_words (st : Lanes) (ws : List UInt64) :
    absorbBlock f st (ws.flatMap wordBytes) =
      f (Vector.ofFn fun i => st.get i ^^^ ws.getD i 0) := by
  unfold absorbBlock
  congr 2
  funext i
  rw [laneWord_flatMap]

theorem wordBytes_suffix (suffix : UInt8) :
    wordBytes suffix.toUInt64 = suffix :: List.replicate 7 0 := by
  have hlt : suffix.toNat < 256 := suffix.toNat_lt
  have hdiv : suffix.toNat / 256 = 0 := Nat.div_eq_of_lt hlt
  unfold wordBytes
  rw [UInt8.toNat_toUInt64, leBytes_succ, hdiv, UInt8.ofNat_toNat]
  rfl

theorem padding_words {suffix : UInt8} {len n : ℕ} (h : rate - len % rate = 8 * (n + 2)) :
    padding rate suffix len = (paddingWords suffix n).flatMap wordBytes := by
  unfold padding paddingWords
  rw [h, if_neg (by omega), show 8 * (n + 2) - 2 = 7 + (8 * n + 7) by omega, List.replicate_add,
    List.replicate_add, List.flatMap_append, List.flatMap_cons, flatMap_replicate_zero,
    wordBytes_suffix, ← List.cons_append, List.append_assoc, List.append_assoc, List.append_assoc]
  rfl

theorem padding_length (suffix : UInt8) (len : ℕ) (h : 0 < rate) :
    len % rate + (padding rate suffix len).length = rate := by
  have hlt : len % rate < rate := Nat.mod_lt _ h
  unfold padding
  split
  · simp only [List.length_singleton]
    omega
  · simp only [List.length_append, List.length_cons, List.length_replicate, List.length_nil]
    omega

/-- A block of prefix, and a message that fits one block with its padding. -/
theorem sponge_two_blocks {suffix : UInt8} {pre message : List UInt8} {outLen : ℕ}
    (hpre : pre.length = rate) (hmessage : message.length < rate) (hout : outLen < rate) :
    sponge f rate suffix (pre ++ message) outLen =
      (stateBytes (absorbBlock f (absorbBlock f (Vector.replicate 25 0) pre)
        (padded rate suffix message))).take outLen := by
  have hpos : 0 < rate := Nat.zero_lt_of_lt hmessage
  have hlen : (pre ++ message).length % rate = message.length % rate := by
    rw [List.length_append, hpre, Nat.add_mod_left]
  have hpadded : padded rate suffix (pre ++ message) = pre ++ padded rate suffix message := by
    unfold padded padding
    rw [hlen, List.append_assoc]
  have hblock : (padded rate suffix message).length = rate := by
    have h := padding_length rate suffix message.length hpos
    rwa [Nat.mod_eq_of_lt hmessage, ← List.length_append] at h
  have htwo : (pre ++ padded rate suffix message).length / rate = 2 := by
    rw [List.length_append, hpre, hblock, ← Nat.two_mul, Nat.mul_div_cancel _ hpos]
  unfold sponge
  rw [hpadded, htwo, Nat.div_eq_of_lt hout]
  show ((stateBytes (absorbBlock f (absorbBlock f _ ((pre ++ _).take rate))
    (((pre ++ _).drop rate).take rate))).take rate ++ []).take outLen = _
  rw [List.append_nil, List.take_take, Nat.min_eq_left hout.le, List.take_left' hpre,
    List.drop_left' hpre, List.take_of_length_le hblock.le]

/-- The same for a message of whole words, of which the first words of the last state come out.
The padding is in the state before the message. -/
theorem sponge_words {suffix : UInt8} {pre : List UInt8} {ws : List UInt64} {n k : ℕ}
    (hpre : pre.length = rate) (hws : 8 * (ws.length + (n + 2)) = rate) (hk : 8 * k < rate) :
    sponge f rate suffix (pre ++ ws.flatMap wordBytes) (8 * k) =
      ((f (Vector.ofFn fun i => ((absorbBlock f (Vector.replicate 25 0) pre).get i ^^^
        (List.replicate ws.length 0 ++ paddingWords suffix n).getD i 0) ^^^
          ws.getD i 0)).toList.take k).flatMap wordBytes := by
  have hlt : (ws.flatMap wordBytes).length < rate := by
    rw [flatMap_length]
    omega
  have hpadding : padding rate suffix (ws.flatMap wordBytes).length =
      (paddingWords suffix n).flatMap wordBytes := by
    apply padding_words
    rw [Nat.mod_eq_of_lt hlt, flatMap_length]
    omega
  have hpadded : padded rate suffix (ws.flatMap wordBytes) =
      (ws ++ paddingWords suffix n).flatMap wordBytes := by
    unfold padded
    rw [hpadding, List.flatMap_append]
  have hlanes : ∀ i : Fin 25, (absorbBlock f (Vector.replicate 25 0) pre).get i ^^^
      (ws ++ paddingWords suffix n).getD i 0 =
        ((absorbBlock f (Vector.replicate 25 0) pre).get i ^^^
          (List.replicate ws.length 0 ++ paddingWords suffix n).getD i 0) ^^^ ws.getD i 0 := by
    intro i
    rw [getD_append_xor, UInt64.xor_comm (ws.getD i 0), UInt64.xor_assoc]
  rw [sponge_two_blocks f rate hpre hlt hk, hpadded, absorbBlock_words, stateBytes, take_flatMap]
  simp only [hlanes]

end

/-! ## cSHAKE256 -/

/-- The bytes of a number, most significant first and at least one, after their count. -/
def leftEncode (n : ℕ) : List UInt8 :=
  let digits := if n = 0 then [0] else (Nat.digits 256 n).reverse
  UInt8.ofNat digits.length :: digits.map UInt8.ofNat

def encodeString (s : List UInt8) : List UInt8 := leftEncode (8 * s.length) ++ s

def bytepad (x : List UInt8) (w : ℕ) : List UInt8 :=
  let z := leftEncode w ++ x
  z ++ List.replicate ((w - z.length % w) % w) 0

/-- `outLen` bytes of cSHAKE256, over the permutation `f`. -/
def cShake256 (f : Lanes → Lanes) (message : List UInt8) (outLen : ℕ) (name custom : List UInt8) :
    List UInt8 :=
  if name = [] ∧ custom = [] then sponge f 136 0x1F message outLen
  else sponge f 136 0x04 (bytepad (encodeString name ++ encodeString custom) 136 ++ message) outLen

/-- The state of cSHAKE256 after its prefix: what a precomputed state should hold. -/
def prefixed (f : Lanes → Lanes) (name custom : List UInt8) : Lanes :=
  absorbBlock f (Vector.replicate 25 0)
    (bytepad (encodeString name ++ encodeString custom) 136)

/-- Four words of cSHAKE256 of a short message of whole words. -/
theorem cShake256_words (f : Lanes → Lanes) {name custom : List UInt8} {ws : List UInt64} {n : ℕ}
    (hcustom : custom ≠ []) (hws : ws.length + (n + 2) = 17)
    (hpre : (bytepad (encodeString name ++ encodeString custom) 136).length = 136) :
    cShake256 f (ws.flatMap wordBytes) 32 name custom =
      ((f (Vector.ofFn fun i => ((prefixed f name custom).get i ^^^
        (List.replicate ws.length 0 ++ paddingWords 0x04 n).getD i 0) ^^^
          ws.getD i 0)).toList.take 4).flatMap wordBytes := by
  unfold cShake256
  rw [if_neg (fun h => hcustom h.2)]
  exact sponge_words f 136 (k := 4) hpre (by omega) (by omega)

end CShake
end Lib
end KaspaMiner
