import KaspaMiner.Lib.CShake
import KaspaMiner.Proof.Bench

/-!
# The precomputed sponges

Both hashers start in the middle of a cSHAKE256: their states have absorbed the prefix block, and
the padding of the message is already in them, since a message of 80 bytes and one of 32 are always
padded the same way. What is left at run time is to xor the words of the message into their lanes
and permute once.

The constants are checked by running Keccak-f[1600] on the prefix block; the rest is for every
message.
-/

namespace KaspaMiner
namespace Pow

open Lib.CShake (wordBytes cShake256 prefixed paddingWords)

/-- `b"ProofOfWorkHash"`. -/
def PROOF_OF_WORK_DOMAIN : List UInt8 := asRef "ProofOfWorkHash"

/-- `b"HeavyHash"`. -/
def HEAVY_HASH_DOMAIN : List UInt8 := asRef "HeavyHash"

/-! ## Bytes -/

theorem toLeBytes_toList (x : Uint256) :
    x.toLeBytes.toList = x.words.toList.flatMap wordBytes := rfl

theorem stateHash_toLeBytes (state : Vector UInt64 25) :
    (stateHash state).toLeBytes.toList = (state.toList.take 4).flatMap wordBytes := by
  rw [toLeBytes_toList]
  congr 1
  apply List.ext_getElem
  · simp
  · intro i hi hi'
    simp [stateHash]

/-! ## The message in its lanes -/

/-- The words of `pre_pow_hash || timestamp || [0; 32] || nonce`. -/
def powWords (prePowHash : Hash) (timestamp nonce : UInt64) : List UInt64 :=
  prePowHash.words.toList ++ [timestamp, 0, 0, 0, 0, nonce]

theorem powWords_bytes (prePowHash : Hash) (timestamp nonce : UInt64) :
    prePowHash.toLeBytes.toList ++ u64Bytes timestamp ++ List.replicate 32 0 ++ u64Bytes nonce =
      (powWords prePowHash timestamp nonce).flatMap wordBytes := by
  unfold powWords
  rw [List.flatMap_append, toLeBytes_toList, List.append_assoc, List.append_assoc]
  rfl

theorem xorWords_eq (state : Vector UInt64 25) (words : Vector UInt64 4) :
    xorWords state words = Vector.ofFn fun i => state.get i ^^^ words.toList.getD i 0 := by
  ext i hi
  by_cases h : i < 4
  · simp only [xorWords, h, dite_true, Vector.getElem_ofFn]
    rw [List.getD_eq_getElem _ _ (by simpa using h)]
    rfl
  · simp only [xorWords, h, dite_false, Vector.getElem_ofFn]
    rw [List.getD_eq_default _ _ (by simpa using h), UInt64.xor_zero]
    rfl

theorem finalizeWithNonce_words (P : Prims) (prePowHash : Hash) (timestamp nonce : UInt64) :
    (PowHasher.new prePowHash timestamp).finalizeWithNonce P nonce =
      stateHash (P.f1600 (Vector.ofFn fun i => PowHasher.INITIAL_STATE.get i ^^^
        (powWords prePowHash timestamp nonce).getD i 0)) := by
  have hstate : (PowHasher.new prePowHash timestamp).state.set 9
      ((PowHasher.new prePowHash timestamp).state[9] ^^^ nonce) =
        Vector.ofFn fun i => PowHasher.INITIAL_STATE.get i ^^^
          (powWords prePowHash timestamp nonce).getD i 0 := by
    rw [PowHasher.new, xorWords_eq]
    ext i hi
    simp only [Vector.getElem_set, Vector.getElem_ofFn, powWords]
    by_cases h : i < 4
    · have h9 : 9 ≠ i := by omega
      have h4 : 4 ≠ i := by omega
      rw [if_neg h9, if_neg h4, List.getD_append _ _ _ _ (by simpa using h)]
    · rw [List.getD_append_right _ _ _ _ (by simpa using h)]
      interval_cases i <;> simp
  rw [PowHasher.finalizeWithNonce, hstate]

/-! ## The constants -/

theorem PowHasher.INITIAL_STATE_eq : PowHasher.INITIAL_STATE = Vector.ofFn fun i =>
    (prefixed Lib.Keccak.f1600 [] PROOF_OF_WORK_DOMAIN).get i ^^^
      (List.replicate 10 0 ++ paddingWords 0x04 5).getD i 0 := by
  decide +kernel

theorem HeavyHasher.INITIAL_STATE_eq : HeavyHasher.INITIAL_STATE = Vector.ofFn fun i =>
    (prefixed Lib.Keccak.f1600 [] HEAVY_HASH_DOMAIN).get i ^^^
      (List.replicate 4 0 ++ paddingWords 0x04 11).getD i 0 := by
  decide +kernel

/-- Their prefixes are one block each. -/
theorem prefix_length {custom : List UInt8}
    (h : custom = PROOF_OF_WORK_DOMAIN ∨ custom = HEAVY_HASH_DOMAIN) :
    (Lib.CShake.bytepad (Lib.CShake.encodeString [] ++ Lib.CShake.encodeString custom) 136).length =
      136 := by
  rcases h with rfl | rfl
  · decide +kernel
  · decide +kernel

/-! ## The hashers -/

theorem PowHasher.finalizeWithNonce_eq {P : Prims} (hf : P.f1600 = Lib.Keccak.f1600)
    (prePowHash : Hash) (timestamp nonce : UInt64) :
    ((PowHasher.new prePowHash timestamp).finalizeWithNonce P nonce).toLeBytes.toList =
      cShake256 Lib.Keccak.f1600 (prePowHash.toLeBytes.toList ++ u64Bytes timestamp ++
        List.replicate 32 0 ++ u64Bytes nonce) 32 [] PROOF_OF_WORK_DOMAIN := by
  have hlen : (powWords prePowHash timestamp nonce).length = 10 := by simp [powWords]
  have hne : PROOF_OF_WORK_DOMAIN ≠ [] := by decide
  rw [finalizeWithNonce_words, hf, stateHash_toLeBytes, powWords_bytes, PowHasher.INITIAL_STATE_eq,
    Lib.CShake.cShake256_words Lib.Keccak.f1600 hne (n := 5) (by omega) (prefix_length (.inl rfl)),
    hlen]
  simp only [get_ofFn]

theorem HeavyHasher.hash_eq {P : Prims} (hf : P.f1600 = Lib.Keccak.f1600) (inHash : Hash) :
    (HeavyHasher.hash P inHash).toLeBytes.toList =
      cShake256 Lib.Keccak.f1600 inHash.toLeBytes.toList 32 [] HEAVY_HASH_DOMAIN := by
  have hlen : inHash.words.toList.length = 4 := by simp
  have hne : HEAVY_HASH_DOMAIN ≠ [] := by decide
  unfold HeavyHasher.hash
  rw [hf, stateHash_toLeBytes, xorWords_eq, toLeBytes_toList, HeavyHasher.INITIAL_STATE_eq,
    Lib.CShake.cShake256_words Lib.Keccak.f1600 hne (n := 11) (by omega) (prefix_length (.inr rfl)),
    hlen]
  simp only [get_ofFn]

/-- **The precomputed sponges are cSHAKE256.** When `f1600` is Keccak-f[1600], both hashes are, read
little-endian, the first 32 bytes of cSHAKE256 of their message under their domain, for every
pre-pow hash, timestamp and nonce, and for every input of `HeavyHasher`. -/
theorem hashers_eq_cShake256 {P : Prims} (hf : P.f1600 = Lib.Keccak.f1600) :
    (∀ (prePowHash : Hash) (timestamp nonce : UInt64),
      ((PowHasher.new prePowHash timestamp).finalizeWithNonce P nonce).toLeBytes.toList =
        cShake256 Lib.Keccak.f1600 (prePowHash.toLeBytes.toList ++ u64Bytes timestamp ++
          List.replicate 32 0 ++ u64Bytes nonce) 32 [] PROOF_OF_WORK_DOMAIN) ∧
    ∀ inHash : Hash, (HeavyHasher.hash P inHash).toLeBytes.toList =
      cShake256 Lib.Keccak.f1600 inHash.toLeBytes.toList 32 [] HEAVY_HASH_DOMAIN :=
  ⟨PowHasher.finalizeWithNonce_eq hf, HeavyHasher.hash_eq hf⟩

theorem hashers_eq_cShake256_bench :
    ((PowHasher.new default 5435345234).finalizeWithNonce benchPrims 432432432).toLeBytes.toList =
      cShake256 Lib.Keccak.f1600 ((default : Hash).toLeBytes.toList ++ u64Bytes 5435345234 ++
        List.replicate 32 0 ++ u64Bytes 432432432) 32 [] PROOF_OF_WORK_DOMAIN :=
  (hashers_eq_cShake256 (P := benchPrims) rfl).1 default 5435345234 432432432

end Pow
end KaspaMiner
