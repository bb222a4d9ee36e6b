import KaspaMiner.Lib.Settles
import KaspaMiner.Pow.State

/-!
# What `serialize_header` writes

`headerBytes` is the stream a header should be written as, field by field; it knows no hasher, no
loop and no buffer. `Serializable` is the condition on the header's texts and version.

`serializeHeader_settles` is the whole of it: on any hasher, the serialiser succeeds exactly on a
`Serializable` header, and has then fed the hasher pieces whose concatenation is `headerBytes`.
The proof goes through the code statement by statement; the only thing it carries along the way
about the reused array is its length, which is what makes the stale bytes in it harmless.
-/

namespace KaspaMiner
namespace Pow

open Lib (Settles)

/-! ## The stream -/

/-- The bytes of a hash given as text. -/
def hexBytes (s : String) : List UInt8 := Lib.unhex s.toList

/-- An odd-length text gets one `'0'` in front. -/
def padOdd (cs : List Char) : List Char := if cs.length % 2 = 0 then cs else '0' :: cs

def blueWorkBytes (blueWork : String) : List UInt8 := Lib.unhex (padOdd blueWork.toList)

/-- One level of parents: how many, then each. -/
def levelBytes (level : RpcBlockLevelParents) : List UInt8 :=
  u64Bytes (UInt64.ofNat level.parentHashes.len) ++ level.parentHashes.toList.flatMap hexBytes

/-- The stream of a header. -/
def headerBytes (header : RpcBlockHeader) (forPrePow : Bool) : List UInt8 :=
  u16Bytes header.version.toUInt16 ++
  (u64Bytes (UInt64.ofNat header.parents.len) ++ header.parents.toList.flatMap levelBytes) ++
  hexBytes header.hashMerkleRoot ++
  hexBytes header.acceptedIdMerkleRoot ++
  hexBytes header.utxoCommitment ++
  i64Bytes (if forPrePow then 0 else header.timestamp) ++
  u32Bytes header.bits ++
  u64Bytes (if forPrePow then 0 else header.nonce) ++
  u64Bytes header.daaScore ++
  u64Bytes header.blueScore ++
  (u64Bytes (UInt64.ofNat (blueWorkBytes header.blueWork).length) ++
    blueWorkBytes header.blueWork) ++
  hexBytes header.pruningPoint

/-- What the serialiser asks of a header. -/
structure Serializable (header : RpcBlockHeader) : Prop where
  version : header.version.toNat ≤ 65535
  parents : ∀ level ∈ header.parents.toList, ∀ s ∈ level.parentHashes.toList, IsHexText s 64
  hashMerkleRoot : IsHexText header.hashMerkleRoot 64
  acceptedIdMerkleRoot : IsHexText header.acceptedIdMerkleRoot 64
  utxoCommitment : IsHexText header.utxoCommitment 64
  blueWork : header.blueWork.toList.length ≤ 64 ∧ ∀ c ∈ header.blueWork.toList, Lib.IsHex c
  pruningPoint : IsHexText header.pruningPoint 64

theorem hexBytes_length {s : String} {n : ℕ} (h : IsHexText s (2 * n)) :
    (hexBytes s).length = n := by
  unfold hexBytes
  rw [Lib.unhex_length, h.1]
  omega

theorem padOdd_length (cs : List Char) : (padOdd cs).length = 2 * ((cs.length + 1) / 2) := by
  unfold padOdd
  split
  · omega
  · rw [List.length_cons]
    omega

theorem blueWorkBytes_length (s : String) :
    (blueWorkBytes s).length = (s.toList.length + 1) / 2 := by
  unfold blueWorkBytes
  rw [Lib.unhex_length, padOdd_length]
  omega

/-! ## The decoding calls -/

theorem decodeUnwrap_settles (s : String) {hash : List UInt8} {n : ℕ} (hlen : hash.length = n) :
    Settles (decodeUnwrap (asRef s) hash) (IsHexText s (2 * n)) (· = hexBytes s) := by
  subst hlen
  by_cases h : IsHexText s (2 * hash.length)
  · unfold decodeUnwrap
    rw [decodeToSlice_of_isHexText h]
    exact ⟨h, rfl⟩
  · have hne : (decodeToSlice (asRef s) hash).1 ≠ .ok () := mt decodeToSlice_ok_iff.mp h
    unfold decodeUnwrap
    rcases hd : decodeToSlice (asRef s) hash with ⟨_ | ⟨⟩, hash'⟩
    · exact h
    · exact absurd (by rw [hd]) hne

section
variable {H : Type} [Hasher H]

/-- What every statement of the serialiser keeps: the hasher was fed `pieces`, and the array still
has its 32 bytes, whatever they are. -/
def Fed (hasher : H) (pieces : List (List UInt8)) (r : H × List UInt8) : Prop :=
  r.1 = feed hasher pieces ∧ r.2.length = 32

theorem updateHash_settles (hasher : H) {hash : List UInt8} (hlen : hash.length = 32) (s : String) :
    Settles (updateHash hasher hash s) (IsHexText s 64) (Fed hasher [hexBytes s]) := by
  have hd := (decodeUnwrap_settles s hlen).and_self
  refine (hd.bind (q := True) fun a ha => Settles.pure ?_).congr (iff_of_eq (and_true _))
  obtain ⟨hs, rfl⟩ := ha
  exact ⟨rfl, hexBytes_length (n := 32) hs⟩

theorem serializeLevel_settles : ∀ (hashes : List String) (hasher : H) {hash : List UInt8},
    hash.length = 32 → Settles (serializeLevel hashes hasher hash)
      (∀ s ∈ hashes, IsHexText s 64) (Fed hasher (hashes.map hexBytes))
  | [], hasher, hash, hlen => ⟨by simp, rfl, hlen⟩
  | s :: rest, hasher, hash, hlen => by
    refine ((updateHash_settles hasher hlen s).bind (q := ∀ t ∈ rest, IsHexText t 64)
      fun (hasher', hash') hr => ?_).congr (by rw [List.forall_mem_cons])
    obtain ⟨rfl, hlen'⟩ := hr
    exact serializeLevel_settles rest _ hlen'

theorem serializeParents_settles : ∀ (parents : List RpcBlockLevelParents) (hasher : H)
    {hash : List UInt8}, hash.length = 32 → Settles (serializeParents parents hasher hash)
      (∀ level ∈ parents, ∀ s ∈ level.parentHashes.toList, IsHexText s 64)
      (Fed hasher (parents.flatMap fun level =>
        u64Bytes (UInt64.ofNat level.parentHashes.len) :: level.parentHashes.toList.map hexBytes))
  | [], hasher, hash, hlen => ⟨by simp, rfl, hlen⟩
  | level :: rest, hasher, hash, hlen => by
    refine ((serializeLevel_settles level.parentHashes.toList _ hlen).bind
      (q := ∀ l ∈ rest, ∀ s ∈ l.parentHashes.toList, IsHexText s 64)
      fun (hasher', hash') hr => ?_).congr (by rw [List.forall_mem_cons])
    obtain ⟨rfl, hlen'⟩ := hr
    refine (serializeParents_settles rest _ hlen').imp fun r hr => ⟨?_, hr.2⟩
    rw [hr.1, List.flatMap_cons, feed_append, feed_cons]

end

/-! ## The blue work -/

/-- What the array holds in front of the rest: the decoded text, and behind it what was there. -/
theorem decodeUnwrapTo_settles (s : String) {hash : List UInt8} (hlen : hash.length = 32) (n : ℕ) :
    Settles (decodeUnwrapTo (asRef s) hash n) (n ≤ 32 ∧ IsHexText s (2 * n))
      (· = hexBytes s ++ hash.drop n) := by
  unfold decodeUnwrapTo
  by_cases hn : hash.length < n
  · rw [if_pos hn]
    exact fun h => absurd h.1 (by omega)
  · rw [if_neg hn]
    have htake : (hash.take n).length = n := by rw [List.length_take]; omega
    refine ((decodeUnwrap_settles s htake).bind (q := True) ?_).congr ?_
    · intro out hout
      exact Settles.pure (by rw [hout])
    · rw [and_true, and_iff_right (by omega)]

/-- An even-length text is hexadecimal text of its own length in bytes… -/
theorem isHexText_even {s : String} (heven : (asRef s).length % 2 = 0) :
    ((asRef s).length + 1) / 2 ≤ 32 ∧ IsHexText s (2 * (((asRef s).length + 1) / 2)) ↔
      s.toList.length ≤ 64 ∧ ∀ c ∈ s.toList, Lib.IsHex c := by
  constructor
  · rintro ⟨hle, hlen, hhex⟩
    exact ⟨by omega, hhex⟩
  · rintro ⟨hle, hhex⟩
    have hlen := asRef_length hhex
    exact ⟨by omega, by omega, hhex⟩

/-- …and an odd-length one is, with the digit in front, of one more. -/
theorem isHexText_odd {s : String} (hodd : (asRef s).length % 2 ≠ 0) :
    ((asRef s).length + 1) / 2 ≤ 32 ∧ IsHexText ("0" ++ s) (2 * (((asRef s).length + 1) / 2)) ↔
      s.toList.length ≤ 64 ∧ ∀ c ∈ s.toList, Lib.IsHex c := by
  have hcons : ("0" ++ s).toList = '0' :: s.toList := by rw [String.toList_append]; rfl
  unfold IsHexText
  rw [hcons, List.forall_mem_cons, List.length_cons]
  constructor
  · rintro ⟨hle, hlen, -, hhex⟩
    exact ⟨by omega, hhex⟩
  · rintro ⟨hle, hhex⟩
    have hlen := asRef_length hhex
    exact ⟨by omega, by omega, by decide, hhex⟩

/-- The slice the blue work is read back through holds the decoded blue work and nothing else. -/
theorem decodeBlueWork_settles (s : String) {hash : List UInt8} (hlen : hash.length = 32) :
    Settles (decodeBlueWork s hash) (s.toList.length ≤ 64 ∧ ∀ c ∈ s.toList, Lib.IsHex c)
      fun hash' => hash'.length = 32 ∧ ((asRef s).length + 1) / 2 = (blueWorkBytes s).length ∧
        hash'.take (((asRef s).length + 1) / 2) = blueWorkBytes s := by
  -- What is decoded is as long as the slice, so the stale rest of the array is behind it.
  have hread : ∀ {n : ℕ} {front : List UInt8}, front = blueWorkBytes s → n ≤ 32 →
      (∀ c ∈ s.toList, Lib.IsHex c) → n = ((asRef s).length + 1) / 2 →
      (front ++ hash.drop n).length = 32 ∧ n = (blueWorkBytes s).length ∧
        (front ++ hash.drop n).take n = blueWorkBytes s := by
    intro n front hfront hn hhex hnlen
    have hblue : (blueWorkBytes s).length = n := by
      rw [blueWorkBytes_length, ← asRef_length hhex, hnlen]
    subst hfront
    refine ⟨?_, hblue.symm, List.take_left' hblue⟩
    rw [List.length_append, List.length_drop, hblue]
    omega
  unfold decodeBlueWork
  by_cases heven : (asRef s).length % 2 = 0
  · rw [if_pos heven]
    apply ((decodeUnwrapTo_settles s hlen _).congr (isHexText_even heven)).and_self.imp
    rintro hash' ⟨⟨hle, hhex⟩, rfl⟩
    -- An even-length text is decoded as it is…
    have hlen' := asRef_length hhex
    refine hread ?_ (by omega) hhex rfl
    unfold blueWorkBytes
    rw [padOdd, if_pos (by omega)]
    rfl
  · rw [if_neg heven]
    apply ((decodeUnwrapTo_settles _ hlen _).congr (isHexText_odd heven)).and_self.imp
    rintro hash' ⟨⟨hle, hhex⟩, rfl⟩
    -- …and an odd-length one behind a `'0'`.
    have hlen' := asRef_length hhex
    refine hread ?_ (by omega) hhex rfl
    unfold blueWorkBytes
    rw [padOdd, if_neg (by omega), hexBytes, String.toList_append]
    rfl

/-! ## The header -/

theorem tryIntoU16_settles (version : UInt32) :
    Settles (tryIntoU16 version) (version.toNat ≤ 65535) (· = version.toUInt16) := by
  rw [tryIntoU16]
  split
  · exact ⟨by omega, rfl⟩
  · exact fun h => by omega

/-- The pieces the serialiser feeds, one for each `update`. -/
def headerPieces (header : RpcBlockHeader) (forPrePow : Bool) : List (List UInt8) :=
  [u16Bytes header.version.toUInt16, u64Bytes (UInt64.ofNat header.parents.len)] ++
  (header.parents.toList.flatMap fun level =>
    u64Bytes (UInt64.ofNat level.parentHashes.len) :: level.parentHashes.toList.map hexBytes) ++
  [hexBytes header.hashMerkleRoot, hexBytes header.acceptedIdMerkleRoot,
    hexBytes header.utxoCommitment,
    i64Bytes (if forPrePow then 0 else header.timestamp), u32Bytes header.bits,
    u64Bytes (if forPrePow then 0 else header.nonce), u64Bytes header.daaScore,
    u64Bytes header.blueScore,
    u64Bytes (UInt64.ofNat (blueWorkBytes header.blueWork).length), blueWorkBytes header.blueWork,
    hexBytes header.pruningPoint]

theorem headerPieces_flatten (header : RpcBlockHeader) (forPrePow : Bool) :
    (headerPieces header forPrePow).flatten = headerBytes header forPrePow := by
  have hlevels : ∀ parents : List RpcBlockLevelParents, (parents.flatMap fun level =>
      u64Bytes (UInt64.ofNat level.parentHashes.len) ::
        level.parentHashes.toList.map hexBytes).flatten = parents.flatMap levelBytes := by
    intro parents
    induction parents with
    | nil => rfl
    | cons level rest ih =>
      rw [List.flatMap_cons, List.flatten_append, ih, List.flatten_cons, ← List.flatMap_def,
        List.flatMap_cons, levelBytes]
  unfold headerPieces
  rw [headerBytes, List.flatten_append, List.flatten_append, hlevels]
  simp only [List.flatten_cons, List.flatten_nil, List.append_nil, List.append_assoc]

theorem serializable_iff (header : RpcBlockHeader) : Serializable header ↔
    header.version.toNat ≤ 65535 ∧
    (∀ level ∈ header.parents.toList, ∀ s ∈ level.parentHashes.toList, IsHexText s 64) ∧
    IsHexText header.hashMerkleRoot 64 ∧ IsHexText header.acceptedIdMerkleRoot 64 ∧
    IsHexText header.utxoCommitment 64 ∧
    (header.blueWork.toList.length ≤ 64 ∧ ∀ c ∈ header.blueWork.toList, Lib.IsHex c) ∧
    IsHexText header.pruningPoint 64 ∧ True :=
  ⟨fun ⟨h₁, h₂, h₃, h₄, h₅, h₆, h₇⟩ => ⟨h₁, h₂, h₃, h₄, h₅, h₆, h₇, trivial⟩,
    fun ⟨h₁, h₂, h₃, h₄, h₅, h₆, h₇, _⟩ => ⟨h₁, h₂, h₃, h₄, h₅, h₆, h₇⟩⟩

instance (header : RpcBlockHeader) : Decidable (Serializable header) :=
  decidable_of_iff' _ (serializable_iff header)

/-- **The serialiser**: it succeeds exactly on a `Serializable` header, and has then fed the
hasher the pieces of `headerPieces`. -/
theorem serializeHeader_settles {H : Type} [Hasher H] (hasher : H) (header : RpcBlockHeader)
    (forPrePow : Bool) :
    Settles (serializeHeader hasher header forPrePow) (Serializable header)
      (· = feed hasher (headerPieces header forPrePow)) := by
  refine Settles.congr ?_ (serializable_iff header).symm
  unfold serializeHeader
  apply (tryIntoU16_settles _).bind
  intro version hversion
  apply (serializeParents_settles _ _ (List.length_replicate ..)).bind
  intro r₁ h₁
  apply (updateHash_settles _ h₁.2 _).bind
  intro r₂ h₂
  apply (updateHash_settles _ h₂.2 _).bind
  intro r₃ h₃
  apply (updateHash_settles _ h₃.2 _).bind
  intro r₄ h₄
  apply (decodeBlueWork_settles _ h₄.2).bind
  intro r₅ h₅
  refine (updateHash_settles _ h₅.1 _).bind fun r₆ h₆ => Settles.pure ?_
  rw [h₆.1, h₅.2.2, h₅.2.1, h₄.1, h₃.1, h₂.1, h₁.1, hversion]
  rw [headerPieces, feed_append, feed_append]
  cases forPrePow <;> rfl

section
variable {H : Type} [Hasher H] {header : RpcBlockHeader}

theorem serializeHeader_ok (hasher : H) (h : Serializable header) (forPrePow : Bool) :
    serializeHeader hasher header forPrePow = .ok (feed hasher (headerPieces header forPrePow)) :=
  (serializeHeader_settles hasher header forPrePow).eq_ok h

theorem serializable_of_ok {hasher out : H} {forPrePow : Bool}
    (h : serializeHeader hasher header forPrePow = .ok out) : Serializable header :=
  ((serializeHeader_settles hasher header forPrePow).of_ok h).1

end

/-- On the hasher that keeps what it is given, the stream itself. -/
theorem serializeHeader_buf {header : RpcBlockHeader} (h : Serializable header) (buf : Buf)
    (forPrePow : Bool) :
    serializeHeader buf header forPrePow = .ok ⟨buf.bytes ++ headerBytes header forPrePow⟩ := by
  rw [serializeHeader_ok buf h, feed_buf, headerPieces_flatten]

theorem serializeHeader_headerHasher {header : RpcBlockHeader} (h : Serializable header)
    (forPrePow : Bool) : serializeHeader HeaderHasher.new header forPrePow =
      .ok { HeaderHasher.new with written := headerBytes header forPrePow } := by
  rw [serializeHeader_ok _ h, feed_headerHasher, headerPieces_flatten]
  rfl

/-- **What the serialiser writes, and when.** On any hasher it succeeds exactly on a
`Serializable` header; what it has fed the hasher then is, call after call, `headerPieces`, and
these concatenate to `headerBytes` — whose every byte is one of the header's. -/
theorem serializeHeader_writes (header : RpcBlockHeader) (forPrePow : Bool) {H : Type} [Hasher H]
    (hasher : H) :
    ((∃ out, serializeHeader hasher header forPrePow = .ok out) ↔ Serializable header) ∧
    (∀ out, serializeHeader hasher header forPrePow = .ok out →
      out = feed hasher (headerPieces header forPrePow)) ∧
    (headerPieces header forPrePow).flatten = headerBytes header forPrePow ∧
    ∀ buf out : Buf, serializeHeader buf header forPrePow = .ok out →
      out.bytes = buf.bytes ++ headerBytes header forPrePow := by
  refine ⟨(serializeHeader_settles hasher header forPrePow).ok_iff, ?_,
    headerPieces_flatten header forPrePow, ?_⟩
  · intro out hout
    exact ((serializeHeader_settles hasher header forPrePow).of_ok hout).2
  · intro buf out hout
    rw [serializeHeader_buf (serializable_of_ok hout)] at hout
    injection hout with hout
    rw [← hout]

/-! ## The pre-pow hash -/

theorem prePowHash_ok {P : Prims} {header : RpcBlockHeader} (h : Serializable header) :
    prePowHash P header = .ok (Uint256.fromLeBytes
      (P.blake2b BLOCK_HASH_DOMAIN (headerBytes header true))) := by
  unfold prePowHash
  rw [serializeHeader_headerHasher h]
  rfl

theorem prePowHash_withNonce (P : Prims) (header : RpcBlockHeader) (n : UInt64) :
    prePowHash P { header with nonce := n } = prePowHash P header := by
  unfold prePowHash
  rw [serializeHeader_withNonce]

theorem serializable_of_prePowHash {P : Prims} {header : RpcBlockHeader} {hash : Hash}
    (h : prePowHash P header = .ok hash) : Serializable header := by
  unfold prePowHash at h
  cases hs : serializeHeader HeaderHasher.new header true with
  | error p => rw [hs] at h; exact absurd h (by simp [bind, Except.bind])
  | ok hasher => exact serializable_of_ok hs

end Pow
end KaspaMiner
