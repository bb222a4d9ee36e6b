import KaspaMiner.Proto
import KaspaMiner.Pow.Hasher
import KaspaMiner.Pow.Hex

/-!
# `serialize_header`

A panic ends the thread that meets it, so the functions that may panic answer an `Except Panic`;
the constructors of `Panic` are the ways the sources panic.

`serialize_header` decodes every hash into one 32-byte array and feeds the hasher from it, and the
blue work goes through a slice of the same array. The array is threaded here as `hash`, next to
the hasher.
-/

namespace KaspaMiner
namespace Pow

inductive Panic where
  /-- `unwrap` on the `TryFromIntError` of a conversion to `u16`. -/
  | tryFromInt
  /-- `unwrap` on a `FromHexError`. -/
  | fromHex (e : FromHexError)
  /-- A slice that ends behind the end of its array. -/
  | sliceEnd (stop len : ℕ)
  | expect (msg : String)

/-- `decode_to_slice(data, &mut hash).unwrap()` -/
def decodeUnwrap (data : List UInt8) (hash : List UInt8) : Except Panic (List UInt8) :=
  match decodeToSlice data hash with
  | (.ok (), hash) => .ok hash
  | (.error e, _) => .error (.fromHex e)

/-- `decode_to_slice(data, &mut hash[..n]).unwrap()` -/
def decodeUnwrapTo (data : List UInt8) (hash : List UInt8) (n : ℕ) :
    Except Panic (List UInt8) := do
  if hash.length < n then
    throw (.sliceEnd n hash.length)
  let out ← decodeUnwrap data (hash.take n)
  return out ++ hash.drop n

/-- `header.version.try_into().unwrap()` -/
def tryIntoU16 (version : UInt32) : Except Panic UInt16 :=
  if version.toNat < 2 ^ 16 then .ok version.toUInt16 else .error .tryFromInt

section
variable {H : Type} [Hasher H]

/-- Decode one hash into the array and feed the array. -/
def updateHash (hasher : H) (hash : List UInt8) (hashString : String) :
    Except Panic (H × List UInt8) := do
  let hash ← decodeUnwrap (asRef hashString) hash
  return (update hasher hash, hash)

/-- `for hash_string in &parent.parent_hashes` -/
def serializeLevel : List String → H → List UInt8 → Except Panic (H × List UInt8)
  | [], hasher, hash => .ok (hasher, hash)
  | hashString :: rest, hasher, hash => do
    let (hasher, hash) ← updateHash hasher hash hashString
    serializeLevel rest hasher hash

/-- `for parent in &header.parents` -/
def serializeParents : List RpcBlockLevelParents → H → List UInt8 → Except Panic (H × List UInt8)
  | [], hasher, hash => .ok (hasher, hash)
  | parent :: rest, hasher, hash => do
    let hasher := update hasher (u64Bytes (UInt64.ofNat parent.parentHashes.len))
    let (hasher, hash) ← serializeLevel parent.parentHashes.toList hasher hash
    serializeParents rest hasher hash

/-- The blue work, decoded into the front of the array: an odd-length text gets a `'0'` first. -/
def decodeBlueWork (blueWork : String) (hash : List UInt8) : Except Panic (List UInt8) := do
  -- I'm assuming here BlueWork will never pass 256 bits.
  let blueWorkLen := ((asRef blueWork).length + 1) / 2
  if (asRef blueWork).length % 2 = 0 then
    decodeUnwrapTo (asRef blueWork) hash blueWorkLen
  else
    decodeUnwrapTo (asRef ("0" ++ blueWork)) hash blueWorkLen

def serializeHeader (hasher : H) (header : RpcBlockHeader) (forPrePow : Bool) : Except Panic H := do
  let (nonce, timestamp) : UInt64 × Int64 :=
    if forPrePow then (0, 0) else (header.nonce, header.timestamp)
  let numParents := header.parents.len
  let version ← tryIntoU16 header.version
  let hasher := update (update hasher (u16Bytes version)) (u64Bytes (UInt64.ofNat numParents))

  let hash := List.replicate 32 0
  let (hasher, hash) ← serializeParents header.parents.toList hasher hash
  let (hasher, hash) ← updateHash hasher hash header.hashMerkleRoot
  let (hasher, hash) ← updateHash hasher hash header.acceptedIdMerkleRoot
  let (hasher, hash) ← updateHash hasher hash header.utxoCommitment

  let hasher := update hasher (i64Bytes timestamp)
  let hasher := update hasher (u32Bytes header.bits)
  let hasher := update hasher (u64Bytes nonce)
  let hasher := update hasher (u64Bytes header.daaScore)
  let hasher := update hasher (u64Bytes header.blueScore)

  let blueWorkLen := ((asRef header.blueWork).length + 1) / 2
  let hash ← decodeBlueWork header.blueWork hash
  let hasher := update hasher (u64Bytes (UInt64.ofNat blueWorkLen))
  let hasher := update hasher (hash.take blueWorkLen)

  let (hasher, _) ← updateHash hasher hash header.pruningPoint
  return hasher

end

/-- The pre-pow stream is written without the nonce. -/
theorem serializeHeader_withNonce {H : Type} [Hasher H] (hasher : H) (header : RpcBlockHeader)
    (n : UInt64) :
    serializeHeader hasher { header with nonce := n } true = serializeHeader hasher header true :=
  rfl

end Pow
end KaspaMiner
