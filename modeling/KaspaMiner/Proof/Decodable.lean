import KaspaMiner.Lib.Delimited
import KaspaMiner.Proof.Bench

/-!
# The header stream can be read back

Two headers are decoded in lockstep from the front of their streams. Every fixed-width field
delimits itself, a list of parents and the blue work are delimited by the counts in front of them,
and a count is delimited because a `Vec` is never longer than a `u64` can say. What the two
streams have in common is `SameStream`, and what is left of them behind it is the same too — which
is both unique decoding and prefix-freeness (`headerBytes_lockstep`).
-/

namespace KaspaMiner
namespace Pow

open Lib (Delimited)

/-! ## The fields -/

/-- The decoded hashes of one level. -/
def levelHashes (level : RpcBlockLevelParents) : List (List UInt8) :=
  level.parentHashes.toList.map hexBytes

/-- What two headers whose streams are equal agree on. -/
structure SameStream (forPrePow : Bool) (h₁ h₂ : RpcBlockHeader) : Prop where
  version : h₁.version = h₂.version
  numParents : h₁.parents.len = h₂.parents.len
  parents : h₁.parents.toList.map levelHashes = h₂.parents.toList.map levelHashes
  hashMerkleRoot : hexBytes h₁.hashMerkleRoot = hexBytes h₂.hashMerkleRoot
  acceptedIdMerkleRoot : hexBytes h₁.acceptedIdMerkleRoot = hexBytes h₂.acceptedIdMerkleRoot
  utxoCommitment : hexBytes h₁.utxoCommitment = hexBytes h₂.utxoCommitment
  bits : h₁.bits = h₂.bits
  daaScore : h₁.daaScore = h₂.daaScore
  blueScore : h₁.blueScore = h₂.blueScore
  blueWork : blueWorkBytes h₁.blueWork = blueWorkBytes h₂.blueWork
  pruningPoint : hexBytes h₁.pruningPoint = hexBytes h₂.pruningPoint
  nonce : forPrePow = false → h₁.nonce = h₂.nonce
  timestamp : forPrePow = false → h₁.timestamp = h₂.timestamp

/-! ## Each field is delimited -/

theorem u16Bytes_delimited : Delimited Set.univ u16Bytes :=
  .of_length (fun _ _ => u16Bytes_length _) fun _ _ _ _ => u16Bytes_inj

theorem u32Bytes_delimited : Delimited Set.univ u32Bytes :=
  .of_length (fun _ _ => u32Bytes_length _) fun _ _ _ _ => u32Bytes_inj

theorem u64Bytes_delimited : Delimited Set.univ u64Bytes :=
  .of_length (fun _ _ => u64Bytes_length _) fun _ _ _ _ => u64Bytes_inj

theorem i64Bytes_delimited : Delimited Set.univ i64Bytes :=
  .of_length (fun _ _ => i64Bytes_length _) fun _ _ _ _ => i64Bytes_inj

theorem hash_delimited : Delimited {hash : List UInt8 | hash.length = 32} id :=
  .of_length (fun _ h => h) fun _ _ _ _ h => h

/-- A length delimits as far as a `u64` reaches. -/
theorem count_delimited : Delimited {n : ℕ | n < 2 ^ 64} fun n => u64Bytes (UInt64.ofNat n) := by
  refine .of_length (fun _ _ => u64Bytes_length _) ?_
  intro a ha b hb h
  have := congrArg UInt64.toNat (u64Bytes_inj h)
  rwa [UInt64.toNat_ofNat', UInt64.toNat_ofNat', Nat.mod_eq_of_lt ha, Nat.mod_eq_of_lt hb] at this

/-- A level, given by its decoded hashes. -/
def IsLevel (hashes : List (List UInt8)) : Prop :=
  hashes.length < 2 ^ 64 ∧ ∀ hash ∈ hashes, hash.length = 32

def countedHashes (hashes : List (List UInt8)) : List UInt8 :=
  u64Bytes (UInt64.ofNat hashes.length) ++ hashes.flatMap id

theorem level_delimited : Delimited {hashes | IsLevel hashes} countedHashes :=
  count_delimited.counted hash_delimited

def countedLevels (levels : List (List (List UInt8))) : List UInt8 :=
  u64Bytes (UInt64.ofNat levels.length) ++ levels.flatMap countedHashes

theorem parents_delimited :
    Delimited {levels | levels.length < 2 ^ 64 ∧ ∀ level ∈ levels, IsLevel level} countedLevels :=
  count_delimited.counted level_delimited

def countedBytes (bytes : List UInt8) : List UInt8 :=
  u64Bytes (UInt64.ofNat bytes.length) ++ bytes

theorem countedBytes_eq (bytes : List UInt8) :
    u64Bytes (UInt64.ofNat bytes.length) ++ bytes = countedBytes bytes := rfl

theorem blueWork_delimited : Delimited {bytes | bytes.length < 2 ^ 64} countedBytes := by
  have hbyte : Delimited Set.univ fun b : UInt8 => [b] :=
    .of_length (n := 1) (fun _ _ => rfl) fun _ _ _ _ h => by injection h
  have h := count_delimited.counted hbyte
  intro a b ha hb r s he
  have hflat : ∀ bytes : List UInt8, bytes.flatMap (fun b => [b]) = bytes := by simp
  refine h ⟨ha, fun _ _ => trivial⟩ ⟨hb, fun _ _ => trivial⟩ ?_
  simpa only [countedBytes, hflat] using he

/-! ## The fields of an accepted header -/

theorem levelBytes_eq (level : RpcBlockLevelParents) :
    levelBytes level = countedHashes (levelHashes level) := by
  unfold levelBytes
  rw [countedHashes, levelHashes, List.length_map, List.flatMap_map]
  rfl

theorem isLevel_levelHashes {level : RpcBlockLevelParents}
    (h : ∀ s ∈ level.parentHashes.toList, IsHexText s 64) : IsLevel (levelHashes level) := by
  refine ⟨?_, ?_⟩
  · unfold levelHashes
    rw [List.length_map]
    have := level.parentHashes.length_lt
    omega
  · intro hash hmem
    obtain ⟨s, hs, rfl⟩ := List.mem_map.mp hmem
    exact hexBytes_length (n := 32) (h s hs)

theorem parentsBytes_eq (parents : Vec RpcBlockLevelParents) :
    u64Bytes (UInt64.ofNat parents.len) ++ parents.toList.flatMap levelBytes =
      countedLevels (parents.toList.map levelHashes) := by
  unfold countedLevels
  rw [List.length_map, List.flatMap_map, funext levelBytes_eq]
  rfl

/-- The version is delimited because the narrowing cast loses nothing on an accepted header. -/
theorem toUInt16_inj {v w : UInt32} (hv : v.toNat ≤ 65535) (hw : w.toNat ≤ 65535)
    (h : v.toUInt16 = w.toUInt16) : v = w := by
  have := congrArg UInt16.toNat h
  rw [UInt32.toNat_toUInt16, UInt32.toNat_toUInt16, Nat.mod_eq_of_lt (by omega),
    Nat.mod_eq_of_lt (by omega)] at this
  exact UInt32.toNat_inj.mp this

namespace Serializable
variable {header : RpcBlockHeader}

theorem mem_parents (h : Serializable header) :
    header.parents.toList.map levelHashes ∈
      {levels | levels.length < 2 ^ 64 ∧ ∀ level ∈ levels, IsLevel level} := by
  refine ⟨?_, ?_⟩
  · rw [List.length_map]
    have := header.parents.length_lt
    omega
  · intro hashes hmem
    obtain ⟨level, hlevel, rfl⟩ := List.mem_map.mp hmem
    exact isLevel_levelHashes (h.parents level hlevel)

theorem mem_blueWork (h : Serializable header) :
    blueWorkBytes header.blueWork ∈ {bytes : List UInt8 | bytes.length < 2 ^ 64} := by
  have := h.blueWork.1
  show (blueWorkBytes header.blueWork).length < 2 ^ 64
  rw [blueWorkBytes_length]
  omega

end Serializable

/-! ## The header, in lockstep -/

/-- **Two headers in lockstep**: what their streams say is the same, and so is what follows. -/
theorem headerBytes_lockstep {h₁ h₂ : RpcBlockHeader} (ok₁ : Serializable h₁)
    (ok₂ : Serializable h₂) {forPrePow : Bool} {r s : List UInt8}
    (h : headerBytes h₁ forPrePow ++ r = headerBytes h₂ forPrePow ++ s) :
    SameStream forPrePow h₁ h₂ ∧ r = s := by
  have hash {t₁ t₂ : String} (ht₁ : IsHexText t₁ 64) (ht₂ : IsHexText t₂ 64) {r s : List UInt8}
      (he : hexBytes t₁ ++ r = hexBytes t₂ ++ s) : hexBytes t₁ = hexBytes t₂ ∧ r = s :=
    hash_delimited (hexBytes_length (n := 32) ht₁) (hexBytes_length (n := 32) ht₂) he
  -- Both streams as fields one after the other, and then one field off the front of both at a time.
  simp only [headerBytes, parentsBytes_eq, countedBytes_eq] at h
  simp only [List.append_assoc] at h
  obtain ⟨hversion, h⟩ := u16Bytes_delimited trivial trivial h
  obtain ⟨hparents, h⟩ := parents_delimited ok₁.mem_parents ok₂.mem_parents h
  obtain ⟨hroot, h⟩ := hash ok₁.hashMerkleRoot ok₂.hashMerkleRoot h
  obtain ⟨haccepted, h⟩ := hash ok₁.acceptedIdMerkleRoot ok₂.acceptedIdMerkleRoot h
  obtain ⟨hutxo, h⟩ := hash ok₁.utxoCommitment ok₂.utxoCommitment h
  obtain ⟨htimestamp, h⟩ := i64Bytes_delimited trivial trivial h
  obtain ⟨hbits, h⟩ := u32Bytes_delimited trivial trivial h
  obtain ⟨hnonce, h⟩ := u64Bytes_delimited trivial trivial h
  obtain ⟨hdaa, h⟩ := u64Bytes_delimited trivial trivial h
  obtain ⟨hblue, h⟩ := u64Bytes_delimited trivial trivial h
  obtain ⟨hwork, h⟩ := blueWork_delimited ok₁.mem_blueWork ok₂.mem_blueWork h
  obtain ⟨hpruning, h⟩ := hash ok₁.pruningPoint ok₂.pruningPoint h
  refine ⟨{ version := toUInt16_inj ok₁.version ok₂.version hversion
            numParents := by simpa [Vec.len] using congrArg List.length hparents
            parents := hparents, hashMerkleRoot := hroot, acceptedIdMerkleRoot := haccepted
            utxoCommitment := hutxo, bits := hbits, daaScore := hdaa, blueScore := hblue
            blueWork := hwork, pruningPoint := hpruning
            nonce := ?_, timestamp := ?_ }, h⟩
  · intro heq
    subst heq
    exact hnonce
  · intro heq
    subst heq
    exact htimestamp

/-- **The header stream is uniquely decodable**, in both modes, and no stream is a proper prefix
of another. -/
theorem serializeHeader_decodable {h₁ h₂ : RpcBlockHeader} {forPrePow : Bool} {out₁ out₂ : Buf}
    (ok₁ : serializeHeader (⟨[]⟩ : Buf) h₁ forPrePow = .ok out₁)
    (ok₂ : serializeHeader (⟨[]⟩ : Buf) h₂ forPrePow = .ok out₂) :
    (out₁.bytes = out₂.bytes → SameStream forPrePow h₁ h₂) ∧
    (out₁.bytes <+: out₂.bytes → out₁.bytes = out₂.bytes) := by
  have hs₁ := serializable_of_ok ok₁
  have hs₂ := serializable_of_ok ok₂
  rw [serializeHeader_buf hs₁] at ok₁
  rw [serializeHeader_buf hs₂] at ok₂
  injection ok₁ with ok₁
  injection ok₂ with ok₂
  subst ok₁ ok₂
  constructor
  · intro he
    exact (headerBytes_lockstep hs₁ hs₂ (r := []) (s := []) (by simpa using he)).1
  · rintro ⟨t, ht⟩
    obtain ⟨-, rfl⟩ := headerBytes_lockstep hs₁ hs₂ (r := t) (s := []) (by simpa using ht)
    simpa using ht

/-- Three parents, in levels of two and one, and of one and two. -/
def twoAndOne : Vec RpcBlockLevelParents :=
  ⟨[⟨⟨[benchHeader.hashMerkleRoot, benchHeader.acceptedIdMerkleRoot], by simp⟩⟩,
    ⟨⟨[benchHeader.utxoCommitment], by simp⟩⟩], by simp⟩

def oneAndTwo : Vec RpcBlockLevelParents :=
  ⟨[⟨⟨[benchHeader.hashMerkleRoot], by simp⟩⟩,
    ⟨⟨[benchHeader.acceptedIdMerkleRoot, benchHeader.utxoCommitment], by simp⟩⟩], by simp⟩

theorem twoAndOne_serializable : Serializable { benchHeader with parents := twoAndOne } :=
  { benchHeader_serializable with
    parents := by
      simp only [twoAndOne, List.forall_mem_cons]
      exact ⟨⟨benchHeader_serializable.hashMerkleRoot,
        benchHeader_serializable.acceptedIdMerkleRoot, by simp⟩,
        ⟨benchHeader_serializable.utxoCommitment, by simp⟩, by simp⟩ }

theorem oneAndTwo_serializable : Serializable { benchHeader with parents := oneAndTwo } :=
  { benchHeader_serializable with
    parents := by
      simp only [oneAndTwo, List.forall_mem_cons]
      exact ⟨⟨benchHeader_serializable.hashMerkleRoot, by simp⟩,
        ⟨benchHeader_serializable.acceptedIdMerkleRoot, benchHeader_serializable.utxoCommitment,
          by simp⟩, by simp⟩ }

/-- The nonce is not in the pre-pow stream, and the nesting of the parents is. -/
theorem serializeHeader_decodable_bench :
    (∃ out, serializeHeader (⟨[]⟩ : Buf) { benchHeader with parents := twoAndOne } true = .ok out ∧
      serializeHeader (⟨[]⟩ : Buf) { benchHeader with parents := twoAndOne, nonce := 7 } true =
        .ok out ∧
      SameStream true { benchHeader with parents := twoAndOne }
        { benchHeader with parents := twoAndOne, nonce := 7 }) ∧
    ∃ out out', serializeHeader (⟨[]⟩ : Buf) { benchHeader with parents := twoAndOne } true =
        .ok out ∧
      serializeHeader (⟨[]⟩ : Buf) { benchHeader with parents := oneAndTwo } true = .ok out' ∧
      ¬ out.bytes <+: out'.bytes := by
  have h := serializeHeader_buf twoAndOne_serializable ⟨[]⟩ true
  have h₇ :
      serializeHeader (⟨[]⟩ : Buf) { benchHeader with parents := twoAndOne, nonce := 7 } true =
      _ := h
  have h' := serializeHeader_buf oneAndTwo_serializable ⟨[]⟩ true
  refine ⟨⟨_, h, h₇, (serializeHeader_decodable h h₇).1 rfl⟩, _, _, h, h', fun hprefix => ?_⟩
  obtain ⟨hsame, hequal⟩ := serializeHeader_decodable h h'
  have hparents := (hsame (hequal hprefix)).parents
  exact absurd hparents (by simp [twoAndOne, oneAndTwo, levelHashes])

end Pow
end KaspaMiner
