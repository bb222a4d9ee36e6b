import KaspaMiner.Target
import KaspaMiner.Pow.Prims

/-!
# `pow/hasher.rs`

`HeaderHasher` is a keyed BLAKE2b state. What such a state knows is the key and the bytes written
so far, in order and with the calls forgotten, so that is what it is here. `PowHasher` and
`HeavyHasher` are Keccak states with the cSHAKE prefix already absorbed.
-/

namespace KaspaMiner
namespace Pow

/-- `b"BlockHash"`. -/
def BLOCK_HASH_DOMAIN : List UInt8 := asRef "BlockHash"

/-! ## The `Hasher` trait -/

class Hasher (H : Type) where
  update : H → List UInt8 → H

export Hasher (update)

/-- Feeding a list of pieces one after the other. -/
def feed {H : Type} [Hasher H] (hasher : H) (pieces : List (List UInt8)) : H :=
  pieces.foldl update hasher

@[simp] theorem feed_nil {H : Type} [Hasher H] (hasher : H) : feed hasher [] = hasher := rfl

@[simp] theorem feed_cons {H : Type} [Hasher H] (hasher : H) (p : List UInt8)
    (ps : List (List UInt8)) : feed hasher (p :: ps) = feed (update hasher p) ps := rfl

theorem feed_append {H : Type} [Hasher H] (hasher : H) (ps qs : List (List UInt8)) :
    feed hasher (ps ++ qs) = feed (feed hasher ps) qs := by
  simp [feed, List.foldl_append]

/-- The `Buf` of the tests: it keeps what it is given. -/
structure Buf where
  bytes : List UInt8

instance : Hasher Buf := ⟨fun buf data => ⟨buf.bytes ++ data⟩⟩

theorem feed_buf (ps : List (List UInt8)) :
    ∀ buf : Buf, feed buf ps = ⟨buf.bytes ++ ps.flatten⟩ := by
  induction ps with
  | nil => intro buf; simp
  | cons p ps ih =>
    intro buf
    rw [feed_cons, ih, List.flatten_cons, ← List.append_assoc]
    rfl

/-! ## `HeaderHasher` -/

structure HeaderHasher where
  key : List UInt8
  written : List UInt8

namespace HeaderHasher

def new : HeaderHasher := { key := BLOCK_HASH_DOMAIN, written := [] }

def write (self : HeaderHasher) (data : List UInt8) : HeaderHasher :=
  { self with written := self.written ++ data }

def finalize (P : Prims) (self : HeaderHasher) : Hash :=
  Uint256.fromLeBytes (P.blake2b self.key self.written)

instance : Hasher HeaderHasher := ⟨write⟩

end HeaderHasher

/-- A BLAKE2b state depends on the concatenation of what was written only. -/
theorem feed_headerHasher (ps : List (List UInt8)) : ∀ hasher : HeaderHasher,
    feed hasher ps = { hasher with written := hasher.written ++ ps.flatten } := by
  induction ps with
  | nil => intro hasher; simp
  | cons p ps ih =>
    intro hasher
    rw [feed_cons, ih, List.flatten_cons, ← List.append_assoc]
    rfl

/-! ## The Keccak hashers -/

/-- `for (&word, state_word) in words.iter().zip(state.iter_mut()) { *state_word ^= word }` -/
def xorWords (state : Vector UInt64 25) (words : Vector UInt64 4) : Vector UInt64 25 :=
  Vector.ofFn fun i => if h : i.val < 4 then state[i] ^^^ words[i.val] else state[i]

/-- `Hash::new(state[..4].try_into().unwrap())` -/
def stateHash (state : Vector UInt64 25) : Hash := ⟨Vector.ofFn fun i : Fin 4 => state[i.val]⟩

structure PowHasher where
  state : Vector UInt64 25
  deriving DecidableEq

namespace PowHasher

/-- The initial state of `cSHAKE256("ProofOfWorkHash")`. -/
def INITIAL_STATE : Vector UInt64 25 := #v[
  1242148031264380989, 3008272977830772284, 2188519011337848018, 1992179434288343456,
  8876506674959887717, 5399642050693751366, 1745875063082670864, 8605242046444978844,
  17936695144567157056, 3343109343542796272, 1123092876221303306, 4963925045340115282,
  17037383077651887893, 16629644495023626889, 12833675776649114147, 3784524041015224902,
  1082795874807940378, 13952716920571277634, 13411128033953605860, 15060696040649351053,
  9928834659948351306, 5237849264682708699, 12825353012139217522, 6706187291358897596,
  196324915476054915]

def new (prePowHash : Hash) (timestamp : UInt64) : PowHasher :=
  let start := xorWords INITIAL_STATE prePowHash.words
  ⟨start.set 4 (start[4] ^^^ timestamp)⟩

def finalizeWithNonce (P : Prims) (self : PowHasher) (nonce : UInt64) : Hash :=
  stateHash (P.f1600 (self.state.set 9 (self.state[9] ^^^ nonce)))

end PowHasher

namespace HeavyHasher

/-- The initial state of `cSHAKE256("HeavyHash")`. -/
def INITIAL_STATE : Vector UInt64 25 := #v[
  4239941492252378377, 8746723911537738262, 8796936657246353646, 1272090201925444760,
  16654558671554924250, 8270816933120786537, 13907396207649043898, 6782861118970774626,
  9239690602118867528, 11582319943599406348, 17596056728278508070, 15212962468105129023,
  7812475424661425213, 3370482334374859748, 5690099369266491460, 8596393687355028144,
  570094237299545110, 9119540418498120711, 16901969272480492857, 13372017233735502424,
  14372891883993151831, 5171152063242093102, 10573107899694386186, 6096431547456407061,
  1592359455985097269]

def hash (P : Prims) (inHash : Hash) : Hash :=
  stateHash (P.f1600 (xorWords INITIAL_STATE inHash.words))

end HeavyHasher

end Pow
end KaspaMiner
