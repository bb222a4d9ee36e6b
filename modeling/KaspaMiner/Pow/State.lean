import KaspaMiner.Pow.Header
import KaspaMiner.Pow.HeavyHash

/-!
# `pow.rs`

`State` caches everything the proof of work of a template needs apart from the nonce: the matrix
and the hasher are both derived from the pre-pow hash, which is written without the nonce and the
timestamp.

`State::new` can end in three ways that are no `State`: it returns an `Error`, it panics in the
serialiser, or it draws matrices for ever. The last one is a `Matrix.generate` that runs out of
`fuel`; the code itself has no such bound.
-/

namespace KaspaMiner
namespace Pow

/-- The ways a call gives no value. -/
inductive Halt where
  | err (msg : String)
  | panic (p : Panic)
  | outOfFuel

structure State where
  id : USize
  matrix : Matrix
  nonce : UInt64
  target : Uint256
  block : RpcBlock
  /-- `PRE_POW_HASH || TIME || 32 zero byte padding`; without `NONCE`. -/
  hasher : PowHasher

/-- The hash of a header without its nonce and timestamp. -/
def prePowHash (P : Prims) (header : RpcBlockHeader) : Except Panic Hash := do
  let hasher ← serializeHeader HeaderHasher.new header true
  return hasher.finalize P

namespace State

def new (P : Prims) (fuel : ℕ) (id : USize) (block : RpcBlock) : Except Halt State :=
  match block.header with
  | none => .error (.err "Header is missing")
  | some header =>
    let target := u256FromCompactTarget header.bits
    match prePowHash P header with
    | .error p => .error (.panic p)
    | .ok prePowHash =>
      let hasher := PowHasher.new prePowHash header.timestamp.toUInt64
      match Matrix.generate P fuel prePowHash with
      | none => .error .outOfFuel
      | some matrix => .ok { id, matrix, nonce := 0, target, block, hasher }

/-- What a successful `State::new` went through. -/
theorem new_ok_iff {P : Prims} {fuel : ℕ} {id : USize} {block : RpcBlock} {s : State} :
    State.new P fuel id block = .ok s ↔
      ∃ header hash matrix, block.header = some header ∧ prePowHash P header = .ok hash ∧
        Matrix.generate P fuel hash = some matrix ∧
        s = { id, matrix, nonce := 0, target := u256FromCompactTarget header.bits, block
              hasher := PowHasher.new hash header.timestamp.toUInt64 } := by
  unfold State.new
  cases hh : block.header with
  | none => simp
  | some header =>
    cases hp : prePowHash P header with
    | error p => simp [hp]
    | ok hash =>
      cases hm : Matrix.generate P fuel hash with
      | none => simp [hp, hm]
      | some matrix => simp [hp, hm, eq_comm]

/-- The state as `new` leaves it, before any nonce is set. -/
def unset (self : State) : State := { self with nonce := 0 }

/-- The hasher already has everything but the nonce. -/
def calculatePow (P : Prims) (self : State) : Uint256 :=
  self.matrix.heavyHash P (self.hasher.finalizeWithNonce P self.nonce)

/-- The pow hash must be less than or equal to the claimed target. -/
def checkPow (P : Prims) (self : State) : Bool := (self.calculatePow P).ble self.target

def generateBlockIfPow (P : Prims) (self : State) : Except Panic (Option RpcBlock) :=
  if self.checkPow P then
    match self.block.header with
    | none => .error (.expect "We checked that a header exists on creation")
    | some header =>
      .ok (some { self.block with header := some { header with nonce := self.nonce } })
  else .ok none

end State

end Pow

end KaspaMiner
