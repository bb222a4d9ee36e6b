import KaspaMiner.KaspadMessages
import KaspaMiner.Proof.Bench

/-!
# A found block stands on its own

The block the miner submits differs from the template its `State` was built from in the nonce, and
the node checks it from scratch. So everything cached in the `State` has to come out the same when
it is computed again from the submitted block. That is what is proved here: a `State` is built
from a block exactly when it is built from the same block with another nonce, and the two have the
same matrix, hasher and target (`State.new_withNonce`).

`State.Built s` is what the rest of the program knows about a `State` it was handed: somewhere it
came out of `State::new`, and since then only its nonce was set.
-/

namespace KaspaMiner
namespace Pow

namespace State

/-! ## `State::new` -/

/-- More candidates for the matrix never change the `State`. -/
theorem new_mono {P : Prims} {fuel k : ℕ} {id : USize} {block : RpcBlock} {s : State}
    (h : State.new P fuel id block = .ok s) : State.new P (fuel + k) id block = .ok s := by
  obtain ⟨header, hash, matrix, hh, hp, hm, rfl⟩ := new_ok_iff.mp h
  exact new_ok_iff.mpr ⟨header, hash, matrix, hh, hp, Matrix.generate_mono hm, rfl⟩

/-- **The nonce of a template does not reach its `State`**, apart from the template kept in it. -/
theorem new_withNonce {P : Prims} {fuel : ℕ} {id : USize} {block : RpcBlock} {s : State}
    (h : State.new P fuel id block = .ok s) (id' : USize) (n : UInt64) :
    State.new P fuel id' (block.withNonce n) =
      .ok { s with id := id', block := block.withNonce n } := by
  obtain ⟨header, hash, matrix, hh, hp, hm, rfl⟩ := new_ok_iff.mp h
  refine new_ok_iff.mpr ⟨{ header with nonce := n }, hash, matrix, ?_, hp, hm, rfl⟩
  unfold RpcBlock.withNonce
  rw [hh]
  rfl

theorem new_block {P : Prims} {fuel : ℕ} {id : USize} {block : RpcBlock} {s : State}
    (h : State.new P fuel id block = .ok s) : s.block = block := by
  obtain ⟨header, hash, matrix, hh, hp, hm, rfl⟩ := new_ok_iff.mp h
  rfl

/-! ## States that were built -/

/-- `s` was built by `State::new` from its own block, and only its nonce was set since. -/
def Built (P : Prims) (s : State) : Prop :=
  ∃ fuel id, State.new P fuel id s.block = .ok { s with nonce := 0 }

theorem built_of_new {P : Prims} {fuel : ℕ} {id : USize} {block : RpcBlock} {s : State}
    (h : State.new P fuel id block = .ok s) : Built P s := by
  refine ⟨fuel, id, ?_⟩
  rw [new_block h, h]
  obtain ⟨header, hash, matrix, hh, hp, hm, rfl⟩ := new_ok_iff.mp h
  rfl

theorem eq_of_unset_eq {s t : State} (h : s.unset = t.unset) : s = { t with nonce := s.nonce } := by
  cases s
  cases t
  simp only [unset, State.mk.injEq] at h ⊢
  obtain ⟨h₁, h₂, -, h₃, h₄, h₅⟩ := h
  exact ⟨h₁, h₂, trivial, h₃, h₄, h₅⟩

theorem Built.setNonce {P : Prims} {s : State} (h : Built P s) (n : UInt64) :
    Built P { s with nonce := n } := h

/-- The header of a built `State` is there, and the serialiser accepts it. -/
theorem Built.header {P : Prims} {s : State} (h : Built P s) :
    ∃ header, s.block.header = some header ∧ Serializable header := by
  obtain ⟨fuel, id, hnew⟩ := h
  obtain ⟨header, hash, matrix, hh, hp, -⟩ := new_ok_iff.mp hnew
  exact ⟨header, hh, serializable_of_prePowHash hp⟩

/-! ## The test -/

theorem checkPow_iff (P : Prims) (s : State) :
    s.checkPow P = true ↔ (s.calculatePow P).toNat ≤ s.target.toNat := by
  unfold checkPow
  rw [Uint256.ble_iff]

/-- On a built `State` the test gives the template with the tested nonce, or nothing. -/
theorem Built.generateBlockIfPow {P : Prims} {s : State} (h : Built P s) :
    s.generateBlockIfPow P = .ok (if (s.calculatePow P).toNat ≤ s.target.toNat
      then some (s.block.withNonce s.nonce) else none) := by
  obtain ⟨header, hh, -⟩ := h.header
  unfold State.generateBlockIfPow
  by_cases hpow : (s.calculatePow P).toNat ≤ s.target.toNat
  · rw [if_pos ((checkPow_iff P s).mpr hpow), if_pos hpow, RpcBlock.withNonce, hh]
    rfl
  · rw [if_neg (mt (checkPow_iff P s).mp hpow), if_neg hpow]

/-- The block with the tested nonce can be hashed in full. -/
theorem Built.blockHash {P : Prims} {s : State} (h : Built P s) (n : UInt64) :
    ∃ hash, (s.block.withNonce n).blockHash P = .ok (some hash) := by
  obtain ⟨header, hh, hs⟩ := h.header
  have hs' : Serializable { header with nonce := n } :=
    ⟨hs.version, hs.parents, hs.hashMerkleRoot, hs.acceptedIdMerkleRoot, hs.utxoCommitment,
      hs.blueWork, hs.pruningPoint⟩
  unfold RpcBlock.blockHash
  rw [RpcBlock.withNonce, hh]
  simp only [Option.map_some]
  rw [serializeHeader_headerHasher hs']
  exact ⟨_, rfl⟩

/-- **A found block stands on its own.** For a `State` built from `template` and any nonce: the
test finds a block exactly when the pow hash is at most the target; the block is the template with
that nonce; and a `State` built from the block alone, whatever its id, is the same in everything
the proof of work depends on, and passes the check at the nonce in the block's header. -/
theorem generateBlockIfPow_valid {P : Prims} {fuel : ℕ} {id : USize} {template : RpcBlock}
    {s : State} (h : State.new P fuel id template = .ok s) (n : UInt64) :
    ((∃ b, { s with nonce := n }.generateBlockIfPow P = .ok (some b)) ↔
      ({ s with nonce := n }.calculatePow P).toNat ≤ s.target.toNat) ∧
    (¬ ({ s with nonce := n }.calculatePow P).toNat ≤ s.target.toNat →
      { s with nonce := n }.generateBlockIfPow P = .ok none) ∧
    ∀ b, { s with nonce := n }.generateBlockIfPow P = .ok (some b) →
      ∃ header header' : RpcBlockHeader, template.header = some header ∧
        header' = { header with nonce := n } ∧ b = { template with header := some header' } ∧
        prePowHash P header' = prePowHash P header ∧
        ∀ id', ∃ s', State.new P fuel id' b = .ok s' ∧ s'.matrix = s.matrix ∧
          s'.hasher = s.hasher ∧ s'.target = s.target ∧
          { s' with nonce := header'.nonce }.checkPow P = true := by
  have hgen := ((built_of_new h).setNonce n).generateBlockIfPow
  simp only at hgen
  refine ⟨?_, ?_, ?_⟩
  · rw [hgen]
    split <;> simp [*]
  · intro hpow
    rw [hgen, if_neg hpow]
  · intro b hb
    rw [hgen] at hb
    by_cases hpow : ({ s with nonce := n }.calculatePow P).toNat ≤ s.target.toNat
    · rw [if_pos hpow] at hb
      injection hb with hb
      injection hb with hb
      obtain ⟨header, hh, -⟩ := (built_of_new h).header
      rw [new_block h] at hb hh
      -- The block found is the template with the nonce in its header.
      have hb' : b = { template with header := some { header with nonce := n } } := by
        rw [← hb, RpcBlock.withNonce, hh]
        rfl
      refine ⟨header, _, hh, rfl, hb', prePowHash_withNonce P header n, ?_⟩
      intro id'
      refine ⟨{ s with id := id', block := b }, ?_, rfl, rfl, rfl, (checkPow_iff P _).mpr hpow⟩
      rw [← hb]
      exact new_withNonce h id' n
    · rw [if_neg hpow] at hb
      exact absurd hb (by simp)

/-- A nonce that solves the benchmark's template, and the block it makes under another id. -/
theorem generateBlockIfPow_valid_bench : ∃ s s', State.new solvingPrims 1 0 benchBlock = .ok s ∧
    { s with nonce := 5 }.generateBlockIfPow solvingPrims =
      .ok (some { benchBlock with header := some { benchHeader with nonce := 5 } }) ∧
    State.new solvingPrims 1 7 { benchBlock with header := some { benchHeader with nonce := 5 } } =
      .ok s' ∧
    { s' with nonce := 5 }.checkPow solvingPrims = true := by
  obtain ⟨s, hs⟩ := solving_new 0
  obtain ⟨hfinds, -, hfound⟩ := generateBlockIfPow_valid hs 5
  obtain ⟨b, hb⟩ := hfinds.mpr ((solving_calculatePow _).le.trans (Nat.zero_le _))
  obtain ⟨header, _, hheader, rfl, rfl, -, hnew⟩ := hfound b hb
  obtain rfl : benchHeader = header := Option.some.inj hheader
  obtain ⟨s', hs', -, -, -, hcheck⟩ := hnew 7
  exact ⟨s, s', hs, hb, hs', hcheck⟩

end State

end Pow
end KaspaMiner
