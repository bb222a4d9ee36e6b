import KaspaMiner.Miner.Channel
import KaspaMiner.Pow.State

/-!
# `MinerManager` and `process_block`

The manager of one connection, without its threads: the channel the templates go through, whether
kaspad was synced last time, and the next state id.
-/

namespace KaspaMiner
namespace Miner

open KaspaMiner.Pow (Halt State)

structure MinerManager where
  blockChannel : Channel State
  isSynced : Bool
  currentStateId : USize

namespace MinerManager

def new : MinerManager := { blockChannel := .empty, isSynced := true, currentStateId := 0 }

def processBlock (P : Prims) (fuel : ℕ) (self : MinerManager) (block : Option RpcBlock) :
    MinerManager × Except Halt Unit :=
  match block with
  | some b =>
    let id := self.currentStateId
    let self := { self with isSynced := true, currentStateId := id + 1 }
    match State.new P fuel id b with
    | .error e => (self, .error e)
    | .ok state => ({ self with blockChannel := self.blockChannel.swap (some state) }, .ok ())
  | none =>
    if self.isSynced then
      ({ self with isSynced := false, blockChannel := self.blockChannel.swap none }, .ok ())
    else
      (self, .ok ())

variable {P : Prims} {fuel : ℕ} {self : MinerManager}

theorem processBlock_some {b : RpcBlock} {state : State}
    (h : State.new P fuel self.currentStateId b = .ok state) :
    self.processBlock P fuel (some b) =
      ({ blockChannel := self.blockChannel.swap (some state), isSynced := true
         currentStateId := self.currentStateId + 1 }, .ok ()) := by
  simp only [processBlock, h]

theorem processBlock_some_error {b : RpcBlock} {e : Halt}
    (h : State.new P fuel self.currentStateId b = .error e) :
    self.processBlock P fuel (some b) =
      ({ self with isSynced := true, currentStateId := self.currentStateId + 1 }, .error e) := by
  simp only [processBlock, h]

theorem processBlock_none : self.processBlock P fuel none =
    (if self.isSynced then
      { self with isSynced := false, blockChannel := self.blockChannel.swap none } else self,
      .ok ()) := by
  rw [processBlock]
  split <;> rfl

/-- A template that cannot be taken leaves the channel as it is. -/
theorem processBlock_error {block : Option RpcBlock} {e : Halt}
    (h : (self.processBlock P fuel block).2 = .error e) :
    (self.processBlock P fuel block).1.blockChannel = self.blockChannel := by
  cases block with
  | none => rw [processBlock_none] at h; exact absurd h (by simp)
  | some b =>
    cases hnew : State.new P fuel self.currentStateId b with
    | error e' => rw [processBlock_some_error hnew]
    | ok state => rw [processBlock_some hnew] at h; exact absurd h (by simp)

/-- The channel stays as it is, or something is installed: a `State` made for it, or nothing. -/
theorem processBlock_channel (P : Prims) (fuel : ℕ) (self : MinerManager)
    (block : Option RpcBlock) :
    (self.processBlock P fuel block).1.blockChannel = self.blockChannel ∨
    ∃ val, (self.processBlock P fuel block).1.blockChannel = self.blockChannel.swap val ∧
      ∀ st, val = some st → ∃ id b, State.new P fuel id b = .ok st := by
  cases block with
  | none =>
    rw [processBlock_none]
    by_cases hs : self.isSynced = true
    · rw [if_pos hs]
      exact .inr ⟨none, rfl, by simp⟩
    · rw [if_neg hs]
      exact .inl rfl
  | some b =>
    cases hnew : State.new P fuel self.currentStateId b with
    | error e =>
      rw [processBlock_some_error hnew]
      exact .inl rfl
    | ok state =>
      rw [processBlock_some hnew]
      refine .inr ⟨some state, rfl, ?_⟩
      intro st hst
      rw [← Option.some.inj hst]
      exact ⟨_, b, hnew⟩

/-- What is in the channel stays in it. -/
theorem processBlock_extends (block : Option RpcBlock) :
    self.blockChannel.contents <+: (self.processBlock P fuel block).1.blockChannel.contents := by
  rcases self.processBlock_channel P fuel block with hsame | ⟨val, hswap, -⟩
  · rw [hsame]
  · rw [hswap]
    exact self.blockChannel.swap_extends val

end MinerManager

end Miner
end KaspaMiner
