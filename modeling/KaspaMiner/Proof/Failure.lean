import KaspaMiner.Miner.Manager
import KaspaMiner.Proof.Bench

/-!
# A template that cannot be taken

`process_block` sets its flag and takes an id before it builds the `State`, and swaps after that, so
a template without a header changes the first two and not the channel. What a call does later
depends on the flag and on nothing else the failed call may have touched: `effects_congr`. The id is
only ever a tag of a `State`, and two runs are compared without it.
-/

namespace KaspaMiner
namespace Miner

open KaspaMiner.Pow (Halt State)

/-- A call of `process_block`: how many candidates it may draw, and the template. -/
abbrev Call := ℕ × Option RpcBlock

namespace MinerManager

variable (P : Prims)

def call (self : MinerManager) (c : Call) : MinerManager := (self.processBlock P c.1 c.2).1

/-- The manager after some calls. -/
def calls (self : MinerManager) (cs : List Call) : MinerManager := cs.foldl (call P) self

/-- What a call swaps in, if it swaps. -/
def installs (self : MinerManager) (c : Call) : Option (Option State) :=
  if (self.call P c).blockChannel.pos = self.blockChannel.pos then none
  else some (self.call P c).blockChannel.current

/-- What each of the calls swaps in. -/
def effects (self : MinerManager) : List Call → List (Option (Option State))
  | [] => []
  | c :: cs => self.installs P c :: effects (self.call P c) cs

def withoutId (s : State) : State := { s with id := 0 }

/-- The same swaps, of the same states but for their ids. -/
def SameEffects (as bs : List (Option (Option State))) : Prop :=
  as.map (Option.map (Option.map withoutId)) = bs.map (Option.map (Option.map withoutId))

/-- The call leaves nothing behind: not in the flag, not in the channel, and not in what any later
calls do. -/
structure Atomic (miner : MinerManager) (c : Call) : Prop where
  isSynced : (miner.call P c).isSynced = miner.isSynced
  blockChannel : (miner.call P c).blockChannel = miner.blockChannel
  later : ∀ cs, SameEffects ((miner.call P c).effects P cs) (miner.effects P cs)

variable {P} {self : MinerManager}

/-- The flag says what the last call was. -/
theorem call_isSynced (self : MinerManager) (fuel : ℕ) (block : Option RpcBlock) :
    (self.call P (fuel, block)).isSynced = block.isSome := by
  unfold call
  cases block with
  | none =>
    rw [processBlock_none]
    by_cases h : self.isSynced = true
    · rw [if_pos h]
      rfl
    · rw [if_neg h]
      simpa using h
  | some b =>
    cases hnew : State.new P fuel self.currentStateId b with
    | error e => rw [processBlock_some_error hnew]; rfl
    | ok state => rw [processBlock_some hnew]; rfl

theorem installs_none (self : MinerManager) (fuel : ℕ) :
    self.installs P (fuel, none) = if self.isSynced then some none else none := by
  unfold installs call
  rw [processBlock_none]
  by_cases h : self.isSynced = true
  · rw [if_pos h, if_pos h, if_neg]
    · rfl
    · simp [Channel.pos, Channel.swap]
  · rw [if_neg h, if_neg h, if_pos rfl]

theorem installs_some (self : MinerManager) (fuel : ℕ) (b : RpcBlock) :
    self.installs P (fuel, some b) =
      (State.new P fuel self.currentStateId b).toOption.map some := by
  unfold installs call
  cases hnew : State.new P fuel self.currentStateId b with
  | error e =>
    rw [processBlock_some_error hnew, if_pos rfl]
    rfl
  | ok state =>
    rw [processBlock_some hnew, if_neg]
    · rfl
    · simp [Channel.pos, Channel.swap]

/-- The id goes into the `State` and nowhere else. -/
theorem new_id (fuel : ℕ) (id id' : USize) (b : RpcBlock) :
    (State.new P fuel id b).toOption.map withoutId =
      (State.new P fuel id' b).toOption.map withoutId := by
  unfold State.new
  cases b.header with
  | none => rfl
  | some header =>
    cases hhash : Pow.prePowHash P header with
    | error p =>
      simp only [hhash]
    | ok hash =>
      cases hmatrix : Pow.Matrix.generate P fuel hash with
      | none =>
        simp only [hhash, hmatrix]
      | some matrix =>
        simp only [hhash, hmatrix]
        rfl

/-- **Two managers with the same flag do the same from then on.** -/
theorem effects_congr {self other : MinerManager} (h : self.isSynced = other.isSynced)
    (cs : List Call) : SameEffects (self.effects P cs) (other.effects P cs) := by
  induction cs generalizing self other with
  | nil => rfl
  | cons c cs ih =>
    obtain ⟨fuel, block⟩ := c
    have hnext : (self.call P (fuel, block)).isSynced = (other.call P (fuel, block)).isSynced := by
      rw [call_isSynced, call_isSynced]
    have hrest := ih hnext
    unfold SameEffects at hrest ⊢
    rw [effects, effects, List.map_cons, List.map_cons, hrest]
    congr 1
    cases block with
    | none => rw [installs_none, installs_none, h]
    | some b =>
      have hid := new_id (P := P) fuel self.currentStateId other.currentStateId b
      rw [installs_some, installs_some, Option.map_map, Option.map_map]
      show Option.map (some ∘ withoutId) _ = Option.map (some ∘ withoutId) _
      rw [← Option.map_map, ← Option.map_map, hid]

/-! ## The failed call -/

/-- **A failed call leaves nothing behind exactly when the flag was set before it.** It is a call
with a template after any calls on a new manager; the channel it leaves alone in any case. -/
theorem failed_call_atomic_iff (P : Prims) (cs : List Call) (fuel : ℕ) (b : RpcBlock) (msg : String)
    (herr : ((new.calls P cs).processBlock P fuel (some b)).2 = .error (.err msg)) :
    Atomic P (new.calls P cs) (fuel, some b) ↔ (new.calls P cs).isSynced = true := by
  constructor
  · intro h
    rw [← h.isSynced, call_isSynced]
    rfl
  · intro hsynced
    have hflag : ((new.calls P cs).call P (fuel, some b)).isSynced = (new.calls P cs).isSynced := by
      rw [call_isSynced, hsynced]
      rfl
    exact ⟨hflag, processBlock_error herr, effects_congr hflag⟩

/-- A template without a header. -/
def headless : RpcBlock := { header := none, transactions := Vec.nil, verboseData := none }

/-- The first call on a new manager. -/
theorem failed_call_atomic_iff_first : Atomic Pow.benchPrims new (1, some headless) :=
  (failed_call_atomic_iff Pow.benchPrims [] 1 headless "Header is missing" rfl).mpr rfl

/-- After "not synced" the failed call sets the flag, and the next "not synced" swaps once more. -/
theorem failed_call_not_atomic :
    ((new.calls Pow.benchPrims [(1, none)]).processBlock Pow.benchPrims 1 (some headless)).2 =
      .error (.err "Header is missing") ∧
    ¬ Atomic Pow.benchPrims (new.calls Pow.benchPrims [(1, none)]) (1, some headless) ∧
    ((new.calls Pow.benchPrims [(1, none)]).call Pow.benchPrims (1, some headless)).effects
      Pow.benchPrims [(1, none)] = [some none] ∧
    (new.calls Pow.benchPrims [(1, none)]).effects Pow.benchPrims [(1, none)] = [none] := by
  refine ⟨rfl, ?_, rfl, rfl⟩
  intro h
  exact absurd h.isSynced (by decide)

end MinerManager

end Miner
end KaspaMiner
