import KaspaMiner.Client
import KaspaMiner.Proof.State

/-!
# Which template is installed

Two state machines, one feeding the other: the match over the responses, and `process_block` with
its `is_synced` flag. `effect` is what a response asks for, and `Settled` ties the flag to the
channel: whenever the flag says "not synced" there is nothing installed, so `process_block` may
return early without looking.
-/

namespace KaspaMiner

open KaspaMiner.Pow (Halt State)
open Miner (MinerManager)
open KaspadHandler (listen)

/-! ## What a response asks for -/

/-- `none` for nothing at all, `some none` for no template, `some (some b)` for the template `b`. -/
def effect (mineWhenNotSynced : Bool) (r : GetBlockTemplateResponseMessage) :
    Option (Option RpcBlock) :=
  match r.error with
  | some _ => none
  | none =>
    if r.isSynced then r.block.map some
    else some (if mineWhenNotSynced then r.block else none)

/-- What the last response that asked for anything asked for. -/
def lastEffect (mineWhenNotSynced : Bool) (rs : List GetBlockTemplateResponseMessage) :
    Option (Option RpcBlock) :=
  (rs.filterMap (effect mineWhenNotSynced)).getLast?

/-- A response as it comes from the stream, shutdown not being set. -/
def responseItem (r : GetBlockTemplateResponseMessage) : KaspadMessage × Bool :=
  ({ payload := some (.getBlockTemplateResponse r) }, false)

variable {P : Prims} {fuel : ℕ}

/-- The match of `handle_message`, in one line. -/
theorem handleMessage_response (P : Prims) (fuel : ℕ) (self : KaspadHandler)
    (r : GetBlockTemplateResponseMessage) (miner : MinerManager) :
    self.handleMessage P fuel (.getBlockTemplateResponse r) miner =
      match effect self.mineWhenNotSynced r with
      | none => (self, miner, .ok ())
      | some block => (self, miner.processBlock P fuel block) := by
  obtain ⟨block, isSynced, error⟩ := r
  cases error with
  | some e => cases block <;> cases isSynced <;> rfl
  | none =>
    cases isSynced with
    | true => cases block <;> rfl
    | false =>
      cases block with
      | some b =>
        simp only [KaspadHandler.handleMessage, effect]
        cases self.mineWhenNotSynced <;> rfl
      | none =>
        simp only [KaspadHandler.handleMessage, effect]
        cases self.mineWhenNotSynced <;> rfl

/-! ## The flag and the channel -/

/-- Whenever the flag says so, there is nothing installed. -/
def FlagInv (miner : MinerManager) : Prop :=
  miner.isSynced = false → miner.blockChannel.current = none

theorem FlagInv.new : FlagInv .new := by
  intro h
  exact absurd h (by simp [MinerManager.new])

/-- Also when the template could not be taken: the flag is set before that turns out. -/
theorem FlagInv.processBlock {miner : MinerManager} (h : FlagInv miner) (P : Prims) (fuel : ℕ)
    (block : Option RpcBlock) :
    FlagInv (miner.processBlock P fuel block).1 := by
  cases block with
  | some b =>
    cases hnew : State.new P fuel miner.currentStateId b with
    | ok state =>
      rw [MinerManager.processBlock_some hnew]
      intro hs
      exact absurd hs (by simp)
    | error e =>
      rw [MinerManager.processBlock_some_error hnew]
      intro hs
      exact absurd hs (by simp)
  | none =>
    rw [MinerManager.processBlock_none]
    by_cases hs : miner.isSynced = true
    · rw [if_pos hs]
      exact fun _ => rfl
    · rw [if_neg hs]
      exact h

theorem FlagInv.handleMessage {miner : MinerManager} (h : FlagInv miner) (P : Prims) (fuel : ℕ)
    (self : KaspadHandler)
    (msg : Payload) : FlagInv (self.handleMessage P fuel msg miner).2.1 := by
  cases msg with
  | getBlockTemplateResponse r =>
    rw [handleMessage_response]
    cases effect self.mineWhenNotSynced r with
    | none => exact h
    | some block => exact h.processBlock P fuel block
  | getBlockResponse m =>
    rw [KaspadHandler.handleMessage]
    cases m.error <;> exact h
  | getInfoRequest | getBlockTemplateRequest | notifyBlockAddedRequest
  | notifyNewBlockTemplateRequest | submitBlockRequest | newBlockTemplateNotification
  | submitBlockResponse | getInfoResponse | notifyNewBlockTemplateResponse | other => exact h

theorem FlagInv.listen : ∀ (stream : List (KaspadMessage × Bool)) {self : KaspadHandler}
    {miner : MinerManager}, FlagInv miner → FlagInv (listen P fuel stream self miner).2.1
  | [], _, _, h => h
  | (_, true) :: _, _, _, h => h
  | ({ payload := none }, false) :: stream, _, _, h => FlagInv.listen stream h
  | ({ payload := some payload }, false) :: stream, self, miner, h => by
    have hmsg := h.handleMessage P fuel self payload
    rcases hres : self.handleMessage P fuel payload miner with ⟨self', miner', e | ⟨⟩⟩
    · rw [hres] at hmsg
      rw [KaspadHandler.listen_error hres]
      exact hmsg
    · rw [hres] at hmsg
      rw [KaspadHandler.listen_ok hres]
      exact FlagInv.listen stream hmsg

/-! ## The installed template -/

/-- What is installed is what was asked for last: a `State` of that template, or nothing. -/
def Installs (P : Prims) (fuel : ℕ) (miner : MinerManager) :
    Option (Option RpcBlock) → Prop
  | some (some b) => ∃ id st, State.new P fuel id b = .ok st ∧ miner.blockChannel.current = some st
  | _ => miner.blockChannel.current = none

/-- Whether a template is taken does not depend on the id it gets. -/
theorem new_of_new {b : RpcBlock} {id : USize} {st : State} (h : State.new P fuel id b = .ok st)
    (id' : USize) : ∃ st', State.new P fuel id' b = .ok st' := by
  obtain ⟨header, hash, matrix, hh, hp, hm, -⟩ := Pow.State.new_ok_iff.mp h
  exact ⟨_, Pow.State.new_ok_iff.mpr ⟨header, hash, matrix, hh, hp, hm, rfl⟩⟩

theorem processBlock_installs {miner : MinerManager} (hflag : FlagInv miner)
    (block : Option RpcBlock)
    (hacc : ∀ b, block = some b → ∃ id st, State.new P fuel id b = .ok st) :
    (miner.processBlock P fuel block).2 = .ok () ∧
      Installs P fuel (miner.processBlock P fuel block).1 (some block) := by
  cases block with
  | some b =>
    obtain ⟨id, st, hst⟩ := hacc b rfl
    obtain ⟨st', hst'⟩ := new_of_new hst miner.currentStateId
    rw [MinerManager.processBlock_some hst']
    exact ⟨rfl, miner.currentStateId, st', hst', rfl⟩
  | none =>
    rw [MinerManager.processBlock_none]
    refine ⟨rfl, ?_⟩
    by_cases hs : miner.isSynced = true
    · rw [if_pos hs]
      rfl
    · rw [if_neg hs]
      exact hflag (by simpa using hs)

theorem listen_installs (self : KaspadHandler) : ∀ (rs : List GetBlockTemplateResponseMessage)
    {miner : MinerManager} (last : Option (Option RpcBlock)), FlagInv miner →
    Installs P fuel miner last →
    (∀ r ∈ rs, ∀ b, effect self.mineWhenNotSynced r = some (some b) →
      ∃ id st, State.new P fuel id b = .ok st) →
    (listen P fuel (rs.map responseItem) self miner).2.2 = .ok () ∧
    Installs P fuel (listen P fuel (rs.map responseItem) self miner).2.1
      ((lastEffect self.mineWhenNotSynced rs).or last)
  | [], _, _, _, hlast, _ => ⟨rfl, hlast⟩
  | r :: rs, miner, last, hflag, hlast, hacc => by
    have hrest : ∀ r ∈ rs, ∀ b, effect self.mineWhenNotSynced r = some (some b) →
        ∃ id st, State.new P fuel id b = .ok st :=
      fun r' hr' => hacc r' (List.mem_cons_of_mem _ hr')
    have hmsg := handleMessage_response P fuel self r miner
    rw [List.map_cons, responseItem]
    cases heff : effect self.mineWhenNotSynced r with
    | none =>
      rw [heff] at hmsg
      have hlast' : lastEffect self.mineWhenNotSynced (r :: rs) =
          lastEffect self.mineWhenNotSynced rs := by
        rw [lastEffect, List.filterMap_cons_none heff, lastEffect]
      rw [KaspadHandler.listen_ok hmsg, hlast']
      exact listen_installs self rs last hflag hlast hrest
    | some block =>
      rw [heff] at hmsg
      obtain ⟨hok, hinst⟩ := processBlock_installs hflag block
        (fun b hb => hacc r List.mem_cons_self b (by rw [heff, hb]))
      -- What `r` asks for counts unless a later response asks for something.
      have hlast' : (lastEffect self.mineWhenNotSynced (r :: rs)).or last =
          (lastEffect self.mineWhenNotSynced rs).or (some block) := by
        rw [lastEffect, List.filterMap_cons_some heff, List.getLast?_cons, lastEffect]
        cases (rs.filterMap (effect self.mineWhenNotSynced)).getLast? <;> rfl
      have hflag' := hflag.processBlock P fuel block
      rcases hres : miner.processBlock P fuel block with ⟨miner', e | ⟨⟩⟩
      · rw [hres] at hok
        exact absurd hok (by simp)
      · rw [hres] at hinst hflag'
        have hmsg' : self.handleMessage P fuel (.getBlockTemplateResponse r) miner =
            (self, miner', .ok ()) := by
          rw [hmsg, ← hres]
        rw [KaspadHandler.listen_ok hmsg', hlast']
        exact listen_installs self rs (some block) hflag' hinst hrest

/-- **The last response that asks for anything decides.** From a new manager, for every sequence
of responses whose templates are all taken: every response is handled, and what is installed in
the end is the `State` of the template the last effective response brought, or nothing if it
brought none or there was no effective response. And whatever comes from the stream, taken or not,
"not synced" means that nothing is installed. -/
theorem templates_follow (self : KaspadHandler) (rs : List GetBlockTemplateResponseMessage)
    (hacc : ∀ r ∈ rs, ∀ b, effect self.mineWhenNotSynced r = some (some b) →
      ∃ id st, State.new P fuel id b = .ok st) :
    (listen P fuel (rs.map responseItem) self .new).2.2 = .ok () ∧
    Installs P fuel (listen P fuel (rs.map responseItem) self .new).2.1
      (lastEffect self.mineWhenNotSynced rs) ∧
    ∀ stream, (listen P fuel stream self .new).2.1.isSynced = false →
      (listen P fuel stream self .new).2.1.blockChannel.current = none := by
  obtain ⟨hok, hinst⟩ := listen_installs self rs none FlagInv.new rfl hacc
  rw [Option.or_none] at hinst
  exact ⟨hok, hinst, fun stream => FlagInv.listen stream FlagInv.new⟩

/-- A template, then twice "not synced". -/
theorem templates_follow_bench :
    (listen Pow.benchPrims 1 ([⟨some Pow.benchBlock, true, none⟩, ⟨none, false, none⟩,
      ⟨some Pow.benchBlock, false, none⟩].map responseItem)
      (.connect "kaspa:miner" false none) .new).2.1.blockChannel.current = none := by
  refine (templates_follow (.connect "kaspa:miner" false none) [⟨some Pow.benchBlock, true, none⟩,
    ⟨none, false, none⟩, ⟨some Pow.benchBlock, false, none⟩] ?_).2.1
  intro r hr b hb
  rcases List.mem_cons.mp hr with rfl | hr
  · have hblock : Pow.benchBlock = b := Option.some.inj (Option.some.inj hb)
    obtain ⟨st, hst⟩ := Pow.benchBlock_new 0
    exact ⟨0, st, by rw [← hblock, hst]⟩
  · rcases List.mem_cons.mp hr with rfl | hr
    · exact absurd (Option.some.inj hb) (by simp)
    · rw [List.mem_singleton.mp hr] at hb
      exact absurd (Option.some.inj hb) (by simp [KaspadHandler.connect])

end KaspaMiner
