import KaspaMiner.KaspadMessages
import KaspaMiner.Miner.Manager

/-!
# `client.rs`

The handler of one connection: what it asks kaspad for, and what it does with the answers. The
send channel is the list of what was put into it, as long as the other end is there. The stream is
a list of messages, each with what the shutdown flag was when it came.
-/

namespace KaspaMiner

open KaspaMiner.Pow (Halt)
open Miner (MinerManager)

/-- `Sender<KaspadMessage>`: a send fails when the receiver is gone. -/
structure SendChannel where
  closed : Bool
  sent : List KaspadMessage

structure KaspadHandler where
  sendChannel : SendChannel
  minerAddress : String
  mineWhenNotSynced : Bool
  devfundAddress : Option String
  devfundPercent : UInt16
  blockTemplateCtr : UInt64
  extraData : String

/-- The version of the crate. -/
def EXTRA_DATA : String := "0.2.7"

namespace KaspadHandler

/-- The handler of a connection that was made, and the two requests it has sent already. -/
def connect (minerAddress : String) (mineWhenNotSynced : Bool) (userAgentSuffix : Option String) :
    KaspadHandler :=
  let extraData := match userAgentSuffix with
    | some suffix => EXTRA_DATA ++ "/" ++ suffix
    | none => EXTRA_DATA
  { sendChannel :=
      { closed := false
        sent := [.getInfoRequest,
          .ofGetBlockTemplateRequest { payAddress := minerAddress, extraData }] }
    minerAddress, mineWhenNotSynced, devfundAddress := none, devfundPercent := 0
    blockTemplateCtr := 0, extraData }

def addDevfund (self : KaspadHandler) (address : String) (percent : UInt16) : KaspadHandler :=
  { self with devfundAddress := some address, devfundPercent := percent }

def clientSend (self : KaspadHandler) (msg : KaspadMessage) : KaspadHandler × Except Halt Unit :=
  if self.sendChannel.closed then
    (self, .error (.err "channel closed"))
  else
    ({ self with sendChannel.sent := self.sendChannel.sent ++ [msg] }, .ok ())

/-- Which address the next template is to pay. -/
def payAddress (self : KaspadHandler) : String :=
  match self.devfundAddress with
  | some devfundAddress =>
    if (self.blockTemplateCtr % 10000).toUInt16 ≤ self.devfundPercent then devfundAddress
    else self.minerAddress
  | none => self.minerAddress

def clientGetBlockTemplate (self : KaspadHandler) : KaspadHandler × Except Halt Unit :=
  let payAddress := self.payAddress
  let self := { self with blockTemplateCtr := self.blockTemplateCtr + 1 }
  self.clientSend (.ofGetBlockTemplateRequest { payAddress, extraData := self.extraData })

def handleMessage (P : Prims) (fuel : ℕ) (self : KaspadHandler) (msg : Payload)
    (miner : MinerManager) : KaspadHandler × MinerManager × Except Halt Unit :=
  match msg with
  | .newBlockTemplateNotification =>
    let (self, res) := self.clientGetBlockTemplate
    (self, miner, res)
  | .getBlockTemplateResponse template =>
    match template.block, template.isSynced, template.error with
    | some b, true, none => (self, miner.processBlock P fuel (some b))
    | some b, false, none =>
      if self.mineWhenNotSynced then (self, miner.processBlock P fuel (some b))
      else (self, miner.processBlock P fuel none)
    | none, false, none => (self, miner.processBlock P fuel none)
    | _, _, some _ => (self, miner, .ok ())
    | none, true, none => (self, miner, .ok ())
  | .getBlockResponse msg =>
    match msg.error with
    | some e => (self, miner, .error (.err e.message))
    | none => (self, miner, .ok ())
  | _ => (self, miner, .ok ())

/-- The stream is read until it ends, until shutdown is set, or until a message fails. -/
def listen (P : Prims) (fuel : ℕ) : List (KaspadMessage × Bool) → KaspadHandler → MinerManager →
    KaspadHandler × MinerManager × Except Halt Unit
  | [], self, miner => (self, miner, .ok ())
  | (msg, isShutdown) :: stream, self, miner =>
    if isShutdown then (self, miner, .ok ())
    else match msg.payload with
      | none => listen P fuel stream self miner
      | some payload =>
        match self.handleMessage P fuel payload miner with
        | (self, miner, .ok ()) => listen P fuel stream self miner
        | (self, miner, .error e) => (self, miner, .error e)

variable {P : Prims} {fuel : ℕ} {stream : List (KaspadMessage × Bool)} {self self' : KaspadHandler}
  {miner miner' : MinerManager} {payload : Payload}

theorem listen_ok (h : self.handleMessage P fuel payload miner = (self', miner', .ok ())) :
    listen P fuel (({ payload := some payload }, false) :: stream) self miner =
      listen P fuel stream self' miner' := by
  rw [listen, if_neg (by simp)]
  simp only [h]

theorem listen_error {e : Halt}
    (h : self.handleMessage P fuel payload miner = (self', miner', .error e)) :
    listen P fuel (({ payload := some payload }, false) :: stream) self miner =
      (self', miner', .error e) := by
  unfold listen
  rw [if_neg (by simp)]
  simp only [h]

end KaspadHandler

end KaspaMiner
