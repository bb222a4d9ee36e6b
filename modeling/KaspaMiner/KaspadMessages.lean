import KaspaMiner.Pow.State

/-!
# `kaspad_messages.rs`

The messages the miner sends, and the hash of a block.
-/

namespace KaspaMiner

namespace KaspadMessage

def getInfoRequest : KaspadMessage := { payload := some .getInfoRequest }

def notifyBlockAdded : KaspadMessage := { payload := some .notifyBlockAddedRequest }

def submitBlock (block : RpcBlock) : KaspadMessage :=
  { payload := some (.submitBlockRequest { block := some block, allowNonDaaBlocks := false }) }

def ofGetBlockTemplateRequest (a : GetBlockTemplateRequestMessage) : KaspadMessage :=
  { payload := some (.getBlockTemplateRequest a) }

def ofNotifyNewBlockTemplateRequest : KaspadMessage :=
  { payload := some .notifyNewBlockTemplateRequest }

end KaspadMessage

/-- The header in full, nonce and timestamp included. -/
def RpcBlock.blockHash (P : Prims) (self : RpcBlock) : Except Pow.Panic (Option Hash) :=
  match self.header with
  | none => .ok none
  | some header => do
    let hasher ← Pow.serializeHeader Pow.HeaderHasher.new header false
    return some (hasher.finalize P)

end KaspaMiner
