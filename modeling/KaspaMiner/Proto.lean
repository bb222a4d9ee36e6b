import KaspaMiner.Rust

/-!
# The messages of `proto/rpc.proto` the miner handles

The records `prost` generates, with the fields of the `.proto` file: a message field is optional
and a repeated field is a `Vec`. A block template is taken apart only down to its header; the
transactions and the verbose data are carried along and handed back with a found block, so they
are here field by field and nothing below reads them.
-/

namespace KaspaMiner

structure RpcError where
  message : String

structure RpcOutpoint where
  transactionId : String
  index : UInt32

structure RpcScriptPublicKey where
  version : UInt32
  scriptPublicKey : String

structure RpcTransactionInputVerboseData where

structure RpcTransactionInput where
  previousOutpoint : Option RpcOutpoint
  signatureScript : String
  sequence : UInt64
  sigOpCount : UInt32
  verboseData : Option RpcTransactionInputVerboseData
  computeBudget : UInt32

structure RpcTransactionOutputVerboseData where
  scriptPublicKeyType : String
  scriptPublicKeyAddress : String

structure RpcCovenantBinding where
  authorizingInput : UInt32
  covenantId : String

structure RpcTransactionOutput where
  amount : UInt64
  scriptPublicKey : Option RpcScriptPublicKey
  verboseData : Option RpcTransactionOutputVerboseData
  covenant : Option RpcCovenantBinding

structure RpcTransactionVerboseData where
  transactionId : String
  hash : String
  mass : UInt64
  blockHash : String
  blockTime : UInt64

structure RpcTransaction where
  version : UInt32
  inputs : Vec RpcTransactionInput
  outputs : Vec RpcTransactionOutput
  lockTime : UInt64
  subnetworkId : String
  gas : UInt64
  payload : String
  verboseData : Option RpcTransactionVerboseData
  mass : UInt64

/-- `difficulty` is an `f64`, carried as its 64 bits. -/
structure RpcBlockVerboseData where
  hash : String
  difficulty : UInt64
  selectedParentHash : String
  transactionIds : Vec String
  isHeaderOnly : Bool
  blueScore : UInt64
  childrenHashes : Vec String
  mergeSetBluesHashes : Vec String
  mergeSetRedsHashes : Vec String
  isChainBlock : Bool

structure RpcBlockLevelParents where
  parentHashes : Vec String

structure RpcBlockHeader where
  version : UInt32
  parents : Vec RpcBlockLevelParents
  hashMerkleRoot : String
  acceptedIdMerkleRoot : String
  utxoCommitment : String
  timestamp : Int64
  bits : UInt32
  nonce : UInt64
  daaScore : UInt64
  blueWork : String
  pruningPoint : String
  blueScore : UInt64

structure RpcBlock where
  header : Option RpcBlockHeader
  transactions : Vec RpcTransaction
  verboseData : Option RpcBlockVerboseData

/-! ## Requests and responses -/

structure SubmitBlockRequestMessage where
  block : Option RpcBlock
  allowNonDaaBlocks : Bool

structure SubmitBlockResponseMessage where
  error : Option RpcError

structure GetBlockTemplateRequestMessage where
  payAddress : String
  extraData : String

/-- `isSynced` is whether kaspad thinks that it's synced. -/
structure GetBlockTemplateResponseMessage where
  block : Option RpcBlock
  isSynced : Bool
  error : Option RpcError

structure GetBlockResponseMessage where
  block : Option RpcBlock
  error : Option RpcError

structure GetInfoResponseMessage where
  serverVersion : String
  error : Option RpcError

structure NotifyNewBlockTemplateResponseMessage where
  error : Option RpcError

/-- `kaspad_message::Payload`. Whatever the miner neither sends nor looks at is `other`. -/
inductive Payload where
  | getInfoRequest
  | getBlockTemplateRequest (msg : GetBlockTemplateRequestMessage)
  | notifyBlockAddedRequest
  | notifyNewBlockTemplateRequest
  | submitBlockRequest (msg : SubmitBlockRequestMessage)
  | newBlockTemplateNotification
  | getBlockTemplateResponse (msg : GetBlockTemplateResponseMessage)
  | submitBlockResponse (msg : SubmitBlockResponseMessage)
  | getBlockResponse (msg : GetBlockResponseMessage)
  | getInfoResponse (msg : GetInfoResponseMessage)
  | notifyNewBlockTemplateResponse (msg : NotifyNewBlockTemplateResponseMessage)
  | other

structure KaspadMessage where
  payload : Option Payload

/-- The same block with another nonce in its header, if it has a header. -/
def RpcBlock.withNonce (b : RpcBlock) (n : UInt64) : RpcBlock :=
  { b with header := b.header.map fun h => { h with nonce := n } }

end KaspaMiner
