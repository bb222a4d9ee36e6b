import KaspaMiner.Miner.Threaded
import KaspaMiner.Process

/-!
# One connection as a whole

In `Process` the workers look at the block channel in one step, and in `Miner.Threaded`, which has
the code of `WatchSwap`, a send may go either way at any moment. A `Session` is a connection with
both: the threads over the code of `WatchSwap`, and the bounded send channel that they share with
`main`.

It begins with the handler that `connect` made and is followed for as long as `main` goes on to
listen, or listens. What ends it (a send of `main` that fails, the end of the stream) and what comes
after that is up to `Process`.
-/

namespace KaspaMiner

open Miner (Event Threaded)

structure Session (Addr : Type) where
  main : Phase
  link : Link
  threaded : Threaded Addr

namespace Session
variable {Addr : Type}

/-- Connected, and no threads yet. -/
def start (cfg : Config) : Session Addr where
  main := .subscribe
  link := { handler := cfg.handler, taken := 0 }
  threaded := .start []

inductive Action (Addr : Type) where
  | subscribe
  | request
  | launch (nonces : List UInt64)
  /-- A notification, which `handle_message` answers with a request. -/
  | notified
  /-- Anything the workers do, and what the listener does in `process_block`. -/
  | conn (a : Threaded.Action Addr)
  /-- The other end of the send channel takes a message out, or is dropped. -/
  | take
  | close

inductive Step [DecidableEq Addr] (P : Prims) (cfg : Config) :
    Session Addr → Action Addr → Session Addr → Prop
  | subscribe {c : Session Addr} {handler : KaspadHandler} (hmain : c.main = .subscribe)
      (hready : c.link.Ready)
      (hsend : c.link.handler.clientSend .ofNotifyNewBlockTemplateRequest = (handler, .ok ())) :
      Step P cfg c .subscribe { c with main := .request, link := { c.link with handler } }
  | request {c : Session Addr} {handler : KaspadHandler} (hmain : c.main = .request)
      (hready : c.link.Ready)
      (hsend : c.link.handler.clientGetBlockTemplate = (handler, .ok ())) :
      Step P cfg c .request { c with main := .launch, link := { c.link with handler } }
  | launch {c : Session Addr} {nonces : List UInt64} (hmain : c.main = .launch)
      (hlen : nonces.length = cfg.numThreads.toNat) :
      Step P cfg c (.launch nonces) { c with main := .listen, threaded := .start nonces }
  /-- Between two messages only, the listener being the one who sends. -/
  | notified {c : Session Addr} {handler : KaspadHandler} (hmain : c.main = .listen)
      (hshutdown : c.threaded.shutdown = false) (hidle : c.threaded.cell.pc none = .idle)
      (hready : c.link.Ready)
      (hsend : c.link.handler.clientGetBlockTemplate = (handler, .ok ())) :
      Step P cfg c .notified { c with link := { c.link with handler } }
  /-- A worker that sends gets the answer of the channel, and waits while there is none. -/
  | conn {c : Session Addr} {a : Threaded.Action Addr} {threaded : Threaded Addr}
      (hmain : c.main = .listen) (hanswers : ∀ e ∈ a.event, c.link.Answers e)
      (hstep : Threaded.Step P c.threaded a threaded) :
      Step P cfg c (.conn a) { c with link := a.event.elim c.link c.link.after, threaded }
  | take {c : Session Addr} (hopen : c.link.closed = false)
      (hwaiting : c.link.taken < c.link.sent.length) :
      Step P cfg c .take { c with link := { c.link with taken := c.link.taken + 1 } }
  | close {c : Session Addr} : Step P cfg c .close { c with link := c.link.close }

end Session

end KaspaMiner
