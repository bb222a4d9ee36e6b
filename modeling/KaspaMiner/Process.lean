import KaspaMiner.Client
import KaspaMiner.Main

/-!
# The whole process

`World` takes its templates from nowhere, and a send of its workers may go either way. Here `main`
goes through its loop one await at a time: it connects, asks for notifications and for a template,
starts the workers and listens. What it sends and what the workers of the same connection send goes
into one bounded channel, and the other end of that channel takes the messages out in order, until
it is dropped.

What is documented behaviour of `tokio`'s channel, and nothing else, is in the rules: `send` and
`blocking_send` wait while the channel is full, they fail if the other end is gone, and a message
that was put in is taken out after those that were put in before it.
-/

namespace KaspaMiner

open KaspaMiner.Pow (Halt)
open Miner (Connection Event MinerManager)

/-- What `main` hands on of the options, the number of threads worked out. -/
structure Config where
  miningAddress : String
  mineWhenNotSynced : Bool
  userAgentSuffix : Option String
  devfundAddress : Option String
  devfundPercent : UInt16
  numThreads : UInt16

/-- The handler of a new connection. -/
def Config.handler (cfg : Config) : KaspadHandler :=
  let client := KaspadHandler.connect cfg.miningAddress cfg.mineWhenNotSynced cfg.userAgentSuffix
  match cfg.devfundAddress with
  | some devfundAddress => client.addDevfund devfundAddress cfg.devfundPercent
  | none => client

/-- A handler, and how far the other end of its send channel is. -/
structure Link where
  handler : KaspadHandler
  taken : ℕ

namespace Link

def closed (l : Link) : Bool := l.handler.sendChannel.closed

/-- Everything that was ever put into the channel. -/
def sent (l : Link) : List KaspadMessage := l.handler.sendChannel.sent

/-- `mpsc::channel(3)` has room. -/
def Room (l : Link) : Prop := l.sent.length < l.taken + 3

/-- A send does not have to wait. -/
def Ready (l : Link) : Prop := l.closed = true ∨ l.Room

def push (l : Link) (msg : KaspadMessage) : Link :=
  { l with handler.sendChannel.sent := l.sent ++ [msg] }

def close (l : Link) : Link := { l with handler.sendChannel.closed := true }

/-- What the channel answers to a worker that sends. -/
def Answers (l : Link) : Event → Prop
  | .sent _ true => l.closed = false ∧ l.Room
  | .sent _ false => l.closed = true
  | _ => True

/-- The channel after it. -/
def after (l : Link) : Event → Link
  | .sent msg true => l.push msg
  | _ => l

end Link

/-- Where `main` is. -/
inductive Phase where
  | connect
  /-- `client_send(NotifyNewBlockTemplateRequestMessage {})` -/
  | subscribe
  /-- `client_get_block_template()` -/
  | request
  /-- `MinerManager::new(…)` -/
  | launch
  | listen
  /-- On the way out, the manager dropped and the flag not set yet. -/
  | unwind
  | returned

structure Process where
  main : Phase
  /-- One for each connection that was made. -/
  links : List Link
  /-- One for each manager that was made. -/
  connections : List Connection
  shutdown : Bool

namespace Process

def start : Process := { main := .connect, links := [], connections := [], shutdown := false }

inductive Action where
  | connect
  | subscribe
  | request
  | launch (nonces : List UInt64)
  /-- A message of connection `m` that is dealt with, and one that ends `main`. -/
  | message (m fuel : ℕ) (msg : KaspadMessage)
  | failing (fuel : ℕ) (msg : KaspadMessage)
  /-- The other end of the send channel of connection `m` takes a message out, or is dropped. -/
  | take (m : ℕ)
  | close (m : ℕ)
  | work (m i : ℕ) (e : Event)
  | log (m : ℕ) (hashes : UInt64)
  /-- The stream ends, and it fails. -/
  | disconnect
  | error
  /-- `listen` finds the flag set. -/
  | stop
  | exit

/-- The handler of connection `m` is the one there is. -/
def Last (p : Process) (m : ℕ) (l : Link) : Prop :=
  m + 1 = p.links.length ∧ p.links[m]? = some l

/-- Where a request of `main` leads. -/
def next (res : Except Halt Unit) (ok : Phase) : Phase :=
  match res with
  | .ok () => ok
  | .error _ => .unwind

inductive Step (P : Prims) (cfg : Config) : Process → Action → Process → Prop
  | connect {p : Process} (hmain : p.main = .connect) (hshutdown : p.shutdown = false) :
      Step P cfg p .connect
        { p with main := .subscribe, links := p.links ++ [{ handler := cfg.handler, taken := 0 }] }
  | subscribe {p : Process} {m : ℕ} {l : Link} {handler : KaspadHandler} {res : Except Halt Unit}
      (hmain : p.main = .subscribe) (hlast : p.Last m l) (hready : l.Ready)
      (hsend : l.handler.clientSend .ofNotifyNewBlockTemplateRequest = (handler, res)) :
      Step P cfg p .subscribe
        { p with main := next res .request, links := p.links.set m { l with handler } }
  | request {p : Process} {m : ℕ} {l : Link} {handler : KaspadHandler} {res : Except Halt Unit}
      (hmain : p.main = .request) (hlast : p.Last m l) (hready : l.Ready)
      (hsend : l.handler.clientGetBlockTemplate = (handler, res)) :
      Step P cfg p .request
        { p with main := next res .launch, links := p.links.set m { l with handler } }
  | launch {p : Process} {nonces : List UInt64} (hmain : p.main = .launch)
      (hlen : nonces.length = cfg.numThreads.toNat) :
      Step P cfg p (.launch nonces)
        { p with main := .listen, connections := p.connections ++ [.new nonces] }
  | message {p : Process} {m fuel : ℕ} {msg : KaspadMessage} {l : Link} {conn : Connection}
      {handler : KaspadHandler} {manager : MinerManager} (hmain : p.main = .listen)
      (hshutdown : p.shutdown = false) (hlast : p.Last m l)
      (hconn : p.connections[m]? = some conn) (hready : handler = l.handler ∨ l.Ready)
      (hlisten : l.handler.listen P fuel [(msg, false)] conn.manager = (handler, manager, .ok ())) :
      Step P cfg p (.message m fuel msg)
        { p with
          links := p.links.set m { l with handler }
          connections := p.connections.set m { conn with manager } }
  /-- A template that draws matrices for ever does not fail. -/
  | failing {p : Process} {m fuel : ℕ} {msg : KaspadMessage} {l : Link} {conn : Connection}
      {handler : KaspadHandler} {manager : MinerManager} {e : Halt} (hmain : p.main = .listen)
      (hshutdown : p.shutdown = false) (hlast : p.Last m l)
      (hconn : p.connections[m]? = some conn) (hready : handler = l.handler ∨ l.Ready)
      (hlisten : l.handler.listen P fuel [(msg, false)] conn.manager = (handler, manager, .error e))
      (hhalt : e ≠ .outOfFuel) :
      Step P cfg p (.failing fuel msg)
        { p with main := .unwind, links := p.links.set m { l with handler } }
  | take {p : Process} {m : ℕ} {l : Link} (hl : p.links[m]? = some l) (hopen : l.closed = false)
      (hwaiting : l.taken < l.sent.length) :
      Step P cfg p (.take m) { p with links := p.links.set m { l with taken := l.taken + 1 } }
  | close {p : Process} {m : ℕ} {l : Link} (hl : p.links[m]? = some l) :
      Step P cfg p (.close m) { p with links := p.links.set m l.close }
  | work {p : Process} {m i : ℕ} {e : Event} {l : Link} {conn conn' : Connection}
      (hl : p.links[m]? = some l) (hconn : p.connections[m]? = some conn)
      (hstep : conn.Step P p.shutdown (.work i e) conn') (hanswers : l.Answers e) :
      Step P cfg p (.work m i e)
        { p with
          links := p.links.set m (l.after e)
          connections := p.connections.set m conn' }
  | log {p : Process} {m : ℕ} {hashes : UInt64} {conn conn' : Connection} (hmain : p.main = .listen)
      (hlast : m + 1 = p.connections.length) (hconn : p.connections[m]? = some conn)
      (hstep : conn.Step P p.shutdown (.log hashes) conn') :
      Step P cfg p (.log m hashes) { p with connections := p.connections.set m conn' }
  | disconnect {p : Process} (hmain : p.main = .listen) :
      Step P cfg p .disconnect { p with main := .connect }
  | error {p : Process} (hmain : p.main = .listen) :
      Step P cfg p .error { p with main := .unwind }
  | stop {p : Process} (hmain : p.main = .listen) (hshutdown : p.shutdown = true) :
      Step P cfg p .stop { p with main := .connect }
  /-- From the head of the loop, too: a connection that cannot be made, or shutdown. -/
  | exit {p : Process} (hmain : p.main = .connect ∨ p.main = .unwind) :
      Step P cfg p .exit { p with main := .returned, shutdown := true }

end Process

end KaspaMiner
