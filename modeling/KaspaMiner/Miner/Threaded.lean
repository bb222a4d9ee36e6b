import KaspaMiner.Miner.Connection
import KaspaMiner.SwapRust

/-!
# A connection over the code of `WatchSwap`

A `Connection` looks at its channel in one step. Here the same manager and the same workers call
`swap`, `get_changed` and `wait_for_change` as `swap_rust.rs` has them: a call takes many steps, any
other thread may go on between two of them, and a worker learns what it was told when its call
returns, which may be long after the cell was loaded.

Worker `i` is the thread `some i` and has the handle `some i`. The listener is the thread `none`; it
processes the templates, and swaps through the manager's own handle.
-/

namespace KaspaMiner
namespace Miner

open KaspaMiner.Pow (State)
open SwapRust (Arc Config)

abbrev Cell (Addr : Type) := Config State Addr (Option ℕ) (Option ℕ)

structure Threaded (Addr : Type) where
  cell : Cell Addr
  isSynced : Bool
  currentStateId : USize
  workers : List Worker
  hashesTried : UInt64
  shutdown : Bool

/-- `process_block` up to the swap: what it makes of `is_synced` and `current_state_id`, and what
there is to swap in, if it comes to that. -/
def prepare (P : Prims) (fuel : ℕ) (isSynced : Bool) (currentStateId : USize) :
    Option RpcBlock → (Bool × USize) × Option (Option State)
  | some b =>
    match State.new P fuel currentStateId b with
    | .error _ => ((true, currentStateId + 1), none)
    | .ok state => ((true, currentStateId + 1), some (some state))
  | none =>
    if isSynced then ((false, currentStateId), some none)
    else ((false, currentStateId), none)

namespace Threaded
variable {Addr : Type}

/-- `WatchSwap::empty`, and a clone of its handle for each of `n` workers. -/
def cloned (n : ℕ) : Cell Addr :=
  { SwapRust.empty none with
    handles := fun h =>
      if h.all (· < n) then some { cached := none, seen := 0, reports := [] } else none }

/-- `MinerManager::new`: an empty cell, and a worker for each of the random numbers drawn. -/
def start (nonces : List UInt64) : Threaded Addr where
  cell := cloned nonces.length
  isSynced := true
  currentStateId := 0
  workers := nonces.map .start
  hashesTried := 0
  shutdown := false

inductive Action (Addr : Type) where
  /-- `process_block`, up to the store of its `swap` or up to its return without one. -/
  | process (fuel : ℕ) (block : Option RpcBlock)
  /-- A call begins, or goes on. -/
  | cell (a : SwapRust.Action State Addr (Option ℕ) (Option ℕ))
  /-- A call of worker `i` returns, or it does something else. -/
  | work (i : ℕ) (e : Event)
  | log (hashes : UInt64)
  | shutdown

/-- What some worker does. -/
def Action.event : Action Addr → Option Event
  | work _ e => some e
  | _ => none

/-- What worker `i` does. -/
def Action.own (i : ℕ) : Action Addr → Option Event
  | work j e => if j = i then some e else none
  | _ => none

def own (i : ℕ) (as : List (Action Addr)) : List Event := as.filterMap (Action.own i)

def Action.processed : Action Addr → Option (ℕ × Option RpcBlock)
  | process fuel block => some (fuel, block)
  | _ => none

/-- The templates, in order. -/
def processed (as : List (Action Addr)) : List (ℕ × Option RpcBlock) :=
  as.filterMap Action.processed

/-- What has nothing to do with the cell. -/
def Action.apart : Action Addr → Option Mining.Action
  | work i e => if e.loads then none else some (.conn (.work i e))
  | log hashes => some (.conn (.log hashes))
  | shutdown => some .shutdown
  | _ => none

/-- What has nothing to do with the cell, in order. -/
def apart (as : List (Action Addr)) : List Mining.Action := as.filterMap Action.apart

/-- A step of a call after which the caller knows nothing yet. -/
inductive Inside (c : Cell Addr) : SwapRust.Action State Addr (Option ℕ) (Option ℕ) → Prop
  | store (t : Option ℕ) : Inside c (.store t)
  | lock (t : Option ℕ) : Inside c (.lock t)
  | notify (t : Option ℕ) : Inside c (.notify t)
  | unlock {t : Option ℕ} {old : Option (Arc State Addr)} (hpc : c.pc t = .swapUnlock old) :
      Inside c (.unlock t)
  | load (t : Option ℕ) : Inside c (.load t)
  | compare {t h : Option ℕ} {guard : Option (Arc State Addr)} {pos : ℕ}
      (hpc : c.pc t = .compare .waitForChange h guard pos) (changed : Bool) :
      Inside c (.compare t changed)
  | park (t : Option ℕ) : Inside c (.park t)
  | spurious (t : Option ℕ) : Inside c (.spurious t)
  | dropReturned (arc : Arc State Addr) : Inside c (.dropReturned arc)

/-- The last step of a call of worker `i`, and what the worker reads from its handle then. -/
inductive Returns (c : Cell Addr) (i : ℕ) :
    SwapRust.Action State Addr (Option ℕ) (Option ℕ) → Event → Prop
  | getChanged {guard : Option (Arc State Addr)} {pos : ℕ}
      (hpc : c.pc (some i) = .compare .getChanged (some i) guard pos) (changed : Bool) :
      Returns c i (.compare (some i) changed)
        (.polled (if changed then some (guard.map Arc.val) else none))
  | waitForChange {hd : SwapRust.Handle State Addr}
      (hpc : c.pc (some i) = .waitUnlock (some i)) (hh : c.handles (some i) = some hd) :
      Returns c i (.unlock (some i)) (.waited (hd.cached.map Arc.val))

/-- Whether a send goes through is left open, and none of them waits: the capacity of the send
channel is not modelled here. `Session` adds it. -/
inductive Step [DecidableEq Addr] (P : Prims) : Threaded Addr → Action Addr → Threaded Addr → Prop
  | skip {c : Threaded Addr} {fuel : ℕ} {block : Option RpcBlock} {fields : Bool × USize}
      (hidle : c.cell.pc none = .idle)
      (hprepare : prepare P fuel c.isSynced c.currentStateId block = (fields, none)) :
      Step P c (.process fuel block) { c with isSynced := fields.1, currentStateId := fields.2 }
  | callSwap {c : Threaded Addr} {fuel : ℕ} {block : Option RpcBlock} {fields : Bool × USize}
      {new : Option (Arc State Addr)} {cell : Cell Addr}
      (hprepare : prepare P fuel c.isSynced c.currentStateId block =
        (fields, some (new.map Arc.val)))
      (hcell : SwapRust.Step c.cell (.callSwap none new) cell) :
      Step P c (.process fuel block)
        { c with cell, isSynced := fields.1, currentStateId := fields.2 }
  | callGet {c : Threaded Addr} {i : ℕ} {w : Worker} {cell : Cell Addr}
      (hw : c.workers[i]? = some w) (hpc : w.pc = .poll)
      (hcell : SwapRust.Step c.cell (.callGet (some i) (some i)) cell) :
      Step P c (.cell (.callGet (some i) (some i))) { c with cell }
  | callWait {c : Threaded Addr} {i : ℕ} {w : Worker} {cell : Cell Addr}
      (hw : c.workers[i]? = some w) (hpc : w.pc = .top) (hstate : w.state = none)
      (hcell : SwapRust.Step c.cell (.callWait (some i) (some i)) cell) :
      Step P c (.cell (.callWait (some i) (some i))) { c with cell }
  | inside {c : Threaded Addr} {a : SwapRust.Action State Addr (Option ℕ) (Option ℕ)}
      {cell : Cell Addr} (hinside : Inside c.cell a) (hcell : SwapRust.Step c.cell a cell) :
      Step P c (.cell a) { c with cell }
  | returns {c : Threaded Addr} {i : ℕ} {a : SwapRust.Action State Addr (Option ℕ) (Option ℕ)}
      {e : Event} {w w' : Worker} {cell : Cell Addr} (hreturns : Returns c.cell i a e)
      (hcell : SwapRust.Step c.cell a cell) (hw : c.workers[i]? = some w)
      (hwork : WorkerStep P w e w') :
      Step P c (.work i e) { c with cell, workers := c.workers.set i w' }
  /-- Anything but looking at the cell. -/
  | work {c : Threaded Addr} {i : ℕ} {e : Event} {w w' : Worker} (hw : c.workers[i]? = some w)
      (hidle : c.cell.pc (some i) = .idle) (hloads : e.loads = false)
      (hflag : ∀ isShutdown, e = .checked isShutdown → isShutdown = c.shutdown)
      (hwork : WorkerStep P w e w') :
      Step P c (.work i e)
        { c with workers := c.workers.set i w', hashesTried := c.hashesTried + e.credits }
  | log {c : Threaded Addr} : Step P c (.log c.hashesTried) { c with hashesTried := 0 }
  | shutdown {c : Threaded Addr} : Step P c .shutdown { c with shutdown := true }

end Threaded

end Miner
end KaspaMiner
