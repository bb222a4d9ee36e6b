import KaspaMiner.KaspadMessages
import KaspaMiner.Lib.Run

/-!
# The worker thread of `miner.rs`

The loop of `launch_cpu_miner`, with the program counter at every point where the thread touches
something it shares: the block channel, the send channel, the hash counter, the shutdown flag. The
proof-of-work test in between is the worker's own business and is one step, `tested`.

What the outside answers is part of the `Event`: the content a wait came back with, whether a send
went through, whether shutdown was set, what a poll found. `WorkerStep` takes any answer; which
ones can come is up to whoever the worker runs with.

The sleep of `--throttle` is at the end of an iteration and changes nothing.
-/

namespace KaspaMiner
namespace Miner

open KaspaMiner.Pow (Panic State)

inductive WorkerPc where
  /-- The head of the loop. -/
  | top
  /-- In `found_block`, about to send. -/
  | send (msg : KaspadMessage)
  /-- After a multiple of 128: `hashes_tried.fetch_add(128)`… -/
  | credit
  /-- …`shutdown.is_shutdown()`… -/
  | check
  /-- …`block_channel.get_changed()`. -/
  | poll
  /-- Returned, without and with an error. -/
  | done
  | failed
  | panicked (p : Panic)

structure Worker where
  nonce : UInt64
  state : Option State
  pc : WorkerPc

inductive Event where
  | waited (content : Option State)
  | tested (state : State)
  | sent (msg : KaspadMessage) (ok : Bool)
  | credited
  | checked (shutdown : Bool)
  | polled (changed : Option (Option State))

namespace Worker

/-- A new thread, its nonce drawn at random. -/
def start (nonce : UInt64) : Worker := { nonce, state := none, pc := .top }

/-- `nonce += Wrapping(1)`, and whether it is a multiple of 128 now. -/
def advance (w : Worker) : Worker :=
  let nonce := w.nonce + 1
  { w with nonce, pc := if nonce % 128 = 0 then .credit else .top }

/-- `found_block`, up to the send. -/
def foundBlock (P : Prims) (block : RpcBlock) : WorkerPc :=
  match block.blockHash P with
  | .error p => .panicked p
  | .ok none => .panicked (.expect "We just got it from the state, we should be able to hash it")
  | .ok (some _) => .send (.submitBlock block)

/-- The test of the state with the nonce in it. -/
def test (P : Prims) (w : Worker) (st : State) : Worker :=
  let st := { st with nonce := w.nonce }
  let w := { w with state := some st }
  match st.generateBlockIfPow P with
  | .error p => { w with pc := .panicked p }
  | .ok none => w.advance
  | .ok (some block) => { w with pc := foundBlock P block }

@[simp] theorem advance_nonce (w : Worker) : w.advance.nonce = w.nonce + 1 := rfl

@[simp] theorem advance_state (w : Worker) : w.advance.state = w.state := rfl

theorem advance_pc (w : Worker) :
    (w.nonce + 1) % 128 = 0 ∧ w.advance.pc = .credit ∨
    (w.nonce + 1) % 128 ≠ 0 ∧ w.advance.pc = .top := by
  unfold advance
  by_cases h : (w.nonce + 1) % 128 = 0
  · exact .inl ⟨h, if_pos h⟩
  · exact .inr ⟨h, if_neg h⟩

/-- After a test the worker goes on, has a block to send, or panics. -/
theorem test_cases (P : Prims) (w : Worker) (st : State) :
    w.test P st = advance { w with state := some { st with nonce := w.nonce } } ∨
    (∃ msg, w.test P st =
      { w with state := some { st with nonce := w.nonce }, pc := .send msg }) ∨
    ∃ p, w.test P st =
      { w with state := some { st with nonce := w.nonce }, pc := .panicked p } := by
  rw [test]
  cases State.generateBlockIfPow P { st with nonce := w.nonce } with
  | error p => exact .inr (.inr ⟨p, rfl⟩)
  | ok block =>
    cases block with
    | none => exact .inl rfl
    | some b =>
      simp only [foundBlock]
      cases b.blockHash P with
      | error p => exact .inr (.inr ⟨p, rfl⟩)
      | ok hash =>
        cases hash with
        | none => exact .inr (.inr ⟨_, rfl⟩)
        | some hash => exact .inr (.inl ⟨_, rfl⟩)

end Worker

inductive WorkerStep (P : Prims) : Worker → Event → Worker → Prop
  /-- `state = block_channel.wait_for_change().as_deref().cloned()` -/
  | wait {w : Worker} {content : Option State} (hpc : w.pc = .top) (hstate : w.state = none) :
      WorkerStep P w (.waited content) { w with state := content }
  | test {w : Worker} {st : State} (hpc : w.pc = .top) (hstate : w.state = some st) :
      WorkerStep P w (.tested { st with nonce := w.nonce }) (w.test P st)
  /-- `send_channel.blocking_send(…)?` -/
  | send {w : Worker} {msg : KaspadMessage} {ok : Bool} (hpc : w.pc = .send msg) :
      WorkerStep P w (.sent msg ok) (if ok then w.advance else { w with pc := .failed })
  | credit {w : Worker} (hpc : w.pc = .credit) : WorkerStep P w .credited { w with pc := .check }
  | check {w : Worker} {shutdown : Bool} (hpc : w.pc = .check) :
      WorkerStep P w (.checked shutdown) { w with pc := if shutdown then .done else .poll }
  /-- `if let Some(new_state) = block_channel.get_changed() { state = new_state }` -/
  | poll {w : Worker} {changed : Option (Option State)} (hpc : w.pc = .poll) :
      WorkerStep P w (.polled changed) { w with state := changed.getD w.state, pc := .top }

end Miner
end KaspaMiner
