import KaspaMiner.Miner.Manager
import KaspaMiner.Miner.Worker

/-!
# A manager and its threads

What `MinerManager::new` sets up: the manager, `n_cpus` worker threads with a clone of its block
channel each, and the hash counter they share with the logger. `Step` takes them one access to
something shared at a time, in any order. A worker's event is what the shared state answers at that
moment (`Thread.Observes`).

`Mining` is a connection with the shutdown flag beside it. Templates may be processed and shutdown
may be set whenever their owners like; `Main` says what `main` does with them.
-/

namespace KaspaMiner
namespace Miner

open KaspaMiner.Pow (State)
open Lib (Run)

structure Thread where
  worker : Worker
  /-- Where its block channel was when it was loaded last. -/
  seen : ℕ

namespace Event

def loads : Event → Bool
  | waited _ | polled _ => true
  | _ => false

/-- What `hashes_tried` goes up by. -/
def credits : Event → UInt64
  | credited => 128
  | _ => 0

end Event

namespace Thread

def start (nonce : UInt64) : Thread := { worker := .start nonce, seen := 0 }

/-- What the worker is told is what is there. A wait only comes back with a change. Whether a send
goes through is up to the other end of the send channel, and either may happen. -/
def Observes (t : Thread) (ch : Channel State) (shutdown : Bool) : Event → Prop
  | .waited content => ch.getChanged t.seen = some content
  | .polled changed => ch.getChanged t.seen = changed
  | .checked isShutdown => isShutdown = shutdown
  | _ => True

inductive Step (P : Prims) (ch : Channel State) (shutdown : Bool) : Thread → Event → Thread → Prop
  | mk {t : Thread} {e : Event} {w : Worker} (hworker : WorkerStep P t.worker e w)
      (hsees : t.Observes ch shutdown e) :
      Step P ch shutdown t e { worker := w, seen := if e.loads then ch.pos else t.seen }

end Thread

structure Connection where
  manager : MinerManager
  threads : List Thread
  hashesTried : UInt64

namespace Connection

/-- `MinerManager::new`: one thread for each of the random numbers drawn. -/
def new (nonces : List UInt64) : Connection :=
  { manager := .new, threads := nonces.map .start, hashesTried := 0 }

/-- The channel its manager and its threads share. -/
def channel (conn : Connection) : Channel State := conn.manager.blockChannel

inductive Action where
  | process (fuel : ℕ) (block : Option RpcBlock)
  | work (i : ℕ) (e : Event)
  /-- A tick of `log_hashrate`, with the count it took. -/
  | log (hashes : UInt64)

/-- What thread `i` does. -/
def Action.own (i : ℕ) : Action → Option Event
  | work j e => if j = i then some e else none
  | _ => none

inductive Step (P : Prims) (shutdown : Bool) : Connection → Action → Connection → Prop
  | process {conn : Connection} {fuel : ℕ} {block : Option RpcBlock} :
      Step P shutdown conn (.process fuel block)
        { conn with manager := (conn.manager.processBlock P fuel block).1 }
  | work {conn : Connection} {i : ℕ} {e : Event} {t t' : Thread} (ht : conn.threads[i]? = some t)
      (hstep : t.Step P conn.channel shutdown e t') :
      Step P shutdown conn (.work i e)
        { conn with threads := conn.threads.set i t', hashesTried := conn.hashesTried + e.credits }
  /-- `hashes_tried.swap(0)` -/
  | log {conn : Connection} :
      Step P shutdown conn (.log conn.hashesTried) { conn with hashesTried := 0 }

variable {P : Prims} {shutdown : Bool} {conn conn' : Connection} {a : Action}

theorem new_thread {nonces : List UInt64} {i : ℕ} {t : Thread}
    (h : (new nonces).threads[i]? = some t) :
    ∃ nonce, nonces[i]? = some nonce ∧ t = .start nonce := by
  unfold new at h
  rw [List.getElem?_map] at h
  obtain ⟨nonce, hnonce, ht⟩ := Option.map_eq_some_iff.mp h
  exact ⟨nonce, hnonce, ht.symm⟩

theorem Step.install {fuel : ℕ} {b : RpcBlock} {state : State}
    (h : State.new P fuel conn.manager.currentStateId b = .ok state) :
    conn.Step P shutdown (.process fuel (some b))
      { conn with manager :=
          { blockChannel := conn.channel.swap (some state), isSynced := true
            currentStateId := conn.manager.currentStateId + 1 } } := by
  have hstep : conn.Step P shutdown (.process fuel (some b)) _ := .process
  rwa [MinerManager.processBlock_some h] at hstep

/-- A thread moves by its own actions only. -/
theorem Step.thread (h : conn.Step P shutdown a conn') (i : ℕ) :
    (∃ e t t', a = .work i e ∧ conn.threads[i]? = some t ∧ conn'.threads[i]? = some t' ∧
      t.Step P conn.channel shutdown e t') ∨
    a.own i = none ∧ conn'.threads[i]? = conn.threads[i]? := by
  cases h with
  | process => exact .inr ⟨rfl, rfl⟩
  | log => exact .inr ⟨rfl, rfl⟩
  | @work j e t t' ht hstep =>
    by_cases hj : j = i
    · subst hj
      have hlt : j < conn.threads.length := (List.getElem?_eq_some_iff.mp ht).1
      exact .inl ⟨e, t, t', rfl, ht, by simp [hlt], hstep⟩
    · exact .inr ⟨if_neg hj, by simp [hj]⟩

theorem Step.threads_length (h : conn.Step P shutdown a conn') :
    conn'.threads.length = conn.threads.length := by
  cases h with
  | process => rfl
  | log => rfl
  | work => simp

/-- The channel only moves when a template is processed. -/
theorem Step.channel_eq (h : conn.Step P shutdown a conn')
    (ha : ∀ fuel block, a ≠ .process fuel block) :
    conn'.channel = conn.channel := by
  cases h with
  | @process fuel block => exact absurd rfl (ha fuel block)
  | work => rfl
  | log => rfl

/-- The contents of the past stay what they were. -/
theorem Step.channel_extends (h : conn.Step P shutdown a conn') :
    conn.channel.contents <+: conn'.channel.contents := by
  cases h with
  | process => exact conn.manager.processBlock_extends _
  | work => exact List.prefix_rfl
  | log => exact List.prefix_rfl

end Connection

/-- A connection, and the flag of the `ShutdownHandler`. -/
structure Mining where
  conn : Connection
  shutdown : Bool

namespace Mining

inductive Action where
  | conn (a : Connection.Action)
  | shutdown

inductive Step (P : Prims) : Mining → Action → Mining → Prop
  | conn {s : Mining} {a : Connection.Action} {conn' : Connection}
      (hstep : s.conn.Step P s.shutdown a conn') : Step P s (.conn a) { s with conn := conn' }
  | shutdown {s : Mining} : Step P s .shutdown { s with shutdown := true }

def Init (s : Mining) : Prop := ∃ nonces, s = { conn := .new nonces, shutdown := false }

/-- What thread `i` does. -/
def Action.own (i : ℕ) : Action → Option Event
  | conn a => a.own i
  | shutdown => none

def own (i : ℕ) (as : List Action) : List Event := as.filterMap (Action.own i)

theorem own_append (i : ℕ) (as bs : List Action) : own i (as ++ bs) = own i as ++ own i bs :=
  List.filterMap_append ..

end Mining

end Miner
end KaspaMiner
