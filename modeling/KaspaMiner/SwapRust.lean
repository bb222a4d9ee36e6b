import Mathlib.Data.Fintype.Basic
import Mathlib.Logic.Function.Basic
import KaspaMiner.Lib.Run

/-!
# `swap_rust.rs`

A `WatchSwap` is a cell any thread may swap and a cache of its own in every handle. The code is
taken here one atomic step at a time, over any number of threads and handles: `Config` is
everything the threads share together with each thread's program counter, and `Step` has one rule
for each step the code can take.

What is documented behaviour of the parts the code is built from, and nothing else, is in the
rules:

* `ArcSwapOption::swap` and `load` are single atomic steps (`store`, `load`);
* a mutex is taken only when it is free (`lock`), and `notify_all` wakes every parked thread
  (`notify`), which then has to take the mutex again before it looks at anything;
* `Condvar::wait` unlocks and parks in one step (`park`), and a parked thread may wake up for no
  reason at all (`spurious`);
* `Arc::new` gives an address which no `Arc` that still has an owner lies at (`callSwap`), and
  that is *all* that is said about addresses: an address may come back as soon as the last owner
  is gone;
* `&mut self` excludes every other use of a handle (`Pc.handle`).

Beside the state of the code, a `Config` keeps the history the theorems speak about: the sequence
of installations, what each handle has reported, and a serial number in each `Arc`. No rule looks
at any of it; the comparison in `get_changed_inner` is a comparison of addresses.
-/

namespace KaspaMiner
namespace SwapRust

structure Arc (T Addr : Type) where
  addr : Addr
  val : T
  serial : ℕ

/-- `RefCnt::as_ptr`: the address, or null for a `None`. -/
def asPtr {T Addr : Type} (arc : Option (Arc T Addr)) : Option Addr := arc.map Arc.addr

/-- Who called `get_changed_inner`. -/
inductive Caller where
  | getChanged
  | waitForChange
  deriving DecidableEq

/-- Where a thread is, with the locals it has there. -/
inductive Pc (T Addr Hid : Type) where
  | idle
  /-- In `swap`, the `Arc` made and not stored yet. -/
  | swapStore (new : Option (Arc T Addr))
  /-- In `wake_up_threads`, before the lock. -/
  | swapLock (old : Option (Arc T Addr))
  | swapNotify (old : Option (Arc T Addr))
  | swapUnlock (old : Option (Arc T Addr))
  /-- In `wait_for_change`, without the lock: not taken yet, or woken up and not taken again. -/
  | waitLock (h : Hid)
  | load (caller : Caller) (h : Hid)
  /-- Holding what was loaded; `pos` is where in the history it was loaded. -/
  | compare (caller : Caller) (h : Hid) (guard : Option (Arc T Addr)) (pos : ℕ)
  | waitPark (h : Hid)
  | parked (h : Hid)
  | waitUnlock (h : Hid)

namespace Pc
variable {T Addr Hid : Type}

/-- The handle a call has borrowed mutably. -/
def handle : Pc T Addr Hid → Option Hid
  | waitLock h | load _ h | compare _ h _ _ | waitPark h | parked h | waitUnlock h => some h
  | _ => none

/-- The `Arc` a call owns. -/
def arc : Pc T Addr Hid → Option (Arc T Addr)
  | swapStore new => new
  | swapLock old | swapNotify old | swapUnlock old => old
  | compare _ _ guard _ => guard
  | _ => none

/-- Between a `lock` and the `unlock` or the `park` after it. -/
def locked : Pc T Addr Hid → Bool
  | swapNotify _ | swapUnlock _ | load .waitForChange _ | compare .waitForChange _ _ _ => true
  | waitPark _ | waitUnlock _ => true
  | _ => false

/-- Stored and not notified yet. -/
def signalling : Pc T Addr Hid → Bool
  | swapLock _ | swapNotify _ => true
  | _ => false

/-- Anywhere in `swap`. -/
def swapping : Pc T Addr Hid → Bool
  | swapStore _ | swapLock _ | swapNotify _ | swapUnlock _ => true
  | _ => false

/-- Woken up, if parked. -/
def wake : Pc T Addr Hid → Pc T Addr Hid
  | parked h => waitLock h
  | pc => pc

@[simp] theorem wake_handle (pc : Pc T Addr Hid) : pc.wake.handle = pc.handle := by
  cases pc <;> rfl

@[simp] theorem wake_locked (pc : Pc T Addr Hid) : pc.wake.locked = pc.locked := by
  cases pc <;> rfl

theorem wake_ne_parked (pc : Pc T Addr Hid) (h : Hid) : pc.wake ≠ parked h := by
  cases pc <;> simp [wake]

theorem signalling_cases {pc : Pc T Addr Hid} (h : pc.signalling = true) :
    ∃ old, pc = swapLock old ∨ pc = swapNotify old := by
  cases pc with
  | swapLock old => exact ⟨old, .inl rfl⟩
  | swapNotify old => exact ⟨old, .inr rfl⟩
  | _ => exact absurd h (by simp [signalling])

theorem swapping_of_signalling {pc : Pc T Addr Hid} (h : pc.signalling = true) :
    pc.swapping = true := by
  obtain ⟨old, rfl | rfl⟩ := signalling_cases h <;> rfl

end Pc

/-- A `WatchSwap`: its cache, and the history of the calls on it. -/
structure Handle (T Addr : Type) where
  cached : Option (Arc T Addr)
  /-- Where in the history of the cell the last comparison was made. -/
  seen : ℕ
  /-- What was reported as changed, in order. -/
  reports : List (Option (Arc T Addr))

structure Config (T Addr Tid Hid : Type) where
  /-- `shared.inner` -/
  inner : Option (Arc T Addr)
  /-- `shared.wait_mutex`, with the thread that has it. -/
  waitMutex : Option Tid
  pc : Tid → Pc T Addr Hid
  handles : Hid → Option (Handle T Addr)
  /-- What `swap` returned and its caller still has. -/
  returned : List (Arc T Addr)
  /-- Everything `inner` ever was, the initial content first. -/
  installed : List (Option (Arc T Addr))
  /-- The next serial number. -/
  next : ℕ

inductive Action (T Addr Tid Hid : Type) where
  | callSwap (t : Tid) (new : Option (Arc T Addr))
  | store (t : Tid)
  | lock (t : Tid)
  | notify (t : Tid)
  | unlock (t : Tid)
  | callGet (t : Tid) (h : Hid)
  | callWait (t : Tid) (h : Hid)
  | load (t : Tid)
  | compare (t : Tid) (changed : Bool)
  | park (t : Tid)
  | spurious (t : Tid)
  | clone (h h' : Hid)
  | dropHandle (h : Hid)
  | dropReturned (arc : Arc T Addr)

namespace Action
variable {T Addr Tid Hid : Type}

/-- The thread that takes the step, for the steps inside a call. -/
def thread : Action T Addr Tid Hid → Option Tid
  | callSwap t _ | store t | lock t | notify t | unlock t | callGet t _ | callWait t _ | load t
  | compare t _ | park t | spurious t => some t
  | clone _ _ | dropHandle _ | dropReturned _ => none

/-- A step inside a call that is not a spurious wake-up. -/
def isProgress : Action T Addr Tid Hid → Bool
  | store _ | lock _ | notify _ | unlock _ | load _ | compare _ _ | park _ => true
  | _ => false

end Action

namespace Config
variable {T Addr Tid Hid : Type}

/-- `arc` still has an owner: the cell, a cache, a call, or somebody `swap` returned it to. -/
inductive Owned (c : Config T Addr Tid Hid) (arc : Arc T Addr) : Prop
  | inner (h : c.inner = some arc)
  | handle {h : Hid} {hd : Handle T Addr} (hh : c.handles h = some hd) (h : hd.cached = some arc)
  | call {t : Tid} (h : (c.pc t).arc = some arc)
  | returned (h : arc ∈ c.returned)

/-- Nothing that is owned lives at `addr`, so an allocation may get it. -/
def Vacant (c : Config T Addr Tid Hid) (addr : Addr) : Prop := ∀ b, c.Owned b → b.addr ≠ addr

theorem vacant_iff {c : Config T Addr Tid Hid} {addr : Addr} :
    c.Vacant addr ↔ (∀ b ∈ c.inner, b.addr ≠ addr) ∧
      (∀ h, ∀ hd ∈ c.handles h, ∀ b ∈ hd.cached, b.addr ≠ addr) ∧
      (∀ t, ∀ b ∈ (c.pc t).arc, b.addr ≠ addr) ∧ ∀ b ∈ c.returned, b.addr ≠ addr := by
  constructor
  · intro h
    exact ⟨fun b hb => h b (.inner hb), fun x hd hx b hb => h b (.handle hx hb),
      fun t b hb => h b (.call hb), fun b hb => h b (.returned hb)⟩
  · rintro ⟨hinner, hhandles, hcalls, hreturned⟩ b hb
    cases hb with
    | inner hb => exact hinner b hb
    | handle hx hb => exact hhandles _ _ hx b hb
    | call hb => exact hcalls _ b hb
    | returned hb => exact hreturned b hb

instance [Fintype Tid] [Fintype Hid] [DecidableEq Addr] (c : Config T Addr Tid Hid) (addr : Addr) :
    Decidable (c.Vacant addr) := decidable_of_iff _ vacant_iff.symm

/-- No call has borrowed the handle. -/
def Free (c : Config T Addr Tid Hid) (h : Hid) : Prop := ∀ t, (c.pc t).handle ≠ some h

instance [Fintype Tid] [DecidableEq Hid] (c : Config T Addr Tid Hid) (h : Hid) :
    Decidable (c.Free h) := inferInstanceAs (Decidable (∀ t, (c.pc t).handle ≠ some h))

/-- `notify_all`. -/
def wakeAll (c : Config T Addr Tid Hid) : Config T Addr Tid Hid :=
  { c with pc := fun u => (c.pc u).wake }

@[simp] theorem wakeAll_pc (c : Config T Addr Tid Hid) (u : Tid) :
    c.wakeAll.pc u = (c.pc u).wake := rfl

section
variable [DecidableEq Tid] {c : Config T Addr Tid Hid} {t u : Tid} {pc : Pc T Addr Hid}

def setPc (c : Config T Addr Tid Hid) (t : Tid) (pc : Pc T Addr Hid) : Config T Addr Tid Hid :=
  { c with pc := Function.update c.pc t pc }

@[simp] theorem setPc_self : (c.setPc t pc).pc t = pc := Function.update_self ..

theorem setPc_ne (h : u ≠ t) : (c.setPc t pc).pc u = c.pc u := Function.update_of_ne h ..

end

end Config

section
variable {T Addr Tid Hid : Type}

/-- Where `lock` leads. -/
inductive Locks : Pc T Addr Hid → Pc T Addr Hid → Prop
  | swap (old : Option (Arc T Addr)) : Locks (.swapLock old) (.swapNotify old)
  | wait (h : Hid) : Locks (.waitLock h) (.load .waitForChange h)

/-- Where `unlock` leads: out of the call. -/
inductive Unlocks : Pc T Addr Hid → List (Arc T Addr) → Prop
  | swap (old : Option (Arc T Addr)) : Unlocks (.swapUnlock old) old.toList
  | wait (h : Hid) : Unlocks (.waitUnlock h) []

/-- Where the comparison leads. -/
def afterCompare (caller : Caller) (h : Hid) (changed : Bool) : Pc T Addr Hid :=
  match caller, changed with
  | .getChanged, _ => .idle
  | .waitForChange, true => .waitUnlock h
  | .waitForChange, false => .waitPark h

variable [DecidableEq Addr]

/-- `if cur_ptr != as_ptr(&*cheap_load) { *cached = cheap_load }` -/
def Handle.compared (hd : Handle T Addr) (guard : Option (Arc T Addr)) (pos : ℕ) : Handle T Addr :=
  if asPtr hd.cached ≠ asPtr guard then
    { cached := guard, seen := pos, reports := hd.reports ++ [guard] }
  else { hd with seen := pos }

variable [DecidableEq Tid] [DecidableEq Hid]

inductive Step : Config T Addr Tid Hid → Action T Addr Tid Hid → Config T Addr Tid Hid → Prop
  /-- `val.into().map(Arc::new)` -/
  | callSwap {c : Config T Addr Tid Hid} {t : Tid} {new : Option (Arc T Addr)}
      (hpc : c.pc t = .idle)
      (hnew : ∀ arc ∈ new, arc.serial = c.next ∧ ∀ b, c.Owned b → b.addr ≠ arc.addr) :
      Step c (.callSwap t new) { c.setPc t (.swapStore new) with next := c.next + 1 }
  /-- `self.shared.inner.swap(…)` -/
  | store {c : Config T Addr Tid Hid} {t : Tid} {new : Option (Arc T Addr)}
      (hpc : c.pc t = .swapStore new) :
      Step c (.store t) { c.setPc t (.swapLock c.inner) with
        inner := new, installed := c.installed ++ [new] }
  | lock {c : Config T Addr Tid Hid} {t : Tid} {pc : Pc T Addr Hid} (hpc : Locks (c.pc t) pc)
      (hfree : c.waitMutex = none) :
      Step c (.lock t) { c.setPc t pc with waitMutex := some t }
  /-- `self.shared.wait_cv.notify_all()` -/
  | notify {c : Config T Addr Tid Hid} {t : Tid} {old : Option (Arc T Addr)}
      (hpc : c.pc t = .swapNotify old) :
      Step c (.notify t) (c.wakeAll.setPc t (.swapUnlock old))
  | unlock {c : Config T Addr Tid Hid} {t : Tid} {ret : List (Arc T Addr)}
      (hpc : Unlocks (c.pc t) ret) :
      Step c (.unlock t) { c.setPc t .idle with
        waitMutex := none, returned := c.returned ++ ret }
  | callGet {c : Config T Addr Tid Hid} {t : Tid} {h : Hid} {hd : Handle T Addr}
      (hpc : c.pc t = .idle) (hh : c.handles h = some hd) (hfree : c.Free h) :
      Step c (.callGet t h) (c.setPc t (.load .getChanged h))
  | callWait {c : Config T Addr Tid Hid} {t : Tid} {h : Hid} {hd : Handle T Addr}
      (hpc : c.pc t = .idle) (hh : c.handles h = some hd) (hfree : c.Free h) :
      Step c (.callWait t h) (c.setPc t (.waitLock h))
  /-- `let cheap_load = inner.load()` -/
  | load {c : Config T Addr Tid Hid} {t : Tid} {caller : Caller} {h : Hid}
      (hpc : c.pc t = .load caller h) :
      Step c (.load t) (c.setPc t (.compare caller h c.inner (c.installed.length - 1)))
  | compare {c : Config T Addr Tid Hid} {t : Tid} {caller : Caller} {h : Hid}
      {guard : Option (Arc T Addr)} {pos : ℕ} {hd : Handle T Addr} {changed : Bool}
      (hpc : c.pc t = .compare caller h guard pos) (hh : c.handles h = some hd)
      (hchanged : changed = decide (asPtr hd.cached ≠ asPtr guard)) :
      Step c (.compare t changed) { c.setPc t (afterCompare caller h changed) with
        handles := Function.update c.handles h (some (hd.compared guard pos)) }
  /-- `self.shared.wait_cv.wait(guard)`: unlock and park at once. -/
  | park {c : Config T Addr Tid Hid} {t : Tid} {h : Hid} (hpc : c.pc t = .waitPark h) :
      Step c (.park t) { c.setPc t (.parked h) with waitMutex := none }
  | spurious {c : Config T Addr Tid Hid} {t : Tid} {h : Hid} (hpc : c.pc t = .parked h) :
      Step c (.spurious t) (c.setPc t (.waitLock h))
  | clone {c : Config T Addr Tid Hid} {h h' : Hid} {hd : Handle T Addr}
      (hh : c.handles h = some hd) (hfree : c.Free h) (hnew : c.handles h' = none) :
      Step c (.clone h h') { c with
        handles := Function.update c.handles h' (some { hd with reports := [] }) }
  | dropHandle {c : Config T Addr Tid Hid} {h : Hid} (hfree : c.Free h) :
      Step c (.dropHandle h) { c with handles := Function.update c.handles h none }
  | dropReturned {c : Config T Addr Tid Hid} {arc : Arc T Addr} {l r : List (Arc T Addr)}
      (hret : c.returned = l ++ arc :: r) :
      Step c (.dropReturned arc) { c with returned := l ++ r }

end

/-- Handles made by `empty` or `init` and `clone`, and nobody doing anything. -/
structure Init {T Addr Tid Hid : Type} (c : Config T Addr Tid Hid) : Prop where
  inner : ∀ arc ∈ c.inner, arc.serial < c.next
  waitMutex : c.waitMutex = none
  pc : ∀ t, c.pc t = .idle
  handles : ∀ h hd, c.handles h = some hd → hd = { cached := c.inner, seen := 0, reports := [] }
  returned : c.returned = []
  installed : c.installed = [c.inner]

section
variable {T Addr Tid Hid : Type} [DecidableEq Hid]

/-- The cell and the one handle that `empty` and `init` make. -/
def fresh (inner : Option (Arc T Addr)) (next : ℕ) (h : Hid) : Config T Addr Tid Hid where
  inner := inner
  waitMutex := none
  pc _ := .idle
  handles x := if x = h then some { cached := inner, seen := 0, reports := [] } else none
  returned := []
  installed := [inner]
  next := next

def empty (h : Hid) : Config T Addr Tid Hid := fresh none 0 h

def init (addr : Addr) (val : Option T) (h : Hid) : Config T Addr Tid Hid :=
  fresh (val.map fun val => { addr, val, serial := 0 }) 1 h

theorem fresh_init {inner : Option (Arc T Addr)} {next : ℕ} {h : Hid}
    (hinner : ∀ arc ∈ inner, arc.serial < next) :
    Init (fresh inner next h : Config T Addr Tid Hid) where
  inner := hinner
  waitMutex := rfl
  pc _ := rfl
  handles x hd hx := by
    by_cases hxh : x = h
    · have he : some _ = some hd := (if_pos hxh).symm.trans hx
      exact (Option.some.inj he).symm
    · have he : none = some hd := (if_neg hxh).symm.trans hx
      exact absurd he (by simp)
  returned := rfl
  installed := rfl

theorem empty_init (h : Hid) : Init (empty h : Config T Addr Tid Hid) := fresh_init (by simp)

/-- Nothing is owned yet. -/
theorem empty_not_owned (h : Hid) (arc : Arc T Addr) :
    ¬ (empty h : Config T Addr Tid Hid).Owned arc := by
  intro ho
  cases ho with
  | inner ho => exact absurd ho (by simp [empty, fresh])
  | handle hx ho =>
    rw [(empty_init h).handles _ _ hx] at ho
    exact absurd ho (by simp [empty, fresh])
  | call ho => exact absurd ho (by simp [empty, fresh, Pc.arc])
  | returned ho => exact absurd ho (by simp [empty, fresh])

theorem init_init (addr : Addr) (val : Option T) (h : Hid) :
    Init (init addr val h : Config T Addr Tid Hid) := by
  apply fresh_init
  intro arc harc
  cases val with
  | none => exact absurd harc (by simp)
  | some v =>
    have he : _ = arc := Option.some.inj harc
    rw [← he]
    exact Nat.zero_lt_one

end

end SwapRust
end KaspaMiner
