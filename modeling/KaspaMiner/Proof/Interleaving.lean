import KaspaMiner.Proof.Threaded
import KaspaMiner.Proof.Worker

/-!
# Every interleaving is answered

The workers one by one are in `Proof.Threaded`; here they are put together with the listener, the
counter and the flag (`Answers`), one step of the code at a time (`Answers.step`). The second
connection takes a template when `swap` stores it, and makes a look at the channel when a call loads
the cell. Everything else it does when the first one does it.

So the two are not in step with each other, and the simulation has to say by how much they are not.
There are two gaps, and both are of one entry at most:

* a worker's call has loaded the cell and not returned. The second connection has made the look
  already, and its thread is one event ahead of the worker;
* the listener is in `swap` and has not stored. It has gone through `process_block` by then as far
  as its own fields are concerned, and the second connection is one template behind it.

`Kept` keeps the accounts: with the two gaps added on either side, both runs did the same. It is
proved of one step and composes (`Kept.trans`), so that it holds of a run by induction.

There are four kinds of steps. Those of the listener come first, then the loads and the other steps
inside of a call, then the two ends of a call, and last what a worker does outside of any.
-/

namespace KaspaMiner
namespace Miner

open KaspaMiner.Pow (State)
open SwapRust (Arc Config Inv channel)
open Lib (Run)

namespace Mining

/-- The template that is processed, with the fuel that `State::new` is run with. -/
def Action.processed : Action → Option (ℕ × Option RpcBlock)
  | conn (.process fuel block) => some (fuel, block)
  | _ => none

/-- The templates, in order. -/
def processed (as : List Action) : List (ℕ × Option RpcBlock) := as.filterMap Action.processed

/-- A template, or a look at the channel, is not apart from the channel. The rest is. -/
def Action.apart : Action → Option Action
  | conn (.process _ _) => none
  | conn (.work i e) => if e.loads then none else some (.conn (.work i e))
  | a => some a

/-- What has nothing to do with the channel, in order. -/
def apart (as : List Action) : List Action := as.filterMap Action.apart

end Mining

section
variable {Addr : Type}

/-- Worker `i` of the first connection and thread `i` of the second, if there are any. Where there
are none the cell has no thread that does anything either. -/
inductive Matches (P : Prims) (c : Cell Addr) (i : ℕ) :
    Option Worker → Option Thread → List Event → Prop
  | both {w : Worker} {t : Thread} {ahead : List Event} (h : Follows P c i w t ahead) :
      Matches P c i (some w) (some t) ahead
  | neither (hpc : c.pc (some i) = .idle) : Matches P c i none none []

/-- How the second connection goes with the first, what its threads are ahead, and what its manager
is behind. The invariant of the cell is a part of it: which handle is whose, and who may call what,
is needed at every step. -/
structure Answers (P : Prims) (c : Threaded Addr) (s : Mining) (ahead : ℕ → List Event)
    (pend : List (ℕ × Option RpcBlock)) : Prop where
  inv : Inv c.cell
  roles : Roles c.cell
  channel : s.conn.channel = SwapRust.channel c.cell
  behind : Behind P c.cell c.isSynced c.currentStateId s.conn.manager pend
  threads : ∀ i, Matches P c.cell i c.workers[i]? s.conn.threads[i]? (ahead i)
  hashesTried : s.conn.hashesTried = c.hashesTried
  shutdown : s.shutdown = c.shutdown

variable {P : Prims} {c c' : Cell Addr} {i : ℕ} {w? : Option Worker} {t? : Option Thread}
  {a : SwapRust.Action State Addr (Option ℕ) (Option ℕ)} {ahead : List Event}

/-- Between two calls nobody is ahead, and the two are the same worker. -/
theorem Matches.idle (hM : Matches P c i w? t? ahead) (hpc : c.pc (some i) = .idle) :
    ahead = [] ∧ t?.map Thread.worker = w? := by
  cases hM with
  | both h =>
    obtain ⟨hahead, hworker, -⟩ := h.idle hpc
    exact ⟨hahead, congrArg some hworker⟩
  | neither => exact ⟨rfl, rfl⟩

theorem Matches.ahead_le (hM : Matches P c i w? t? ahead) : ahead.length ≤ 1 := by
  cases hM with
  | both h =>
    cases h with
    | rest => exact Nat.zero_le 1
    | owes => exact Nat.le_refl 1
  | neither => exact Nat.zero_le 1

variable [DecidableEq Addr]

/-- **Another thread's step** is nothing to worker `i`. Its own handle and its place in a call are
as they were. What it has loaded may be out of date after a `swap`, which is what being ahead
allows for. -/
theorem Matches.frame (hM : Matches P c i w? t? ahead) (hI : Inv c) (hR : Roles c)
    (h : SwapRust.Step c a c') (ha : Proper a) (hi : a.thread ≠ some (some i)) :
    Matches P c' i w? t? ahead := by
  cases hM with
  | both hF => exact .both (hF.frame hI hR h ha hi)
  | neither hpc =>
    exact .neither ((SwapRust.frame_step h hI.borrows hi (by simp [hpc])).1.trans hpc)

/-- The listener is about to store, or it is not, whatever the others do. Only the call of `swap`
gets it there, and only the store away from there; so no other step changes what is pending. -/
theorem swapStore_iff (h : SwapRust.Step c a c') (hcall : ∀ u new, a ≠ .callSwap u new)
    (hstore : ∀ u, a ≠ .store u) (new : Option (Arc State Addr)) :
    c'.pc none = .swapStore new ↔ c.pc none = .swapStore new := by
  constructor
  · intro hpc
    rcases SwapRust.swapStore_step h hpc with hsame | heq
    · exact hsame
    · exact absurd heq (hcall none new)
  · intro hpc
    rcases SwapRust.enters_step h none with hsame | henters
    · exact hsame.trans hpc
    · generalize c'.pc none = pc at henters
      cases henters with
      | swapLock => exact absurd rfl (hstore none)
      | swapStore hp | swapNotify hp | swapUnlock hp | swapIdle hp | loadGet hp | waitLock hp
      | loadWait hp | compare hp | getIdle hp | waitUnlock hp | waitPark hp | parked hp
      | waitIdle hp | woken hp | spurious hp => exact absurd (hpc.symm.trans hp) (by simp)

end

/-! ## One step of the code

Each lemma is about one kind of step and gives the actions that answer it, the relation after it,
and the accounts. Most steps are of one thread, and everything about the others comes from `frame`.
-/

section
variable {Addr : Type} [DecidableEq Addr] {P : Prims} {c c' : Threaded Addr} {cell : Cell Addr}
  {s : Mining} {a : SwapRust.Action State Addr (Option ℕ) (Option ℕ)} {ahead : ℕ → List Event}
  {pend : List (ℕ × Option RpcBlock)}

/-- A step of a call that does not swap: only the threads can tell. -/
theorem Answers.call (hA : Answers P c s ahead pend) (h : SwapRust.Step c.cell a cell)
    (ha : Proper a) (hcall : ∀ u new, a ≠ .callSwap u new) (hstore : ∀ u, a ≠ .store u)
    {workers : List Worker} {threads : List Thread} {ahead' : ℕ → List Event}
    (hthreads : ∀ i, Matches P cell i workers[i]? threads[i]? (ahead' i)) :
    Answers P { c with cell, workers } { s with conn := { s.conn with threads } } ahead' pend where
  inv := hA.inv.step h
  roles := hA.roles.step h ha
  channel := by
    rcases SwapRust.channel_step hA.inv h with ⟨u, new, heq, -⟩ | ⟨-, hsame⟩
    · exact absurd heq (hstore u)
    · exact hA.channel.trans hsame.symm
  behind := by
    have hiff := swapStore_iff h hcall hstore
    cases hA.behind with
    | done hpc hsynced hid => exact .done (fun new hp => hpc new ((hiff new).mp hp)) hsynced hid
    | storing hpc hprepare => exact .storing ((hiff _).mpr hpc) hprepare
  threads := hthreads
  hashesTried := hA.hashesTried
  shutdown := hA.shutdown

/-- The threads whose step it is not. -/
theorem Answers.threads_frame (hA : Answers P c s ahead pend) (h : SwapRust.Step c.cell a cell)
    (ha : Proper a) (hown : ∀ i, a.thread = some (some i) →
      Matches P cell i c.workers[i]? s.conn.threads[i]? (ahead i)) (i : ℕ) :
    Matches P cell i c.workers[i]? s.conn.threads[i]? (ahead i) := by
  by_cases hi : a.thread = some (some i)
  · exact hown i hi
  · exact (hA.threads i).frame hA.inv hA.roles h ha hi

omit [DecidableEq Addr] in
/-- One worker alone moves, and with it what it is ahead. -/
theorem matches_update {workers workers' : List Worker} {threads threads' : List Thread} {j : ℕ}
    {ahead' : List Event} (hown : Matches P cell j workers'[j]? threads'[j]? ahead')
    (hother : ∀ i, i ≠ j → Matches P cell i workers[i]? threads[i]? (ahead i))
    (hw : ∀ i, i ≠ j → workers'[i]? = workers[i]?) (ht : ∀ i, i ≠ j → threads'[i]? = threads[i]?)
    (i : ℕ) : Matches P cell i workers'[i]? threads'[i]? (Function.update ahead j ahead' i) := by
  by_cases hi : i = j
  · subst hi
    rw [Function.update_self]
    exact hown
  · rw [Function.update_of_ne hi, hw i hi, ht i hi]
    exact hother i hi

/-! What a worker did is its own. -/

theorem Mining.own_work (i j : ℕ) (e : Event) :
    Mining.own i [.conn (.work j e)] = if j = i then [e] else [] := by
  by_cases h : j = i
  · rw [if_pos h]
    exact List.filterMap_cons_some (if_pos h)
  · rw [if_neg h]
    exact List.filterMap_cons_none (if_neg h)

omit [DecidableEq Addr] in
theorem Threaded.own_work (i j : ℕ) (e : Event) :
    Threaded.own i [(.work j e : Threaded.Action Addr)] = if j = i then [e] else [] := by
  by_cases h : j = i
  · rw [if_pos h]
    exact List.filterMap_cons_some (if_pos h)
  · rw [if_neg h]
    exact List.filterMap_cons_none (if_neg h)

/-- What was done on both sides, and what either side was and is ahead. For each worker: what it was
ahead and what the second connection did is what the first did and what it is ahead now. For the
templates it is the other way round, as there the first connection leads. -/
structure Kept (as : List (Threaded.Action Addr)) (bs : List Mining.Action)
    (ahead ahead' : ℕ → List Event) (pend pend' : List (ℕ × Option RpcBlock)) : Prop where
  own : ∀ i, ahead i ++ Mining.own i bs = Threaded.own i as ++ ahead' i
  processed : pend ++ Threaded.processed as = Mining.processed bs ++ pend'
  apart : Mining.apart bs = Threaded.apart as

omit [DecidableEq Addr] in
theorem Kept.trans {as as' : List (Threaded.Action Addr)} {bs bs' : List Mining.Action}
    {ahead₁ ahead₂ ahead₃ : ℕ → List Event} {pend₁ pend₂ pend₃ : List (ℕ × Option RpcBlock)}
    (h : Kept as bs ahead₁ ahead₂ pend₁ pend₂) (h' : Kept as' bs' ahead₂ ahead₃ pend₂ pend₃) :
    Kept (as ++ as') (bs ++ bs') ahead₁ ahead₃ pend₁ pend₃ where
  own i := by
    rw [Mining.own_append, Threaded.own, List.filterMap_append, ← List.append_assoc, h.own i,
      List.append_assoc, h'.own i, ← List.append_assoc]
    rfl
  processed := by
    rw [Mining.processed, Threaded.processed, List.filterMap_append, List.filterMap_append,
      ← List.append_assoc]
    refine (congrArg (· ++ _) h.processed).trans ?_
    rw [List.append_assoc]
    refine (congrArg (_ ++ ·) h'.processed).trans ?_
    rw [← List.append_assoc]
    rfl
  apart := by
    rw [Mining.apart, Threaded.apart, List.filterMap_append, List.filterMap_append]
    exact congrArg₂ (· ++ ·) h.apart h'.apart

/-! ### The listener

`process_block` sets the two fields of the manager and then swaps, if there is anything to swap in.
`prepare` is the first half of it. -/

/-- A template is taken as a whole. -/
def Mining.process (P : Prims) (fuel : ℕ) (block : Option RpcBlock) (s : Mining) : Mining :=
  { s with conn := { s.conn with manager := (s.conn.manager.processBlock P fuel block).1 } }

theorem Mining.process_run (fuel : ℕ) (block : Option RpcBlock) (s : Mining) :
    Run (Mining.Step P) s [.conn (.process fuel block)] (s.process P fuel block) :=
  .single (.conn .process)

omit [DecidableEq Addr] in
/-- Nothing to swap in: `State::new` has failed, or kaspad is not synced and was not before. -/
theorem Answers.skip (hA : Answers P c s ahead pend) {fuel : ℕ} {block : Option RpcBlock}
    {fields : Bool × USize} (hidle : c.cell.pc none = .idle)
    (hprepare : prepare P fuel c.isSynced c.currentStateId block = (fields, none)) :
    Answers P { c with isSynced := fields.1, currentStateId := fields.2 } (s.process P fuel block)
      ahead pend ∧
    Kept [(.process fuel block : Threaded.Action Addr)] [.conn (.process fuel block)] ahead ahead
      pend pend := by
  cases hA.behind with
  | storing hpc => exact absurd (hidle.symm.trans hpc) (by simp)
  | done hpc hsynced hid =>
    rw [← hsynced, ← hid] at hprepare
    have hm := processBlock_of_prepare hprepare
    have hch := congrArg MinerManager.blockChannel hm
    exact ⟨{ hA with
      channel := hch.trans hA.channel
      behind := .done hpc (congrArg MinerManager.isSynced hm)
        (congrArg MinerManager.currentStateId hm) },
      fun i => List.append_nil _, rfl, rfl⟩

/-- Something to swap in, and not stored yet. No action answers this, and the template is pending.
-/
theorem Answers.callSwap (hA : Answers P c s ahead pend) {fuel : ℕ} {block : Option RpcBlock}
    {fields : Bool × USize} {new : Option (Arc State Addr)}
    (hprepare : prepare P fuel c.isSynced c.currentStateId block = (fields, some (new.map Arc.val)))
    (h : SwapRust.Step c.cell (.callSwap none new) cell) :
    ∃ pend', Answers P { c with cell, isSynced := fields.1, currentStateId := fields.2 } s ahead
        pend' ∧
      Kept [(.process fuel block : Threaded.Action Addr)] [] ahead ahead pend pend' := by
  have hidle : c.cell.pc none = .idle := by
    cases h with
    | callSwap hpc => exact hpc
  have hpc' : cell.pc none = .swapStore new := by
    cases h with
    | callSwap => exact Function.update_self none _ c.cell.pc
  cases hA.behind with
  | storing hpc => exact absurd (hidle.symm.trans hpc) (by simp)
  | done hpc hsynced hid =>
    rw [← hsynced, ← hid] at hprepare
    refine ⟨[(fuel, block)], { hA with
      inv := hA.inv.step h
      roles := hA.roles.step h rfl
      channel := ?_
      behind := .storing hpc' hprepare
      threads := hA.threads_frame h (a := .callSwap none new) rfl
        (by simp [SwapRust.Action.thread]) },
      fun i => List.append_nil _, rfl, rfl⟩
    rcases SwapRust.channel_step hA.inv h with ⟨u, _, heq, -⟩ | ⟨-, hsame⟩
    · exact absurd heq (by simp)
    · exact hA.channel.trans hsame.symm

/-- **The store** is where the template is taken. It is the one step that moves the channel of the
first connection, and the second takes the pending template with it. -/
theorem Answers.store (hA : Answers P c s ahead pend) {u : Option ℕ}
    (h : SwapRust.Step c.cell (.store u) cell) :
    ∃ fuel block, Answers P { c with cell } (s.process P fuel block) ahead [] ∧
      Kept [(.cell (.store u) : Threaded.Action Addr)] [.conn (.process fuel block)] ahead ahead
        pend [] := by
  rcases SwapRust.channel_step hA.inv h with ⟨u', new, heq, hpc, hch⟩ | ⟨hno, -⟩
  · obtain rfl : u = u' := by simpa using heq
    obtain rfl : u = none := hA.roles.swaps u (by rw [hpc]; rfl)
    have hpc' : cell.pc none = .swapLock c.cell.inner := by
      cases h with
      | store => exact Function.update_self none _ c.cell.pc
    cases hA.behind with
    | done hno => exact absurd hpc (hno new)
    | @storing new' fuel block hp hprepare =>
      obtain rfl : new' = new := by simpa [hp] using hpc
      have hm := processBlock_of_prepare hprepare
      have hch' := congrArg MinerManager.blockChannel hm
      exact ⟨fuel, block, { hA with
        inv := hA.inv.step h
        roles := hA.roles.step h trivial
        channel := hch'.trans
          ((congrArg (Channel.swap · (new'.map Arc.val)) hA.channel).trans hch.symm)
        behind := .done (by simp [hpc']) (congrArg MinerManager.isSynced hm)
          (congrArg MinerManager.currentStateId hm)
        threads := hA.threads_frame h (a := .store none) trivial
          (by simp [SwapRust.Action.thread]) },
        fun i => List.append_nil _, rfl, rfl⟩
  · exact absurd rfl (hno u)

/-! ### The workers -/

/-- A look at the channel adds nothing to the counter. -/
theorem Event.credits_of_loads {e : Event} (h : e.loads = true) : e.credits = 0 := by
  cases e with
  | waited => rfl
  | polled => rfl
  | tested | sent | credited | checked => exact absurd h (by simp [Event.loads])

/-- A thread does `e` and is `t` after it. -/
def Mining.work (i : ℕ) (e : Event) (t : Thread) (s : Mining) : Mining :=
  { s with conn := { s.conn with
      threads := s.conn.threads.set i t, hashesTried := s.conn.hashesTried + e.credits } }

omit [DecidableEq Addr] in
theorem Mining.work_run {i : ℕ} {e : Event} {t t' : Thread} (ht : s.conn.threads[i]? = some t)
    (h : t.Step P s.conn.channel s.shutdown e t') :
    Run (Mining.Step P) s [.conn (.work i e)] (s.work i e t') :=
  .single (.conn (.work ht h))

/-- Inside of a call, that is: whoever takes such a step is not idle. -/
theorem Threaded.Inside.ne_idle {c c' : Cell Addr} (hin : Threaded.Inside c a)
    (h : SwapRust.Step c a c') {u : Option ℕ} (hu : a.thread = some u) : c.pc u ≠ .idle := by
  intro hidle
  cases hin with
  | dropReturned arc => exact absurd hu (by simp [SwapRust.Action.thread])
  | unlock hpc | compare hpc =>
    obtain rfl := Option.some.inj hu
    exact absurd (hidle.symm.trans hpc) (by simp)
  | lock =>
    obtain rfl := Option.some.inj hu
    cases h with
    | lock hpc =>
      rw [hidle] at hpc
      cases hpc
  | store =>
    obtain rfl := Option.some.inj hu
    cases h with
    | store hpc => exact absurd (hidle.symm.trans hpc) (by simp)
  | notify =>
    obtain rfl := Option.some.inj hu
    cases h with
    | notify hpc => exact absurd (hidle.symm.trans hpc) (by simp)
  | load =>
    obtain rfl := Option.some.inj hu
    cases h with
    | load hpc => exact absurd (hidle.symm.trans hpc) (by simp)
  | park =>
    obtain rfl := Option.some.inj hu
    cases h with
    | park hpc => exact absurd (hidle.symm.trans hpc) (by simp)
  | spurious =>
    obtain rfl := Option.some.inj hu
    cases h with
    | spurious hpc => exact absurd (hidle.symm.trans hpc) (by simp)

/-- **The load** may be a look at the channel. It is none when `wait_for_change` is going to sleep
again, which nothing answers. -/
theorem Answers.load (hA : Answers P c s ahead pend) {i : ℕ}
    (h : SwapRust.Step c.cell (.load (some i)) cell) :
    ∃ bs s' ahead', Run (Mining.Step P) s bs s' ∧ Answers P { c with cell } s' ahead' pend ∧
      Kept [(.cell (.load (some i)) : Threaded.Action Addr)] bs ahead ahead' pend pend := by
  have hframe (j : ℕ) (hj : j ≠ i) : Matches P cell j c.workers[j]? s.conn.threads[j]? (ahead j) :=
    (hA.threads j).frame hA.inv hA.roles h trivial
      (by simpa [SwapRust.Action.thread] using Ne.symm hj)
  have hM := hA.threads i
  generalize hw : c.workers[i]? = w? at hM
  generalize ht : s.conn.threads[i]? = t? at hM
  generalize hahead : ahead i = aheadi at hM
  cases hM with
  | neither hpc => exact absurd hpc (Threaded.Inside.ne_idle (.load _) h rfl)
  | @both w t _ hF =>
    obtain ⟨rfl, hstay | ⟨e, t', hstep, hloads, hF'⟩⟩ := hF.load hA.inv hA.roles h s.shutdown
    -- It goes back to sleep: the relation holds as it is.
    · refine ⟨[], s, ahead, .nil s, hA.call h trivial (by simp) (by simp)
        (hA.threads_frame h trivial ?_), fun j => List.append_nil _, List.append_nil _, rfl⟩
      intro j hj
      obtain rfl : i = j := by simpa [SwapRust.Action.thread] using hj
      rw [hw, ht, hahead]
      exact .both hstay
    -- It will return: the thread of the second connection returns now, and is one event ahead.
    · have hlt := (List.getElem?_eq_some_iff.mp ht).1
      rw [← hA.channel] at hstep
      have hs' : s.work i e t' =
          { s with conn := { s.conn with threads := s.conn.threads.set i t' } } := by
        rw [Mining.work, Event.credits_of_loads hloads, UInt64.add_zero]
      refine ⟨_, _, Function.update ahead i [e], Mining.work_run ht hstep, ?_, ?_⟩
      · rw [hs']
        refine hA.call h trivial (by simp) (by simp) (matches_update ?_ hframe (fun _ _ => rfl)
          fun j hj => List.getElem?_set_ne (Ne.symm hj))
        rw [hw, List.getElem?_set_self hlt]
        exact .both hF'
      · refine ⟨fun j => ?_, List.append_nil _, ?_⟩
        · rw [Mining.own_work]
          by_cases hj : i = j
          · subst hj
            rw [hahead, if_pos rfl, Function.update_self]
            rfl
          · rw [if_neg hj, Function.update_of_ne (Ne.symm hj)]
            exact List.append_nil _
        · simp [Mining.apart, Mining.Action.apart, hloads, Threaded.apart, Threaded.Action.apart]

/-- The other steps inside of a call are the first connection's own affair. -/
theorem Answers.inside (hA : Answers P c s ahead pend) (hin : Threaded.Inside c.cell a)
    (h : SwapRust.Step c.cell a cell) (hstore : ∀ u, a ≠ .store u)
    (hload : ∀ i, a ≠ .load (some i)) : Answers P { c with cell } s ahead pend := by
  refine hA.call h hin.proper ?_ hstore (hA.threads_frame h hin.proper ?_)
  · cases hin <;> simp
  · intro i hi
    have hM := hA.threads i
    generalize c.workers[i]? = w?, s.conn.threads[i]? = t?, ahead i = aheadi at hM ⊢
    cases hM with
    | both hF => exact .both (hF.inside hA.inv hA.roles h hin hi (hload i))
    | neither hpc => exact absurd hpc (hin.ne_idle h hi)

/-- A call begins. -/
theorem Answers.begins (hA : Answers P c s ahead pend) (h : SwapRust.Step c.cell a cell)
    (ha : Proper a) {i : ℕ} {w : Worker} (hw : c.workers[i]? = some w)
    (hi : a.thread = some (some i)) (hcall : ∀ u new, a ≠ .callSwap u new)
    (hstore : ∀ u, a ≠ .store u) (hidle : c.cell.pc (some i) = .idle)
    (hh : cell.handles = c.cell.handles)
    (hrest : AtRest cell i w) : Answers P { c with cell } s ahead pend := by
  refine hA.call h ha hcall hstore (hA.threads_frame h ha ?_)
  intro j hj
  obtain rfl : i = j := by simpa using hi.symm.trans hj
  have hM := hA.threads i
  rw [hw] at hM ⊢
  generalize s.conn.threads[i]? = t?, ahead i = aheadi at hM ⊢
  cases hM with
  | both hF =>
    obtain ⟨rfl, hworker, hd, hhd, halike⟩ := hF.idle hidle
    exact .both (.rest hrest (hh ▸ hhd) hworker (halike.mono (channel_extends hA.inv h)))

/-- **A call returns** what was loaded. The event that its thread was ahead is the one that happens
here, so nothing is left to answer. -/
theorem Answers.returns (hA : Answers P c s ahead pend) {i : ℕ} {e : Event} {w w' : Worker}
    (hret : Threaded.Returns c.cell i a e) (h : SwapRust.Step c.cell a cell)
    (hw : c.workers[i]? = some w) (hwork : WorkerStep P w e w') :
    ∃ ahead', Answers P { c with cell, workers := c.workers.set i w' } s ahead' pend ∧
      Kept [(.work i e : Threaded.Action Addr)] [] ahead ahead' pend pend := by
  have hi : a.thread = some (some i) := by cases hret <;> rfl
  have hloads : e.loads = true := by cases hret <;> rfl
  have hlt := (List.getElem?_eq_some_iff.mp hw).1
  have hM := hA.threads i
  rw [hw] at hM
  generalize ht : s.conn.threads[i]? = t? at hM
  generalize hahead : ahead i = aheadi at hM
  cases hM with
  | @both _ t _ hF =>
    obtain ⟨rfl, hF'⟩ := hF.returns hA.inv h hret hwork
    refine ⟨Function.update ahead i [], hA.call h hret.proper ?_ ?_
      (matches_update ?_ (fun j hj => (hA.threads j).frame hA.inv hA.roles h hret.proper ?_)
        (fun j hj => List.getElem?_set_ne (Ne.symm hj)) fun _ _ => rfl), fun j => ?_,
      List.append_nil _, ?_⟩
    · cases hret <;> simp
    · cases hret <;> simp
    · rw [ht, List.getElem?_set_self hlt]
      exact .both hF'
    · rw [hi]
      simpa using Ne.symm hj
    · rw [Threaded.own_work]
      by_cases hj : i = j
      · subst hj
        rw [hahead, if_pos rfl, Function.update_self]
        rfl
      · rw [if_neg hj, Function.update_of_ne (Ne.symm hj)]
        exact List.append_nil _
    · simp [Mining.apart, Threaded.apart, Threaded.Action.apart, hloads]

omit [DecidableEq Addr] in
/-- Anything else a worker does, it does in both. It does it between two calls, where the two are
the same worker. -/
theorem Answers.work (hA : Answers P c s ahead pend) {i : ℕ} {e : Event} {w w' : Worker}
    (hw : c.workers[i]? = some w) (hidle : c.cell.pc (some i) = .idle) (hloads : e.loads = false)
    (hflag : ∀ isShutdown, e = .checked isShutdown → isShutdown = c.shutdown)
    (hwork : WorkerStep P w e w') :
    ∃ s', Run (Mining.Step P) s [.conn (.work i e)] s' ∧
      Answers P { c with workers := c.workers.set i w', hashesTried := c.hashesTried + e.credits }
        s' ahead pend ∧
      Kept [(.work i e : Threaded.Action Addr)] [.conn (.work i e)] ahead ahead pend pend := by
  have hlt := (List.getElem?_eq_some_iff.mp hw).1
  have hM := hA.threads i
  rw [hw] at hM
  generalize ht : s.conn.threads[i]? = t? at hM
  generalize hahead : ahead i = aheadi at hM
  cases hM with
  | @both _ t _ hF =>
    obtain ⟨rfl, rfl, hd, hh, halike⟩ := hF.idle hidle
    have hlt' := (List.getElem?_eq_some_iff.mp ht).1
    have hobs : t.Observes s.conn.channel s.shutdown e := by
      cases e with
      | waited | polled => exact absurd hloads (by simp [Event.loads])
      | checked isShutdown => exact (hflag isShutdown rfl).trans hA.shutdown.symm
      | tested | sent | credited => trivial
    have hstep : t.Step P s.conn.channel s.shutdown e { worker := w', seen := t.seen } := by
      have hmk := Thread.Step.mk hwork hobs
      rwa [hloads, if_neg Bool.false_ne_true] at hmk
    refine ⟨_, Mining.work_run ht hstep, { hA with
      threads := ?_
      hashesTried := congrArg (· + e.credits) hA.hashesTried }, fun j => ?_, List.append_nil _, ?_⟩
    · have hthreads : ∀ k, Matches P c.cell k (c.workers.set i w')[k]?
          (s.conn.threads.set i { worker := w', seen := t.seen })[k]?
          (Function.update ahead i [] k) :=
        matches_update ?_ (fun j _ => hA.threads j) (fun j hj => List.getElem?_set_ne (Ne.symm hj))
          fun j hj => List.getElem?_set_ne (Ne.symm hj)
      · rwa [← hahead, Function.update_eq_self] at hthreads
      · rw [List.getElem?_set_self hlt, List.getElem?_set_self hlt']
        exact .both (.rest (.idle hidle) hh rfl halike)
    · rw [Mining.own_work, Threaded.own_work]
      by_cases hj : i = j
      · subst hj
        rw [hahead, if_pos rfl]
        rfl
      · rw [if_neg hj]
        exact List.append_nil _
    · simp [Mining.apart, Mining.Action.apart, Threaded.apart, Threaded.Action.apart, hloads]

/-- **One step of the code** is answered, by one action of the second connection or by none. -/
theorem Answers.step {as : Threaded.Action Addr} (hA : Answers P c s ahead pend)
    (h : Threaded.Step P c as c') :
    ∃ bs s' ahead' pend', Run (Mining.Step P) s bs s' ∧ Answers P c' s' ahead' pend' ∧
      Kept [as] bs ahead ahead' pend pend' := by
  -- A step inside of a call that nothing answers leaves the accounts as they are.
  have hsame {a : SwapRust.Action State Addr (Option ℕ) (Option ℕ)} :
      Kept [(.cell a : Threaded.Action Addr)] [] ahead ahead pend pend :=
    ⟨fun i => List.append_nil _, List.append_nil _, rfl⟩
  cases h with
  | skip hidle hprepare =>
    obtain ⟨hA', hK⟩ := hA.skip hidle hprepare
    exact ⟨_, _, ahead, pend, Mining.process_run .., hA', hK⟩
  | callSwap hprepare hcell =>
    obtain ⟨pend', hA', hK⟩ := hA.callSwap hprepare hcell
    exact ⟨[], s, ahead, pend', .nil s, hA', hK⟩
  | @callGet i w cell hw hpc hcell =>
    refine ⟨[], s, ahead, pend, .nil s, ?_, hsame⟩
    cases hcell with
    | callGet hidle hh hfree =>
      exact hA.begins (.callGet hidle hh hfree) ⟨rfl, by simp⟩ hw rfl (by simp) (by simp) hidle rfl
        (.getChanged SwapRust.Config.setPc_self hpc)
  | @callWait i w cell hw hpc hstate hcell =>
    refine ⟨[], s, ahead, pend, .nil s, ?_, hsame⟩
    cases hcell with
    | callWait hidle hh hfree =>
      exact hA.begins (.callWait hidle hh hfree) ⟨rfl, by simp⟩ hw rfl (by simp) (by simp) hidle rfl
        (.waitForChange (.lock SwapRust.Config.setPc_self) hpc hstate)
  | @inside a cell hin hcell =>
    by_cases hstore : ∃ u, a = .store u
    · obtain ⟨u, rfl⟩ := hstore
      obtain ⟨fuel, block, hA', hK⟩ := hA.store hcell
      exact ⟨_, _, ahead, [], Mining.process_run .., hA', hK⟩
    · by_cases hload : ∃ i, a = .load (some i)
      · obtain ⟨i, rfl⟩ := hload
        obtain ⟨bs, s', ahead', hrun, hA', hK⟩ := hA.load hcell
        exact ⟨bs, s', ahead', pend, hrun, hA', hK⟩
      · exact ⟨[], s, ahead, pend, .nil s, hA.inside hin hcell (fun u hu => hstore ⟨u, hu⟩)
          fun i hi => hload ⟨i, hi⟩, hsame⟩
  | returns hret hcell hw hwork =>
    obtain ⟨ahead', hA', hK⟩ := hA.returns hret hcell hw hwork
    exact ⟨[], s, ahead', pend, .nil s, hA', hK⟩
  | work hw hidle hloads hflag hwork =>
    obtain ⟨s', hrun, hA', hK⟩ := hA.work hw hidle hloads hflag hwork
    exact ⟨_, s', ahead, pend, hrun, hA', hK⟩
  | log =>
    refine ⟨[.conn (.log c.hashesTried)], { s with conn := { s.conn with hashesTried := 0 } },
      ahead, pend, .single (.conn ?_), { hA with hashesTried := rfl }, fun i => List.append_nil _,
      List.append_nil _, rfl⟩
    rw [← hA.hashesTried]
    exact .log
  | shutdown =>
    exact ⟨[.shutdown], _, ahead, pend, .single .shutdown, { hA with shutdown := rfl },
      fun i => List.append_nil _, List.append_nil _, rfl⟩

end

/-! ## Every run of the code -/

section
variable {Addr : Type} [DecidableEq Addr] {P : Prims} {c : Threaded Addr}

omit [DecidableEq Addr] in
theorem Threaded.cloned_handles (n : ℕ) (h : Option ℕ) :
    (cloned n : Cell Addr).handles h =
      if h.all (· < n) then some { cached := none, seen := 0, reports := [] } else none := rfl

/-- The handles of a new connection are clones of its manager's. So its cell is one that can be
reached by the steps of `WatchSwap`, and the invariant holds of it. -/
theorem Threaded.cloned_run (n : ℕ) :
    Run SwapRust.Step (SwapRust.empty none : Cell Addr)
      ((List.range n).map fun i => .clone none (some i)) (cloned n) := by
  induction n with
  | zero =>
    have hhandles : (SwapRust.empty none : Cell Addr).handles = (cloned 0).handles := by
      funext h
      rw [cloned_handles]
      cases h with
      | none => rfl
      | some i => simp [SwapRust.empty, SwapRust.fresh]
    have hempty : (cloned 0 : Cell Addr) = SwapRust.empty none :=
      congrArg (fun handles => ({ SwapRust.empty none with handles } : Cell Addr)) hhandles.symm
    rw [hempty]
    exact .nil _
  | succ n ih =>
    rw [List.range_succ, List.map_append]
    refine ih.snoc ?_
    have hempty : (cloned n : Cell Addr).handles none =
        some { cached := none, seen := 0, reports := [] } := rfl
    have hclone : SwapRust.Step (cloned n : Cell Addr) (.clone none (some n)) _ :=
      .clone hempty (fun t => by
        simp [cloned, SwapRust.empty, SwapRust.fresh, SwapRust.Pc.handle]) (by simp [cloned])
    have hhandles : Function.update (cloned n : Cell Addr).handles (some n)
        (some { cached := none, seen := 0, reports := [] }) = (cloned (n + 1)).handles := by
      funext h
      rw [cloned_handles]
      cases h with
      | none => rfl
      | some i =>
        by_cases hi : i = n
        · subst hi
          simp
        · have hlt : i ≤ n ↔ i < n := ⟨fun hle => Nat.lt_of_le_of_ne hle hi, Nat.le_of_lt⟩
          rw [Function.update_of_ne (by simpa using hi), cloned_handles]
          simp [hlt]
    rw [hhandles] at hclone
    exact hclone

/-- Nobody is ahead or behind when a connection begins. -/
theorem Threaded.start_answers (nonces : List UInt64) :
    Answers P (start nonces : Threaded Addr) { conn := .new nonces, shutdown := false }
      (fun _ => []) [] where
  inv := (cloned_run nonces.length).invariant (fun _ _ _ hI h => hI.step h)
    (SwapRust.empty_init none).inv
  roles := ⟨by simp [start, cloned, SwapRust.empty, SwapRust.fresh, SwapRust.Pc.handle],
    by simp [start, cloned, SwapRust.empty, SwapRust.fresh, SwapRust.Pc.swapping]⟩
  channel := rfl
  behind := .done (by simp [start, cloned, SwapRust.empty, SwapRust.fresh]) rfl rfl
  threads i := by
    show Matches P _ i (nonces.map Worker.start)[i]? (nonces.map Thread.start)[i]? []
    rw [List.getElem?_map, List.getElem?_map]
    cases hn : nonces[i]? with
    | none => exact .neither rfl
    | some nonce =>
      have hlt := (List.getElem?_eq_some_iff.mp hn).1
      exact .both (.rest (.idle rfl) (if_pos (by simpa using hlt)) rfl
        (Channel.Alike.refl (Nat.zero_le _)))
  hashesTried := rfl
  shutdown := rfl

/-- By induction on the run of the code. What has been answered, and how, is carried along. -/
theorem answers_of_run {nonces : List UInt64} {as : List (Threaded.Action Addr)}
    (h : Run (Threaded.Step P) (.start nonces) as c) :
    ∃ bs s ahead pend, Run (Mining.Step P) { conn := .new nonces, shutdown := false } bs s ∧
      Answers P c s ahead pend ∧ Kept as bs (fun _ => []) ahead [] pend := by
  obtain ⟨bs, s, hrun, ahead, pend, hA, hK⟩ := h.refine (N := Mining.Step P)
    (Z := fun as c bs s => ∃ ahead pend, Answers P c s ahead pend ∧
      Kept as bs (fun _ => []) ahead [] pend)
    ⟨fun _ => [], [], Threaded.start_answers nonces, fun i => rfl, rfl, rfl⟩ (by
      rintro as c bs s a c' ⟨ahead, pend, hA, hK⟩ hstep
      obtain ⟨bs', s', ahead', pend', hrun, hA', hK'⟩ := hA.step hstep
      exact ⟨bs', s', hrun, ahead', pend', hA', hK.trans hK'⟩)
  exact ⟨bs, s, ahead, pend, hrun, hA, hK⟩

/-- **The code of `WatchSwap` under the threads of a connection refines a connection that looks at
its channel in one step.** Each run of the first is answered by a run of the second with the same
templates, in which each worker does the same things and is told the same, and which does
everything that has nothing to do with the channel in the same order. The answer is ahead of a
worker by one event at most, and only inside of a call of its; it is behind the listener by one
template at most, and only until `swap` stores it. -/
theorem threaded_refines {nonces : List UInt64} {as : List (Threaded.Action Addr)}
    (h : Run (Threaded.Step P) (.start nonces) as c) :
    ∃ bs s, Run (Mining.Step P) { conn := .new nonces, shutdown := false } bs s ∧
      s.conn.channel = SwapRust.channel c.cell ∧ s.conn.hashesTried = c.hashesTried ∧
      s.shutdown = c.shutdown ∧ Mining.apart bs = Threaded.apart as ∧
      (∃ pend, Threaded.processed as = Mining.processed bs ++ pend ∧ pend.length ≤ 1 ∧
        ((∀ new, c.cell.pc none ≠ .swapStore new) → pend = [])) ∧
      ∀ i, ∃ ahead, Mining.own i bs = Threaded.own i as ++ ahead ∧ ahead.length ≤ 1 ∧
        (c.cell.pc (some i) = .idle →
          ahead = [] ∧ s.conn.threads[i]?.map Thread.worker = c.workers[i]?) := by
  obtain ⟨bs, s, ahead, pend, hrun, hA, hK⟩ := answers_of_run h
  refine ⟨bs, s, hrun, hA.channel, hA.hashesTried, hA.shutdown, hK.apart, ⟨pend, hK.processed, ?_⟩,
    fun i => ⟨ahead i, hK.own i, (hA.threads i).ahead_le, (hA.threads i).idle⟩⟩
  cases hA.behind with
  | done => exact ⟨Nat.zero_le 1, fun _ => rfl⟩
  | storing hpc => exact ⟨Nat.le_refl 1, fun hno => absurd hpc (hno _)⟩

/-! ## A worker that gets a template -/

omit [DecidableEq Addr] in
/-- There is nothing in a new connection, so that `Arc::new` may put a template anywhere. -/
theorem Threaded.start_not_owned (nonces : List UInt64) (arc : Arc State Addr) :
    ¬ (start nonces).cell.Owned arc := by
  intro howned
  cases howned with
  | inner h => exact absurd h (by simp [start, cloned, SwapRust.empty, SwapRust.fresh])
  | @handle x hd hx h =>
    have hcached : hd.cached = none := by
      change (if _ then some _ else none) = some hd at hx
      split at hx
      next =>
        rw [← Option.some.inj hx]
      next => exact absurd hx (by simp)
    exact absurd (hcached.symm.trans h) (by simp)
  | call h =>
    exact absurd h (by simp [start, cloned, SwapRust.empty, SwapRust.fresh, SwapRust.Pc.arc])
  | returned h => exact absurd h (by simp [start, cloned, SwapRust.empty, SwapRust.fresh])

/-- The listener swaps the benchmark's template in, and a worker that waits for one gets it. -/
def benchCalls (st : State) : List (Threaded.Action ℕ) :=
  [.process 1 (some Pow.benchBlock), .cell (.store none), .cell (.lock none),
    .cell (.notify none), .cell (.unlock none), .cell (.callWait (some 0) (some 0)),
    .cell (.lock (some 0)), .cell (.load (some 0)), .cell (.compare (some 0) true),
    .work 0 (.waited (some st))]

theorem benchCalls_run {st : State} (hst : State.new P 1 0 Pow.benchBlock = .ok st)
    (nonce : UInt64) : ∃ c : Threaded ℕ, Run (Threaded.Step P) (.start [nonce]) (benchCalls st) c ∧
      c.workers = [{ nonce, state := some st, pc := .top }] ∧ c.cell.pc (some 0) = .idle ∧
      c.cell.pc none = .idle := by
  let arc : Arc State ℕ := ⟨16, st, 0⟩
  have hprepare : prepare P 1 true 0 (some Pow.benchBlock) =
      ((true, 0 + 1), some ((some arc).map Arc.val)) := by
    simp only [prepare, hst]
    rfl
  have hswap : SwapRust.Step (Threaded.start [nonce] : Threaded ℕ).cell
      (.callSwap none (some arc)) _ :=
    .callSwap rfl fun arc' harc => by
      rw [← Option.some.inj harc]
      exact ⟨rfl, fun b hb => absurd hb (Threaded.start_not_owned [nonce] b)⟩
  have hlisten : Run (Threaded.Step P) (.start [nonce] : Threaded ℕ)
      [.process 1 (some Pow.benchBlock), .cell (.store none), .cell (.lock none),
        .cell (.notify none), .cell (.unlock none)] _ :=
    .cons (.callSwap hprepare hswap) <| .cons (.inside (.store none) (.store rfl)) <|
    .cons (.inside (.lock none) (.lock (.swap _) rfl)) <|
    .cons (.inside (.notify none) (.notify rfl)) <|
    .single (.inside (.unlock rfl) (.unlock (.swap _)))
  obtain ⟨_, _, _, _, -, hA, -⟩ := answers_of_run hlisten
  have hfree := hA.roles.free (i := 0) rfl
  have hcall : Run (Threaded.Step P) (.start [nonce] : Threaded ℕ)
      [.process 1 (some Pow.benchBlock), .cell (.store none), .cell (.lock none),
        .cell (.notify none), .cell (.unlock none), .cell (.callWait (some 0) (some 0)),
        .cell (.lock (some 0)), .cell (.load (some 0)), .cell (.compare (some 0) true)] _ :=
    hlisten.append <| .cons (.callWait rfl rfl rfl (.callWait rfl rfl hfree)) <|
    .cons (.inside (.lock _) (.lock (.wait (some 0)) rfl)) <|
    .cons (.inside (.load _) (.load rfl)) <|
    .single (.inside (.compare rfl true) (.compare rfl rfl rfl))
  have hunlocks : SwapRust.Unlocks (.waitUnlock (some 0) : SwapRust.Pc State ℕ (Option ℕ)) [] :=
    .wait (some 0)
  have hreturn := hcall.snoc <| .returns (i := 0) (w := .start nonce) (.waitForChange rfl rfl)
    (.unlock hunlocks) rfl (.wait rfl rfl)
  exact ⟨_, hreturn, rfl, rfl, rfl⟩

/-- A worker gets a template, and solves it. -/
theorem threaded_refines_bench : ∃ st c, State.new Pow.solvingPrims 1 0 Pow.benchBlock = .ok st ∧
    Run (Threaded.Step Pow.solvingPrims) (.start [127])
      (benchCalls st ++ [.work 0 (.tested { st with nonce := 127 })]) c ∧
    ∃ bs s, Run (Mining.Step Pow.solvingPrims) { conn := .new [127], shutdown := false } bs s ∧
      Mining.processed bs = [(1, some Pow.benchBlock)] ∧
      Mining.own 0 bs = [.waited (some st), .tested { st with nonce := 127 }] ∧
      s.conn.threads[0]?.map Thread.worker = some (solver st 127) := by
  obtain ⟨st, hst⟩ := Pow.solving_new 0
  obtain ⟨c, hcalls, hworkers, hidle, hlistener⟩ := benchCalls_run hst 127
  have hw : c.workers[0]? = some { nonce := 127, state := some st, pc := .top } := by
    rw [hworkers]
    rfl
  have hrun := hcalls.snoc <| .work hw hidle rfl (by simp) (solving_tested hst 127 st.nonce)
  obtain ⟨bs, s, hbs, -, -, -, -, ⟨pend, hpend, -, hnone⟩, hthreads⟩ := threaded_refines hrun
  obtain ⟨ahead, hown, -, hlevel⟩ := hthreads 0
  obtain ⟨rfl, hthread⟩ := hlevel hidle
  rw [hnone fun new hpc => absurd (hlistener.symm.trans hpc) (by simp)] at hpend
  rw [hworkers] at hthread
  exact ⟨st, _, hst, hrun, bs, s, hbs, (List.append_nil _).symm.trans hpend.symm, hown, hthread⟩

end

end Miner
end KaspaMiner
