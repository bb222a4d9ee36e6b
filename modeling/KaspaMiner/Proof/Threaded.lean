import KaspaMiner.Miner.Threaded
import KaspaMiner.Proof.Swap.Refine

/-!
# The code of `WatchSwap` under the threads of a connection

Whatever the threads do inside their calls, and however they are interleaved, a connection over the
code of `WatchSwap` behaves as one that looks at its channel in one step: each run of the first is
answered by a run of the second in which every worker is told the same.

The channel moves when `swap` stores. A worker looks at it when its call loads the cell, which is
before the call returns; so between its load and its return a thread of the second connection is
one event ahead of the first (`Owes`). A load after which `wait_for_change` goes back to sleep is
no look at the channel at all.
-/

namespace KaspaMiner

namespace Channel
variable {T : Type} {ch ch' : Channel T} {a b : ℕ}

/-- Two positions that no look at the channel tells apart. -/
structure Alike (ch : Channel T) (a b : ℕ) : Prop where
  left : a ≤ ch.pos
  right : b ≤ ch.pos
  content : ch.content a = ch.content b
  eq_or_none : a = b ∨ ch.content a = none

theorem Alike.refl (h : a ≤ ch.pos) : ch.Alike a a := ⟨h, h, rfl, .inl rfl⟩

theorem Alike.mono (h : ch.Alike a b) (hle : ch.contents <+: ch'.contents) : ch'.Alike a b := by
  have ha := content_eq hle h.left
  have hb := content_eq hle h.right
  refine ⟨h.left.trans (pos_le hle), h.right.trans (pos_le hle), ?_, ?_⟩
  · rw [ha, hb, h.content]
  · rw [ha]
    exact h.eq_or_none

theorem Alike.getChanged_eq (h : ch.Alike a b) : ch.getChanged a = ch.getChanged b := by
  rcases h.eq_or_none with rfl | hnone
  · rfl
  · have hnone' : ch.content b = none := h.content ▸ hnone
    cases hc : ch.current with
    | none => rw [getChanged_of_none hnone hc, getChanged_of_none hnone' hc]
    | some val => rw [getChanged_of_isSome hnone hc, getChanged_of_isSome hnone' hc]

end Channel

namespace Miner

open KaspaMiner.Pow (State)
open SwapRust (Arc Config Inv Handle channel)
open Lib (Run)

/-! ## Which thread has which handle -/

section
variable {Addr : Type}

/-- A worker has its own handle, and only the listener swaps. -/
structure Roles (c : Cell Addr) : Prop where
  handle : ∀ t h, (c.pc t).handle = some h → h = t ∧ t ≠ none
  swaps : ∀ t, (c.pc t).swapping = true → t = none

/-- So nobody else is in the way of a call that it makes. -/
theorem Roles.free {c : Cell Addr} {i : ℕ} (hR : Roles c) (hpc : c.pc (some i) = .idle) :
    c.Free (some i) := by
  intro t ht
  obtain ⟨heq, -⟩ := hR.handle t _ ht
  rw [← heq, hpc] at ht
  exact absurd ht (by simp [SwapRust.Pc.handle])

/-- What may begin. -/
def Proper : SwapRust.Action State Addr (Option ℕ) (Option ℕ) → Prop
  | .callSwap t _ => t = none
  | .callGet t h | .callWait t h => h = t ∧ t ≠ none
  | .clone _ _ | .dropHandle _ => False
  | _ => True

theorem Threaded.Inside.proper {c : Cell Addr}
    {a : SwapRust.Action State Addr (Option ℕ) (Option ℕ)} (h : Threaded.Inside c a) :
    Proper a := by
  cases h <;> trivial

theorem Threaded.Returns.proper {c : Cell Addr} {i : ℕ} {e : Event}
    {a : SwapRust.Action State Addr (Option ℕ) (Option ℕ)} (h : Threaded.Returns c i a e) :
    Proper a := by
  cases h <;> trivial

variable [DecidableEq Addr] {c c' : Cell Addr}
  {a : SwapRust.Action State Addr (Option ℕ) (Option ℕ)}

theorem Roles.step (hR : Roles c) (h : SwapRust.Step c a c') (ha : Proper a) : Roles c' := by
  constructor
  · intro t x hx
    rcases SwapRust.enters_step h t with hsame | henters
    · exact hR.handle t x (hsame ▸ hx)
    · generalize c'.pc t = pc at henters hx
      cases henters with
      | loadGet hpc | waitLock hpc =>
        obtain rfl := Option.some.inj hx
        exact ha
      | loadWait hpc | compare hpc | waitUnlock hpc | waitPark hpc | parked hpc | woken hpc
      | spurious hpc => exact hR.handle t x (by rw [hpc]; exact hx)
      | swapStore | swapLock | swapNotify | swapUnlock | swapIdle | getIdle | waitIdle =>
        exact absurd hx (by simp [SwapRust.Pc.handle])
  · intro t hx
    rcases SwapRust.enters_step h t with hsame | henters
    · exact hR.swaps t (hsame ▸ hx)
    · generalize c'.pc t = pc at henters hx
      cases henters with
      | swapStore hpc => exact ha
      | swapLock hpc | swapNotify hpc | swapUnlock hpc => exact hR.swaps t (by rw [hpc]; rfl)
      | _ => exact absurd hx (by simp [SwapRust.Pc.swapping])

/-- Another thread's step does not touch the handle of worker `i`. -/
theorem Roles.handles_eq (hR : Roles c) (h : SwapRust.Step c a c') (ha : Proper a) {i : ℕ}
    (hi : a.thread ≠ some (some i)) : c'.handles (some i) = c.handles (some i) := by
  cases h with
  | @compare t caller x guard pos hd changed hpc hh hchanged =>
    refine Function.update_of_ne ?_ ..
    intro heq
    obtain ⟨hx, -⟩ := hR.handle t x (by rw [hpc]; rfl)
    exact hi (by rw [heq, hx]; rfl)
  | clone | dropHandle => exact absurd ha (by simp [Proper])
  | _ => rfl

end

/-! ## The manager -/

/-- `process_block` is what comes before the swap, and the swap. -/
theorem processBlock_of_prepare {P : Prims} {fuel : ℕ} {m : MinerManager} {block : Option RpcBlock}
    {fields : Bool × USize} {val : Option (Option State)}
    (h : prepare P fuel m.isSynced m.currentStateId block = (fields, val)) :
    (m.processBlock P fuel block).1 =
      { blockChannel := val.elim m.blockChannel m.blockChannel.swap
        isSynced := fields.1
        currentStateId := fields.2 } := by
  cases block with
  | none =>
    obtain ⟨channel, isSynced, id⟩ := m
    rw [MinerManager.processBlock_none]
    cases isSynced with
    | true =>
      cases h
      rfl
    | false =>
      cases h
      rfl
  | some b =>
    rw [prepare] at h
    cases hnew : State.new P fuel m.currentStateId b with
    | error e =>
      rw [hnew] at h
      cases h
      rw [MinerManager.processBlock_some_error hnew]
      rfl
    | ok state =>
      rw [hnew] at h
      cases h
      rw [MinerManager.processBlock_some hnew]
      rfl

section
variable {Addr : Type}

/-- How far the manager of the second connection is behind: by the template whose `swap` has not
stored yet. -/
inductive Behind (P : Prims) (c : Cell Addr) (isSynced : Bool) (currentStateId : USize)
    (m : MinerManager) : List (ℕ × Option RpcBlock) → Prop
  | done (hpc : ∀ new, c.pc none ≠ .swapStore new) (hsynced : m.isSynced = isSynced)
      (hid : m.currentStateId = currentStateId) : Behind P c isSynced currentStateId m []
  | storing {new : Option (Arc State Addr)} {fuel : ℕ} {block : Option RpcBlock}
      (hpc : c.pc none = .swapStore new)
      (hprepare : prepare P fuel m.isSynced m.currentStateId block =
        ((isSynced, currentStateId), some (new.map Arc.val))) :
      Behind P c isSynced currentStateId m [(fuel, block)]

/-! ## The workers -/

/-- In `wait_for_change`, and no change seen. -/
inductive Waiting (c : Cell Addr) (i : ℕ) : Prop
  | lock (hpc : c.pc (some i) = .waitLock (some i))
  | load (hpc : c.pc (some i) = .load .waitForChange (some i))
  | same {guard : Option (Arc State Addr)} {pos : ℕ} {hd : Handle State Addr}
      (hpc : c.pc (some i) = .compare .waitForChange (some i) guard pos)
      (hh : c.handles (some i) = some hd) (hsame : guard = hd.cached)
  | park (hpc : c.pc (some i) = .waitPark (some i))
  | parked (hpc : c.pc (some i) = .parked (some i))

/-- Worker `i` has not loaded the cell in the call it is in, if it is in one. -/
inductive AtRest (c : Cell Addr) (i : ℕ) (w : Worker) : Prop
  | idle (hpc : c.pc (some i) = .idle)
  | getChanged (hpc : c.pc (some i) = .load .getChanged (some i)) (hw : w.pc = .poll)
  | waitForChange (h : Waiting c i) (hw : w.pc = .top) (hstate : w.state = none)

/-- Worker `i` has loaded the cell at a position, and this is what its call will return. -/
inductive Owes (c : Cell Addr) (i : ℕ) : Event → ℕ → Prop
  | same {guard : Option (Arc State Addr)} {pos : ℕ} {hd : Handle State Addr}
      (hpc : c.pc (some i) = .compare .getChanged (some i) guard pos)
      (hh : c.handles (some i) = some hd) (hsame : guard = hd.cached) : Owes c i (.polled none) pos
  | changed {guard : Option (Arc State Addr)} {pos : ℕ} {hd : Handle State Addr}
      (hpc : c.pc (some i) = .compare .getChanged (some i) guard pos)
      (hh : c.handles (some i) = some hd) (hne : guard ≠ hd.cached) :
      Owes c i (.polled (some (guard.map Arc.val))) pos
  | compare {guard : Option (Arc State Addr)} {pos : ℕ} {hd : Handle State Addr}
      (hpc : c.pc (some i) = .compare .waitForChange (some i) guard pos)
      (hh : c.handles (some i) = some hd) (hne : guard ≠ hd.cached) :
      Owes c i (.waited (guard.map Arc.val)) pos
  | unlock {hd : Handle State Addr} (hpc : c.pc (some i) = .waitUnlock (some i))
      (hh : c.handles (some i) = some hd) : Owes c i (.waited (hd.cached.map Arc.val)) hd.seen

/-- How thread `i` of the second connection goes with worker `i` of the first, and which event it is
ahead. -/
inductive Follows (P : Prims) (c : Cell Addr) (i : ℕ) (w : Worker) (t : Thread) :
    List Event → Prop
  | rest {hd : Handle State Addr} (h : AtRest c i w) (hh : c.handles (some i) = some hd)
      (hworker : t.worker = w) (halike : (channel c).Alike hd.seen t.seen) : Follows P c i w t []
  | owes {e : Event} {pos : ℕ} (h : Owes c i e pos) (hwork : WorkerStep P w e t.worker)
      (hseen : t.seen = pos) : Follows P c i w t [e]

variable [DecidableEq Addr] {P : Prims} {c c' : Cell Addr} {i : ℕ} {w : Worker} {t : Thread}
  {a : SwapRust.Action State Addr (Option ℕ) (Option ℕ)} {ahead : List Event}

theorem channel_extends (hI : Inv c) (h : SwapRust.Step c a c') :
    (channel c).contents <+: (channel c').contents := by
  rw [SwapRust.channel_contents hI.installs, SwapRust.channel_contents (hI.step h).installs]
  exact (SwapRust.installed_extends h).map _

/-- **Another thread's step** moves neither the worker nor what it is owed. -/
theorem Follows.frame (hF : Follows P c i w t ahead) (hI : Inv c) (hR : Roles c)
    (h : SwapRust.Step c a c') (ha : Proper a) (hi : a.thread ≠ some (some i)) :
    Follows P c' i w t ahead := by
  have hh' := hR.handles_eq h ha hi
  have hpc' : (∀ x, c.pc (some i) ≠ .parked x) → c'.pc (some i) = c.pc (some i) := fun hpark =>
    (SwapRust.frame_step h hI.borrows hi hpark).1
  cases hF with
  | rest hrest hh hworker halike =>
    refine .rest ?_ (hh'.trans hh) hworker (halike.mono (channel_extends hI h))
    cases hrest with
    | idle hpc => exact .idle ((hpc' (by simp [hpc])).trans hpc)
    | getChanged hpc hw => exact .getChanged ((hpc' (by simp [hpc])).trans hpc) hw
    | waitForChange hwait hw hstate =>
      refine .waitForChange ?_ hw hstate
      cases hwait with
      | lock hpc => exact .lock ((hpc' (by simp [hpc])).trans hpc)
      | load hpc => exact .load ((hpc' (by simp [hpc])).trans hpc)
      | same hpc hh hsame => exact .same ((hpc' (by simp [hpc])).trans hpc) (hh'.trans hh) hsame
      | park hpc => exact .park ((hpc' (by simp [hpc])).trans hpc)
      | parked hpc =>
        -- a notification wakes it up
        rcases SwapRust.enters_step h (some i) with hsame | henters
        · exact .parked (hsame.trans hpc)
        · generalize hq : c'.pc (some i) = pc at henters
          cases henters with
          | woken hpark =>
            rw [hpc] at hpark
            cases hpark
            exact .lock hq
          | spurious hpark =>
            rw [hpc] at hpark
            cases hpark
            exact .lock hq
          | swapStore hp | swapLock hp | swapNotify hp | swapUnlock hp | swapIdle hp | loadGet hp
          | waitLock hp | loadWait hp | compare hp | getIdle hp | waitUnlock hp | waitPark hp
          | parked hp | waitIdle hp => exact absurd (hpc.symm.trans hp) (by simp)
  | owes howes hwork hseen =>
    refine .owes ?_ hwork hseen
    cases howes with
    | same hpc hh hsame => exact .same ((hpc' (by simp [hpc])).trans hpc) (hh'.trans hh) hsame
    | changed hpc hh hne => exact .changed ((hpc' (by simp [hpc])).trans hpc) (hh'.trans hh) hne
    | compare hpc hh hne => exact .compare ((hpc' (by simp [hpc])).trans hpc) (hh'.trans hh) hne
    | unlock hpc hh => exact .unlock ((hpc' (by simp [hpc])).trans hpc) (hh'.trans hh)

/-! ## The worker's own steps -/

omit [DecidableEq Addr] in
theorem pos_le_of_installed {pos : ℕ} {x : Option (Arc State Addr)}
    (hpos : c.installed[pos]? = some x) : pos ≤ (channel c).pos := by
  have hlt := (List.getElem?_eq_some_iff.mp hpos).1
  rw [SwapRust.channel_pos]
  omega

omit [DecidableEq Addr] in
/-- What is cached is at one position only, unless it is nothing. -/
theorem alike_of_cached (hI : Inv c) {hd : Handle State Addr} {x : Option ℕ} {pos b : ℕ}
    (hh : c.handles x = some hd) (hpos : c.installed[pos]? = some hd.cached)
    (h : (channel c).Alike hd.seen b) : (channel c).Alike pos b := by
  have hcached := (hI.sees.handle x hd hh).1
  have hcontent := SwapRust.channel_content hI.installs hpos
  have hcontent' := SwapRust.channel_content hI.installs hcached
  refine ⟨pos_le_of_installed hpos, h.right, ?_, ?_⟩
  · rw [hcontent, ← hcontent', h.content]
  · cases hc : hd.cached with
    | none =>
      right
      rw [hcontent, hc]
      rfl
    | some arc =>
      rw [hc] at hpos hcached
      rw [Lib.eq_of_getElem?_some hI.installs.nodup hpos hcached, hcontent', ← hcontent',
        h.content]
      rcases h.eq_or_none with heq | hnone
      · exact .inl heq
      · rw [hcontent', hc] at hnone
        exact absurd hnone (by simp)

omit [DecidableEq Addr] in
theorem Follows.idle (hF : Follows P c i w t ahead) (hpc : c.pc (some i) = .idle) :
    ahead = [] ∧ t.worker = w ∧ ∃ hd, c.handles (some i) = some hd ∧
      (channel c).Alike hd.seen t.seen := by
  cases hF with
  | rest h hh hworker halike => exact ⟨rfl, hworker, _, hh, halike⟩
  | owes h =>
    cases h with
    | same hp | changed hp | compare hp | unlock hp => exact absurd (hpc.symm.trans hp) (by simp)

omit [DecidableEq Addr] in
/-- From one point of `wait_for_change` to another, nothing seen. -/
theorem Follows.waiting (hF : Follows P c i w t ahead)
    (hpc : ∃ x, c.pc (some i) = .waitLock x ∨ c.pc (some i) = .waitPark x ∨
      c.pc (some i) = .parked x)
    (hwait : Waiting c' i) (hh' : c'.handles (some i) = c.handles (some i))
    (hch : channel c' = channel c) : Follows P c' i w t ahead := by
  cases hF with
  | rest hrest hh hworker halike =>
    refine .rest ?_ (hh'.trans hh) hworker (hch ▸ halike)
    cases hrest with
    | idle hp | getChanged hp => simp [hp] at hpc
    | waitForChange _ hw hstate => exact .waitForChange hwait hw hstate
  | owes howes =>
    cases howes with
    | same hp | changed hp | compare hp | unlock hp => simp [hp] at hpc

theorem afterCompare_pc {u x : Option ℕ} {changed : Bool} {caller : SwapRust.Caller}
    {guard : Option (Arc State Addr)} {pos : ℕ} (h : SwapRust.Step c (.compare u changed) c')
    (hpc : c.pc u = .compare caller x guard pos) :
    c'.pc u = SwapRust.afterCompare caller x changed := by
  cases h with
  | compare hp =>
    rw [hpc] at hp
    injection hp with hcaller hx
    subst hcaller hx
    exact SwapRust.Config.setPc_self

/-- A comparison of `wait_for_change`: back to sleep, or out with what was loaded. -/
theorem Follows.compare (hF : Follows P c i w t ahead) (hI : Inv c) {changed : Bool}
    {guard : Option (Arc State Addr)} {pos : ℕ} (h : SwapRust.Step c (.compare (some i) changed) c')
    (hpc : c.pc (some i) = .compare .waitForChange (some i) guard pos) :
    Follows P c' i w t ahead := by
  obtain ⟨hd, hh, hchanged, hh'⟩ := SwapRust.compare_exact hI h hpc
  have hguard := (hI.sees.guard (some i) _ _ guard pos hpc).1
  have hpc' := afterCompare_pc h hpc
  cases hF with
  | rest hrest hh₁ hworker halike =>
    obtain rfl := Option.some.inj (hh.symm.trans hh₁)
    cases hrest with
    | idle hp | getChanged hp => exact absurd (hpc.symm.trans hp) (by simp)
    | waitForChange hwait hw hstate =>
      cases hwait with
      | lock hp | load hp | park hp | parked hp => exact absurd (hpc.symm.trans hp) (by simp)
      -- The cell may have been swapped since, but it is what was loaded that is compared.
      | same hp hh₂ hsame =>
        rw [hpc] at hp
        cases hp
        obtain rfl := Option.some.inj (hh.symm.trans hh₂)
        have hno : changed = false := by simpa [hsame] using hchanged
        subst hno
        rw [hsame] at hguard
        exact .rest (.waitForChange (.park hpc') hw hstate) hh' hworker
          ((alike_of_cached hI hh hguard halike).mono (channel_extends hI h))
  | owes howes hwork hseen =>
    cases howes with
    | same hp | changed hp | unlock hp => exact absurd (hpc.symm.trans hp) (by simp)
    | compare hp hh₂ hne =>
      rw [hpc] at hp
      cases hp
      obtain rfl := Option.some.inj (hh.symm.trans hh₂)
      have hyes : changed = true := hchanged.mpr hne
      subst hyes
      exact .owes (.unlock hpc' hh') hwork hseen

/-- A step inside of its own call that is not the load. -/
theorem Follows.inside (hF : Follows P c i w t ahead) (hI : Inv c) (hR : Roles c)
    (h : SwapRust.Step c a c') (hin : Threaded.Inside c a) (hi : a.thread = some (some i))
    (hload : a ≠ .load (some i)) : Follows P c' i w t ahead := by
  have hswap : (c.pc (some i)).swapping ≠ true := fun hs => absurd (hR.swaps _ hs) (by simp)
  have hch := channel_extends hI h
  cases hin with
  | store u =>
    obtain rfl : u = some i := Option.some.inj hi
    cases h with
    | store hpc => exact absurd (by rw [hpc]; rfl) hswap
  | notify u =>
    obtain rfl : u = some i := Option.some.inj hi
    cases h with
    | notify hpc => exact absurd (by rw [hpc]; rfl) hswap
  | @unlock u old hpc =>
    obtain rfl : u = some i := Option.some.inj hi
    exact absurd (by rw [hpc]; rfl) hswap
  | load u =>
    obtain rfl : u = some i := Option.some.inj hi
    exact absurd rfl hload
  | dropReturned arc => exact absurd hi (by simp [SwapRust.Action.thread])
  | lock u =>
    obtain rfl : u = some i := Option.some.inj hi
    cases h with
    | @lock _ pc hpc hfree =>
      generalize hq : c.pc (some i) = q at hpc
      cases hpc with
      | swap old => exact absurd (by rw [hq]; rfl) hswap
      | wait x =>
        obtain ⟨rfl, -⟩ := hR.handle (some i) x (by rw [hq]; rfl)
        exact hF.waiting ⟨_, .inl hq⟩ (.load SwapRust.Config.setPc_self) rfl rfl
  | @compare u x guard pos hpc changed =>
    obtain rfl : u = some i := Option.some.inj hi
    obtain ⟨rfl, -⟩ := hR.handle (some i) x (by rw [hpc]; rfl)
    exact hF.compare hI h hpc
  | park u =>
    obtain rfl : u = some i := Option.some.inj hi
    cases h with
    | @park _ x hpc =>
      obtain ⟨rfl, -⟩ := hR.handle (some i) x (by rw [hpc]; rfl)
      exact hF.waiting ⟨_, .inr (.inl hpc)⟩ (.parked SwapRust.Config.setPc_self) rfl rfl
  | spurious u =>
    obtain rfl : u = some i := Option.some.inj hi
    cases h with
    | @spurious _ x hpc =>
      obtain ⟨rfl, -⟩ := hR.handle (some i) x (by rw [hpc]; rfl)
      exact hF.waiting ⟨_, .inr (.inr hpc)⟩ (.lock SwapRust.Config.setPc_self) rfl rfl

/-- **The load** is where a worker looks at the channel, unless `wait_for_change` sees no change. -/
theorem Follows.load (hF : Follows P c i w t ahead) (hI : Inv c) (hR : Roles c)
    (h : SwapRust.Step c (.load (some i)) c') (shutdown : Bool) :
    ahead = [] ∧ (Follows P c' i w t [] ∨ ∃ e t', t.Step P (channel c) shutdown e t' ∧
      e.loads = true ∧ Follows P c' i w t' [e]) := by
  have hch : channel c' = channel c := by
    rcases SwapRust.channel_step hI h with ⟨u, new, hstore, -⟩ | ⟨-, hsame⟩
    · exact absurd hstore (by simp)
    · exact hsame
  cases h with
  | @load _ caller x hpc =>
    obtain ⟨rfl, -⟩ := hR.handle (some i) x (by rw [hpc]; rfl)
    cases hF with
    | owes howes =>
      cases howes with
      | same hp | changed hp | compare hp | unlock hp => exact absurd (hpc.symm.trans hp) (by simp)
    | @rest hd hrest hh hworker halike =>
      refine ⟨rfl, ?_⟩
      subst hworker
      have hpos : (channel c).pos = c.installed.length - 1 := SwapRust.channel_pos
      have hnone (hsame : c.inner = hd.cached) : (channel c).getChanged t.seen = none := by
        rw [← halike.getChanged_eq, Channel.getChanged,
          if_neg fun hc => (SwapRust.changed_iff hI hh).mp hc hsame]
      have hsome (hne : c.inner ≠ hd.cached) :
          (channel c).getChanged t.seen = some (c.inner.map Arc.val) := by
        rw [← halike.getChanged_eq, Channel.getChanged,
          if_pos ((SwapRust.changed_iff hI hh).mpr hne)]
        rfl
      -- The same content: `get_changed` will say so, and `wait_for_change` will go back to sleep.
      by_cases hsame : c.inner = hd.cached
      · cases hrest with
        | idle hp => exact absurd (hpc.symm.trans hp) (by simp)
        | getChanged hp hw =>
          obtain rfl : caller = .getChanged := by simpa [hpc] using hp
          exact .inr ⟨.polled none, _, .mk (.poll hw) (hnone hsame), rfl,
            .owes (.same SwapRust.Config.setPc_self hh hsame) (.poll hw) hpos⟩
        | waitForChange hwait hw hstate =>
          obtain rfl : caller = .waitForChange := by cases hwait <;> simp_all
          refine .inl (.rest ?_ hh rfl (hch ▸ halike))
          exact .waitForChange (.same SwapRust.Config.setPc_self hh hsame) hw hstate
      · cases hrest with
        | idle hp => exact absurd (hpc.symm.trans hp) (by simp)
        | getChanged hp hw =>
          obtain rfl : caller = .getChanged := by simpa [hpc] using hp
          exact .inr ⟨.polled (some (c.inner.map Arc.val)), _, .mk (.poll hw) (hsome hsame), rfl,
            .owes (.changed SwapRust.Config.setPc_self hh hsame) (.poll hw) hpos⟩
        | waitForChange hwait hw hstate =>
          obtain rfl : caller = .waitForChange := by cases hwait <;> simp_all
          exact .inr ⟨.waited (c.inner.map Arc.val), _, .mk (.wait hw hstate) (hsome hsame), rfl,
            .owes (.compare SwapRust.Config.setPc_self hh hsame) (.wait hw hstate) hpos⟩

omit [DecidableEq Addr] in
theorem workerStep_det {w₁ w₂ : Worker} {e : Event} (h₁ : WorkerStep P w e w₁)
    (h₂ : WorkerStep P w e w₂) : w₁ = w₂ := by
  cases h₁ with
  | wait => cases h₂; rfl
  | @test st hpc hstate =>
    generalize he : Event.tested { st with nonce := w.nonce } = e' at h₂
    cases h₂ with
    | test hpc' hstate' =>
      rw [hstate] at hstate'
      rw [Option.some.inj hstate']
    | _ => cases he
  | send => cases h₂; rfl
  | credit => cases h₂; rfl
  | check => cases h₂; rfl
  | poll => cases h₂; rfl

/-- **The return** catches up with the load. -/
theorem Follows.returns (hF : Follows P c i w t ahead) (hI : Inv c)
    (h : SwapRust.Step c a c') {e : Event} {w' : Worker} (hret : Threaded.Returns c i a e)
    (hwork : WorkerStep P w e w') : ahead = [e] ∧ Follows P c' i w' t [] := by
  have hch := channel_extends hI h
  cases hret with
  | @getChanged guard pos hpc changed =>
    obtain ⟨hd, hh, hchanged, hh'⟩ := SwapRust.compare_exact hI h hpc
    have hguard := (hI.sees.guard (some i) _ _ guard pos hpc).1
    have halike := (Channel.Alike.refl (pos_le_of_installed hguard)).mono hch
    have hpc' : c'.pc (some i) = .idle := afterCompare_pc h hpc
    cases hF with
    | rest hrest =>
      cases hrest with
      | idle hp | getChanged hp => exact absurd (hpc.symm.trans hp) (by simp)
      | waitForChange hwait =>
        cases hwait with
        | lock hp | load hp | same hp | park hp | parked hp =>
          exact absurd (hpc.symm.trans hp) (by simp)
    | owes howes hwork' hseen =>
      cases howes with
      | compare hp | unlock hp => exact absurd (hpc.symm.trans hp) (by simp)
      | same hp hh₂ hsame =>
        rw [hpc] at hp
        cases hp
        obtain rfl := Option.some.inj (hh.symm.trans hh₂)
        have hno : changed = false := by simpa [hsame] using hchanged
        subst hno
        exact ⟨rfl, .rest (.idle hpc') hh' (workerStep_det hwork' hwork) (hseen ▸ halike)⟩
      | changed hp hh₂ hne =>
        rw [hpc] at hp
        cases hp
        obtain rfl := Option.some.inj (hh.symm.trans hh₂)
        have hyes : changed = true := hchanged.mpr hne
        subst hyes
        exact ⟨rfl, .rest (.idle hpc') hh' (workerStep_det hwork' hwork) (hseen ▸ halike)⟩
  | @waitForChange hd hpc hh =>
    have hcached := (hI.sees.handle (some i) hd hh).1
    have halike := (Channel.Alike.refl (pos_le_of_installed hcached)).mono hch
    have hfinal : c'.pc (some i) = .idle ∧ c'.handles (some i) = some hd := by
      cases h with
      | unlock hp => exact ⟨SwapRust.Config.setPc_self, hh⟩
    cases hF with
    | rest hrest =>
      cases hrest with
      | idle hp | getChanged hp => exact absurd (hpc.symm.trans hp) (by simp)
      | waitForChange hwait =>
        cases hwait with
        | lock hp | load hp | same hp | park hp | parked hp =>
          exact absurd (hpc.symm.trans hp) (by simp)
    | owes howes hwork' hseen =>
      cases howes with
      | same hp | changed hp | compare hp => exact absurd (hpc.symm.trans hp) (by simp)
      | unlock hp hh₂ =>
        obtain rfl := Option.some.inj (hh.symm.trans hh₂)
        exact ⟨rfl, .rest (.idle hfinal.1) hfinal.2 (workerStep_det hwork' hwork)
          (hseen ▸ halike)⟩

end

end Miner
end KaspaMiner
