import KaspaMiner.Proof.Swap.Changes

/-!
# No wake-up is lost

The store in `swap` is made outside the mutex and only the notification under it. What makes this
right is `Signalled`: as long as a receiver is on its way to be parked, or is parked, over a
content that is not the installed one, some thread has stored and not notified yet. A receiver
that has *not* compared yet needs nothing, since it will look at the cell again.

The notification is where the invariant is at stake, and there the mutex helps: the notifying
thread has it, so no receiver is between its comparison and its parking, and the parked ones are
woken up.
-/

namespace KaspaMiner
namespace SwapRust

open Config
open Lib (Run Reachable)

variable {T Addr Tid Hid : Type} [DecidableEq Addr] [DecidableEq Tid] [DecidableEq Hid]
variable {c c' : Config T Addr Tid Hid} {a : Action T Addr Tid Hid} {t u : Tid}

/-! ## Receivers that have looked -/

/-- The receiver `t` has looked at the cell, found `v`, and is going to park on it or has. -/
inductive Watches (c : Config T Addr Tid Hid) (t : Tid) : Option (Arc T Addr) → Prop
  | compare {x : Hid} {v : Option (Arc T Addr)} {pos : ℕ}
      (h : c.pc t = .compare .waitForChange x v pos) : Watches c t v
  | waitPark {x : Hid} {hd : Handle T Addr} (h : c.pc t = .waitPark x)
      (hx : c.handles x = some hd) : Watches c t hd.cached
  | parked {x : Hid} {hd : Handle T Addr} (h : c.pc t = .parked x)
      (hx : c.handles x = some hd) : Watches c t hd.cached

/-- The cache of a receiver that was parked or about to park is the one it had. -/
theorem handles_of_waiting (h : Step c a c') (hB : Borrows c.pc c.handles) {x : Hid}
    (ht : c.pc t = .waitPark x ∨ c.pc t = .parked x) {hd : Handle T Addr}
    (hx : c'.handles x = some hd) : c.handles x = some hd := by
  have hborrow : (c.pc t).handle = some x := by
    rcases ht with ht | ht <;> rw [ht] <;> rfl
  rcases handles_step h hx with hx' | ⟨u, caller, guard, pos, hd₀, changed, -, hpc, -⟩ |
    ⟨y, hd₀, -, hnone, -⟩
  · exact hx'
  · have htu := hB.unique t u x hborrow (by rw [hpc]; rfl)
    subst htu
    rw [hpc] at ht
    exact absurd ht (by simp)
  · obtain ⟨hd₁, hhd₁⟩ := hB.exist t x hborrow
    rw [hnone] at hhd₁
    exact absurd hhd₁ (by simp)

/-- A receiver that has looked had looked before the step, or has just found the content. -/
theorem watches_step (h : Step c a c') (hI : Inv c) {v : Option (Arc T Addr)}
    (hw : Watches c' t v) : Watches c t v ∨ v = c.inner := by
  cases hw with
  | compare hpc =>
    rcases compare_step h hpc with hpc | ⟨-, -, hv, -⟩
    · exact .inl (.compare hpc)
    · exact .inr hv
  | @waitPark x hd hpc hx =>
    left
    rcases waitPark_step h hpc with hpc' | ⟨rfl, guard, pos, hpc'⟩
    · exact .waitPark hpc' (handles_of_waiting h hI.borrows (.inl hpc') hx)
    · obtain ⟨hd₀, -, -, hx'⟩ := compare_exact hI h hpc'
      rw [hx] at hx'
      rw [Option.some.inj hx']
      exact .compare hpc'
  | @parked x hd hpc hx =>
    left
    rcases parked_step h hpc with hpc' | ⟨-, hpc'⟩
    · exact .parked hpc' (handles_of_waiting h hI.borrows (.inr hpc') hx)
    · exact .waitPark hpc' (handles_of_waiting h hI.borrows (.inl hpc') hx)

/-- Nobody has looked and not looked again when a notification is over. -/
theorem notify_not_watches (h : Step c (.notify u) c') (hI : Inv c) {v : Option (Arc T Addr)} :
    ¬ Watches c' t v := by
  have hI' := hI.step h
  cases h with
  | @notify _ old hpc =>
    -- the notifying thread has the mutex, and a receiver that is going to park would need it too
    have hmutex := (hI'.held u).mp (by rw [setPc_self]; rfl)
    have hlocked : ∀ w q, (c.wakeAll.setPc u (.swapUnlock old)).pc w = q → q.locked = true →
        w = u := by
      intro w q heq hq
      subst heq
      exact (Option.some.inj (hmutex.symm.trans ((hI'.held w).mp hq))).symm
    intro hw
    cases hw with
    | compare hw =>
      have htu := hlocked t _ hw rfl
      subst htu
      rw [setPc_self] at hw
      exact absurd hw (by simp)
    | waitPark hw hx =>
      have htu := hlocked t _ hw rfl
      subst htu
      rw [setPc_self] at hw
      exact absurd hw (by simp)
    | parked hw hx =>
      rcases update_cases hw with ⟨-, hw⟩ | ⟨-, hw⟩
      · exact absurd hw (by simp)
      · exact absurd hw (Pc.wake_ne_parked _ _)

/-! ## The invariant -/

/-- Whoever has looked and found something that is not there any more will be notified. -/
def Signalled (c : Config T Addr Tid Hid) : Prop :=
  ∀ t v, Watches c t v → v ≠ c.inner → ∃ u, (c.pc u).signalling = true

theorem signalled_step (h : Step c a c') (hI : Inv c) (hS : Signalled c) : Signalled c' := by
  intro t v hw hv
  rcases installed_step h with ⟨-, hinner, -⟩ | ⟨u, new, -, -, hpc, -, -⟩
  · rw [hinner] at hv
    rcases watches_step h hI hw with hw' | hv'
    · obtain ⟨u, hu⟩ := hS t v hw' hv
      rcases signalling_step h hu with hu' | rfl
      · exact ⟨u, hu'⟩
      · exact absurd hw (notify_not_watches h hI)
    · exact absurd hv' hv
  · exact ⟨u, by rw [hpc]; rfl⟩

theorem Signalled.of_reachable (h : Reachable Step Init c) : Signalled c := by
  refine (h.invariant (I := fun c => Inv c ∧ Signalled c) (fun c hc => ⟨hc.inv, ?_⟩)
    (fun _ _ _ hI hs => ⟨hI.1.step hs, signalled_step hs hI.1 hI.2⟩)).2
  intro t v hw
  cases hw with
  | compare hpc | waitPark hpc | parked hpc =>
    rw [hc.pc t] at hpc
    exact absurd hpc (by simp)

omit [DecidableEq Addr] [DecidableEq Tid] [DecidableEq Hid] in
theorem Signalled.parked (hS : Signalled c) (hI : Inv c) {x : Hid} (hpc : c.pc t = .parked x) :
    ∃ hd, c.handles x = some hd ∧ (hd.cached ≠ c.inner → ∃ u, (c.pc u).signalling = true) := by
  obtain ⟨hd, hx⟩ := hI.borrows.exist t x (by rw [hpc]; rfl)
  exact ⟨hd, hx, hS t hd.cached (.parked hpc hx)⟩

/-! ## Progress -/

/-- A call that is not parked, and has the mutex or finds it free, can go on. -/
theorem exists_progress (hI : Inv c) (hidle : c.pc t ≠ .idle) (hpark : ∀ x, c.pc t ≠ .parked x)
    (hmutex : (c.pc t).locked = true ∨ c.waitMutex = none) :
    ∃ a c', a.isProgress = true ∧ a.thread = some t ∧ Step c a c' := by
  -- Only the two calls that are about to lock do not have it already.
  have hfree (h : (c.pc t).locked = false) : c.waitMutex = none := by
    rcases hmutex with hm | hm
    · rw [h] at hm
      exact absurd hm (by simp)
    · exact hm
  cases hpc : c.pc t with
  | idle => exact absurd hpc hidle
  | swapStore new => exact ⟨_, _, rfl, rfl, .store hpc⟩
  | swapLock old =>
    have hlocks : Locks (c.pc t) (.swapNotify old) := by
      rw [hpc]
      exact .swap old
    exact ⟨_, _, rfl, rfl, .lock hlocks (hfree (by rw [hpc]; rfl))⟩
  | swapNotify old => exact ⟨_, _, rfl, rfl, .notify hpc⟩
  | swapUnlock old => exact ⟨_, _, rfl, rfl, .unlock (by rw [hpc]; exact .swap old)⟩
  | waitLock x =>
    have hlocks : Locks (c.pc t) (.load .waitForChange x) := by
      rw [hpc]
      exact .wait x
    exact ⟨_, _, rfl, rfl, .lock hlocks (hfree (by rw [hpc]; rfl))⟩
  | load caller x => exact ⟨_, _, rfl, rfl, .load hpc⟩
  | compare caller x guard pos =>
    obtain ⟨hd, hx⟩ := hI.borrows.exist t x (by rw [hpc]; rfl)
    exact ⟨_, _, rfl, rfl, .compare hpc hx rfl⟩
  | waitPark x => exact ⟨_, _, rfl, rfl, .park hpc⟩
  | parked x => exact absurd hpc (hpark x)
  | waitUnlock x => exact ⟨_, _, rfl, rfl, .unlock (by rw [hpc]; exact .wait x)⟩

/-- If any call is not parked, some call can go on. -/
theorem exists_progress_of_running (hI : Inv c) (hidle : c.pc t ≠ .idle)
    (hpark : ∀ x, c.pc t ≠ .parked x) :
    ∃ u a c', c.pc u ≠ .idle ∧ a.isProgress = true ∧ a.thread = some u ∧ Step c a c' := by
  cases hm : c.waitMutex with
  | none =>
    obtain ⟨a, c', ha, hat, hstep⟩ := exists_progress hI hidle hpark (.inr hm)
    exact ⟨t, a, c', hidle, ha, hat, hstep⟩
  | some u =>
    have hu := (hI.held u).mpr hm
    have hidle' : c.pc u ≠ .idle := by
      intro he
      rw [he] at hu
      exact absurd hu (by simp [Pc.locked])
    have hpark' : ∀ x, c.pc u ≠ .parked x := by
      intro x he
      rw [he] at hu
      exact absurd hu (by simp [Pc.locked])
    obtain ⟨a, c', ha, hat, hstep⟩ := exists_progress hI hidle' hpark' (.inl hu)
    exact ⟨u, a, c', hidle', ha, hat, hstep⟩

/-- So either some call can go on, or all there are are parked. -/
theorem progress_or_parked (hI : Inv c) :
    (∃ t a c', c.pc t ≠ .idle ∧ a.isProgress = true ∧ a.thread = some t ∧ Step c a c') ∨
    ∀ t, c.pc t ≠ .idle → ∃ x, c.pc t = .parked x := by
  by_cases hall : ∀ t, c.pc t ≠ .idle → ∃ x, c.pc t = .parked x
  · exact .inr hall
  · left
    push Not at hall
    obtain ⟨t, hidle, hpark⟩ := hall
    exact exists_progress_of_running hI hidle hpark

/-! ## The theorem -/

/-- **No lost wake-up and no deadlock.** In every reachable configuration: a receiver parked over a
content that is not the installed one has a `swap` that has stored and not notified; so when
nobody is in `swap`, every parked receiver is up to date; and either some call can take a step
that is not a spurious wake-up, or every call there is is a receiver parked over the installed
content. -/
theorem no_lost_wakeup (h : Reachable Step Init c) :
    (∀ t x, c.pc t = .parked x → ∃ hd, c.handles x = some hd ∧ (hd.cached ≠ c.inner →
      ∃ u old, c.pc u = .swapLock old ∨ c.pc u = .swapNotify old)) ∧
    ((∀ u, (c.pc u).swapping = false) → ∀ t x, c.pc t = .parked x →
      ∃ hd, c.handles x = some hd ∧ hd.cached = c.inner) ∧
    ((∃ t a c', c.pc t ≠ .idle ∧ a.isProgress = true ∧ a.thread = some t ∧ Step c a c') ∨
      ∀ t, c.pc t ≠ .idle → ∃ x hd, c.pc t = .parked x ∧ c.handles x = some hd ∧
        hd.cached = c.inner) := by
  have hI := Inv.of_reachable h
  have hS := Signalled.of_reachable h
  refine ⟨?_, ?_, ?_⟩
  · intro t x hpc
    obtain ⟨hd, hx, hsig⟩ := hS.parked hI hpc
    refine ⟨hd, hx, ?_⟩
    intro hne
    obtain ⟨u, hu⟩ := hsig hne
    exact ⟨u, Pc.signalling_cases hu⟩
  · intro hswap t x hpc
    obtain ⟨hd, hx, hsig⟩ := hS.parked hI hpc
    refine ⟨hd, hx, ?_⟩
    by_contra hne
    obtain ⟨u, hu⟩ := hsig hne
    exact absurd (Pc.swapping_of_signalling hu) (by rw [hswap u]; simp)
  · rcases progress_or_parked hI with hprogress | hparked
    · exact .inl hprogress
    · right
      intro t ht
      obtain ⟨x, hpc⟩ := hparked t ht
      obtain ⟨hd, hx, hsig⟩ := hS.parked hI hpc
      refine ⟨x, hd, hpc, hx, ?_⟩
      by_contra hne
      -- A thread that is about to notify is in a call and not parked.
      obtain ⟨u, hu⟩ := hsig hne
      obtain ⟨old, hu⟩ := Pc.signalling_cases hu
      obtain ⟨y, hy⟩ := hparked u (by rcases hu with hu | hu <;> rw [hu] <;> simp)
      rw [hy] at hu
      exact absurd hu (by simp)

/-- Thread 1 has parked over an empty cell, and thread 0 has stored and not notified yet. -/
theorem no_lost_wakeup_parked : ∃ c : Config String ℕ ℕ ℕ, Reachable Step Init c ∧
    c.pc 1 = .parked 0 ∧ ∃ u old, c.pc u = .swapLock old ∨ c.pc u = .swapNotify old := by
  have hrun : ∃ c : Config String ℕ ℕ ℕ, Run Step (empty 0) [.callSwap 0 (some ⟨16, "One", 0⟩),
      .callWait 1 0, .lock 1, .load 1, .compare 1 false, .park 1, .store 0] c ∧
      c.pc 1 = .parked 0 ∧ c.inner ≠ none ∧
      c.handles 0 = some { cached := none, seen := 0, reports := [] } := by
    refine ⟨_, .cons (.callSwap rfl ?_) (.cons (.callWait rfl rfl ?_)
      (.cons (.lock (.wait 0) rfl) (.cons (.load rfl) (.cons (.compare rfl rfl (by decide))
        (.cons (.park rfl) (.cons (.store rfl) (.nil _))))))), rfl, by simp, rfl⟩
    · intro arc harc
      rw [← Option.some.inj harc]
      exact ⟨rfl, fun b hb => absurd hb (empty_not_owned 0 b)⟩
    · intro t
      by_cases ht : t = 0 <;> simp [setPc, ht, empty, fresh, Pc.handle]
  obtain ⟨c, hrun, hpc, hinner, hx⟩ := hrun
  have hc : Reachable Step Init c := ⟨_, _, empty_init 0, hrun⟩
  refine ⟨c, hc, hpc, ?_⟩
  obtain ⟨hd, hhd, hsig⟩ := (no_lost_wakeup hc).1 1 0 hpc
  rw [hx] at hhd
  exact hsig (by rw [← Option.some.inj hhd]; exact hinner.symm)

end SwapRust
end KaspaMiner
