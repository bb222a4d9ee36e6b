import KaspaMiner.SwapRust

/-!
# What a step can do

The invariants of a `WatchSwap` never look at a step as such. They ask where the content of the
cell comes from, or a cache, or what a call has in its locals, and each of these questions has its
answer here, once. `Enters` is the answer for the calls: a thread that is at a program point was
there before the step, or this is the step that took it there.
-/

namespace KaspaMiner
namespace SwapRust

open Config

theorem update_cases {α β : Type*} [DecidableEq α] {f : α → β} {x y : α} {b b' : β}
    (h : Function.update f x b y = b') : y = x ∧ b = b' ∨ y ≠ x ∧ f y = b' := by
  by_cases hy : y = x
  · subst hy
    rw [Function.update_self] at h
    exact .inl ⟨rfl, h⟩
  · rw [Function.update_of_ne hy] at h
    exact .inr ⟨hy, h⟩

variable {T Addr Tid Hid : Type}

/-! ## The calls -/

/-- The steps that take thread `u` to a program point, each with the point it is taken from. -/
inductive Enters (c : Config T Addr Tid Hid) (u : Tid) :
    Action T Addr Tid Hid → Pc T Addr Hid → Prop
  | swapStore {new : Option (Arc T Addr)} (h : c.pc u = .idle) :
      Enters c u (.callSwap u new) (.swapStore new)
  | swapLock {new : Option (Arc T Addr)} (h : c.pc u = .swapStore new) :
      Enters c u (.store u) (.swapLock c.inner)
  | swapNotify {old : Option (Arc T Addr)} (h : c.pc u = .swapLock old) :
      Enters c u (.lock u) (.swapNotify old)
  | swapUnlock {old : Option (Arc T Addr)} (h : c.pc u = .swapNotify old) :
      Enters c u (.notify u) (.swapUnlock old)
  | swapIdle {old : Option (Arc T Addr)} (h : c.pc u = .swapUnlock old) :
      Enters c u (.unlock u) .idle
  | loadGet {x : Hid} (h : c.pc u = .idle) : Enters c u (.callGet u x) (.load .getChanged x)
  | waitLock {x : Hid} (h : c.pc u = .idle) : Enters c u (.callWait u x) (.waitLock x)
  | loadWait {x : Hid} (h : c.pc u = .waitLock x) :
      Enters c u (.lock u) (.load .waitForChange x)
  | compare {caller : Caller} {x : Hid} (h : c.pc u = .load caller x) :
      Enters c u (.load u) (.compare caller x c.inner (c.installed.length - 1))
  | getIdle {x : Hid} {guard : Option (Arc T Addr)} {pos : ℕ} {changed : Bool}
      (h : c.pc u = .compare .getChanged x guard pos) : Enters c u (.compare u changed) .idle
  | waitUnlock {x : Hid} {guard : Option (Arc T Addr)} {pos : ℕ}
      (h : c.pc u = .compare .waitForChange x guard pos) :
      Enters c u (.compare u true) (.waitUnlock x)
  | waitPark {x : Hid} {guard : Option (Arc T Addr)} {pos : ℕ}
      (h : c.pc u = .compare .waitForChange x guard pos) :
      Enters c u (.compare u false) (.waitPark x)
  | parked {x : Hid} (h : c.pc u = .waitPark x) : Enters c u (.park u) (.parked x)
  | waitIdle {x : Hid} (h : c.pc u = .waitUnlock x) : Enters c u (.unlock u) .idle
  | woken {t : Tid} {x : Hid} (h : c.pc u = .parked x) : Enters c u (.notify t) (.waitLock x)
  | spurious {x : Hid} (h : c.pc u = .parked x) : Enters c u (.spurious u) (.waitLock x)

section
variable [DecidableEq Tid] {c : Config T Addr Tid Hid} {a : Action T Addr Tid Hid} {t u : Tid}
  {pc : Pc T Addr Hid}

omit [DecidableEq Tid] in
/-- A thread moves by its own steps, unless it is parked. -/
theorem Enters.thread (h : Enters c u a pc) : a.thread = some u ∨ ∃ x, c.pc u = .parked x := by
  cases h with
  | woken hpc => exact .inr ⟨_, hpc⟩
  | _ => exact .inl rfl

/-- A step of thread `t` and nobody else. -/
theorem Enters.update (h : Enters c t a pc) :
    Function.update c.pc t pc u = c.pc u ∨ Enters c u a (Function.update c.pc t pc u) := by
  by_cases hu : u = t
  · subst hu
    rw [Function.update_self]
    exact .inr h
  · exact .inl (Function.update_of_ne hu ..)

end

variable [DecidableEq Addr] [DecidableEq Tid] [DecidableEq Hid]
variable {c c' : Config T Addr Tid Hid} {a : Action T Addr Tid Hid} {arc : Arc T Addr} {u : Tid}

/-- **Where a thread is, it was, or this is the step that took it there.** -/
theorem enters_step (h : Step c a c') (u : Tid) : c'.pc u = c.pc u ∨ Enters c u a (c'.pc u) := by
  cases h with
  | callSwap hpc hnew => exact (Enters.swapStore hpc).update
  | store hpc => exact (Enters.swapLock hpc).update
  | @lock t pc hpc hfree =>
    apply Enters.update
    generalize hq : c.pc t = q at hpc
    cases hpc with
    | swap old => exact .swapNotify hq
    | wait x => exact .loadWait hq
  -- The only step that takes other threads anywhere: those that are parked wait for the mutex.
  | @notify t old hpc =>
    by_cases hu : u = t
    · subst hu
      rw [setPc_self]
      exact .inr (.swapUnlock hpc)
    · rw [setPc_ne hu, wakeAll_pc]
      cases hw : c.pc u with
      | parked x => exact .inr (.woken hw)
      | _ => exact .inl rfl
  | @unlock t ret hpc =>
    apply Enters.update
    generalize hq : c.pc t = q at hpc
    cases hpc with
    | swap old => exact .swapIdle hq
    | wait x => exact .waitIdle hq
  | callGet hpc hh hfree => exact (Enters.loadGet hpc).update
  | callWait hpc hh hfree => exact (Enters.waitLock hpc).update
  | load hpc => exact (Enters.compare hpc).update
  | @compare t caller x guard pos hd changed hpc hh hchanged =>
    apply Enters.update
    cases caller with
    | getChanged => exact .getIdle hpc
    | waitForChange =>
      cases changed with
      | true => exact .waitUnlock hpc
      | false => exact .waitPark hpc
  | park hpc => exact (Enters.parked hpc).update
  | spurious hpc => exact (Enters.spurious hpc).update
  | clone | dropHandle | dropReturned => exact .inl rfl

theorem swapStore_step (h : Step c a c') {new : Option (Arc T Addr)}
    (hu : c'.pc u = .swapStore new) : c.pc u = .swapStore new ∨ a = .callSwap u new := by
  rcases enters_step h u with hsame | henters
  · exact .inl (hsame.symm.trans hu)
  · rw [hu] at henters
    cases henters with
    | swapStore => exact .inr rfl

theorem compare_step (h : Step c a c') {caller : Caller} {x : Hid} {guard : Option (Arc T Addr)}
    {pos : ℕ} (hu : c'.pc u = .compare caller x guard pos) :
    c.pc u = .compare caller x guard pos ∨
    a = .load u ∧ c.pc u = .load caller x ∧ guard = c.inner ∧ pos = c.installed.length - 1 := by
  rcases enters_step h u with hsame | henters
  · exact .inl (hsame.symm.trans hu)
  · rw [hu] at henters
    cases henters with
    | compare hpc => exact .inr ⟨rfl, hpc, rfl, rfl⟩

theorem waitPark_step (h : Step c a c') {x : Hid} (hu : c'.pc u = .waitPark x) :
    c.pc u = .waitPark x ∨
    a = .compare u false ∧ ∃ guard pos, c.pc u = .compare .waitForChange x guard pos := by
  rcases enters_step h u with hsame | henters
  · exact .inl (hsame.symm.trans hu)
  · rw [hu] at henters
    cases henters with
    | waitPark hpc => exact .inr ⟨rfl, _, _, hpc⟩

theorem parked_step (h : Step c a c') {x : Hid} (hu : c'.pc u = .parked x) :
    c.pc u = .parked x ∨ a = .park u ∧ c.pc u = .waitPark x := by
  rcases enters_step h u with hsame | henters
  · exact .inl (hsame.symm.trans hu)
  · rw [hu] at henters
    cases henters with
    | parked hpc => exact .inr ⟨rfl, hpc⟩

/-- Only its own notification takes a `swap` out of the part between store and notification. -/
theorem signalling_step (h : Step c a c') (hu : (c.pc u).signalling = true) :
    (c'.pc u).signalling = true ∨ a = .notify u := by
  rcases enters_step h u with hsame | henters
  · left
    rw [hsame]
    exact hu
  · generalize c'.pc u = q at henters
    cases henters with
    | swapLock | swapNotify => exact .inl rfl
    | swapUnlock => exact .inr rfl
    | swapStore hpc | swapIdle hpc | loadGet hpc | waitLock hpc | loadWait hpc | compare hpc
    | getIdle hpc | waitUnlock hpc | waitPark hpc | parked hpc | waitIdle hpc | woken hpc
    | spurious hpc =>
      rw [hpc] at hu
      exact absurd hu (by simp [Pc.signalling])

/-! ## The cell -/

theorem installed_step (h : Step c a c') :
    (c'.installed = c.installed ∧ c'.inner = c.inner ∧ ∀ t, a ≠ .store t) ∨
    ∃ t new, a = .store t ∧ c.pc t = .swapStore new ∧ c'.pc t = .swapLock c.inner ∧
      c'.inner = new ∧ c'.installed = c.installed ++ [new] := by
  cases h with
  | @store t new hpc => exact .inr ⟨t, new, rfl, hpc, setPc_self, rfl, rfl⟩
  | _ => exact .inl ⟨rfl, rfl, by intro t; simp⟩

theorem installed_extends (h : Step c a c') : c.installed <+: c'.installed := by
  rcases installed_step h with ⟨he, -, -⟩ | ⟨t, new, -, -, -, -, he⟩
  · rw [he]
  · rw [he]
    exact List.prefix_append ..

/-! ## The handles -/

/-- A cache was there before, or was just compared, or was just cloned. -/
theorem handles_step (h : Step c a c') {x : Hid} {hd' : Handle T Addr}
    (hx : c'.handles x = some hd') :
    c.handles x = some hd' ∨
    (∃ t caller guard pos hd changed, a = .compare t changed ∧
      c.pc t = .compare caller x guard pos ∧ c'.pc t = afterCompare caller x changed ∧
      c.handles x = some hd ∧ hd' = hd.compared guard pos) ∨
    ∃ y hd, c.handles y = some hd ∧ c.handles x = none ∧ hd' = { hd with reports := [] } ∧
      c'.pc = c.pc := by
  cases h with
  | @compare t caller h guard pos hd changed hpc hh hchanged =>
    rcases update_cases hx with ⟨rfl, he⟩ | ⟨-, hx⟩
    · exact .inr (.inl ⟨t, caller, guard, pos, hd, changed, rfl, hpc, setPc_self, hh,
        (Option.some.inj he).symm⟩)
    · exact .inl hx
  | @clone y h' hd hh hfree hnew =>
    rcases update_cases hx with ⟨rfl, he⟩ | ⟨-, hx⟩
    · exact .inr (.inr ⟨y, hd, hh, hnew, (Option.some.inj he).symm, rfl⟩)
    · exact .inl hx
  | dropHandle hfree =>
    rcases update_cases hx with ⟨rfl, he⟩ | ⟨-, hx⟩
    · exact absurd he (by simp)
    · exact .inl hx
  | callSwap | store | lock | notify | unlock | callGet | callWait | load | park | spurious
  | dropReturned => exact .inl hx

/-! ## The owners -/

/-- What a call owns was owned, or is the `Arc` it has just made. -/
theorem arc_step (h : Step c a c') (hu : (c'.pc u).arc = some arc) :
    c.Owned arc ∨ a = .callSwap u (some arc) := by
  rcases enters_step h u with hsame | henters
  · left
    rw [hsame] at hu
    exact .call hu
  · generalize c'.pc u = q at henters hu
    cases henters with
    | @swapStore new hpc =>
      right
      have hnew : new = some arc := hu
      rw [hnew]
    | swapLock hpc => exact .inl (.inner hu)
    | swapNotify hpc | swapUnlock hpc =>
      left
      apply Owned.call (t := u)
      rw [hpc]
      exact hu
    | compare hpc => exact .inl (.inner hu)
    | _ => exact absurd hu (by simp [Pc.arc])

/-- What `swap` returns was owned by the call. -/
theorem returned_step (h : Step c a c') (hr : arc ∈ c'.returned) : c.Owned arc := by
  cases h with
  | @unlock t ret hpc =>
    rcases List.mem_append.mp hr with hr | hr
    · exact .returned hr
    · apply Owned.call (t := t)
      generalize c.pc t = q at hpc
      cases hpc with
      | swap old => exact Option.mem_toList.mp hr
      | wait x => exact absurd hr (by simp)
  | @dropReturned b l r hret =>
    apply Owned.returned
    rw [hret]
    rcases List.mem_append.mp hr with hr | hr
    · exact List.mem_append_left _ hr
    · exact List.mem_append_right _ (List.mem_cons_of_mem _ hr)
  | _ => exact .returned hr

/-- **Nothing but `Arc::new` gives an `Arc` a first owner.** -/
theorem owned_step (h : Step c a c') (ho : c'.Owned arc) :
    c.Owned arc ∨ ∃ t, a = .callSwap t (some arc) := by
  cases ho with
  | inner hi =>
    left
    rcases installed_step h with ⟨-, hinner, -⟩ | ⟨t, new, -, hpc, -, hinner, -⟩
    · rw [hinner] at hi
      exact .inner hi
    · -- what is stored was the call's until now
      apply Owned.call (t := t)
      rw [hpc, ← hi, hinner]
      rfl
  | @handle x hd' hx hc =>
    left
    rcases handles_step h hx with hx | ⟨t, caller, guard, pos, hd, changed, -, hpc, -, hh, rfl⟩ |
      ⟨y, hd, hh, -, rfl, -⟩
    · exact .handle hx hc
    · unfold Handle.compared at hc
      split at hc
      · apply Owned.call (t := t)
        rw [hpc]
        exact hc
      · exact .handle hh hc
    · exact .handle hh hc
  | call hu => exact (arc_step h hu).imp id fun ha => ⟨_, ha⟩
  | returned hr => exact .inl (returned_step h hr)

theorem next_step (h : Step c a c') : c.next ≤ c'.next := by
  cases h with
  | callSwap => exact Nat.le_succ _
  | _ => exact le_rfl

theorem callSwap_fresh {t : Tid} (h : Step c (.callSwap t (some arc)) c') :
    arc.serial = c.next ∧ c'.next = c.next + 1 ∧ ∀ b, c.Owned b → b.addr ≠ arc.addr := by
  cases h with
  | callSwap hpc hnew =>
    obtain ⟨hserial, haddr⟩ := hnew arc rfl
    exact ⟨hserial, rfl, haddr⟩

end SwapRust
end KaspaMiner
