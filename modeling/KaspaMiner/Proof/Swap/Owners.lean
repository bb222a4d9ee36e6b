import KaspaMiner.Proof.Swap.Steps

/-!
# Who has what

Three invariants every other one needs, since they say which steps cannot happen at the same time.

`HeldBy` is the mutex: a thread has it exactly while its program counter is between a `lock` and
the `unlock` or `park` after it. `Borrows` is what the borrow checker guarantees: a handle that
is borrowed mutably is there, and it is borrowed by one call only. Both are about the program
counters and one other component, so the lemmas are about those and a step is a program counter
written over (`Function.update`), whatever else it does.

`Distinct` is about addresses. An address names an `Arc` only while the `Arc` has an owner. That is
enough for the comparison in `get_changed_inner`, because both of the pointers it compares belong
to owned `Arc`s: the cached one is owned by the cache and the loaded one by the guard.
-/

namespace KaspaMiner
namespace SwapRust

open Config

section
variable {T Addr Tid Hid : Type} [DecidableEq Tid] {pcs : Tid → Pc T Addr Hid} {t : Tid}
  {pc : Pc T Addr Hid}

/-! ## The mutex -/

/-- The mutex is held by the one thread whose program counter says so. -/
def HeldBy (pcs : Tid → Pc T Addr Hid) (m : Option Tid) : Prop :=
  ∀ t, (pcs t).locked = true ↔ m = some t

theorem HeldBy.update {m : Option Tid} (h : HeldBy pcs m) (hpc : pc.locked = (pcs t).locked) :
    HeldBy (Function.update pcs t pc) m := by
  intro u
  by_cases hu : u = t
  · subst hu
    rw [Function.update_self, hpc]
    exact h u
  · rw [Function.update_of_ne hu]
    exact h u

theorem HeldBy.acquire (h : HeldBy pcs none) (hpc : pc.locked = true) :
    HeldBy (Function.update pcs t pc) (some t) := by
  intro u
  by_cases hu : u = t
  · subst hu
    rw [Function.update_self]
    exact ⟨fun _ => rfl, fun _ => hpc⟩
  · rw [Function.update_of_ne hu]
    constructor
    · intro hl
      exact absurd ((h u).mp hl) (by simp)
    · intro he
      exact absurd (Option.some.inj he).symm hu

theorem HeldBy.release {m : Option Tid} (h : HeldBy pcs m) (ht : (pcs t).locked = true)
    (hpc : pc.locked = false) : HeldBy (Function.update pcs t pc) none := by
  have hm := (h t).mp ht
  intro u
  by_cases hu : u = t
  · subst hu
    rw [Function.update_self]
    simp [hpc]
  · rw [Function.update_of_ne hu]
    constructor
    · intro hl
      have := (h u).mp hl
      rw [hm] at this
      exact absurd (Option.some.inj this).symm hu
    · intro he
      exact absurd he (by simp)

omit [DecidableEq Tid] in
theorem HeldBy.wake {m : Option Tid} (h : HeldBy pcs m) : HeldBy (fun u => (pcs u).wake) m := by
  intro u
  rw [Pc.wake_locked]
  exact h u

/-! ## Borrowed handles -/

/-- A borrowed handle is there, and no two calls have borrowed the same one. -/
structure Borrows (pcs : Tid → Pc T Addr Hid) (handles : Hid → Option (Handle T Addr)) : Prop where
  exist : ∀ t h, (pcs t).handle = some h → ∃ hd, handles h = some hd
  unique : ∀ t u h, (pcs t).handle = some h → (pcs u).handle = some h → t = u

variable {handles : Hid → Option (Handle T Addr)}

/-- A step that borrows nothing new. -/
theorem Borrows.update (h : Borrows pcs handles)
    (hpc : ∀ x, pc.handle = some x → (pcs t).handle = some x) :
    Borrows (Function.update pcs t pc) handles := by
  have hle : ∀ u x, (Function.update pcs t pc u).handle = some x → (pcs u).handle = some x := by
    intro u x hx
    by_cases hu : u = t
    · subst hu
      rw [Function.update_self] at hx
      exact hpc x hx
    · rwa [Function.update_of_ne hu] at hx
  exact ⟨fun u x hx => h.exist u x (hle u x hx),
    fun u w x hu hw => h.unique u w x (hle u x hu) (hle w x hw)⟩

theorem Borrows.borrow (h : Borrows pcs handles) {x : Hid} {hd : Handle T Addr}
    (hx : handles x = some hd) (hfree : ∀ u, (pcs u).handle ≠ some x) (hpc : pc.handle = some x) :
    Borrows (Function.update pcs t pc) handles := by
  refine ⟨?_, ?_⟩
  · intro u y hy
    by_cases hut : u = t
    · subst hut
      rw [Function.update_self, hpc] at hy
      exact ⟨hd, by rw [← Option.some.inj hy, hx]⟩
    · rw [Function.update_of_ne hut] at hy
      exact h.exist u y hy
  -- If one of the two is the borrower, the other has no call with the handle.
  · intro u w y hu hw
    by_cases hut : u = t <;> by_cases hwt : w = t
    · rw [hut, hwt]
    · subst hut
      rw [Function.update_self, hpc] at hu
      rw [Function.update_of_ne hwt, ← Option.some.inj hu] at hw
      exact absurd hw (hfree w)
    · subst hwt
      rw [Function.update_self, hpc] at hw
      rw [Function.update_of_ne hut, ← Option.some.inj hw] at hu
      exact absurd hu (hfree u)
    · rw [Function.update_of_ne hut] at hu
      rw [Function.update_of_ne hwt] at hw
      exact h.unique u w y hu hw

omit [DecidableEq Tid] in
theorem Borrows.wake (h : Borrows pcs handles) : Borrows (fun u => (pcs u).wake) handles := by
  refine ⟨?_, ?_⟩
  · intro u x hx
    rw [Pc.wake_handle] at hx
    exact h.exist u x hx
  · intro u w x hu hw
    rw [Pc.wake_handle] at hu hw
    exact h.unique u w x hu hw

omit [DecidableEq Tid] in
theorem Borrows.of_handles {handles' : Hid → Option (Handle T Addr)} (h : Borrows pcs handles)
    (hle : ∀ t x hd, (pcs t).handle = some x → handles x = some hd → ∃ hd', handles' x = some hd') :
    Borrows pcs handles' := by
  refine ⟨?_, h.unique⟩
  intro u x hx
  obtain ⟨hd, hhd⟩ := h.exist u x hx
  exact hle u x hd hx hhd

end

section
variable {T Addr Tid Hid : Type} [DecidableEq Addr] [DecidableEq Tid] [DecidableEq Hid]
variable {c c' : Config T Addr Tid Hid} {a : Action T Addr Tid Hid}

theorem heldBy_step (h : Step c a c') (hI : HeldBy c.pc c.waitMutex) :
    HeldBy c'.pc c'.waitMutex := by
  cases h with
  | callSwap hpc hnew => exact hI.update (by rw [hpc]; rfl)
  | store hpc => exact hI.update (by rw [hpc]; rfl)
  | lock hpc hfree =>
    rw [hfree] at hI
    apply hI.acquire
    generalize c.pc _ = pc₀ at hpc
    cases hpc <;> rfl
  | notify hpc =>
    apply hI.wake.update
    rw [hpc]
    rfl
  | unlock hpc =>
    refine hI.release ?_ rfl
    generalize c.pc _ = pc₀ at hpc
    cases hpc <;> rfl
  | callGet hpc hh hfree => exact hI.update (by rw [hpc]; rfl)
  | callWait hpc hh hfree => exact hI.update (by rw [hpc]; rfl)
  | @load _ caller _ hpc =>
    apply hI.update
    rw [hpc]
    cases caller <;> rfl
  | @compare _ caller _ _ _ _ changed hpc hh hchanged =>
    apply hI.update
    rw [hpc]
    cases caller <;> cases changed <;> rfl
  | park hpc => exact hI.release (by rw [hpc]; rfl) rfl
  | spurious hpc => exact hI.update (by rw [hpc]; rfl)
  | clone hh hfree hnew => exact hI
  | dropHandle hfree => exact hI
  | dropReturned hret => exact hI

theorem borrows_step (h : Step c a c') (hI : Borrows c.pc c.handles) :
    Borrows c'.pc c'.handles := by
  cases h with
  | callSwap hpc hnew => exact hI.update (fun x hx => absurd hx (by simp [Pc.handle]))
  | store hpc => exact hI.update (fun x hx => absurd hx (by simp [Pc.handle]))
  | @lock t pc hpc hfree =>
    apply hI.update
    intro x hx
    generalize c.pc t = pc₀ at hpc ⊢
    cases hpc with
    | swap old => exact absurd hx (by simp [Pc.handle])
    | wait h => exact hx
  | notify hpc => exact hI.wake.update (fun x hx => absurd hx (by simp [Pc.handle]))
  | unlock hpc => exact hI.update (fun x hx => absurd hx (by simp [Pc.handle]))
  | callGet hpc hh hfree => exact hI.borrow hh hfree rfl
  | callWait hpc hh hfree => exact hI.borrow hh hfree rfl
  | load hpc => exact hI.update (fun x hx => by rw [hpc]; exact hx)
  | @compare t caller h guard pos hd changed hpc hh hchanged =>
    -- The call may give the handle back; the handle written over is there all the same.
    have hle : Borrows (c.setPc t (afterCompare caller h changed)).pc c.handles := by
      apply hI.update
      intro x hx
      rw [hpc]
      cases caller with
      | getChanged => exact absurd hx (by simp [afterCompare, Pc.handle])
      | waitForChange => cases changed <;> exact hx
    apply hle.of_handles
    intro u x hd' _ hx
    by_cases hxh : x = h
    · subst hxh
      exact ⟨_, Function.update_self ..⟩
    · exact ⟨hd', (Function.update_of_ne hxh ..).trans hx⟩
  | park hpc => exact hI.update (fun x hx => by rw [hpc]; exact hx)
  | spurious hpc => exact hI.update (fun x hx => by rw [hpc]; exact hx)
  | @clone h h' hd hh hfree hnew =>
    refine hI.of_handles (fun u x hd' _ hx => ⟨hd', ?_⟩)
    have hne : x ≠ h' := by
      intro heq
      subst heq
      rw [hnew] at hx
      exact absurd hx (by simp)
    exact (Function.update_of_ne hne ..).trans hx
  | @dropHandle h hfree =>
    refine hI.of_handles (fun u x hd' hu hx => ⟨hd', ?_⟩)
    have hne : x ≠ h := by
      intro heq
      subst heq
      exact hfree u hu
    exact (Function.update_of_ne hne ..).trans hx
  | dropReturned hret => exact hI

/-! ## Distinct addresses -/

/-- Owned `Arc`s at one address are one `Arc`, and every owned one was made already. -/
structure Distinct (c : Config T Addr Tid Hid) : Prop where
  addr : ∀ x y, c.Owned x → c.Owned y → x.addr = y.addr → x = y
  serial : ∀ x, c.Owned x → x.serial < c.next

theorem distinct_step (h : Step c a c') (hI : Distinct c) : Distinct c' := by
  have hnext := next_step h
  have hnew : ∀ t x, a = .callSwap t (some x) →
      x.serial < c'.next ∧ ∀ y, c.Owned y → y.addr ≠ x.addr := by
    intro t x ha
    subst ha
    obtain ⟨hserial, hnext', haddr⟩ := callSwap_fresh h
    rw [hserial, hnext']
    exact ⟨Nat.lt_succ_self _, haddr⟩
  constructor
  · intro x y hx hy he
    rcases owned_step h hx with hx | ⟨t, hat⟩
    · rcases owned_step h hy with hy | ⟨t, hat⟩
      · exact hI.addr x y hx hy he
      · exact absurd he ((hnew t y hat).2 x hx)
    · rcases owned_step h hy with hy | ⟨u, hau⟩
      · exact absurd he.symm ((hnew t x hat).2 y hy)
      · rw [hat] at hau
        injection hau with _ hxy
        exact Option.some.inj hxy
  · intro x hx
    rcases owned_step h hx with hx | ⟨t, hat⟩
    · exact lt_of_lt_of_le (hI.serial x hx) hnext
    · exact (hnew t x hat).1

omit [DecidableEq Addr] [DecidableEq Tid] [DecidableEq Hid] in
/-- **Comparing the pointers of two owned contents compares the contents.** -/
theorem Distinct.asPtr_eq_iff (hI : Distinct c) {x y : Option (Arc T Addr)}
    (hx : ∀ b, x = some b → c.Owned b) (hy : ∀ b, y = some b → c.Owned b) :
    asPtr x = asPtr y ↔ x = y := by
  constructor
  · intro h
    cases x with
    | none =>
      cases y with
      | none => rfl
      | some b => exact absurd h (by simp [asPtr])
    | some b =>
      cases y with
      | none => exact absurd h (by simp [asPtr])
      | some d =>
        have hbd : b.addr = d.addr := by simpa [asPtr] using h
        rw [hI.addr b d (hx b rfl) (hy d rfl) hbd]
  · intro h
    rw [h]

end

end SwapRust
end KaspaMiner
