import KaspaMiner.Proof.Swap.History

/-!
# What a handle reports

The invariants put together, and with them the two statements about `get_changed_inner`: one
comparison is exact, and the reports of a handle are a subsequence of the installations.

A comparison is made some time after the load it is about, and other threads go on in between.
`frame_step` is why that does not matter: between the two, nobody else moves the thread or touches
the handle it has borrowed.
-/

namespace KaspaMiner
namespace SwapRust

open Config
open Lib (Run Reachable)

variable {T Addr Tid Hid : Type} [DecidableEq Addr] [DecidableEq Tid] [DecidableEq Hid]
variable {c c' : Config T Addr Tid Hid} {a : Action T Addr Tid Hid}

/-! ## The invariant -/

structure Inv (c : Config T Addr Tid Hid) : Prop where
  held : HeldBy c.pc c.waitMutex
  borrows : Borrows c.pc c.handles
  distinct : Distinct c
  installs : Installs c
  sees : Sees c

omit [DecidableEq Addr] [DecidableEq Tid] [DecidableEq Hid] in
theorem Init.inv (h : Init c) : Inv c := by
  have howned : ∀ x, c.Owned x → c.inner = some x := by
    intro x hx
    cases hx with
    | inner hx => exact hx
    | handle hh hx =>
      rw [h.handles _ _ hh] at hx
      exact hx
    | @call t hx =>
      rw [h.pc t] at hx
      exact absurd hx (by simp [Pc.arc])
    | returned hx =>
      rw [h.returned] at hx
      exact absurd hx (by simp)
  refine ⟨?_, ⟨?_, ?_⟩, ⟨?_, ?_⟩,
    ⟨?_, ?_, ?_, ?_, ?_⟩,
    ⟨?_, ?_⟩⟩
  · intro t
    rw [h.pc t, h.waitMutex]
    simp [Pc.locked]
  · intro t x hx
    rw [h.pc t] at hx
    exact absurd hx (by simp [Pc.handle])
  · intro t u x hx
    rw [h.pc t] at hx
    exact absurd hx (by simp [Pc.handle])
  · intro x y hx hy _
    have := (howned x hx).symm.trans (howned y hy)
    exact Option.some.inj this
  · intro x hx
    exact h.inner x (howned x hx)
  · rw [h.installed]
    rfl
  · intro x hx
    rw [h.installed, List.mem_singleton] at hx
    exact h.inner x hx.symm
  · intro t x hx
    rw [h.pc t] at hx
    exact absurd hx (by simp)
  · intro t u x hx
    rw [h.pc t] at hx
    exact absurd hx (by simp)
  · rw [h.installed]
    cases c.inner <;> simp
  · intro x hd hx
    rw [h.handles x hd hx, h.installed]
    exact ⟨rfl, List.nil_sublist _⟩
  · intro t caller x g pos hx
    rw [h.pc t] at hx
    exact absurd hx (by simp)

theorem Inv.step (hI : Inv c) (h : Step c a c') : Inv c' where
  held := heldBy_step h hI.held
  borrows := borrows_step h hI.borrows
  distinct := distinct_step h hI.distinct
  installs := installs_step h hI.installs
  sees := sees_step h hI.borrows hI.distinct hI.installs hI.sees

theorem Inv.of_reachable (h : Reachable Step Init c) : Inv c :=
  h.invariant (fun _ hc => hc.inv) (fun _ _ _ hI hs => hI.step hs)

/-! ## Between the load and the comparison -/

/-- Another thread's step moves neither a thread that is not parked nor the handle it has. -/
theorem frame_step (h : Step c a c') (hB : Borrows c.pc c.handles) {t : Tid}
    (ht : a.thread ≠ some t) (hpark : ∀ x, c.pc t ≠ .parked x) :
    c'.pc t = c.pc t ∧ ∀ x, (c.pc t).handle = some x → c'.handles x = c.handles x := by
  constructor
  · rcases enters_step h t with hsame | henters
    · exact hsame
    · rcases henters.thread with hat | ⟨x, hx⟩
      · exact absurd hat ht
      · exact absurd hx (hpark x)
  -- A handle is written by the call that has it, by a clone and by a drop.
  · intro x hx
    cases h with
    | @compare u caller y guard pos hd changed hpc hh hchanged =>
      apply Function.update_of_ne
      intro heq
      subst heq
      have htu := hB.unique t u x hx (by rw [hpc]; rfl)
      exact ht (congrArg some htu.symm)
    | @clone y z hd hh hfree hnew =>
      apply Function.update_of_ne
      intro heq
      subst heq
      obtain ⟨hd', hhd'⟩ := hB.exist t x hx
      rw [hnew] at hhd'
      exact absurd hhd' (by simp)
    | @dropHandle y hfree =>
      apply Function.update_of_ne
      intro heq
      subst heq
      exact hfree t hx
    | _ => rfl

theorem frame_run {as : List (Action T Addr Tid Hid)} (h : Run Step c as c') (hI : Inv c) {t : Tid}
    (ht : ∀ a ∈ as, a.thread ≠ some t) {caller : Caller} {x : Hid} {guard : Option (Arc T Addr)}
    {pos : ℕ} (hpc : c.pc t = .compare caller x guard pos) :
    Inv c' ∧ c'.pc t = .compare caller x guard pos ∧ c'.handles x = c.handles x := by
  refine h.invariant_of (P := fun a => a.thread ≠ some t)
    (I := fun s => Inv s ∧ s.pc t = .compare caller x guard pos ∧ s.handles x = c.handles x)
    ?_ ht ⟨hI, hpc, rfl⟩
  rintro s a s' ha ⟨hs, hspc, hsx⟩ hstep
  obtain ⟨hpc', hx'⟩ := frame_step hstep hs.borrows ha (by rw [hspc]; simp)
  exact ⟨hs.step hstep, hpc'.trans hspc, (hx' x (by rw [hspc]; rfl)).trans hsx⟩

/-! ## The comparison -/

/-- What a comparison does, in terms of the contents and not of their addresses. -/
theorem compare_exact (hI : Inv c) {t : Tid} {changed : Bool} (h : Step c (.compare t changed) c')
    {caller : Caller} {x : Hid} {guard : Option (Arc T Addr)} {pos : ℕ}
    (hpc : c.pc t = .compare caller x guard pos) :
    ∃ hd, c.handles x = some hd ∧ (changed = true ↔ guard ≠ hd.cached) ∧
      c'.handles x = some
        { cached := guard, seen := pos,
          reports := if changed then hd.reports ++ [guard] else hd.reports } := by
  cases h with
  | @compare _ caller' x' guard' pos' hd _ hpc' hh hchanged =>
    rw [hpc] at hpc'
    injection hpc' with hcaller hx hguard hpos
    subst hcaller hx hguard hpos
    -- The cache and the guard are both owned, and no two that are have one address.
    have hiff : asPtr hd.cached = asPtr guard ↔ hd.cached = guard :=
      hI.distinct.asPtr_eq_iff (fun b hb => .handle hh hb)
        fun b hb => .call (t := t) (by rw [hpc]; exact hb)
    refine ⟨hd, hh, ?_, (Function.update_self ..).trans (congrArg some ?_)⟩
    · rw [hchanged, decide_eq_true_iff, ne_eq, hiff]
      exact ⟨fun hne he => hne he.symm, fun hne he => hne he.symm⟩
    · unfold Handle.compared
      rw [hchanged]
      by_cases hptr : asPtr hd.cached = asPtr guard
      · have hsame := hiff.mp hptr
        rw [if_neg (by simpa using hptr), hsame]
        simp
      · rw [if_pos hptr, if_pos (by simpa using hptr)]

/-- **Change detection by pointer is exact.** In every reachable configuration, the history ends
with the content of the cell, and what a handle has reported is a subsequence of it in which no
`Some` is twice. And whatever the other threads do between a load and the comparison that follows
it, the comparison reports a change exactly when the content at the load was not the cached one;
afterwards the cache is the content at the load. -/
theorem changes_exact (h : Reachable Step Init c) :
    (c.installed.getLast? = some c.inner ∧ ∀ x hd, c.handles x = some hd →
      hd.reports.Sublist c.installed ∧ (hd.reports.filterMap id).Nodup) ∧
    ∀ t c₁ as c₂ changed c₃, Step c (.load t) c₁ → Run Step c₁ as c₂ →
      (∀ a ∈ as, a.thread ≠ some t) → Step c₂ (.compare t changed) c₃ →
      ∃ caller x hd hd', c.pc t = .load caller x ∧ c.handles x = some hd ∧
        c₂.handles x = some hd ∧ c₃.handles x = some hd' ∧
        (changed = true ↔ c.inner ≠ hd.cached) ∧ hd'.cached = c.inner ∧
        hd'.reports = if changed then hd.reports ++ [c.inner] else hd.reports := by
  have hI := Inv.of_reachable h
  refine ⟨⟨hI.installs.last, ?_⟩, ?_⟩
  · intro x hd hx
    obtain ⟨-, hreports⟩ := hI.sees.handle x hd hx
    have hsub := hreports.trans (List.take_sublist _ _)
    exact ⟨hsub, hI.installs.nodup.sublist (hsub.filterMap id)⟩
  · intro t c₁ as c₂ changed c₃ hload hrun ht hcmp
    have hI₁ := hI.step hload
    cases hload with
    | @load _ caller x hpc =>
      obtain ⟨hI₂, hpc₂, hx₂⟩ := frame_run hrun hI₁ ht setPc_self
      obtain ⟨hd, hhd, hiff, hx₃⟩ := compare_exact hI₂ hcmp hpc₂
      exact ⟨caller, x, hd, _, hpc, hx₂.symm.trans hhd, hhd, hx₃, hiff, rfl, rfl⟩

/-- What one thread does in `swap`, and the other in `get_changed` when there is a change. -/
def swapActions (new : Option (Arc String ℕ)) : List (Action String ℕ (Fin 2) Unit) :=
  [.callSwap 0 new, .store 0, .lock 0, .notify 0, .unlock 0]

def getActions : List (Action String ℕ (Fin 2) Unit) := [.callGet 1 (), .load 1, .compare 1 true]

/-- A `Some` at the address another one had before it. The handle has reported the first one and
the `None` after it; the second is loaded, and compared although a `swap` has taken it out again
since. -/
theorem reused_run : ∃ (a b : Arc String ℕ) (c c₁ c₂ c₃ : Config String ℕ (Fin 2) Unit),
    a.addr = b.addr ∧ Reachable Step Init c ∧ c.inner = some b ∧
    (∃ seen, c.handles () = some { cached := none, seen, reports := [some a, none] }) ∧
    Step c (.load 1) c₁ ∧
    Run Step c₁ [.lock 0, .notify 0, .unlock 0, .callSwap 0 none, .store 0] c₂ ∧ c₂.inner = none ∧
    Step c₂ (.compare 1 true) c₃ := by
  let a : Arc String ℕ := ⟨16, "first", 0⟩
  let b : Arc String ℕ := ⟨16, "second", 2⟩
  have hempty (x : Arc String ℕ) (hx : (empty () : Config String ℕ (Fin 2) Unit).Owned x) :
      x.addr ≠ 16 := absurd hx (empty_not_owned () x)
  have hfirst : Run Step (empty ()) (swapActions (some a) ++ getActions) _ :=
    .cons (.callSwap rfl fun _ h => Option.some.inj h ▸ ⟨rfl, hempty⟩) <| .cons (.store rfl) <|
    .cons (.lock (.swap _) rfl) <| .cons (.notify rfl) <| .cons (.unlock (.swap _)) <|
    .cons (.callGet rfl rfl (by decide)) <| .cons (.load rfl) <| .single (.compare rfl rfl rfl)
  have hgone : Run Step (empty ()) (swapActions (some a) ++ getActions ++
      (swapActions none ++ getActions ++ [.dropReturned a])) _ :=
    hfirst.append <| .cons (.callSwap rfl (by simp)) <| .cons (.store rfl) <|
    .cons (.lock (.swap _) rfl) <| .cons (.notify rfl) <| .cons (.unlock (.swap _)) <|
    .cons (.callGet rfl rfl (by decide)) <| .cons (.load rfl) <| .cons (.compare rfl rfl rfl) <|
    .single (.dropReturned (l := []) (r := []) rfl)
  -- nothing is left at address 16
  have hagain : Run Step (empty ()) (swapActions (some a) ++ getActions ++
      (swapActions none ++ getActions ++ [.dropReturned a]) ++
      [.callSwap 0 (some b), .store 0, .callGet 1 ()]) _ :=
    hgone.append <|
    .cons (.callSwap rfl fun _ h => Option.some.inj h ▸ ⟨rfl, (by decide : Vacant _ 16)⟩) <|
    .cons (.store rfl) <| .single (.callGet rfl rfl (by decide))
  exact ⟨a, b, _, _, _, _, rfl, ⟨_, _, empty_init (), hagain⟩, rfl, ⟨_, rfl⟩, .load rfl,
    .cons (.lock (.swap _) rfl) <| .cons (.notify rfl) <| .cons (.unlock (.swap _)) <|
      .cons (.callSwap rfl (by simp)) <| .single (.store rfl),
    rfl, .compare rfl rfl rfl⟩

/-- The second one is reported. -/
theorem changes_exact_reused : ∃ (a b : Arc String ℕ) (c c₁ c₂ c₃ : Config String ℕ (Fin 2) Unit),
    Reachable Step Init c ∧ c.inner = some b ∧ a.addr = b.addr ∧ Step c (.load 1) c₁ ∧
    Run Step c₁ [.lock 0, .notify 0, .unlock 0, .callSwap 0 none, .store 0] c₂ ∧ c₂.inner = none ∧
    Step c₂ (.compare 1 true) c₃ ∧
    ∃ hd', c₃.handles () = some hd' ∧ hd'.cached = some b ∧
      hd'.reports = [some a, none, some b] := by
  obtain ⟨a, b, c, c₁, c₂, c₃, haddr, hc, hinner, ⟨seen, hhandle⟩, hload, hothers, hnone,
    hcompare⟩ := reused_run
  obtain ⟨_, _, hd, hd', -, hx, -, hx', -, hcached, hreports⟩ :=
    (changes_exact hc).2 1 _ _ _ true _ hload hothers (by simp [Action.thread]) hcompare
  obtain rfl : _ = hd := Option.some.inj (hhandle.symm.trans hx)
  rw [hinner] at hcached hreports
  exact ⟨a, b, c, c₁, c₂, c₃, hc, hinner, haddr, hload, hothers, hnone, hcompare, hd', hx',
    hcached, hreports⟩

end SwapRust
end KaspaMiner
