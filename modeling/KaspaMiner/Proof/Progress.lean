import KaspaMiner.Proof.Staleness

/-!
# A thread with a template goes on

The other side of the budget. With a template in the channel, nothing but a send that fails keeps a
thread from its next check: whatever the hashes are, it gets there (`reaches_check`). If shutdown is
not set then, it passes the check, looks at the channel, and tests again (`passes_check`). The
nonce's distance from the next multiple of 128 is what the induction is on.
-/

namespace KaspaMiner
namespace Miner
namespace Thread

open KaspaMiner.Pow (State)
open Lib (Run)

variable {P : Prims} {ch : Channel State} {shutdown : Bool} {t : Thread}

theorem Sees.built (hsees : t.Sees ch) (hfed : ∀ st, some st ∈ ch.contents → Made P st)
    {st : State} (hst : t.worker.state = some st) : st.Built P := by
  have hstate := hsees.state
  rw [hst] at hstate
  cases hc : ch.content t.seen with
  | none =>
    rw [hc] at hstate
    exact absurd hstate (by simp)
  | some st₀ =>
    rw [hc] at hstate
    rw [State.eq_of_unset_eq (Option.some.inj hstate)]
    exact (hfed st₀ (Channel.content_mem hc)).built.setNonce _

theorem Sees.run {t' : Thread} {es : List Event} (h : Run (Step P ch shutdown) t es t')
    (hsees : t.Sees ch) : t'.Sees ch :=
  h.invariant (I := fun t => t.Sees ch) (fun _ _ _ hsees hstep => (hsees.step hstep).1) hsees

/-- After a load with a template installed the thread is about to test. -/
theorem Sees.load_some {t' : Thread} {e : Event} {st : State} (hsees : t.Sees ch)
    (hsome : ch.current = some st) (h : t.Step P ch shutdown e t') (he : e.loads = true) :
    t'.worker.pc = .top ∧ t'.worker.state.isSome = true := by
  obtain ⟨hpc, -, hstate⟩ := hsees.load h he
  refine ⟨hpc, ?_⟩
  rw [hsome] at hstate
  cases hst : t'.worker.state with
  | none =>
    rw [hst] at hstate
    exact absurd hstate (by simp)
  | some st' => rfl

theorem sends {msg : KaspadMessage} (hpc : t.worker.pc = .send msg) :
    t.Step P ch shutdown (.sent msg true) { worker := t.worker.advance, seen := t.seen } :=
  .mk (.send hpc) trivial

/-- One test, and the send of the block if there is one. -/
theorem round (shutdown : Bool) (hsees : t.Sees ch) (hfed : ∀ st, some st ∈ ch.contents → Made P st)
    (hpc : t.worker.pc = .top) (hstate : t.worker.state.isSome = true) :
    ∃ (es : List Event) (w : Worker),
      Run (Step P ch shutdown) t es { worker := w.advance, seen := t.seen } ∧
      w.nonce = t.worker.nonce ∧ w.state.isSome = true := by
  obtain ⟨st, hst⟩ := Option.isSome_iff_exists.mp hstate
  have htest : t.Step P ch shutdown (.tested { st with nonce := t.worker.nonce })
      { worker := t.worker.test P st, seen := t.seen } := .mk (.test hpc hst) trivial
  rw [test_eq (hsees.built hfed hst)] at htest
  split at htest
  · exact ⟨_, _, .cons htest (.single (sends rfl)), rfl, rfl⟩
  · exact ⟨_, _, .single htest, rfl, rfl⟩

/-- From the head of the loop to the check. -/
theorem top_reaches_check (shutdown : Bool) (hfed : ∀ st, some st ∈ ch.contents → Made P st)
    (n : ℕ) (t : Thread) (hsees : t.Sees ch) (hpc : t.worker.pc = .top)
    (hstate : t.worker.state.isSome = true) (hn : untilPoll t.worker.nonce ≤ n) :
    ∃ es t', Run (Step P ch shutdown) t es t' ∧ t'.worker.pc = .check := by
  induction n generalizing t with
  | zero => exact absurd hn (Nat.not_le.mpr (untilPoll_pos _))
  | succ n ih =>
    obtain ⟨es, w, hrun, hnonce, hsome⟩ := round shutdown hsees hfed hpc hstate
    have hsees' := hsees.run hrun
    rcases w.advance_pc with ⟨-, hcredit⟩ | ⟨hne, htop⟩
    · -- The nonce after this one is the multiple of 128.
      have hstep : Step P ch shutdown { worker := w.advance, seen := t.seen } .credited _ :=
        .mk (.credit hcredit) trivial
      exact ⟨_, _, hrun.snoc hstep, rfl⟩
    · have hless : untilPoll w.advance.nonce ≤ n := by
        rw [Worker.advance_nonce, hnonce]
        rcases untilPoll_succ t.worker.nonce with ⟨hzero, -⟩ | hsucc
        · rw [hnonce] at hne
          exact absurd hzero hne
        · rw [hsucc]
          exact Nat.sub_le_of_le_add hn
      obtain ⟨es', t', hrun', hcheck⟩ := ih _ hsees' htop hsome hless
      exact ⟨_, t', hrun.append hrun', hcheck⟩

theorem credits (hpc : t.worker.pc = .credit) : ∃ t', t.Step P ch shutdown .credited t' ∧
    t'.worker.pc = .check :=
  ⟨_, .mk (.credit hpc) trivial, rfl⟩

section
variable {st₀ : State} (hfed : ∀ st, some st ∈ ch.contents → Made P st)
  (hsome : ch.current = some st₀)
include hfed hsome

/-- From the head of the loop, whether or not the thread has a template yet. -/
theorem head_reaches_check (shutdown : Bool) (hsees : t.Sees ch) (hpc : t.worker.pc = .top) :
    ∃ es t', Run (Step P ch shutdown) t es t' ∧ t'.worker.pc = .check := by
  cases hst : t.worker.state with
  | some st => exact top_reaches_check shutdown hfed _ t hsees hpc (by rw [hst]; rfl) le_rfl
  | none =>
    -- It has seen nothing, so what is there is a change.
    have hnone : ch.content t.seen = none := by
      have hstate := hsees.state
      rw [hst] at hstate
      exact Option.map_eq_none_iff.mp hstate.symm
    have hwait : t.Step P ch shutdown (.waited (some st₀)) _ :=
      .mk (.wait hpc hst) (Channel.getChanged_of_isSome hnone hsome)
    obtain ⟨hpc', hstate'⟩ := hsees.load_some hsome hwait rfl
    obtain ⟨es, t', hrun, hcheck⟩ :=
      top_reaches_check shutdown hfed _ _ (hsees.step hwait).1 hpc' hstate' le_rfl
    exact ⟨_, t', .cons hwait hrun, hcheck⟩

/-- From anywhere, if the thread is not over. -/
theorem reaches_check (shutdown : Bool) (hsees : t.Sees ch)
    (hfinished : t.worker.pc.finished = false) :
    ∃ es t', Run (Step P ch shutdown) t es t' ∧ t'.worker.pc = .check := by
  cases hpc : t.worker.pc with
  | top => exact head_reaches_check hfed hsome shutdown hsees hpc
  | send msg =>
    have hsend : t.Step P ch shutdown (.sent msg true) _ := sends hpc
    have hsees' := (hsees.step hsend).1
    rcases t.worker.advance_pc with ⟨-, hcredit⟩ | ⟨-, htop⟩
    · obtain ⟨t', hstep, hcheck⟩ : ∃ t', Step P ch shutdown
          { worker := t.worker.advance, seen := t.seen } .credited t' ∧ t'.worker.pc = .check :=
        credits hcredit
      exact ⟨_, t', .cons hsend (.single hstep), hcheck⟩
    · obtain ⟨es, t', hrun, hcheck⟩ := head_reaches_check hfed hsome shutdown hsees' htop
      exact ⟨_, t', .cons hsend hrun, hcheck⟩
  | credit =>
    obtain ⟨t', hstep, hcheck⟩ := credits hpc
    exact ⟨_, t', .single hstep, hcheck⟩
  | check => exact ⟨_, t, .nil t, hpc⟩
  | poll =>
    have hpoll : t.Step P ch shutdown (.polled (ch.getChanged t.seen)) _ := .mk (.poll hpc) rfl
    obtain ⟨hpc', hstate'⟩ := hsees.load_some hsome hpoll rfl
    obtain ⟨es, t', hrun, hcheck⟩ :=
      top_reaches_check shutdown hfed _ _ (hsees.step hpoll).1 hpc' hstate' le_rfl
    exact ⟨_, t', .cons hpoll hrun, hcheck⟩
  | done | failed | panicked =>
    rw [hpc] at hfinished
    exact absurd hfinished (by simp [WorkerPc.finished])

omit hfed in
/-- **It passes the check and tests again**, with what is installed. -/
theorem passes_check (hsees : t.Sees ch) (hpc : t.worker.pc = .check) :
    ∃ t₁ changed st t₂, t.Step P ch false (.checked false) t₁ ∧
      Run (Step P ch false) t₁ [.polled changed, .tested st] t₂ := by
  obtain ⟨t₁, hcheck, hpc₁⟩ : ∃ t₁, t.Step P ch false (.checked false) t₁ ∧
      t₁.worker.pc = .poll := ⟨_, .mk (.check hpc) rfl, rfl⟩
  have hpoll : t₁.Step P ch false (.polled (ch.getChanged t₁.seen)) _ := .mk (.poll hpc₁) rfl
  obtain ⟨hpc₂, hstate₂⟩ := (hsees.step hcheck).1.load_some hsome hpoll rfl
  obtain ⟨st, hst⟩ := Option.isSome_iff_exists.mp hstate₂
  exact ⟨t₁, _, _, _, hcheck, .cons hpoll (.single (.mk (.test hpc₂ hst) trivial))⟩

end

end Thread
end Miner
end KaspaMiner
