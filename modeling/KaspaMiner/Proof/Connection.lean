import KaspaMiner.Miner.Connection
import KaspaMiner.Proof.Bench
import KaspaMiner.Proof.Worker

/-!
# The threads of a connection

What holds of a worker on its own is about the contents it is given. Here it is put back among the
others: whatever the interleaving, a thread of a connection is a worker whose contents come out of
the channel (`thread_run`), and what it works on is what was in the channel where it loaded it last
(`Sees`).
-/

namespace KaspaMiner
namespace Miner

open KaspaMiner.Pow (State)
open Lib (Run Reachable)

variable {P : Prims} {shutdown : Bool}

/-! ## What a thread tests -/

/-- A thread works on what was in the channel when it loaded it. -/
structure Thread.Sees (t : Thread) (ch : Channel State) : Prop where
  le : t.seen ≤ ch.pos
  state : t.worker.state.map State.unset = (ch.content t.seen).map State.unset

namespace Thread
variable {t t' : Thread} {ch ch' : Channel State} {e : Event}

theorem Sees.start (nonce : UInt64) : (start nonce).Sees .empty := ⟨le_rfl, rfl⟩

theorem Sees.mono (h : t.Sees ch) (hle : ch.contents <+: ch'.contents) : t.Sees ch' :=
  ⟨h.le.trans (Channel.pos_le hle), by rw [Channel.content_eq hle h.le, h.state]⟩

/-- A test is of the state in use, and leaves it in use. -/
theorem test_state (w : Worker) (st : State) :
    (w.test P st).state.map State.unset = some st.unset := by
  rcases w.test_cases P st with h | ⟨msg, h⟩ | ⟨p, h⟩
  all_goals
    rw [h]
    rfl

/-- What does not load the channel leaves the state in use as it is. -/
theorem state_of_not_loads {w w' : Worker} (h : WorkerStep P w e w') (he : e.loads = false) :
    w'.state.map State.unset = w.state.map State.unset := by
  cases h with
  | wait hpc hstate => exact absurd he (by simp [Event.loads])
  | test hpc hstate => rw [test_state, hstate, Option.map_some]
  | @send msg ok hpc =>
    cases ok with
    | true => rfl
    | false => rfl
  | credit hpc => rfl
  | check hpc => rfl
  | poll hpc => exact absurd he (by simp [Event.loads])

/-- After a load it is the state installed now that is in use. -/
theorem Sees.load (hsees : t.Sees ch) (h : t.Step P ch shutdown e t') (he : e.loads = true) :
    t'.worker.pc = .top ∧ t'.seen = ch.pos ∧
      t'.worker.state.map State.unset = ch.current.map State.unset := by
  cases h with
  | mk hworker hobs =>
    have hseen : (if e.loads then ch.pos else t.seen) = ch.pos := if_pos he
    cases hworker with
    | wait hpc hstate => exact ⟨hpc, hseen, congrArg _ (Channel.getChanged_eq_some hobs).2⟩
    | @poll changed hpc =>
      refine ⟨rfl, hseen, ?_⟩
      cases changed with
      | none =>
        have hcontent := Channel.content_eq_current (show ch.getChanged t.seen = none from hobs)
        rw [← hcontent]
        exact hsees.state
      | some content => exact congrArg _ (Channel.getChanged_eq_some hobs).2
    | test | send | credit | check => exact absurd he (by simp [Event.loads])

theorem Sees.step (hsees : t.Sees ch) (h : t.Step P ch shutdown e t') :
    t'.Sees ch ∧ t.seen ≤ t'.seen := by
  cases hl : e.loads with
  | true =>
    obtain ⟨-, hpos, hstate⟩ := hsees.load h hl
    refine ⟨⟨hpos.le, ?_⟩, ?_⟩
    · rw [hstate, hpos, Channel.content_pos]
    · rw [hpos]
      exact hsees.le
  | false =>
    cases h with
    | mk hworker hobs =>
      have hstate := state_of_not_loads hworker hl
      simp only [hl, Bool.false_eq_true, if_false]
      exact ⟨⟨hsees.le, hstate.trans hsees.state⟩, le_rfl⟩

/-- The state tested is the one loaded last, with another nonce. -/
theorem Sees.tested {st : State} (hsees : t.Sees ch) (h : t.Step P ch shutdown (.tested st) t') :
    ∃ st₀, ch.content t.seen = some st₀ ∧ st = { st₀ with nonce := st.nonce } := by
  cases h with
  | mk hworker hobs =>
    cases hworker with
    | @test st' hpc hstate =>
      have hmap := hsees.state
      rw [hstate] at hmap
      cases hc : ch.content t.seen with
      | none => rw [hc] at hmap; exact absurd hmap (by simp)
      | some st₀ =>
        rw [hc] at hmap
        have hst := State.eq_of_unset_eq (Option.some.inj hmap)
        exact ⟨st₀, rfl, by rw [hst]⟩

end Thread

/-! ## A connection's threads -/

/-- Every thread works on what was in the channel when it loaded it. -/
def Connection.Sees (conn : Connection) : Prop :=
  ∀ (i : ℕ) (t : Thread), conn.threads[i]? = some t → t.Sees conn.channel

namespace Connection
variable {conn conn' : Connection} {a : Action}

theorem Sees.new (nonces : List UInt64) : (new nonces).Sees := by
  intro i t ht
  obtain ⟨nonce, -, rfl⟩ := new_thread ht
  exact .start nonce

theorem Sees.step (hsees : conn.Sees) (h : conn.Step P shutdown a conn') : conn'.Sees := by
  intro i t' ht'
  rcases h.thread i with ⟨e, t, u, -, ht, hu, hstep⟩ | ⟨-, heq⟩
  · rw [ht'] at hu
    rw [Option.some.inj hu]
    exact ((hsees i t ht).step hstep).1.mono h.channel_extends
  · rw [heq] at ht'
    exact (hsees i t' ht').mono h.channel_extends

end Connection

/-! ## What is in the channel -/

/-- Everything ever installed came out of `State::new`. -/
def Connection.Fed (P : Prims) (conn : Connection) : Prop :=
  ∀ st, some st ∈ conn.channel.contents → Made P st

namespace Connection
variable {conn conn' : Connection} {a : Action}

theorem Fed.new (nonces : List UInt64) : (new nonces).Fed P := by
  intro st hst
  have hnone : some st = none := List.mem_singleton.mp hst
  exact absurd hnone (by simp)

theorem Fed.step (hfed : conn.Fed P) (h : conn.Step P shutdown a conn') : conn'.Fed P := by
  cases h with
  | @process fuel block =>
    intro st hst
    have hmem : some st ∈ (conn.manager.processBlock P fuel block).1.blockChannel.contents := hst
    rcases conn.manager.processBlock_channel P fuel block with hsame | ⟨val, hswap, hval⟩
    · rw [hsame] at hmem
      exact hfed st hmem
    · rw [hswap, Channel.swap_contents] at hmem
      rcases List.mem_append.mp hmem with hold | hnew
      · exact hfed st hold
      · obtain ⟨id, b, hst⟩ := hval st (List.mem_singleton.mp hnew).symm
        exact ⟨fuel, id, b, hst⟩
  | work ht hstep => exact hfed
  | log => exact hfed

/-- A load of the channel brings something that came out of `State::new`. -/
theorem Fed.observes (hfed : conn.Fed P) {t : Thread} {e : Event}
    (h : t.Observes conn.channel shutdown e) : e.Fed P := by
  have hcurrent {st : State} (h : conn.channel.getChanged t.seen = some (some st)) : Made P st :=
    hfed st ((Channel.getChanged_eq_some h).2 ▸ conn.channel.current_mem)
  cases e with
  | waited content =>
    cases content with
    | none => trivial
    | some st => exact hcurrent h
  | polled changed =>
    cases changed with
    | none => trivial
    | some content =>
      cases content with
      | none => trivial
      | some st => exact hcurrent h
  | tested | sent | credited | checked => trivial

end Connection

namespace Mining
variable {s s₀ s' : Mining} {a : Action} {as : List Action} {i : ℕ}

/-- A step of thread `i`, or nothing to it. -/
theorem Step.thread (h : Step P s a s') (i : ℕ) :
    (∃ e t t', a = .conn (.work i e) ∧ s.conn.threads[i]? = some t ∧
      s'.conn.threads[i]? = some t' ∧ t.Step P s.conn.channel s.shutdown e t') ∨
    a.own i = none ∧ s'.conn.threads[i]? = s.conn.threads[i]? := by
  cases h with
  | conn hstep =>
    rcases hstep.thread i with ⟨e, t, t', rfl, ht⟩ | hother
    · exact .inl ⟨e, t, t', rfl, ht⟩
    · exact .inr hother
  | shutdown => exact .inr ⟨rfl, rfl⟩

theorem Step.sees (h : Step P s a s') (hsees : s.conn.Sees) : s'.conn.Sees := by
  cases h with
  | conn hstep => exact hsees.step hstep
  | shutdown => exact hsees

theorem sees_of_reachable (h : Reachable (Step P) Init s) : s.conn.Sees := by
  refine h.invariant (I := fun s => s.conn.Sees) ?_ fun s a s' hsees hstep => hstep.sees hsees
  rintro s ⟨nonces, rfl⟩
  exact .new nonces

theorem fed_of_reachable (h : Reachable (Step P) Init s) : s.conn.Fed P := by
  refine h.invariant (I := fun s => s.conn.Fed P) ?_ ?_
  · rintro s ⟨nonces, rfl⟩
    exact .new nonces
  · intro s a s' hfed hstep
    cases hstep with
    | conn hstep => exact hfed.step hstep
    | shutdown => exact hfed

/-- **A thread of a connection is a worker**, fed by the channel. -/
theorem thread_run (hinit : Init s₀) (h : Run (Step P) s₀ as s) {t : Thread}
    (ht : s.conn.threads[i]? = some t) :
    ∃ nonce, Run (WorkerStep P) (.start nonce) (own i as) t.worker ∧ ∀ e ∈ own i as, e.Fed P := by
  refine h.history (Q := fun as s => ∀ t, s.conn.threads[i]? = some t → ∃ nonce,
    Run (WorkerStep P) (.start nonce) (own i as) t.worker ∧ ∀ e ∈ own i as, e.Fed P) ?_ ?_ t ht
  · intro t ht
    obtain ⟨nonces, rfl⟩ := hinit
    obtain ⟨nonce, -, rfl⟩ := Connection.new_thread ht
    exact ⟨nonce, .nil _, by simp [own]⟩
  · intro as s a s' hrun ih hstep t' ht'
    rw [own_append]
    rcases hstep.thread i with ⟨e, t, u, rfl, ht, hu, hwork⟩ | ⟨hown, hsame⟩
    · obtain rfl : t' = u := Option.some.inj (ht'.symm.trans hu)
      obtain ⟨nonce, hworker, hfed⟩ := ih t ht
      have hown : own i [.conn (.work i e)] = [e] := List.filterMap_cons_some (if_pos rfl)
      rw [hown]
      cases hwork with
      -- What it was handed comes from the channel, and into that come states of `State::new` only.
      | mk hstep' hobs =>
        refine ⟨nonce, hworker.snoc hstep', ?_⟩
        intro e' he'
        rcases List.mem_append.mp he' with he' | he'
        · exact hfed e' he'
        · rw [List.mem_singleton.mp he']
          exact (fed_of_reachable ⟨_, _, hinit, hrun⟩).observes hobs
    · rw [hsame] at ht'
      rw [own, own, List.filterMap_cons_none hown, List.filterMap_nil, List.append_nil]
      exact ih t' ht'

/-- So no thread ever panics. -/
theorem thread_not_panicked (h : Reachable (Step P) Init s) {t : Thread}
    (ht : s.conn.threads[i]? = some t) (p : KaspaMiner.Pow.Panic) : t.worker.pc ≠ .panicked p := by
  obtain ⟨s₀, as, hinit, hrun⟩ := h
  obtain ⟨nonce, hworker, hfed⟩ := thread_run hinit hrun ht
  exact (WorkerInv.of_run hworker hfed).panicked p

end Mining

/-! ## One thread and the benchmark's template -/

/-- A thread that has taken the state of the benchmark. -/
def benchThread (nonce : UInt64) (st : State) : Thread :=
  { worker := { nonce, state := some st, pc := .top }, seen := 1 }

/-- The benchmark's template, installed for one thread. -/
def benchConnection (t : Thread) (st : State) : Connection where
  manager :=
    { blockChannel := Channel.empty.swap (some st), isSynced := true, currentStateId := 0 + 1 }
  threads := [t]
  hashesTried := 0

theorem bench_install (nonce : UInt64) {st : State}
    (hst : State.new P 1 0 Pow.benchBlock = .ok st) :
    (Connection.new [nonce]).Step P shutdown (.process 1 (some Pow.benchBlock))
      (benchConnection (.start nonce) st) :=
  .install hst

theorem bench_wait (nonce : UInt64) (st : State) :
    (benchConnection (.start nonce) st).Step P shutdown (.work 0 (.waited (some st)))
      (benchConnection (benchThread nonce st) st) :=
  .work rfl (.mk (.wait rfl rfl) rfl)

end Miner
end KaspaMiner
