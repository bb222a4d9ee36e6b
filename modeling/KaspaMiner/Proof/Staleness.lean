import KaspaMiner.Proof.Connection

/-!
# How long a worker stays on an old template

`left` is how many tests a worker can still make before it has to look at the channel again: the
nonce's distance from the next multiple of 128. That is at most 128 wherever the nonce is, and at
the wrap as well, since 128 divides `2 ^ 64`. A test costs one, and nothing that anybody else does
gives a thread more.
-/

namespace KaspaMiner
namespace Miner

open KaspaMiner.Pow (State)
open Lib (Run Reachable cost cost_cons)

variable {P : Prims}

/-! ## How many tests are left -/

/-- The tests until the next multiple of 128. -/
def untilPoll (nonce : UInt64) : ℕ := 128 - nonce.toNat % 128

/-- The tests a worker can still make, if a load is good for `p` more. -/
def left (p : ℕ) (w : Worker) : ℕ :=
  match w.pc with
  | .top => if w.state.isSome then untilPoll w.nonce else p
  | .send _ => if w.state.isSome then untilPoll w.nonce - 1 else p
  | .poll => p
  | _ => 0

theorem untilPoll_le (nonce : UInt64) : untilPoll nonce ≤ 128 := Nat.sub_le ..

theorem untilPoll_pos (nonce : UInt64) : 0 < untilPoll nonce :=
  Nat.sub_pos_of_lt (Nat.mod_lt _ (by decide))

/-- Multiples of 128 are where they would be without the wrap. -/
theorem succ_mod (nonce : UInt64) : (nonce + 1).toNat % 128 = (nonce.toNat + 1) % 128 := by
  rw [UInt64.toNat_add]
  exact Nat.mod_mod_of_dvd _ ⟨2 ^ 57, rfl⟩

theorem mod_eq_zero_iff (nonce : UInt64) : nonce % 128 = 0 ↔ nonce.toNat % 128 = 0 := by
  rw [← UInt64.toNat_inj, UInt64.toNat_mod]
  rfl

/-- The nonce counts down to the poll, over the wrap as anywhere else. -/
theorem untilPoll_succ (nonce : UInt64) :
    (nonce + 1) % 128 = 0 ∧ untilPoll nonce = 1 ∨ untilPoll (nonce + 1) = untilPoll nonce - 1 := by
  have hmod := succ_mod nonce
  by_cases hlast : (nonce.toNat + 1) % 128 = 0
  · left
    refine ⟨?_, ?_⟩
    · rw [mod_eq_zero_iff, hmod, hlast]
    · unfold untilPoll
      omega
  · right
    rw [untilPoll, untilPoll, hmod]
    omega

section
variable {p : ℕ} {w : Worker}

theorem left_top (hpc : w.pc = .top) :
    left p w = if w.state.isSome then untilPoll w.nonce else p := by
  unfold left
  rw [hpc]

theorem left_send {msg : KaspadMessage} (hpc : w.pc = .send msg) :
    left p w = if w.state.isSome then untilPoll w.nonce - 1 else p := by
  unfold left
  rw [hpc]

theorem left_poll (hpc : w.pc = .poll) : left p w = p := by
  unfold left
  rw [hpc]

theorem left_le (hp : p ≤ 128) (w : Worker) : left p w ≤ 128 := by
  have hle := untilPoll_le w.nonce
  unfold left
  split
  · split
    · exact hle
    · exact hp
  · split
    · exact (Nat.sub_le ..).trans hle
    · exact hp
  · exact hp
  · exact Nat.zero_le _

theorem left_advance (p : ℕ) (w : Worker) :
    left p w.advance ≤ if w.state.isSome then untilPoll w.nonce - 1 else p := by
  rcases w.advance_pc with ⟨-, hpc⟩ | ⟨hne, hpc⟩
  · unfold left
    rw [hpc]
    exact Nat.zero_le _
  · rw [left_top hpc, Worker.advance_state, Worker.advance_nonce]
    rcases untilPoll_succ w.nonce with ⟨hzero, -⟩ | hsucc
    · exact absurd hzero hne
    · rw [hsucc]

/-- A worker that loads something has at most 128 tests before it. -/
theorem left_loaded (hp : 128 ≤ p) (hpc : w.pc = .top) : left p w ≤ p := by
  rw [left_top hpc]
  split
  · exact (untilPoll_le _).trans hp
  · exact le_rfl

theorem left_test (P : Prims) (p : ℕ) (w : Worker) (st : State) :
    1 + left p (w.test P st) ≤ untilPoll w.nonce := by
  have hpos := untilPoll_pos w.nonce
  rcases w.test_cases P st with h | ⟨msg, h⟩ | ⟨_, h⟩
  · have hadv : left p (Worker.advance { w with state := some { st with nonce := w.nonce } }) ≤
        untilPoll w.nonce - 1 := left_advance p _
    rw [h]
    exact (Nat.add_le_add_left hadv 1).trans (Nat.add_sub_of_le hpos).le
  · -- The nonce is advanced when the send is over.
    rw [h]
    exact (Nat.add_sub_of_le hpos).le
  · rw [h]
    exact hpos

end

/-- **A test costs one.** A load has to be good for what it hands out, and a check that lets the
worker go on for what the poll after it hands out. -/
theorem left_step {p : ℕ} {w w' : Worker} {e : Event} (h : WorkerStep P w e w')
    (hload : e.loads = true → 128 ≤ p) (hcheck : e = .checked false → p = 0) :
    (tests [e]).length + left p w' ≤ left p w := by
  cases h with
  | @wait content hpc hnone =>
    show 0 + left p { w with state := content } ≤ _
    rw [left_top hpc, hnone, Nat.zero_add]
    exact left_loaded (hload rfl) hpc
  | @test st hpc hsome =>
    show 1 + _ ≤ _
    rw [left_top hpc, hsome]
    exact left_test P p w st
  | @send msg ok hpc =>
    show 0 + _ ≤ _
    rw [left_send hpc, Nat.zero_add]
    cases ok with
    | true => exact left_advance p w
    | false => exact Nat.zero_le _
  | credit hpc => exact Nat.zero_le _
  -- With the flag set it is over. Without, it polls next, and may get a whole batch from that.
  | @check isShutdown hpc =>
    cases isShutdown with
    | true => exact Nat.zero_le _
    | false =>
      have hp : p ≤ 0 := (hcheck rfl).le
      show 0 + p ≤ _
      rw [Nat.zero_add]
      exact hp.trans (Nat.zero_le _)
  | @poll changed hpc =>
    show 0 + left p { w with state := changed.getD w.state, pc := .top } ≤ _
    rw [left_poll hpc, Nat.zero_add]
    exact left_loaded (hload rfl) rfl

namespace Mining
variable {s s' : Mining} {a : Action} {as : List Action} {i : ℕ}

theorem Step.shutdown_mono (h : Step P s a s') (hs : s.shutdown = true) : s'.shutdown = true := by
  cases h with
  | conn hstep => exact hs
  | shutdown => rfl

theorem Step.channel_extends (h : Step P s a s') :
    s.conn.channel.contents <+: s'.conn.channel.contents := by
  cases h with
  | conn hstep => exact hstep.channel_extends
  | shutdown => exact List.prefix_rfl

/-- The tests thread `i` can still make. -/
def left (p i : ℕ) (s : Mining) : ℕ :=
  (s.conn.threads[i]?.map fun t => Miner.left p t.worker).getD 0

theorem left_le {p : ℕ} (hp : p ≤ 128) (s : Mining) : left p i s ≤ 128 := by
  unfold left
  cases s.conn.threads[i]? with
  | none => exact Nat.zero_le _
  | some t => exact Miner.left_le hp t.worker

theorem length_tests (i : ℕ) (as : List Action) :
    (tests (own i as)).length = cost (fun a => (tests (a.own i).toList).length) as := by
  induction as with
  | nil => rfl
  | cons a as ih =>
    rw [cost_cons, ← ih, own, List.filterMap_cons]
    cases a.own i with
    | none => exact (Nat.zero_add _).symm
    | some e =>
      show (tests ([e] ++ own i as)).length = _
      rw [tests_append, List.length_append]
      rfl

/-- The budget of thread `i`. With `p = 0` the run must not load the channel, with `p = 128` it may
do so after shutdown. -/
theorem tests_le {p : ℕ} (hrun : Run (Step P) s as s') (hs : p = 0 ∨ s.shutdown = true)
    (hload : ∀ e ∈ own i as, e.loads = true → 128 ≤ p) :
    (tests (own i as)).length + left p i s' ≤ left p i s := by
  rw [length_tests]
  refine hrun.cost_le (I := fun s => p = 0 ∨ s.shutdown = true)
    (P := fun a => ∀ e, a.own i = some e → e.loads = true → 128 ≤ p) ?_ ?_ hs
  · intro s a s' hload hs hstep
    refine ⟨hs.imp_right hstep.shutdown_mono, ?_⟩
    rcases hstep.thread i with ⟨e, t, t', rfl, ht, ht', hwork⟩ | ⟨hown, heq⟩
    · have hown : Action.own i (.conn (.work i e)) = some e := if_pos rfl
      cases hwork with
      | @mk w hworker hobs =>
        -- After shutdown no check lets the thread go on.
        have hcheck : e = .checked false → p = 0 := by
          intro heq
          subst heq
          have hunset : false = s.shutdown := hobs
          exact hs.resolve_right (by simp [← hunset])
        rw [hown, left, left, ht, ht']
        exact left_step hworker (hload e hown) hcheck
    · rw [hown, left, left, heq]
      exact (Nat.zero_add _).le
  · intro a ha e he
    exact hload e (List.mem_filterMap.mpr ⟨a, ha, he⟩)

/-- After shutdown every load is good for one more round at most, and there is only one. -/
theorem tests_of_shutdown (hrun : Run (Step P) s as s') (hs : s.shutdown = true) :
    (tests (own i as)).length ≤ 128 := by
  have hle := tests_le (p := 128) (i := i) hrun (.inr hs) fun _ _ _ => le_rfl
  exact ((Nat.le_add_right ..).trans hle).trans (left_le le_rfl s)

/-- Without a load there is what was left. -/
theorem tests_of_not_loads (hrun : Run (Step P) s as s') (hload : ∀ e ∈ own i as, e.loads = false) :
    (tests (own i as)).length ≤ left 0 i s := by
  have hle := tests_le (p := 0) hrun (.inl rfl) fun e he hl => by
    rw [hload e he] at hl
    exact absurd hl (by simp)
  exact (Nat.le_add_right ..).trans hle

/-! ## What comes after a load -/

theorem run_channel_extends (hrun : Run (Step P) s as s') :
    s.conn.channel.contents <+: s'.conn.channel.contents :=
  hrun.invariant (I := fun u => s.conn.channel.contents <+: u.conn.channel.contents)
    (fun _ _ _ hle hstep => hle.trans hstep.channel_extends) List.prefix_rfl

/-- A thread that has loaded the channel at position `k` tests nothing that was installed before. -/
theorem tested_since {k : ℕ} (hrun : Run (Step P) s as s') (hsees : s.conn.Sees)
    (hk : ∀ t, s.conn.threads[i]? = some t → k ≤ t.seen) {st : State}
    (hst : .tested st ∈ own i as) :
    ∃ j st₀, k ≤ j ∧ s'.conn.channel.content j = some st₀ ∧
      st = { st₀ with nonce := st.nonce } := by
  induction hrun with
  | nil => exact absurd hst (by simp [own])
  | @cons s s₁ s' a as head tail ih =>
    rcases head.thread i with ⟨e, t, t', rfl, ht, ht', hwork⟩ | ⟨hown, heq⟩
    · have hsee := hsees i t ht
      have hcons : own i (.conn (.work i e) :: as) = e :: own i as :=
        List.filterMap_cons_some (if_pos rfl)
      rw [hcons] at hst
      -- The test is this step, of what the thread saw last; or it comes later, when the thread has
      -- seen no less.
      rcases List.mem_cons.mp hst with rfl | hst
      · obtain ⟨st₀, hcontent, heq⟩ := hsee.tested hwork
        refine ⟨t.seen, st₀, hk t ht, ?_, heq⟩
        rw [Channel.content_eq (run_channel_extends (.cons head tail)) hsee.le, hcontent]
      · refine ih (head.sees hsees) ?_ hst
        intro u hu
        rw [ht'] at hu
        rw [← Option.some.inj hu]
        exact (hk t ht).trans (hsee.step hwork).2
    · unfold own at hst
      rw [List.filterMap_cons_none hown] at hst
      exact ih (head.sees hsees) (by rwa [heq]) hst

/-- A load leaves the thread at the head of the loop, with what is installed. -/
theorem loaded {e : Event} (h : Step P s (.conn (.work i e)) s') (hsees : s.conn.Sees)
    (he : e.loads = true) : ∃ t, s'.conn.threads[i]? = some t ∧ t.worker.pc = .top ∧
      t.seen = s.conn.channel.pos ∧
      t.worker.state.map State.unset = s.conn.channel.current.map State.unset := by
  rcases h.thread i with ⟨e', t, t', he', ht, ht', hwork⟩ | ⟨hown, -⟩
  · obtain rfl : e = e' := by
      injection he' with he'
      injection he'
    exact ⟨t', ht', (hsees i t ht).load hwork he⟩
  · have hsome : some e = none := (if_pos rfl).symm.trans hown
    exact absurd hsome (by simp)

/-- A thread that has found nothing tests nothing until it loads the channel again. -/
theorem tests_of_idle (hrun : Run (Step P) s as s') {t : Thread}
    (ht : s.conn.threads[i]? = some t) (hpc : t.worker.pc = .top) (hidle : t.worker.state = none)
    (hload : ∀ e ∈ own i as, e.loads = false) : tests (own i as) = [] := by
  have hle := tests_of_not_loads hrun hload
  have hzero : left 0 i s = 0 := by
    unfold left
    rw [ht, Option.map_some, Option.getD_some, left_top hpc, hidle]
    rfl
  rw [hzero] at hle
  exact List.eq_nil_of_length_eq_zero (Nat.le_zero.mp hle)

/-! ## The theorem -/

/-- **Bounded staleness.** In every reachable connection, for every thread and every run from
there:

* if the thread does not load the channel in it, it makes at most 128 tests;
* if shutdown is set, it makes at most 128 tests, whatever it loads;
* when it loads the channel, it has what is installed at that moment, up to the nonce; whatever it
  tests later was installed no earlier; and if nothing is installed, it tests nothing before it
  loads the channel again. -/
theorem bounded_staleness (h : Reachable (Step P) Init s) (hrun : Run (Step P) s as s') (i : ℕ) :
    ((∀ e ∈ own i as, e.loads = false) → (tests (own i as)).length ≤ 128) ∧
    (s.shutdown = true → (tests (own i as)).length ≤ 128) ∧
    ∀ pre e post, as = pre ++ .conn (.work i e) :: post → e.loads = true →
      ∃ s₁ s₂ t, Run (Step P) s pre s₁ ∧ Step P s₁ (.conn (.work i e)) s₂ ∧
        Run (Step P) s₂ post s' ∧ s₂.conn.threads[i]? = some t ∧
        t.worker.state.map State.unset = s₁.conn.channel.current.map State.unset ∧
        (∀ st, .tested st ∈ own i post → ∃ k st₀, s₁.conn.channel.pos ≤ k ∧
          s'.conn.channel.content k = some st₀ ∧ st = { st₀ with nonce := st.nonce }) ∧
        (s₁.conn.channel.current = none → (∀ e ∈ own i post, e.loads = false) →
          tests (own i post) = []) := by
  refine ⟨?_, ?_, ?_⟩
  · intro hload
    exact (tests_of_not_loads hrun hload).trans (left_le (Nat.zero_le _) s)
  · intro hshutdown
    exact tests_of_shutdown hrun hshutdown
  · intro pre e post heq he
    subst heq
    obtain ⟨s₁, hpre, hrest⟩ := hrun.split
    obtain ⟨s₂, hload, hpost⟩ := hrest.head
    have hsees := sees_of_reachable (h.run hpre)
    obtain ⟨t, ht, hpc, hseen, hstate⟩ := loaded hload hsees he
    have hk : ∀ u, s₂.conn.threads[i]? = some u → s₁.conn.channel.pos ≤ u.seen := by
      intro u hu
      rw [ht] at hu
      rw [← Option.some.inj hu, hseen]
    refine ⟨s₁, s₂, t, hpre, hload, hpost, ht, hstate, ?_, ?_⟩
    · intro st hst
      exact tested_since hpost (hload.sees hsees) hk hst
    · intro hnone hload'
      rw [hnone] at hstate
      exact tests_of_idle hpost ht hpc (Option.map_eq_none_iff.mp hstate) hload'

/-- One thread takes the benchmark's template and tests it. -/
theorem bounded_staleness_bench : ∃ st s', State.new Pow.benchPrims 1 0 Pow.benchBlock = .ok st ∧
    Run (Step Pow.benchPrims) { conn := .new [127], shutdown := false }
      [.conn (.process 1 (some Pow.benchBlock)), .conn (.work 0 (.waited (some st))),
        .conn (.work 0 (.tested { st with nonce := 127 }))] s' ∧
    ∃ k st₀, s'.conn.channel.content k = some st₀ ∧
      { st with nonce := 127 } = { st₀ with nonce := 127 } := by
  obtain ⟨st, hst⟩ := Pow.benchBlock_new 0
  have hwork : (benchThread 127 st).Step Pow.benchPrims (Channel.empty.swap (some st)) false
      (.tested { st with nonce := 127 }) _ := .mk (.test rfl rfl) trivial
  have htest : (benchConnection (benchThread 127 st) st).Step Pow.benchPrims false
      (.work 0 (.tested { st with nonce := 127 })) _ := .work rfl hwork
  have hrun : Run (Step Pow.benchPrims) { conn := .new [127], shutdown := false }
      [.conn (.process 1 (some Pow.benchBlock)), .conn (.work 0 (.waited (some st))),
        .conn (.work 0 (.tested { st with nonce := 127 }))] _ :=
    .cons (.conn (bench_install 127 hst))
      (.cons (.conn (bench_wait 127 st)) (.single (.conn htest)))
  obtain ⟨-, -, hload⟩ := bounded_staleness (.of_init ⟨[127], rfl⟩) hrun 0
  obtain ⟨s₁, s₂, t, -, -, -, -, -, htested, -⟩ := hload [_] _ [_] rfl rfl
  obtain ⟨k, st₀, -, hcontent, heq⟩ := htested _ (List.mem_singleton.mpr rfl)
  exact ⟨st, _, hst, hrun, k, st₀, hcontent, heq⟩

end Mining

end Miner
end KaspaMiner
