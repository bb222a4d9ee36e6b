import KaspaMiner.Miner.Worker
import KaspaMiner.Proof.State

/-!
# What a worker does

`WorkerInv` is the invariant of the loop, about a worker and the events that led to it: how many
tests there were, which content is in use, and that the worker has not panicked. The contents the
worker is given are `Made`, that is, they come out of `State::new` — nothing else is ever put into
the channel, since the fields of a `State` are private.
-/

namespace KaspaMiner
namespace Miner

open KaspaMiner.Pow (State)
open Lib (Run)

variable {P : Prims}

/-- What `process_block` puts into the channel. -/
def Made (P : Prims) (st : State) : Prop :=
  ∃ fuel id template, State.new P fuel id template = .ok st

/-- The contents an event brings are `Made`. -/
def Event.Fed (P : Prims) : Event → Prop
  | .waited (some st) | .polled (some (some st)) => Made P st
  | _ => True

/-- The states tested, in order. -/
def tests (es : List Event) : List State :=
  es.filterMap fun
    | .tested st => some st
    | _ => none

/-- What an event brings, if it brings anything. -/
def Event.content : Event → Option (Option State)
  | .waited content => some content
  | .polled changed => changed
  | _ => none

/-- The content seen last. -/
def inUse (es : List Event) : Option State :=
  es.foldl (fun cur e => e.content.getD cur) none

theorem tests_append (es fs : List Event) : tests (es ++ fs) = tests es ++ tests fs := by
  simp [tests]

theorem inUse_concat (es : List Event) (e : Event) :
    inUse (es ++ [e]) = e.content.getD (inUse es) := by
  simp [inUse]

theorem inUse_made {es : List Event} (hfed : ∀ e ∈ es, e.Fed P) :
    ∀ st, inUse es = some st → Made P st := by
  induction es using List.reverseRecOn with
  | nil => intro st h; exact absurd h (by simp [inUse])
  | append_singleton es e ih =>
    intro st h
    have ih' := ih (fun x hx => hfed x (List.mem_append_left _ hx))
    have he := hfed e (by simp)
    rw [inUse_concat] at h
    cases e with
    | waited content =>
      have hc : content = some st := h
      subst hc
      exact he
    | polled changed =>
      cases changed with
      | none => exact ih' st h
      | some content =>
        have hc : content = some st := h
        subst hc
        exact he
    | tested | sent | credited | checked => exact ih' st h

theorem Made.built {st : State} (h : Made P st) : st.Built P := by
  obtain ⟨fuel, id, template, hnew⟩ := h
  exact State.built_of_new hnew

/-! ## The test -/

/-- On a built state the test finds a block exactly when the hash is at most the target, and the
block it finds can be hashed. -/
theorem test_eq {w : Worker} {st : State} (h : st.Built P) :
    w.test P st =
      if ({ st with nonce := w.nonce }.calculatePow P).toNat ≤ st.target.toNat then
        { w with state := some { st with nonce := w.nonce }
                 pc := .send (.submitBlock (st.block.withNonce w.nonce)) }
      else ({ w with state := some { st with nonce := w.nonce } } : Worker).advance := by
  unfold Worker.test
  simp only [(h.setNonce w.nonce).generateBlockIfPow]
  by_cases hpow : ({ st with nonce := w.nonce }.calculatePow P).toNat ≤ st.target.toNat
  · obtain ⟨hash, hhash⟩ := h.blockHash w.nonce
    rw [if_pos hpow, if_pos hpow]
    simp only [Worker.foundBlock, hhash]
  · rw [if_neg hpow, if_neg hpow]

/-! ## The loop -/

/-- Whether the nonce was tested and not advanced yet. -/
def WorkerPc.pending : WorkerPc → ℕ
  | .send _ | .failed | .panicked _ => 1
  | _ => 0

/-- The thread is over. -/
def WorkerPc.finished : WorkerPc → Bool
  | .done | .failed | .panicked _ => true
  | _ => false

structure WorkerInv (s : UInt64) (es : List Event) (w : Worker) : Prop where
  nonce : w.nonce + UInt64.ofNat w.pc.pending = s + UInt64.ofNat (tests es).length
  state : w.state.map State.unset = (inUse es).map State.unset
  tested : ∀ k st, (tests es)[k]? = some st → st.nonce = s + UInt64.ofNat k
  sending : ∀ msg, w.pc = .send msg → ∃ pre st, es = pre ++ [.tested st]
  panicked : ∀ p, w.pc ≠ .panicked p

theorem WorkerInv.start (s : UInt64) : WorkerInv s [] (.start s) where
  nonce := by simp [Worker.start, WorkerPc.pending, tests]
  state := rfl
  tested := by simp [tests]
  sending := by simp [Worker.start]
  panicked := by simp [Worker.start]

/-- What is in use is `Made`, up to the nonce. -/
theorem WorkerInv.made {s : UInt64} {es : List Event} {w : Worker} (hI : WorkerInv s es w)
    (hfed : ∀ e ∈ es, e.Fed P) {st : State} (hst : w.state = some st) :
    ∃ st₀, inUse es = some st₀ ∧ Made P st₀ ∧ st = { st₀ with nonce := st.nonce } := by
  have hstate := hI.state
  rw [hst] at hstate
  cases hin : inUse es with
  | none => rw [hin] at hstate; exact absurd hstate (by simp)
  | some st₀ =>
    rw [hin] at hstate
    exact ⟨st₀, rfl, inUse_made hfed st₀ hin, State.eq_of_unset_eq (Option.some.inj hstate)⟩

/-- Steps other than a test: no nonce is tested, none is skipped. -/
theorem WorkerInv.other {s : UInt64} {es : List Event} {w w' : Worker} {e : Event}
    (hI : WorkerInv s es w) (he : tests [e] = [])
    (hnonce : w'.nonce + UInt64.ofNat w'.pc.pending = w.nonce + UInt64.ofNat w.pc.pending)
    (hstate : w'.state.map State.unset = (e.content.getD (inUse es)).map State.unset)
    (hsend : ∀ msg, w'.pc ≠ .send msg) (hpanic : ∀ p, w'.pc ≠ .panicked p) :
    WorkerInv s (es ++ [e]) w' where
  nonce := by rw [tests_append, he, List.append_nil, hnonce, hI.nonce]
  state := by rw [inUse_concat, hstate]
  tested := by rw [tests_append, he, List.append_nil]; exact hI.tested
  sending msg h := absurd h (hsend msg)
  panicked := hpanic

theorem advance_pending (w : Worker) : w.advance.pc.pending = 0 := by
  rcases w.advance_pc with ⟨-, h⟩ | ⟨-, h⟩ <;> rw [h] <;> rfl

theorem advance_ne_send (w : Worker) (msg : KaspadMessage) : w.advance.pc ≠ .send msg := by
  rcases w.advance_pc with ⟨-, h⟩ | ⟨-, h⟩ <;> rw [h] <;> simp

theorem advance_ne_panicked (w : Worker) (p : KaspaMiner.Pow.Panic) :
    w.advance.pc ≠ .panicked p := by
  rcases w.advance_pc with ⟨-, h⟩ | ⟨-, h⟩ <;> rw [h] <;> simp

theorem workerInv_step {s : UInt64} {es : List Event} {w w' : Worker} {e : Event}
    (hfed : ∀ e ∈ es, e.Fed P) (hI : WorkerInv s es w) (h : WorkerStep P w e w') :
    WorkerInv s (es ++ [e]) w' := by
  cases h with
  | wait hpc hstate => exact hI.other rfl rfl rfl (by simp [hpc]) (by simp [hpc])
  | @test st hpc hstate =>
    obtain ⟨st₀, hin, hmade, hst⟩ := hI.made hfed hstate
    have hbuilt : st.Built P := by
      rw [hst]
      exact hmade.built.setNonce _
    have hunset : (some { st with nonce := w.nonce }).map State.unset =
        (inUse es).map State.unset := by
      rw [hin, hst]
      rfl
    -- At the head of the loop the nonce is not tested yet: it is the next one.
    have hnonce : w.nonce = s + UInt64.ofNat (tests es).length := by
      have := hI.nonce
      rw [hpc] at this
      simpa [WorkerPc.pending] using this
    have hlen : (tests (es ++ [.tested { st with nonce := w.nonce }])).length =
        (tests es).length + 1 := by
      rw [tests_append, List.length_append]
      rfl
    -- A test seen before the step, or the one this step makes.
    have htested : ∀ k st', (tests (es ++ [.tested { st with nonce := w.nonce }]))[k]? = some st' →
        st'.nonce = s + UInt64.ofNat k := by
      intro k st' hk
      rw [tests_append, List.getElem?_append] at hk
      split at hk
      · exact hI.tested k st' hk
      · rename_i hge
        have hlast : k - (tests es).length = 0 := by
          have hlt := (List.getElem?_eq_some_iff.mp hk).1
          rw [show tests [.tested { st with nonce := w.nonce }] = [{ st with nonce := w.nonce }]
            from rfl, List.length_singleton] at hlt
          omega
        rw [hlast] at hk
        have hst' : { st with nonce := w.nonce } = st' := Option.some.inj hk
        have hkeq : k = (tests es).length := by omega
        rw [← hst', hkeq]
        exact hnonce
    have hnext : w.nonce + 1 = s + UInt64.ofNat ((tests es).length + 1) := by
      rw [hnonce, UInt64.ofNat_add, UInt64.add_assoc]
      rfl
    rw [test_eq hbuilt]
    -- With a block found the nonce is advanced after the send, and at once without one.
    split
    · refine ⟨?_, ?_, htested, fun _ _ => ⟨es, _, rfl⟩, by simp⟩
      · rw [hlen]
        exact hnext
      · rw [inUse_concat]
        exact hunset
    · refine ⟨?_, ?_, htested, fun msg h => absurd h (advance_ne_send _ msg),
        advance_ne_panicked _⟩
      · rw [hlen, advance_pending, Worker.advance_nonce]
        simpa using hnext
      · rw [inUse_concat]
        exact hunset
  | @send msg ok hpc =>
    cases ok with
    | true =>
      refine hI.other rfl ?_ hI.state (advance_ne_send w) (advance_ne_panicked w)
      show w.advance.nonce + UInt64.ofNat w.advance.pc.pending = _
      rw [advance_pending, Worker.advance_nonce, hpc]
      simp [WorkerPc.pending]
    | false => exact hI.other rfl (by rw [hpc]; rfl) hI.state (by simp) (by simp)
  | credit hpc => exact hI.other rfl (by rw [hpc]; rfl) hI.state (by simp) (by simp)
  | @check shutdown hpc =>
    refine hI.other rfl ?_ hI.state ?_ ?_
    · rw [hpc]
      cases shutdown <;> rfl
    · cases shutdown <;> simp
    · cases shutdown <;> simp
  | @poll changed hpc =>
    refine hI.other rfl (by rw [hpc]; rfl) ?_ (by simp) (by simp)
    cases changed with
    | none => exact hI.state
    | some content => rfl

theorem WorkerInv.of_run {s : UInt64} {es : List Event} {w : Worker}
    (h : Run (WorkerStep P) (.start s) es w) (hfed : ∀ e ∈ es, e.Fed P) : WorkerInv s es w := by
  refine h.history (Q := fun es w => (∀ e ∈ es, e.Fed P) → WorkerInv s es w)
    (fun _ => .start s) ?_ hfed
  intro es w e w' _ ih hstep hfed
  have hes : ∀ e ∈ es, e.Fed P := fun x hx => hfed x (List.mem_append_left _ hx)
  exact workerInv_step hes (ih hes) hstep

/-! ## A test and what follows it -/

theorem step_of_send {w w' : Worker} {e : Event} {msg : KaspadMessage} (h : WorkerStep P w e w')
    (hpc : w.pc = .send msg) : ∃ ok, e = .sent msg ok := by
  cases h with
  | @send msg' ok hpc' =>
    rw [hpc] at hpc'
    exact ⟨ok, by rw [WorkerPc.send.inj hpc']⟩
  | wait hpc' | test hpc' | credit hpc' | check hpc' | poll hpc' =>
    rw [hpc] at hpc'
    exact absurd hpc' (by simp)

theorem not_step_of_finished {w w' : Worker} {e : Event} (hpc : w.pc.finished = true) :
    ¬ WorkerStep P w e w' := by
  intro h
  cases h with
  | send hpc' | wait hpc' | test hpc' | credit hpc' | check hpc' | poll hpc' =>
    rw [hpc'] at hpc
    exact absurd hpc (by simp [WorkerPc.finished])

/-- What is sent is what `found_block` had. -/
theorem pc_of_sent {w w' : Worker} {msg : KaspadMessage} {ok : Bool}
    (h : WorkerStep P w (.sent msg ok) w') : w.pc = .send msg := by
  cases h with
  | send hpc => exact hpc

/-- The state tested, the template it comes from, and whether the worker is about to send. -/
theorem WorkerInv.test {s : UInt64} {es : List Event} {w w' : Worker} {st : State}
    (hI : WorkerInv s es w) (hfed : ∀ e ∈ es, e.Fed P) (h : WorkerStep P w (.tested st) w') :
    ∃ st₀ fuel id template, inUse es = some st₀ ∧ State.new P fuel id template = .ok st₀ ∧
      st = { st₀ with nonce := st.nonce } ∧
      (∃ hash, (template.withNonce st.nonce).blockHash P = .ok (some hash)) ∧
      ((st.calculatePow P).toNat ≤ st.target.toNat →
        w'.pc = .send (.submitBlock (template.withNonce st.nonce))) ∧
      (¬ (st.calculatePow P).toNat ≤ st.target.toNat → ∀ msg, w'.pc ≠ .send msg) := by
  cases h with
  | @test st' hpc hstate =>
    obtain ⟨st₀, hin, ⟨fuel, id, template, hnew⟩, hst⟩ := hI.made hfed hstate
    have hbuilt : st'.Built P := by
      rw [hst]
      exact (State.built_of_new hnew).setNonce _
    have hblock : st₀.block = template := State.new_block hnew
    obtain rfl : st'.block = template := by
      rw [hst]
      exact hblock
    rw [test_eq hbuilt]
    refine ⟨st₀, fuel, id, _, hin, hnew, by rw [hst], hbuilt.blockHash w.nonce, ?_, ?_⟩
    · intro hpow
      rw [if_pos hpow]
    · intro hpow msg
      rw [if_neg hpow]
      exact advance_ne_send _ msg

/-- Nothing comes before the send. -/
theorem send_follows {w w' : Worker} {es : List Event} {msg : KaspadMessage}
    (h : Run (WorkerStep P) w es w') (hpc : w.pc = .send msg) :
    es = [] ∧ w'.pc = .send msg ∨ ∃ ok rest, es = .sent msg ok :: rest := by
  cases h with
  | nil => exact .inl ⟨rfl, hpc⟩
  | cons head tail =>
    obtain ⟨ok, rfl⟩ := step_of_send head hpc
    exact .inr ⟨ok, _, rfl⟩

theorem no_send_follows {w w' : Worker} {es : List Event} (h : Run (WorkerStep P) w es w')
    (hpc : ∀ msg, w.pc ≠ .send msg) :
    (es = [] → ∀ msg, w'.pc ≠ .send msg) ∧ ∀ msg ok rest, es ≠ .sent msg ok :: rest := by
  cases h with
  | nil => exact ⟨fun _ => hpc, by simp⟩
  | cons head tail =>
    refine ⟨by simp, ?_⟩
    intro msg ok rest heq
    injection heq with he
    subst he
    exact hpc msg (pc_of_sent head)

/-- A thread that is over takes no step. -/
theorem nothing_follows {w w' : Worker} {es : List Event} (h : Run (WorkerStep P) w es w')
    (hpc : w.pc.finished = true) : es = [] := by
  cases h with
  | nil => rfl
  | cons head tail => exact absurd head (not_step_of_finished hpc)

/-! ## The theorem -/

/-- **A worker's run.** For every starting nonce and every sequence of contents the worker sees:

* the `k`-th test is of the starting nonce plus `k`, in wrapping arithmetic;
* a test is of the state seen last; it is followed by a send exactly when its hash is at most the
  target, the block sent is the template of that state with the tested nonce, and that block can
  be hashed;
* nothing is sent otherwise, nothing at all happens after a send that fails, and the worker never
  panics. -/
theorem worker_run {s : UInt64} {es : List Event} {w : Worker}
    (h : Run (WorkerStep P) (.start s) es w) (hfed : ∀ e ∈ es, e.Fed P) :
    (∀ k st, (tests es)[k]? = some st → st.nonce = s + UInt64.ofNat k) ∧
    (∀ pre st post, es = pre ++ .tested st :: post →
      ∃ st₀ fuel id template, inUse pre = some st₀ ∧ State.new P fuel id template = .ok st₀ ∧
        st = { st₀ with nonce := st.nonce } ∧
        ((st.calculatePow P).toNat ≤ st.target.toNat →
          (∃ hash, (template.withNonce st.nonce).blockHash P = .ok (some hash)) ∧
          (post = [] ∧ w.pc = .send (.submitBlock (template.withNonce st.nonce)) ∨
            ∃ ok rest, post = .sent (.submitBlock (template.withNonce st.nonce)) ok :: rest)) ∧
        (¬ (st.calculatePow P).toNat ≤ st.target.toNat →
          (post = [] → ∀ msg, w.pc ≠ .send msg) ∧ ∀ msg ok rest, post ≠ .sent msg ok :: rest)) ∧
    (∀ pre msg ok post, es = pre ++ .sent msg ok :: post → ∃ pre' st, pre = pre' ++ [.tested st]) ∧
    (∀ pre msg post, es = pre ++ .sent msg false :: post → post = []) ∧
    ∀ p, w.pc ≠ .panicked p := by
  have hI := WorkerInv.of_run h hfed
  refine ⟨hI.tested, ?_, ?_, ?_, hI.panicked⟩
  -- The run up to the test gives the state it is of; the run behind it begins where it leads.
  · intro pre st post heq
    subst heq
    obtain ⟨w₁, hpre, hrest⟩ := h.split
    obtain ⟨w₂, htest, hpost⟩ := hrest.head
    have hfed₁ : ∀ e ∈ pre, e.Fed P := fun x hx => hfed x (List.mem_append_left _ hx)
    have hI₁ := WorkerInv.of_run hpre hfed₁
    obtain ⟨st₀, fuel, id, template, hin, hnew, hst, hhash, hfound, hnone⟩ :=
      hI₁.test hfed₁ htest
    refine ⟨st₀, fuel, id, template, hin, hnew, hst, ?_, ?_⟩
    · intro hpow
      exact ⟨hhash, send_follows hpost (hfound hpow)⟩
    · intro hpow
      exact no_send_follows hpost (hnone hpow)
  · intro pre msg ok post heq
    subst heq
    obtain ⟨w₁, hpre, hrest⟩ := h.split
    obtain ⟨w₂, hsend, -⟩ := hrest.head
    have hI₁ := WorkerInv.of_run hpre (fun x hx => hfed x (List.mem_append_left _ hx))
    exact hI₁.sending msg (pc_of_sent hsend)
  · intro pre msg post heq
    subst heq
    obtain ⟨w₁, hpre, hrest⟩ := h.split
    obtain ⟨w₂, hsend, hpost⟩ := hrest.head
    cases hsend with
    | send hpc => exact nothing_follows hpost rfl

/-! ## One search -/

/-- A worker that has just solved `nonce`. -/
def solver (st : State) (nonce : UInt64) : Worker where
  nonce
  state := some { st with nonce }
  pc := .send (.submitBlock (Pow.benchBlock.withNonce nonce))

/-- Where every nonce solves, every test finds a block. -/
theorem solving_tested {id : USize} {st : State}
    (hst : State.new Pow.solvingPrims 1 id Pow.benchBlock = .ok st) (nonce last : UInt64) :
    WorkerStep Pow.solvingPrims { nonce, state := some { st with nonce := last }, pc := .top }
      (.tested { st with nonce }) (solver st nonce) := by
  have hpow := Pow.solving_calculatePow { st with nonce }
  have htest := @WorkerStep.test Pow.solvingPrims
    { nonce, state := some { st with nonce := last }, pc := .top } { st with nonce := last } rfl rfl
  rw [test_eq ((State.built_of_new hst).setNonce last), if_pos (hpow.le.trans (Nat.zero_le _))]
    at htest
  rw [solver, ← State.new_block hst]
  exact htest

/-- Its block is sent, and the next nonce is a multiple of 128. -/
theorem solver_sent (st : State) {nonce : UInt64} (h : (nonce + 1) % 128 = 0) :
    WorkerStep P (solver st nonce) (.sent (.submitBlock (Pow.benchBlock.withNonce nonce)) true)
      { nonce := nonce + 1, state := some { st with nonce }, pc := .credit } := by
  have hsent : WorkerStep P (solver st nonce)
      (.sent (.submitBlock (Pow.benchBlock.withNonce nonce)) true) (solver st nonce).advance :=
    .send rfl
  have hcredit : (solver st nonce).advance =
      { nonce := nonce + 1, state := some { st with nonce }, pc := .credit } := by
    simp [Worker.advance, solver, h]
  rwa [hcredit] at hsent

/-- The last nonce before the wrap is solved, the block is sent, and the counter comes round to a
multiple of 128. -/
def searchEvents (st : State) : List Event :=
  [.waited (some st), .tested { st with nonce := 0xFFFFFFFFFFFFFFFF },
    .sent (.submitBlock (Pow.benchBlock.withNonce 0xFFFFFFFFFFFFFFFF)) true, .credited,
    .checked false]

theorem search_run {id : USize} {st : State}
    (hst : State.new Pow.solvingPrims 1 id Pow.benchBlock = .ok st) :
    Run (WorkerStep Pow.solvingPrims) (.start 0xFFFFFFFFFFFFFFFF) (searchEvents st)
      { nonce := 0, state := some { st with nonce := 0xFFFFFFFFFFFFFFFF }, pc := .poll } := by
  have hsent := solver_sent (P := Pow.solvingPrims) st
    (show ((0xFFFFFFFFFFFFFFFF : UInt64) + 1) % 128 = 0 by decide)
  rw [show (0xFFFFFFFFFFFFFFFF : UInt64) + 1 = 0 by decide] at hsent
  exact .cons (.wait rfl rfl) <| .cons (solving_tested hst _ st.nonce) <| .cons hsent <|
    .cons (.credit rfl) <| .single (.check rfl)

/-- The nonce wraps, the template changes, and the thread solves both. -/
theorem worker_run_bench : ∃ st st' w, State.new Pow.solvingPrims 1 0 Pow.benchBlock = .ok st ∧
    State.new Pow.solvingPrims 1 1 Pow.benchBlock = .ok st' ∧
    Run (WorkerStep Pow.solvingPrims) (.start 0xFFFFFFFFFFFFFFFF)
      (searchEvents st ++ [.polled (some (some st')), .tested { st' with nonce := 0 }]) w ∧
    (∀ k st'', [{ st with nonce := 0xFFFFFFFFFFFFFFFF }, { st' with nonce := 0 }][k]? = some st'' →
      st''.nonce = 0xFFFFFFFFFFFFFFFF + UInt64.ofNat k) ∧
    w.pc = .send (.submitBlock (Pow.benchBlock.withNonce 0)) ∧ ∀ p, w.pc ≠ .panicked p := by
  obtain ⟨st, hst⟩ := Pow.solving_new 0
  obtain ⟨st', hst'⟩ := Pow.solving_new 1
  have hrun : Run (WorkerStep Pow.solvingPrims) (.start 0xFFFFFFFFFFFFFFFF)
      (searchEvents st ++ [.polled (some (some st')), .tested { st' with nonce := 0 }]) _ :=
    (search_run hst).append <| .cons (.poll rfl) <| .single (solving_tested hst' 0 st'.nonce)
  have hfed : ∀ e ∈ searchEvents st ++ [.polled (some (some st')), .tested { st' with nonce := 0 }],
      e.Fed Pow.solvingPrims := by
    simp only [searchEvents, List.cons_append, List.nil_append, List.forall_mem_cons]
    exact ⟨⟨1, 0, _, hst⟩, trivial, trivial, trivial, trivial, ⟨1, 1, _, hst'⟩, trivial,
      List.forall_mem_nil _⟩
  obtain ⟨hnonces, htests, -, -, hpanic⟩ := worker_run hrun hfed
  obtain ⟨st₀, fuel, id, template, hin, hnew, -, hfound, -⟩ :=
    htests (searchEvents st ++ [.polled (some (some st'))]) _ [] rfl
  -- The second test is of the content that the poll brought.
  obtain rfl : st' = st₀ := Option.some.inj hin
  obtain rfl : Pow.benchBlock = template := (State.new_block hst').symm.trans (State.new_block hnew)
  have hsend := (hfound ((Pow.solving_calculatePow _).le.trans (Nat.zero_le _))).2.resolve_right
    (by simp)
  exact ⟨st, st', _, hst, hst', hrun, hnonces, hsend.2, hpanic⟩

end Miner
end KaspaMiner
