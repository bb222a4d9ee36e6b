import KaspaMiner.Proof.Staleness

/-!
# The hash counter

A worker adds 128 to the counter when its nonce reaches a multiple of 128, not when it has made 128
tests, so its first batch is worth less than it says. What makes up for the difference is `phase`,
the distance from the last multiple: 128 for every batch and the phase together are the tests and
the phase at the start (`phase_step`), at the wrap as well. The phase is at most 128, and that is
all a worker's account can be wrong by.

The counter itself is exact (`counted`): a batch stays in it until a tick of the logger takes it
out.
-/

namespace KaspaMiner
namespace Miner

open KaspaMiner.Pow (State)
open Lib (Run Reachable cost cost_cons cost_set cost_le_mul cost_filterMap)

variable {P : Prims}

/-! ## One worker -/

def Event.tests : Event → ℕ
  | tested _ => 1
  | _ => 0

/-- The tests since the nonce was a multiple of 128, or the whole batch if it is not added yet. -/
def phase (w : Worker) : ℕ :=
  match w.pc with
  | .credit => 128
  | pc => w.nonce.toNat % 128 + pc.pending

/-- A batch is only added at a multiple of 128. -/
def Aligned (w : Worker) : Prop := w.pc = .credit → w.nonce.toNat % 128 = 0

theorem phase_le (w : Worker) : phase w ≤ 128 := by
  have hmod : w.nonce.toNat % 128 < 128 := Nat.mod_lt _ (by decide)
  have hpending : w.pc.pending ≤ 1 := by
    unfold WorkerPc.pending
    split
    · exact Nat.le_refl 1
    · exact Nat.le_refl 1
    · exact Nat.le_refl 1
    · exact Nat.zero_le 1
  unfold phase
  split
  · exact Nat.le_refl 128
  · omega

theorem phase_of_ne {w : Worker} (h : w.pc ≠ .credit) :
    phase w = w.nonce.toNat % 128 + w.pc.pending := by
  unfold phase
  split
  · next heq => exact absurd heq h
  · rfl

theorem phase_advance (w : Worker) :
    phase w.advance = w.nonce.toNat % 128 + 1 ∧ Aligned w.advance := by
  have hmod := succ_mod w.nonce
  rcases w.advance_pc with ⟨hzero, hpc⟩ | ⟨hne, hpc⟩
  · rw [mod_eq_zero_iff, hmod] at hzero
    refine ⟨?_, fun _ => ?_⟩
    · unfold phase
      rw [hpc]
      show 128 = _
      omega
    · rw [Worker.advance_nonce, hmod, hzero]
  · rw [ne_eq, mod_eq_zero_iff, hmod] at hne
    have hcredit : w.advance.pc ≠ .credit := by
      rw [hpc]
      simp
    refine ⟨?_, fun h => absurd h hcredit⟩
    rw [phase_of_ne hcredit, hpc, Worker.advance_nonce, hmod]
    show (w.nonce.toNat + 1) % 128 + 0 = _
    omega

/-- Whatever comes of a test, it was one. -/
theorem phase_test (P : Prims) (w : Worker) (st : State) :
    phase (w.test P st) = w.nonce.toNat % 128 + 1 ∧ Aligned (w.test P st) := by
  rcases w.test_cases P st with h | ⟨msg, h⟩ | ⟨p, h⟩
  · rw [h]
    exact phase_advance _
  · rw [h]
    exact ⟨rfl, fun h => absurd h (by simp)⟩
  · rw [h]
    exact ⟨rfl, fun h => absurd h (by simp)⟩

/-- **What a step does to the account.** -/
theorem phase_step {w w' : Worker} {e : Event} (hal : Aligned w) (h : WorkerStep P w e w') :
    Aligned w' ∧ e.credits.toNat + phase w' = e.tests + phase w := by
  have hother : ∀ pc : WorkerPc, w.pc = pc → pc ≠ .credit →
      phase w = w.nonce.toNat % 128 + pc.pending := by
    rintro pc rfl hpc
    exact phase_of_ne hpc
  cases h with
  | @wait content hpc hstate =>
    refine ⟨fun h => absurd (hpc.symm.trans h) (by simp), ?_⟩
    have hsame : phase { w with state := content } = phase w := rfl
    show 0 + _ = 0 + _
    omega
  | @test st hpc hstate =>
    obtain ⟨hphase, hal'⟩ := phase_test P w st
    refine ⟨hal', ?_⟩
    rw [hphase, hother _ hpc (by simp)]
    show 0 + _ = 1 + (_ + 0)
    omega
  -- The test that found the block is pending until it is sent. If that fails it stays so.
  | @send msg ok hpc =>
    rw [hother _ hpc (by simp)]
    cases ok with
    | true =>
      obtain ⟨hphase, hal'⟩ := phase_advance w
      refine ⟨hal', ?_⟩
      show 0 + phase w.advance = 0 + (_ + 1)
      omega
    | false =>
      refine ⟨fun h => absurd h (by simp), ?_⟩
      rfl
  | credit hpc =>
    refine ⟨fun h => absurd h (by simp), ?_⟩
    have hzero := hal hpc
    have hcredit : phase w = 128 := by
      unfold phase
      rw [hpc]
    show 128 + (w.nonce.toNat % 128 + 0) = 0 + phase w
    omega
  | @check shutdown hpc =>
    rw [hother _ hpc (by simp)]
    have hcredit : (if shutdown then WorkerPc.done else .poll) ≠ .credit := by
      cases shutdown
      · simp
      · simp
    refine ⟨fun h => absurd h hcredit, ?_⟩
    rw [phase_of_ne hcredit]
    cases shutdown with
    | true => rfl
    | false => rfl
  | @poll changed hpc =>
    rw [hother _ hpc (by simp)]
    refine ⟨fun h => absurd h (by simp), ?_⟩
    rfl

/-! ## All of them -/

namespace Mining
variable {s s' : Mining} {a : Action} {as : List Action}

namespace Action

/-- What some worker does. -/
def event : Action → Option Event
  | conn (.work _ e) => some e
  | _ => none

def tests (a : Action) : ℕ := a.event.elim 0 Event.tests

/-- What is added to the counter. -/
def credited (a : Action) : ℕ := a.event.elim 0 fun e => e.credits.toNat

/-- What a tick of the logger takes out of it. -/
def logged : Action → ℕ
  | conn (.log hashes) => hashes.toNat
  | _ => 0

def swaps : Action → Bool
  | conn (.log _) => true
  | _ => false

end Action

def phases (s : Mining) : ℕ := cost (fun t : Thread => phase t.worker) s.conn.threads

def AllAligned (s : Mining) : Prop := ∀ t ∈ s.conn.threads, Aligned t.worker

theorem phases_le (s : Mining) : s.phases ≤ 128 * s.conn.threads.length :=
  cost_le_mul fun t _ => phase_le t.worker

theorem AllAligned.new (nonces : List UInt64) :
    AllAligned { conn := .new nonces, shutdown := false } := by
  intro t ht
  obtain ⟨nonce, -, rfl⟩ := List.mem_map.mp ht
  exact fun h => absurd h (by simp [Thread.start, Worker.start])

theorem phases_step (hal : s.AllAligned) (h : Step P s a s') :
    s'.AllAligned ∧ a.credited + s'.phases = a.tests + s.phases := by
  cases h with
  | shutdown => exact ⟨hal, rfl⟩
  | conn hstep =>
    cases hstep with
    | process => exact ⟨hal, rfl⟩
    | log => exact ⟨hal, rfl⟩
    | @work i e t t' ht hthread =>
      cases hthread with
      | @mk w hworker hsees =>
        obtain ⟨hal', hphase⟩ := phase_step (hal t (List.mem_of_getElem? ht)) hworker
        refine ⟨?_, ?_⟩
        · intro u hu
          rcases List.mem_or_eq_of_mem_set hu with hold | rfl
          · exact hal u hold
          · exact hal'
        -- One summand of the sum over the threads has changed, by what its worker did.
        · let next : Thread := ⟨w, if e.loads then s.conn.channel.pos else t.seen⟩
          have hset : cost (fun t : Thread => phase t.worker) (s.conn.threads.set i next) +
              phase t.worker = cost (fun t : Thread => phase t.worker) s.conn.threads + phase w :=
            cost_set ht
          show e.credits.toNat + cost _ (s.conn.threads.set i next) =
            e.tests + cost _ s.conn.threads
          omega

theorem threads_length_run (hrun : Run (Step P) s as s') :
    s'.conn.threads.length = s.conn.threads.length := by
  refine hrun.invariant (I := fun u => u.conn.threads.length = s.conn.threads.length) ?_ rfl
  intro u a u' hu hstep
  cases hstep with
  | conn hstep => exact hstep.threads_length.trans hu
  | shutdown => exact hu

/-! ## The counter -/

/-- The counter does not reach `2 ^ 64` between two ticks. -/
def Roomy (as : List Action) : Prop :=
  ∀ seg, seg <:+: as → (∀ a ∈ seg, a.swaps = false) → cost Action.credited seg < 2 ^ 64

theorem Action.credited_le (a : Action) : a.credited ≤ 128 := by
  cases a with
  | shutdown => exact Nat.zero_le _
  | conn a =>
    cases a with
    | process | log => exact Nat.zero_le _
    | work i e =>
      cases e with
      | credited => exact Nat.le_refl 128
      | waited | tested | sent | checked | polled => exact Nat.zero_le _

/-- There is room for fewer than `2 ^ 57` batches. -/
theorem Roomy.of_length {as : List Action} (h : 128 * as.length < 2 ^ 64) : Roomy as := by
  intro seg hseg _
  have hle : cost Action.credited seg ≤ 128 * seg.length :=
    cost_le_mul fun a _ => a.credited_le
  have hlength := hseg.length_le
  omega

/-- A tick empties the counter, and nothing else takes anything out. -/
theorem counter_step (h : Step P s a s')
    (hroom : a.swaps = false → s.conn.hashesTried.toNat + a.credited < 2 ^ 64) :
    a.swaps = true ∧ a.credited = 0 ∧ a.logged = s.conn.hashesTried.toNat ∧
      s'.conn.hashesTried.toNat = 0 ∨
    a.swaps = false ∧ a.logged = 0 ∧
      s'.conn.hashesTried.toNat = s.conn.hashesTried.toNat + a.credited := by
  cases h with
  | shutdown => exact .inr ⟨rfl, rfl, rfl⟩
  | conn hstep =>
    cases hstep with
    | process => exact .inr ⟨rfl, rfl, rfl⟩
    | log => exact .inl ⟨rfl, rfl, rfl, rfl⟩
    | @work i e t t' ht hthread =>
      refine .inr ⟨rfl, rfl, ?_⟩
      show (s.conn.hashesTried + e.credits).toNat = _
      rw [UInt64.toNat_add]
      exact Nat.mod_eq_of_lt (hroom rfl)

/-- **The counter is exact**, from any value that leaves room until the next tick. -/
theorem counted (hrun : Run (Step P) s as s') (hroom : Roomy as)
    (hstart : ∀ seg, seg <+: as → (∀ a ∈ seg, a.swaps = false) →
      s.conn.hashesTried.toNat + cost Action.credited seg < 2 ^ 64) :
    cost Action.logged as + s'.conn.hashesTried.toNat =
      cost Action.credited as + s.conn.hashesTried.toNat := by
  induction hrun with
  | nil => rfl
  | @cons s t u a as head tail ih =>
    have hroom' : Roomy as := fun seg hseg =>
      hroom seg (hseg.trans (List.infix_cons List.infix_rfl))
    have hfirst : a.swaps = false → s.conn.hashesTried.toNat + a.credited < 2 ^ 64 := by
      intro ha
      exact hstart [a] ⟨as, rfl⟩ fun b hb => List.mem_singleton.mp hb ▸ ha
    rw [cost_cons, cost_cons]
    -- After a tick the counter starts from nothing. Otherwise the step belongs to the stretch that
    -- the room was left for.
    rcases counter_step head hfirst with ⟨-, hcredited, hlogged, hempty⟩ | ⟨ha, hlogged, hsum⟩
    · have htail := ih hroom' fun seg hseg hfree => by
        rw [hempty, Nat.zero_add]
        exact hroom seg (hseg.isInfix.trans (List.infix_cons List.infix_rfl)) hfree
      omega
    · have htail := ih hroom' fun seg hseg hfree => by
        have hlonger := hstart (a :: seg) (List.cons_prefix_cons.mpr ⟨rfl, hseg⟩) fun b hb => by
          rcases List.mem_cons.mp hb with rfl | hb
          · exact ha
          · exact hfree b hb
        rw [cost_cons] at hlonger
        omega
      omega

/-! ## The theorem -/

def phaseAt (i : ℕ) (s : Mining) : ℕ := (s.conn.threads[i]?).elim 0 fun t => phase t.worker

theorem phaseAt_step (hal : s.AllAligned) (h : Step P s a s') (i : ℕ) :
    (a.own i).elim 0 (fun e => e.credits.toNat) + phaseAt i s' =
      (a.own i).elim 0 Event.tests + phaseAt i s := by
  rcases h.thread i with ⟨e, t, t', rfl, ht, ht', hthread⟩ | ⟨hown, hsame⟩
  · cases hthread with
    | mk hworker hsees =>
      have hown : Action.own i (.conn (.work i e)) = some e := if_pos rfl
      rw [hown, phaseAt, phaseAt, ht, ht']
      exact (phase_step (hal t (List.mem_of_getElem? ht)) hworker).2
  · rw [hown, phaseAt, phaseAt, hsame]
    rfl

/-- The account of thread `i`. -/
theorem thread_account {nonces : List UInt64}
    (hrun : Run (Step P) { conn := .new nonces, shutdown := false } as s) {i : ℕ} {t : Thread}
    (ht : s.conn.threads[i]? = some t) : ∃ nonce, nonces[i]? = some nonce ∧
      cost (fun e : Event => e.credits.toNat) (own i as) + phase t.worker =
        cost Event.tests (own i as) + nonce.toNat % 128 := by
  have hlt : i < nonces.length := by
    have hlt := (List.getElem?_eq_some_iff.mp ht).1
    rw [threads_length_run hrun] at hlt
    simpa [Connection.new] using hlt
  have hstart : phaseAt i { conn := .new nonces, shutdown := false } = nonces[i].toNat % 128 := by
    unfold phaseAt Connection.new
    rw [List.getElem?_map, List.getElem?_eq_getElem hlt]
    rfl
  have hend : phaseAt i s = phase t.worker := by
    unfold phaseAt
    rw [ht]
    rfl
  have hbalance := hrun.balance (φ := phaseAt i) (I := AllAligned)
    (fun u b u' hal (hstep : Step P u b u') =>
      ⟨(phases_step hal hstep).1, phaseAt_step hal hstep i⟩) (AllAligned.new nonces)
  refine ⟨nonces[i], List.getElem?_eq_getElem hlt, ?_⟩
  unfold own
  rw [cost_filterMap, cost_filterMap, ← hend, ← hstart]
  exact hbalance

/-- **Hash accounting.** At every point of every run, for any number of workers with any starting
nonces:

* what the logger took out and what is still in the counter are the batches that were added, each
  of them once;
* this differs from the number of tests by at most 128 for each worker;
* each worker has added a batch for every multiple of 128 its nonce has passed, at the wrap as
  anywhere else: its batches and its phase are its tests and the phase of its starting nonce. -/
theorem hash_accounting {nonces : List UInt64}
    (hrun : Run (Step P) { conn := .new nonces, shutdown := false } as s) (hroom : Roomy as) :
    cost Action.logged as + s.conn.hashesTried.toNat = cost Action.credited as ∧
    cost Action.logged as + s.conn.hashesTried.toNat ≤
      cost Action.tests as + 128 * nonces.length ∧
    cost Action.tests as ≤
      cost Action.logged as + s.conn.hashesTried.toNat + 128 * nonces.length ∧
    ∀ i t, s.conn.threads[i]? = some t → ∃ nonce, nonces[i]? = some nonce ∧
      cost (fun e : Event => e.credits.toNat) (own i as) + phase t.worker =
        cost Event.tests (own i as) + nonce.toNat % 128 := by
  have hcounted := counted hrun hroom fun seg hseg hfree => by
    show 0 + _ < _
    rw [Nat.zero_add]
    exact hroom seg hseg.isInfix hfree
  -- The phases are between nothing and 128 for each worker, at the start and now.
  have hphases := hrun.balance (c := Action.credited) (d := Action.tests) (I := AllAligned)
    (fun _ _ _ hal hstep => phases_step hal hstep)
    (AllAligned.new nonces)
  have hlength := threads_length_run hrun
  have hend := phases_le s
  have hstart := phases_le { conn := .new nonces, shutdown := false }
  rw [hlength] at hend
  have hnonces : (Connection.new nonces).threads.length = nonces.length := by simp [Connection.new]
  rw [hnonces] at hend hstart
  have hzero : (Connection.new nonces).hashesTried.toNat = 0 := rfl
  rw [hzero, Nat.add_zero] at hcounted
  exact ⟨hcounted, by omega, by omega, fun i t ht => thread_account hrun ht⟩

/-- A worker gets to a multiple of 128, and a tick of the logger takes its batch. -/
def benchBatch (st : State) : List Action :=
  [.conn (.process 1 (some Pow.benchBlock)), .conn (.work 0 (.waited (some st))),
    .conn (.work 0 (.tested { st with nonce := 127 })),
    .conn (.work 0 (.sent (.submitBlock (Pow.benchBlock.withNonce 127)) true)),
    .conn (.work 0 .credited), .conn (.log 128)]

/-- The batch of 128 stands for the one test and the 127 that the nonce started with. -/
theorem hash_accounting_bench : ∃ st s', State.new Pow.solvingPrims 1 0 Pow.benchBlock = .ok st ∧
    Run (Step Pow.solvingPrims) { conn := .new [127], shutdown := false } (benchBatch st) s' ∧
    s'.conn.hashesTried = 0 ∧ 128 + 0 = cost Action.credited (benchBatch st) ∧
    128 + 0 ≤ cost Action.tests (benchBatch st) + 128 * 1 ∧
    cost Action.tests (benchBatch st) ≤ 128 + 0 + 128 * 1 ∧
    ∃ t nonce, s'.conn.threads[0]? = some t ∧ ([127] : List UInt64)[0]? = some nonce ∧
      cost (fun e : Event => e.credits.toNat) (own 0 (benchBatch st)) + phase t.worker =
        1 + nonce.toNat % 128 := by
  obtain ⟨st, hst⟩ := Pow.solving_new 0
  have hrun : Run (Step Pow.solvingPrims) { conn := .new [127], shutdown := false }
      (benchBatch st) _ :=
    .cons (.conn (bench_install 127 hst)) <| .cons (.conn (bench_wait 127 st)) <|
    .cons (.conn (.work rfl (.mk (solving_tested hst 127 st.nonce) trivial))) <|
    .cons (.conn (.work rfl (.mk (solver_sent st (by decide)) trivial))) <|
    .cons (.conn (.work rfl (.mk (.credit rfl) trivial))) <| .single (.conn .log)
  have hroom : Roomy (benchBatch st) := .of_length (show 128 * 6 < 2 ^ 64 by decide)
  obtain ⟨hcredited, hover, hunder, hthreads⟩ := hash_accounting hrun hroom
  obtain ⟨nonce, hnonce, haccount⟩ := hthreads 0 _ rfl
  exact ⟨st, _, hst, hrun, rfl, hcredited, hover, hunder, _, nonce, rfl, hnonce, haccount⟩

end Mining

end Miner
end KaspaMiner
