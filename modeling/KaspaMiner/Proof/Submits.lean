import KaspaMiner.Lib.Entries
import KaspaMiner.Proof.Connection

/-!
# What a connection hands in

Two things about the blocks its workers send. Each is a template that was processed on the same
connection, with a nonce that satisfies its target (`Solved`). And each block a worker finds is sent
once: what it has found is what it has sent and what it is about to send (`found_run`).
-/

namespace KaspaMiner

/-- A `SubmitBlockRequest`. -/
def KaspadMessage.isSubmit (msg : KaspadMessage) : Bool :=
  match msg.payload with
  | some (.submitBlockRequest _) => true
  | _ => false

namespace Miner

open KaspaMiner.Pow (State)
open Lib (Run)

variable {P : Prims}

/-! ## Where the blocks come from -/

/-- A block to submit: one of the templates, with a nonce at which it satisfies its target. -/
def Solved (P : Prims) (T : RpcBlock → Prop) (msg : KaspadMessage) : Prop :=
  ∃ fuel id template st n, T template ∧ State.new P fuel id template = .ok st ∧
    ({ st with nonce := n }.calculatePow P).toNat ≤ st.target.toNat ∧
    msg = .submitBlock (template.withNonce n)

theorem Solved.isSubmit {T : RpcBlock → Prop} {msg : KaspadMessage} (h : Solved P T msg) :
    msg.isSubmit = true := by
  obtain ⟨fuel, id, template, st, n, -, -, -, rfl⟩ := h
  rfl

/-- What a node checks, with nothing but the block. -/
def Valid (P : Prims) (b : RpcBlock) : Prop :=
  ∃ fuel id st header, b.header = some header ∧ State.new P fuel id b = .ok st ∧
    { st with nonce := header.nonce }.checkPow P = true

theorem Solved.valid {T : RpcBlock → Prop} {msg : KaspadMessage} (h : Solved P T msg) :
    ∃ b, msg = .submitBlock b ∧ Valid P b := by
  obtain ⟨fuel, id, template, st, n, -, hnew, hpow, rfl⟩ := h
  obtain ⟨header, hheader, -⟩ := (State.built_of_new hnew).header
  rw [State.new_block hnew] at hheader
  refine ⟨_, rfl, fuel, id, _, { header with nonce := n }, ?_, State.new_withNonce hnew id n,
    (State.checkPow_iff P _).mpr hpow⟩
  rw [RpcBlock.withNonce, hheader]
  rfl

theorem Solved.mono {T T' : RpcBlock → Prop} (hle : ∀ b, T b → T' b) {msg : KaspadMessage}
    (h : Solved P T msg) : Solved P T' msg := by
  obtain ⟨fuel, id, template, st, n, hT, h⟩ := h
  exact ⟨fuel, id, template, st, n, hle _ hT, h⟩

namespace Connection
variable {T T' : RpcBlock → Prop} {conn conn' : Connection} {a : Action} {shutdown : Bool}

/-- Everything in the channel was made of one of the templates, and everything about to be sent
solves one. -/
structure From (P : Prims) (T : RpcBlock → Prop) (conn : Connection) : Prop where
  sees : conn.Sees
  made : ∀ st, some st ∈ conn.channel.contents →
    ∃ fuel id template, T template ∧ State.new P fuel id template = .ok st
  solved : ∀ (i : ℕ) (t : Thread) (msg : KaspadMessage), conn.threads[i]? = some t →
    t.worker.pc = .send msg → Solved P T msg

theorem From.mono (hle : ∀ b, T b → T' b) (h : conn.From P T) : conn.From P T' where
  sees := h.sees
  made st hst := by
    obtain ⟨fuel, id, template, hT, hnew⟩ := h.made st hst
    exact ⟨fuel, id, template, hle _ hT, hnew⟩
  solved i t msg ht hpc := (h.solved i t msg ht hpc).mono hle

theorem From.new (nonces : List UInt64) : (new nonces).From P T where
  sees := .new nonces
  made st hst := by
    have hnone : some st = none := List.mem_singleton.mp hst
    exact absurd hnone (by simp)
  solved i t msg ht hpc := by
    obtain ⟨nonce, -, rfl⟩ := new_thread ht
    exact absurd hpc (by simp [Thread.start, Worker.start])

/-- What a template leaves in the channel was made of it. -/
theorem From.processBlock (h : conn.From P T) {fuel : ℕ} {block : Option RpcBlock}
    (hT : ∀ b, block = some b → T b) {st : State}
    (hst : some st ∈ (conn.manager.processBlock P fuel block).1.blockChannel.contents) :
    ∃ fuel id template, T template ∧ State.new P fuel id template = .ok st := by
  cases block with
  | none =>
    -- What is swapped in is `None`, or nothing is.
    rw [MinerManager.processBlock_none] at hst
    by_cases hs : conn.manager.isSynced = true
    · rw [if_pos hs, Channel.swap_contents] at hst
      rcases List.mem_append.mp hst with hold | hnew
      · exact h.made st hold
      · exact absurd (List.mem_singleton.mp hnew) (by simp)
    · rw [if_neg hs] at hst
      exact h.made st hst
  | some b =>
    cases hb : State.new P fuel conn.manager.currentStateId b with
    | error e =>
      rw [MinerManager.processBlock_some_error hb] at hst
      exact h.made st hst
    | ok state =>
      rw [MinerManager.processBlock_some hb, Channel.swap_contents] at hst
      rcases List.mem_append.mp hst with hold | hnew
      · exact h.made st hold
      · obtain rfl : st = state := Option.some.inj (List.mem_singleton.mp hnew)
        exact ⟨fuel, _, b, hT b rfl, hb⟩

/-- The state a thread uses was made of one of the templates, but for its nonce. -/
theorem From.state (h : conn.From P T) {i : ℕ} {t : Thread} {st : State}
    (ht : conn.threads[i]? = some t) (hstate : t.worker.state = some st) :
    ∃ fuel id template st₀, T template ∧ State.new P fuel id template = .ok st₀ ∧
      st = { st₀ with nonce := st.nonce } := by
  have hmap := (h.sees i t ht).state
  rw [hstate] at hmap
  cases hc : conn.channel.content t.seen with
  | none =>
    rw [hc] at hmap
    exact absurd hmap (by simp)
  | some st₀ =>
    rw [hc] at hmap
    obtain ⟨fuel, id, template, hT, hnew⟩ := h.made st₀ (Channel.content_mem hc)
    exact ⟨fuel, id, template, st₀, hT, hnew, State.eq_of_unset_eq (Option.some.inj hmap)⟩

theorem From.built (h : conn.From P T) {i : ℕ} {t : Thread} {st : State}
    (ht : conn.threads[i]? = some t) (hstate : t.worker.state = some st) : st.Built P := by
  obtain ⟨fuel, id, template, st₀, -, hnew, heq⟩ := h.state ht hstate
  rw [heq]
  exact (State.built_of_new hnew).setNonce _

/-- Only a test leads to a send. -/
theorem From.work (h : conn.From P T) {i : ℕ} {t t' : Thread} {e : Event} {msg : KaspadMessage}
    (ht : conn.threads[i]? = some t) (hstep : t.Step P conn.channel shutdown e t')
    (hpc : t'.worker.pc = .send msg) : Solved P T msg := by
  cases hstep with
  | mk hworker hobs =>
    cases hworker with
    | @test st hpc' hstate =>
      obtain ⟨fuel, id, template, st₀, hT, hnew, hst⟩ := h.state ht hstate
      have hblock : st.block = template := by rw [← State.new_block hnew, hst]
      have hpow : { st with nonce := t.worker.nonce } = { st₀ with nonce := t.worker.nonce } := by
        rw [hst]
      have htarget : st.target = st₀.target := by rw [hst]
      change (t.worker.test P st).pc = _ at hpc
      rw [test_eq (h.built ht hstate)] at hpc
      split at hpc
      next hle =>
        rw [hpow, htarget] at hle
        exact ⟨fuel, id, template, st₀, _, hT, hnew, hle, by rw [← hblock, ← WorkerPc.send.inj hpc]⟩
      next => exact absurd hpc (advance_ne_send _ msg)
    | wait hpc' => exact absurd (hpc'.symm.trans hpc) (by simp)
    | @send _ ok hpc' =>
      cases ok with
      | true => exact absurd hpc (advance_ne_send _ msg)
      | false => exact absurd hpc (by simp)
    | credit => exact absurd hpc (by simp)
    | @check isShutdown => cases isShutdown <;> exact absurd hpc (by simp)
    | poll => exact absurd hpc (by simp)

theorem From.step (h : conn.From P T) (hstep : conn.Step P shutdown a conn')
    (hT : ∀ fuel b, a = .process fuel (some b) → T b) : conn'.From P T where
  sees := h.sees.step hstep
  made st hst := by
    cases hstep with
    | @process fuel block =>
      exact h.processBlock (fun b hb => hT fuel b (by rw [hb])) hst
    | work => exact h.made st hst
    | log => exact h.made st hst
  solved i t' msg ht' hpc := by
    rcases hstep.thread i with ⟨e, t, u, -, ht, hu, hmoves⟩ | ⟨-, hsame⟩
    · obtain rfl : t' = u := Option.some.inj (ht'.symm.trans hu)
      exact h.work ht hmoves hpc
    · exact h.solved i t' msg (hsame ▸ ht') hpc

end Connection

/-! ## What becomes of the blocks -/

/-- The block of a test that finds one. -/
def Event.found (P : Prims) : Event → Option KaspadMessage
  | tested st =>
    if (st.calculatePow P).toNat ≤ st.target.toNat then
      some (.submitBlock (st.block.withNonce st.nonce))
    else none
  | _ => none

/-- The message of a send that goes through. -/
def Event.handed : Event → Option KaspadMessage
  | sent msg true => some msg
  | _ => none

/-- What a worker found, in order. -/
def found (P : Prims) (es : List Event) : List KaspadMessage := es.filterMap (Event.found P)

/-- What a worker sent, in order. -/
def handed (es : List Event) : List KaspadMessage := es.filterMap Event.handed

/-- What a worker is about to send. -/
def WorkerPc.holding : WorkerPc → List KaspadMessage
  | send msg => [msg]
  | _ => []

theorem found_append (es fs : List Event) : found P (es ++ fs) = found P es ++ found P fs :=
  List.filterMap_append ..

theorem handed_append (es fs : List Event) : handed (es ++ fs) = handed es ++ handed fs :=
  List.filterMap_append ..

theorem advance_holding (w : Worker) : w.advance.pc.holding = [] := by
  rcases w.advance_pc with ⟨-, h⟩ | ⟨-, h⟩ <;> rw [h] <;> rfl

/-- **What a worker holds and finds, it hands over or holds**, unless a send fails. -/
theorem holding_step {w w' : Worker} {e : Event} (h : WorkerStep P w e w')
    (hbuilt : ∀ st, w.state = some st → st.Built P) (he : ∀ msg, e ≠ .sent msg false) :
    w.pc.holding ++ (e.found P).toList = e.handed.toList ++ w'.pc.holding := by
  cases h with
  | wait hpc =>
    rw [hpc]
    rfl
  -- Found and held at once, or neither.
  | @test st hpc hstate =>
    rw [hpc, test_eq (hbuilt st hstate)]
    split
    next hle =>
      have hfound : Event.found P (.tested { st with nonce := w.nonce }) = _ := if_pos hle
      rw [hfound]
      rfl
    next hgt =>
      have hfound : Event.found P (.tested { st with nonce := w.nonce }) = none := if_neg hgt
      rw [hfound, advance_holding]
      rfl
  | @send msg ok hpc =>
    cases ok with
    | true =>
      rw [hpc, if_pos rfl, advance_holding]
      rfl
    | false => exact absurd rfl (he msg)
  | credit hpc | poll hpc =>
    rw [hpc]
    rfl
  | @check shutdown hpc =>
    rw [hpc]
    cases shutdown <;> rfl

/-- **Each block is handed over once**, in the order in which they are found. -/
theorem found_run {s : UInt64} {es : List Event} {w : Worker}
    (h : Run (WorkerStep P) (.start s) es w) (hfed : ∀ e ∈ es, e.Fed P)
    (hsent : ∀ msg, .sent msg false ∉ es) : found P es = handed es ++ w.pc.holding := by
  refine h.history (Q := fun es w => (∀ e ∈ es, e.Fed P) → (∀ msg, .sent msg false ∉ es) →
    found P es = handed es ++ w.pc.holding) (fun _ _ => rfl) ?_ hfed hsent
  intro es w e w' hrun ih hstep hfed hsent
  have hfed' : ∀ e ∈ es, e.Fed P := fun x hx => hfed x (List.mem_append_left _ hx)
  have hlaw := holding_step hstep (fun st hst => by
      obtain ⟨st₀, -, hmade, heq⟩ := (WorkerInv.of_run hrun hfed').made hfed' hst
      rw [heq]
      exact hmade.built.setNonce _)
    fun msg heq => hsent msg (by simp [heq])
  have hfound : found P [e] = (e.found P).toList := Lib.filterMap_singleton _ e
  have hhanded : handed [e] = e.handed.toList := Lib.filterMap_singleton _ e
  calc found P (es ++ [e])
      = found P es ++ (e.found P).toList := by rw [found_append, hfound]
    _ = handed es ++ (w.pc.holding ++ (e.found P).toList) := by
      rw [ih hfed' fun msg hmem => hsent msg (List.mem_append_left _ hmem), List.append_assoc]
    _ = handed (es ++ [e]) ++ w'.pc.holding := by
      rw [hlaw, handed_append, hhanded, List.append_assoc]

/-! ## The threads together -/

/-- What the threads of a connection are about to send. -/
def Connection.held (conn : Connection) : List KaspadMessage :=
  conn.threads.flatMap fun t => t.worker.pc.holding

/-- **What the threads hold and find, they hand over or hold.** -/
theorem Connection.held_step {T : RpcBlock → Prop} {conn conn' : Connection} {shutdown : Bool}
    {i : ℕ} {e : Event} (hfrom : conn.From P T) (h : conn.Step P shutdown (.work i e) conn')
    (he : ∀ msg, e ≠ .sent msg false) :
    (conn.held ++ (e.found P).toList).Perm (e.handed.toList ++ conn'.held) := by
  cases h with
  | @work _ _ t t' ht hthread =>
    have hset := Lib.perm_flatMap_set (fun t : Thread => t.worker.pc.holding) (b := t') ht
    cases hthread with
    | @mk w hworker hobs =>
      have hlaw := holding_step hworker (fun st hst => hfrom.built ht hst) he
      -- Everything with what the thread held before, to be cancelled.
      have hbefore : (conn.held ++ (e.found P).toList ++ t.worker.pc.holding).Perm
          (conn.held ++ (t.worker.pc.holding ++ (e.found P).toList)) := by
        rw [List.append_assoc]
        exact List.perm_append_comm.append_left _
      have hafter : (conn.held ++ (e.handed.toList ++ w.pc.holding)).Perm
          (e.handed.toList ++ (conn.held ++ w.pc.holding)) := by
        rw [← List.append_assoc, ← List.append_assoc]
        exact List.perm_append_comm.append_right _
      rw [hlaw] at hbefore
      refine (List.perm_append_right_iff t.worker.pc.holding).mp ?_
      rw [List.append_assoc e.handed.toList]
      exact (hbefore.trans hafter).trans (hset.symm.append_left _)

/-! ## What a search covers -/

/-- The nonces from `s` on. -/
def noncesFrom (s : UInt64) (n : ℕ) : List UInt64 := (List.range n).map fun k => s + UInt64.ofNat k

/-- A search repeats no nonce before it has gone through all of them. -/
theorem noncesFrom_nodup (s : UInt64) {n : ℕ} (h : n ≤ 2 ^ 64) : (noncesFrom s n).Nodup := by
  refine List.Nodup.map_on ?_ List.nodup_range
  intro j hj k hk heq
  have hofNat : UInt64.ofNat j = UInt64.ofNat k := (UInt64.add_right_inj s).mp heq
  have htoNat := congrArg UInt64.toNat hofNat
  rw [UInt64.toNat_ofNat', UInt64.toNat_ofNat'] at htoNat
  have hj := List.mem_range.mp hj
  have hk := List.mem_range.mp hk
  omega

/-- And then it has gone through all of them. -/
theorem mem_noncesFrom (s : UInt64) {n : ℕ} (h : 2 ^ 64 ≤ n) (nonce : UInt64) :
    nonce ∈ noncesFrom s n := by
  refine List.mem_map.mpr ⟨(nonce - s).toNat, List.mem_range.mpr ?_, ?_⟩
  · exact (nonce - s).toNat_lt.trans_le h
  · rw [UInt64.ofNat_toNat, UInt64.add_comm]
    exact UInt64.sub_add_cancel nonce s

/-- What is found is found by a test. -/
theorem found_eq_tests (es : List Event) :
    found P es = (tests es).filterMap fun st => Event.found P (.tested st) := by
  rw [found, tests, List.filterMap_filterMap]
  congr 1
  funext e
  cases e <;> rfl

/-- The block that a nonce makes of the template of a state, if it solves it. -/
def solution (P : Prims) (st : State) (nonce : UInt64) : Option KaspadMessage :=
  if ({ st with nonce }.calculatePow P).toNat ≤ st.target.toNat then
    some (.submitBlock (st.block.withNonce nonce))
  else none

/-- From any point of a run on, what is held there and what is found after it is handed over or
held at the end. -/
theorem found_after {s : UInt64} {pre es : List Event} {w₀ w : Worker}
    (hpre : Run (WorkerStep P) (.start s) pre w₀) (h : Run (WorkerStep P) w₀ es w)
    (hfed : ∀ e ∈ pre ++ es, e.Fed P) (hsent : ∀ msg, .sent msg false ∉ pre ++ es) :
    handed es ++ w.pc.holding = w₀.pc.holding ++ found P es := by
  have hbefore := found_run hpre (fun e he => hfed e (List.mem_append_left _ he))
    fun msg hmsg => hsent msg (List.mem_append_left _ hmsg)
  have hall := found_run (hpre.append h) hfed hsent
  rw [found_append, handed_append, hbefore, List.append_assoc, List.append_assoc] at hall
  exact (List.append_cancel_left hall).symm

/-- The tests after `pre`, all of one template, are of its states at the nonces that follow. -/
theorem tests_eq_map {s : UInt64} {pre es : List Event} {w : Worker}
    (h : Run (WorkerStep P) (.start s) (pre ++ es) w) (hfed : ∀ e ∈ pre ++ es, e.Fed P) {st : State}
    (hsame : ∀ st' ∈ tests es, st'.unset = st.unset) :
    tests es = (noncesFrom (s + UInt64.ofNat (tests pre).length) (tests es).length).map
      fun nonce => { st with nonce } := by
  have htested := (WorkerInv.of_run h hfed).tested
  refine List.ext_getElem (by simp [noncesFrom]) ?_
  intro k hk _
  have hget : (tests (pre ++ es))[(tests pre).length + k]? = some (tests es)[k] := by
    rw [tests_append, List.getElem?_append_right (Nat.le_add_right _ _), Nat.add_sub_cancel_left]
    exact List.getElem?_eq_getElem hk
  have hnonce := htested _ _ hget
  have heq := State.eq_of_unset_eq (hsame _ (List.getElem_mem hk))
  simp only [noncesFrom, List.getElem_map, List.getElem_range]
  rw [UInt64.add_assoc, ← UInt64.ofNat_add, ← hnonce]
  exact heq

/-- **The search of a worker.** From any point of a run on, as long as the worker is left with one
template and no send fails, what it sends and is about to send is what it was about to send already
and then exactly the solutions among the nonces from where it is on, in this order. It tests none of
them twice in `2 ^ 64` tests, and after these every nonce that solves the template has had its block
sent, or is about to. -/
theorem search_covers {s : UInt64} {pre es : List Event} {w₀ w : Worker}
    (hpre : Run (WorkerStep P) (.start s) pre w₀) (h : Run (WorkerStep P) w₀ es w)
    (hfed : ∀ e ∈ pre ++ es, e.Fed P) (hsent : ∀ msg, .sent msg false ∉ pre ++ es) {st : State}
    (hsame : ∀ st' ∈ tests es, st'.unset = st.unset) :
    handed es ++ w.pc.holding = w₀.pc.holding ++
      (noncesFrom (s + UInt64.ofNat (tests pre).length) (tests es).length).filterMap
        (solution P st) ∧
    ((tests es).length ≤ 2 ^ 64 → ((tests es).map State.nonce).Nodup) ∧
    (2 ^ 64 ≤ (tests es).length → ∀ nonce,
      ({ st with nonce }.calculatePow P).toNat ≤ st.target.toNat →
        .submitBlock (st.block.withNonce nonce) ∈ handed es ++ w.pc.holding) := by
  have htests := tests_eq_map (hpre.append h) hfed hsame
  have hfound : found P es = (noncesFrom (s + UInt64.ofNat (tests pre).length)
      (tests es).length).filterMap (solution P st) := by
    rw [found_eq_tests]
    exact (congrArg (List.filterMap _) htests).trans List.filterMap_map
  have hlaw := found_after hpre h hfed hsent
  rw [hfound] at hlaw
  refine ⟨hlaw, fun hlen => ?_, fun hlen nonce hpow => ?_⟩
  · rw [htests, List.map_map]
    exact (List.map_id _).symm ▸ noncesFrom_nodup _ hlen
  · rw [hlaw]
    exact List.mem_append_right _
      (List.mem_filterMap.mpr ⟨nonce, mem_noncesFrom _ hlen nonce, if_pos hpow⟩)

/-- Two nonces are solved, the last before the wrap and the first after it. -/
theorem search_covers_bench : ∃ st w, State.new Pow.solvingPrims 1 0 Pow.benchBlock = .ok st ∧
    Run (WorkerStep Pow.solvingPrims) (.start 0xFFFFFFFFFFFFFFFF)
      (searchEvents st ++ [.polled none, .tested { st with nonce := 0 }]) w ∧
    handed (searchEvents st ++ [.polled none, .tested { st with nonce := 0 }]) ++ w.pc.holding =
      [.submitBlock (Pow.benchBlock.withNonce 0xFFFFFFFFFFFFFFFF),
        .submitBlock (Pow.benchBlock.withNonce 0)] ∧
    [({ st with nonce := 0xFFFFFFFFFFFFFFFF } : State).nonce, 0].Nodup := by
  obtain ⟨st, hst⟩ := Pow.solving_new 0
  have hrun : Run (WorkerStep Pow.solvingPrims) (.start 0xFFFFFFFFFFFFFFFF)
      (searchEvents st ++ [.polled none, .tested { st with nonce := 0 }]) _ :=
    (search_run hst).append <| .cons (.poll rfl) <| .single (solving_tested hst 0 _)
  have hfed : ∀ e ∈ [] ++ (searchEvents st ++ [.polled none, .tested { st with nonce := 0 }]),
      e.Fed Pow.solvingPrims := by
    simp only [searchEvents, List.cons_append, List.nil_append, List.forall_mem_cons]
    exact ⟨⟨1, 0, _, hst⟩, trivial, trivial, trivial, trivial, trivial, trivial, nofun⟩
  have hsent : ∀ msg, .sent msg false ∉
      [] ++ (searchEvents st ++ [.polled none, .tested { st with nonce := 0 }]) := by
    simp [searchEvents]
  have hsame : ∀ st' ∈ tests (searchEvents st ++ [.polled none, .tested { st with nonce := 0 }]),
      st'.unset = st.unset := by
    simp [searchEvents, tests, State.unset]
  obtain ⟨hlaw, hnodup, -⟩ := search_covers (.nil _) hrun hfed hsent hsame
  -- Where every nonce solves, the solutions are all the blocks there are.
  have hsolution (nonce : UInt64) : solution Pow.solvingPrims st nonce =
      some (.submitBlock (Pow.benchBlock.withNonce nonce)) := by
    rw [← State.new_block hst]
    exact if_pos ((Pow.solving_calculatePow _).le.trans (Nat.zero_le _))
  rw [funext hsolution, List.filterMap_eq_map'] at hlaw
  change _ = List.map (fun nonce => KaspadMessage.submitBlock (Pow.benchBlock.withNonce nonce))
    (noncesFrom (0xFFFFFFFFFFFFFFFF + UInt64.ofNat 0) 2) at hlaw
  have hnonces : noncesFrom (0xFFFFFFFFFFFFFFFF + UInt64.ofNat 0) 2 = [0xFFFFFFFFFFFFFFFF, 0] := by
    decide
  have htwo : 2 ≤ 2 ^ 64 := by decide
  rw [hnonces] at hlaw
  exact ⟨st, _, hst, hrun, hlaw, hnodup htwo⟩

end Miner
end KaspaMiner
