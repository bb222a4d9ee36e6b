import KaspaMiner.Main
import KaspaMiner.Proof.Progress

/-!
# The threads of a dropped manager

Dropping a `MinerManager` stops the logger. Its threads are still there, and what becomes of them
depends on what is in the block channel. With nothing in it they stop: a thread that polls takes
the nothing over and waits for a change that cannot come any more (`Stopped`). With a template in
it they mine that template for as long as the process lives.
-/

namespace KaspaMiner

open KaspaMiner.Pow (State)
open Miner (Connection Event Mining Thread benchConnection)
open Lib (Run Reachable)

variable {P : Prims} {shutdown : Bool}

namespace Miner

/-! ## A thread with nothing to load -/

/-- The thread is about to find nothing, or has found it. -/
inductive Thread.Stopped (t : Thread) (ch : Channel State) : Prop
  | poll (hpc : t.worker.pc = .poll)
  | wait (hpc : t.worker.pc = .top) (hstate : t.worker.state = none)
      (hseen : ch.content t.seen = none)

theorem Thread.Stopped.step {t t' : Thread} {ch : Channel State} {e : Event}
    (hstop : t.Stopped ch) (hsees : t.Sees ch) (hnone : ch.current = none)
    (h : t.Step P ch shutdown e t') : t'.Stopped ch ∧ tests [e] = [] := by
  cases hstop with
  | poll hpc =>
    have hload : e.loads = true ∧ tests [e] = [] := by
      cases h with
      | mk hworker hobs =>
        cases hworker with
        | poll hpc' => exact ⟨rfl, rfl⟩
        | wait hpc' | test hpc' | send hpc' | credit hpc' | check hpc' =>
          rw [hpc] at hpc'
          exact absurd hpc' (by simp)
    obtain ⟨hpc', hseen, hstate⟩ := hsees.load h hload.1
    refine ⟨.wait hpc' ?_ ?_, hload.2⟩
    · rw [hnone] at hstate
      exact Option.map_eq_none_iff.mp hstate
    · rw [hseen, Channel.content_pos, hnone]
  | wait hpc hstate hseen =>
    -- A wait needs a change, and from nothing to nothing is none.
    cases h with
    | mk hworker hobs =>
      cases hworker with
      | wait hpc' hstate' =>
        have hchange : ch.getChanged t.seen = some _ := hobs
        rw [Channel.getChanged_of_none hseen hnone] at hchange
        exact absurd hchange (by simp)
      | test hpc' hstate' =>
        rw [hstate] at hstate'
        exact absurd hstate' (by simp)
      | send hpc' | credit hpc' | check hpc' | poll hpc' =>
        rw [hpc] at hpc'
        exact absurd hpc' (by simp)

/-- Nothing is installed, or nobody is left to look. -/
def Connection.Idle (conn : Connection) : Prop :=
  conn.channel.current = none ∨ ∀ t ∈ conn.threads, t.worker.pc.finished = true

theorem Connection.Idle.work {conn conn' : Connection} {i : ℕ} {e : Event} (hidle : conn.Idle)
    (h : conn.Step P shutdown (.work i e) conn') : conn'.Idle := by
  cases h with
  | work ht hstep =>
    rcases hidle with hnone | hfinished
    · exact .inl hnone
    · cases hstep with
      | mk hworker hobs =>
        exact absurd hworker (not_step_of_finished (hfinished _ (List.mem_of_getElem? ht)))

/-- Nothing is installed, and thread `i` has stopped. -/
def Connection.Stopped (i : ℕ) (conn : Connection) : Prop :=
  conn.Sees ∧ conn.channel.current = none ∧
    ∃ t, conn.threads[i]? = some t ∧ t.Stopped conn.channel

theorem Connection.Stopped.work {conn conn' : Connection} {i j : ℕ} {e : Event}
    (hstop : conn.Stopped i) (h : conn.Step P shutdown (.work j e) conn') :
    conn'.Stopped i ∧ ∀ st, j = i → e ≠ .tested st := by
  obtain ⟨hsees, hnone, t, ht, hthread⟩ := hstop
  have hch : conn'.channel = conn.channel := h.channel_eq (by simp)
  have hnone' : conn'.channel.current = none := by rw [hch, hnone]
  rcases h.thread i with ⟨e', t₁, t', he, ht₁, ht', hwork⟩ | ⟨hown, hsame⟩
  · obtain ⟨rfl, rfl⟩ : j = i ∧ e = e' := by simpa using he
    obtain rfl : t = t₁ := Option.some.inj (ht.symm.trans ht₁)
    obtain ⟨hthread', htests⟩ := hthread.step (hsees j t ht) hnone hwork
    refine ⟨⟨hsees.step h, hnone', t', ht', by rwa [hch]⟩, ?_⟩
    rintro st - rfl
    exact absurd htests (by simp [tests])
  · refine ⟨⟨hsees.step h, hnone', t, hsame.trans ht, by rwa [hch]⟩, ?_⟩
    rintro st rfl -
    exact absurd hown (by simp [Connection.Action.own])

end Miner

namespace World
variable {numThreads : UInt16} {w w' : World} {a : Action} {as : List Action} {m i : ℕ}

/-! ## After the drop -/

/-- A connection without its manager moves by its threads only. -/
theorem Step.orphan {conn : Connection} (h : Step P numThreads w a w')
    (hconn : w.connections[m]? = some conn) (hcur : ¬ w.Current m) :
    (∃ i e conn', a = .conn m (.work i e) ∧ w'.connections[m]? = some conn' ∧
      conn.Step P w.shutdown (.work i e) conn') ∨
    (∀ b, a ≠ .conn m b) ∧ w'.connections[m]? = some conn := by
  rcases h.connection hconn with ⟨b, conn', ha, hconn', hstep, hallows⟩ | hother
  · cases b with
    | process fuel block => exact absurd hallows.1 hcur
    | log hashes => exact absurd hallows hcur
    | work i e => exact .inl ⟨i, e, conn', ha, hconn', hstep⟩
  · exact .inr hother

/-- The manager of connection `m` is gone and its thread `i` has stopped. -/
def Stopped (m i : ℕ) (w : World) : Prop :=
  ¬ w.Current m ∧ ∃ conn, w.connections[m]? = some conn ∧ conn.Stopped i

theorem Stopped.step (hstop : w.Stopped m i) (h : Step P numThreads w a w') :
    w'.Stopped m i ∧ ∀ st, a ≠ .conn m (.work i (.tested st)) := by
  obtain ⟨hcur, conn, hconn, hthread⟩ := hstop
  have hcur' : ¬ w'.Current m := fun hc =>
    hcur (h.current (List.getElem?_eq_some_iff.mp hconn).1 hc)
  rcases h.orphan hconn hcur with ⟨j, e, conn', rfl, hconn', hstep⟩ | ⟨hne, hconn'⟩
  · obtain ⟨hthread', hne⟩ := hthread.work hstep
    refine ⟨⟨hcur', conn', hconn', hthread'⟩, ?_⟩
    intro st heq
    obtain ⟨hj, he⟩ : j = i ∧ e = .tested st := by simpa using heq
    exact hne st hj he
  · exact ⟨⟨hcur', conn, hconn', hthread⟩, fun st => hne _⟩

theorem Stopped.run (hrun : Run (Step P numThreads) w as w') (hstop : w.Stopped m i) (st : State) :
    .conn m (.work i (.tested st)) ∉ as := by
  induction hrun with
  | nil => simp
  | cons head tail ih =>
    obtain ⟨hstop', hne⟩ := hstop.step head
    intro hmem
    rcases List.mem_cons.mp hmem with heq | hmem
    · exact hne st heq.symm
    · exact ih hstop' hmem

/-! ## What holds of every connection -/

def Every (I : Connection → Prop) (w : World) : Prop :=
  ∀ (m : ℕ) (conn : Connection), w.connections[m]? = some conn → I conn

theorem Every.start (I : Connection → Prop) : start.Every I := by
  intro m conn hconn
  exact absurd hconn (by simp [World.start])

/-- What the new connections have and every step keeps, all of them have. -/
theorem Every.step {I : Connection → Prop}
    (hnew : ∀ nonces, nonces.length = numThreads.toNat → I (.new nonces))
    (hkeep : ∀ conn b conn' shutdown, I conn → conn.Step P shutdown b conn' → I conn')
    (hI : w.Every I) (h : Step P numThreads w a w') : w'.Every I := by
  intro m conn' hconn'
  cases hold : w.connections[m]? with
  | none =>
    obtain ⟨nonces, rfl, hlen, -⟩ := h.connection_new hold hconn'
    exact hnew nonces hlen
  | some conn =>
    have hconn := hI m conn hold
    rcases h.connection hold with ⟨b, conn₁, -, hconn₁, hmoves, -⟩ | ⟨-, hsame⟩
    · obtain rfl : conn' = conn₁ := Option.some.inj (hconn'.symm.trans hconn₁)
      exact hkeep conn b conn' _ hconn hmoves
    · obtain rfl : conn' = conn := Option.some.inj (hconn'.symm.trans hsame)
      exact hconn

structure Sound (P : Prims) (numThreads : UInt16) (conn : Connection) : Prop where
  sees : conn.Sees
  fed : conn.Fed P
  length : conn.threads.length = numThreads.toNat

theorem sound_step (hI : w.Every (Sound P numThreads)) (h : Step P numThreads w a w') :
    w'.Every (Sound P numThreads) := by
  refine hI.step ?_ ?_ h
  · intro nonces hlen
    exact ⟨.new nonces, .new nonces, by simpa [Connection.new] using hlen⟩
  · intro conn b conn' shutdown hsound hstep
    exact ⟨hsound.sees.step hstep, hsound.fed.step hstep,
      hstep.threads_length.trans hsound.length⟩

theorem sound_of_reachable (h : Reachable (Step P numThreads) (· = start) w) :
    w.Every (Sound P numThreads) := by
  refine h.invariant ?_ fun w a w' hI hstep => sound_step hI hstep
  intro w heq
  subst heq
  exact Every.start _

/-! ## Runs that drop idle connections only -/

/-- A step, and whenever it drops a manager, that connection is idle. -/
def CarefulStep (P : Prims) (numThreads : UInt16) (w : World) (a : Action) (w' : World) : Prop :=
  Step P numThreads w a w' ∧ (a = .disconnect ∨ a = .error →
    ∀ m conn, w.Current m → w.connections[m]? = some conn → conn.Idle)

theorem CarefulStep.run {w w' : World} (h : Run (CarefulStep P numThreads) w as w') :
    Run (Step P numThreads) w as w' :=
  h.mono fun _ _ _ hstep => hstep.1

/-- Every connection is idle once its manager is dropped. -/
def Orderly (w : World) : Prop :=
  ∀ (m : ℕ) (conn : Connection), w.connections[m]? = some conn → ¬ w.Current m → conn.Idle

theorem Orderly.step (hI : w.Orderly) (h : CarefulStep P numThreads w a w') : w'.Orderly := by
  obtain ⟨hstep, hcareful⟩ := h
  intro m conn' hconn' hdrop
  cases hold : w.connections[m]? with
  | none =>
    obtain ⟨nonces, -, -, hcur⟩ := hstep.connection_new hold hconn'
    exact absurd hcur hdrop
  | some conn =>
    by_cases hcur : w.Current m
    · obtain ⟨ha, hsame⟩ := (hstep.dropped hcur).resolve_left hdrop
      rw [hsame] at hconn'
      exact hcareful ha m conn' hcur hconn'
    · have hidle := hI m conn hold hcur
      rcases hstep.orphan hold hcur with ⟨i, e, conn₁, -, hconn₁, hwork⟩ | ⟨-, hsame⟩
      · obtain rfl : conn' = conn₁ := Option.some.inj (hconn'.symm.trans hconn₁)
        exact hidle.work hwork
      · obtain rfl : conn' = conn := Option.some.inj (hconn'.symm.trans hsame)
        exact hidle

theorem orderly_of_reachable (h : Reachable (CarefulStep P numThreads) (· = start) w) :
    w.Orderly := by
  refine h.invariant ?_ fun w a w' hI hstep => hI.step hstep
  intro w heq m conn hconn
  subst heq
  exact absurd hconn (by simp [start])

/-- A thread that has passed the shutdown check is about to poll, and it has not finished. -/
theorem checked_thread {conn conn' : Connection} {shutdown : Bool}
    (h : conn.Step P shutdown (.work i (.checked false)) conn') :
    ∃ t t', conn.threads[i]? = some t ∧ conn'.threads[i]? = some t' ∧
      t.worker.pc.finished = false ∧ t'.worker.pc = .poll := by
  rcases h.thread i with ⟨e, t, t', he, ht, ht', hthread⟩ | ⟨hown, -⟩
  · obtain rfl : Event.checked false = e := by simpa using he
    refine ⟨t, t', ht, ht', ?_⟩
    cases hthread with
    | mk hworker hobs =>
      cases hworker with
      | check hpc => exact ⟨by rw [hpc]; rfl, rfl⟩
  · exact absurd hown (by simp [Connection.Action.own])

/-- **No worker outlives its manager**, if its connection is idle whenever a manager is dropped: a
thread that passes the shutdown check and tests anything after it is one of the `numThreads` of the
manager there is at the check. -/
theorem worker_current {w w₁ w₂ : World} {st : State}
    (h : Reachable (CarefulStep P numThreads) (· = start) w)
    (hcheck : CarefulStep P numThreads w (.conn m (.work i (.checked false))) w₁)
    (hrun : Run (CarefulStep P numThreads) w₁ as w₂)
    (htest : .conn m (.work i (.tested st)) ∈ as) :
    w.Current m ∧ i < numThreads.toNat := by
  have hreach : Reachable (Step P numThreads) (· = start) w := by
    obtain ⟨w₀, bs, hstart, hrun₀⟩ := h
    exact ⟨w₀, bs, hstart, CarefulStep.run hrun₀⟩
  have hsound := sound_of_reachable hreach
  obtain ⟨conn, conn', hconn, hconn', hstep⟩ := hcheck.1.conn_inv
  obtain ⟨t, t', ht, ht', hfinished, hpoll⟩ := checked_thread hstep
  have hlt := (List.getElem?_eq_some_iff.mp ht).1
  refine ⟨?_, by rwa [(hsound m conn hconn).length] at hlt⟩
  by_contra hdrop
  have hdrop₁ : ¬ w₁.Current m := fun hc =>
    hdrop (hcheck.1.current (List.getElem?_eq_some_iff.mp hconn).1 hc)
  -- The thread has not finished, so it is the channel that is empty.
  have hnone : conn.channel.current = none := by
    apply (orderly_of_reachable h m conn hconn hdrop).resolve_right
    intro hall
    rw [hall t (List.mem_of_getElem? ht)] at hfinished
    exact absurd hfinished (by simp)
  have hnone' : conn'.channel.current = none := by rw [hstep.channel_eq (by simp), hnone]
  have hsees' := (sound_step hsound hcheck.1 m conn' hconn').sees
  have hstop : w₁.Stopped m i := ⟨hdrop₁, conn', hconn', hsees', hnone', t', ht', .poll hpoll⟩
  exact hstop.run (CarefulStep.run hrun) st htest

/-! ## What the threads of the others do -/

/-- Thread `i` of connection `m` is `t`, and its channel is `ch`. -/
def Has (w : World) (m i : ℕ) (ch : Channel State) (t : Thread) : Prop :=
  ∃ conn, w.connections[m]? = some conn ∧ conn.channel = ch ∧ conn.threads[i]? = some t

/-- The step of a thread is a step of the process that `main` does not notice. -/
theorem Has.step (numThreads : UInt16) {ch : Channel State} {t t' : Thread} {e : Event}
    (h : w.Has m i ch t) (hstep : t.Step P ch w.shutdown e t') :
    ∃ w', CarefulStep P numThreads w (.conn m (.work i e)) w' ∧ w'.Has m i ch t' ∧
      w'.shutdown = w.shutdown ∧ ∀ m, w'.Current m ↔ w.Current m := by
  obtain ⟨conn, hconn, rfl, ht⟩ := h
  have hm := (List.getElem?_eq_some_iff.mp hconn).1
  have hi := (List.getElem?_eq_some_iff.mp ht).1
  refine ⟨_, ⟨.conn hconn (.work ht hstep) trivial, by simp⟩, ⟨_, List.getElem?_set_self hm, rfl,
    List.getElem?_set_self hi⟩, rfl, fun m => ?_⟩
  rw [Current, Current, List.length_set]

theorem Has.run (numThreads : UInt16) {ch : Channel State} {t t' : Thread} {es : List Event}
    {shutdown : Bool} (h : Run (Thread.Step P ch shutdown) t es t') (hw : w.Has m i ch t)
    (hshutdown : w.shutdown = shutdown) :
    ∃ w', Run (CarefulStep P numThreads) w (es.map fun e => .conn m (.work i e)) w' ∧
      w'.Has m i ch t' ∧ w'.shutdown = shutdown ∧ ∀ m, w'.Current m ↔ w.Current m := by
  induction h generalizing w with
  | nil t => exact ⟨w, .nil w, hw, hshutdown, fun _ => Iff.rfl⟩
  | cons head tail ih =>
    subst hshutdown
    obtain ⟨w₁, hstep, hw₁, hshutdown₁, hcur₁⟩ := hw.step numThreads head
    obtain ⟨w₂, hrun, hw₂, hshutdown₂, hcur₂⟩ := ih hw₁ hshutdown₁
    exact ⟨w₂, .cons hstep hrun, hw₂, hshutdown₂, fun m => (hcur₂ m).trans (hcur₁ m)⟩

section
variable {conn : Connection} {st₀ : State} {t : Thread}

/-- With a template installed, a thread comes to its check. -/
theorem reaches_check (h : Reachable (Step P numThreads) (· = start) w)
    (hconn : w.connections[m]? = some conn) (hsome : conn.channel.current = some st₀)
    (ht : conn.threads[i]? = some t) (hfinished : t.worker.pc.finished = false) :
    ∃ bs w₁ t₁, Run (CarefulStep P numThreads) w bs w₁ ∧ w₁.Has m i conn.channel t₁ ∧
      t₁.worker.pc = .check ∧ w₁.shutdown = w.shutdown ∧ ∀ m, w₁.Current m ↔ w.Current m := by
  have hsound := sound_of_reachable h m conn hconn
  obtain ⟨es, t₁, hrun, hcheck⟩ := Thread.reaches_check hsound.fed hsome w.shutdown
    (hsound.sees i t ht) hfinished
  have hw : w.Has m i conn.channel t := ⟨conn, hconn, rfl, ht⟩
  obtain ⟨w₁, hrun₁, hw₁, hshutdown, hcur⟩ := hw.run numThreads hrun rfl
  exact ⟨_, w₁, t₁, hrun₁, hw₁, hcheck, hshutdown, hcur⟩

/-- **There it goes on**, whether its manager is there or not. -/
theorem passes_check (h : Reachable (Step P numThreads) (· = start) w)
    (hshutdown : w.shutdown = false) {ch : Channel State} (hsome : ch.current = some st₀)
    (ht : w.Has m i ch t) (hpc : t.worker.pc = .check) :
    ∃ w₁ as w₂ st, CarefulStep P numThreads w (.conn m (.work i (.checked false))) w₁ ∧
      Run (CarefulStep P numThreads) w₁ as w₂ ∧ .conn m (.work i (.tested st)) ∈ as := by
  obtain ⟨conn, hconn, rfl, hi⟩ := id ht
  have hsound := sound_of_reachable h m conn hconn
  obtain ⟨t₁, changed, st, t₂, hcheck, htest⟩ :=
    Thread.passes_check hsome (hsound.sees i t hi) hpc
  rw [← hshutdown] at hcheck
  obtain ⟨w₁, hcheck₁, hw₁, hshutdown₁, -⟩ := ht.step numThreads hcheck
  obtain ⟨w₂, hrun, -⟩ :=
    hw₁.run numThreads htest (hshutdown₁.trans hshutdown)
  rw [hshutdown] at hcheck₁
  exact ⟨w₁, _, w₂, st, hcheck₁, hrun, .tail _ (.head _)⟩

/-- So a manager dropped from a connection that is not idle leaves a worker behind. In `World`, that
is, where every send succeeds: the drop closes the channel too, and in `Process` a worker that is in
`found_block` by then fails and ends. -/
theorem orphan_goes_on (h : Reachable (Step P numThreads) (· = start) w)
    (hshutdown : w.shutdown = false) (hconn : w.connections[m]? = some conn)
    (hidle : ¬ conn.Idle) (hdrop : ¬ w.Current m) :
    ∃ w₁ w₂ as w₃ i st, Reachable (Step P numThreads) (· = start) w₁ ∧ ¬ w₁.Current m ∧
      Step P numThreads w₁ (.conn m (.work i (.checked false))) w₂ ∧
      Run (Step P numThreads) w₂ as w₃ ∧ .conn m (.work i (.tested st)) ∈ as := by
  obtain ⟨hsome, hfinished⟩ := not_or.mp hidle
  obtain ⟨st₀, hst₀⟩ := Option.ne_none_iff_exists'.mp hsome
  push Not at hfinished
  obtain ⟨t, hmem, ht⟩ := hfinished
  obtain ⟨i, hi⟩ := List.getElem?_of_mem hmem
  obtain ⟨bs, w₁, t₁, hrun, hw₁, hpc, hshutdown₁, hcur⟩ :=
    reaches_check h hconn hst₀ hi (by simpa using ht)
  have h₁ := h.run (CarefulStep.run hrun)
  obtain ⟨w₂, as, w₃, st, hcheck, htest, hin⟩ :=
    passes_check h₁ (hshutdown₁.trans hshutdown) hst₀ hw₁ hpc
  exact ⟨w₁, w₂, as, w₃, i, st, h₁, (hcur m).not.mpr hdrop, hcheck.1, CarefulStep.run htest, hin⟩

end

/-! ## One thread and the benchmark's template -/

/-- One connection with one thread and the template, whatever its manager is up to. -/
def benchWorld (main : MainPc) (st : State) : World where
  main := main
  connections := [benchConnection (.start 127) st]
  shutdown := false

theorem bench_run {st : State} (hst : State.new Pow.benchPrims 1 0 Pow.benchBlock = .ok st) :
    Run (CarefulStep Pow.benchPrims 1) start
      [.connect [127], .conn 0 (.process 1 (some Pow.benchBlock))] (benchWorld .listen st) := by
  have hconnect : CarefulStep Pow.benchPrims 1 start (.connect [127])
      { main := .listen, connections := [.new [127]], shutdown := false } :=
    ⟨.connect rfl rfl rfl, by simp⟩
  have hok : (Miner.MinerManager.new.processBlock Pow.benchPrims 1 (some Pow.benchBlock)).2 =
      .ok () := by
    rw [Miner.MinerManager.processBlock_some hst]
  have hprocess : CarefulStep Pow.benchPrims 1
      { main := .listen, connections := [.new [127]], shutdown := false }
      (.conn 0 (.process 1 (some Pow.benchBlock))) (benchWorld .listen st) :=
    ⟨.conn rfl (Miner.bench_install 127 hst) ⟨⟨rfl, rfl⟩, hok⟩, by simp⟩
  exact .cons hconnect (.single hprocess)

/-- Its thread comes to the check while the manager is there. -/
theorem bench_check : ∃ st w t, State.new Pow.benchPrims 1 0 Pow.benchBlock = .ok st ∧
    Reachable (CarefulStep Pow.benchPrims 1) (· = start) w ∧ w.shutdown = false ∧ w.Current 0 ∧
    w.Has 0 0 (Channel.empty.swap (some st)) t ∧ t.worker.pc = .check := by
  obtain ⟨st, hst⟩ := Pow.benchBlock_new 0
  have hreach : Reachable (Step Pow.benchPrims 1) (· = start) (benchWorld .listen st) :=
    ⟨_, _, rfl, CarefulStep.run (bench_run hst)⟩
  obtain ⟨bs, w, t, hrun, hw, hpc, hshutdown, hcur⟩ :=
    reaches_check (m := 0) (i := 0) hreach rfl rfl rfl rfl
  exact ⟨st, w, t, hst, ⟨_, _, rfl, (bench_run hst).append hrun⟩, hshutdown,
    (hcur 0).mpr ⟨rfl, rfl⟩, hw, hpc⟩

/-- The only manager there is has its thread pass the check and test on. -/
theorem worker_current_bench : ∃ w w₁ w₂ as st,
    CarefulStep Pow.benchPrims 1 w (.conn 0 (.work 0 (.checked false))) w₁ ∧
    Run (CarefulStep Pow.benchPrims 1) w₁ as w₂ ∧ .conn 0 (.work 0 (.tested st)) ∈ as ∧
    w.Current 0 := by
  obtain ⟨st, w, t, -, hreach, hshutdown, -, hw, hpc⟩ := bench_check
  obtain ⟨w₀, bs, hstart, hrun₀⟩ := id hreach
  obtain ⟨w₁, as, w₂, st', hcheck, hrun, hin⟩ :=
    passes_check ⟨w₀, bs, hstart, CarefulStep.run hrun₀⟩ hshutdown rfl hw hpc
  exact ⟨w, w₁, w₂, as, st', hcheck, hrun, hin, (worker_current hreach hcheck hrun hin).1⟩

/-- The stream ends with the template installed and the thread at the check, which it passes. -/
theorem worker_not_current : ¬ ∀ (P : Prims) (numThreads : UInt16) (w w₁ w₂ : World) (m i : ℕ)
    (st : State) (as : List Action), Reachable (Step P numThreads) (· = start) w →
    Step P numThreads w (.conn m (.work i (.checked false))) w₁ →
    Run (Step P numThreads) w₁ as w₂ → .conn m (.work i (.tested st)) ∈ as → w.Current m := by
  intro h
  obtain ⟨st, w, t, -, ⟨w₀, bs, hstart, hrun₀⟩, hshutdown, hcur, hw, hpc⟩ := bench_check
  have hdrop : Step Pow.benchPrims 1 w .disconnect { w with main := .connect } :=
    .disconnect hcur.1
  have hreach : Reachable (Step Pow.benchPrims 1) (· = start) { w with main := .connect } :=
    ⟨w₀, _, hstart, (CarefulStep.run hrun₀).snoc hdrop⟩
  obtain ⟨w₁, as, w₂, st', hcheck, hrun, hin⟩ := passes_check hreach hshutdown rfl hw hpc
  exact absurd (h _ _ _ _ _ _ _ _ _ hreach hcheck.1 (CarefulStep.run hrun) hin).1 (by simp)

/-! ## After `main` has returned -/

/-- Once the flag is set, no thread of any connection makes more than 128 tests. -/
theorem tests_after_exit (hrun : Run (Step P numThreads) w as w') (hexit : w.shutdown = true)
    (hm : m < w.connections.length) (i : ℕ) :
    (Miner.tests (Mining.own i (as.filterMap (Action.view m)))).length ≤ 128 :=
  Mining.tests_of_shutdown (mining_run hrun hm) hexit

end World

end KaspaMiner
