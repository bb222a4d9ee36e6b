import KaspaMiner.Proof.Awake
import KaspaMiner.Proof.Process
import KaspaMiner.Session

/-!
# Who can go on

A session runs the threads of `Miner.Threaded`, so what is known of these holds in it
(`Session.Invariant`). What it adds is the one thing a worker outside of the calls has to wait for:
room in the send channel. With that, every reason for which a worker is not going on is listed
(`worker_goes_on`), and for each, but that there is no template yet, there is somebody who can take
a step.
-/

namespace KaspaMiner

open KaspaMiner.Pow (State)
open Miner (Event Threaded Worker WorkerStep)
open Lib (Run)

/-- Whatever is not a send is answered. -/
theorem Link.answers_of_not_sends {l : Link} {e : Event} (h : e.sends = false) : l.Answers e := by
  cases e with
  | sent => exact absurd h (by simp [Event.sends])
  | waited | tested | credited | checked | polled => trivial

theorem Link.after_of_not_sends {l : Link} {e : Event} (h : e.sends = false) : l.after e = l := by
  cases e with
  | sent => exact absurd h (by simp [Event.sends])
  | waited | tested | credited | checked | polled => rfl

namespace Session
variable {Addr : Type} [DecidableEq Addr] {P : Prims} {cfg : Config} {c c' : Session Addr}
  {a : Action Addr} {as : List (Action Addr)}

/-- The channel holds three messages at most, there are no threads before they are started, and the
threads do what `Threaded` lets them do. -/
structure Invariant (P : Prims) (cfg : Config) (c : Session Addr) : Prop where
  sound : c.link.Sound cfg
  waiting : c.main ≠ .listen → c.threaded = .start []
  threads : ∃ nonces bs, Run (Threaded.Step P) (.start nonces) bs c.threaded

theorem Invariant.start : Invariant P cfg (.start cfg : Session Addr) :=
  ⟨.new cfg, fun _ => rfl, [], [], .nil _⟩

theorem Invariant.step (hI : Invariant P cfg c) (h : Step P cfg c a c') : Invariant P cfg c' := by
  cases h with
  | subscribe hmain hready hsend =>
    exact ⟨hI.sound.clientSend hready hsend, fun _ => hI.waiting (by simp [hmain]), hI.threads⟩
  | request hmain hready hsend =>
    exact ⟨hI.sound.clientGetBlockTemplate hready hsend, fun _ => hI.waiting (by simp [hmain]),
      hI.threads⟩
  | @launch nonces hmain hlen =>
    exact ⟨hI.sound, fun h => absurd rfl h, nonces, [], .nil _⟩
  | notified hmain hshutdown hidle hready hsend =>
    exact ⟨hI.sound.clientGetBlockTemplate hready hsend, hI.waiting, hI.threads⟩
  | @conn b threaded hmain hanswers hstep =>
    obtain ⟨nonces, bs, hrun⟩ := hI.threads
    refine ⟨?_, fun h => absurd hmain h, nonces, bs ++ [b], hrun.snoc hstep⟩
    show Link.Sound cfg (b.event.elim c.link c.link.after)
    cases hb : b.event with
    | none => exact hI.sound
    | some e => exact hI.sound.after (hanswers e hb)
  | take hopen hwaiting => exact ⟨hI.sound.take hwaiting, hI.waiting, hI.threads⟩
  | close => exact ⟨hI.sound.close, hI.waiting, hI.threads⟩

theorem Invariant.of_run (h : Run (Step P cfg) (.start cfg) as c) : Invariant P cfg c :=
  h.invariant (fun _ _ _ hI hstep => hI.step hstep) .start

/-! ## Whose step it is -/

/-- The listener is `main`, and the other end of the channel is nobody here. -/
def Action.mover : Action Addr → Option (Option ℕ)
  | conn a => a.mover
  | subscribe | request | launch _ | notified => some none
  | take | close => none

/-- Thread `u` can take a step. -/
def Moves (P : Prims) (cfg : Config) (c : Session Addr) (u : Option ℕ) : Prop :=
  ∃ a c', Action.mover a = some u ∧ Step P cfg c a c'

/-- What is not a send is between the threads. -/
theorem Step.quiet {b : Threaded.Action Addr} {threaded : Threaded Addr} (hmain : c.main = .listen)
    (hsends : b.sends = false) (h : Threaded.Step P c.threaded b threaded) :
    Step P cfg c (.conn b) { c with threaded } := by
  unfold Threaded.Action.sends at hsends
  have hanswers : ∀ e ∈ b.event, c.link.Answers e := by
    intro e he
    rw [Option.mem_def.mp he] at hsends
    exact Link.answers_of_not_sends hsends
  have hlink : b.event.elim c.link c.link.after = c.link := by
    cases he : b.event with
    | none => rfl
    | some e =>
      rw [he] at hsends
      exact Link.after_of_not_sends hsends
  have hstep : Step P cfg c (.conn b) _ := .conn hmain hanswers h
  rwa [hlink] at hstep

theorem moves_of_goesOn {u : Option ℕ} (hmain : c.main = .listen) (h : c.threaded.GoesOn P u) :
    Moves P cfg c u := by
  obtain ⟨b, threaded, hmover, hsends, hstep⟩ := h
  exact ⟨.conn b, _, hmover, .quiet hmain hsends hstep⟩

omit [DecidableEq Addr] in
theorem mover_thread {b : SwapRust.Action State Addr (Option ℕ) (Option ℕ)} {u : Option ℕ}
    (h : Threaded.Action.mover (.cell b) = some u) : b.thread = some u := by
  cases b with
  | spurious => exact absurd h (by simp [Threaded.Action.mover])
  | _ => exact h

/-- A worker with a block to send, and in no call, does nothing else. -/
theorem sent_of_mover {i : ℕ} {w : Worker} {msg : KaspadMessage} {d d' : Threaded Addr}
    {b : Threaded.Action Addr} (h : Threaded.Step P d b d') (hmover : b.mover = some (some i))
    (hw : d.workers[i]? = some w) (hidle : d.cell.pc (some i) = .idle) (hpc : w.pc = .send msg) :
    ∃ ok, b = .work i (.sent msg ok) := by
  cases h with
  | skip | callSwap | log | shutdown => exact absurd hmover (by simp [Threaded.Action.mover])
  | callGet hw' hpc' | callWait hw' hpc' =>
    obtain rfl := Option.some.inj (Option.some.inj hmover)
    obtain rfl := Option.some.inj (hw.symm.trans hw')
    exact absurd (hpc.symm.trans hpc') (by simp)
  | inside hin hcell => exact absurd hidle (hin.ne_idle hcell (mover_thread hmover))
  | returns hreturns =>
    obtain rfl := Option.some.inj (Option.some.inj hmover)
    cases hreturns with
    | getChanged hpc' | waitForChange hpc' => exact absurd (hidle.symm.trans hpc') (by simp)
  | work hw' hidle' hloads hflag hwork =>
    obtain rfl := Option.some.inj (Option.some.inj hmover)
    obtain rfl := Option.some.inj (hw.symm.trans hw')
    obtain ⟨ok, rfl⟩ := Miner.step_of_send hwork hpc
    exact ⟨ok, rfl⟩

/-- **A worker with a block to send goes on exactly when the channel has an answer for it.** -/
theorem moves_send_iff {i : ℕ} {w : Worker} {msg : KaspadMessage} (hmain : c.main = .listen)
    (hw : c.threaded.workers[i]? = some w) (hidle : c.threaded.cell.pc (some i) = .idle)
    (hpc : w.pc = .send msg) : Moves P cfg c (some i) ↔ c.link.Ready := by
  constructor
  · rintro ⟨a, c', hmover, hstep⟩
    cases hstep with
    | conn _ hanswers hstep =>
      obtain ⟨ok, rfl⟩ := sent_of_mover hstep hmover hw hidle hpc
      have hanswer := hanswers _ rfl
      cases ok with
      | true => exact .inr hanswer.2
      | false => exact .inl hanswer
    | subscribe | request | launch | notified | take | close =>
      exact absurd hmover (by simp [Action.mover])
  · intro hready
    have hsend (ok : Bool) (hanswer : c.link.Answers (.sent msg ok)) : Moves P cfg c (some i) := by
      have hstep : Threaded.Step P c.threaded (.work i (.sent msg ok)) _ :=
        .work hw hidle rfl (by simp) (.send hpc)
      refine ⟨.conn (.work i (.sent msg ok)), _, rfl, .conn hmain ?_ hstep⟩
      intro e he
      obtain rfl := Option.some.inj he
      exact hanswer
    cases hclosed : c.link.closed with
    | true => exact hsend false hclosed
    | false => exact hsend true ⟨hclosed, hready.resolve_left (by simp [hclosed])⟩

/-- **No worker sleeps through a template, and with a template there is always somebody who goes
on.** In every state that a session can get to, a worker that has not ended is parked only as long
as there is no template, or as the listener, who has stored one, has not notified yet; and then the
listener can take a step, or whoever has the mutex. A worker that is not parked can take a step; or
it waits for the mutex in `wait_for_change`, and whoever has that can take a step; or it has a block
to send and three messages are waiting in the channel, and the other end, which is still there, can
take one out and make room. -/
theorem worker_goes_on (h : Run (Step P cfg) (.start cfg) as c) {i : ℕ} {w : Worker}
    (hw : c.threaded.workers[i]? = some w) (hends : w.pc.finished = false) :
    (∀ x, c.threaded.cell.pc (some i) = .parked x → w.state = none ∧
      (c.threaded.cell.inner = none ∨
        (∃ old, c.threaded.cell.pc none = .swapLock old ∨
          c.threaded.cell.pc none = .swapNotify old) ∧
        (Moves P cfg c none ∨ ∃ u, c.threaded.cell.waitMutex = some u ∧ Moves P cfg c u))) ∧
    ((∀ x, c.threaded.cell.pc (some i) ≠ .parked x) →
      Moves P cfg c (some i) ∨
      (∃ u, c.threaded.cell.pc (some i) = .waitLock (some i) ∧
        c.threaded.cell.waitMutex = some u ∧ Moves P cfg c u) ∨
      ∃ msg c', w.pc = .send msg ∧ c.link.closed = false ∧
        c.link.sent.length = c.link.taken + 3 ∧ Step P cfg c .take c' ∧ c'.link.Room) := by
  have hI := Invariant.of_run h
  obtain ⟨nonces, bs, hrun⟩ := hI.threads
  -- Before `main` listens there are no workers.
  have hmain : c.main = .listen := by
    by_contra hne
    rw [hI.waiting hne] at hw
    exact absurd hw (by simp [Threaded.start])
  refine ⟨fun x hpc => ?_, fun hpark => ?_⟩
  · obtain ⟨hstate, hinner | ⟨hlistener, hmoves⟩⟩ := Miner.parked_only hrun hw hpc
    · exact ⟨hstate, .inl hinner⟩
    · refine ⟨hstate, .inr ⟨hlistener, ?_⟩⟩
      rcases hmoves with hself | ⟨u, hmutex, hholder⟩
      · exact .inl (moves_of_goesOn hmain hself)
      · exact .inr ⟨u, hmutex, moves_of_goesOn hmain hholder⟩
  rcases Miner.goes_on_or_sends hrun hw hends hpark with hself | ⟨u, hpc, hmutex, hholder⟩ |
    ⟨hidle, msg, hpc⟩
  · exact .inl (moves_of_goesOn hmain hself)
  · exact .inr (.inl ⟨u, hpc, hmutex, moves_of_goesOn hmain hholder⟩)
  -- It sends, if the channel has an answer. If not, the channel is open and full.
  · by_cases hready : c.link.Ready
    · exact .inl ((moves_send_iff hmain hw hidle hpc).mpr hready)
    · have hopen : c.link.closed = false := by
        cases hclosed : c.link.closed with
        | true => exact absurd (.inl hclosed) hready
        | false => rfl
      have hfull : c.link.sent.length = c.link.taken + 3 :=
        Nat.le_antisymm hI.sound.bound (Nat.not_lt.mp fun hroom => hready (.inr hroom))
      refine .inr (.inr ⟨msg, _, hpc, hopen, hfull, .take hopen (by omega), ?_⟩)
      show c.link.sent.length < c.link.taken + 1 + 3
      omega

/-- The threads run, and nothing is sent. -/
theorem quiet_run {bs : List (Threaded.Action Addr)} {threaded : Threaded Addr}
    (hmain : c.main = .listen) (hsends : ∀ b ∈ bs, b.sends = false)
    (h : Run (Threaded.Step P) c.threaded bs threaded) :
    Run (Step P cfg) c (bs.map .conn) { c with threaded } := by
  generalize hd : c.threaded = d at h
  induction h generalizing c with
  | nil => exact hd ▸ .nil _
  | cons head tail ih =>
    subst hd
    exact .cons (.quiet hmain (hsends _ List.mem_cons_self) head)
      (ih (c := { c with threaded := _ }) hmain (fun b hb => hsends b (List.mem_cons_of_mem _ hb))
        rfl)

/-- Two workers. One goes to sleep before `swap` stores, the other one has solved the template
before `swap` notifies. -/
def benchThreads (st : State) : List (Threaded.Action ℕ) :=
  [.process 1 (some Pow.benchBlock), .cell (.callWait (some 1) (some 1)), .cell (.lock (some 1)),
    .cell (.load (some 1)), .cell (.compare (some 1) false), .cell (.park (some 1)),
    .cell (.store none), .cell (.callWait (some 0) (some 0)), .cell (.lock (some 0)),
    .cell (.load (some 0)), .cell (.compare (some 0) true), .work 0 (.waited (some st)),
    .work 0 (.tested { st with nonce := 127 })]

theorem benchThreads_run {st : State}
    (hst : State.new Pow.solvingPrims 1 0 Pow.benchBlock = .ok st) : ∃ d : Threaded ℕ,
    Run (Threaded.Step Pow.solvingPrims) (.start [127, 5]) (benchThreads st) d ∧
      d.workers = [Miner.solver st 127, .start 5] ∧ d.cell.pc (some 0) = .idle ∧
      d.cell.pc (some 1) = .parked (some 1) ∧ d.cell.inner = some ⟨16, st, 0⟩ := by
  let arc : SwapRust.Arc State ℕ := ⟨16, st, 0⟩
  have hprepare : Miner.prepare Pow.solvingPrims 1 true 0 (some Pow.benchBlock) =
      ((true, 0 + 1), some ((some arc).map SwapRust.Arc.val)) := by
    simp only [Miner.prepare, hst]
    rfl
  have hswap : SwapRust.Step (Threaded.start [127, 5] : Threaded ℕ).cell
      (.callSwap none (some arc)) _ :=
    .callSwap rfl fun arc' harc => by
      rw [← Option.some.inj harc]
      exact ⟨rfl, fun b hb => absurd hb (Threaded.start_not_owned [127, 5] b)⟩
  have hprocess : Run (Threaded.Step Pow.solvingPrims) (.start [127, 5])
      [.process 1 (some Pow.benchBlock)] _ := .single (.callSwap hprepare hswap)
  obtain ⟨_, _, _, _, -, hA, -⟩ := Miner.answers_of_run hprocess
  have hsleep : Run (Threaded.Step Pow.solvingPrims) (.start [127, 5])
      [.process 1 (some Pow.benchBlock), .cell (.callWait (some 1) (some 1)),
        .cell (.lock (some 1)), .cell (.load (some 1)), .cell (.compare (some 1) false),
        .cell (.park (some 1)), .cell (.store none)] _ :=
    hprocess.append <| .cons (.callWait rfl rfl rfl (.callWait rfl rfl (hA.roles.free rfl))) <|
    .cons (.inside (.lock _) (.lock (.wait (some 1)) rfl)) <|
    .cons (.inside (.load _) (.load rfl)) <|
    .cons (.inside (.compare rfl false) (.compare rfl rfl rfl)) <|
    .cons (.inside (.park _) (.park rfl)) <| .single (.inside (.store none) (.store rfl))
  obtain ⟨_, _, _, _, -, hA', -⟩ := Miner.answers_of_run hsleep
  have hcall : Run (Threaded.Step Pow.solvingPrims) (.start [127, 5])
      [.process 1 (some Pow.benchBlock), .cell (.callWait (some 1) (some 1)),
        .cell (.lock (some 1)), .cell (.load (some 1)), .cell (.compare (some 1) false),
        .cell (.park (some 1)), .cell (.store none), .cell (.callWait (some 0) (some 0)),
        .cell (.lock (some 0)), .cell (.load (some 0)), .cell (.compare (some 0) true)] _ :=
    hsleep.append <| .cons (.callWait rfl rfl rfl (.callWait rfl rfl (hA'.roles.free rfl))) <|
    .cons (.inside (.lock _) (.lock (.wait (some 0)) rfl)) <|
    .cons (.inside (.load _) (.load rfl)) <|
    .single (.inside (.compare rfl true) (.compare rfl rfl rfl))
  have hunlocks : SwapRust.Unlocks (.waitUnlock (some 0) : SwapRust.Pc State ℕ (Option ℕ)) [] :=
    .wait (some 0)
  have hreturn := hcall.snoc <| .returns (i := 0) (w := .start 127) (.waitForChange rfl rfl)
    (.unlock hunlocks) rfl (.wait rfl rfl)
  have hrun := hreturn.snoc <| .work (i := 0) rfl rfl rfl (by simp)
    (Miner.solving_tested hst 127 st.nonce)
  exact ⟨_, hrun, rfl, rfl, rfl, rfl⟩

def benchConfig : Config := { Process.benchConfig with numThreads := 2 }

/-- What `main` does before. Its second request makes three messages in the channel. -/
def benchActions (st : State) : List (Action ℕ) :=
  [.subscribe, .take, .request, .launch [127, 5]] ++ (benchThreads st).map .conn

theorem bench_run {st : State} {d : Threaded ℕ}
    (hd : Run (Threaded.Step Pow.solvingPrims) (.start [127, 5]) (benchThreads st) d) :
    ∃ l, ¬ l.Ready ∧ Run (Step Pow.solvingPrims benchConfig) (.start benchConfig) (benchActions st)
      { main := .listen, link := l, threaded := d } := by
  have hmain : Run (Step Pow.solvingPrims benchConfig) (.start benchConfig : Session ℕ)
      [.subscribe, .take, .request, .launch [127, 5]] _ :=
    .cons (.subscribe rfl (.inr (Nat.lt_succ_self 2)) rfl) <|
    .cons (.take rfl (Nat.succ_pos 2)) <|
    .cons (.request rfl (.inr (Nat.lt_succ_self 3)) rfl) <| .single (.launch rfl rfl)
  have hquiet : ∀ b ∈ benchThreads st, b.sends = false := by
    simp [benchThreads, Threaded.Action.sends, Threaded.Action.event, Event.sends]
  refine ⟨_, ?_, hmain.append (quiet_run rfl hquiet hd)⟩
  rintro (hclosed | hroom)
  · exact Bool.false_ne_true hclosed
  · exact Nat.lt_irrefl 4 hroom

/-- One worker sleeps, and the listener is on its way to wake it up; the other one has a block to
send, and the channel is full. -/
theorem worker_goes_on_bench : ∃ st c, State.new Pow.solvingPrims 1 0 Pow.benchBlock = .ok st ∧
    Run (Step Pow.solvingPrims benchConfig) (.start benchConfig) (benchActions st) c ∧
    c.threaded.cell.inner = some ⟨16, st, 0⟩ ∧ c.threaded.cell.pc (some 1) = .parked (some 1) ∧
    (∃ old, c.threaded.cell.pc none = .swapLock old ∨ c.threaded.cell.pc none = .swapNotify old) ∧
    (Moves Pow.solvingPrims benchConfig c none ∨
      ∃ u, c.threaded.cell.waitMutex = some u ∧ Moves Pow.solvingPrims benchConfig c u) ∧
    c.threaded.workers[0]? = some (Miner.solver st 127) ∧
    ¬ Moves Pow.solvingPrims benchConfig c (some 0) ∧ c.link.sent.length = c.link.taken + 3 ∧
    ∃ c', Step Pow.solvingPrims benchConfig c .take c' ∧ c'.link.Room := by
  obtain ⟨st, hst⟩ := Pow.solving_new 0
  obtain ⟨d, hd, hworkers, hidle, hparked, hinner⟩ := benchThreads_run hst
  obtain ⟨l, hfull, hrun⟩ := bench_run hd
  have hw₀ : d.workers[0]? = some (Miner.solver st 127) := by
    rw [hworkers]
    rfl
  have hw₁ : d.workers[1]? = some (.start 5) := by
    rw [hworkers]
    rfl
  obtain ⟨-, hsleep⟩ := (worker_goes_on hrun hw₁ rfl).1 (some 1) hparked
  obtain ⟨hlistener, hwakes⟩ := hsleep.resolve_left (by simp [hinner])
  have hstuck : ¬ Moves Pow.solvingPrims benchConfig { main := .listen, link := l, threaded := d }
      (some 0) := fun h => hfull ((moves_send_iff rfl hw₀ hidle rfl).mp h)
  rcases (worker_goes_on hrun hw₀ rfl).2 (by simp [hidle]) with hmoves | ⟨u, hpc, -⟩ |
    ⟨msg, c', -, -, hthree, htake, hroom⟩
  · exact absurd hmoves hstuck
  · exact absurd (hidle.symm.trans hpc) (by simp)
  · exact ⟨st, _, hst, hrun, hinner, hparked, hlistener, hwakes, hw₀, hstuck, hthree, c', htake,
      hroom⟩

end Session

end KaspaMiner
