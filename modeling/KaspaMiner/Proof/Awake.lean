import KaspaMiner.Proof.Interleaving
import KaspaMiner.Proof.Submits
import KaspaMiner.Proof.Swap.Wakeup

/-!
# The workers over the code of `WatchSwap`

What a worker sends over the code it also sends in the connection that answers it, so it is right
for the same reasons (`threaded_worker_run`). Whether it gets to send anything is a question the
answering connection cannot be asked, as nobody ever sleeps there: over the code, a worker is only
ever parked when there is no template to work on, or the listener is on its way to wake it up
(`parked_only`).
-/

namespace KaspaMiner
namespace Miner

open KaspaMiner.Pow (State)
open SwapRust (Inv)
open Lib (Run Reachable)

variable {Addr : Type} [DecidableEq Addr] {P : Prims} {nonces : List UInt64} {c : Threaded Addr}
  {as : List (Threaded.Action Addr)} {i : ℕ} {w : Worker}

/-! ## The cell -/

namespace Threaded

theorem Step.cell {c c' : Threaded Addr} {a : Action Addr} (h : Step P c a c') :
    c'.cell = c.cell ∨ ∃ b, SwapRust.Step c.cell b c'.cell := by
  cases h with
  | skip | work | log | shutdown => exact .inl rfl
  | callSwap hprepare hcell => exact .inr ⟨_, hcell⟩
  | callGet hw hpc hcell => exact .inr ⟨_, hcell⟩
  | callWait hw hpc hstate hcell => exact .inr ⟨_, hcell⟩
  | inside hinside hcell => exact .inr ⟨_, hcell⟩
  | returns hreturns hcell => exact .inr ⟨_, hcell⟩

theorem cell_reachable (h : Run (Step P) (start nonces) as c) :
    Reachable SwapRust.Step SwapRust.Init c.cell := by
  refine h.invariant (I := fun c => Reachable SwapRust.Step SwapRust.Init c.cell) ?_
    ⟨_, _, SwapRust.empty_init none, cloned_run nonces.length⟩
  intro c a c' hreach hstep
  rcases hstep.cell with hsame | ⟨b, hb⟩
  · rw [hsame]
    exact hreach
  · exact hreach.run (.single hb)

/-- Whose step it is. A spurious wake-up is nobody's. -/
def Action.mover : Action Addr → Option (Option ℕ)
  | process _ _ => some none
  | cell (.spurious _) => none
  | cell a => a.thread
  | work i _ => some (some i)
  | log _ | shutdown => none

omit [DecidableEq Addr] in
theorem Action.mover_cell {a : SwapRust.Action State Addr (Option ℕ) (Option ℕ)}
    (h : a.isProgress = true) : (cell a).mover = a.thread := by
  cases a with
  | spurious => exact absurd h (by simp [SwapRust.Action.isProgress])
  | _ => rfl

end Threaded

/-! ## What the workers do -/

/-- One of the templates. -/
def Taken (ps : List (ℕ × Option RpcBlock)) (b : RpcBlock) : Prop := ∃ fuel, (fuel, some b) ∈ ps

theorem Taken.append {ps : List (ℕ × Option RpcBlock)} {b : RpcBlock} (h : Taken ps b)
    (qs : List (ℕ × Option RpcBlock)) : Taken (ps ++ qs) b := by
  obtain ⟨fuel, hmem⟩ := h
  exact ⟨fuel, List.mem_append_left _ hmem⟩

namespace Mining
variable {s : Mining} {bs : List Action}

theorem processed_append (as bs : List Action) :
    processed (as ++ bs) = processed as ++ processed bs :=
  List.filterMap_append ..

theorem from_of_run (h : Run (Step P) { conn := .new nonces, shutdown := false } bs s) :
    s.conn.From P (Taken (processed bs)) := by
  refine h.history (Q := fun bs s => s.conn.From P (Taken (processed bs))) (.new nonces) ?_
  intro bs s a s' _ ih hstep
  rw [processed_append]
  have hfrom := ih.mono fun b hb => hb.append (processed [a])
  cases hstep with
  | shutdown => exact hfrom
  | conn hstep =>
    refine hfrom.step hstep fun fuel b heq => ⟨fuel, List.mem_append_right _ ?_⟩
    rw [heq]
    exact List.mem_singleton.mpr rfl

theorem solved_of_run (h : Run (Step P) { conn := .new nonces, shutdown := false } bs s)
    {msg : KaspadMessage} {ok : Bool} (hmem : .sent msg ok ∈ own i bs) :
    Solved P (Taken (processed bs)) msg := by
  refine h.history (Q := fun bs _ => .sent msg ok ∈ own i bs → Solved P (Taken (processed bs)) msg)
    (fun hmem => absurd hmem (by simp [own])) ?_ hmem
  intro bs s a s' hrun ih hstep hmem
  rw [own_append] at hmem
  rw [processed_append]
  have hmono (b : RpcBlock) (hb : Taken (processed bs) b) := hb.append (processed [a])
  rcases List.mem_append.mp hmem with hold | hnew
  · exact (ih hold).mono hmono
  · rcases hstep.thread i with ⟨e, t, t', rfl, ht, -, hthread⟩ | ⟨hown, -⟩
    · rw [own_work, if_pos rfl] at hnew
      obtain rfl := List.mem_singleton.mp hnew
      cases hthread with
      | mk hworker => exact ((from_of_run hrun).solved i t msg ht (pc_of_sent hworker)).mono hmono
    · rw [own, List.filterMap_cons_none hown] at hnew
      exact absurd hnew (by simp)

end Mining

namespace Threaded

omit [DecidableEq Addr] in
theorem own_append (i : ℕ) (as bs : List (Action Addr)) : own i (as ++ bs) = own i as ++ own i bs :=
  List.filterMap_append ..

/-- A worker moves by its own actions only. -/
theorem Step.worker {c c' : Threaded Addr} {a : Action Addr} (h : Step P c a c') (i : ℕ) :
    (∃ e w w', a = .work i e ∧ c.workers[i]? = some w ∧ c'.workers[i]? = some w' ∧
      WorkerStep P w e w') ∨
    a.own i = none ∧ c'.workers[i]? = c.workers[i]? := by
  cases h with
  | @returns j a e w w' cell hreturns hcell hw hwork =>
    by_cases hj : j = i
    · subst hj
      have hlt : j < c.workers.length := (List.getElem?_eq_some_iff.mp hw).1
      exact .inl ⟨e, w, w', rfl, hw, List.getElem?_set_self hlt, hwork⟩
    · exact .inr ⟨if_neg hj, List.getElem?_set_ne hj⟩
  | @work j e w w' hw hidle hloads hflag hwork =>
    by_cases hj : j = i
    · subst hj
      have hlt : j < c.workers.length := (List.getElem?_eq_some_iff.mp hw).1
      exact .inl ⟨e, w, w', rfl, hw, List.getElem?_set_self hlt, hwork⟩
    · exact .inr ⟨if_neg hj, List.getElem?_set_ne hj⟩
  | skip | callSwap | callGet | callWait | inside | log | shutdown => exact .inr ⟨rfl, rfl⟩

theorem worker_of_run (h : Run (Step P) (start nonces) as c) (hw : c.workers[i]? = some w) :
    ∃ nonce, nonces[i]? = some nonce ∧ Run (WorkerStep P) (.start nonce) (own i as) w := by
  refine h.history (Q := fun as c => ∀ w, c.workers[i]? = some w →
    ∃ nonce, nonces[i]? = some nonce ∧ Run (WorkerStep P) (.start nonce) (own i as) w) ?_ ?_ w hw
  · intro w hw
    obtain ⟨nonce, hnonce, rfl⟩ := Option.map_eq_some_iff.mp ((List.getElem?_map ..).symm.trans hw)
    exact ⟨nonce, hnonce, .nil _⟩
  · intro as c a c' _ ih hstep w' hw'
    rw [own_append]
    rcases hstep.worker i with ⟨e, w, w₁, rfl, hw, hw₁, hwork⟩ | ⟨hown, hsame⟩
    · obtain rfl : w' = w₁ := Option.some.inj (hw'.symm.trans hw₁)
      obtain ⟨nonce, hnonce, hrun⟩ := ih w hw
      rw [own_work, if_pos rfl]
      exact ⟨nonce, hnonce, hrun.snoc hwork⟩
    · rw [hsame] at hw'
      rw [own, own, List.filterMap_cons_none hown, List.filterMap_nil, List.append_nil]
      exact ih w' hw'

end Threaded

/-- **What a worker does over the code**, however its calls are interleaved with those of the
others. Its tests go through the nonces one after the other, without a gap; each message it sends
is one of the templates with a nonce that satisfies its target; unless a send fails, what it found
is what it sent and what it is about to send; and it does not panic. -/
theorem threaded_worker_run (h : Run (Threaded.Step P) (.start nonces) as c)
    (hw : c.workers[i]? = some w) :
    ∃ nonce, nonces[i]? = some nonce ∧
      (∀ k st, (tests (Threaded.own i as))[k]? = some st → st.nonce = nonce + UInt64.ofNat k) ∧
      (∀ msg ok, .sent msg ok ∈ Threaded.own i as → Solved P (Taken (Threaded.processed as)) msg) ∧
      ((∀ msg, .sent msg false ∉ Threaded.own i as) →
        found P (Threaded.own i as) = handed (Threaded.own i as) ++ w.pc.holding) ∧
      ∀ p, w.pc ≠ .panicked p := by
  obtain ⟨nonce, hnonce, hrun⟩ := Threaded.worker_of_run h hw
  obtain ⟨bs, s, ahead, pend, hbs, hA, hK⟩ := answers_of_run h
  have hown : Mining.own i bs = Threaded.own i as ++ ahead i := hK.own i
  have hprocessed : Threaded.processed as = Mining.processed bs ++ pend := hK.processed
  -- The other connection has told its worker the same, and a little more.
  have hfed : ∀ e ∈ Threaded.own i as, e.Fed P := by
    intro e he
    have hM := hA.threads i
    rw [hw] at hM
    generalize ht : s.conn.threads[i]? = t? at hM
    generalize ahead i = es at hM
    cases hM with
    | both =>
      obtain ⟨-, -, hfed⟩ := Mining.thread_run ⟨nonces, rfl⟩ hbs ht
      exact hfed e (hown ▸ List.mem_append_left _ he)
  have hI := WorkerInv.of_run hrun hfed
  refine ⟨nonce, hnonce, hI.tested, ?_, found_run hrun hfed, hI.panicked⟩
  intro msg ok hmem
  rw [hprocessed]
  exact (Mining.solved_of_run hbs (hown ▸ List.mem_append_left _ hmem)).mono
    fun b hb => hb.append pend

/-- One worker gets a template, solves it at its first nonce, and has the block to send. -/
theorem threaded_worker_run_bench : ∃ st c, State.new Pow.solvingPrims 1 0 Pow.benchBlock = .ok st ∧
    Run (Threaded.Step Pow.solvingPrims) (.start [5])
      (benchCalls st ++ [.work 0 (.tested { st with nonce := 5 })]) c ∧
    (∃ nonce, [(5 : UInt64)][0]? = some nonce ∧
      ∀ k st', [{ st with nonce := 5 }][k]? = some st' → st'.nonce = nonce + UInt64.ofNat k) ∧
    found Pow.solvingPrims [.waited (some st), .tested { st with nonce := 5 }] =
      [.submitBlock (Pow.benchBlock.withNonce 5)] ∧
    ∃ w, c.workers[0]? = some w ∧ ∀ p, w.pc ≠ .panicked p := by
  obtain ⟨st, hst⟩ := Pow.solving_new 0
  obtain ⟨c, hcalls, hworkers, hidle, -⟩ := benchCalls_run hst 5
  have hw : c.workers[0]? = some { nonce := 5, state := some st, pc := .top } := by
    rw [hworkers]
    rfl
  have hrun := hcalls.snoc <| .work hw hidle rfl (by simp) (solving_tested hst 5 st.nonce)
  have hw' : (c.workers.set 0 (solver st 5))[0]? = some (solver st 5) := by
    rw [hworkers]
    rfl
  obtain ⟨nonce, hnonce, htested, -, hfound, hpanic⟩ := threaded_worker_run hrun hw'
  have hsent : ∀ msg, .sent msg false ∉
      Threaded.own 0 (benchCalls st ++ [.work 0 (.tested { st with nonce := 5 })]) := by
    simp [Threaded.own, benchCalls, Threaded.Action.own]
  exact ⟨st, _, hst, hrun, ⟨nonce, hnonce, htested⟩, hfound hsent, _, hw', hpanic⟩

/-! ## Nobody sleeps through a template -/

section
variable {s : Mining} {ahead : ℕ → List Event} {pend : List (ℕ × Option RpcBlock)}

omit [DecidableEq Addr] in
/-- Whoever is in a call is a worker. -/
theorem Matches.follows {c : Cell Addr} {w? : Option Worker} {t? : Option Thread} {es : List Event}
    (hM : Matches P c i w? t? es) (hpc : c.pc (some i) ≠ .idle) :
    ∃ w t, w? = some w ∧ t? = some t ∧ Follows P c i w t es := by
  cases hM with
  | both hF => exact ⟨_, _, rfl, rfl, hF⟩
  | neither hidle => exact absurd hidle hpc

omit [DecidableEq Addr] in
/-- A worker that is parked has no template, and saw none. -/
theorem Answers.parked (hA : Answers P c s ahead pend) (hsees : s.conn.Sees) {x : Option ℕ}
    (hpc : c.cell.pc (some i) = .parked x) :
    x = some i ∧ (∃ w, c.workers[i]? = some w ∧ w.pc = .top ∧ w.state = none) ∧
      ∃ hd, c.cell.handles (some i) = some hd ∧ hd.cached = none := by
  obtain ⟨rfl, -⟩ := hA.roles.handle (some i) x (by rw [hpc]; rfl)
  obtain ⟨w, t, hw, ht, hF⟩ := (hA.threads i).follows (by simp [hpc])
  generalize ahead i = es at hF
  cases hF with
  | owes howes =>
    cases howes with
    | same hp | changed hp | compare hp | unlock hp => exact absurd (hpc.symm.trans hp) (by simp)
  | @rest hd hrest hh hworker halike =>
    cases hrest with
    | idle hp | getChanged hp => exact absurd (hpc.symm.trans hp) (by simp)
    | waitForChange hwait hwpc hstate =>
      refine ⟨rfl, ⟨w, hw, hwpc, hstate⟩, hd, hh, ?_⟩
      have hmap := (hsees i t ht).state
      rw [hworker, hstate, hA.channel] at hmap
      have hnone : (SwapRust.channel c.cell).content t.seen = none :=
        Option.map_eq_none_iff.mp hmap.symm
      have hcontent := SwapRust.channel_content hA.inv.installs (hA.inv.sees.handle _ hd hh).1
      rw [halike.content, hnone] at hcontent
      exact Option.map_eq_none_iff.mp hcontent.symm

def Event.sends : Event → Bool
  | sent _ _ => true
  | _ => false

def Threaded.Action.sends (a : Threaded.Action Addr) : Bool := a.event.elim false Event.sends

/-- Thread `u` can take a step for which nothing has to be sent. -/
def Threaded.GoesOn (P : Prims) (c : Threaded Addr) (u : Option ℕ) : Prop :=
  ∃ b c', Threaded.Action.mover b = some u ∧ b.sends = false ∧ Threaded.Step P c b c'

/-- **Inside a call**: what can go on in the cell can go on in the connection. -/
theorem Answers.goes_on (hA : Answers P c s ahead pend) {t : Option ℕ} {cell : Cell Addr}
    {a : SwapRust.Action State Addr (Option ℕ) (Option ℕ)} (h : SwapRust.Step c.cell a cell)
    (ha : a.isProgress = true) (ht : a.thread = some t) : c.GoesOn P t := by
  have hinside (hin : Threaded.Inside c.cell a) : c.GoesOn P t :=
    ⟨_, _, (Threaded.Action.mover_cell ha).trans ht, rfl, .inside hin h⟩
  cases a with
  | store u => exact hinside (.store u)
  | lock u => exact hinside (.lock u)
  | notify u => exact hinside (.notify u)
  | load u => exact hinside (.load u)
  | park u => exact hinside (.park u)
  | unlock u =>
    obtain rfl : u = t := Option.some.inj ht
    have hunlocks : ∃ ret, SwapRust.Unlocks (c.cell.pc u) ret := by
      cases h with
      | unlock hpc => exact ⟨_, hpc⟩
    obtain ⟨ret, hunlocks⟩ := hunlocks
    generalize hq : c.cell.pc u = q at hunlocks
    cases hunlocks with
    | swap old => exact hinside (.unlock hq)
    -- With this unlock `wait_for_change` returns, and the worker takes what it returns.
    | wait x =>
      obtain ⟨rfl, hne⟩ := hA.roles.handle u x (by rw [hq]; rfl)
      obtain ⟨j, rfl⟩ := Option.ne_none_iff_exists'.mp hne
      obtain ⟨w, t, hw, -, hF⟩ := (hA.threads j).follows (by simp [hq])
      generalize ahead j = es at hF
      cases hF with
      | rest hrest =>
        cases hrest with
        | idle hp | getChanged hp => exact absurd (hq.symm.trans hp) (by simp)
        | waitForChange hwait =>
          cases hwait with
          | lock hp | load hp | same hp | park hp | parked hp =>
            exact absurd (hq.symm.trans hp) (by simp)
      | owes howes hwork =>
        cases howes with
        | same hp | changed hp | compare hp => exact absurd (hq.symm.trans hp) (by simp)
        | unlock hp hh => exact ⟨_, _, rfl, rfl, .returns (.waitForChange hq hh) h hw hwork⟩
  | compare u changed =>
    obtain rfl : u = t := Option.some.inj ht
    have hcompare : ∃ caller x guard pos, c.cell.pc u = .compare caller x guard pos := by
      cases h with
      | compare hpc => exact ⟨_, _, _, _, hpc⟩
    obtain ⟨caller, x, guard, pos, hq⟩ := hcompare
    cases caller with
    | waitForChange => exact hinside (.compare hq changed)
    -- And with this comparison `get_changed` does, whose caller polls.
    | getChanged =>
      obtain ⟨rfl, hne⟩ := hA.roles.handle u x (by rw [hq]; rfl)
      obtain ⟨j, rfl⟩ := Option.ne_none_iff_exists'.mp hne
      obtain ⟨w, t, hw, -, hF⟩ := (hA.threads j).follows (by simp [hq])
      generalize ahead j = es at hF
      have hpoll : w.pc = .poll := by
        cases hF with
        | rest hrest =>
          cases hrest with
          | idle hp | getChanged hp => exact absurd (hq.symm.trans hp) (by simp)
          | waitForChange hwait =>
            cases hwait with
            | lock hp | load hp | same hp | park hp | parked hp =>
              exact absurd (hq.symm.trans hp) (by simp)
        | owes howes hwork =>
          cases howes with
          | compare hp | unlock hp => exact absurd (hq.symm.trans hp) (by simp)
          | same | changed =>
            generalize t.worker = w' at hwork
            cases hwork with
            | poll hpc => exact hpc
      exact ⟨_, _, rfl, rfl, .returns (.getChanged hq changed) h hw (.poll hpoll)⟩
  | callSwap | callGet | callWait | spurious | clone | dropHandle | dropReturned =>
    exact absurd ha (by simp [SwapRust.Action.isProgress])

/-- **Outside of the calls**: a worker that has not ended can do the next thing, if that is not to
send. -/
theorem Answers.begins_or_works (hA : Answers P c s ahead pend) (hw : c.workers[i]? = some w)
    (hpc : c.cell.pc (some i) = .idle) (hends : w.pc.finished = false)
    (hsend : ∀ msg, w.pc ≠ .send msg) : c.GoesOn P (some i) := by
  have hwork {e : Event} {w' : Worker} (h : WorkerStep P w e w') (hsends : e.sends = false)
      (hloads : e.loads = false)
      (hflag : ∀ isShutdown, e = .checked isShutdown → isShutdown = c.shutdown) :
      c.GoesOn P (some i) :=
    ⟨.work i e, _, rfl, hsends, .work hw hpc hloads hflag h⟩
  have hhandle : ∃ hd, c.cell.handles (some i) = some hd := by
    have hM := hA.threads i
    rw [hw] at hM
    generalize s.conn.threads[i]? = t? at hM
    generalize ahead i = es at hM
    cases hM with
    | both hF =>
      obtain ⟨-, -, hd, hh, -⟩ := hF.idle hpc
      exact ⟨hd, hh⟩
  obtain ⟨hd, hh⟩ := hhandle
  have hfree := hA.roles.free hpc
  cases hwpc : w.pc with
  | top =>
    cases hstate : w.state with
    | none => exact ⟨_, _, rfl, rfl, .callWait hw hwpc hstate (.callWait hpc hh hfree)⟩
    | some st => exact hwork (.test hwpc hstate) rfl rfl (by simp)
  | send msg => exact absurd hwpc (hsend msg)
  | credit => exact hwork (.credit hwpc) rfl rfl (by simp)
  | check => exact hwork (.check hwpc) (e := .checked c.shutdown) rfl rfl (by simp)
  | poll => exact ⟨_, _, rfl, rfl, .callGet hw hwpc (.callGet hpc hh hfree)⟩
  | done | failed | panicked => exact absurd hends (by simp [hwpc, WorkerPc.finished])

/-- Whoever has the mutex goes on, as it is not parked and does not have to wait for it. -/
theorem Answers.holder_goes_on (hA : Answers P c s ahead pend) {u : Option ℕ}
    (hm : c.cell.waitMutex = some u) : c.GoesOn P u := by
  have hlocked := (hA.inv.held u).mpr hm
  have hidle : c.cell.pc u ≠ .idle := by
    intro he
    rw [he] at hlocked
    exact absurd hlocked (by simp [SwapRust.Pc.locked])
  have hpark : ∀ x, c.cell.pc u ≠ .parked x := by
    intro x he
    rw [he] at hlocked
    exact absurd hlocked (by simp [SwapRust.Pc.locked])
  obtain ⟨a, cell, ha, hau, hstep⟩ := SwapRust.exists_progress hA.inv hidle hpark (.inl hlocked)
  exact hA.goes_on hstep ha hau

/-- The listener in `swap` goes on, or whoever has the mutex. -/
theorem Answers.swap_goes_on (hA : Answers P c s ahead pend)
    (hswap : (c.cell.pc none).swapping = true) :
    c.GoesOn P none ∨ ∃ u, c.cell.waitMutex = some u ∧ c.GoesOn P u := by
  have hidle : c.cell.pc none ≠ .idle := by
    intro he
    rw [he] at hswap
    exact absurd hswap (by simp [SwapRust.Pc.swapping])
  have hpark : ∀ x, c.cell.pc none ≠ .parked x := by
    intro x he
    rw [he] at hswap
    exact absurd hswap (by simp [SwapRust.Pc.swapping])
  cases hm : c.cell.waitMutex with
  | none =>
    obtain ⟨a, cell, ha, hau, hstep⟩ := SwapRust.exists_progress hA.inv hidle hpark (.inr hm)
    exact .inl (hA.goes_on hstep ha hau)
  | some u => exact .inr ⟨u, rfl, hA.holder_goes_on hm⟩

/-- A call that is not parked goes on, or waits for the mutex, and whoever has it goes on. -/
theorem Answers.call_goes_on (hA : Answers P c s ahead pend) (hidle : c.cell.pc (some i) ≠ .idle)
    (hpark : ∀ x, c.cell.pc (some i) ≠ .parked x) :
    c.GoesOn P (some i) ∨
    ∃ u, c.cell.pc (some i) = .waitLock (some i) ∧ c.cell.waitMutex = some u ∧ c.GoesOn P u := by
  have hI := hA.inv
  have hswap : (c.cell.pc (some i)).swapping ≠ true := fun hs =>
    absurd (hA.roles.swaps _ hs) (by simp)
  cases hpc : c.cell.pc (some i) with
  | idle => exact absurd hpc hidle
  | parked x => exact absurd hpc (hpark x)
  | swapStore | swapLock | swapNotify | swapUnlock => exact absurd (by rw [hpc]; rfl) hswap
  | load caller x => exact .inl (hA.goes_on (.load hpc) rfl rfl)
  | compare caller x guard pos =>
    obtain ⟨hd, hh⟩ := hI.borrows.exist (some i) x (by rw [hpc]; rfl)
    exact .inl (hA.goes_on (.compare hpc hh rfl) rfl rfl)
  | waitPark x => exact .inl (hA.goes_on (.park hpc) rfl rfl)
  | waitUnlock x =>
    have hunlocks : SwapRust.Unlocks (c.cell.pc (some i)) [] := by
      rw [hpc]
      exact .wait x
    exact .inl (hA.goes_on (.unlock hunlocks) rfl rfl)
  | waitLock x =>
    obtain ⟨rfl, -⟩ := hA.roles.handle (some i) x (by rw [hpc]; rfl)
    cases hm : c.cell.waitMutex with
    | none =>
      have hlocks : SwapRust.Locks (c.cell.pc (some i)) (.load .waitForChange (some i)) := by
        rw [hpc]
        exact .wait (some i)
      exact .inl (hA.goes_on (.lock hlocks hm) rfl rfl)
    | some u => exact .inr ⟨u, rfl, rfl, hA.holder_goes_on hm⟩

/-- **Parked is only who has nothing to do**: there is no template, or the listener, who has stored
one, has not notified yet. It goes on, or waits for the mutex, whose holder goes on. -/
theorem parked_only (h : Run (Threaded.Step P) (.start nonces) as c) (hw : c.workers[i]? = some w)
    {x : Option ℕ} (hpc : c.cell.pc (some i) = .parked x) :
    w.state = none ∧ (c.cell.inner = none ∨
      (∃ old, c.cell.pc none = .swapLock old ∨ c.cell.pc none = .swapNotify old) ∧
        (c.GoesOn P none ∨ ∃ u, c.cell.waitMutex = some u ∧ c.GoesOn P u)) := by
  obtain ⟨bs, s, ahead, pend, hrun, hA, -⟩ := answers_of_run h
  have hsees : s.conn.Sees := Mining.sees_of_reachable ⟨_, _, ⟨nonces, rfl⟩, hrun⟩
  obtain ⟨rfl, ⟨w', hw', -, hstate⟩, hd, hh, hcached⟩ := hA.parked hsees hpc
  obtain rfl : w = w' := Option.some.inj (hw.symm.trans hw')
  obtain ⟨hd', hh', hsignalled⟩ :=
    (SwapRust.Signalled.of_reachable (Threaded.cell_reachable h)).parked hA.inv hpc
  obtain rfl : hd' = hd := Option.some.inj (hh'.symm.trans hh)
  refine ⟨hstate, ?_⟩
  by_cases hinner : c.cell.inner = none
  · exact .inl hinner
  · obtain ⟨u, hu⟩ := hsignalled (by rw [hcached]; exact Ne.symm hinner)
    have hswap := SwapRust.Pc.swapping_of_signalling hu
    obtain rfl := hA.roles.swaps u hswap
    exact .inr ⟨SwapRust.Pc.signalling_cases hu, hA.swap_goes_on hswap⟩

/-- **Everybody else goes on**, waits for the mutex, whose holder goes on, or is about to send. -/
theorem goes_on_or_sends (h : Run (Threaded.Step P) (.start nonces) as c)
    (hw : c.workers[i]? = some w) (hends : w.pc.finished = false)
    (hpark : ∀ x, c.cell.pc (some i) ≠ .parked x) :
    c.GoesOn P (some i) ∨
    (∃ u, c.cell.pc (some i) = .waitLock (some i) ∧ c.cell.waitMutex = some u ∧ c.GoesOn P u) ∨
    c.cell.pc (some i) = .idle ∧ ∃ msg, w.pc = .send msg := by
  obtain ⟨bs, s, ahead, pend, -, hA, -⟩ := answers_of_run h
  by_cases hidle : c.cell.pc (some i) = .idle
  · by_cases hsend : ∃ msg, w.pc = .send msg
    · exact .inr (.inr ⟨hidle, hsend⟩)
    · exact .inl (hA.begins_or_works hw hidle hends fun msg hpc => hsend ⟨msg, hpc⟩)
  · rcases hA.call_goes_on hidle hpark with hself | hholder
    · exact .inl hself
    · exact .inr (.inl hholder)

end

end Miner
end KaspaMiner
