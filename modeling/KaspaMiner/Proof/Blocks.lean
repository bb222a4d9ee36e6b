import KaspaMiner.Proof.Process
import KaspaMiner.Proof.Submits

/-!
# The blocks kaspad is told

The workers of a connection put their blocks into the channel that its handler puts its requests
into, whenever they like. Without the requests, there is in it what they handed over
(`submits_of_run`): templates that kaspad sent on the same connection, solved (`solved_of_run`), and
all that were found, each once (`found_of_run`).

The first two make up `blocks_follow`, which is about every block that kaspad gets: it is never that
of another connection, and never one that `check_pow` would refuse. The last is `blocks_once`, which
is about every block that is found. It needs the other end to be there. A worker whose send fails
returns, and the block it had goes with it.

What a worker does on its own is settled in `Submits`, for one worker and the events it sees. What
is left to show here is that the events of a thread in a run of the process are such a run
(`thread_of_run`), and that nobody else touches what it holds.
-/

namespace KaspaMiner

open KaspaMiner.Pow (State)
open Miner (Connection Event Solved Thread WorkerInv WorkerStep)
open Lib (Run)

namespace Link

/-- What is in the channel of blocks. Messages that were taken out still count. -/
def submits (l : Link) : List KaspadMessage := l.sent.filter KaspadMessage.isSubmit

variable {l : Link} {msg : KaspadMessage} {P : Prims} {cfg : Config} {handler : KaspadHandler}
  {res : Except Pow.Halt Unit}

/-! Nothing that `main` sends is a block. -/

theorem submits_clientSend (h : msg.isSubmit = false)
    (hsend : l.handler.clientSend msg = (handler, res)) :
    ({ l with handler } : Link).submits = l.submits := by
  rcases clientSend_cases hsend with ⟨-, heq, -⟩ | ⟨-, -, heq⟩
  · rw [heq]
  · rw [heq]
    exact (filter_push h).trans (List.append_nil _)

theorem submits_clientGetBlockTemplate (hI : l.Sound cfg)
    (hsend : l.handler.clientGetBlockTemplate = (handler, res)) :
    ({ l with handler } : Link).submits = l.submits := by
  rcases clientGetBlockTemplate_cases hI.options hsend with ⟨-, heq, -⟩ | ⟨-, -, heq⟩
  -- A request that could not be sent was counted all the same, which no block minds.
  · rw [heq]
    rfl
  · rw [heq]
    exact (filter_push rfl).trans (List.append_nil _)

theorem submits_listen (hI : l.Sound cfg) {fuel : ℕ} {miner manager : Miner.MinerManager}
    (hlisten : l.handler.listen P fuel [(msg, false)] miner = (handler, manager, res)) :
    ({ l with handler } : Link).submits = l.submits := by
  rcases KaspadHandler.listen_cases hlisten with ⟨-, hsend, -⟩ | ⟨-, rfl, -⟩
  · exact submits_clientGetBlockTemplate hI hsend
  · rfl

end Link

namespace Process
variable {P : Prims} {cfg : Config} {p p' : Process} {a : Action} {as : List Action}

/-! ## What of a run belongs to a connection

An action of the process names the connection and the thread it is of, so that what one of them did
is the run without the rest. -/

/-- What a worker of connection `m` puts into the channel. -/
def Action.handed (m : ℕ) : Action → Option KaspadMessage
  | work m' _ e => if m' = m then e.handed else none
  | _ => none

/-- What the workers of connection `m` put into the channel, in order. -/
def handed (m : ℕ) (as : List Action) : List KaspadMessage := as.filterMap (Action.handed m)

theorem handed_append (m : ℕ) (as bs : List Action) :
    handed m (as ++ bs) = handed m as ++ handed m bs := List.filterMap_append ..

/-- What thread `i` of connection `m` does. -/
def Action.own (m i : ℕ) : Action → Option Event
  | work m' i' e => if m' = m ∧ i' = i then some e else none
  | _ => none

def own (m i : ℕ) (as : List Action) : List Event := as.filterMap (Action.own m i)

/-- The templates that a message brought on connection `m`. A message that is dropped, as kaspad is
not synced, brings none. -/
def Received (cfg : Config) (m : ℕ) (as : List Action) (b : RpcBlock) : Prop :=
  ∃ fuel msg, .message m fuel msg ∈ as ∧
    KaspadHandler.template cfg.mineWhenNotSynced msg = some (some b)

theorem Received.append {m : ℕ} {b : RpcBlock} (h : Received cfg m as b) (bs : List Action) :
    Received cfg m (as ++ bs) b := by
  obtain ⟨fuel, msg, hmem, htemplate⟩ := h
  exact ⟨fuel, msg, List.mem_append_left _ hmem, htemplate⟩

/-- A template that is processed was brought by a message. -/
theorem received_of_process {m fuel : ℕ} {b : RpcBlock}
    (h : a.conn cfg m = some (.process fuel (some b))) : Received cfg m [a] b := by
  cases a with
  | message m' fuel' msg =>
    by_cases hm : m' = m
    · subst hm
      rw [Action.conn, if_pos rfl] at h
      obtain ⟨block, htemplate, heq⟩ := Option.map_eq_some_iff.mp h
      cases heq
      exact ⟨_, msg, List.mem_singleton.mpr rfl, htemplate⟩
    · exact absurd ((if_neg hm).symm.trans h) (by simp)
  | work m' | log m' =>
    by_cases hm : m' = m
    · rw [Action.conn, if_pos hm] at h
      exact absurd h (by simp)
    · exact absurd ((if_neg hm).symm.trans h) (by simp)
  | _ => exact absurd h (by simp [Action.conn])

/-- And nothing but a worker does what a worker does. -/
theorem work_of_conn {m i : ℕ} {e : Event} (h : a.conn cfg m = some (.work i e)) :
    a = .work m i e := by
  cases a with
  | work m' =>
    by_cases hm : m' = m
    · subst hm
      rw [Action.conn, if_pos rfl] at h
      cases h
      rfl
    · exact absurd ((if_neg hm).symm.trans h) (by simp)
  | message m' | log m' =>
    by_cases hm : m' = m
    · subst hm
      rw [Action.conn, if_pos rfl] at h
      simp at h
    · exact absurd ((if_neg hm).symm.trans h) (by simp)
  | _ => exact absurd h (by simp [Action.conn])

/-- **Everything a connection works on was received on it.** By induction on the run: the templates
received only become more, and one that is new to the connection is that of the last action. -/
theorem from_of_run (h : Run (Step P cfg) start as p) {m : ℕ} {conn : Connection}
    (hconn : p.connections[m]? = some conn) : conn.From P (Received cfg m as) := by
  refine h.history (Q := fun as p => ∀ (m : ℕ) (conn : Connection), p.connections[m]? = some conn →
    conn.From P (Received cfg m as)) ?_ ?_ m conn hconn
  · intro m conn hconn
    exact absurd hconn (by simp [start])
  · intro as p a p' hrun ih hstep m conn' hconn'
    cases hold : p.connections[m]? with
    | none =>
      obtain ⟨nonces, -, rfl, -⟩ := hstep.connection_new hold hconn'
      exact .new nonces
    | some conn =>
      obtain ⟨conn₁, hconn₁, hmoves⟩ := hstep.connection (Invariant.of_run hrun).sound hold
      obtain rfl : conn' = conn₁ := Option.some.inj (hconn'.symm.trans hconn₁)
      have hfrom := (ih m conn hold).mono fun b hb => hb.append [a]
      cases ha : a.conn cfg m with
      | none =>
        rw [ha] at hmoves
        have hsame : conn' = conn := hmoves
        rw [hsame]
        exact hfrom
      | some b =>
        rw [ha] at hmoves
        refine hfrom.step hmoves ?_
        rintro fuel block rfl
        obtain ⟨fuel', msg, hmem, htemplate⟩ := received_of_process ha
        exact ⟨fuel', msg, List.mem_append_right _ hmem, htemplate⟩

/-- What a worker puts into the channel is what it held. `found_block` is called with the block and
is not left before the send has been answered, so the worker was there already. -/
theorem work_of_handed {m : ℕ} {msg : KaspadMessage} (h : Step P cfg p a p')
    (ha : a.handed m = some msg) :
    ∃ (i : ℕ) (conn : Connection) (t : Thread), p.connections[m]? = some conn ∧
      conn.threads[i]? = some t ∧ t.worker.pc = .send msg := by
  cases h with
  | @work m' i e l conn conn' hl hconn hstep hanswers =>
    by_cases hm : m' = m
    · subst hm
      have he : e.handed = some msg := (if_pos rfl).symm.trans ha
      obtain rfl : e = .sent msg true := by
        unfold Event.handed at he
        split at he
        next => rw [Option.some.inj he]
        next => exact absurd he (by simp)
      cases hstep with
      | @work _ _ t t' ht hthread =>
        cases hthread with
        | mk hworker => exact ⟨i, conn, t, hconn, ht, Miner.pc_of_sent hworker⟩
    · exact absurd ((if_neg hm).symm.trans ha) (by simp)
  | _ => exact absurd ha (by simp [Action.handed])

/-- So it was solved, and solved from a template of this connection: the invariant says that of
whatever a thread holds. -/
theorem solved_of_run (h : Run (Step P cfg) start as p) {m : ℕ} {msg : KaspadMessage}
    (hmsg : msg ∈ handed m as) : Solved P (Received cfg m as) msg := by
  refine h.history (Q := fun as _ => ∀ msg ∈ handed m as, Solved P (Received cfg m as) msg)
    (by simp [handed]) ?_ msg hmsg
  intro as p a p' hrun ih hstep msg hmsg
  rw [handed_append] at hmsg
  rcases List.mem_append.mp hmsg with hold | hnew
  · exact (ih msg hold).mono fun b hb => hb.append [a]
  · obtain ⟨a', ha', hhanded⟩ := List.mem_filterMap.mp hnew
    obtain rfl : a' = a := List.mem_singleton.mp ha'
    obtain ⟨i, conn, t, hconn, ht, hpc⟩ := work_of_handed hstep hhanded
    exact ((from_of_run hrun hconn).solved i t msg ht hpc).mono fun b hb => hb.append _

/-- **One step**: what a worker hands over, and nothing else, is new among the blocks. The channel
is one that there was before, or one that `connect` has made, with two requests in it. -/
theorem submits_step (hI : p.Invariant cfg) (h : Step P cfg p a p')
    (hsubmit : ∀ m msg, a.handed m = some msg → msg.isSubmit = true) {m : ℕ} {l' : Link}
    (hl' : p'.links[m]? = some l') :
    (∃ l, p.links[m]? = some l ∧ l'.submits = l.submits ++ (a.handed m).toList) ∨
    p.links.length ≤ m ∧ l'.submits = [] ∧ a.handed m = none := by
  -- For everything but a worker: some channel is written back, with the same blocks in it.
  have hset {k : ℕ} {l₀ l₁ : Link} (hquiet : a.handed m = none) (hl₀ : p.links[k]? = some l₀)
      (hsame : l₁.submits = l₀.submits) (hk : (p.links.set k l₁)[m]? = some l') :
      ∃ l, p.links[m]? = some l ∧ l'.submits = l.submits ++ (a.handed m).toList := by
    rw [hquiet]
    rcases Lib.getElem?_set_cases hk with ⟨rfl, rfl⟩ | ⟨-, hold⟩
    · exact ⟨l₀, hl₀, hsame.trans (List.append_nil _).symm⟩
    · exact ⟨l', hold, (List.append_nil _).symm⟩
  cases h with
  | connect =>
    rcases Lib.getElem?_concat_cases hl' with ⟨rfl, rfl⟩ | ⟨-, hold⟩
    · refine .inr ⟨Nat.le_refl _, ?_, rfl⟩
      obtain ⟨-, -, -, -, -, hsend⟩ := cfg.handler_fields
      unfold Link.submits Link.sent
      rw [hsend]
      rfl
    · exact .inl ⟨l', hold, (List.append_nil _).symm⟩
  | subscribe hmain hlast hready hsend =>
    exact .inl (hset rfl hlast.2 (Link.submits_clientSend rfl hsend) hl')
  | request hmain hlast hready hsend =>
    exact .inl (hset rfl hlast.2
      (Link.submits_clientGetBlockTemplate (hI.sound _ _ hlast.2) hsend) hl')
  | message hmain hshutdown hlast hconn hready hlisten =>
    exact .inl (hset rfl hlast.2 (Link.submits_listen (hI.sound _ _ hlast.2) hlisten) hl')
  | failing hmain hshutdown hlast hconn hready hlisten =>
    exact .inl (hset rfl hlast.2 (Link.submits_listen (hI.sound _ _ hlast.2) hlisten) hl')
  | take hl | close hl =>
    refine .inl (hset rfl hl ?_ hl')
    rfl
  | @work k i e l conn conn' hl hconn hstep hanswers =>
    left
    by_cases hkm : k = m
    · subst hkm
      have hhanded : (Action.work k i e).handed k = e.handed := if_pos rfl
      obtain rfl : l' = l.after e := by
        rcases Lib.getElem?_set_cases hl' with ⟨-, heq⟩ | ⟨hne, -⟩
        · exact heq
        · exact absurd rfl hne
      refine ⟨l, hl, ?_⟩
      rw [hhanded]
      cases e with
      | sent msg ok =>
        cases ok with
        | true => exact Link.filter_push (hsubmit k msg hhanded)
        | false => exact (List.append_nil _).symm
      | waited | tested | credited | checked | polled => exact (List.append_nil _).symm
    · have hquiet : (Action.work k i e).handed m = none := if_neg hkm
      rw [hquiet]
      rcases Lib.getElem?_set_cases hl' with ⟨heq, -⟩ | ⟨-, hold⟩
      · exact absurd heq.symm hkm
      · exact ⟨l', hold, (List.append_nil _).symm⟩
  | launch | log | disconnect | error | stop | exit =>
    exact .inl ⟨l', hl', (List.append_nil _).symm⟩

/-- Nothing is put into a channel that is not there yet: there are never more connections than
channels. -/
theorem handed_eq_nil (h : Run (Step P cfg) start as p) {m : ℕ} (hm : p.links.length ≤ m) :
    handed m as = [] := by
  refine (h.history (Q := fun as p => ∀ m, p.links.length ≤ m → handed m as = []) (fun _ _ => rfl)
    ?_) m hm
  intro as p a p' hrun ih hstep m hm
  have hlen : p.links.length ≤ p'.links.length := by
    cases hstep <;> simp
  have hnone : a.handed m = none := by
    cases ha : a.handed m with
    | none => rfl
    | some msg =>
      obtain ⟨i, conn, t, hconn, -⟩ := work_of_handed hstep ha
      have hlt := (List.getElem?_eq_some_iff.mp hconn).1
      have hle := (Invariant.of_run hrun).orderly.le
      omega
  rw [handed_append, ih m (hlen.trans hm)]
  exact List.filterMap_cons_none hnone

/-- What a worker sends is a block and no request. -/
theorem submit_of_handed (hrun : Run (Step P cfg) start as p) (h : Step P cfg p a p') {m : ℕ}
    {msg : KaspadMessage} (ha : a.handed m = some msg) : msg.isSubmit = true := by
  obtain ⟨i, conn, t, hconn, ht, hpc⟩ := work_of_handed h ha
  exact ((from_of_run hrun hconn).solved i t msg ht hpc).isSubmit

/-- **The blocks of a channel** are what the workers of its connection handed over, in this order.
-/
theorem submits_of_run (h : Run (Step P cfg) start as p) {m : ℕ} {l : Link}
    (hl : p.links[m]? = some l) : l.submits = handed m as := by
  refine h.history (Q := fun as p => ∀ (m : ℕ) (l : Link), p.links[m]? = some l →
    l.submits = handed m as) ?_ ?_ m l hl
  · intro m l hl
    exact absurd hl (by simp [start])
  · intro as p a p' hrun ih hstep m l' hl'
    have hone : handed m [a] = (a.handed m).toList := Lib.filterMap_singleton _ a
    rw [handed_append, hone]
    rcases submits_step (Invariant.of_run hrun) hstep
      (fun _ _ ha => submit_of_handed hrun hstep ha) hl' with ⟨l, hl, heq⟩ | ⟨hle, hnil, hnone⟩
    · rw [heq, ih m l hl]
    · rw [hnil, hnone, handed_eq_nil hrun hle]
      rfl

/-- **Every block kaspad gets** is one of the templates it sent on the same connection, with a nonce
that satisfies the target of that template; so it passes when it is checked from scratch. The blocks
are in the channel in the order in which the workers hand them over. -/
theorem blocks_follow (h : Run (Step P cfg) start as p) {m : ℕ} {l : Link}
    (hl : p.links[m]? = some l) :
    l.submits = handed m as ∧ ∀ msg ∈ l.sent, msg.isSubmit = true →
      Solved P (Received cfg m as) msg ∧ ∃ b, msg = .submitBlock b ∧ Miner.Valid P b := by
  have hsubmits := submits_of_run h hl
  refine ⟨hsubmits, fun msg hmsg hsubmit => ?_⟩
  have hhanded : msg ∈ handed m as := by
    rw [← hsubmits]
    exact List.mem_filter.mpr ⟨hmsg, hsubmit⟩
  have hsolved := solved_of_run h hhanded
  exact ⟨hsolved, hsolved.valid⟩

theorem blocks_follow_bench : ∃ st p l,
    Run (Step Pow.solvingPrims benchConfig) start (benchActions st) p ∧
    p.links[0]? = some l ∧ l.submits = [.submitBlock (Pow.benchBlock.withNonce 127)] ∧
    ∀ msg ∈ l.sent, msg.isSubmit = true →
      Solved Pow.solvingPrims (Received benchConfig 0 (benchActions st)) msg ∧
        ∃ b, msg = .submitBlock b ∧ Miner.Valid Pow.solvingPrims b := by
  obtain ⟨st, hst⟩ := Pow.solving_new 0
  obtain ⟨p, l, -, hrun, hl, -⟩ := bench_run hst
  exact ⟨st, p, l, hrun, hl, blocks_follow hrun hl⟩

/-! ## No block is lost

The blocks of a connection are found by several threads and go through one channel, so that their
order in it is not the one they were found in. What can be said is that they are the same ones, each
as often: a permutation. The order of each single thread is kept. -/

theorem own_append (m i : ℕ) (as bs : List Action) :
    own m i (as ++ bs) = own m i as ++ own m i bs :=
  List.filterMap_append ..

/-- What a thread does is a part of what its connection does. -/
theorem own_eq_conn (cfg : Config) (m i : ℕ) (a : Action) :
    a.own m i = (a.conn cfg m).bind (Connection.Action.own i) := by
  cases a with
  | message m' fuel msg =>
    by_cases hm : m' = m
    · rw [Action.conn, if_pos hm]
      cases KaspadHandler.template cfg.mineWhenNotSynced msg <;> rfl
    · rw [Action.conn, if_neg hm]
      rfl
  | work m' j e =>
    by_cases hm : m' = m
    · subst hm
      simp [Action.own, Action.conn, Connection.Action.own]
    · rw [Action.conn, if_neg hm]
      exact if_neg fun h => hm h.1
  | log m' hashes =>
    by_cases hm : m' = m
    · rw [Action.conn, if_pos hm]
      rfl
    · rw [Action.conn, if_neg hm]
      rfl
  | _ => rfl

/-- Before there is a manager, there are no workers. -/
theorem not_work_of_run (h : Run (Step P cfg) start as p) {m : ℕ} (hnone : p.connections[m]? = none)
    (i : ℕ) (e : Event) : .work m i e ∉ as := by
  refine h.history (Q := fun as p => p.connections[m]? = none → .work m i e ∉ as)
    (fun _ => List.not_mem_nil) ?_ hnone
  intro as p a p' hrun ih hstep hnone hmem
  have hlen : p.connections.length ≤ p'.connections.length := by
    cases hstep <;> simp
  have hold : p.connections[m]? = none :=
    List.getElem?_eq_none_iff.mpr (hlen.trans (List.getElem?_eq_none_iff.mp hnone))
  rcases List.mem_append.mp hmem with hmem | hmem
  · exact ih hold hmem
  · obtain rfl := List.mem_singleton.mp hmem
    cases hstep with
    | work hl hconn => exact absurd (hold.symm.trans hconn) (by simp)

/-- **A thread of the process is a worker**, from the moment its manager is made: what it did is a
run of the worker alone, from the nonce it was given, and every state it was handed is one that
`State::new` made. So all that is known of such a run is known of the thread. -/
theorem thread_of_run (h : Run (Step P cfg) start as p) {m i : ℕ} {conn : Connection} {t : Thread}
    (hconn : p.connections[m]? = some conn) (ht : conn.threads[i]? = some t) :
    ∃ nonce, Run (WorkerStep P) (.start nonce) (own m i as) t.worker ∧
      ∀ e ∈ own m i as, e.Fed P := by
  refine h.history (Q := fun as p => ∀ (conn : Connection) (t : Thread),
    p.connections[m]? = some conn → conn.threads[i]? = some t → ∃ nonce,
      Run (WorkerStep P) (.start nonce) (own m i as) t.worker ∧ ∀ e ∈ own m i as, e.Fed P)
    ?_ ?_ conn t hconn ht
  · exact fun conn t hconn => absurd hconn (by simp [start])
  · intro as p a p' hrun ih hstep conn' t' hconn' ht'
    have hone : own m i [a] = (a.own m i).toList := Lib.filterMap_singleton _ a
    rw [own_append, hone, own_eq_conn cfg]
    cases hold : p.connections[m]? with
    | none =>
      -- The thread starts with this very step, and nothing before it was its own.
      obtain ⟨nonces, rfl, rfl, -⟩ := hstep.connection_new hold hconn'
      obtain ⟨nonce, -, rfl⟩ := Connection.new_thread ht'
      have hnil : own m i as = [] := by
        refine List.filterMap_eq_nil_iff.mpr fun a' ha' => ?_
        cases a' with
        | work m' j e =>
          refine if_neg ?_
          rintro ⟨rfl, rfl⟩
          exact not_work_of_run hrun hold j e ha'
        | _ => rfl
      rw [hnil]
      exact ⟨nonce, .nil _, by simp [Action.conn]⟩
    | some conn =>
      obtain ⟨conn₁, hconn₁, hmoves⟩ := hstep.connection (Invariant.of_run hrun).sound hold
      obtain rfl : conn' = conn₁ := Option.some.inj (hconn'.symm.trans hconn₁)
      cases ha : a.conn cfg m with
      | none =>
        rw [ha] at hmoves
        obtain rfl : conn' = conn := hmoves
        simpa using ih conn' t' hold ht'
      | some b =>
        rw [ha] at hmoves
        rcases Connection.Step.thread hmoves i with ⟨e, t, u, rfl, ht, hu, hthread⟩ | ⟨hown, hsame⟩
        · obtain rfl : t' = u := Option.some.inj (ht'.symm.trans hu)
          obtain ⟨nonce, hworker, hfed⟩ := ih conn t hold ht
          have hown : (some (Connection.Action.work i e)).bind (Connection.Action.own i) = some e :=
            if_pos rfl
          rw [hown]
          cases hthread with
          | mk hstep' hobs =>
            refine ⟨nonce, hworker.snoc hstep', fun e' he' => ?_⟩
            rcases List.mem_append.mp he' with he' | he'
            · exact hfed e' he'
            · obtain rfl : e' = e := List.mem_singleton.mp he'
              refine Connection.Fed.observes (fun st hst => ?_) hobs
              obtain ⟨fuel, id, template, -, hnew⟩ := (from_of_run hrun hold).made st hst
              exact ⟨fuel, id, template, hnew⟩
        · rw [Option.bind_some, hown]
          rw [hsame] at ht'
          simpa using ih conn t' hold ht'

/-- The other end of a channel does not come back. A send that goes through finds it open, and no
step opens one. -/
theorem Step.closed (hI : p.Invariant cfg) (h : Step P cfg p a p') {m : ℕ} {l : Link}
    (hl : p.links[m]? = some l) (hclosed : l.closed = true) :
    ∃ l', p'.links[m]? = some l' ∧ l'.closed = true := by
  have hlt := (List.getElem?_eq_some_iff.mp hl).1
  have hset {k : ℕ} {l₀ l₁ : Link} (hl₀ : p.links[k]? = some l₀)
      (hkeeps : l₀.closed = true → l₁.closed = true) :
      ∃ l', (p.links.set k l₁)[m]? = some l' ∧ l'.closed = true := by
    by_cases hk : k = m
    · subst hk
      obtain rfl : l₀ = l := Option.some.inj (hl₀.symm.trans hl)
      exact ⟨l₁, List.getElem?_set_self hlt, hkeeps hclosed⟩
    · exact ⟨l, (List.getElem?_set_ne hk).trans hl, hclosed⟩
  cases h with
  | connect => exact ⟨l, (List.getElem?_append_left hlt).trans hl, hclosed⟩
  | subscribe hmain hlast hready hsend =>
    refine hset hlast.2 fun hc => ?_
    rcases Link.clientSend_cases hsend with ⟨-, heq, -⟩ | ⟨hopen, -, -⟩
    · rwa [heq]
    · exact absurd (hopen.symm.trans hc) (by simp)
  | request hmain hlast hready hsend =>
    refine hset hlast.2 fun hc => ?_
    rcases Link.clientGetBlockTemplate_cases (hI.sound _ _ hlast.2).options hsend with
      ⟨-, heq, -⟩ | ⟨hopen, -, -⟩
    · rwa [heq]
    · exact absurd (hopen.symm.trans hc) (by simp)
  | message hmain hshutdown hlast hconn hready hlisten
  | failing hmain hshutdown hlast hconn hready hlisten =>
    refine hset hlast.2 fun hc => ?_
    rcases KaspadHandler.listen_cases hlisten with ⟨-, hsend, -⟩ | ⟨-, rfl, -⟩
    · rcases Link.clientGetBlockTemplate_cases (hI.sound _ _ hlast.2).options hsend with
        ⟨-, heq, -⟩ | ⟨hopen, -, -⟩
      · rwa [heq]
      · exact absurd (hopen.symm.trans hc) (by simp)
    · exact hc
  | take hl₀ => exact hset hl₀ id
  | close hl₀ => exact hset hl₀ fun _ => rfl
  | @work k i e l₀ conn conn' hl₀ hconn hstep hanswers =>
    refine hset hl₀ fun hc => ?_
    cases e with
    | sent msg ok => cases ok <;> exact hc
    | waited | tested | credited | checked | polled => exact hc
  | launch | log | disconnect | error | stop | exit => exact ⟨l, hl, hclosed⟩

/-- A send only fails when the other end is gone. -/
theorem closed_of_refused (h : Run (Step P cfg) start as p) {m i : ℕ} {msg : KaspadMessage}
    (hmsg : .sent msg false ∈ own m i as) :
    ∃ l, p.links[m]? = some l ∧ l.closed = true := by
  refine h.history (Q := fun as p => ∀ msg, .sent msg false ∈ own m i as →
    ∃ l, p.links[m]? = some l ∧ l.closed = true) (by simp [own]) ?_ msg hmsg
  intro as p a p' hrun ih hstep msg hmsg
  rw [own_append] at hmsg
  rcases List.mem_append.mp hmsg with hold | hnew
  · obtain ⟨l, hl, hclosed⟩ := ih msg hold
    exact hstep.closed (Invariant.of_run hrun) hl hclosed
  · obtain ⟨a', ha', hown⟩ := List.mem_filterMap.mp hnew
    obtain rfl : a' = a := List.mem_singleton.mp ha'
    have hI := Invariant.of_run hrun
    cases hstep with
    | @work m' j e l conn conn' hl hconn hthread hanswers =>
      by_cases hm : m' = m ∧ j = i
      · obtain ⟨rfl, rfl⟩ := hm
        obtain rfl : e = .sent msg false := by
          have heq := (if_pos ⟨rfl, rfl⟩).symm.trans hown
          exact Option.some.inj heq
        exact ⟨l, (Lib.set_entry hl).symm ▸ hl, hanswers⟩
      · exact absurd ((if_neg hm).symm.trans hown) (by simp)
    | _ => exact absurd hown (by simp [Action.own])

/-- A block found on connection `m`. -/
def Action.found (P : Prims) (m : ℕ) : Action → Option KaspadMessage
  | work m' _ e => if m' = m then e.found P else none
  | _ => none

/-- The blocks found on connection `m`, in order. -/
def found (P : Prims) (m : ℕ) (as : List Action) : List KaspadMessage :=
  as.filterMap (Action.found P m)

/-- Whatever the threads of a connection do not do leaves what they hold as it is. A new template
does so too: a worker that is about to send does not look at the block channel. -/
theorem held_eq {shutdown : Bool} {conn conn' : Connection} {b : Option Connection.Action}
    (h : Moves P shutdown conn conn' b) (hb : ∀ i e, b ≠ some (.work i e)) :
    conn'.held = conn.held := by
  cases b with
  | none =>
    obtain rfl : conn' = conn := h
    rfl
  | some b =>
    have hstep : conn.Step P shutdown b conn' := h
    cases hstep with
    | process => rfl
    | @work i e => exact absurd rfl (hb i e)
    | log => rfl

/-- **What was found was handed over or is held.** The law of one worker (`Connection.held_step`) is
carried through the run. The channel is open at the end, and therefore was all along; so no send has
failed on the way. -/
theorem found_of_run (h : Run (Step P cfg) start as p) {m : ℕ} {l : Link} {conn : Connection}
    (hl : p.links[m]? = some l) (hopen : l.closed = false) (hconn : p.connections[m]? = some conn) :
    (found P m as).Perm (handed m as ++ conn.held) := by
  refine h.history (Q := fun as p => ∀ (l : Link) (conn : Connection), p.links[m]? = some l →
    l.closed = false → p.connections[m]? = some conn →
    (found P m as).Perm (handed m as ++ conn.held)) ?_ ?_ l conn hl hopen hconn
  · exact fun l conn hl => absurd hl (by simp [start])
  · intro as p a p' hrun ih hstep l' conn' hl' hopen' hconn'
    have hI := Invariant.of_run hrun
    have hfound : found P m (as ++ [a]) = found P m as ++ (a.found P m).toList :=
      (List.filterMap_append ..).trans (congrArg _ (Lib.filterMap_singleton _ a))
    have hhanded : handed m (as ++ [a]) = handed m as ++ (a.handed m).toList :=
      (handed_append ..).trans (congrArg _ (Lib.filterMap_singleton _ a))
    rw [hfound, hhanded]
    cases hold : p.connections[m]? with
    | none =>
      obtain ⟨nonces, rfl, rfl, -⟩ := hstep.connection_new hold hconn'
      have hno := not_work_of_run hrun hold
      have hnil : found P m as = [] ∧ handed m as = [] := by
        constructor
        all_goals
          refine List.filterMap_eq_nil_iff.mpr fun a' ha' => ?_
          cases a' with
          | work m' j e =>
            refine if_neg ?_
            rintro rfl
            exact hno j e ha'
          | _ => rfl
      have hheld : (Connection.new nonces).held = [] := by
        simp [Connection.held, Connection.new, Thread.start, Miner.Worker.start,
          Miner.WorkerPc.holding]
      rw [hnil.1, hnil.2, hheld]
      exact .nil
    | some conn =>
      obtain ⟨l, hl⟩ : ∃ l, p.links[m]? = some l :=
        ⟨_, List.getElem?_eq_getElem
          ((List.getElem?_eq_some_iff.mp hold).1.trans_le hI.orderly.le)⟩
      -- It was open before the step, or it would not be after it.
      have hopen : l.closed = false := by
        cases hc : l.closed with
        | false => rfl
        | true =>
          obtain ⟨l'', hl'', hclosed⟩ := hstep.closed hI hl hc
          obtain rfl : l'' = l' := Option.some.inj (hl''.symm.trans hl')
          exact absurd (hopen'.symm.trans hclosed) (by simp)
      have hperm := ih l conn hl hopen hold
      by_cases hwork : ∃ i e, a = .work m i e
      · obtain ⟨i, e, rfl⟩ := hwork
        have hf : (Action.work m i e).found P m = e.found P := if_pos rfl
        have hh : (Action.work m i e).handed m = e.handed := if_pos rfl
        rw [hf, hh]
        cases hstep with
        | @work _ _ _ l₀ conn₀ conn₁ hl₀ hconn₀ hthread hanswers =>
          obtain rfl : l₀ = l := Option.some.inj (hl₀.symm.trans hl)
          obtain rfl : conn₀ = conn := Option.some.inj (hconn₀.symm.trans hold)
          obtain rfl : conn₁ = conn' := by
            have hlt := (List.getElem?_eq_some_iff.mp hold).1
            exact Option.some.inj ((List.getElem?_set_self hlt).symm.trans hconn')
          have he : ∀ msg, e ≠ .sent msg false := by
            rintro msg rfl
            have hclosed : l₀.closed = true := hanswers
            exact absurd (hopen.symm.trans hclosed) (by simp)
          have hheld := Connection.held_step (from_of_run hrun hold) hthread he
          calc (found P m as ++ (e.found P).toList).Perm
                (handed m as ++ conn₀.held ++ (e.found P).toList) := hperm.append_right _
            _ = handed m as ++ (conn₀.held ++ (e.found P).toList) := List.append_assoc ..
            List.Perm _ (handed m as ++ (e.handed.toList ++ conn₁.held)) := hheld.append_left _
            _ = handed m as ++ e.handed.toList ++ conn₁.held := (List.append_assoc ..).symm
      · have hquiet : a.found P m = none ∧ a.handed m = none := by
          cases a with
          | work m' i e =>
            have hm : m' ≠ m := by
              rintro rfl
              exact hwork ⟨i, e, rfl⟩
            exact ⟨if_neg hm, if_neg hm⟩
          | _ => exact ⟨rfl, rfl⟩
        have hconn (i : ℕ) (e : Event) : a.conn cfg m ≠ some (.work i e) := fun hc =>
          hwork ⟨i, e, work_of_conn hc⟩
        obtain ⟨conn₁, hconn₁, hmoves⟩ := hstep.connection hI.sound hold
        obtain rfl : conn₁ = conn' := Option.some.inj (hconn₁.symm.trans hconn')
        rw [hquiet.1, hquiet.2, held_eq hmoves hconn, Option.toList_none, List.append_nil,
          List.append_nil]
        exact hperm

/-- **No block is lost and none is sent twice**, as long as the other end of the channel is there:
the blocks found on a connection are those in its channel and those its workers are about to put
into it, and each worker hands them over in the order in which it finds them. -/
theorem blocks_once (h : Run (Step P cfg) start as p) {m : ℕ} {l : Link} {conn : Connection}
    (hl : p.links[m]? = some l) (hopen : l.closed = false) (hconn : p.connections[m]? = some conn) :
    (found P m as).Perm (l.submits ++ conn.held) ∧
    ∀ (i : ℕ) (t : Thread), conn.threads[i]? = some t →
      Miner.found P (own m i as) = Miner.handed (own m i as) ++ t.worker.pc.holding := by
  refine ⟨?_, fun i t ht => ?_⟩
  · rw [submits_of_run h hl]
    exact found_of_run h hl hopen hconn
  · obtain ⟨nonce, hworker, hfed⟩ := thread_of_run h hconn ht
    refine Miner.found_run hworker hfed fun msg hmsg => ?_
    obtain ⟨l', hl', hclosed⟩ := closed_of_refused h hmsg
    obtain rfl : l' = l := Option.some.inj (hl'.symm.trans hl)
    exact absurd (hopen.symm.trans hclosed) (by simp)

theorem blocks_once_bench : ∃ st p l conn,
    Run (Step Pow.solvingPrims benchConfig) start (benchActions st) p ∧ p.links[0]? = some l ∧
    p.connections[0]? = some conn ∧
    (found Pow.solvingPrims 0 (benchActions st)).Perm (l.submits ++ conn.held) := by
  obtain ⟨st, hst⟩ := Pow.solving_new 0
  obtain ⟨p, l, conn, hrun, hl, hopen, hconns⟩ := bench_run hst
  have hconn : p.connections[0]? = some conn := by rw [hconns]; rfl
  exact ⟨st, p, l, conn, hrun, hl, hconn, (blocks_once hrun hl hopen hconn).1⟩

end Process

end KaspaMiner
