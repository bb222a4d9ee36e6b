import KaspaMiner.Lib.Entries
import KaspaMiner.Process
import KaspaMiner.Proof.Connection
import KaspaMiner.Proof.Devfund
import KaspaMiner.Proof.Templates

/-!
# Steps of the process

A `Process` is `main` with one await after the other: a handler is connected before its threads are
there, a send waits for room in the channel, and kaspad takes its time to read. In `World`, which
the results about the workers are stated over, a connection and its threads appear in one step and
nothing is said about channels at all. This module is the bridge between the two, and what the
other modules about the process stand on.

A step touches one channel and one connection at most, so there are two questions to ask of it:

* what it does to a channel. `Link.Sound` is the invariant: the handler still has the options of the
  configuration, and of what it sent three messages at most are waiting. There is one lemma for each
  way of putting something in, and the requests, the blocks and `main` go through these;
* what it does to a connection. `Step.connection` says that a connection moves by what is its own
  and by nothing else, `Step.connection_new` that only `launch` makes one.

`refines_world` is the first thing that follows. Whatever is said over the channels and whenever it
is read, the connections are those of a run of `World`.
-/

namespace KaspaMiner

open KaspaMiner.Pow (Halt State)
open Miner (Connection Event MinerManager)
open Lib (Run)

namespace KaspadHandler
variable {P : Prims} {fuel : ℕ} {self handler : KaspadHandler} {miner manager : MinerManager}
  {msg : KaspadMessage} {res : Except Halt Unit}

/-- The template a message brings, if it brings one. The two options are not the same: a response
can have no block in it, which `handle_message` passes on as `process_block(None)` and which takes
the template from the workers. -/
def template (mineWhenNotSynced : Bool) (msg : KaspadMessage) : Option (Option RpcBlock) :=
  match msg.payload with
  | some (.getBlockTemplateResponse r) => effect mineWhenNotSynced r
  | _ => none

/-- One turn of `listen`. The stream is cut after its first message, so that what `main` does while
it waits for the next one (nothing) needs no model. -/
theorem listen_single : self.listen P fuel [(msg, false)] miner =
    match msg.payload with
    | none => (self, miner, .ok ())
    | some payload => self.handleMessage P fuel payload miner := by
  obtain ⟨payload⟩ := msg
  cases payload with
  | none => rfl
  | some payload =>
    rcases hres : self.handleMessage P fuel payload miner with ⟨handler, manager, res⟩
    cases res with
    | ok =>
      rw [listen_ok hres]
      exact hres.symm
    | error e =>
      rw [listen_error hres]
      exact hres.symm

/-- A notification is answered by a request; everything else leaves the handler as it is, and a
template goes to the manager. -/
theorem listen_cases (h : self.listen P fuel [(msg, false)] miner = (handler, manager, res)) :
    msg.payload = some .newBlockTemplateNotification ∧
      self.clientGetBlockTemplate = (handler, res) ∧ manager = miner ∨
    msg.payload ≠ some .newBlockTemplateNotification ∧ handler = self ∧
      (template self.mineWhenNotSynced msg = none ∧ manager = miner ∨
        ∃ block, template self.mineWhenNotSynced msg = some block ∧
          miner.processBlock P fuel block = (manager, res)) := by
  rw [listen_single] at h
  obtain ⟨payload⟩ := msg
  cases payload with
  | none =>
    cases h
    exact .inr ⟨by simp, rfl, .inl ⟨rfl, rfl⟩⟩
  | some payload =>
    cases payload with
    | newBlockTemplateNotification =>
      cases h
      exact .inl ⟨rfl, rfl, rfl⟩
    | getBlockTemplateResponse r =>
      have h := (handleMessage_response P fuel self r miner).symm.trans h
      refine .inr ⟨by simp, ?_⟩
      cases heff : effect self.mineWhenNotSynced r with
      | none =>
        rw [heff] at h
        cases h
        exact ⟨rfl, .inl ⟨heff, rfl⟩⟩
      | some block =>
        rw [heff] at h
        obtain ⟨hself, hres⟩ := Prod.mk.inj h
        exact ⟨hself.symm, .inr ⟨block, heff, hres⟩⟩
    | getBlockResponse r =>
      obtain ⟨block, error⟩ := r
      cases error with
      | none =>
        cases h
        exact .inr ⟨by simp, rfl, .inl ⟨rfl, rfl⟩⟩
      | some e =>
        cases h
        exact .inr ⟨by simp, rfl, .inl ⟨rfl, rfl⟩⟩
    -- The others are only logged.
    | _ =>
      cases h
      exact .inr ⟨by simp, rfl, .inl ⟨rfl, rfl⟩⟩

end KaspadHandler

/-! ## The options

The addresses and the percentage come from the command line and nothing ever assigns to them again.
What a handler does changes its channel and its counter only, so these are what `Of` leaves open. -/

/-- The handler is that of the configuration, apart from what it has done. -/
def KaspadHandler.Of (cfg : Config) (self : KaspadHandler) : Prop :=
  self = { cfg.handler with
    sendChannel := self.sendChannel
    blockTemplateCtr := self.blockTemplateCtr }

namespace KaspadHandler
variable {cfg : Config} {self handler : KaspadHandler} {msg : KaspadMessage}
  {res : Except Halt Unit}

theorem Of.new (cfg : Config) : cfg.handler.Of cfg := rfl

theorem Of.update (h : self.Of cfg) (sendChannel : SendChannel) (blockTemplateCtr : UInt64) :
    ({ self with sendChannel, blockTemplateCtr } : KaspadHandler).Of cfg := by
  unfold Of at h ⊢
  rw [h]

/-- A send that fails, and one that goes through. The channel decides: `send` fails when the
receiver is gone and for no other reason. -/
theorem clientSend_cases (h : self.clientSend msg = (handler, res)) :
    self.sendChannel.closed = true ∧ handler = self ∧ (∃ e, res = .error e) ∨
    self.sendChannel.closed = false ∧ res = .ok () ∧
      handler = { self with sendChannel.sent := self.sendChannel.sent ++ [msg] } := by
  unfold clientSend at h
  by_cases hclosed : self.sendChannel.closed = true
  · rw [if_pos hclosed] at h
    cases h
    exact .inl ⟨hclosed, rfl, _, rfl⟩
  · rw [if_neg hclosed] at h
    cases h
    exact .inr ⟨by simpa using hclosed, rfl, rfl⟩

end KaspadHandler

/-! ## What `main` asks for -/

/-- Which address the `k`-th template it counts is to pay. The counter has 64 bits, and the
comparison is with `≤`, as in `client_get_block_template`. -/
def Config.payAddress (cfg : Config) (k : ℕ) : String :=
  match cfg.devfundAddress with
  | some devfundAddress =>
    if k % 2 ^ 64 % 10000 ≤ cfg.devfundPercent.toNat then devfundAddress else cfg.miningAddress
  | none => cfg.miningAddress

/-- A request for a template. -/
def Config.request (cfg : Config) (payAddress : String) : KaspadMessage :=
  .ofGetBlockTemplateRequest { payAddress, extraData := cfg.handler.extraData }

/-- What `connect` and `add_devfund` leave: two messages in the channel, and nothing counted. The
percentage is only set together with an address. -/
theorem Config.handler_fields (cfg : Config) :
    cfg.handler.minerAddress = cfg.miningAddress ∧
    cfg.handler.mineWhenNotSynced = cfg.mineWhenNotSynced ∧
    cfg.handler.devfundAddress = cfg.devfundAddress ∧
    (cfg.devfundAddress.isSome → cfg.handler.devfundPercent = cfg.devfundPercent) ∧
    cfg.handler.blockTemplateCtr = 0 ∧
    cfg.handler.sendChannel =
      { closed := false, sent := [.getInfoRequest, cfg.request cfg.miningAddress] } := by
  unfold Config.request Config.handler
  cases cfg.devfundAddress with
  | none => exact ⟨rfl, rfl, rfl, by simp, rfl, rfl⟩
  | some devfundAddress => exact ⟨rfl, rfl, rfl, fun _ => rfl, rfl, rfl⟩

/-- The address of the next request is a matter of the options and of the counter alone. This is
what makes the requests of a connection the same in every run. -/
theorem KaspadHandler.Of.payAddress {cfg : Config} {self : KaspadHandler} (h : self.Of cfg) {k : ℕ}
    (hk : self.blockTemplateCtr = UInt64.ofNat k) : self.payAddress = cfg.payAddress k := by
  obtain ⟨hminer, -, hdev, hpercent, -⟩ := cfg.handler_fields
  have hself : self.devfundAddress = cfg.devfundAddress ∧ self.minerAddress = cfg.miningAddress ∧
      self.devfundPercent = cfg.handler.devfundPercent := by
    unfold Of at h
    rw [h]
    exact ⟨hdev, hminer, rfl⟩
  obtain ⟨hdev', hminer', hpercent'⟩ := hself
  unfold Config.payAddress
  cases hd : cfg.devfundAddress with
  | none =>
    unfold KaspadHandler.payAddress
    rw [hdev', hd]
    exact hminer'
  | some devfundAddress =>
    rw [payAddress_eq (hdev'.trans hd), hpercent', hpercent (by rw [hd]; rfl), hminer', hk,
      UInt64.toNat_ofNat']

/-! ## The channels

`taken` counts what the other end has got, and the messages beyond it wait. `Room` is asked of
`main` and of the workers alike, before they put anything in; all of them share the one channel. -/

namespace Link
variable {P : Prims} {cfg : Config} {l : Link} {handler : KaspadHandler} {res : Except Halt Unit}

/-- One more message, in the part of the channel that the predicate is about or outside it. -/
theorem filter_push {q : KaspadMessage → Bool} {msg : KaspadMessage} {b : Bool} (h : q msg = b) :
    (l.push msg).sent.filter q = l.sent.filter q ++ bif b then [msg] else [] := by
  show (l.sent ++ [msg]).filter q = _
  rw [List.filter_append]
  cases b <;> simp [h]

/-- The channel holds three messages at most, and the handler that fills it has kept its options. -/
structure Sound (cfg : Config) (l : Link) : Prop where
  options : l.handler.Of cfg
  taken : l.taken ≤ l.sent.length
  bound : l.sent.length ≤ l.taken + 3

theorem Sound.new (cfg : Config) : Sound cfg { handler := cfg.handler, taken := 0 } where
  options := .new cfg
  taken := Nat.zero_le _
  bound := by
    obtain ⟨-, -, -, -, -, hsend⟩ := cfg.handler_fields
    unfold sent
    rw [hsend]
    exact Nat.le_succ 2

theorem Sound.push (h : Sound cfg l) (hroom : l.Room) (msg : KaspadMessage) :
    Sound cfg (l.push msg) where
  options := h.options.update _ _
  taken := by
    show l.taken ≤ (l.sent ++ [msg]).length
    rw [List.length_append]
    exact Nat.le_add_right_of_le h.taken
  bound := by
    show (l.sent ++ [msg]).length ≤ l.taken + 3
    rw [List.length_append]
    exact hroom

theorem Sound.close (h : Sound cfg l) : Sound cfg l.close :=
  ⟨h.options.update _ _, h.taken, h.bound⟩

theorem Sound.take (h : Sound cfg l) (hwaiting : l.taken < l.sent.length) :
    Sound cfg { l with taken := l.taken + 1 } :=
  ⟨h.options, hwaiting, Nat.le_trans h.bound (by simp)⟩

/-- A worker's event is a message in the channel when it is a send that went through, and nothing to
the channel otherwise. -/
theorem Sound.after (h : Sound cfg l) {e : Event} (hanswers : l.Answers e) :
    Sound cfg (l.after e) := by
  cases e with
  | sent msg ok =>
    cases ok with
    | true => exact h.push hanswers.2 msg
    | false => exact h
  | waited | tested | credited | checked | polled => exact h

/-- A send of the handler is a send. -/
theorem clientSend_cases {msg : KaspadMessage}
    (hsend : l.handler.clientSend msg = (handler, res)) :
    l.closed = true ∧ { l with handler } = l ∧ (∃ e, res = .error e) ∨
    l.closed = false ∧ res = .ok () ∧ { l with handler } = l.push msg := by
  rcases KaspadHandler.clientSend_cases hsend with ⟨hclosed, rfl, hres⟩ | ⟨hopen, hres, rfl⟩
  · exact .inl ⟨hclosed, rfl, hres⟩
  · exact .inr ⟨hopen, hres, rfl⟩

/-- A request is counted before it is sent, so that it is counted when the send fails too. -/
def count (l : Link) : Link :=
  { l with handler.blockTemplateCtr := l.handler.blockTemplateCtr + 1 }

theorem clientGetBlockTemplate_cases (h : l.handler.Of cfg)
    (hsend : l.handler.clientGetBlockTemplate = (handler, res)) :
    l.closed = true ∧ { l with handler } = l.count ∧ (∃ e, res = .error e) ∨
    l.closed = false ∧ res = .ok () ∧
      { l with handler } = l.count.push (cfg.request l.handler.payAddress) := by
  have hextra : l.handler.extraData = cfg.handler.extraData := by
    unfold KaspadHandler.Of at h
    rw [h]
  refine clientSend_cases (l := l.count) ?_
  rw [Config.request, ← hextra]
  exact hsend

theorem Sound.count (h : Sound cfg l) : Sound cfg l.count :=
  ⟨h.options.update _ _, h.taken, h.bound⟩

theorem Sound.clientSend (h : Sound cfg l) {msg : KaspadMessage} (hready : l.Ready)
    (hsend : l.handler.clientSend msg = (handler, res)) : Sound cfg { l with handler } := by
  rcases clientSend_cases hsend with ⟨-, heq, -⟩ | ⟨hopen, -, heq⟩
  · rw [heq]
    exact h
  -- `Ready` is "closed, or has room", and this one is not closed.
  · rw [heq]
    exact h.push (hready.resolve_left (by simp [hopen])) msg

theorem Sound.clientGetBlockTemplate (h : Sound cfg l) (hready : l.Ready)
    (hsend : l.handler.clientGetBlockTemplate = (handler, res)) : Sound cfg { l with handler } := by
  rcases clientGetBlockTemplate_cases h.options hsend with ⟨-, heq, -⟩ | ⟨hopen, -, heq⟩
  · rw [heq]
    exact h.count
  · rw [heq]
    exact h.count.push (hready.resolve_left (by simp [hopen])) _

theorem Sound.listen (h : Sound cfg l) {fuel : ℕ} {msg : KaspadMessage}
    {miner manager : MinerManager} (hready : handler = l.handler ∨ l.Ready)
    (hlisten : l.handler.listen P fuel [(msg, false)] miner = (handler, manager, res)) :
    Sound cfg { l with handler } := by
  rcases KaspadHandler.listen_cases hlisten with ⟨-, hsend, -⟩ | ⟨-, rfl, -⟩
  · rcases hready with rfl | hready
    · exact h
    · exact h.clientGetBlockTemplate hready hsend
  · exact h

end Link

namespace Process
variable {P : Prims} {cfg : Config} {p p' : Process} {a : Action} {as : List Action}

/-- **Every channel stays sound.** One that is connected begins so; for the others there is a lemma
for each way of using a channel. -/
theorem sound_step (hI : ∀ (m : ℕ) (l : Link), p.links[m]? = some l → l.Sound cfg)
    (h : Step P cfg p a p') {m : ℕ} {l : Link} (hl : p'.links[m]? = some l) : l.Sound cfg := by
  have hset {k : ℕ} {l' : Link} (hl' : l'.Sound cfg) (hk : (p.links.set k l')[m]? = some l) :
      l.Sound cfg := by
    rcases Lib.getElem?_set_cases hk with ⟨-, rfl⟩ | ⟨-, hold⟩
    · exact hl'
    · exact hI m l hold
  cases h with
  | connect =>
    rcases Lib.getElem?_concat_cases hl with ⟨-, rfl⟩ | ⟨-, hold⟩
    · exact .new cfg
    · exact hI m l hold
  | subscribe hmain hlast hready hsend =>
    exact hset ((hI _ _ hlast.2).clientSend hready hsend) hl
  | request hmain hlast hready hsend =>
    exact hset ((hI _ _ hlast.2).clientGetBlockTemplate hready hsend) hl
  | message hmain hshutdown hlast hconn hready hlisten =>
    exact hset ((hI _ _ hlast.2).listen hready hlisten) hl
  | failing hmain hshutdown hlast hconn hready hlisten =>
    exact hset ((hI _ _ hlast.2).listen hready hlisten) hl
  | take hold hopen hwaiting => exact hset ((hI _ _ hold).take hwaiting) hl
  | close hold => exact hset (hI _ _ hold).close hl
  | work hold hconn hstep hanswers => exact hset ((hI _ _ hold).after hanswers) hl
  | launch | log | disconnect | error | stop | exit => exact hI m l hl

/-! ## The connections

Of all the actions of the process a connection sees three: a message with a template for it, a step
of one of its threads, and its logger. -/

/-- What of an action the manager and the threads of connection `m` do. -/
def Action.conn (cfg : Config) (m : ℕ) : Action → Option Connection.Action
  | message m' fuel msg =>
    if m' = m then
      (KaspadHandler.template cfg.mineWhenNotSynced msg).map (Connection.Action.process fuel)
    else none
  | work m' i e => if m' = m then some (.work i e) else none
  | log m' hashes => if m' = m then some (.log hashes) else none
  | _ => none

/-- `conn'` after `conn`, by a step or by nothing. -/
def Moves (P : Prims) (shutdown : Bool) (conn conn' : Connection) :
    Option Connection.Action → Prop
  | some b => conn.Step P shutdown b conn'
  | none => conn' = conn

/-- The manager has a template from a turn of `listen`, or nothing. -/
theorem manager_listen {l : Link} {miner manager : MinerManager} {fuel : ℕ} {msg : KaspadMessage}
    {handler : KaspadHandler} {res : Except Halt Unit} (hI : l.Sound cfg)
    (hlisten : l.handler.listen P fuel [(msg, false)] miner = (handler, manager, res)) :
    KaspadHandler.template cfg.mineWhenNotSynced msg = none ∧ manager = miner ∨
    ∃ block, KaspadHandler.template cfg.mineWhenNotSynced msg = some block ∧
      miner.processBlock P fuel block = (manager, res) := by
  have hmine : l.handler.mineWhenNotSynced = cfg.mineWhenNotSynced := by
    have hof := hI.options
    unfold KaspadHandler.Of at hof
    rw [hof]
    exact cfg.handler_fields.2.1
  rcases KaspadHandler.listen_cases hlisten with ⟨hpayload, -, hmanager⟩ | ⟨-, -, htemplate⟩
  · refine .inl ⟨?_, hmanager⟩
    unfold KaspadHandler.template
    rw [hpayload]
  · rwa [hmine] at htemplate

/-- **A connection that is there** moves by what is its own: by the action, if it names this
connection, and not at all if it names another one or none. -/
theorem Step.connection (hI : ∀ (m : ℕ) (l : Link), p.links[m]? = some l → l.Sound cfg)
    (h : Step P cfg p a p') {m : ℕ} {conn : Connection} (hconn : p.connections[m]? = some conn) :
    ∃ conn', p'.connections[m]? = some conn' ∧ Moves P p.shutdown conn conn' (a.conn cfg m) := by
  have hlt : m < p.connections.length := (List.getElem?_eq_some_iff.mp hconn).1
  -- One connection is written back. It is this one, which has moved, or this one is as before.
  have hset {k : ℕ} {conn₁ conn' : Connection} {b : Option Connection.Action}
      (hk : p.connections[k]? = some conn₁) (hmoves : Moves P p.shutdown conn₁ conn' b) :
      ∃ conn'', (p.connections.set k conn')[m]? = some conn'' ∧
        Moves P p.shutdown conn conn'' (if k = m then b else none) := by
    by_cases hkm : k = m
    · subst hkm
      obtain rfl : conn₁ = conn := Option.some.inj (hk.symm.trans hconn)
      rw [if_pos rfl]
      exact ⟨conn', List.getElem?_set_self hlt, hmoves⟩
    · rw [if_neg hkm]
      exact ⟨conn, (List.getElem?_set_ne hkm).trans hconn, rfl⟩
  cases h with
  | launch => exact ⟨conn, (List.getElem?_append_left hlt).trans hconn, rfl⟩
  | @message m' fuel msg l conn₁ handler manager hmain hshutdown hlast hconn₁ hready hlisten =>
    refine hset hconn₁ ?_
    rcases manager_listen (hI _ _ hlast.2) hlisten with ⟨hnone, rfl⟩ | ⟨block, hsome, hprocess⟩
    · rw [hnone]
      rfl
    · rw [hsome]
      have hstep : conn₁.Step P p.shutdown (.process fuel block) _ := .process
      rw [hprocess] at hstep
      exact hstep
  | @work _ i e _ _ _ hl hconn₁ hstep hanswers => exact hset (b := some (.work i e)) hconn₁ hstep
  | @log _ hashes _ _ hmain hlast hconn₁ hstep => exact hset (b := some (.log hashes)) hconn₁ hstep
  | connect | subscribe | request | failing | take | close | disconnect | error | stop | exit =>
    exact ⟨conn, hconn, rfl⟩

/-- A connection that was not there is new. The other steps that write a connection write one that
is there already, so that the index is below the length. -/
theorem Step.connection_new (h : Step P cfg p a p') {m : ℕ} {conn : Connection}
    (hold : p.connections[m]? = none) (hconn : p'.connections[m]? = some conn) :
    ∃ nonces, a = .launch nonces ∧ conn = .new nonces ∧ p.main = .launch ∧
      m = p.connections.length := by
  have hset {k : ℕ} {conn' : Connection}
      (hk : (p.connections.set k conn')[m]? = some conn) : False := by
    have hlt := (List.getElem?_eq_some_iff.mp hk).1
    rw [List.length_set] at hlt
    exact absurd hlt (Nat.not_lt.mpr (List.getElem?_eq_none_iff.mp hold))
  cases h with
  | @launch nonces hmain hlen =>
    rcases Lib.getElem?_concat_cases hconn with ⟨hm, rfl⟩ | ⟨-, hsome⟩
    · exact ⟨nonces, rfl, rfl, hmain, hm⟩
    · exact absurd (hold.symm.trans hsome) (by simp)
  | message => exact (hset hconn).elim
  | work => exact (hset hconn).elim
  | log => exact (hset hconn).elim
  | connect | subscribe | request | failing | take | close | disconnect | error | stop | exit =>
    exact absurd (hold.symm.trans hconn) (by simp)

/-! ## The loop of `World`

A turn of the loop in `main` connects, subscribes, asks for a template, starts the threads and
listens. `World` has the turn begin with the threads, and a turn that fails before that has not
begun there: it is still about to connect. -/

/-- How many connections there are without a manager, and when the flag is set. Between `connect`
and `launch` it is one. After a failure it may be either, and that is told by the two lengths. -/
structure Orderly (p : Process) : Prop where
  links : match p.main with
    | .subscribe | .request | .launch => p.links.length = p.connections.length + 1
    | .connect | .listen => p.links.length = p.connections.length
    | .unwind | .returned => p.connections.length ≤ p.links.length
  shutdown : p.shutdown = true → p.main = .returned

theorem Orderly.le (hI : p.Orderly) : p.connections.length ≤ p.links.length := by
  have hlinks := hI.links
  cases hmain : p.main with
  | subscribe | request | launch =>
    rw [hmain] at hlinks
    exact (Nat.le_succ _).trans hlinks.ge
  | connect | listen =>
    rw [hmain] at hlinks
    exact hlinks.ge
  | unwind | returned => rwa [hmain] at hlinks

theorem Orderly.start : start.Orderly := ⟨rfl, by simp [Process.start]⟩

theorem Orderly.step (hI : p.Orderly) (h : Step P cfg p a p') : p'.Orderly := by
  have hlinks := hI.links
  have hflag (hmain : p.main ≠ .returned) {main : Phase} : p.shutdown = true → main = .returned :=
    fun hset => absurd (hI.shutdown hset) hmain
  cases h with
  | connect hmain hshutdown =>
    rw [hmain] at hlinks
    exact ⟨by simpa using hlinks, hflag (by simp [hmain])⟩
  | @subscribe m l handler res hmain hlast hready hsend =>
    rw [hmain] at hlinks
    refine ⟨?_, hflag (by simp [hmain])⟩
    cases res with
    | ok => simpa [next] using hlinks
    | error e => simp [next, hlinks]
  | @request m l handler res hmain hlast hready hsend =>
    rw [hmain] at hlinks
    refine ⟨?_, hflag (by simp [hmain])⟩
    cases res with
    | ok => simpa [next] using hlinks
    | error e => simp [next, hlinks]
  | launch hmain hlen =>
    rw [hmain] at hlinks
    exact ⟨by simpa using hlinks, hflag (by simp [hmain])⟩
  | message hmain hshutdown hlast hconn hready hlisten =>
    exact ⟨by simpa using hlinks, hI.shutdown⟩
  | failing hmain hshutdown hlast hconn hready hlisten =>
    rw [hmain] at hlinks
    exact ⟨by simpa using hlinks.ge, hflag (by simp [hmain])⟩
  | take | close => exact ⟨by simpa using hlinks, hI.shutdown⟩
  | work | log => exact ⟨by simpa using hlinks, hI.shutdown⟩
  | disconnect hmain | stop hmain =>
    rw [hmain] at hlinks
    exact ⟨hlinks, hflag (by simp [hmain])⟩
  | error hmain =>
    rw [hmain] at hlinks
    exact ⟨hlinks.ge, hflag (by simp [hmain])⟩
  | exit hmain =>
    refine ⟨?_, fun _ => rfl⟩
    rcases hmain with hmain | hmain
    · rw [hmain] at hlinks
      exact hlinks.ge
    · rwa [hmain] at hlinks

/-- The process as `World` sees it, which has no manager before there is one. The unwinding of a
turn that never got to its threads is nothing there, hence the comparison. -/
def world (p : Process) : World where
  main := match p.main with
    | .connect | .subscribe | .request | .launch => .connect
    | .listen => .listen
    | .unwind => if p.links.length = p.connections.length then .unwind else .connect
    | .returned => .returned
  connections := p.connections
  shutdown := p.shutdown

/-- What `World` sees of an action. Everything that only concerns a channel is nothing to it, and
so is a message without a template. -/
def Action.world (cfg : Config) : Action → Option World.Action
  | launch nonces => some (.connect nonces)
  | message m fuel msg =>
    (KaspadHandler.template cfg.mineWhenNotSynced msg).map fun block =>
      .conn m (.process fuel block)
  | work m i e => some (.conn m (.work i e))
  | log m hashes => some (.conn m (.log hashes))
  | disconnect | stop => some .disconnect
  | failing _ _ | error => some .error
  | exit => some .exit
  | connect | subscribe | request | take _ | close _ => none

/-- **One step of the process** is a step of the loop, or nothing to it. -/
theorem Step.world (hO : p.Orderly)
    (hI : ∀ (m : ℕ) (l : Link), p.links[m]? = some l → l.Sound cfg) (h : Step P cfg p a p') :
    match a.world cfg with
    | some b => World.Step P cfg.numThreads p.world b p'.world
    | none => p'.world = p.world := by
  have hlinks := hO.links
  have hopen (hmain : p.main ≠ .returned) : p.shutdown = false := by
    cases hs : p.shutdown with
    | false => rfl
    | true => exact absurd (hO.shutdown hs) hmain
  cases h with
  | connect hmain hshutdown => simp [Action.world, Process.world, hmain]
  | @subscribe m l handler res hmain hlast hready hsend =>
    rw [hmain] at hlinks
    cases res <;> simp [Action.world, Process.world, hmain, next, hlinks]
  | @request m l handler res hmain hlast hready hsend =>
    rw [hmain] at hlinks
    cases res <;> simp [Action.world, Process.world, hmain, next, hlinks]
  | launch hmain hlen =>
    have hstep := World.Step.connect (P := P) (w := p.world) (by simp [Process.world, hmain])
      (hopen (by simp [hmain])) hlen
    exact hstep
  | @message m fuel msg l conn handler manager hmain hshutdown hlast hconn hready hlisten =>
    rw [hmain] at hlinks
    simp only [Action.world]
    rcases manager_listen (hI _ _ hlast.2) hlisten with ⟨hnone, rfl⟩ | ⟨block, hsome, hprocess⟩
    · rw [hnone]
      simp [Process.world, hmain, Lib.set_entry hconn]
    · rw [hsome]
      have hcurrent : p.world.Current m :=
        ⟨by simp [Process.world, hmain], hlast.1.trans hlinks⟩
      have hstep : World.Step P cfg.numThreads p.world (.conn m (.process fuel block)) _ :=
        .conn hconn .process ⟨hcurrent, by rw [hprocess]⟩
      rw [hprocess] at hstep
      simpa [Process.world, hmain] using hstep
  | failing hmain hshutdown hlast hconn hready hlisten =>
    rw [hmain] at hlinks
    have hstep : World.Step P cfg.numThreads p.world .error _ :=
      .error (by simp [Process.world, hmain])
    simpa [Action.world, Process.world, hlinks] using hstep
  | take hl | close hl => simp [Action.world, Process.world]
  | @work m i e l conn conn' hl hconn hstep hanswers =>
    have hstep' : World.Step P cfg.numThreads p.world (.conn m (.work i e)) _ :=
      .conn hconn hstep trivial
    simpa [Action.world, Process.world] using hstep'
  | @log m hashes conn conn' hmain hlast hconn hstep =>
    have hcurrent : p.world.Current m := ⟨by simp [Process.world, hmain], hlast⟩
    have hstep' : World.Step P cfg.numThreads p.world (.conn m (.log hashes)) _ :=
      .conn hconn hstep hcurrent
    simpa [Action.world, Process.world] using hstep'
  | disconnect hmain | stop hmain =>
    have hstep : World.Step P cfg.numThreads p.world .disconnect _ :=
      .disconnect (by simp [Process.world, hmain])
    simpa [Action.world, Process.world] using hstep
  | error hmain =>
    rw [hmain] at hlinks
    have hstep : World.Step P cfg.numThreads p.world .error _ :=
      .error (by simp [Process.world, hmain])
    simpa [Action.world, Process.world, hlinks] using hstep
  -- `main` returns from a turn that failed to connect, or from one that is unwinding. The latter
  -- may never have got to its threads, and is still about to connect then.
  | exit hmain =>
    have hmain' : p.world.main = .connect ∨ p.world.main = .unwind := by
      rcases hmain with hmain | hmain
      · exact .inl (by simp [Process.world, hmain])
      · by_cases hlen : p.links.length = p.connections.length
        · exact .inr (by simp [Process.world, hmain, hlen])
        · exact .inl (by simp [Process.world, hmain, hlen])
    have hstep : World.Step P cfg.numThreads p.world .exit _ := .exit hmain'
    exact hstep

/-- What holds of every state the process gets to, without knowing what was done. -/
structure Invariant (cfg : Config) (p : Process) : Prop where
  orderly : p.Orderly
  sound : ∀ (m : ℕ) (l : Link), p.links[m]? = some l → l.Sound cfg

theorem Invariant.start : Invariant cfg start := ⟨.start, by simp [Process.start]⟩

theorem Invariant.step (hI : p.Invariant cfg) (h : Step P cfg p a p') : p'.Invariant cfg :=
  ⟨hI.orderly.step h, fun _ _ => sound_step hI.sound h⟩

theorem Invariant.of_run (h : Run (Step P cfg) Process.start as p) : p.Invariant cfg :=
  h.invariant (fun _ _ _ hI hstep => hI.step hstep) .start

/-- **The process with its handlers and channels refines the loop of `World`**, whatever kaspad
sends and however its channels are read: the same connections, with the same threads, and a
template where a message brings one. It is a forward simulation by the function `world`, one step
for one step or for none. -/
theorem refines_world (h : Run (Step P cfg) start as p) :
    Run (World.Step P cfg.numThreads) World.start (as.filterMap (Action.world cfg)) p.world := by
  refine h.simulate (I := Invariant cfg) (f := Process.world) ?_ .start
  intro p a p' hI hstep
  refine ⟨hI.step hstep, ?_⟩
  have hworld := hstep.world hI.orderly hI.sound
  revert hworld
  cases a.world cfg with
  | none => exact id
  | some b => exact id

/-! ## One thread that finds a block -/

def benchConfig : Config where
  miningAddress := "kaspa:miner"
  mineWhenNotSynced := false
  userAgentSuffix := none
  devfundAddress := some "kaspa:devfund"
  devfundPercent := 0
  numThreads := 1

/-- The benchmark's template. -/
def benchMessage : KaspadMessage :=
  { payload := some (.getBlockTemplateResponse
      { block := some Pow.benchBlock, isSynced := true, error := none }) }

/-- A connection with one thread from its first message to its first block. The template is solved
at the first nonce. The request for it has to wait until kaspad has taken a message, and so has the
block. -/
def benchActions (st : State) : List Action :=
  [.connect, .subscribe, .take 0, .request, .launch [127], .message 0 1 benchMessage,
    .work 0 0 (.waited (some st)), .work 0 0 (.tested { st with nonce := 127 }), .take 0,
    .work 0 0 (.sent (.submitBlock (Pow.benchBlock.withNonce 127)) true)]

theorem bench_run {st : State} (hst : State.new Pow.solvingPrims 1 0 Pow.benchBlock = .ok st) :
    ∃ p l conn, Run (Step Pow.solvingPrims benchConfig) start (benchActions st) p ∧
      p.links[0]? = some l ∧ l.closed = false ∧ p.connections = [conn] := by
  have hlisten (self : KaspadHandler) :
      self.listen Pow.solvingPrims 1 [(benchMessage, false)] .new =
      (self, { blockChannel := Channel.empty.swap (some st), isSynced := true
               currentStateId := 0 + 1 }, .ok ()) := by
    rw [KaspadHandler.listen_single]
    exact congrArg (Prod.mk self) (MinerManager.processBlock_some hst)
  have hfind : (Miner.benchConnection (Miner.benchThread 127 st) st).Step Pow.solvingPrims false
      (.work 0 (.tested { st with nonce := 127 }))
      (Miner.benchConnection { worker := Miner.solver st 127, seen := 1 } st) :=
    .work rfl (.mk (Miner.solving_tested hst 127 st.nonce) trivial)
  have hmain : Run (Step Pow.solvingPrims benchConfig) start
      [.connect, .subscribe, .take 0, .request, .launch [127], .message 0 1 benchMessage] _ :=
    .cons (.connect rfl rfl) <| .cons (.subscribe rfl ⟨rfl, rfl⟩ (.inr (Nat.lt_succ_self 2)) rfl) <|
    .cons (.take rfl rfl (Nat.succ_pos 2)) <|
    .cons (.request rfl ⟨rfl, rfl⟩ (.inr (Nat.lt_succ_self 3)) rfl) <|
    .cons (.launch rfl rfl) <| .single (.message rfl rfl ⟨rfl, rfl⟩ rfl (.inl rfl) (hlisten _))
  have hrun : Run (Step Pow.solvingPrims benchConfig) start (benchActions st) _ :=
    hmain.append <| .cons (.work rfl rfl (Miner.bench_wait 127 st) trivial) <|
    .cons (.work rfl rfl hfind trivial) <|
    .cons (.take rfl rfl (Nat.succ_lt_succ (Nat.succ_pos 2))) <|
    .single (.work rfl rfl (.work rfl (.mk (.send rfl) trivial)) ⟨rfl, Nat.lt_succ_self 4⟩)
  exact ⟨_, _, _, hrun, rfl, rfl, rfl⟩

theorem refines_world_bench : ∃ st p,
    Run (Step Pow.solvingPrims benchConfig) start (benchActions st) p ∧
    Run (World.Step Pow.solvingPrims 1) World.start
      [.connect [127], .conn 0 (.process 1 (some Pow.benchBlock)),
        .conn 0 (.work 0 (.waited (some st))), .conn 0 (.work 0 (.tested { st with nonce := 127 })),
        .conn 0 (.work 0 (.sent (.submitBlock (Pow.benchBlock.withNonce 127)) true))] p.world := by
  obtain ⟨st, hst⟩ := Pow.solving_new 0
  obtain ⟨p, -, -, hrun, -⟩ := bench_run hst
  exact ⟨st, p, hrun, refines_world hrun⟩

end Process

end KaspaMiner
