import KaspaMiner.Proof.Blocks

/-!
# What kaspad is asked for

Without the blocks, there is in each channel what its handler would have put there alone: `main`
goes through `Config.message` one after the other, whatever the workers do in between (`Asks`).
-/

namespace KaspaMiner

open Lib (Run)

/-- What a handler puts into its channel, one after the other. -/
def Config.message (cfg : Config) : ℕ → KaspadMessage
  | 0 => .getInfoRequest
  | 1 => cfg.request cfg.miningAddress
  | 2 => .ofNotifyNewBlockTemplateRequest
  | k + 3 => cfg.request (cfg.payAddress k)

/-- Between a connection and the end of it. -/
def Phase.talks : Phase → Bool
  | subscribe | request | launch | listen => true
  | _ => false

/-- How much was asked for until then, with `n` notifications. -/
def Phase.asked (n : ℕ) : Phase → ℕ
  | subscribe => 2
  | request => 3
  | _ => n + 4

/-- A notification of a new template. -/
def KaspadMessage.isNotification (msg : KaspadMessage) : Bool :=
  match msg.payload with
  | some .newBlockTemplateNotification => true
  | _ => false

namespace Link

/-- What is in the channel apart from blocks. -/
def requests (l : Link) : List KaspadMessage := l.sent.filter fun msg => !msg.isSubmit

end Link

/-- In each channel there are the requests that belong there. `n` counts the notifications of each
connection, and `made` the managers. Of a connection with a manager the first four are all there,
and one more for each notification; of one that failed before, only some need be. The last channel
is the one `main` is busy with, and how far it has got there is told by its phase. -/
structure Asks (cfg : Config) (n : ℕ → ℕ) (main : Phase) (links : List Link) (made : ℕ) : Prop where
  requests : ∀ (m : ℕ) (l : Link), links[m]? = some l →
    ∃ k, l.requests = (List.range k).map cfg.message ∧ (m < made → k = n m + 4) ∧
      (main.talks = true → m + 1 = links.length →
        k = main.asked (n m) ∧ l.handler.blockTemplateCtr = UInt64.ofNat (k - 3))
  fresh : ∀ m, made ≤ m → n m = 0

namespace Asks
variable {cfg : Config} {n : ℕ → ℕ} {main main' : Phase} {links : List Link} {made m : ℕ}
  {l l' : Link}

theorem start : Asks cfg (fun _ => 0) .connect [] 0 :=
  ⟨fun m l hl => absurd hl (by simp), fun _ _ => rfl⟩

/-- Nothing is asked for. -/
theorem set (h : Asks cfg n main links made) (hl : links[m]? = some l)
    (hrequests : l'.requests = l.requests)
    (hctr : l'.handler.blockTemplateCtr = l.handler.blockTemplateCtr) :
    Asks cfg n main (links.set m l') made where
  requests k l'' hk := by
    rw [List.length_set]
    rcases Lib.getElem?_set_cases hk with ⟨rfl, rfl⟩ | ⟨-, hold⟩
    · rw [hrequests, hctr]
      exact h.requests _ _ hl
    · exact h.requests _ _ hold
  fresh := h.fresh

/-- The end of a connection. -/
theorem ends (h : Asks cfg n main links made) (hmain' : main'.talks = false) :
    Asks cfg n main' links made where
  requests m l hl := by
    obtain ⟨k, hk, hmade, -⟩ := h.requests m l hl
    exact ⟨k, hk, hmade, fun htalks => absurd (hmain'.symm.trans htalks) (by simp)⟩
  fresh := h.fresh

/-- The end of a connection, by a request that is not sent. -/
theorem fails (h : Asks cfg n main links made) (hl : links[m]? = some l)
    (hrequests : l'.requests = l.requests) (hmain' : main'.talks = false) :
    Asks cfg n main' (links.set m l') made where
  requests k l'' hk := by
    obtain ⟨l₀, hl₀, heq⟩ : ∃ l₀, links[k]? = some l₀ ∧ l''.requests = l₀.requests := by
      rcases Lib.getElem?_set_cases hk with ⟨rfl, rfl⟩ | ⟨-, hold⟩
      · exact ⟨l, hl, hrequests⟩
      · exact ⟨l'', hold, rfl⟩
    obtain ⟨j, hj, hmade, -⟩ := h.requests k l₀ hl₀
    exact ⟨j, heq.trans hj, hmade, fun htalks => absurd (hmain'.symm.trans htalks) (by simp)⟩
  fresh := h.fresh

/-- `main` asks for the next thing. -/
theorem asks (h : Asks cfg n main links made) {n' : ℕ → ℕ} (hl : links[m]? = some l)
    (hlast : m + 1 = links.length) (htalks : main.talks = true) {msg : KaspadMessage}
    (hmsg : msg = cfg.message (main.asked (n m))) (hrequests : l'.requests = l.requests ++ [msg])
    (hctr : l'.handler.blockTemplateCtr = UInt64.ofNat (main.asked (n m) + 1 - 3))
    (hasked : main.asked (n m) + 1 = main'.asked (n' m)) (hmade : m < made → n' m = n m + 1)
    (hother : ∀ k, k ≠ m → n' k = n k) (hfresh : made ≤ m → n' m = 0) :
    Asks cfg n' main' (links.set m l') made where
  requests k l'' hk := by
    rw [List.length_set]
    rcases Lib.getElem?_set_cases hk with ⟨rfl, rfl⟩ | ⟨hne, hold⟩
    · obtain ⟨j, hj, hjmade, hjlast⟩ := h.requests _ _ hl
      obtain ⟨rfl, -⟩ := hjlast htalks hlast
      refine ⟨main.asked (n k) + 1, ?_, ?_, fun _ _ => ⟨hasked, hctr⟩⟩
      · rw [hrequests, hj, hmsg, List.range_succ, List.map_append]
        rfl
      · intro hlt
        rw [hjmade hlt, hmade hlt]
    · obtain ⟨j, hj, hjmade, -⟩ := h.requests _ _ hold
      refine ⟨j, hj, fun hlt => by rw [hjmade hlt, hother k hne], fun _ hk => ?_⟩
      exact absurd (Nat.succ.inj (hk.trans hlast.symm)) hne
  fresh k hk := by
    by_cases hkm : k = m
    · subst hkm
      exact hfresh hk
    · rw [hother k hkm]
      exact h.fresh k hk

end Asks

namespace Process
variable {P : Prims} {cfg : Config} {p p' : Process} {a : Action} {as : List Action}

/-- Whether `main` answers a notification on connection `m`. -/
def Action.notifies (m : ℕ) : Action → Bool
  | message m' _ msg => decide (m' = m) && msg.isNotification
  | _ => false

/-- How many notifications were answered on connection `m`. -/
def notified (m : ℕ) (as : List Action) : ℕ := as.countP (Action.notifies m)

theorem notified_append (m : ℕ) (as bs : List Action) :
    notified m (as ++ bs) = notified m as + notified m bs := List.countP_append ..

/-- **One step.** It asks for nothing, or for the next thing, or it is the end of the connection.
The workers' messages have to be blocks. -/
theorem asks_step {n : ℕ → ℕ} (hI : p.Invariant cfg)
    (hA : Asks cfg n p.main p.links p.connections.length) (h : Step P cfg p a p')
    (hsubmit : ∀ m msg, a.handed m = some msg → msg.isSubmit = true) :
    Asks cfg (fun m => n m + notified m [a]) p'.main p'.links p'.connections.length := by
  have hlinks := hI.orderly.links
  have hquiet (ha : ∀ m, a.notifies m = false) : (fun m => n m + notified m [a]) = n := by
    funext m
    rw [notified, List.countP_singleton, ha m]
    rfl
  cases h with
  | connect hmain hshutdown =>
    rw [hquiet fun _ => rfl]
    rw [hmain] at hlinks
    refine ⟨fun m l hl => ?_, hA.fresh⟩
    -- The new channel begins with two requests. The others are not the last any more.
    rcases Lib.getElem?_concat_cases hl with ⟨rfl, rfl⟩ | ⟨hlt, hold⟩
    · obtain ⟨-, -, -, -, hctr, hsend⟩ := cfg.handler_fields
      refine ⟨2, ?_, fun hlt => absurd hlt (by rw [hlinks]; exact Nat.lt_irrefl _),
        fun _ _ => ⟨rfl, hctr⟩⟩
      unfold Link.requests Link.sent
      rw [hsend]
      rfl
    · obtain ⟨k, hk, hmade, -⟩ := hA.requests m l hold
      refine ⟨k, hk, hmade, fun _ hlast => ?_⟩
      rw [List.length_append, List.length_singleton] at hlast
      exact absurd (Nat.succ.inj hlast) (Nat.ne_of_lt hlt)
  | @subscribe m l handler res hmain hlast hready hsend =>
    rw [hquiet fun _ => rfl]
    rw [hmain] at hA hlinks
    have hm : p.connections.length ≤ m := by have := hlast.1; omega
    rcases Link.clientSend_cases hsend with ⟨-, heq, e, rfl⟩ | ⟨-, rfl, heq⟩
    · rw [heq]
      exact hA.fails hlast.2 rfl rfl
    · rw [heq]
      obtain ⟨k, -, -, hk⟩ := hA.requests _ _ hlast.2
      obtain ⟨rfl, hctr⟩ := hk rfl hlast.1
      exact hA.asks hlast.2 hlast.1 rfl rfl (Link.filter_push rfl) hctr rfl
        (fun hlt => absurd hlt (Nat.not_lt.mpr hm)) (fun _ _ => rfl) (hA.fresh m)
  | @request m l handler res hmain hlast hready hsend =>
    rw [hquiet fun _ => rfl]
    rw [hmain] at hA hlinks
    have hm : p.connections.length ≤ m := by have := hlast.1; omega
    rcases Link.clientGetBlockTemplate_cases (hI.sound _ _ hlast.2).options hsend with
      ⟨-, heq, e, rfl⟩ | ⟨-, rfl, heq⟩
    · rw [heq]
      exact hA.fails hlast.2 rfl rfl
    · rw [heq]
      obtain ⟨k, -, -, hk⟩ := hA.requests _ _ hlast.2
      obtain ⟨rfl, hctr⟩ := hk rfl hlast.1
      have hpay := (hI.sound _ _ hlast.2).options.payAddress (k := 0) hctr
      refine hA.asks hlast.2 hlast.1 rfl ?_ (Link.filter_push rfl) ?_ ?_
        (fun hlt => absurd hlt (Nat.not_lt.mpr hm)) (fun _ _ => rfl) (hA.fresh m)
      · rw [hpay]
        rfl
      · show l.handler.blockTemplateCtr + 1 = _
        rw [hctr]
        rfl
      · show 3 + 1 = n m + 4
        rw [hA.fresh m hm]
  | launch hmain hlen =>
    rw [hquiet fun _ => rfl]
    rw [hmain] at hA hlinks
    rw [List.length_append, List.length_singleton]
    refine ⟨fun m l hl => ?_, fun m hm => hA.fresh m (Nat.le_of_succ_le hm)⟩
    obtain ⟨k, hk, hmade, hlast⟩ := hA.requests m l hl
    have hlt := (List.getElem?_eq_some_iff.mp hl).1
    refine ⟨k, hk, fun hm => ?_, hlast⟩
    rcases Nat.lt_succ_iff_lt_or_eq.mp hm with hold | rfl
    · exact hmade hold
    · exact (hlast rfl hlinks.symm).1
  | @message m fuel msg l conn handler manager hmain hshutdown hlast hconn hready hlisten =>
    rw [hmain] at hA hlinks
    rw [List.length_set, hmain]
    have hm : m < p.connections.length := by have := hlast.1; omega
    -- A notification is answered with a request, and nothing else is.
    rcases KaspadHandler.listen_cases hlisten with ⟨hpayload, hsend, -⟩ | ⟨hpayload, rfl, -⟩
    · have hnotifies (k : ℕ) : notified k [.message m fuel msg] = if m = k then 1 else 0 := by
        rw [notified, List.countP_singleton]
        simp [Action.notifies, KaspadMessage.isNotification, hpayload]
      rcases Link.clientGetBlockTemplate_cases (hI.sound _ _ hlast.2).options hsend with
        ⟨-, -, e, he⟩ | ⟨-, -, heq⟩
      · exact absurd he (by simp)
      · rw [heq]
        obtain ⟨k, -, -, hk⟩ := hA.requests _ _ hlast.2
        obtain ⟨rfl, hctr⟩ := hk rfl hlast.1
        have hpay := (hI.sound _ _ hlast.2).options.payAddress (k := n m + 1) hctr
        refine hA.asks hlast.2 hlast.1 rfl ?_ (Link.filter_push rfl) ?_ ?_ ?_ ?_
          (fun hle => absurd hm (Nat.not_lt.mpr hle))
        · rw [hpay]
          rfl
        · show l.handler.blockTemplateCtr + 1 = _
          rw [hctr]
          exact (UInt64.ofNat_add (n m + 1) 1).symm
        · simp only [hnotifies]
          rfl
        · intro _
          simp only [hnotifies]
          rfl
        · intro k hk
          simp only [hnotifies, if_neg (Ne.symm hk)]
          rfl
    · rw [hquiet fun k => ?_]
      · exact hA.set hlast.2 rfl rfl
      · have hno : msg.isNotification = false := by
          unfold KaspadMessage.isNotification
          split
          next h => exact absurd h hpayload
          next => rfl
        simp [Action.notifies, hno]
  | @failing m fuel msg l conn handler manager e hmain hshutdown hlast hconn hready hlisten hhalt =>
    rw [hquiet fun _ => rfl]
    rw [hmain] at hA
    rcases KaspadHandler.listen_cases hlisten with ⟨-, hsend, -⟩ | ⟨-, rfl, -⟩
    · rcases Link.clientGetBlockTemplate_cases (hI.sound _ _ hlast.2).options hsend with
        ⟨-, heq, -⟩ | ⟨-, he, -⟩
      · rw [heq]
        exact hA.fails hlast.2 rfl rfl
      · exact absurd he (by simp)
    · exact hA.fails hlast.2 rfl rfl
  | take hl hopen hwaiting =>
    rw [hquiet fun _ => rfl]
    exact hA.set hl rfl rfl
  | close hl =>
    rw [hquiet fun _ => rfl]
    exact hA.set hl rfl rfl
  | @work m i e l conn conn' hl hconn hstep hanswers =>
    rw [hquiet fun _ => rfl, List.length_set]
    cases e with
    | sent msg ok =>
      cases ok with
      | true =>
        have hmsg : (!msg.isSubmit) = false := by rw [hsubmit m msg (if_pos rfl), Bool.not_true]
        exact hA.set hl ((Link.filter_push hmsg).trans (List.append_nil _)) rfl
      | false => exact hA.set hl rfl rfl
    | waited | tested | credited | checked | polled => exact hA.set hl rfl rfl
  | log hmain hlast hconn hstep =>
    rw [hquiet fun _ => rfl, List.length_set]
    exact hA
  | disconnect | error | stop | exit =>
    rw [hquiet fun _ => rfl]
    exact hA.ends rfl

theorem asks_of_run (h : Run (Step P cfg) start as p) :
    Asks cfg (fun m => notified m as) p.main p.links p.connections.length := by
  refine h.history (Q := fun as p => Asks cfg (fun m => notified m as) p.main p.links
    p.connections.length) .start ?_
  intro as p a p' hrun ih hstep
  have hasks := asks_step (Invariant.of_run hrun) ih hstep
    fun _ _ ha => submit_of_handed hrun hstep ha
  simpa only [notified_append] using hasks

/-- **What kaspad is asked for** does not depend on the workers. On every connection that got a
manager, the requests are those of a handler that was notified as often, in this order: the
information, a template for the miner, the notifications, and one template after the other, each for
the devfund or for the miner as its number says. At most three messages wait. -/
theorem requests_follow (h : Run (Step P cfg) start as p) {m : ℕ} {l : Link}
    (hl : p.links[m]? = some l) (hm : m < p.connections.length) :
    l.requests = (List.range (notified m as + 4)).map cfg.message ∧
      l.taken ≤ l.sent.length ∧ l.sent.length ≤ l.taken + 3 := by
  have hsound := (Invariant.of_run h).sound m l hl
  obtain ⟨k, hk, hmade, -⟩ := (asks_of_run h).requests m l hl
  refine ⟨?_, hsound.taken, hsound.bound⟩
  rw [hk, hmade hm]

theorem requests_follow_bench : ∃ st p l,
    Run (Step Pow.solvingPrims benchConfig) start (benchActions st) p ∧ p.links[0]? = some l ∧
    l.requests = [.getInfoRequest, benchConfig.request "kaspa:miner",
      .ofNotifyNewBlockTemplateRequest, benchConfig.request "kaspa:devfund"] := by
  obtain ⟨st, hst⟩ := Pow.solving_new 0
  obtain ⟨p, l, conn, hrun, hl, -, hconns⟩ := bench_run hst
  have hm : 0 < p.connections.length := by rw [hconns]; exact Nat.one_pos
  exact ⟨st, p, l, hrun, hl, (requests_follow hrun hl hm).1⟩

/-! ## The share of the devfund -/

/-- **The share of the devfund** over a whole connection: of the templates that are counted, the
first `devfund_percent + 1` of every ten thousand. -/
theorem devfund_follows (h : Run (Step P cfg) start as p) {m : ℕ} {l : Link}
    (hl : p.links[m]? = some l) (hm : m < p.connections.length) {devfundAddress : String}
    (hdev : cfg.devfundAddress = some devfundAddress) (hne : devfundAddress ≠ cfg.miningAddress)
    (hpercent : cfg.devfundPercent.toNat ≤ 9999) (hwrap : notified m as < 2 ^ 64) :
    l.sent.countP (KaspadMessage.pays devfundAddress) =
      (notified m as + 1) / 10000 * (cfg.devfundPercent.toNat + 1) +
        min ((notified m as + 1) % 10000) (cfg.devfundPercent.toNat + 1) := by
  have hrequests : l.sent.countP (KaspadMessage.pays devfundAddress) =
      l.requests.countP (KaspadMessage.pays devfundAddress) := by
    rw [Link.requests, List.countP_filter]
    refine List.countP_congr fun msg _ => ?_
    obtain ⟨payload⟩ := msg
    cases payload with
    | none => simp [KaspadMessage.pays]
    | some payload => cases payload <;> simp [KaspadMessage.pays, KaspadMessage.isSubmit]
  have hcounted (k : ℕ) (hk : k < notified m as + 1) :
      (cfg.message (3 + k)).pays devfundAddress = true ↔
        k % 10000 ≤ cfg.devfundPercent.toNat := by
    have hmod : k % 2 ^ 64 = k := Nat.mod_eq_of_lt (by omega)
    rw [Nat.add_comm 3 k]
    show (cfg.payAddress k == devfundAddress) = true ↔ _
    rw [beq_iff_eq, Config.payAddress, hdev, hmod]
    by_cases hle : k % 10000 ≤ cfg.devfundPercent.toNat
    · simp [hle]
    · simp [hle, Ne.symm hne]
  -- The first three are not counted by the handler. The one template among them pays the miner.
  have hnone : (List.range 3).countP (KaspadMessage.pays devfundAddress ∘ cfg.message) = 0 := by
    simp [List.range_succ, Config.message, KaspadMessage.pays, KaspadMessage.getInfoRequest,
      Config.request, KaspadMessage.ofGetBlockTemplateRequest,
      KaspadMessage.ofNotifyNewBlockTemplateRequest, Ne.symm hne]
  calc l.sent.countP (KaspadMessage.pays devfundAddress)
      = (List.range (3 + (notified m as + 1))).countP
          (KaspadMessage.pays devfundAddress ∘ cfg.message) := by
        rw [hrequests, (requests_follow h hl hm).1, List.countP_map, Nat.add_comm 3]
    _ = (List.range (notified m as + 1)).countP fun k => k % 10000 ≤ cfg.devfundPercent.toNat := by
        rw [List.range_add, List.countP_append, hnone, Nat.zero_add, List.countP_map]
        refine List.countP_congr fun k hk => ?_
        rw [decide_eq_true_iff]
        exact hcounted k (List.mem_range.mp hk)
    _ = _ := Lib.count_mod_eq (Nat.lt_succ_of_le hpercent) _

theorem devfund_follows_bench : ∃ st p l,
    Run (Step Pow.solvingPrims benchConfig) start (benchActions st) p ∧ p.links[0]? = some l ∧
    l.sent.countP (KaspadMessage.pays "kaspa:devfund") = 1 := by
  obtain ⟨st, hst⟩ := Pow.solving_new 0
  obtain ⟨p, l, conn, hrun, hl, -, hconns⟩ := bench_run hst
  have hm : 0 < p.connections.length := by rw [hconns]; exact Nat.one_pos
  have hne : "kaspa:devfund" ≠ benchConfig.miningAddress := by decide
  have hnotified : notified 0 (benchActions st) = 0 := rfl
  have hwrap : notified 0 (benchActions st) < 2 ^ 64 := Nat.pow_pos Nat.two_pos
  have hcount := devfund_follows hrun hl hm rfl hne (Nat.zero_le _) hwrap
  rw [hnotified] at hcount
  exact ⟨st, p, l, hrun, hl, hcount⟩

end Process

end KaspaMiner
