import KaspaMiner.Client
import KaspaMiner.Lib.Window

/-!
# The share of the devfund

`devfund_percent` is in hundredths of a percent, so of ten thousand templates it should be the
number that pay the devfund. The comparison in `client_get_block_template` is with `≤`, and of the
ten thousand residues of the counter one more than that are at most `devfund_percent`.
-/

namespace KaspaMiner

/-- A request for a template that pays the address. -/
def KaspadMessage.pays (address : String) (msg : KaspadMessage) : Bool :=
  match msg.payload with
  | some (.getBlockTemplateRequest r) => r.payAddress == address
  | _ => false

namespace KaspadHandler

/-- The handler after `n` calls of `client_get_block_template`. -/
def afterCalls : ℕ → KaspadHandler → KaspadHandler
  | 0, self => self
  | n + 1, self => (afterCalls n self).clientGetBlockTemplate.1

/-- The addresses that `n` calls ask to be paid, in order. -/
def payAddresses (n : ℕ) (self : KaspadHandler) : List String :=
  (List.range n).map fun k => (afterCalls k self).payAddress

/-- Of any ten thousand consecutive calls, `devfund_percent` pay the devfund and the others the
miner. -/
def DevfundShare (self : KaspadHandler) : Prop :=
  ∀ devfundAddress, self.devfundAddress = some devfundAddress → ∀ n,
    (payAddresses 10000 (afterCalls n self)).countP (· = devfundAddress) =
      self.devfundPercent.toNat ∧
    (payAddresses 10000 (afterCalls n self)).countP (· = self.minerAddress) =
      10000 - self.devfundPercent.toNat

/-! ## What a call leaves -/

/-- Everything a call reads apart from the counter. -/
theorem clientGetBlockTemplate_fields (self : KaspadHandler) :
    self.clientGetBlockTemplate.1.blockTemplateCtr = self.blockTemplateCtr + 1 ∧
    self.clientGetBlockTemplate.1.devfundAddress = self.devfundAddress ∧
    self.clientGetBlockTemplate.1.devfundPercent = self.devfundPercent ∧
    self.clientGetBlockTemplate.1.minerAddress = self.minerAddress ∧
    self.clientGetBlockTemplate.1.extraData = self.extraData := by
  unfold clientGetBlockTemplate
  rw [clientSend]
  split <;> exact ⟨rfl, rfl, rfl, rfl, rfl⟩

theorem afterCalls_fields (n : ℕ) (self : KaspadHandler) :
    (afterCalls n self).blockTemplateCtr = self.blockTemplateCtr + UInt64.ofNat n ∧
    (afterCalls n self).devfundAddress = self.devfundAddress ∧
    (afterCalls n self).devfundPercent = self.devfundPercent ∧
    (afterCalls n self).minerAddress = self.minerAddress ∧
    (afterCalls n self).extraData = self.extraData := by
  induction n with
  | zero => exact ⟨by simp [afterCalls], rfl, rfl, rfl, rfl⟩
  | succ n ih =>
    obtain ⟨h₁, h₂, h₃, h₄, h₅⟩ := clientGetBlockTemplate_fields (afterCalls n self)
    obtain ⟨i₁, i₂, i₃, i₄, i₅⟩ := ih
    refine ⟨?_, h₂.trans i₂, h₃.trans i₃, h₄.trans i₄, h₅.trans i₅⟩
    unfold afterCalls
    rw [h₁, i₁, UInt64.ofNat_add, UInt64.add_assoc]
    rfl

/-- While the channel is open, the calls put these requests into it and nothing else. -/
theorem afterCalls_sent (n : ℕ) (self : KaspadHandler) (hopen : self.sendChannel.closed = false) :
    (afterCalls n self).sendChannel.closed = false ∧
    (afterCalls n self).sendChannel.sent = self.sendChannel.sent ++
      (payAddresses n self).map fun payAddress =>
        .ofGetBlockTemplateRequest { payAddress, extraData := self.extraData } := by
  induction n with
  | zero => exact ⟨hopen, by simp [afterCalls, payAddresses]⟩
  | succ n ih =>
    obtain ⟨-, -, -, -, hextra⟩ := afterCalls_fields n self
    have hlist : payAddresses (n + 1) self =
        payAddresses n self ++ [(afterCalls n self).payAddress] := by
      unfold payAddresses
      rw [List.range_succ, List.map_append]
      rfl
    unfold afterCalls
    rw [clientGetBlockTemplate, clientSend, if_neg (by simp [ih.1])]
    refine ⟨ih.1, ?_⟩
    rw [hlist, List.map_append, ← List.append_assoc, ← ih.2, List.map_singleton, ← hextra]

/-- So of the messages sent, those that pay an address are as many as the calls that chose it. -/
theorem afterCalls_pays (n : ℕ) (self : KaspadHandler) (hopen : self.sendChannel.closed = false)
    (address : String) :
    ∃ msgs, (afterCalls n self).sendChannel.sent = self.sendChannel.sent ++ msgs ∧
      msgs.length = n ∧
      msgs.countP (KaspadMessage.pays address) = (payAddresses n self).countP (· = address) := by
  refine ⟨_, (afterCalls_sent n self hopen).2, ?_, ?_⟩
  · rw [List.length_map, payAddresses, List.length_map, List.length_range]
  · rw [List.countP_map]
    refine List.countP_congr fun payAddress _ => ?_
    show (payAddress == address) = true ↔ _
    rw [beq_iff_eq, decide_eq_true_iff]

theorem payAddress_eq {self : KaspadHandler} {devfundAddress : String}
    (h : self.devfundAddress = some devfundAddress) : self.payAddress =
      if self.blockTemplateCtr.toNat % 10000 ≤ self.devfundPercent.toNat then devfundAddress
      else self.minerAddress := by
  have hcast : (self.blockTemplateCtr % 10000).toUInt16 ≤ self.devfundPercent ↔
      self.blockTemplateCtr.toNat % 10000 ≤ self.devfundPercent.toNat := by
    rw [UInt16.le_iff_toNat_le, UInt64.toNat_toUInt16, UInt64.toNat_mod]
    have : (10000 : UInt64).toNat = 10000 := rfl
    rw [this, Nat.mod_eq_of_lt (by omega)]
  unfold payAddress
  rw [h]
  simp only [hcast]

/-! ## The count -/

variable {self : KaspadHandler} {devfundAddress : String}

theorem countP_payAddresses (n : ℕ) (self : KaspadHandler) (address : String) :
    (payAddresses n self).countP (· = address) =
      Nat.count (fun k => (afterCalls k self).payAddress = address) n := by
  unfold payAddresses
  rw [List.countP_map, Nat.count]
  rfl

theorem payAddress_afterCalls (h : self.devfundAddress = some devfundAddress) (k : ℕ) :
    (afterCalls k self).payAddress =
      if (self.blockTemplateCtr.toNat + k) % 2 ^ 64 % 10000 ≤ self.devfundPercent.toNat
      then devfundAddress else self.minerAddress := by
  obtain ⟨hctr, hdev, hpercent, hminer, -⟩ := afterCalls_fields k self
  rw [payAddress_eq (hdev.trans h), hctr, hpercent, hminer, UInt64.toNat_add, UInt64.toNat_ofNat',
    Nat.add_mod_mod]

/-- One more than `devfund_percent`, at least. -/
theorem devfund_count_ge (h : self.devfundAddress = some devfundAddress)
    (hp : self.devfundPercent.toNat ≤ 9999) :
    self.devfundPercent.toNat + 1 ≤ (payAddresses 10000 self).countP (· = devfundAddress) := by
  rw [countP_payAddresses]
  refine le_trans (Lib.le_count_window (m := 10000) (M := 2 ^ 64) (by omega) (by decide)
    self.blockTemplateCtr.toNat_lt) ?_
  apply Nat.count_mono_left
  intro k _ hk
  rw [payAddress_afterCalls h, if_pos hk]

/-- And exactly that, when the counter does not wrap and the two addresses are not the same. -/
theorem devfund_count_eq (h : self.devfundAddress = some devfundAddress)
    (hp : self.devfundPercent.toNat ≤ 9999) (hne : devfundAddress ≠ self.minerAddress)
    (hwrap : self.blockTemplateCtr.toNat + 10000 ≤ 2 ^ 64) :
    (payAddresses 10000 self).countP (· = devfundAddress) = self.devfundPercent.toNat + 1 := by
  refine le_antisymm ?_ (devfund_count_ge h hp)
  rw [countP_payAddresses]
  refine le_trans (Nat.count_mono_left
    (q := fun k => (self.blockTemplateCtr.toNat + k) % 10000 ≤ self.devfundPercent.toNat)
    ?_) (Lib.count_window (m := 10000) (by omega) _).le
  intro k hk hpay
  -- Without a wrap the counter runs through ten thousand residues, each once.
  have hlt : self.blockTemplateCtr.toNat + k < 2 ^ 64 := by omega
  rw [payAddress_afterCalls h, Nat.mod_eq_of_lt hlt] at hpay
  by_contra hgt
  rw [if_neg hgt] at hpay
  exact hne hpay.symm

/-- **The devfund never gets its share**: whatever the percentage and however many templates were
asked for before, of the next ten thousand more than `devfund_percent` pay the devfund — one more,
as long as the counter does not wrap. While the channel is open, the requests put into it pay the
addresses that are counted here. -/
theorem devfund_share_exceeded (self : KaspadHandler) (devfundAddress : String)
    (h : self.devfundAddress = some devfundAddress) (hp : self.devfundPercent.toNat ≤ 9999) :
    ¬ self.DevfundShare ∧
    (∀ n, self.devfundPercent.toNat <
      (payAddresses 10000 (afterCalls n self)).countP (· = devfundAddress)) ∧
    (∀ n, devfundAddress ≠ self.minerAddress →
      (self.blockTemplateCtr + UInt64.ofNat n).toNat + 10000 ≤ 2 ^ 64 →
      (payAddresses 10000 (afterCalls n self)).countP (· = devfundAddress) =
        self.devfundPercent.toNat + 1) ∧
    ∀ n, self.sendChannel.closed = false →
      ∃ msgs, (afterCalls 10000 (afterCalls n self)).sendChannel.sent =
          (afterCalls n self).sendChannel.sent ++ msgs ∧
        msgs.length = 10000 ∧
        msgs.countP (KaspadMessage.pays devfundAddress) =
          (payAddresses 10000 (afterCalls n self)).countP (· = devfundAddress) := by
  have hmore : ∀ n, self.devfundPercent.toNat <
      (payAddresses 10000 (afterCalls n self)).countP (· = devfundAddress) := by
    intro n
    obtain ⟨-, hdev, hpercent, -⟩ := afterCalls_fields n self
    have hge := devfund_count_ge (hdev.trans h) (by rw [hpercent]; exact hp)
    rw [hpercent] at hge
    exact hge
  refine ⟨?_, hmore, ?_, fun n hopen =>
    afterCalls_pays 10000 _ (afterCalls_sent n self hopen).1 devfundAddress⟩
  · intro hshare
    have heq := (hshare devfundAddress h 0).1
    have hlt := hmore 0
    omega
  · intro n hne hwrap
    obtain ⟨hctr, hdev, hpercent, hminer, -⟩ := afterCalls_fields n self
    rw [devfund_count_eq (hdev.trans h) (by rw [hpercent]; exact hp) (by rw [hminer]; exact hne)
      (by rw [hctr]; exact hwrap), hpercent]

/-- With `--devfund-percent=1.00` on a new connection. -/
theorem devfund_share_exceeded_one :
    ¬ ((connect "kaspa:miner" false none).addDevfund "kaspa:devfund" 100).DevfundShare :=
  (devfund_share_exceeded _ "kaspa:devfund" rfl (by decide)).1

/-- With `--devfund-percent=0` on a new connection, a template pays the devfund all the same. -/
theorem devfund_share_zero :
    ¬ ((connect "kaspa:miner" false none).addDevfund "kaspa:devfund" 0).DevfundShare := by
  intro hshare
  have heq := (hshare "kaspa:devfund" rfl 0).1
  have hdev : ((connect "kaspa:miner" false none).addDevfund "kaspa:devfund" 0).devfundAddress =
      some "kaspa:devfund" := rfl
  have hge := devfund_count_ge hdev (by decide)
  unfold afterCalls at heq
  omega

end KaspadHandler
end KaspaMiner
