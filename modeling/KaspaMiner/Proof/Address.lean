import KaspaMiner.Cli
import KaspaMiner.Lib.Uri

/-!
# The address of kaspad as a URI

What `IpAddr::from_str` accepts is spliced into `grpc://…:port`. Every reader of the address
parser is described by the text it takes off the front (`Takes`): the text of an IPv4 address is
one of the URI grammar as well, and the text of an IPv6 address has two colons at least. The
authority of a URI has one colon outside of brackets, before the port, so the first is read back
as it was and the second is no host at all (`process_uri_iff`).
-/

namespace KaspaMiner

open Lib.Uri

namespace IpAddr

/-! ## What a reader takes -/

/-- On success `reader` takes a text off the front that `P` relates to what it answers. -/
def Takes {α : Type} (reader : Reader α) (P : List Char → α → Prop) : Prop :=
  ∀ ⦃s x rest⦄, reader s = some (x, rest) → ∃ t, s = t ++ rest ∧ P t x

/-- The text with its separator. -/
def separated (sep : Char) (index : ℕ) (t : List Char) : List Char :=
  if index > 0 then sep :: t else t

theorem Takes.separator {α : Type} {reader : Reader α} {P : List Char → α → Prop} {sep : Char}
    {index : ℕ} (h : Takes reader P) :
    Takes (readSeparator sep index reader) fun t x => ∃ u, t = separated sep index u ∧ P u x := by
  intro s x rest hs
  unfold readSeparator at hs
  unfold separated
  split at hs
  next hindex =>
    simp only [if_pos hindex]
    cases s with
    | nil => simp [readGivenChar] at hs
    | cons c s =>
      simp only [readGivenChar] at hs
      split at hs
      next hc =>
        obtain ⟨u, rfl, hu⟩ := h hs
        exact ⟨sep :: u, by rw [hc, List.cons_append], u, rfl, hu⟩
      next => simp at hs
  next hindex =>
    simp only [if_neg hindex]
    obtain ⟨u, rfl, hu⟩ := h hs
    exact ⟨u, rfl, u, rfl, hu⟩

/-! ## Numbers -/

theorem isHexDigit_of_charToDigit {radix digit : ℕ} {c : Char} (hradix : radix ≤ 16)
    (h : charToDigit radix c = some digit) : IsHexDigit c := by
  unfold charToDigit at h
  unfold IsHexDigit IsDigit
  have hc : c.toNat = c.val.toNat := rfl
  have h0 : '0'.toNat = 48 := rfl
  have ha : 'a'.toNat = 97 := rfl
  have hA : 'A'.toNat = 65 := rfl
  simp only [Char.le_def, UInt32.le_iff_toNat_le] at h ⊢
  grind

theorem toDigits_charToDigit {digit : ℕ} {c : Char} (h : charToDigit 10 c = some digit) :
    digit < 10 ∧ Nat.toDigits 10 digit = [c] := by
  have hc : c.toNat = c.val.toNat := rfl
  have h0 : '0'.toNat = 48 := rfl
  have hlt : digit < 10 ∧ c.toNat = 48 + digit := by
    unfold charToDigit at h
    simp only [Char.le_def, UInt32.le_iff_toNat_le] at h
    grind
  obtain ⟨hlt, hval⟩ := hlt
  refine ⟨hlt, ?_⟩
  rw [Nat.toDigits_of_lt_base hlt, List.singleton_inj]
  exact Char.toNat_inj.mp (by rw [Nat.toNat_digitChar_of_lt_ten hlt, hval])

/-- The digits that follow a number that is not zero. -/
theorem readDigits_decimal {max result count result' count' : ℕ} {s rest : List Char}
    (h : readDigits 10 max result count s = some (result', count', rest)) (hresult : 0 < result) :
    ∃ t, s = t ++ rest ∧ Nat.toDigits 10 result ++ t = Nat.toDigits 10 result' := by
  induction s generalizing result count with
  | nil =>
    simp only [readDigits, Option.some.injEq, Prod.mk.injEq] at h
    obtain ⟨rfl, -, rfl⟩ := h
    exact ⟨[], by simp⟩
  | cons c s ih =>
    simp only [readDigits] at h
    split at h
    next =>
      simp only [Option.some.injEq, Prod.mk.injEq] at h
      obtain ⟨rfl, -, rfl⟩ := h
      exact ⟨[], by simp⟩
    next digit hdigit =>
      obtain ⟨hlt, hc⟩ := toDigits_charToDigit hdigit
      split at h
      next => exact absurd h (by simp)
      next =>
        obtain ⟨t, rfl, ht⟩ := ih h (by positivity)
        refine ⟨c :: t, rfl, ?_⟩
        rw [← ht, mul_comm, ← Nat.toDigits_append_toDigits (by decide) hresult hlt, hc]
        simp

/-- Of the digits of any radix. -/
theorem readDigits_hex {radix max result count result' count' : ℕ} {s rest : List Char}
    (hradix : radix ≤ 16)
    (h : readDigits radix max result count s = some (result', count', rest)) :
    ∃ t, s = t ++ rest ∧ (∀ c ∈ t, IsHexDigit c) ∧ count' = count + t.length ∧
      (t = [] → result' = result) := by
  induction s generalizing result count with
  | nil =>
    simp only [readDigits, Option.some.injEq, Prod.mk.injEq] at h
    obtain ⟨rfl, rfl, rfl⟩ := h
    exact ⟨[], by simp⟩
  | cons c s ih =>
    simp only [readDigits] at h
    split at h
    next =>
      simp only [Option.some.injEq, Prod.mk.injEq] at h
      obtain ⟨rfl, rfl, rfl⟩ := h
      exact ⟨[], by simp⟩
    next digit hdigit =>
      split at h
      next => exact absurd h (by simp)
      next =>
        obtain ⟨t, rfl, ht, hcount, -⟩ := ih h
        refine ⟨c :: t, rfl, ?_, by simp only [List.length_cons]; omega, by simp⟩
        intro d hd
        rcases List.mem_cons.mp hd with rfl | hd
        · exact isHexDigit_of_charToDigit hradix hdigit
        · exact ht d hd

theorem readNumber_eq_some {radix max bound n : ℕ} {zeros : Bool} {s rest : List Char}
    (h : readNumber radix max zeros bound s = some (n, rest)) :
    ∃ count, readDigits radix max 0 0 s = some (n, count, rest) ∧ count ≠ 0 ∧ n < bound ∧
      ¬ (zeros = false ∧ s.head? = some '0' ∧ count > 1) := by
  unfold readNumber at h
  split at h
  next => exact absurd h (by simp)
  next result count rest' hdigits => grind

/-- Without a leading zero the text is how the number is written. -/
theorem takes_octet : Takes readOctet DecOctet := by
  intro s n rest h
  obtain ⟨count, hdigits, hcount, hn, hzero⟩ := readNumber_eq_some h
  cases s with
  | nil =>
    simp only [readDigits, Option.some.injEq, Prod.mk.injEq] at hdigits
    exact absurd hdigits.2.1.symm hcount
  | cons c s =>
    simp only [readDigits] at hdigits
    split at hdigits
    next =>
      simp only [Option.some.injEq, Prod.mk.injEq] at hdigits
      exact absurd hdigits.2.1.symm hcount
    next digit hdigit =>
      obtain ⟨hlt, hc⟩ := toDigits_charToDigit hdigit
      rw [if_neg (by decide), zero_mul, zero_add, zero_add] at hdigits
      rcases Nat.eq_zero_or_pos digit with rfl | hpos
      · -- a zero is not followed by a digit
        obtain ⟨t, rfl, -, rfl, hn0⟩ := readDigits_hex (by decide) hdigits
        have hc0 : c = '0' := by simpa using hc.symm
        have ht : t = [] := by
          rw [← List.length_eq_zero_iff]
          by_contra hne
          exact hzero ⟨rfl, by simp [hc0], by omega⟩
        rw [hn0 ht, ht]
        exact ⟨[c], rfl, by omega, hc.symm⟩
      · obtain ⟨t, rfl, ht⟩ := readDigits_decimal hdigits hpos
        refine ⟨c :: t, rfl, by omega, ?_⟩
        rw [← ht, hc, List.singleton_append]

theorem takes_segment : Takes readSegment fun t _ => ∀ c ∈ t, IsHexDigit c := by
  intro s n rest h
  obtain ⟨count, hdigits, -⟩ := readNumber_eq_some h
  obtain ⟨t, hs, ht, -⟩ := readDigits_hex (by decide) hdigits
  exact ⟨t, hs, ht⟩

/-! ## Addresses -/

/-- The octets of an IPv4 address. -/
def octets (addr : UInt8 × UInt8 × UInt8 × UInt8) : List ℕ :=
  [addr.1.toNat, addr.2.1.toNat, addr.2.2.1.toNat, addr.2.2.2.toNat]

theorem toNat_octet {n : ℕ} {t : List Char} (h : DecOctet t n) : (UInt8.ofNat n).toNat = n := by
  have hn := h.1
  rw [UInt8.toNat_ofNat']
  exact Nat.mod_eq_of_lt (by omega)

theorem takes_ipv4 : Takes readIpv4Addr fun t addr => Ipv4 t (octets addr) := by
  intro s addr rest h
  simp only [readIpv4Addr, Option.pure_def, Option.bind_eq_bind, Option.bind_eq_some_iff,
    Prod.exists, Option.some.injEq] at h
  obtain ⟨a, s₁, hra, b, s₂, hrb, c, s₃, hrc, d, s₄, hrd, h⟩ := h
  obtain ⟨_, rfl, _, rfl, ha⟩ := takes_octet.separator hra
  obtain ⟨_, rfl, _, rfl, hb⟩ := takes_octet.separator hrb
  obtain ⟨_, rfl, _, rfl, hc⟩ := takes_octet.separator hrc
  obtain ⟨_, rfl, _, rfl, hd⟩ := takes_octet.separator hrd
  obtain ⟨rfl, rfl⟩ := Prod.mk.inj h
  have hmk := Ipv4.mk ha hb hc hd
  rw [← toNat_octet ha, ← toNat_octet hb, ← toNat_octet hc, ← toNat_octet hd] at hmk
  exact ⟨_, by simp [separated], hmk⟩

/-- The characters of an address. -/
def IsAddressChar (c : Char) : Prop := IsHexDigit c ∨ c = '.' ∨ c = ':'

instance : DecidablePred IsAddressChar := fun _ => inferInstanceAs (Decidable (_ ∨ _ ∨ _))

theorem isAddressChar_ipv4 {t : List Char} {ns : List ℕ} (h : Ipv4 t ns) :
    ∀ c ∈ t, IsAddressChar c := by
  intro c hc
  rcases h.chars c hc with hd | hdot
  · exact .inl (.inl hd)
  · exact .inr (.inl hdot)

theorem isAddressChar_separated {index : ℕ} {t : List Char} (h : ∀ c ∈ t, IsAddressChar c) :
    ∀ c ∈ separated ':' index t, IsAddressChar c := by
  intro c hc
  unfold separated at hc
  split at hc
  next =>
    rcases List.mem_cons.mp hc with rfl | hc
    · exact .inr (.inr rfl)
    · exact h c hc
  next => exact h c hc

theorem count_separated (index : ℕ) (t : List Char) :
    min index 1 ≤ (separated ':' index t).count ':' := by
  unfold separated
  split
  next => simp
  next hindex => simp [Nat.eq_zero_of_not_pos hindex]

/-- There are colons between the groups, except inside of an IPv4 address at the end. -/
theorem readGroups_eq {n index : ℕ} {s rest : List Char} {groups : List UInt16} {ipv4 : Bool}
    (h : readGroups n index s = (groups, ipv4, rest)) :
    ∃ t, s = t ++ rest ∧ (∀ c ∈ t, IsAddressChar c) ∧
      groups.length + min index 1 ≤ t.count ':' + 2 := by
  induction n generalizing index s groups with
  | zero =>
    simp only [readGroups, Prod.mk.injEq] at h
    obtain ⟨rfl, -, rfl⟩ := h
    exact ⟨[], rfl, by simp, by simp only [List.length_nil]; omega⟩
  | succ n ih =>
    rw [readGroups] at h
    split at h
    -- Two groups at once, with dots between them and no colon.
    next one two three four s' hipv4 =>
      simp only [Prod.mk.injEq] at h
      obtain ⟨rfl, -, rfl⟩ := h
      split at hipv4
      next =>
        obtain ⟨_, rfl, u, rfl, hu⟩ := takes_ipv4.separator hipv4
        refine ⟨_, rfl, isAddressChar_separated (isAddressChar_ipv4 hu), ?_⟩
        have hcount := count_separated index u
        simp only [List.length_cons, List.length_nil]
        omega
      next => exact absurd hipv4 (by simp)
    next =>
      split at h
      next g s' hsegment =>
        obtain ⟨_, rfl, u, rfl, hu⟩ := takes_segment.separator hsegment
        obtain ⟨groups', ipv4', rest', hgroups⟩ :
            ∃ a b c, readGroups n (index + 1) s' = (a, b, c) := ⟨_, _, _, rfl⟩
        rw [hgroups] at h
        simp only [Prod.mk.injEq] at h
        obtain ⟨rfl, rfl, rfl⟩ := h
        obtain ⟨t, rfl, ht, hlen⟩ := ih hgroups
        refine ⟨separated ':' index u ++ t, by simp, ?_, ?_⟩
        · intro c hc
          rcases List.mem_append.mp hc with hc | hc
          · exact isAddressChar_separated (fun c hc => .inl (hu c hc)) c hc
          · exact ht c hc
        · have hcount := count_separated index u
          rw [List.count_append, List.length_cons]
          omega
      next =>
        simp only [Prod.mk.injEq] at h
        obtain ⟨rfl, -, rfl⟩ := h
        exact ⟨[], rfl, by simp, by simp only [List.length_nil]; omega⟩

theorem readGivenChar_eq {c : Char} {s rest : List Char} (h : readGivenChar c s = some rest) :
    s = c :: rest := by
  cases s with
  | nil => simp [readGivenChar] at h
  | cons d s =>
    simp only [readGivenChar] at h
    split at h
    next hd => rw [hd, Option.some.inj h]
    next => exact absurd h (by simp)

/-- Eight groups have many colons, and so has the gap between fewer. -/
theorem takes_ipv6 :
    Takes readIpv6Addr fun t _ => (∀ c ∈ t, IsAddressChar c) ∧ 2 ≤ t.count ':' := by
  intro s segments rest h
  unfold readIpv6Addr at h
  obtain ⟨head, headIpv4, s', hhead⟩ : ∃ a b c, readGroups 8 0 s = (a, b, c) := ⟨_, _, _, rfl⟩
  obtain ⟨t, rfl, ht, hlen⟩ := readGroups_eq hhead
  rw [hhead] at h
  simp only at h
  split at h
  next hfull =>
    obtain ⟨-, rfl⟩ := Prod.mk.inj (Option.some.inj h)
    exact ⟨t, rfl, ht, by omega⟩
  next =>
    split at h
    next => exact absurd h (by simp)
    next =>
      simp only [Option.pure_def, Option.bind_eq_bind, Option.bind_eq_some_iff] at h
      obtain ⟨s₁, h₁, s₂, h₂, h⟩ := h
      obtain ⟨tail, tailIpv4, s₃, htail⟩ :
          ∃ a b c, readGroups (8 - (head.length + 1)) 0 s₂ = (a, b, c) := ⟨_, _, _, rfl⟩
      obtain ⟨u, rfl, hu, -⟩ := readGroups_eq htail
      rw [htail] at h
      obtain ⟨-, rfl⟩ := Prod.mk.inj (Option.some.inj h)
      -- The gap is two colons, whatever is on either side of it.
      rw [readGivenChar_eq h₁, readGivenChar_eq h₂]
      refine ⟨t ++ ':' :: ':' :: u, by simp, ?_, ?_⟩
      · intro c hc
        simp only [List.mem_append, List.mem_cons] at hc
        rcases hc with hc | rfl | rfl | hc
        · exact ht c hc
        · exact .inr (.inr rfl)
        · exact .inr (.inr rfl)
        · exact hu c hc
      · rw [List.count_append, List.count_cons_self, List.count_cons_self]
        omega

/-- The host that an address is. -/
def host : IpAddr → Host
  | v4 a b c d => .ipv4 (octets (a, b, c, d))
  | v6 segments => .ipv6 (segments.toList.map UInt16.toNat)

/-- Of the family it is. -/
def IsV4 : IpAddr → Prop
  | v4 .. => True
  | v6 _ => False

/-- How an address can be written. -/
def Written (t : List Char) (addr : IpAddr) : Prop :=
  (∀ c ∈ t, IsAddressChar c) ∧
    match addr with
    | v4 a b c d => Ipv4 t (octets (a, b, c, d))
    | v6 _ => 2 ≤ t.count ':'

theorem takes_addr : Takes readIpAddr Written := by
  intro s addr rest h
  unfold readIpAddr at h
  split at h
  next a b c d s' hipv4 =>
    obtain ⟨rfl, rfl⟩ := Prod.mk.inj (Option.some.inj h)
    obtain ⟨t, rfl, ht⟩ := takes_ipv4 hipv4
    exact ⟨t, rfl, isAddressChar_ipv4 ht, ht⟩
  next =>
    obtain ⟨⟨segments, s'⟩, hipv6, h⟩ := Option.map_eq_some_iff.mp h
    obtain ⟨rfl, rfl⟩ := Prod.mk.inj h
    obtain ⟨t, rfl, ht, hcount⟩ := takes_ipv6 hipv6
    exact ⟨t, rfl, ht, hcount⟩

theorem fromStr_written {s : String} {addr : IpAddr} (h : fromStr s = some addr) :
    Written s.toList addr := by
  unfold fromStr at h
  split at h
  next a hread =>
    obtain ⟨t, ht, hw⟩ := takes_addr hread
    rw [ht, List.append_nil, ← Option.some.inj h]
    exact hw
  next => exact absurd h (by simp)

end IpAddr

/-! ## `process` -/

namespace Opt

open IpAddr

/-- The port that is connected to: the network's own, unless one is given. -/
def selectedPort (o : Opt) : UInt16 := o.port.getD (if o.testnet then 16210 else 16110)

/-- The address behind the scheme. -/
def authority (o : Opt) : List Char :=
  o.kaspadAddress.toList ++ ':' :: Nat.toDigits 10 o.selectedPort.toNat

theorem process_eq {o : Opt} {addr : IpAddr} (haddr : fromStr o.kaspadAddress = some addr) :
    o.process.2 = o.checkSuffix ∧
      o.process.1.kaspadAddress =
        "grpc://" ++ o.kaspadAddress ++ ":" ++ toString o.selectedPort.toNat := by
  have hempty : o.kaspadAddress ≠ "" := by
    intro he
    have hnone : fromStr "" = none := by decide
    rw [he, hnone] at haddr
    exact absurd haddr (by simp)
  have hscheme : ¬ "grpc://".toList.isPrefixOf o.kaspadAddress.toList := by
    intro hp
    obtain ⟨rest, hrest⟩ := List.isPrefixOf_iff_prefix.mp hp
    have hg := (fromStr_written haddr).1 'g' (by rw [← hrest]; simp)
    exact absurd hg (by decide)
  simp only [process, if_neg hempty, if_neg hscheme, haddr]
  exact ⟨rfl, rfl⟩

theorem process_toList {o : Opt} {addr : IpAddr} (haddr : fromStr o.kaspadAddress = some addr) :
    o.process.1.kaspadAddress.toList = "grpc".toList ++ ':' :: '/' :: '/' :: o.authority := by
  rw [(process_eq haddr).2]
  simp [authority]

/-- What starts with the scheme is not changed. -/
theorem process_uri {o : Opt} (h : "grpc://".toList.isPrefixOf o.kaspadAddress.toList) :
    o.process.1.kaspadAddress = o.kaspadAddress := by
  have hempty : o.kaspadAddress ≠ "" := by
    intro he
    rw [he] at h
    exact absurd h (by decide)
  simp only [process, if_neg hempty, if_pos h]

theorem process_process {o : Opt} {addr : IpAddr} (haddr : fromStr o.kaspadAddress = some addr) :
    o.process.1.process.1.kaspadAddress = o.process.1.kaspadAddress := by
  apply process_uri
  rw [process_toList haddr]
  simp

/-! ## What the URI says -/

/-- Neither the address nor the port has a character that the URI grammar gives a meaning. -/
theorem notMem_authority {o : Opt} {addr : IpAddr} {c : Char}
    (haddr : fromStr o.kaspadAddress = some addr) (hc : ¬ IsAddressChar c) : c ∉ o.authority := by
  intro hmem
  simp only [authority, List.mem_append, List.mem_cons] at hmem
  rcases hmem with hmem | rfl | hmem
  · exact hc ((fromStr_written haddr).1 c hmem)
  · exact hc (.inr (.inr rfl))
  · exact hc (.inl (.inl (isDigit_of_mem_toDigits hmem)))

theorem reads_process {o : Opt} {addr : IpAddr} {host : Host} {port : Option (List Char)}
    (haddr : fromStr o.kaspadAddress = some addr) :
    Reads o.process.1.kaspadAddress.toList "grpc".toList host port ↔
      Authority o.authority host port := by
  rw [process_toList haddr]
  exact reads_iff_authority (by simp [IsScheme, IsAlpha]) (notMem_authority haddr (by decide))
    (notMem_authority haddr (by decide)) (notMem_authority haddr (by decide))

theorem authority_v4 {o : Opt} {a b c d : UInt8} {host : Host} {port : Option (List Char)}
    (haddr : fromStr o.kaspadAddress = some (.v4 a b c d)) :
    Authority o.authority host port ↔
      host = (IpAddr.v4 a b c d).host ∧ port = some (Nat.toDigits 10 o.selectedPort.toNat) := by
  obtain ⟨-, hipv4⟩ := fromStr_written haddr
  constructor
  · intro h
    have hcolon : ':' ∉ o.kaspadAddress.toList := fun hc =>
      absurd (hipv4.chars ':' hc) (by decide)
    obtain ⟨hhost, hport⟩ := h.name_port (notMem_authority haddr (by decide))
      (notMem_authority haddr (by decide)) hcolon
    exact ⟨hhost.of_ipv4 hipv4, hport⟩
  · rintro ⟨rfl, rfl⟩
    exact ⟨[], o.kaspadAddress.toList, _, rfl, .none, .ipv4 hipv4,
      .some fun c hc => isDigit_of_mem_toDigits hc⟩

/-- The colons of an IPv6 address leave no way to read an authority. -/
theorem not_authority_v6 {o : Opt} {segments : Vector UInt16 8} {host : Host}
    {port : Option (List Char)} (haddr : fromStr o.kaspadAddress = some (.v6 segments)) :
    ¬ Authority o.authority host port := by
  intro h
  have hle := h.count_colon (notMem_authority haddr (by decide))
    (notMem_authority haddr (by decide))
  have hge : 2 ≤ o.kaspadAddress.toList.count ':' := (fromStr_written haddr).2
  rw [authority, List.count_append] at hle
  omega

/-- What the URI should say: this host, the port that was selected and nothing else, however often
the options are processed. -/
structure ConnectsTo (o : Opt) (addr : IpAddr) : Prop where
  reads : ∃ digits, digits ≠ [] ∧ Nat.ofDigitChars 10 digits 0 = o.selectedPort.toNat ∧
    ∀ host port, Reads o.process.1.kaspadAddress.toList "grpc".toList host port ↔
      host = addr.host ∧ port = some digits
  stable : o.process.1.process.1.kaspadAddress = o.process.1.kaspadAddress

theorem connectsTo_v4 {o : Opt} {a b c d : UInt8}
    (haddr : fromStr o.kaspadAddress = some (.v4 a b c d)) : o.ConnectsTo (.v4 a b c d) where
  reads := ⟨Nat.toDigits 10 o.selectedPort.toNat, Nat.toDigits_ne_nil,
    Nat.ofDigitChars_ten_toDigits,
    fun _ _ => (reads_process haddr).trans (authority_v4 haddr)⟩
  stable := process_process haddr

theorem not_connectsTo_v6 {o : Opt} {segments : Vector UInt16 8}
    (haddr : fromStr o.kaspadAddress = some (.v6 segments)) : ¬ o.ConnectsTo (.v6 segments) := by
  intro h
  obtain ⟨digits, -, -, hreads⟩ := h.reads
  have hr := (hreads _ _).mpr ⟨rfl, rfl⟩
  exact not_authority_v6 haddr ((reads_process haddr).mp hr)

/-- **Only an IPv4 address can be spliced into a URI**: with an IPv6 address there is a result as
well, but it is no URI. -/
theorem process_connectsTo_iff {o : Opt} {addr : IpAddr}
    (haddr : fromStr o.kaspadAddress = some addr) :
    (o.process.2 = .ok () → o.ConnectsTo addr) ↔ addr.IsV4 ∨ o.checkSuffix ≠ .ok () := by
  rw [(process_eq haddr).1]
  cases addr with
  | v4 a b c d => exact ⟨fun _ => .inl trivial, fun _ _ => connectsTo_v4 haddr⟩
  | v6 segments =>
    constructor
    · intro h
      exact .inr fun hok => not_connectsTo_v6 haddr (h hok)
    · rintro (h | h) hok
      · exact h.elim
      · exact absurd hok h

theorem process_connectsTo_iff_localhost :
    ((Opt.mk "127.0.0.1" none false none).process.2 = .ok () →
        (Opt.mk "127.0.0.1" none false none).ConnectsTo (.v4 127 0 0 1)) ↔
      (IpAddr.v4 127 0 0 1).IsV4 ∨ (Opt.mk "127.0.0.1" none false none).checkSuffix ≠ .ok () :=
  process_connectsTo_iff (by decide)

theorem process_not_uri :
    fromStr "::1" = some (.v6 #v[0, 0, 0, 0, 0, 0, 0, 1]) ∧
      (Opt.mk "::1" none false none).process.2 = .ok () ∧
      (Opt.mk "::1" none false none).process.1.kaspadAddress = "grpc://::1:16110" ∧
      ∀ host port, ¬ Reads "grpc://::1:16110".toList "grpc".toList host port := by
  have haddr : fromStr "::1" = some (.v6 #v[0, 0, 0, 0, 0, 0, 0, 1]) := by decide
  have huri : (Opt.mk "::1" none false none).process.1.kaspadAddress = "grpc://::1:16110" := by
    rw [@process_eq (Opt.mk "::1" none false none) _ haddr |>.2]
    decide
  refine ⟨haddr, by rw [(process_eq haddr).1]; rfl, huri, ?_⟩
  intro host port h
  rw [← huri, reads_process haddr] at h
  exact not_authority_v6 haddr h

end Opt

end KaspaMiner
