import KaspaMiner.Lib.Delimited

/-!
# Uniform resource identifiers

The grammar of RFC 3986 for a URI with an authority, as relations between a text and what is read
from it. A text that is an IPv4 address is no registered name as well: the first rule that matches
is the one that counts. An IPv6 address stands in brackets, because the port comes after a colon.
-/

namespace KaspaMiner
namespace Lib
namespace Uri

def IsAlpha (c : Char) : Prop := ('a' ≤ c ∧ c ≤ 'z') ∨ ('A' ≤ c ∧ c ≤ 'Z')

def IsDigit (c : Char) : Prop := '0' ≤ c ∧ c ≤ '9'

def IsHexDigit (c : Char) : Prop := IsDigit c ∨ ('a' ≤ c ∧ c ≤ 'f') ∨ ('A' ≤ c ∧ c ≤ 'F')

def IsUnreserved (c : Char) : Prop := IsAlpha c ∨ IsDigit c ∨ c ∈ ['-', '.', '_', '~']

def IsSubDelim (c : Char) : Prop := c ∈ ['!', '$', '&', '\'', '(', ')', '*', '+', ',', ';', '=']

instance : DecidablePred IsAlpha := fun _ => inferInstanceAs (Decidable (_ ∨ _))

instance : DecidablePred IsDigit := fun _ => inferInstanceAs (Decidable (_ ∧ _))

instance : DecidablePred IsHexDigit := fun _ => inferInstanceAs (Decidable (_ ∨ _ ∨ _))

instance : DecidablePred IsUnreserved := fun _ => inferInstanceAs (Decidable (_ ∨ _ ∨ _))

instance : DecidablePred IsSubDelim := fun _ => inferInstanceAs (Decidable (_ ∈ _))

/-- Characters that stand for themselves, and percent-encoded ones. -/
inductive Encoded (plain : Char → Prop) : List Char → Prop
  | nil : Encoded plain []
  | char {c : Char} {cs : List Char} (hc : plain c) (hcs : Encoded plain cs) :
      Encoded plain (c :: cs)
  | percent {a b : Char} {cs : List Char} (ha : IsHexDigit a) (hb : IsHexDigit b)
      (hcs : Encoded plain cs) : Encoded plain ('%' :: a :: b :: cs)

/-! ## Hosts -/

inductive Host where
  | ipv4 (octets : List ℕ)
  | ipv6 (groups : List ℕ)
  | ipFuture
  | regName (name : List Char)

/-- A number up to 255 without leading zeros. -/
def DecOctet (text : List Char) (n : ℕ) : Prop := n ≤ 255 ∧ text = Nat.toDigits 10 n

inductive Ipv4 : List Char → List ℕ → Prop
  | mk {t₁ t₂ t₃ t₄ : List Char} {a b c d : ℕ} (h₁ : DecOctet t₁ a) (h₂ : DecOctet t₂ b)
      (h₃ : DecOctet t₃ c) (h₄ : DecOctet t₄ d) :
      Ipv4 (t₁ ++ '.' :: t₂ ++ '.' :: t₃ ++ '.' :: t₄) [a, b, c, d]

/-- The value of a hexadecimal digit. -/
def hexValue (c : Char) : ℕ :=
  if c ≤ '9' then c.toNat - '0'.toNat
  else if c ≤ 'F' then c.toNat - 'A'.toNat + 10
  else c.toNat - 'a'.toNat + 10

/-- One to four hexadecimal digits. -/
def H16 (text : List Char) (n : ℕ) : Prop :=
  1 ≤ text.length ∧ text.length ≤ 4 ∧ (∀ c ∈ text, IsHexDigit c) ∧
    n = text.foldl (fun n c => 16 * n + hexValue c) 0

/-- Groups between colons. Where `last` says so, the last two may be written as an IPv4 address. -/
inductive Groups (last : Bool) : List Char → List ℕ → Prop
  | one {t : List Char} {n : ℕ} (h : H16 t n) : Groups last t [n]
  | ipv4 {t : List Char} {a b c d : ℕ} (hlast : last = true) (h : Ipv4 t [a, b, c, d]) :
      Groups last t [256 * a + b, 256 * c + d]
  | cons {t ts : List Char} {n : ℕ} {ns : List ℕ} (h : H16 t n) (hts : Groups last ts ns) :
      Groups last (t ++ ':' :: ts) (n :: ns)

/-- Or no group. -/
def OptGroups (last : Bool) (text : List Char) (ns : List ℕ) : Prop :=
  Groups last text ns ∨ text = [] ∧ ns = []

/-- All eight groups, or `::` for at least one of them. -/
inductive Ipv6 : List Char → List ℕ → Prop
  | full {t : List Char} {ns : List ℕ} (h : Groups true t ns) (hlen : ns.length = 8) : Ipv6 t ns
  | short {t₁ t₂ : List Char} {head tail : List ℕ} (h₁ : OptGroups false t₁ head)
      (h₂ : OptGroups true t₂ tail) (hlen : head.length + tail.length ≤ 7) :
      Ipv6 (t₁ ++ ':' :: ':' :: t₂)
        (head ++ List.replicate (8 - head.length - tail.length) 0 ++ tail)

inductive ReadsHost : List Char → Host → Prop
  | ipv6 {t : List Char} {ns : List ℕ} (h : Ipv6 t ns) : ReadsHost ('[' :: t ++ [']']) (.ipv6 ns)
  | ipFuture {version t : List Char} (hversion : version ≠ []) (hhex : ∀ c ∈ version, IsHexDigit c)
      (ht : t ≠ []) (hchars : ∀ c ∈ t, IsUnreserved c ∨ IsSubDelim c ∨ c = ':') :
      ReadsHost ('[' :: 'v' :: version ++ '.' :: t ++ [']']) .ipFuture
  | ipv4 {t : List Char} {ns : List ℕ} (h : Ipv4 t ns) : ReadsHost t (.ipv4 ns)
  | regName {t : List Char} (h : Encoded (fun c => IsUnreserved c ∨ IsSubDelim c) t)
      (hipv4 : ∀ ns, ¬ Ipv4 t ns) : ReadsHost t (.regName t)

/-! ## The rest of the grammar -/

inductive UserPart : List Char → Prop
  | none : UserPart []
  | some {t : List Char} (h : Encoded (fun c => IsUnreserved c ∨ IsSubDelim c ∨ c = ':') t) :
      UserPart (t ++ ['@'])

inductive PortPart : List Char → Option (List Char) → Prop
  | none : PortPart [] none
  | some {t : List Char} (h : ∀ c ∈ t, IsDigit c) : PortPart (':' :: t) (some t)

def Authority (text : List Char) (host : Host) (port : Option (List Char)) : Prop :=
  ∃ user name suffix, text = user ++ name ++ suffix ∧ UserPart user ∧ ReadsHost name host ∧
    PortPart suffix port

def IsPchar (c : Char) : Prop := IsUnreserved c ∨ IsSubDelim c ∨ c = ':' ∨ c = '@'

inductive Path : List Char → Prop
  | nil : Path []
  | segment {t ts : List Char} (h : Encoded IsPchar t) (hts : Path ts) : Path ('/' :: t ++ ts)

/-- A query or a fragment, after its mark. -/
inductive Marked (mark : Char) : List Char → Prop
  | none : Marked mark []
  | some {t : List Char} (h : Encoded (fun c => IsPchar c ∨ c = '/' ∨ c = '?') t) :
      Marked mark (mark :: t)

def IsScheme : List Char → Prop
  | [] => False
  | c :: cs => IsAlpha c ∧ ∀ d ∈ cs, IsAlpha d ∨ IsDigit d ∨ d ∈ ['+', '-', '.']

/-- A URI with this scheme, and an authority with this host and port. -/
def Reads (text scheme : List Char) (host : Host) (port : Option (List Char)) : Prop :=
  IsScheme scheme ∧ ∃ authority path query fragment,
    text = scheme ++ ':' :: '/' :: '/' :: authority ++ path ++ query ++ fragment ∧
    Authority authority host port ∧ Path path ∧ Marked '?' query ∧ Marked '#' fragment

/-! ## Characters -/

theorem isDigit_of_mem_toDigits {c : Char} {n : ℕ} (h : c ∈ Nat.toDigits 10 n) : IsDigit c := by
  have hc := Nat.isDigit_of_mem_toDigits (by decide) (by decide) h
  simpa [Char.isDigit, IsDigit, Char.le_def, UInt32.le_iff_toNat_le] using hc

theorem Ipv4.chars {t : List Char} {ns : List ℕ} (h : Ipv4 t ns) :
    ∀ c ∈ t, IsDigit c ∨ c = '.' := by
  cases h with
  | mk h₁ h₂ h₃ h₄ =>
    rw [h₁.2, h₂.2, h₃.2, h₄.2]
    intro c hc
    simp only [List.mem_append, List.mem_cons] at hc
    rcases hc with (((hc | rfl | hc) | rfl | hc) | rfl | hc)
    all_goals first | exact .inr rfl | exact .inl (isDigit_of_mem_toDigits hc)

theorem Encoded.chars {plain : Char → Prop} {t : List Char} (h : Encoded plain t) :
    ∀ c ∈ t, plain c ∨ c = '%' ∨ IsHexDigit c := by
  induction h with
  | nil => simp
  | char hc _ ih =>
    intro d hd
    rcases List.mem_cons.mp hd with rfl | hd
    · exact .inl hc
    · exact ih d hd
  | percent ha hb _ ih =>
    intro d hd
    simp only [List.mem_cons] at hd
    rcases hd with rfl | rfl | rfl | hd
    · exact .inr (.inl rfl)
    · exact .inr (.inr ha)
    · exact .inr (.inr hb)
    · exact ih d hd

/-! ## Reading is unambiguous -/

theorem dot_notMem_toDigits (n : ℕ) : '.' ∉ Nat.toDigits 10 n := by
  intro h
  exact absurd (isDigit_of_mem_toDigits h) (by decide)

theorem toDigits_inj {m n : ℕ} (h : Nat.toDigits 10 m = Nat.toDigits 10 n) : m = n := by
  have hm := Nat.ofDigitChars_ten_toDigits (n := m)
  rw [h, Nat.ofDigitChars_ten_toDigits] at hm
  exact hm.symm

/-- The dot after an octet ends it. -/
theorem delimited_octet : Delimited Set.univ (fun n => Nat.toDigits 10 n ++ ['.']) :=
  .terminated (fun n _ => dot_notMem_toDigits n) (fun _ _ _ _ h => toDigits_inj h)

theorem Ipv4.unique {t : List Char} {ns ms : List ℕ} (hn : Ipv4 t ns) (hm : Ipv4 t ms) :
    ns = ms := by
  obtain ⟨⟨-, rfl⟩, ⟨-, rfl⟩, ⟨-, rfl⟩, ⟨-, rfl⟩⟩ := hn
  generalize ht : _ ++ '.' :: _ = t at hm
  obtain ⟨⟨-, rfl⟩, ⟨-, rfl⟩, ⟨-, rfl⟩, ⟨-, rfl⟩⟩ := hm
  have hcut := fun m n => @delimited_octet m n (Set.mem_univ m) (Set.mem_univ n)
  simp only [List.append_assoc, List.cons_append] at ht
  simp only [List.append_assoc, List.singleton_append] at hcut
  obtain ⟨ha, ht⟩ := hcut _ _ ht
  obtain ⟨hb, ht⟩ := hcut _ _ ht
  obtain ⟨hc, ht⟩ := hcut _ _ ht
  rw [ha, hb, hc, toDigits_inj ht]

/-- The rule for IPv4 addresses comes first. -/
theorem ReadsHost.of_ipv4 {t : List Char} {ns : List ℕ} {host : Host} (hns : Ipv4 t ns)
    (h : ReadsHost t host) : host = .ipv4 ns := by
  cases h with
  | ipv6 _ =>
    exact absurd (hns.chars '[' (by simp)) (by decide)
  | ipFuture _ _ _ _ =>
    exact absurd (hns.chars '[' (by simp)) (by decide)
  | ipv4 hms => rw [hns.unique hms]
  | regName _ hipv4 => exact absurd hns (hipv4 ns)

/-- Without brackets there is no room for a colon. -/
theorem ReadsHost.colon_notMem {t : List Char} {host : Host} (h : ReadsHost t host)
    (hbracket : '[' ∉ t) : ':' ∉ t := by
  intro hcolon
  cases h with
  | ipv6 _ => simp at hbracket
  | ipFuture _ _ _ _ => simp at hbracket
  | ipv4 hns =>
    exact absurd (hns.chars ':' hcolon) (by decide)
  | regName hname _ =>
    exact absurd (hname.chars ':' hcolon) (by decide)

/-- An authority of a host and a port. -/
theorem Authority.of_plain {t : List Char} {host : Host} {port : Option (List Char)}
    (h : Authority t host port) (hat : '@' ∉ t) (hbracket : '[' ∉ t) :
    ∃ name suffix, t = name ++ suffix ∧ ReadsHost name host ∧ ':' ∉ name ∧
      PortPart suffix port := by
  obtain ⟨user, name, suffix, rfl, huser, hname, hsuffix⟩ := h
  cases huser with
  | some _ => simp at hat
  | none =>
    simp only [List.mem_append, not_or] at hbracket
    exact ⟨name, suffix, rfl, hname, hname.colon_notMem hbracket.1.2, hsuffix⟩

theorem Authority.count_colon {t : List Char} {host : Host} {port : Option (List Char)}
    (h : Authority t host port) (hat : '@' ∉ t) (hbracket : '[' ∉ t) : t.count ':' ≤ 1 := by
  obtain ⟨name, suffix, rfl, -, hcolon, hsuffix⟩ := h.of_plain hat hbracket
  rw [List.count_append, List.count_eq_zero.mpr hcolon]
  cases hsuffix with
  | none => simp
  | some hdigits =>
    have hnone : ':' ∉ _ := fun h => absurd (hdigits ':' h) (by decide)
    simp [List.count_eq_zero.mpr hnone]

/-- The colon before the port is the only one. -/
theorem Authority.name_port {name digits : List Char} {host : Host} {port : Option (List Char)}
    (h : Authority (name ++ ':' :: digits) host port) (hat : '@' ∉ name ++ ':' :: digits)
    (hbracket : '[' ∉ name ++ ':' :: digits) (hcolon : ':' ∉ name) :
    ReadsHost name host ∧ port = some digits := by
  obtain ⟨name', suffix, ht, hname, hcolon', hsuffix⟩ := h.of_plain hat hbracket
  cases hsuffix with
  | none =>
    rw [List.append_nil] at ht
    exact absurd (ht ▸ by simp) hcolon'
  | some _ =>
    have hcut : Delimited {t : List Char | ':' ∉ t} (fun t => id t ++ [':']) :=
      .terminated (fun t ht => ht) (fun _ _ _ _ h => h)
    obtain ⟨rfl, rfl⟩ := hcut hcolon hcolon' (by simpa using ht)
    exact ⟨hname, rfl⟩

theorem Path.eq_nil {t : List Char} (h : Path t) (hslash : '/' ∉ t) : t = [] := by
  cases h with
  | nil => rfl
  | segment _ _ => simp at hslash

theorem Marked.eq_nil {mark : Char} {t : List Char} (h : Marked mark t) (hmark : mark ∉ t) :
    t = [] := by
  cases h with
  | none => rfl
  | some _ => simp at hmark

/-- Where nothing comes after it, the authority is all that is left to read. -/
theorem reads_iff_authority {scheme t : List Char} {host : Host} {port : Option (List Char)}
    (hscheme : IsScheme scheme) (hslash : '/' ∉ t) (hquery : '?' ∉ t) (hfragment : '#' ∉ t) :
    Reads (scheme ++ ':' :: '/' :: '/' :: t) scheme host port ↔ Authority t host port := by
  constructor
  · rintro ⟨-, authority, path, query, fragment, ht, ha, hp, hq, hf⟩
    have ht' : t = authority ++ path ++ query ++ fragment := by simpa using ht
    subst ht'
    simp only [List.mem_append, not_or] at hslash hquery hfragment
    rw [hp.eq_nil hslash.1.1.2, hq.eq_nil hquery.1.2, hf.eq_nil hfragment.2]
    simpa using ha
  · intro ha
    exact ⟨hscheme, t, [], [], [], by simp, ha, .nil, .none, .none⟩

end Uri
end Lib
end KaspaMiner
