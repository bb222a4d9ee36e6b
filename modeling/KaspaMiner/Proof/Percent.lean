import KaspaMiner.Cli
import Mathlib.Data.Rat.Defs
import Mathlib.Tactic.NormNum
import Mathlib.Tactic.Linarith
import Mathlib.Tactic.Ring

/-!
# What `--devfund-percent` means

`Denotes` is the grammar the option promises, with the number each string stands for. The parser
has another one (`Accepts`): `u16::from_str` takes a sign, and the digits after the dot are
hundredths however many there are. `parseDevfundPercent_meets_iff` says where the two agree.

The parser is first shown to take the strings of `Accepts` and no others (`parse_ok_iff`), and what
is compared then are two grammars. There is no induction in it, as the strings are short: a piece
has two bytes at most (`piece_iff`), and from there on everything is a matter of a few cases. What
makes the pieces known is that no piece has a dot in it (`splitOn_fraction`), so that a string that
is put together of two is taken apart into the same two.

They differ in two ways, which have nothing to do with each other:

* with a sign (`HasSign`) the parser takes more than it should. `+5` is no number of the grammar;
* with one digit after the dot (`HasTenths`) it takes the right strings for the wrong number. `1.5`
  is read as one and five hundredths.
-/

namespace KaspaMiner

/-! ## The grammar

One or two digits, and then, if there is a dot, one or two more: the `XX.YY` of the error message.
-/

def IsDigit (c : Char) : Prop := '0' ≤ c ∧ c ≤ '9'

instance (c : Char) : Decidable (IsDigit c) := inferInstanceAs (Decidable (_ ∧ _))

def digitVal (c : Char) : ℕ := c.toNat - '0'.toNat

/-- The number a string of digits stands for. -/
def decimal (cs : List Char) : ℕ := cs.foldl (fun n c => 10 * n + digitVal c) 0

/-- One or two decimal digits. -/
def Numeral (cs : List Char) : Prop :=
  (cs.length = 1 ∨ cs.length = 2) ∧ ∀ c ∈ cs, IsDigit c

/-- What a string of the grammar stands for. The weight of the digits after the dot depends on how
many there are, as it does everywhere but in the parser. -/
inductive Denotes : List Char → ℚ → Prop
  | whole {as : List Char} (ha : Numeral as) : Denotes as (decimal as)
  | fraction {as bs : List Char} (ha : Numeral as) (hb : Numeral bs) :
      Denotes (as ++ '.' :: bs) (decimal as + decimal bs / 10 ^ bs.length)

theorem digitVal_lt {c : Char} (h : IsDigit c) : digitVal c < 10 := by
  have hle : c.toNat ≤ '9'.toNat := h.2
  unfold digitVal
  show c.toNat - 48 < 10
  have hnine : '9'.toNat = 57 := rfl
  omega

/-- A tenth that is worth nothing is a zero, which is the one tenth the parser gets right. -/
theorem eq_zero_of_digitVal {c : Char} (h : IsDigit c) (hzero : digitVal c = 0) : c = '0' := by
  have hle : '0'.toNat ≤ c.toNat := h.1
  have heq : c.toNat = '0'.toNat := Nat.le_antisymm (Nat.le_of_sub_eq_zero hzero) hle
  exact Char.ext (UInt32.toNat_inj.mp heq)

theorem decimal_one (c : Char) : decimal [c] = digitVal c := by
  show 10 * 0 + digitVal c = _
  omega

theorem decimal_two (c d : Char) : decimal [c, d] = 10 * digitVal c + digitVal d := by
  show 10 * (10 * 0 + digitVal c) + digitVal d = _
  omega

theorem numeral_one {c : Char} : Numeral [c] ↔ IsDigit c := by simp [Numeral]

theorem numeral_two {c d : Char} : Numeral [c, d] ↔ IsDigit c ∧ IsDigit d := by simp [Numeral]

theorem Numeral.not_mem {cs : List Char} (h : Numeral cs) {c : Char} (hc : ¬ IsDigit c) : c ∉ cs :=
  fun hmem => hc (h.2 c hmem)

/-! ## A piece

The parser has no grammar of its own: each piece is at most two bytes long and goes to
`u16::from_str`, which takes a leading `+`. So there are three kinds of pieces: one digit, two
digits, and a sign with a digit. Nothing can overflow in a number that small. -/

/-- What `u16::from_str` takes of two bytes at most, and what it makes of it. An empty piece is
none of these, and neither is a lone sign. -/
inductive Piece : List Char → ℕ → Prop
  | numeral {cs : List Char} (h : Numeral cs) : Piece cs (decimal cs)
  | signed {d : Char} (h : IsDigit d) : Piece ['+', d] (digitVal d)

/-- So the check for 99 at most, which comes after it, is never what fails. -/
theorem Piece.lt {cs : List Char} {n : ℕ} (h : Piece cs n) : n < 100 := by
  cases h with
  | signed h => exact (digitVal_lt h).trans (by decide)
  | numeral h =>
    match cs, h with
    | [c], h =>
      have hc := digitVal_lt (numeral_one.mp h)
      rw [decimal_one]
      omega
    | [c, d], h =>
      have hc := digitVal_lt (numeral_two.mp h).1
      have hd := digitVal_lt (numeral_two.mp h).2
      rw [decimal_two]
      omega

/-- A piece is what is between two dots. -/
theorem Piece.dot_not_mem {cs : List Char} {n : ℕ} (h : Piece cs n) : '.' ∉ cs := by
  cases h with
  | numeral h => exact h.not_mem (by decide)
  | @signed d h =>
    have hd : d ≠ '.' := by
      rintro rfl
      exact absurd h (by decide)
    simp [hd.symm]

/-- One more digit, as long as there are fewer than three of them. -/
theorem pushDigit_of_isDigit {c : Char} (h : IsDigit c) {r : UInt16} (hr : r.toNat < 100) :
    ∃ r', pushDigit r c = some r' ∧ r'.toNat = 10 * r.toNat + digitVal c := by
  have hc := digitVal_lt h
  have hdigit : toDigit c = some (UInt16.ofNat (digitVal c)) := if_pos h
  have hval : (UInt16.ofNat (digitVal c)).toNat = digitVal c := by
    rw [UInt16.toNat_ofNat']
    omega
  have hten : (10 : UInt16).toNat = 10 := rfl
  obtain ⟨hmul, hmulv⟩ := u16CheckedMul_some (x := r) (y := 10) (by rw [hten]; omega)
  rw [hten] at hmulv
  obtain ⟨hadd, haddv⟩ := u16CheckedAdd_some (x := r * 10) (y := UInt16.ofNat (digitVal c))
    (by omega)
  refine ⟨r * 10 + UInt16.ofNat (digitVal c), ?_, ?_⟩
  · unfold pushDigit
    simp only [hdigit, hmul, hadd, Option.bind_eq_bind, Option.bind_some]
  · rw [haddv, hmulv, hval, Nat.mul_comm]

theorem pushDigit_of_not {c : Char} (h : ¬ IsDigit c) (r : UInt16) : pushDigit r c = none := by
  have hdigit : toDigit c = none := if_neg h
  unfold pushDigit
  rw [hdigit]
  rfl

theorem u16FromDigits_one (c : Char) : u16FromDigits [c] = pushDigit 0 c := by
  unfold u16FromDigits
  simp

theorem u16FromDigits_two (c d : Char) :
    u16FromDigits [c, d] = (pushDigit 0 c).bind fun r => pushDigit r d := by
  unfold u16FromDigits
  simp

theorem u16FromDigits_one_iff {c : Char} {a : UInt16} :
    u16FromDigits [c] = some a ↔ IsDigit c ∧ a.toNat = digitVal c := by
  rw [u16FromDigits_one]
  by_cases hc : IsDigit c
  · obtain ⟨r, hr, hval⟩ := pushDigit_of_isDigit hc (r := 0) (by decide)
    have hzero : (0 : UInt16).toNat = 0 := rfl
    rw [hr, Option.some_inj, ← UInt16.toNat_inj, hval, hzero]
    simp [hc, eq_comm]
  · rw [pushDigit_of_not hc]
    simp [hc]

theorem u16FromDigits_two_iff {c d : Char} {a : UInt16} :
    u16FromDigits [c, d] = some a ↔ (IsDigit c ∧ IsDigit d) ∧ a.toNat = decimal [c, d] := by
  rw [u16FromDigits_two, decimal_two]
  by_cases hc : IsDigit c
  · obtain ⟨r, hr, hval⟩ := pushDigit_of_isDigit hc (r := 0) (by decide)
    have hzero : (0 : UInt16).toNat = 0 := rfl
    have hlt := digitVal_lt hc
    rw [hr, Option.bind_some]
    by_cases hd : IsDigit d
    · obtain ⟨r', hr', hval'⟩ := pushDigit_of_isDigit hd (r := r) (by omega)
      rw [hr', Option.some_inj, ← UInt16.toNat_inj, hval', hval, hzero]
      simp [hc, hd, eq_comm]
    · rw [pushDigit_of_not hd]
      simp [hd]
  · rw [pushDigit_of_not hc]
    simp [hc]

/-- `len` counts bytes, and a character may have up to four of them. Two bytes are two characters at
most, which is all that is needed in this direction. -/
theorem length_le_byteLen (cs : List Char) : cs.length ≤ byteLen cs := by
  unfold byteLen
  induction cs with
  | nil => exact Nat.le_refl 0
  | cons c cs ih =>
    have hc : 0 < (String.utf8EncodeChar c).length := by
      rw [String.length_utf8EncodeChar]
      exact c.utf8Size_pos
    rw [List.flatMap_cons, List.length_append, List.length_cons]
    omega

/-- A digit or a sign is one byte. -/
theorem byteLen_eq {cs : List Char} (h : ∀ c ∈ cs, IsDigit c ∨ c = '+') :
    byteLen cs = cs.length := by
  unfold byteLen
  induction cs with
  | nil => rfl
  | cons c cs ih =>
    have hc : (String.utf8EncodeChar c).length = 1 := by
      rw [String.length_utf8EncodeChar, Char.utf8Size_eq_one_iff]
      rcases h c List.mem_cons_self with hd | rfl
      · exact UInt32.le_trans hd.2 (by decide)
      · decide
    rw [List.flatMap_cons, List.length_append, List.length_cons, hc,
      ih fun d hd => h d (List.mem_cons_of_mem _ hd), Nat.add_comm]

theorem u16FromStr_plus (d : Char) (ds : List Char) :
    u16FromStr ('+' :: d :: ds) = u16FromDigits (d :: ds) := rfl

theorem u16FromStr_of_ne {c : Char} (h : c ≠ '+') (cs : List Char) :
    u16FromStr (c :: cs) = u16FromDigits (c :: cs) := by
  unfold u16FromStr
  split
  · contradiction
  · simp_all
  · simp_all
  · rfl

/-- **The pieces are what is accepted.** The check of the length and `u16::from_str` together leave
the strings of `Piece` and no others. -/
theorem piece_iff {cs : List Char} {a : UInt16} :
    byteLen cs ≤ 2 ∧ u16FromStr cs = some a ↔ Piece cs a.toNat := by
  constructor
  · rintro ⟨hlen, h⟩
    -- Two characters at most: they can be gone through.
    have hshort := (length_le_byteLen cs).trans hlen
    match cs, hshort, h with
    | [], _, h => exact absurd h (by simp [u16FromStr])
    | [c], _, h =>
      by_cases hc : c = '+'
      · rw [hc] at h
        exact absurd h (by simp [u16FromStr])
      · rw [u16FromStr_of_ne hc, u16FromDigits_one_iff] at h
        rw [h.2, ← decimal_one]
        exact .numeral (numeral_one.mpr h.1)
    | [c, d], _, h =>
      by_cases hc : c = '+'
      · rw [hc, u16FromStr_plus, u16FromDigits_one_iff] at h
        rw [hc, h.2]
        exact .signed h.1
      · rw [u16FromStr_of_ne hc, u16FromDigits_two_iff] at h
        rw [h.2]
        exact .numeral (numeral_two.mpr h.1)
    | c :: d :: e :: cs, hshort, _ => exact absurd hshort (by simp)
  · have hplus : ∀ c, IsDigit c → c ≠ '+' := by
      rintro c hc rfl
      exact absurd hc (by decide)
    intro h
    generalize hn : a.toNat = n at h
    cases h with
    | @signed d h =>
      refine ⟨?_, ?_⟩
      · rw [byteLen_eq (by simp [h])]
        simp
      · rw [u16FromStr_plus, u16FromDigits_one_iff]
        exact ⟨h, hn⟩
    | numeral h =>
      refine ⟨?_, ?_⟩
      · rw [byteLen_eq fun c hc => .inl (h.2 c hc)]
        rcases h.1 with hl | hl
        · rw [hl]; decide
        · rw [hl]
      · match cs, h with
        | [c], h =>
          have hc := numeral_one.mp h
          rw [u16FromStr_of_ne (hplus c hc), u16FromDigits_one_iff, hn, decimal_one]
          exact ⟨hc, rfl⟩
        | [c, d], h =>
          have hcd := numeral_two.mp h
          rw [u16FromStr_of_ne (hplus c hcd.1), u16FromDigits_two_iff]
          exact ⟨hcd, hn⟩

/-! ## The whole option -/

/-- What the parser takes, and the number it returns. A piece that is missing counts as zero. -/
inductive Accepts : List Char → ℕ → Prop
  | whole {as : List Char} {a : ℕ} (ha : Piece as a) : Accepts as (100 * a)
  | fraction {as bs : List Char} {a b : ℕ} (ha : Piece as a) (hb : Piece bs b) :
      Accepts (as ++ '.' :: bs) (100 * a + b)

/-- Two pieces, and their sum, which stays below ten thousand and does not wrap. -/
theorem parsePieces_ok_iff {pre post : List Char} {v : UInt16} :
    parsePieces pre post = .ok v ↔
      ∃ a b, Piece pre a ∧ Piece post b ∧ v.toNat = 100 * a + b := by
  have hsum : ∀ a b : UInt16, a.toNat < 100 → b.toNat < 100 →
      (a * 100 + b).toNat = 100 * a.toNat + b.toNat := by
    intro a b ha hb
    have hundred : (100 : UInt16).toNat = 100 := rfl
    rw [UInt16.toNat_add, UInt16.toNat_mul, hundred]
    omega
  constructor
  · intro h
    unfold parsePieces at h
    by_cases hlen : byteLen pre > 2 ∨ byteLen post > 2
    · rw [if_pos hlen] at h
      exact absurd h (by simp)
    · rw [if_neg hlen] at h
      cases hpost : u16FromStr post with
      | none => exact absurd h (by simp [hpost])
      | some b =>
        cases hpre : u16FromStr pre with
        | none => exact absurd h (by simp [hpost, hpre])
        | some a =>
          have ha : Piece pre a.toNat := piece_iff.mp ⟨by omega, hpre⟩
          have hb : Piece post b.toNat := piece_iff.mp ⟨by omega, hpost⟩
          simp only [hpost, hpre] at h
          split at h
          · exact absurd h (by simp)
          · rw [← Except.ok.inj h]
            exact ⟨_, _, ha, hb, hsum a b ha.lt hb.lt⟩
  · rintro ⟨a, b, ha, hb, hv⟩
    have hav : (UInt16.ofNat a).toNat = a := by
      rw [UInt16.toNat_ofNat']
      exact Nat.mod_eq_of_lt (ha.lt.trans (by decide))
    have hbv : (UInt16.ofNat b).toNat = b := by
      rw [UInt16.toNat_ofNat']
      exact Nat.mod_eq_of_lt (hb.lt.trans (by decide))
    obtain ⟨hprelen, hpre⟩ := piece_iff.mpr (hav.symm ▸ ha)
    obtain ⟨hpostlen, hpost⟩ := piece_iff.mpr (hbv.symm ▸ hb)
    have hsmall : ∀ x : UInt16, x.toNat < 100 → ¬ x ≥ 100 := fun x hx hge =>
      absurd (UInt16.le_iff_toNat_le.mp hge) (not_le.mpr hx)
    unfold parsePieces
    rw [if_neg (by omega)]
    simp only [hpre, hpost]
    rw [if_neg (not_or.mpr ⟨hsmall _ (hav.trans_lt ha.lt), hsmall _ (hbv.trans_lt hb.lt)⟩)]
    refine congrArg Except.ok (UInt16.toNat_inj.mp ?_)
    rw [hsum _ _ (hav.trans_lt ha.lt) (hbv.trans_lt hb.lt), hav, hbv, hv]

/-- What is put in for a missing piece. -/
theorem piece_zero {n : ℕ} : Piece ['0'] n ↔ n = 0 := by
  constructor
  · intro h
    cases h with
    | numeral h => rfl
  · rintro rfl
    exact .numeral (numeral_one.mpr (by decide))

/-- Pieces have no dot in them, so where the dot is is known, and there is only one. -/
theorem splitOn_fraction {as bs : List Char} (ha : '.' ∉ as) (hb : '.' ∉ bs) :
    (as ++ '.' :: bs).splitOn '.' = [as, bs] := by
  rw [List.splitOn_append_cons_self_of_not_mem ha, List.splitOn_eq_singleton hb]

/-- **The parser takes the strings of `Accepts`**, and returns the number that goes with them. What
`split` gives is put together again in one direction; in the other it is computed. -/
theorem parse_ok_iff {s : String} {v : UInt16} :
    parseDevfundPercent s = .ok v ↔ Accepts s.toList v.toNat := by
  have hback : ['.'].intercalate (s.toList.splitOn '.') = s.toList := List.intercalate_splitOn '.'
  constructor
  · intro h
    unfold parseDevfundPercent at h
    split at h
    · exact absurd h (by simp)
    · next pre hsplit =>
      obtain ⟨a, b, ha, hb, hv⟩ := parsePieces_ok_iff.mp h
      rw [hsplit] at hback
      rw [hv, piece_zero.mp hb, ← hback]
      simpa using Accepts.whole ha
    · next pre post hsplit =>
      obtain ⟨a, b, ha, hb, hv⟩ := parsePieces_ok_iff.mp h
      rw [hsplit] at hback
      rw [hv, ← hback]
      simpa using Accepts.fraction ha hb
    · exact absurd h (by simp)
  · intro h
    unfold parseDevfundPercent
    clear hback
    generalize s.toList = cs at h ⊢
    generalize hn : v.toNat = n at h
    cases h with
    | whole ha =>
      rw [List.splitOn_eq_singleton ha.dot_not_mem]
      exact parsePieces_ok_iff.mpr ⟨_, 0, ha, piece_zero.mpr rfl, hn⟩
    | fraction ha hb =>
      rw [splitOn_fraction ha.dot_not_mem hb.dot_not_mem]
      exact parsePieces_ok_iff.mpr ⟨_, _, ha, hb, hn⟩

/-- 99.99 percent at most, so the result fits in any case. -/
theorem Accepts.lt {cs : List Char} {n : ℕ} (h : Accepts cs n) : n < 10000 := by
  cases h with
  | whole ha =>
    have := ha.lt
    omega
  | fraction ha hb =>
    have := ha.lt
    have := hb.lt
    omega

theorem exists_parse_ok {s : String} {n : ℕ} (h : Accepts s.toList n) :
    ∃ v : UInt16, parseDevfundPercent s = .ok v ∧ v.toNat = n := by
  have hv : (UInt16.ofNat n).toNat = n := by
    rw [UInt16.toNat_ofNat']
    exact Nat.mod_eq_of_lt (h.lt.trans (by decide))
  exact ⟨UInt16.ofNat n, parse_ok_iff.mpr (hv.symm ▸ h), hv⟩

/-- The parser has one answer. -/
theorem Accepts.unique {s : String} {n : ℕ} (h : Accepts s.toList n) {v : UInt16}
    (hv : parseDevfundPercent s = .ok v) : v.toNat = n := by
  obtain ⟨w, hw, hn⟩ := exists_parse_ok h
  rw [hv] at hw
  rw [Except.ok.inj hw, hn]

/-! ## Where the two grammars agree -/

/-- `+` and one digit. There is no room for a second one. -/
def Signed (cs : List Char) : Prop := ∃ d, IsDigit d ∧ cs = ['+', d]

/-- A number with a sign, or with a sign in one of its two places. -/
def HasSign (cs : List Char) : Prop :=
  Signed cs ∨ ∃ as bs, cs = as ++ '.' :: bs ∧
    (Signed as ∧ (Numeral bs ∨ Signed bs) ∨ Numeral as ∧ Signed bs)

/-- One digit after the dot, and not a zero. -/
def HasTenths (cs : List Char) : Prop :=
  ∃ as d, cs = as ++ ['.', d] ∧ Numeral as ∧ IsDigit d ∧ d ≠ '0'

/-- What the option promises about `s`: it is accepted if and only if it is a number of the
grammar, and the result is a hundred times this number. Hundredths of a percent are what
`devfund_percent` is in. -/
def MeetsPromise (s : String) : Prop :=
  ((∃ v, parseDevfundPercent s = .ok v) ↔ ∃ q, Denotes s.toList q) ∧
    ∀ v q, parseDevfundPercent s = .ok v → Denotes s.toList q → (v.toNat : ℚ) = 100 * q

theorem Piece.numeral_or_signed {cs : List Char} {n : ℕ} (h : Piece cs n) :
    Numeral cs ∨ Signed cs := by
  cases h with
  | numeral h => exact .inl h
  | signed h => exact .inr ⟨_, h, rfl⟩

theorem Signed.piece {cs : List Char} (h : Signed cs) : ∃ n, Piece cs n := by
  obtain ⟨d, hd, rfl⟩ := h
  exact ⟨_, .signed hd⟩

theorem Signed.mem {cs : List Char} (h : Signed cs) : '+' ∈ cs := by
  obtain ⟨d, -, rfl⟩ := h
  exact List.mem_cons_self

/-- A sign is accepted wherever it can stand. -/
theorem HasSign.accepts {cs : List Char} (h : HasSign cs) : ∃ n, Accepts cs n := by
  rcases h with h | ⟨as, bs, rfl, ⟨ha, hb | hb⟩ | ⟨ha, hb⟩⟩
  · obtain ⟨n, hn⟩ := h.piece
    exact ⟨_, .whole hn⟩
  · obtain ⟨n, hn⟩ := ha.piece
    exact ⟨_, .fraction hn (.numeral hb)⟩
  · obtain ⟨n, hn⟩ := ha.piece
    obtain ⟨m, hm⟩ := hb.piece
    exact ⟨_, .fraction hn hm⟩
  · obtain ⟨m, hm⟩ := hb.piece
    exact ⟨_, .fraction (.numeral ha) hm⟩

theorem HasSign.mem {cs : List Char} (h : HasSign cs) : '+' ∈ cs := by
  rcases h with h | ⟨as, bs, rfl, ⟨ha, -⟩ | ⟨-, hb⟩⟩
  · exact h.mem
  · exact List.mem_append_left _ ha.mem
  · exact List.mem_append_right _ (List.mem_cons_of_mem _ hb.mem)

/-- No number of the grammar has a sign. -/
theorem Denotes.sign_not_mem {cs : List Char} {q : ℚ} (h : Denotes cs q) : '+' ∉ cs := by
  have hsign : ¬ IsDigit '+' := by decide
  cases h with
  | whole ha => exact ha.not_mem hsign
  | fraction ha hb =>
    simp only [List.mem_append, List.mem_cons, not_or]
    exact ⟨ha.not_mem hsign, by decide, hb.not_mem hsign⟩

/-- Numbers of the grammar are accepted, with the digits after the dot as hundredths. That is what
they are if there are two of them, or if the one there is is a zero. -/
theorem Denotes.accepts {cs : List Char} {q : ℚ} (h : Denotes cs q) : ∃ n, Accepts cs n ∧
    (¬ HasTenths cs → (n : ℚ) = 100 * q) := by
  cases h with
  | whole ha =>
    refine ⟨_, .whole (.numeral ha), ?_⟩
    intro _
    push_cast
    rfl
  | @fraction as bs ha hb =>
    refine ⟨_, .fraction (.numeral ha) (.numeral hb), ?_⟩
    intro htenths
    push_cast
    match bs, hb with
    -- A tenth that is not a zero has been excluded.
    | [d], hb =>
      have hd : d = '0' := by
        by_contra hne
        exact htenths ⟨as, d, rfl, ha, numeral_one.mp hb, hne⟩
      rw [hd, show decimal ['0'] = 0 from rfl]
      simp
    | [c, d], hb =>
      simp only [List.length_cons, List.length_nil]
      ring

/-- What is accepted has a sign or is a number of the grammar. -/
theorem Accepts.sign_or_denotes {cs : List Char} {n : ℕ} (h : Accepts cs n) :
    HasSign cs ∨ ∃ q, Denotes cs q := by
  cases h with
  | whole ha =>
    rcases ha.numeral_or_signed with ha | ha
    · exact .inr ⟨_, .whole ha⟩
    · exact .inl (.inl ha)
  | @fraction as bs _ _ ha hb =>
    rcases ha.numeral_or_signed with ha | ha
    · rcases hb.numeral_or_signed with hb | hb
      · exact .inr ⟨_, .fraction ha hb⟩
      · exact .inl (.inr ⟨as, bs, rfl, .inr ⟨ha, hb⟩⟩)
    · rcases hb.numeral_or_signed with hb | hb
      · exact .inl (.inr ⟨as, bs, rfl, .inl ⟨ha, .inl hb⟩⟩)
      · exact .inl (.inr ⟨as, bs, rfl, .inl ⟨ha, .inr hb⟩⟩)

/-- And otherwise it is not: the parser adds a tenth of what the digit stands for. -/
theorem HasTenths.not_meets {s : String} (h : HasTenths s.toList) : ¬ MeetsPromise s := by
  intro hmeets
  obtain ⟨as, d, hs, ha, hd, hne⟩ := h
  have hb : Numeral [d] := numeral_one.mpr hd
  have haccepts : Accepts s.toList (100 * decimal as + decimal [d]) :=
    hs ▸ Accepts.fraction (.numeral ha) (.numeral hb)
  have hdenotes : Denotes s.toList (decimal as + decimal [d] / 10 ^ [d].length) :=
    hs ▸ Denotes.fraction ha hb
  obtain ⟨v, hv, hval⟩ := exists_parse_ok haccepts
  have hpromise := hmeets.2 v _ hv hdenotes
  rw [hval, decimal_one] at hpromise
  push_cast at hpromise
  have hzero : digitVal d = 0 := by
    have hzero : (digitVal d : ℚ) = 0 := by
      simp only [List.length_cons, List.length_nil] at hpromise
      linarith
    exact_mod_cast hzero
  exact hne (eq_zero_of_digitVal hd hzero)

/-- **The promise is kept exactly where there is no sign and no bare tenth.** Where there is a
sign, the string is accepted and is no number; where there is a tenth, the result is not the number
it denotes. Everywhere else the two grammars are the same. -/
theorem parseDevfundPercent_meets_iff (s : String) :
    MeetsPromise s ↔ ¬ HasSign s.toList ∧ ¬ HasTenths s.toList := by
  constructor
  · intro hmeets
    refine ⟨?_, fun h => h.not_meets hmeets⟩
    intro hsign
    obtain ⟨n, hn⟩ := hsign.accepts
    obtain ⟨v, hv, -⟩ := exists_parse_ok hn
    obtain ⟨q, hq⟩ := hmeets.1.mp ⟨v, hv⟩
    exact hq.sign_not_mem hsign.mem
  · rintro ⟨hsign, htenths⟩
    refine ⟨⟨?_, ?_⟩, ?_⟩
    · rintro ⟨v, hv⟩
      exact (parse_ok_iff.mp hv).sign_or_denotes.resolve_left hsign
    · rintro ⟨q, hq⟩
      obtain ⟨n, hn, -⟩ := hq.accepts
      obtain ⟨v, hv, -⟩ := exists_parse_ok hn
      exact ⟨v, hv⟩
    · intro v q hv hq
      obtain ⟨n, hn, hval⟩ := hq.accepts
      rw [hn.unique hv]
      exact hval htenths

/-- The string `1.5` denotes one and a half, and is taken for 1.05. -/
theorem parseDevfundPercent_not_meets : ¬ MeetsPromise "1.5" := by
  intro h
  have hone : Numeral ['1'] := numeral_one.mpr (by decide)
  have hfive : Numeral ['5'] := numeral_one.mpr (by decide)
  have hparse : parseDevfundPercent "1.5" = .ok 105 :=
    parse_ok_iff.mpr (.fraction (.numeral hone) (.numeral hfive))
  have hdenotes : Denotes "1.5".toList (decimal ['1'] + decimal ['5'] / 10 ^ 1) :=
    .fraction hone hfive
  have hvalue := h.2 105 _ hparse hdenotes
  rw [show decimal ['1'] = 1 from rfl, show decimal ['5'] = 5 from rfl,
    show (105 : UInt16).toNat = 105 from rfl] at hvalue
  norm_num at hvalue

end KaspaMiner
