import KaspaMiner.Rust
import KaspaMiner.Lib.Hex

/-!
# `decode_to_slice`

The hexadecimal decoder of `pow.rs`. It writes into a buffer it is given and may stop in the
middle, so it answers a result *and* the buffer as it leaves it.

`decodeToSlice_ok_iff` is the acceptance half — the right length and nothing but hexadecimal
characters — and `decodeToSlice_of_ok` says what an accepting call leaves behind: the decoded
bytes and nothing of what the buffer held.
-/

namespace KaspaMiner
namespace Pow

inductive FromHexError where
  | oddLength
  | invalidStringLength
  | invalidHexCharacter (c : Char) (index : ℕ)

/-- One hexadecimal digit, given with its position for the error. -/
def val (c : UInt8) (idx : ℕ) : Except FromHexError UInt8 :=
  if 65 ≤ c ∧ c ≤ 70 then .ok (c - 65 + 10)
  else if 97 ≤ c ∧ c ≤ 102 then .ok (c - 97 + 10)
  else if 48 ≤ c ∧ c ≤ 57 then .ok (c - 48)
  else .error (.invalidHexCharacter (Char.ofNat c.toNat) idx)

/-- `val(data[2 * i], 2 * i)? << 4 | val(data[2 * i + 1], 2 * i + 1)?` -/
def decodeByte (data : List UInt8) (i : ℕ) : Except FromHexError UInt8 := do
  let hi ← val data[2 * i]! (2 * i)
  let lo ← val data[2 * i + 1]! (2 * i + 1)
  return hi <<< 4 ||| lo

/-- The loop of `decode_to_slice`, at byte `i` with the rest of the output ahead of it. -/
def decodeLoop (data : List UInt8) : ℕ → List UInt8 → Except FromHexError Unit × List UInt8
  | _, [] => (.ok (), [])
  | i, byte :: out =>
    match decodeByte data i with
    | .error e => (.error e, byte :: out)
    | .ok b =>
      let (res, out) := decodeLoop data (i + 1) out
      (res, b :: out)

def decodeToSlice (data : List UInt8) (out : List UInt8) :
    Except FromHexError Unit × List UInt8 :=
  if data.length % 2 ≠ 0 then (.error .oddLength, out)
  else if data.length / 2 ≠ out.length then (.error .invalidStringLength, out)
  else decodeLoop data 0 out

/-! ## One digit, one byte -/

theorem val_ok {c : UInt8} {idx : ℕ} (h : Lib.IsHexCode c.toNat) :
    val c idx = .ok (UInt8.ofNat (Lib.hexCode c.toNat)) := by
  have hall : ∀ n < 256, Lib.IsHexCode n →
      (val (UInt8.ofNat n) 0).toOption = some (UInt8.ofNat (Lib.hexCode n)) := by decide +kernel
  have hidx : (val c idx).toOption = (val c 0).toOption := by
    unfold val
    split
    · rfl
    · split
      · rfl
      · split <;> rfl
  have hc := hall c.toNat c.toNat_lt h
  rw [UInt8.ofNat_toNat, ← hidx] at hc
  cases hv : val c idx with
  | error e => rw [hv] at hc; simp [Except.toOption] at hc
  | ok b => rw [hv] at hc; simpa [Except.toOption] using hc

theorem val_error {c : UInt8} {idx : ℕ} (h : ¬ Lib.IsHexCode c.toNat) :
    val c idx = .error (.invalidHexCharacter (Char.ofNat c.toNat) idx) := by
  unfold Lib.IsHexCode at h
  have hle : ∀ a b : UInt8, a ≤ b ↔ a.toNat ≤ b.toNat := fun a b => UInt8.le_iff_toNat_le
  unfold val
  rw [if_neg, if_neg, if_neg] <;> simp only [hle] <;> intro hc <;> exact h (by simp at hc; omega)

/-- Two digits make a byte: the shift drops nothing and the halves do not overlap. -/
theorem nibbles_or : ∀ hi < 16, ∀ lo < 16,
    UInt8.ofNat hi <<< 4 ||| UInt8.ofNat lo = UInt8.ofNat (16 * hi + lo) := by decide +kernel

theorem decodeByte_ok {data : List UInt8} {i : ℕ} (hhi : Lib.IsHexCode data[2 * i]!.toNat)
    (hlo : Lib.IsHexCode data[2 * i + 1]!.toNat) :
    decodeByte data i = .ok (UInt8.ofNat
      (16 * Lib.hexCode data[2 * i]!.toNat + Lib.hexCode data[2 * i + 1]!.toNat)) := by
  unfold decodeByte
  rw [val_ok hhi, val_ok hlo, ← nibbles_or _ (Lib.hexCode_lt hhi) _ (Lib.hexCode_lt hlo)]
  rfl

theorem decodeByte_isHex {data : List UInt8} {i : ℕ} {b : UInt8} (h : decodeByte data i = .ok b) :
    Lib.IsHexCode data[2 * i]!.toNat ∧ Lib.IsHexCode data[2 * i + 1]!.toNat := by
  by_cases hhi : Lib.IsHexCode data[2 * i]!.toNat
  · refine ⟨hhi, ?_⟩
    by_contra hlo
    unfold decodeByte at h
    rw [val_ok hhi, val_error hlo] at h
    exact absurd h (by simp [bind, Except.bind])
  · unfold decodeByte at h
    rw [val_error hhi] at h
    exact absurd h (by simp [bind, Except.bind])

/-! ## The loop -/

/-- The two characters the loop reads at byte `i`, and the rest of the text. -/
theorem drop_pair {data : List UInt8} {i : ℕ} (h : 2 * i + 1 < data.length) :
    data.drop (2 * i) = data[2 * i]! :: data[2 * i + 1]! :: data.drop (2 * (i + 1)) := by
  rw [getElem!_pos data (2 * i) (by omega), getElem!_pos data (2 * i + 1) h,
    List.drop_eq_getElem_cons (by omega), List.drop_eq_getElem_cons h]
  rfl

theorem decodeLoop_of_isHex {data : List UInt8} : ∀ {out : List UInt8} {i : ℕ},
    data.length = 2 * (i + out.length) → (∀ b ∈ data.drop (2 * i), Lib.IsHexCode b.toNat) →
    decodeLoop data i out = (.ok (), Lib.unhexCodes ((data.drop (2 * i)).map UInt8.toNat))
  | [], i, hlen, _ => by
    rw [List.drop_eq_nil_of_le (by simp at hlen; omega)]
    rfl
  | byte :: out, i, hlen, hhex => by
    rw [List.length_cons] at hlen
    rw [drop_pair (by omega)] at hhex ⊢
    have hlen' : data.length = 2 * (i + 1 + out.length) := by omega
    have hrest := decodeLoop_of_isHex hlen'
      fun b hb => hhex b (List.mem_cons_of_mem _ (List.mem_cons_of_mem _ hb))
    rw [decodeLoop, decodeByte_ok (hhex _ List.mem_cons_self)
      (hhex _ (List.mem_cons_of_mem _ List.mem_cons_self))]
    simp only [hrest, List.map_cons, Lib.unhexCodes]

theorem decodeLoop_isHex {data : List UInt8} : ∀ {out : List UInt8} {i : ℕ},
    data.length = 2 * (i + out.length) → (decodeLoop data i out).1 = .ok () →
    ∀ b ∈ data.drop (2 * i), Lib.IsHexCode b.toNat
  | [], i, hlen, _ => by
    rw [List.drop_eq_nil_of_le (by simp at hlen; omega)]
    simp
  | byte :: out, i, hlen, hok => by
    rw [List.length_cons] at hlen
    unfold decodeLoop at hok
    cases hd : decodeByte data i with
    | error e => rw [hd] at hok; exact absurd hok (by simp)
    | ok b =>
      rw [hd] at hok
      obtain ⟨hhi, hlo⟩ := decodeByte_isHex hd
      have hlen' : data.length = 2 * (i + 1 + out.length) := by omega
      have hrest := decodeLoop_isHex hlen' hok
      rw [drop_pair (by omega)]
      intro c hc
      rcases List.mem_cons.mp hc with rfl | hc
      · exact hhi
      · rcases List.mem_cons.mp hc with rfl | hc
        · exact hlo
        · exact hrest c hc

/-! ## The decoder -/

/-- What an accepting call leaves in the buffer: the decoded bytes, all of them, and nothing of
what was there before. -/
theorem decodeToSlice_of_isHex {data out : List UInt8} (hlen : data.length = 2 * out.length)
    (hhex : ∀ b ∈ data, Lib.IsHexCode b.toNat) :
    decodeToSlice data out = (.ok (), Lib.unhexCodes (data.map UInt8.toNat)) := by
  rw [decodeToSlice, if_neg (by omega), if_neg (by omega),
    decodeLoop_of_isHex (by omega) (by simpa using hhex)]
  simp

theorem decodeToSlice_isHex {data out : List UInt8} (h : (decodeToSlice data out).1 = .ok ()) :
    data.length = 2 * out.length ∧ ∀ b ∈ data, Lib.IsHexCode b.toNat := by
  unfold decodeToSlice at h
  split at h
  · exact absurd h (by simp)
  · split at h
    · exact absurd h (by simp)
    · have hlen : data.length = 2 * out.length := by omega
      refine ⟨hlen, ?_⟩
      have hlen' : data.length = 2 * (0 + out.length) := by omega
      simpa using decodeLoop_isHex hlen' h

/-! ## …on a string -/

/-- `s` is `n` hexadecimal characters. -/
def IsHexText (s : String) (n : ℕ) : Prop := s.toList.length = n ∧ ∀ c ∈ s.toList, Lib.IsHex c

instance (s : String) (n : ℕ) : Decidable (IsHexText s n) := inferInstanceAs (Decidable (_ ∧ _))

theorem asRef_codes {s : String} (h : ∀ c ∈ s.toList, Lib.IsHex c) :
    (asRef s).map UInt8.toNat = s.toList.map Char.toNat := by
  rw [asRef_eq, Lib.utf8_codes h]

theorem asRef_length {s : String} (h : ∀ c ∈ s.toList, Lib.IsHex c) :
    (asRef s).length = s.toList.length := by
  have := congrArg List.length (asRef_codes h)
  simpa using this

/-- **What an accepting call on a string leaves in the buffer.** -/
theorem decodeToSlice_of_isHexText {s : String} {out : List UInt8}
    (h : IsHexText s (2 * out.length)) :
    decodeToSlice (asRef s) out = (.ok (), Lib.unhex s.toList) := by
  rw [decodeToSlice_of_isHex, asRef_codes h.2, Lib.unhex]
  · rw [asRef_length h.2, h.1]
  · rw [asRef_eq]
    exact (Lib.forall_isHex_iff _).mpr h.2

/-- **The decoder accepts a string exactly when it is hexadecimal text of the right length.** -/
theorem decodeToSlice_ok_iff {s : String} {out : List UInt8} :
    (decodeToSlice (asRef s) out).1 = .ok () ↔ IsHexText s (2 * out.length) := by
  constructor
  · intro h
    obtain ⟨hlen, hhex⟩ := decodeToSlice_isHex h
    rw [asRef_eq] at hhex
    have hchars := (Lib.forall_isHex_iff _).mp hhex
    exact ⟨by rw [← asRef_length hchars, hlen], hchars⟩
  · intro h
    rw [decodeToSlice_of_isHexText h]

end Pow
end KaspaMiner
