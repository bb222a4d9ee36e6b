import Mathlib.Data.List.Basic
import Mathlib.Data.Char

/-!
# Hexadecimal text

A hexadecimal character is read by its code, so that the same digit can be looked at as a `Char`
of a string or as a byte of its UTF-8 form: `IsHexCode` and `hexCode` are about the code, and
`IsHex` and `unhex` about characters.

What ties the two is that UTF-8 writes an ASCII character as its code and every other character
in bytes from 128 up (`utf8_ascii`, `utf8_high`). So a string whose *bytes* are all hexadecimal
has only hexadecimal *characters* (`isHex_of_bytes`), one per byte.
-/

namespace KaspaMiner
namespace Lib

/-- `0`–`9`, `A`–`F` or `a`–`f`, as a code. -/
def IsHexCode (n : ℕ) : Prop := (48 ≤ n ∧ n ≤ 57) ∨ (65 ≤ n ∧ n ≤ 70) ∨ (97 ≤ n ∧ n ≤ 102)

instance (n : ℕ) : Decidable (IsHexCode n) := inferInstanceAs (Decidable (_ ∨ _))

/-- The value of a hexadecimal digit, letters counting the same in either case. -/
def hexCode (n : ℕ) : ℕ := if n ≤ 57 then n - 48 else if n ≤ 70 then n - 55 else n - 87

theorem hexCode_lt {n : ℕ} (h : IsHexCode n) : hexCode n < 16 := by
  unfold IsHexCode at h
  unfold hexCode
  split
  · omega
  · split <;> omega

/-- Two digits at a time, the high half of each byte first. A digit left over is ignored. -/
def unhexCodes : List ℕ → List UInt8
  | a :: b :: rest => UInt8.ofNat (16 * hexCode a + hexCode b) :: unhexCodes rest
  | _ => []

theorem unhexCodes_length : ∀ cs : List ℕ, (unhexCodes cs).length = cs.length / 2
  | [] => rfl
  | [_] => by simp [unhexCodes]
  | _ :: _ :: rest => by
    unfold unhexCodes
    rw [List.length_cons, unhexCodes_length rest, List.length_cons, List.length_cons]
    omega

/-! ## Characters -/

/-- `c` is a hexadecimal digit. -/
def IsHex (c : Char) : Prop := IsHexCode c.toNat

instance (c : Char) : Decidable (IsHex c) := inferInstanceAs (Decidable (IsHexCode _))

-- A text is decided along its characters, not over all characters there are.
instance (cs : List Char) : Decidable (∀ c ∈ cs, IsHex c) := List.decidableBAll IsHex cs

/-- The bytes a hexadecimal text denotes. -/
def unhex (cs : List Char) : List UInt8 := unhexCodes (cs.map Char.toNat)

theorem unhex_length (cs : List Char) : (unhex cs).length = cs.length / 2 := by
  unfold unhex
  rw [unhexCodes_length, List.length_map]

/-! ## …and their UTF-8 bytes -/

theorem utf8_ascii {c : Char} (h : c.toNat < 128) :
    String.utf8EncodeChar c = [UInt8.ofNat c.toNat] := by
  have hc : c.val.toNat ≤ 127 := by
    have : c.toNat = c.val.toNat := rfl
    omega
  rw [String.utf8EncodeChar, if_pos hc]
  rfl

theorem utf8_high {c : Char} (h : 128 ≤ c.toNat) :
    ∀ b ∈ String.utf8EncodeChar c, 128 ≤ b.toNat := by
  have hc : ¬ c.val.toNat ≤ 127 := by
    have : c.toNat = c.val.toNat := rfl
    omega
  have hlead : ∀ k m : ℕ, 128 ≤ m → k + m < 256 → 128 ≤ (UInt8.ofNat (k + m)).toNat := by
    intro k m hm hlt
    rw [UInt8.toNat_ofNat', Nat.mod_eq_of_lt hlt]
    omega
  intro b hb
  rw [String.utf8EncodeChar, if_neg hc] at hb
  split at hb
  · simp only [List.mem_cons, List.not_mem_nil, or_false] at hb
    rcases hb with rfl | rfl <;> exact hlead _ _ (by omega) (by omega)
  · split at hb
    · simp only [List.mem_cons, List.not_mem_nil, or_false] at hb
      rcases hb with rfl | rfl | rfl <;> exact hlead _ _ (by omega) (by omega)
    · simp only [List.mem_cons, List.not_mem_nil, or_false] at hb
      rcases hb with rfl | rfl | rfl | rfl <;> exact hlead _ _ (by omega) (by omega)

/-- Only an ASCII character has hexadecimal bytes, and then it is that one byte. -/
theorem isHex_of_bytes {c : Char} (h : ∀ b ∈ String.utf8EncodeChar c, IsHexCode b.toNat) :
    IsHex c := by
  by_cases hc : c.toNat < 128
  · rw [utf8_ascii hc] at h
    have hb := h _ List.mem_cons_self
    rwa [UInt8.toNat_ofNat', Nat.mod_eq_of_lt (by omega)] at hb
  · have hlen : String.utf8EncodeChar c ≠ [] := by
      intro hnil
      have := String.length_utf8EncodeChar c
      rw [hnil] at this
      have := c.utf8Size_pos
      simp_all
    obtain ⟨b, bs, hbs⟩ := List.exists_cons_of_ne_nil hlen
    have hmem : b ∈ String.utf8EncodeChar c := by rw [hbs]; exact List.mem_cons_self
    have hge := utf8_high (by omega) b hmem
    have hhex := h b hmem
    unfold IsHexCode at hhex
    omega

theorem IsHex.lt {c : Char} (h : IsHex c) : c.toNat < 128 := by
  unfold IsHex IsHexCode at h
  omega

/-- The UTF-8 codes of a hexadecimal text are the codes of its characters. -/
theorem utf8_codes : ∀ {cs : List Char}, (∀ c ∈ cs, IsHex c) →
    (cs.flatMap String.utf8EncodeChar).map UInt8.toNat = cs.map Char.toNat
  | [], _ => rfl
  | c :: cs, h => by
    have hc := (h c List.mem_cons_self).lt
    have hbyte : (UInt8.ofNat c.toNat).toNat = c.toNat := by
      rw [UInt8.toNat_ofNat', Nat.mod_eq_of_lt (by omega)]
    rw [List.flatMap_cons, utf8_ascii hc, List.map_append, List.map_singleton, hbyte,
      utf8_codes fun d hd => h d (List.mem_cons_of_mem _ hd)]
    rfl

theorem forall_isHex_iff (cs : List Char) :
    (∀ b ∈ cs.flatMap String.utf8EncodeChar, IsHexCode b.toNat) ↔ ∀ c ∈ cs, IsHex c := by
  constructor
  · intro h c hc
    exact isHex_of_bytes fun b hb => h b (List.mem_flatMap.mpr ⟨c, hc, hb⟩)
  · intro h b hb
    obtain ⟨c, hc, hbc⟩ := List.mem_flatMap.mp hb
    have hlt := (h c hc).lt
    rw [utf8_ascii hlt, List.mem_singleton] at hbc
    rw [hbc, UInt8.toNat_ofNat', Nat.mod_eq_of_lt (by omega)]
    exact h c hc

end Lib
end KaspaMiner
