import Mathlib.Algebra.BigOperators.Fin
import KaspaMiner.Proof.Hex
import KaspaMiner.Proof.Target

/-!
# `Uint256` as an integer

A `Uint256` is determined by its value, and so are its bytes: everything about `from_le_bytes`,
`to_le_bytes` and `cmp` is a statement about that one number. The printed form is the bytes, two
digits each, which is what `decode_to_slice` reads.
-/

namespace KaspaMiner

namespace Uint256

theorem toNat_injective : Function.Injective toNat := by
  intro x y h
  have hwords : x.words.toList = y.words.toList :=
    Lib.ofDigits_map_inj (fun _ _ => UInt64.toNat_inj.mp) UInt64.toNat_lt (by simp) h
  cases x
  cases y
  exact congrArg mk (Vector.toList_inj.mp hwords)

/-! ## Bytes -/

/-- A word and the bytes after it. -/
theorem leValue_word (bytes : List UInt8) (h : 8 ≤ bytes.length) : Lib.leValue bytes =
    (wordFromLeBytes (bytes.take 8)).toNat + 2 ^ 64 * Lib.leValue (bytes.drop 8) := by
  have hlen : (bytes.take 8).length = 8 := List.length_take_of_le h
  have hlt := Lib.leValue_lt (bytes.take 8)
  rw [hlen] at hlt
  have hword : (wordFromLeBytes (bytes.take 8)).toNat = Lib.leValue (bytes.take 8) := by
    unfold wordFromLeBytes
    rw [UInt64.toNat_ofNat']
    exact Nat.mod_eq_of_lt hlt
  conv_lhs => rw [← List.take_append_drop 8 bytes]
  rw [Lib.leValue_append, hlen, hword]
  rfl

/-- The words are read from the bytes in order. -/
theorem fromLeBytes_toNat (b : Vector UInt8 32) : (fromLeBytes b).toNat = Lib.leValue b.toList := by
  have hlen : b.toList.length = 32 := by simp
  have hwords : (fromLeBytes b).toNat =
      (wordFromLeBytes (b.toList.take 8)).toNat + 2 ^ 64 *
      ((wordFromLeBytes ((b.toList.drop 8).take 8)).toNat + 2 ^ 64 *
      ((wordFromLeBytes ((b.toList.drop 16).take 8)).toNat + 2 ^ 64 *
      ((wordFromLeBytes ((b.toList.drop 24).take 8)).toNat + 2 ^ 64 * 0))) := by
    unfold fromLeBytes toNat
    rw [Vector.toList_ofFn]
    simp only [List.ofFn_succ, List.ofFn_zero, List.map_cons, List.map_nil, Nat.ofDigits_cons,
      Nat.ofDigits_nil]
    rfl
  have hrest : Lib.leValue (b.toList.drop 32) = 0 := by
    rw [List.drop_eq_nil_of_le hlen.le]
    rfl
  rw [hwords, leValue_word _ (by omega), leValue_word (b.toList.drop 8) (by simp),
    List.drop_drop, leValue_word (b.toList.drop (8 + 8)) (by simp), List.drop_drop,
    leValue_word (b.toList.drop (8 + 8 + 8)) (by simp), List.drop_drop, hrest]

theorem fromLeBytes_toLeBytes (x : Uint256) : fromLeBytes x.toLeBytes = x := by
  apply toNat_injective
  rw [fromLeBytes_toNat, leValue_toLeBytes]

theorem toLeBytes_fromLeBytes (b : Vector UInt8 32) : (fromLeBytes b).toLeBytes = b := by
  apply Vector.toList_inj.mp
  apply Lib.leValue_inj (by simp)
  rw [leValue_toLeBytes, fromLeBytes_toNat]

theorem leValue_toList {n : ℕ} (b : Vector UInt8 n) :
    Lib.leValue b.toList = ∑ i : Fin n, (b.get i).toNat * 256 ^ i.val := by
  rw [← Lib.leValue_ofFn]
  congr 1
  apply List.ext_getElem (by simp)
  intro i h₁ h₂
  rw [List.getElem_ofFn]
  rfl

/-! ## Text -/

/-- The two digits of a byte, the high half first and both in lower case. -/
theorem fmt02x_digits : ∀ n < 256, fmt02x (UInt8.ofNat n) =
    [Nat.digitChar (n / 16), Nat.digitChar (n % 16)] := by decide +kernel

theorem digitChar_hexCode : ∀ n < 128, Lib.IsHexCode n →
    Nat.digitChar (Lib.hexCode n) = (Char.ofNat n).toLower := by decide +kernel

theorem isHex_digitChar : ∀ n < 16,
    Lib.IsHex (Nat.digitChar n) ∧ Lib.hexCode (Nat.digitChar n).toNat = n := by decide

theorem fmt02x_eq (c : UInt8) :
    fmt02x c = [Nat.digitChar (c.toNat / 16), Nat.digitChar (c.toNat % 16)] := by
  rw [← fmt02x_digits c.toNat c.toNat_lt, UInt8.ofNat_toNat]

theorem digitChar_toLower {c : Char} (h : Lib.IsHex c) :
    Nat.digitChar (Lib.hexCode c.toNat) = c.toLower := by
  rw [digitChar_hexCode c.toNat h.lt h, Char.ofNat_toNat]

theorem lowerHex_isHexText (x : Uint256) : Pow.IsHexText x.lowerHex 64 := by
  unfold lowerHex
  refine ⟨?_, ?_⟩
  · simp [List.length_flatMap, fmt02x_eq]
  · intro c hc
    rw [String.toList_ofList, List.mem_flatMap] at hc
    obtain ⟨byte, -, hc⟩ := hc
    have hbyte := byte.toNat_lt
    rw [fmt02x_eq, List.mem_pair] at hc
    rcases hc with rfl | rfl
    · exact (isHex_digitChar _ (by omega)).1
    · exact (isHex_digitChar _ (by omega)).1

/-- What is printed is read again. -/
theorem unhex_fmt02x (bytes : List UInt8) : Lib.unhex (bytes.flatMap fmt02x) = bytes := by
  unfold Lib.unhex
  induction bytes with
  | nil => rfl
  | cons c bytes ih =>
    have hc := c.toNat_lt
    have hhi := (isHex_digitChar (c.toNat / 16) (by omega)).2
    have hlo := (isHex_digitChar (c.toNat % 16) (by omega)).2
    rw [List.flatMap_cons, fmt02x_eq]
    simp only [List.cons_append, List.nil_append, List.map_cons, Lib.unhexCodes, ih, hhi, hlo,
      Nat.div_add_mod, UInt8.ofNat_toNat]

/-- What is read is printed again, in lower case. -/
theorem fmt02x_unhex : ∀ cs : List Char, cs.length % 2 = 0 → (∀ c ∈ cs, Lib.IsHex c) →
    (Lib.unhex cs).flatMap fmt02x = cs.map Char.toLower
  | [], _, _ => rfl
  | [_], h, _ => absurd h (by simp)
  | a :: b :: cs, hlen, hhex => by
    have ha := hhex a List.mem_cons_self
    have hb := hhex b (List.mem_cons_of_mem _ List.mem_cons_self)
    have hrest := fmt02x_unhex cs (by simp at hlen; omega)
      fun c hc => hhex c (List.mem_cons_of_mem _ (List.mem_cons_of_mem _ hc))
    have hahi := Lib.hexCode_lt ha
    have hblo := Lib.hexCode_lt hb
    unfold Lib.unhex at hrest ⊢
    rw [List.map_cons, List.map_cons, Lib.unhexCodes, List.flatMap_cons, hrest,
      fmt02x_digits _ (by omega), show (16 * Lib.hexCode a.toNat + Lib.hexCode b.toNat) / 16 =
      Lib.hexCode a.toNat by omega, show (16 * Lib.hexCode a.toNat + Lib.hexCode b.toNat) % 16 =
      Lib.hexCode b.toNat by omega, digitChar_toLower ha, digitChar_toLower hb]
    rfl

/-- **Printing and parsing of hashes are inverse to each other**, up to the case of the letters. -/
theorem lowerHex_inverse :
    (∀ (x : Uint256) (out : Vector UInt8 32), ∃ b : Vector UInt8 32,
      Pow.decodeToSlice (asRef x.lowerHex) out.toList = (.ok (), b.toList) ∧ fromLeBytes b = x) ∧
    (∀ (s : String) (out b : Vector UInt8 32),
      Pow.decodeToSlice (asRef s) out.toList = (.ok (), b.toList) →
      (fromLeBytes b).lowerHex = s.map Char.toLower) := by
  constructor
  · intro x out
    refine ⟨x.toLeBytes, ?_, fromLeBytes_toLeBytes x⟩
    rw [Pow.decodeToSlice_of_isHexText (by simpa using lowerHex_isHexText x), lowerHex,
      String.toList_ofList, unhex_fmt02x]
  · intro s out b h
    have hok := congrArg Prod.fst h
    have htext := Pow.decodeToSlice_ok_iff.mp hok
    rw [Pow.decodeToSlice_of_isHexText htext, Prod.mk.injEq] at h
    rw [lowerHex, toLeBytes_fromLeBytes, ← h.2, fmt02x_unhex _ (by rw [htext.1]; omega) htext.2,
      ← String.toList_map, String.ofList_toList]

/-- **A `Uint256` is a 256-bit integer**: its bytes are its digits in base 256, and it is ordered
by its value. -/
theorem faithful :
    (∀ x, fromLeBytes (toLeBytes x) = x) ∧
    (∀ b, toLeBytes (fromLeBytes b) = b) ∧
    (∀ b, (fromLeBytes b).toNat = ∑ i : Fin 32, (b.get i).toNat * 256 ^ i.val) ∧
    (∀ x y, cmp x y = compare x.toNat y.toNat) ∧
    (∀ x y, cmp x y = .eq ↔ (x == y) = true) ∧
    (∀ x y, ble x y = true ↔ x.toNat ≤ y.toNat) ∧
    (∀ x y, ble x y = true ∨ ble y x = true) ∧
    (∀ x y, ble x y = true → ble y x = true → (x == y) = true) ∧
    (∀ x y z, ble x y = true → ble y z = true → ble x z = true) := by
  have heq : ∀ x y : Uint256, (x == y) = true ↔ x.toNat = y.toNat := by
    intro x y
    rw [beq_iff_eq, toNat_injective.eq_iff]
  refine ⟨fromLeBytes_toLeBytes, toLeBytes_fromLeBytes, ?_, cmp_eq_compare, ?_, ble_iff, ?_, ?_, ?_⟩
  · intro b
    rw [fromLeBytes_toNat, leValue_toList]
  · intro x y
    rw [cmp_eq_compare, Nat.compare_eq_eq, heq]
  · intro x y
    rw [ble_iff, ble_iff]
    exact Nat.le_total _ _
  · intro x y hxy hyx
    rw [ble_iff] at hxy hyx
    exact (heq x y).mpr (Nat.le_antisymm hxy hyx)
  · intro x y z hxy hyz
    rw [ble_iff] at hxy hyz ⊢
    exact Nat.le_trans hxy hyz

end Uint256
end KaspaMiner
