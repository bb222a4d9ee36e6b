import KaspaMiner.Pow.Hex

/-!
# Every outcome of `decode_to_slice`

The decoder goes through its text two characters at a time and writes as it goes. So the one thing
to know about a text of the right length is where its first character that is no digit stands: the
loop stops there, and what it has written are the bytes before (`decodeLoop_of_firstBad`). Without
such a character it comes to the end.
-/

namespace KaspaMiner
namespace Pow

/-- The character `c` at `index` is the first that is no hexadecimal digit. -/
structure FirstBad (data : List UInt8) (index : ℕ) (c : UInt8) : Prop where
  at_index : data[index]? = some c
  bad : ¬ Lib.IsHexCode c.toNat
  before : ∀ j < index, ∀ b, data[j]? = some b → Lib.IsHexCode b.toNat

/-- What characters `2 * i` and `2 * i + 1` stand for. -/
def decodedByte (data : List UInt8) (i : ℕ) : UInt8 :=
  UInt8.ofNat (16 * Lib.hexCode data[2 * i]!.toNat + Lib.hexCode data[2 * i + 1]!.toNat)

theorem FirstBad.lt {data : List UInt8} {index : ℕ} {c : UInt8} (h : FirstBad data index c) :
    index < data.length := (List.getElem?_eq_some_iff.mp h.at_index).1

theorem FirstBad.get {data : List UInt8} {index : ℕ} {c : UInt8} (h : FirstBad data index c) :
    data[index]! = c := by
  rw [getElem!_def, h.at_index]

theorem FirstBad.isHex {data : List UInt8} {index j : ℕ} {c : UInt8} (h : FirstBad data index c)
    (hj : j < index) : Lib.IsHexCode data[j]!.toNat := by
  have hlt : j < data.length := Nat.lt_trans hj h.lt
  refine h.before j hj _ ?_
  rw [getElem!_pos data j hlt, List.getElem?_eq_getElem hlt]

theorem FirstBad.unique {data : List UInt8} {index index' : ℕ} {c c' : UInt8}
    (h : FirstBad data index c) (h' : FirstBad data index' c') : index = index' ∧ c = c' := by
  have hindex : index = index' := by
    rcases Nat.lt_trichotomy index index' with hlt | heq | hgt
    · exact absurd (h'.before index hlt c h.at_index) h.bad
    · exact heq
    · exact absurd (h.before index' hgt c' h'.at_index) h'.bad
  subst hindex
  exact ⟨rfl, Option.some.inj (h.at_index.symm.trans h'.at_index)⟩

/-- A text is all digits or has a first character that is none. -/
theorem isHex_or_firstBad (data : List UInt8) :
    (∀ b ∈ data, Lib.IsHexCode b.toNat) ∨ ∃ index c, FirstBad data index c := by
  induction data with
  | nil => exact .inl (by simp)
  | cons a data ih =>
    by_cases ha : Lib.IsHexCode a.toNat
    · rcases ih with hall | ⟨index, c, h⟩
      · left
        intro b hb
        rcases List.mem_cons.mp hb with rfl | hb
        · exact ha
        · exact hall b hb
      · right
        refine ⟨index + 1, c, h.at_index, h.bad, ?_⟩
        intro j hj b hb
        cases j with
        | zero => rwa [← Option.some.inj hb]
        | succ j => exact h.before j (Nat.lt_of_succ_lt_succ hj) b hb
    · exact .inr ⟨0, a, rfl, ha, fun j hj => absurd hj (Nat.not_lt_zero j)⟩

theorem FirstBad.not_isHex {data : List UInt8} {index : ℕ} {c : UInt8} (h : FirstBad data index c) :
    ¬ ∀ b ∈ data, Lib.IsHexCode b.toNat :=
  fun hall => h.bad (hall c (List.mem_of_getElem? h.at_index))

/-! ## The loop -/

theorem decodeByte_high {data : List UInt8} {i : ℕ} (h : ¬ Lib.IsHexCode data[2 * i]!.toNat) :
    decodeByte data i =
      .error (.invalidHexCharacter (Char.ofNat data[2 * i]!.toNat) (2 * i)) := by
  unfold decodeByte
  rw [val_error h]
  rfl

theorem decodeByte_low {data : List UInt8} {i : ℕ} (hhi : Lib.IsHexCode data[2 * i]!.toNat)
    (hlo : ¬ Lib.IsHexCode data[2 * i + 1]!.toNat) : decodeByte data i =
      .error (.invalidHexCharacter (Char.ofNat data[2 * i + 1]!.toNat) (2 * i + 1)) := by
  unfold decodeByte
  rw [val_ok hhi, val_error hlo]
  rfl

/-- The loop writes a byte for every two digits. -/
theorem decodeLoop_good {data : List UInt8} : ∀ {k : ℕ} {out : List UInt8} {i : ℕ},
    k ≤ out.length → (∀ j < 2 * (i + k), Lib.IsHexCode data[j]!.toNat) →
    decodeLoop data i out = ((decodeLoop data (i + k) (out.drop k)).1,
      (List.range' i k).map (decodedByte data) ++ (decodeLoop data (i + k) (out.drop k)).2)
  | 0, _, _, _, _ => rfl
  | k + 1, byte :: out, i, hk, hhex => by
    have hrest := @decodeLoop_good data k out (i + 1) (Nat.le_of_succ_le_succ hk)
      fun j hj => hhex j (by omega)
    rw [Nat.add_right_comm i 1 k] at hrest
    rw [decodeLoop, decodeByte_ok (hhex _ (by omega)) (hhex _ (by omega)), List.range'_succ]
    simp only [hrest]
    rfl

/-- What a text without bad characters leaves in the buffer. -/
theorem decodeLoop_of_digits {data out : List UInt8}
    (h : ∀ j < 2 * out.length, Lib.IsHexCode data[j]!.toNat) :
    decodeLoop data 0 out = (.ok (), (List.range out.length).map (decodedByte data)) := by
  rw [decodeLoop_good le_rfl (by rwa [Nat.zero_add]), List.drop_length, List.range_eq_range']
  simp only [decodeLoop, List.append_nil]

/-- The loop stops at the first bad character. -/
theorem decodeLoop_of_firstBad {data out : List UInt8} {index : ℕ} {c : UInt8}
    (h : FirstBad data index c) (hlen : data.length = 2 * out.length) :
    decodeLoop data 0 out = (.error (.invalidHexCharacter (Char.ofNat c.toNat) index),
      (List.range (index / 2)).map (decodedByte data) ++ out.drop (index / 2)) := by
  have hlt : index / 2 < out.length := by
    have := h.lt
    omega
  have hbyte : decodeByte data (index / 2) =
      .error (.invalidHexCharacter (Char.ofNat c.toNat) index) := by
    have hbad : ¬ Lib.IsHexCode data[index]!.toNat := by
      rw [h.get]
      exact h.bad
    rw [← h.get]
    -- The bad character is the first of its two, or the second, with a good one in front of it.
    rcases Nat.mod_two_eq_zero_or_one index with heven | hodd
    · obtain ⟨k, rfl⟩ : ∃ k, index = 2 * k := ⟨index / 2, by omega⟩
      rw [Nat.mul_div_cancel_left k Nat.two_pos]
      exact decodeByte_high hbad
    · obtain ⟨k, rfl⟩ : ∃ k, index = 2 * k + 1 := ⟨index / 2, by omega⟩
      have hhalf : (2 * k + 1) / 2 = k := by omega
      rw [hhalf]
      exact decodeByte_low (h.isHex (Nat.lt_succ_self _)) hbad
  have hstop : decodeLoop data (index / 2) (out.drop (index / 2)) =
      (.error (.invalidHexCharacter (Char.ofNat c.toNat) index), out.drop (index / 2)) := by
    rw [List.drop_eq_getElem_cons hlt, decodeLoop, hbyte]
  rw [decodeLoop_good hlt.le fun j hj => h.isHex (by omega), Nat.zero_add, hstop,
    List.range_eq_range']

/-! ## The decoder -/

theorem decodeToSlice_of_length {data out : List UInt8} (h : data.length = 2 * out.length) :
    decodeToSlice data out = decodeLoop data 0 out := by
  unfold decodeToSlice
  rw [if_neg (by omega), if_neg (by omega)]

theorem decodeToSlice_oddLength {data : List UInt8} (h : data.length % 2 = 1) (out : List UInt8) :
    decodeToSlice data out = (.error .oddLength, out) := by
  unfold decodeToSlice
  rw [if_pos (by omega)]

theorem decodeToSlice_invalidStringLength {data out : List UInt8} (heven : data.length % 2 = 0)
    (h : data.length ≠ 2 * out.length) :
    decodeToSlice data out = (.error .invalidStringLength, out) := by
  unfold decodeToSlice
  rw [if_neg (by omega), if_pos (by omega)]

/-- The four outcomes, which exclude each other. -/
inductive Outcome (data out : List UInt8) : Except FromHexError Unit × List UInt8 → Prop
  | oddLength (h : data.length % 2 = 1) : Outcome data out (.error .oddLength, out)
  | invalidStringLength (heven : data.length % 2 = 0) (h : data.length ≠ 2 * out.length) :
      Outcome data out (.error .invalidStringLength, out)
  | invalidHexCharacter {index : ℕ} {c : UInt8} (hlen : data.length = 2 * out.length)
      (h : FirstBad data index c) :
      Outcome data out (.error (.invalidHexCharacter (Char.ofNat c.toNat) index),
        (List.range (index / 2)).map (decodedByte data) ++ out.drop (index / 2))
  | ok (hlen : data.length = 2 * out.length) (h : ∀ b ∈ data, Lib.IsHexCode b.toNat) :
      Outcome data out (.ok (), (List.range out.length).map (decodedByte data))

theorem decodeToSlice_outcome (data out : List UInt8) :
    Outcome data out (decodeToSlice data out) := by
  rcases Nat.mod_two_eq_zero_or_one data.length with heven | hodd
  · by_cases hlen : data.length = 2 * out.length
    · rw [decodeToSlice_of_length hlen]
      rcases isHex_or_firstBad data with hall | ⟨index, c, h⟩
      · rw [decodeLoop_of_digits]
        · exact .ok hlen hall
        · intro j hj
          rw [getElem!_pos data j (by omega)]
          exact hall _ (List.getElem_mem _)
      · rw [decodeLoop_of_firstBad h hlen]
        exact .invalidHexCharacter hlen h
    · rw [decodeToSlice_invalidStringLength heven hlen]
      exact .invalidStringLength heven hlen
  · rw [decodeToSlice_oddLength hodd]
    exact .oddLength hodd

theorem getElem?_map_range {n i : ℕ} (h : i < n) (data rest : List UInt8) :
    ((List.range n).map (decodedByte data) ++ rest)[i]? = some (decodedByte data i) := by
  rw [List.getElem?_append_left (by simpa using h), List.getElem?_map, List.getElem?_range h]
  rfl

/-- **Every outcome of the decoder**, for any text and any buffer. -/
theorem decodeToSlice_spec (data out : List UInt8) :
    ((decodeToSlice data out).1 = .error .oddLength ↔ data.length % 2 = 1) ∧
    ((decodeToSlice data out).1 = .error .invalidStringLength ↔
      data.length % 2 = 0 ∧ data.length ≠ 2 * out.length) ∧
    (∀ c index, (decodeToSlice data out).1 = .error (.invalidHexCharacter c index) ↔
      data.length = 2 * out.length ∧ ∃ b, FirstBad data index b ∧ c = Char.ofNat b.toNat) ∧
    (∀ c index, (decodeToSlice data out).1 = .error (.invalidHexCharacter c index) →
      (decodeToSlice data out).2.length = out.length ∧
      (decodeToSlice data out).2.drop (index / 2) = out.drop (index / 2) ∧
      ∀ i < index / 2, (decodeToSlice data out).2[i]? = some (decodedByte data i)) ∧
    ((decodeToSlice data out).1 = .ok () ↔
      data.length = 2 * out.length ∧ ∀ b ∈ data, Lib.IsHexCode b.toNat) ∧
    ((decodeToSlice data out).1 = .ok () → (decodeToSlice data out).2.length = out.length ∧
      ∀ i < out.length, (decodeToSlice data out).2[i]? = some (decodedByte data i)) := by
  have houtcome := decodeToSlice_outcome data out
  generalize decodeToSlice data out = r at houtcome
  -- Each outcome is one of the errors or none, so five of the six parts are about another one.
  cases houtcome with
  | oddLength hodd =>
    have hlen : data.length ≠ 2 * out.length := by omega
    simp [hodd, hlen]
  | invalidStringLength heven hlen => simp [heven, hlen]
  | @invalidHexCharacter index c hlen h =>
    have hlt := h.lt
    have heven : data.length % 2 ≠ 1 := by omega
    refine ⟨by simp [heven], by simp [hlen], ?_, ?_, ?_, by simp⟩
    · intro c' index'
      constructor
      · rintro ⟨⟩
        exact ⟨hlen, c, h, rfl⟩
      · rintro ⟨-, b, hb, rfl⟩
        obtain ⟨rfl, rfl⟩ := h.unique hb
        rfl
    · rintro c' index' ⟨⟩
      refine ⟨?_, ?_, fun i hi => getElem?_map_range hi data _⟩
      · simp only [List.length_append, List.length_map, List.length_range, List.length_drop]
        omega
      · rw [List.drop_left' (by simp)]
    · exact ⟨by simp, fun hall => absurd hall.2 h.not_isHex⟩
  | ok hlen hall =>
    have heven : data.length % 2 ≠ 1 := by omega
    refine ⟨by simp [heven], by simp [hlen], ?_, by simp,
      ⟨fun _ => ⟨hlen, hall⟩, fun _ => rfl⟩, ?_⟩
    · intro c index
      exact ⟨by simp, fun ⟨_, b, hb, _⟩ => absurd hall hb.not_isHex⟩
    · intro _
      refine ⟨by simp, fun i hi => ?_⟩
      have hget := getElem?_map_range hi data []
      rwa [List.append_nil] at hget

end Pow
end KaspaMiner
