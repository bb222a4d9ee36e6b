import Mathlib.Data.Nat.Count

/-!
# A counter modulo `m`, seen through a window

How many of `m` consecutive values of a counter are at most `p` modulo `m`. As long as the counter
just counts, `p + 1` of them are, wherever the window is (`count_window`). A counter that wraps
around at some `M` starts over with its residues, so a window over the wrap can have more; it
never has fewer (`le_count_window`), because after the wrap the small residues come first.
-/

namespace KaspaMiner
namespace Lib

variable {m p c : ℕ}

/-- From zero on, the small residues come first. -/
theorem count_mod_le (l : ℕ) (hl : l ≤ m) : Nat.count (fun k => k % m ≤ p) l = min l (p + 1) := by
  induction l with
  | zero => simp
  | succ l ih =>
    rw [Nat.count_succ, ih (by omega), Nat.mod_eq_of_lt (by omega)]
    split <;> omega

/-- A window of `m` values has the same count wherever it is. -/
theorem count_window (hp : p < m) (c : ℕ) : Nat.count (fun k => (c + k) % m ≤ p) m = p + 1 := by
  induction c with
  | zero =>
    simp only [Nat.zero_add]
    rw [count_mod_le m le_rfl]
    omega
  | succ c ih =>
    -- the window one further on loses its first value and gains one with the same residue
    have hlong : Nat.count (fun k => (c + k) % m ≤ p) (m + 1) =
        Nat.count (fun k => (c + 1 + k) % m ≤ p) m + if c % m ≤ p then 1 else 0 := by
      rw [Nat.count_succ']
      simp only [Nat.add_zero, Nat.add_assoc, Nat.add_comm 1]
    have hlong' : Nat.count (fun k => (c + k) % m ≤ p) (m + 1) =
        p + 1 + if c % m ≤ p then 1 else 0 := by
      rw [Nat.count_succ, ih, Nat.add_mod_right]
    omega

/-- So many of the first `n`: `p + 1` of every `m`, and those of the rest that come first. -/
theorem count_mod_eq (hp : p < m) (n : ℕ) :
    Nat.count (fun k => k % m ≤ p) n = n / m * (p + 1) + min (n % m) (p + 1) := by
  have hblocks (q l : ℕ) (hl : l ≤ m) :
      Nat.count (fun k => k % m ≤ p) (m * q + l) = q * (p + 1) + min l (p + 1) := by
    induction q with
    | zero =>
      rw [Nat.mul_zero, Nat.zero_add, count_mod_le l hl]
      omega
    | succ q ih =>
      have hsplit : m * (q + 1) + l = m + (m * q + l) := by
        rw [Nat.mul_succ]
        omega
      rw [hsplit, Nat.count_add, count_mod_le m le_rfl]
      simp only [Nat.add_mod_left]
      rw [ih, Nat.min_eq_right (Nat.succ_le_of_lt hp), Nat.succ_mul]
      omega
  have hn := hblocks (n / m) (n % m) (Nat.mod_lt _ (Nat.zero_lt_of_lt hp)).le
  rwa [Nat.div_add_mod] at hn

theorem count_window_le (hp : p < m) {l : ℕ} (hl : l ≤ m) (c : ℕ) :
    Nat.count (fun k => (c + k) % m ≤ p) l ≤ min l (p + 1) := by
  apply le_min (Nat.count_le ..)
  calc Nat.count (fun k => (c + k) % m ≤ p) l
      ≤ Nat.count (fun k => (c + k) % m ≤ p) m := Nat.count_monotone _ hl
    _ = p + 1 := count_window hp c

/-- **A counter that wraps around has at least as many.** -/
theorem le_count_window {M : ℕ} (hp : p < m) (hM : m ≤ M) (hc : c < M) :
    p + 1 ≤ Nat.count (fun k => (c + k) % M % m ≤ p) m := by
  by_cases hwrap : c + m ≤ M
  · rw [← count_window hp c]
    apply Nat.count_mono_left
    intro k hk h
    rwa [Nat.mod_eq_of_lt (by omega : c + k < M)]
  · -- `k` values before the wrap, `l` after it
    obtain ⟨k, hk⟩ : ∃ k, M = c + k := ⟨M - c, by omega⟩
    obtain ⟨l, hl⟩ : ∃ l, m = k + l := ⟨m - k, by omega⟩
    have hbefore : Nat.count (fun i => (c + i) % m ≤ p) k ≤
        Nat.count (fun i => (c + i) % M % m ≤ p) k := by
      apply Nat.count_mono_left
      intro i hi h
      rwa [Nat.mod_eq_of_lt (by omega : c + i < M)]
    have hafter : Nat.count (fun i => i % m ≤ p) l ≤
        Nat.count (fun i => (c + (k + i)) % M % m ≤ p) l := by
      apply Nat.count_mono_left
      intro i hi h
      have hi' : (c + (k + i)) % M = i := by
        rw [← Nat.add_assoc, ← hk, Nat.add_mod_left, Nat.mod_eq_of_lt (by omega)]
      rwa [hi']
    have hwindow := count_window hp c
    have hrest := count_window_le hp (l := l) (by omega) (c + k)
    have hfirst := count_mod_le (m := m) (p := p) l (by omega)
    have hsplit := Nat.count_add (p := fun i => (c + i) % m ≤ p) k l
    have hsplit' := Nat.count_add (p := fun i => (c + i) % M % m ≤ p) k l
    rw [← hl] at hsplit hsplit'
    simp only [← Nat.add_assoc] at hsplit hafter hsplit'
    omega

end Lib
end KaspaMiner
