import Mathlib.Data.List.Basic

/-!
# A channel of templates

What a `WatchSwap` is for, with the threads, the addresses and the mutex left out: a sequence of
contents that only grows at the end, and for each handle the position up to which it has seen
them. A handle is told of a change when it is behind — unless what it has seen and what is there
now are both nothing, which are not told apart.

`get_changed` and `wait_for_change` are one step here, at the moment they load the cell.
-/

namespace KaspaMiner

structure Channel (T : Type) where
  older : List (Option T)
  current : Option T

namespace Channel
variable {T : Type}

def empty : Channel T := { older := [], current := none }

def swap (ch : Channel T) (val : Option T) : Channel T :=
  { older := ch.older ++ [ch.current], current := val }

/-- The position of the current content. -/
def pos (ch : Channel T) : ℕ := ch.older.length

def contents (ch : Channel T) : List (Option T) := ch.older ++ [ch.current]

/-- What was installed at position `k`. -/
def content (ch : Channel T) (k : ℕ) : Option T := ch.contents[k]?.join

/-- Whether a handle that has seen the contents up to `seen` is told of a change. -/
def changed (ch : Channel T) (seen : ℕ) : Bool :=
  decide (seen ≠ ch.pos) && ((ch.content seen).isSome || ch.current.isSome)

/-- `get_changed`. -/
def getChanged (ch : Channel T) (seen : ℕ) : Option (Option T) :=
  if ch.changed seen then some ch.current else none

@[simp] theorem swap_contents (ch : Channel T) (val : Option T) :
    (ch.swap val).contents = ch.contents ++ [val] := rfl

theorem contents_length (ch : Channel T) : ch.contents.length = ch.pos + 1 := by
  simp [contents, pos]

@[simp] theorem content_pos (ch : Channel T) : ch.content ch.pos = ch.current := by
  simp [content, contents, pos]

theorem current_mem (ch : Channel T) : ch.current ∈ ch.contents :=
  List.mem_append_right _ (List.mem_singleton.mpr rfl)

theorem content_mem {ch : Channel T} {k : ℕ} {val : T} (h : ch.content k = some val) :
    some val ∈ ch.contents :=
  List.mem_of_getElem? (Option.join_eq_some_iff.mp h)

theorem swap_extends (ch : Channel T) (val : Option T) : ch.contents <+: (ch.swap val).contents :=
  List.prefix_append ..

theorem pos_le {ch ch' : Channel T} (h : ch.contents <+: ch'.contents) : ch.pos ≤ ch'.pos := by
  have hle := h.length_le
  rw [contents_length, contents_length] at hle
  omega

/-- The contents of the past stay what they were. -/
theorem content_eq {ch ch' : Channel T} (h : ch.contents <+: ch'.contents) {k : ℕ}
    (hk : k ≤ ch.pos) : ch'.content k = ch.content k := by
  obtain ⟨later, hlater⟩ := h
  have hlt : k < ch.contents.length := by
    rw [contents_length]
    exact Nat.lt_succ_of_le hk
  rw [content, content, ← hlater, List.getElem?_append_left hlt]

/-- Nothing after nothing is no change. -/
theorem changed_of_none {ch : Channel T} {seen : ℕ} (h : ch.content seen = none)
    (hc : ch.current = none) : ch.changed seen = false := by
  simp [changed, h, hc]

theorem getChanged_eq_some {ch : Channel T} {seen : ℕ} {content : Option T}
    (h : ch.getChanged seen = some content) : ch.changed seen = true ∧ content = ch.current := by
  unfold getChanged at h
  by_cases hc : ch.changed seen = true
  · rw [if_pos hc] at h
    exact ⟨hc, (Option.some.inj h).symm⟩
  · rw [if_neg hc] at h
    exact absurd h (by simp)

/-- Whoever is told of no change has what is there. -/
theorem content_eq_current {ch : Channel T} {seen : ℕ} (h : ch.getChanged seen = none) :
    ch.content seen = ch.current := by
  unfold getChanged at h
  by_cases hc : ch.changed seen = true
  · rw [if_pos hc] at h
    exact absurd h (by simp)
  · by_cases hseen : seen = ch.pos
    · rw [hseen, content_pos]
    · have hnone : ch.content seen = none ∧ ch.current = none := by
        simpa [changed, hseen] using hc
      rw [hnone.1, hnone.2]

/-- Nothing comes after nothing. -/
theorem getChanged_of_none {ch : Channel T} {seen : ℕ} (h : ch.content seen = none)
    (hc : ch.current = none) : ch.getChanged seen = none := by
  unfold getChanged
  rw [changed_of_none h hc]
  rfl

/-- Anything comes after nothing. -/
theorem getChanged_of_isSome {ch : Channel T} {seen : ℕ} {val : T} (h : ch.content seen = none)
    (hc : ch.current = some val) : ch.getChanged seen = some (some val) := by
  have hseen : seen ≠ ch.pos := by
    intro heq
    subst heq
    rw [content_pos, hc] at h
    exact absurd h (by simp)
  have hchanged : ch.changed seen = true := by simp [changed, hseen, hc]
  unfold getChanged
  rw [if_pos hchanged, hc]

end Channel

end KaspaMiner
