import Mathlib.Data.List.Basic
import Mathlib.Data.List.Perm.Basic

/-!
# Entries of a list

Several parts that take their steps one at a time are a list here, and a part is its position in
it. A step replaces one entry or puts a new one at the end; so what is asked again and again is
which entry an entry of the new list was, and what the change is to everything the entries hold
together.
-/

namespace KaspaMiner
namespace Lib

/-- An entry of a list in which one entry was replaced. -/
theorem getElem?_set_cases {α : Type*} {as : List α} {m k : ℕ} {a b : α}
    (h : (as.set m a)[k]? = some b) : k = m ∧ b = a ∨ k ≠ m ∧ as[k]? = some b := by
  by_cases hk : k = m
  · subst hk
    have hlt : k < as.length := by simpa using (List.getElem?_eq_some_iff.mp h).1
    rw [List.getElem?_set_self hlt] at h
    exact .inl ⟨rfl, (Option.some.inj h).symm⟩
  · rw [List.getElem?_set_ne (Ne.symm hk)] at h
    exact .inr ⟨hk, h⟩

/-- An entry of a list that got a new one. -/
theorem getElem?_concat_cases {α : Type*} {as : List α} {k : ℕ} {a b : α}
    (h : (as ++ [a])[k]? = some b) : k = as.length ∧ b = a ∨ k < as.length ∧ as[k]? = some b := by
  rw [List.getElem?_append] at h
  split at h
  next hlt => exact .inr ⟨hlt, h⟩
  next hge =>
    have hk : k - as.length = 0 := by
      have hlt := (List.getElem?_eq_some_iff.mp h).1
      rw [List.length_singleton] at hlt
      omega
    rw [hk] at h
    exact .inl ⟨by omega, (Option.some.inj h).symm⟩

/-- Nothing replaced. -/
theorem set_entry {α : Type*} {as : List α} {m : ℕ} {a : α} (h : as[m]? = some a) :
    as.set m a = as := by
  obtain ⟨hlt, rfl⟩ := List.getElem?_eq_some_iff.mp h
  exact List.set_getElem_self hlt

theorem filterMap_singleton {α β : Type*} (f : α → Option β) (a : α) :
    [a].filterMap f = (f a).toList := by
  cases h : f a <;> simp [h]

/-- One entry replaced. -/
theorem perm_flatMap_set {α β : Type*} (f : α → List β) {a b : α} : ∀ {as : List α} {i : ℕ},
    as[i]? = some a → ((as.set i b).flatMap f ++ f a).Perm (as.flatMap f ++ f b)
  | [], _, h => absurd h (by simp)
  | x :: as, 0, h => by
    obtain rfl : x = a := Option.some.inj h
    rw [List.set_cons_zero, List.flatMap_cons, List.flatMap_cons]
    calc (f b ++ as.flatMap f ++ f x).Perm (f x ++ (f b ++ as.flatMap f)) := List.perm_append_comm
      List.Perm _ (f x ++ (as.flatMap f ++ f b)) := List.perm_append_comm.append_left _
      _ = f x ++ as.flatMap f ++ f b := (List.append_assoc ..).symm
  | x :: as, i + 1, h => by
    rw [List.set_cons_succ, List.flatMap_cons, List.flatMap_cons, List.append_assoc,
      List.append_assoc]
    have htail : as[i]? = some a := h
    exact (perm_flatMap_set f htail).append_left _

/-- A `Some` that is in a list once is at one position. -/
theorem eq_of_getElem?_some {α : Type*} {x : α} : ∀ {l : List (Option α)} {i j : ℕ},
    (l.filterMap id).Nodup → l[i]? = some (some x) → l[j]? = some (some x) → i = j
  | [], _, _, _, hi, _ => absurd hi (by simp)
  | _ :: _, 0, 0, _, _, _ => rfl
  | o :: l, 0, j + 1, hnodup, hi, hj => by
    have ho : o = some x := by simpa using hi
    have hx : x ∈ l.filterMap id := List.mem_filterMap.mpr ⟨_, List.mem_of_getElem? hj, rfl⟩
    rw [ho] at hnodup
    exact absurd hx (List.nodup_cons.mp (by simpa using hnodup)).1
  | o :: l, i + 1, 0, hnodup, hi, hj => by
    have ho : o = some x := by simpa using hj
    have hx : x ∈ l.filterMap id := List.mem_filterMap.mpr ⟨_, List.mem_of_getElem? hi, rfl⟩
    rw [ho] at hnodup
    exact absurd hx (List.nodup_cons.mp (by simpa using hnodup)).1
  | o :: l, i + 1, j + 1, hnodup, hi, hj => by
    have htail : (l.filterMap id).Nodup := by
      cases o with
      | none => simpa using hnodup
      | some y => exact (List.nodup_cons.mp (by simpa using hnodup)).2
    have hij : i = j := eq_of_getElem?_some htail (by simpa using hi) (by simpa using hj)
    rw [hij]

end Lib
end KaspaMiner
