import Mathlib.Data.Set.Function
import Mathlib.Data.List.Basic

/-!
# Encodings that say where they end

`Delimited S enc`: on the values in `S`, the encoding `enc` can be read off the front of a longer
string in one way only — the value is known and so is the rest. It is the property that makes a
concatenation of encodings decodable in lockstep: from `enc a ++ r = enc b ++ s` one gets `a = b`
*and* `r = s`, and goes on with the rest.

A fixed width gives it (`of_length`), a mark at the end does (`terminated`), and a count in front
of a list gives it to the list (`counted`). With nothing behind `enc b` it says that no encoding is
a proper prefix of another.
-/

namespace KaspaMiner
namespace Lib

/-- On `S`, what `enc` writes can be split off the front of a string in one way only. -/
def Delimited {α β : Type*} (S : Set α) (enc : α → List β) : Prop :=
  ∀ ⦃a b : α⦄, a ∈ S → b ∈ S → ∀ ⦃r s : List β⦄, enc a ++ r = enc b ++ s → a = b ∧ r = s

namespace Delimited
variable {α β : Type*} {S : Set α} {enc : α → List β}

/-- A fixed width delimits. -/
theorem of_length {n : ℕ} (hlen : ∀ a ∈ S, (enc a).length = n) (hinj : Set.InjOn enc S) :
    Delimited S enc := by
  intro a b ha hb r s he
  obtain ⟨h₁, h₂⟩ := List.append_inj he (by rw [hlen a ha, hlen b hb])
  exact ⟨hinj ha hb h₁, h₂⟩

/-- So does a mark at the end that does not occur before. -/
theorem terminated {mark : β} (hmark : ∀ a ∈ S, mark ∉ enc a) (hinj : Set.InjOn enc S) :
    Delimited S (fun a => enc a ++ [mark]) := by
  intro a b ha hb r s he
  simp only [List.append_assoc, List.singleton_append] at he
  rcases List.append_eq_append_iff.mp he with ⟨c, hc, he⟩ | ⟨c, hc, he⟩
  · cases c with
    | nil => exact ⟨hinj ha hb (by simpa using hc.symm), by simpa using he⟩
    | cons x c =>
      obtain ⟨rfl, -⟩ := List.cons_eq_cons.mp he
      exact absurd (hc ▸ by simp) (hmark b hb)
  · cases c with
    | nil => exact ⟨hinj ha hb (by simpa using hc), by simpa using he.symm⟩
    | cons x c =>
      obtain ⟨rfl, -⟩ := List.cons_eq_cons.mp he
      exact absurd (hc ▸ by simp) (hmark a ha)

/-- Two lists of the same length, element by element. -/
theorem flatMap (h : Delimited S enc) : ∀ {as bs : List α}, (∀ a ∈ as, a ∈ S) →
    (∀ b ∈ bs, b ∈ S) → as.length = bs.length → ∀ {r s : List β},
      as.flatMap enc ++ r = bs.flatMap enc ++ s → as = bs ∧ r = s
  | [], [], _, _, _, _, _, he => ⟨rfl, he⟩
  | a :: as, b :: bs, ha, hb, hlen, r, s, he => by
    rw [List.flatMap_cons, List.flatMap_cons, List.append_assoc, List.append_assoc] at he
    obtain ⟨rfl, htail⟩ := h (ha a List.mem_cons_self) (hb b List.mem_cons_self) he
    obtain ⟨rfl, hrest⟩ := flatMap h (fun x hx => ha x (List.mem_cons_of_mem _ hx))
      (fun x hx => hb x (List.mem_cons_of_mem _ hx)) (by simpa using hlen) htail
    exact ⟨rfl, hrest⟩
  | [], _ :: _, _, _, hlen, _, _, _ => absurd hlen (by simp)
  | _ :: _, [], _, _, hlen, _, _, _ => absurd hlen (by simp)

/-- **A count in front delimits a list** whose elements are delimited, as far as the count itself
is. -/
theorem counted {N : Set ℕ} {count : ℕ → List β} (hc : Delimited N count)
    (h : Delimited S enc) :
    Delimited {as : List α | as.length ∈ N ∧ ∀ a ∈ as, a ∈ S}
      (fun as => count as.length ++ as.flatMap enc) := by
  intro as bs has hbs r s he
  rw [List.append_assoc, List.append_assoc] at he
  obtain ⟨hlen, htail⟩ := hc has.1 hbs.1 he
  exact h.flatMap has.2 hbs.2 hlen htail

end Delimited

end Lib
end KaspaMiner
