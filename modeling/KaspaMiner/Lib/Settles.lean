import Mathlib.Logic.Basic

/-!
# Exact specifications of fallible code

`Settles x p Q`: the computation `x` succeeds **exactly** when `p` holds, and then with a value
that satisfies `Q`. A triple that only speaks of success says nothing about a computation that
always fails, and a triple for each direction proves every step twice; this is both at once, and
it composes along `>>=` (`Settles.bind`): the conditions are joined, the last value is described.
-/

namespace KaspaMiner
namespace Lib

/-- Success exactly when `p`, and then a value with `Q`. -/
def Settles {ε α : Type*} (x : Except ε α) (p : Prop) (Q : α → Prop) : Prop :=
  match x with
  | .ok a => p ∧ Q a
  | .error _ => ¬ p

namespace Settles
universe u
variable {ε α β : Type u} {x : Except ε α} {f : α → Except ε β} {p q : Prop} {Q : α → Prop}
  {R : β → Prop} {a : α}

theorem of_ok (h : Settles x p Q) (hx : x = .ok a) : p ∧ Q a := by
  rwa [hx] at h

theorem exists_ok (h : Settles x p Q) (hp : p) : ∃ a, x = .ok a ∧ Q a := by
  cases x with
  | ok a => exact ⟨a, rfl, h.2⟩
  | error e => exact absurd hp h

theorem ok_iff (h : Settles x p Q) : (∃ a, x = .ok a) ↔ p :=
  ⟨fun ⟨_, hx⟩ => (h.of_ok hx).1, fun hp => (h.exists_ok hp).imp fun _ ha => ha.1⟩

/-- The value, when `Q` leaves only one. -/
theorem eq_ok (h : Settles x p (· = a)) (hp : p) : x = .ok a := by
  obtain ⟨b, hx, rfl⟩ := h.exists_ok hp
  exact hx

theorem pure (h : Q a) : Settles (Pure.pure a : Except ε α) True Q := ⟨trivial, h⟩

theorem congr (h : Settles x p Q) (hpq : p ↔ q) : Settles x q Q := by
  rwa [propext hpq] at h

theorem imp {Q' : α → Prop} (h : Settles x p Q) (hQ : ∀ a, Q a → Q' a) : Settles x p Q' := by
  cases x with
  | ok a => exact ⟨h.1, hQ a h.2⟩
  | error e => exact h

/-- The condition is known of the value too. -/
theorem and_self (h : Settles x p Q) : Settles x p fun a => p ∧ Q a := by
  cases x with
  | ok a => exact ⟨h.1, h.1, h.2⟩
  | error e => exact h

/-- **Sequencing.** -/
theorem bind (hx : Settles x p Q) (hf : ∀ a, Q a → Settles (f a) q R) :
    Settles (x >>= f) (p ∧ q) R := by
  cases x with
  | error e => exact fun hpq => hx hpq.1
  | ok a =>
    have hfa := hf a hx.2
    show Settles (f a) _ _
    exact hfa.congr ⟨fun hq => ⟨hx.1, hq⟩, fun hpq => hpq.2⟩

end Settles

end Lib
end KaspaMiner
