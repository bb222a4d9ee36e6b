import Mathlib.Data.List.FinRange

/-!
# Counted loops

A `for` loop over `0..n` that updates a state is a fold over `List.finRange n`. What is proved of
one is nearly always an invariant that mentions how far the loop has come, so that is the rule
here: `I k s` holds after `k` iterations, and an iteration takes `I k` to `I (k + 1)`. A loop whose
body checks something first is a fold in `Option`; if the invariant implies the checks, it is the
loop without them (`foldlM_finRange`).
-/

namespace KaspaMiner
namespace Lib

/-- **The loop rule.** -/
theorem foldl_finRange {σ : Type*} {n : ℕ} {f : σ → Fin n → σ} (I : ℕ → σ → Prop)
    (hstep : ∀ (k : Fin n) s, I k s → I (k + 1) (f s k)) {s : σ} (h : I 0 s) :
    I n ((List.finRange n).foldl f s) := by
  induction n with
  | zero => exact h
  | succ n ih =>
    rw [List.finRange_succ_last, List.foldl_append, List.foldl_map]
    exact hstep (Fin.last n) _ (ih fun k => hstep k.castSucc)

/-- **The rule of the checks.** `f` is the body with its checks and `g` the body without. -/
theorem foldlM_finRange {σ : Type*} {n : ℕ} {f : σ → Fin n → Option σ} {g : σ → Fin n → σ}
    (I : ℕ → σ → Prop) (hcheck : ∀ (k : Fin n) s, I k s → f s k = some (g s k))
    (hstep : ∀ (k : Fin n) s, I k s → I (k + 1) (g s k)) {s : σ} (h : I 0 s) :
    (List.finRange n).foldlM f s = some ((List.finRange n).foldl g s) := by
  induction n with
  | zero => rfl
  | succ n ih =>
    have hinit := ih (f := fun s k => f s k.castSucc) (fun k => hcheck k.castSucc)
      (fun k => hstep k.castSucc)
    have hbefore := foldl_finRange I (f := fun s (k : Fin n) => g s k.castSucc)
      (fun k => hstep k.castSucc) h
    rw [List.finRange_succ_last, List.foldlM_append, List.foldlM_map, hinit, List.foldl_append,
      List.foldl_map]
    simpa using hcheck (Fin.last n) _ hbefore

theorem take_finRange_succ {n : ℕ} (i : Fin n) :
    (List.finRange n).take (i + 1) = (List.finRange n).take i ++ [i] := by
  rw [List.take_succ_eq_append_getElem (by simp), List.getElem_finRange]
  rfl

/-- A loop that stops at the first hit. -/
theorem find?_finRange {n : ℕ} {p : Fin n → Bool} {j : Fin n} :
    (List.finRange n).find? p = some j ↔ p j = true ∧ ∀ k < j, p k = false := by
  rw [List.find?_eq_some_iff_getElem]
  refine and_congr_right fun _ => ⟨?_, ?_⟩
  · rintro ⟨i, hi, rfl, hbefore⟩ k hk
    simp only [List.getElem_finRange, Fin.lt_def, Fin.val_cast] at hk
    simpa using hbefore k hk
  · intro hbefore
    refine ⟨j, by simp, by simp, ?_⟩
    intro k hk
    simpa using hbefore ⟨k, by omega⟩ hk

end Lib
end KaspaMiner
