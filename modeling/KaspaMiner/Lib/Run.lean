import Mathlib.Data.List.Basic
import Mathlib.Data.List.Infix

/-!
# Runs of a labelled transition system

Everything concurrent in this development is a relation `R : S → A → S → Prop`: a state, the
action somebody takes, the state after it. A *run* is a list of actions taken one after the
other. The rules here are the ones the proofs about the program are assembled from, and none of
them knows what the states or the actions are:

* `Run.append`, `Run.split`, `Run.snoc` — a run can be cut at any action and glued again;
* `Run.invariant` — what every step keeps, every run keeps;
* `Run.cost_le` — what every step pays for out of a budget, every run pays for out of the same
  budget. This is the rule behind every "at most so many" statement;
* `Run.balance` — the same with an equation: what every step takes in on one side and puts out on
  the other, a whole run does;
* `Run.simulate` — a run of one system is a run of another one that answers its steps;
* `Run.refine` — the same for a relation between the two, and for answers of any length.

`Reachable` is a run from an initial state with the list of actions forgotten.
-/

namespace KaspaMiner
namespace Lib

/-- `as` leads from one state to another, one action at a time. -/
inductive Run {S A : Type*} (R : S → A → S → Prop) : S → List A → S → Prop
  | nil (s : S) : Run R s [] s
  | cons {s t u : S} {a : A} {as : List A} (head : R s a t) (tail : Run R t as u) :
      Run R s (a :: as) u

/-- What a run from an initial state arrives at. -/
def Reachable {S A : Type*} (R : S → A → S → Prop) (init : S → Prop) (s : S) : Prop :=
  ∃ s₀ as, init s₀ ∧ Run R s₀ as s

section
variable {S A : Type*} {R : S → A → S → Prop}

theorem Run.single {s t : S} {a : A} (h : R s a t) : Run R s [a] t := .cons h (.nil t)

theorem Run.append {s t u : S} {as bs : List A} (h : Run R s as t) (h' : Run R t bs u) :
    Run R s (as ++ bs) u := by
  induction h with
  | nil => exact h'
  | cons head _ ih => exact .cons head (ih h')

/-- A run of two lists of actions passes through a state between them. -/
theorem Run.split {as : List A} : ∀ {s u : S} {bs : List A}, Run R s (as ++ bs) u →
    ∃ t, Run R s as t ∧ Run R t bs u := by
  induction as with
  | nil => exact fun h => ⟨_, .nil _, h⟩
  | cons a as ih =>
    intro s u bs h
    cases h with
    | cons head tail =>
      obtain ⟨t, h₁, h₂⟩ := ih tail
      exact ⟨t, .cons head h₁, h₂⟩

theorem Run.head {s u : S} {a : A} {as : List A} (h : Run R s (a :: as) u) :
    ∃ t, R s a t ∧ Run R t as u := by
  cases h with
  | cons head tail => exact ⟨_, head, tail⟩

theorem Run.snoc {s t u : S} {as : List A} {a : A} (h : Run R s as t) (ha : R t a u) :
    Run R s (as ++ [a]) u := h.append (.single ha)

theorem Run.snoc_inv {s u : S} {as : List A} {a : A} (h : Run R s (as ++ [a]) u) :
    ∃ t, Run R s as t ∧ R t a u := by
  obtain ⟨t, h₁, h₂⟩ := h.split
  obtain ⟨_, ha, hnil⟩ := h₂.head
  cases hnil
  exact ⟨t, h₁, ha⟩

theorem Run.eq_of_nil {s t : S} (h : Run R s [] t) : s = t := by
  cases h
  rfl

/-- A run with fewer actions allowed is a run. -/
theorem Run.mono {R' : S → A → S → Prop} (hle : ∀ s a t, R s a t → R' s a t) {s t : S} {as : List A}
    (h : Run R s as t) : Run R' s as t := by
  induction h with
  | nil => exact .nil _
  | cons head _ ih => exact .cons (hle _ _ _ head) ih

/-! ## What steps keep, runs keep -/

/-- **The invariant rule.** The action is known, so a property may be kept by some actions only:
`P` says which, and the run has to consist of those. -/
theorem Run.invariant_of {I : S → Prop} {P : A → Prop}
    (hstep : ∀ s a t, P a → I s → R s a t → I t) {s t : S} {as : List A} (h : Run R s as t)
    (hP : ∀ a ∈ as, P a) (hs : I s) : I t := by
  induction h with
  | nil => exact hs
  | cons head _ ih =>
    exact ih (fun a ha => hP a (List.mem_cons_of_mem _ ha))
      (hstep _ _ _ (hP _ List.mem_cons_self) hs head)

theorem Run.invariant {I : S → Prop} (hstep : ∀ s a t, I s → R s a t → I t) {s t : S}
    {as : List A} (h : Run R s as t) (hs : I s) : I t :=
  h.invariant_of (P := fun _ => True) (fun s a t _ => hstep s a t) (fun _ _ => trivial) hs

theorem Reachable.invariant {I : S → Prop} {init : S → Prop} (hinit : ∀ s, init s → I s)
    (hstep : ∀ s a t, I s → R s a t → I t) {s : S} (h : Reachable R init s) : I s := by
  obtain ⟨s₀, as, h₀, hrun⟩ := h
  exact hrun.invariant hstep (hinit s₀ h₀)

theorem Reachable.run {init : S → Prop} {s t : S} {as : List A} (h : Reachable R init s)
    (hrun : Run R s as t) : Reachable R init t := by
  obtain ⟨s₀, bs, h₀, h₁⟩ := h
  exact ⟨s₀, bs ++ as, h₀, h₁.append hrun⟩

theorem Reachable.of_init {init : S → Prop} {s : S} (h : init s) : Reachable R init s :=
  ⟨s, [], h, .nil s⟩

/-- **The history rule**: like the invariant rule, for a property of the state together with the
actions that led to it. -/
theorem Run.history {Q : List A → S → Prop} {s t : S} {as : List A} (h : Run R s as t)
    (hnil : Q [] s)
    (hstep : ∀ as t a u, Run R s as t → Q as t → R t a u → Q (as ++ [a]) u) : Q as t := by
  induction as using List.reverseRecOn generalizing t with
  | nil => rwa [← h.eq_of_nil]
  | append_singleton as a ih =>
    obtain ⟨u, hu, ha⟩ := h.snoc_inv
    exact hstep as u a t hu (ih hu) ha

/-! ## Budgets -/

/-- The total of a cost over a list of actions. -/
def cost (c : A → ℕ) : List A → ℕ
  | [] => 0
  | a :: as => c a + cost c as

@[simp] theorem cost_nil (c : A → ℕ) : cost c [] = 0 := rfl

@[simp] theorem cost_cons (c : A → ℕ) (a : A) (as : List A) :
    cost c (a :: as) = c a + cost c as := rfl

/-- **The budget rule.** `φ` is what a state has left to spend. If every step pays its cost out of
`φ`, a whole run costs no more than what its first state had. The invariant `I` and the filter `P`
on the actions are there because most budgets are only kept while something else holds. -/
theorem Run.cost_le {I : S → Prop} {P : A → Prop} {c : A → ℕ} {φ : S → ℕ}
    (hstep : ∀ s a t, P a → I s → R s a t → I t ∧ c a + φ t ≤ φ s) {s t : S} {as : List A}
    (h : Run R s as t) (hP : ∀ a ∈ as, P a) (hs : I s) : cost c as + φ t ≤ φ s := by
  induction h with
  | nil => simp
  | cons head _ ih =>
    obtain ⟨hI, hle⟩ := hstep _ _ _ (hP _ List.mem_cons_self) hs head
    have htail := ih (fun a ha => hP a (List.mem_cons_of_mem _ ha)) hI
    rw [cost_cons]
    omega

theorem cost_filterMap {B : Type*} (c : B → ℕ) (f : A → Option B) (as : List A) :
    cost c (as.filterMap f) = cost (fun a => (f a).elim 0 c) as := by
  induction as with
  | nil => rfl
  | cons a as ih =>
    rw [cost_cons, ← ih]
    cases h : f a with
    | none =>
      rw [List.filterMap_cons_none h]
      exact (Nat.zero_add _).symm
    | some b =>
      rw [List.filterMap_cons_some h]
      rfl

theorem cost_le_mul {c : A → ℕ} {k : ℕ} {as : List A} (h : ∀ a ∈ as, c a ≤ k) :
    cost c as ≤ k * as.length := by
  induction as with
  | nil => exact Nat.le_refl 0
  | cons a as ih =>
    have hhead := h a List.mem_cons_self
    have htail := ih fun b hb => h b (List.mem_cons_of_mem _ hb)
    rw [cost_cons, List.length_cons, Nat.mul_succ]
    omega

/-- One entry replaced. -/
theorem cost_set {c : A → ℕ} {as : List A} {i : ℕ} {a b : A} (h : as[i]? = some a) :
    cost c (as.set i b) + c a = cost c as + c b := by
  induction as generalizing i with
  | nil => exact absurd h (by simp)
  | cons x as ih =>
    cases i with
    | zero =>
      have hx : x = a := Option.some.inj h
      subst hx
      show c b + cost c as + c x = c x + cost c as + c b
      omega
    | succ i =>
      have htail := ih h
      rw [List.set_cons_succ, cost_cons, cost_cons]
      omega

/-- **The accounting rule.** `φ` is what a state holds, `d` what a step brings and `c` what it
takes away. -/
theorem Run.balance {I : S → Prop} {c d : A → ℕ} {φ : S → ℕ}
    (hstep : ∀ s a t, I s → R s a t → I t ∧ c a + φ t = d a + φ s) {s t : S} {as : List A}
    (h : Run R s as t) (hs : I s) : cost c as + φ t = cost d as + φ s := by
  induction h with
  | nil => rfl
  | cons head _ ih =>
    obtain ⟨hI, heq⟩ := hstep _ _ _ hs head
    have htail := ih hI
    rw [cost_cons, cost_cons]
    omega

/-! ## Simulation -/

/-- **The simulation rule.** `f` reads a state of the second system off a state of the first, `g`
reads its actions, and an action that `g` maps to `none` must be invisible. -/
theorem Run.simulate {S' B : Type*} {R' : S' → B → S' → Prop} {I : S → Prop} {f : S → S'}
    {g : A → Option B}
    (hstep : ∀ s a t, I s → R s a t → I t ∧ match g a with
      | some b => R' (f s) b (f t)
      | none => f t = f s)
    {s t : S} {as : List A} (h : Run R s as t) (hs : I s) :
    Run R' (f s) (as.filterMap g) (f t) := by
  induction h with
  | nil => exact .nil _
  | @cons s t u a as head _ ih =>
    obtain ⟨hI, hm⟩ := hstep _ _ _ hs head
    cases hg : g a with
    | none =>
      rw [hg] at hm
      rw [List.filterMap_cons_none hg, ← hm]
      exact ih hI
    | some b =>
      rw [hg] at hm
      rw [List.filterMap_cons_some hg]
      exact .cons hm (ih hI)

/-- **The rule of forward simulation.** `Z` relates what was done so far and where it led in the
first system with what was done and where it led in the second, which may answer a step with any
number of its own. -/
theorem Run.refine {S' B : Type*} {N : S' → B → S' → Prop} {Z : List A → S → List B → S' → Prop}
    {s₀ s : S} {as : List A} {s₀' : S'} (h : Run R s₀ as s) (hs : Z [] s₀ [] s₀')
    (hstep : ∀ as s bs s' a t, Z as s bs s' → R s a t →
      ∃ bs' t', Run N s' bs' t' ∧ Z (as ++ [a]) t (bs ++ bs') t') :
    ∃ bs s', Run N s₀' bs s' ∧ Z as s bs s' := by
  refine h.history (Q := fun as s => ∃ bs s', Run N s₀' bs s' ∧ Z as s bs s')
    ⟨[], s₀', .nil _, hs⟩ ?_
  rintro as s a t - ⟨bs, s', hrun, hz⟩ ha
  obtain ⟨bs', t', hrun', hz'⟩ := hstep as s bs s' a t hz ha
  exact ⟨bs ++ bs', t', hrun.append hrun', hz'⟩

end

end Lib
end KaspaMiner
