import KaspaMiner.Asm.KeccakF1600
import KaspaMiner.Lib.Keccak
import KaspaMiner.Lib.Symbolic

/-!
# The linked permutation is Keccak-f[1600]

Six lanes are kept complemented, which saves most of the complements of χ, and five lanes stay in
registers from one round to the next. What a round does is checked once, for all values of the
lanes, by running it on expressions; everything else is about the ends: which of the two buffers the
lanes are in, when the loop stops, what is on the stack.
-/

namespace KaspaMiner
namespace Asm

open Lib (Keccak.Lanes)
open Lib.X64 Lib.Bitwise Lib.X64.Reg

/-! ## Keccak-f[1600] on expressions -/

theorem lane_lt (x y : ℕ) : x % 5 + 5 * (y % 5) < 25 := by omega

theorem source_lt (x y : ℕ) : (x + 3 * y) % 5 + 5 * (x % 5) < 25 := by omega

theorem entry_lt (i : Fin 25) : i.val < 25 := i.isLt

theorem column_lt (i : Fin 25) : i.val % 5 < 5 := Nat.mod_lt _ (by decide)

theorem before_lt (x : Fin 5) : (x.val + 4) % 5 < 5 := Nat.mod_lt _ (by decide)

theorem after_lt (x : Fin 5) : (x.val + 1) % 5 < 5 := Nat.mod_lt _ (by decide)

theorem first_lt : 0 < 25 := by decide

abbrev LaneExprs := Vector Expr 25

namespace LaneExprs

def eval (env : ℕ → UInt64) (a : LaneExprs) : Keccak.Lanes := a.map fun e => e.eval env

def lane (a : LaneExprs) (x y : ℕ) : Expr := getElem a (x % 5 + 5 * (y % 5)) (lane_lt x y)

def theta (a : LaneExprs) : LaneExprs :=
  let parity := Vector.ofFn fun x : Fin 5 =>
    Expr.xor (.xor (.xor (.xor (lane a x 0) (lane a x 1)) (lane a x 2)) (lane a x 3)) (lane a x 4)
  let d := Vector.ofFn fun x : Fin 5 =>
    Expr.xor (getElem parity ((x.val + 4) % 5) (before_lt x))
      (.rol 1 (getElem parity ((x.val + 1) % 5) (after_lt x)))
  Vector.ofFn fun i => .xor (getElem a i (entry_lt i)) (getElem d (i.val % 5) (column_lt i))

def rhoPi (a : LaneExprs) : LaneExprs :=
  Vector.ofFn fun i =>
    let x := i.val % 5
    let y := i.val / 5
    .rol (getElem Lib.Keccak.rhoOffsets ((x + 3 * y) % 5 + 5 * (x % 5)) (source_lt x y))
      (lane a (x + 3 * y) x)

def chi (a : LaneExprs) : LaneExprs :=
  Vector.ofFn fun i =>
    let x := i.val % 5
    let y := i.val / 5
    .xor (getElem a i (entry_lt i)) (.and (.not (lane a (x + 1) y)) (lane a (x + 2) y))

def iota (rc : Expr) (a : LaneExprs) : LaneExprs :=
  a.set 0 (.xor (getElem a 0 first_lt) rc) first_lt

variable (env : ℕ → UInt64)

theorem getElem_eval (a : LaneExprs) {i : ℕ} (hi : i < 25) :
    (a.eval env)[i] = a[i].eval env := Vector.getElem_map _ hi

theorem eval_lane (a : LaneExprs) (x y : ℕ) :
    (lane a x y).eval env = Lib.Keccak.lane (a.eval env) x y := (getElem_eval env a _).symm

theorem eval_theta (a : LaneExprs) : (theta a).eval env = Lib.Keccak.theta (a.eval env) := by
  refine Vector.ext fun i hi => ?_
  rw [getElem_eval env _ hi]
  simp only [theta, Lib.Keccak.theta, Vector.getElem_ofFn, Expr.eval, eval_lane, Fin.getElem_fin,
    getElem_eval env a hi]
  rfl

theorem eval_rhoPi (a : LaneExprs) : (rhoPi a).eval env = Lib.Keccak.rhoPi (a.eval env) := by
  refine Vector.ext fun i hi => ?_
  rw [getElem_eval env _ hi]
  simp only [rhoPi, Lib.Keccak.rhoPi, Vector.getElem_ofFn, Expr.eval, eval_lane]
  rfl

theorem eval_chi (a : LaneExprs) : (chi a).eval env = Lib.Keccak.chi (a.eval env) := by
  refine Vector.ext fun i hi => ?_
  rw [getElem_eval env _ hi]
  simp only [chi, Lib.Keccak.chi, Vector.getElem_ofFn, Expr.eval, eval_lane, Fin.getElem_fin,
    getElem_eval env a hi]

theorem eval_iota (rc : Expr) (a : LaneExprs) :
    (iota rc a).eval env = Lib.Keccak.iota (rc.eval env) (a.eval env) := by
  refine Vector.ext fun i hi => ?_
  rw [getElem_eval env _ hi]
  unfold iota Lib.Keccak.iota
  rw [Vector.getElem_set, Vector.getElem_set]
  split
  · rw [Expr.eval, getElem_eval]
  · rw [getElem_eval env a hi]

end LaneExprs

/-! ## Complemented lanes -/

def complemented : List ℕ := [1, 2, 8, 12, 17, 20]

/-- How lanes are kept. -/
def code (a : Keccak.Lanes) : Keccak.Lanes :=
  Vector.ofFn fun i =>
    if i.val ∈ complemented then ~~~ getElem a i (entry_lt i) else getElem a i (entry_lt i)

theorem code_code (a : Keccak.Lanes) : code (code a) = a := by
  refine Vector.ext fun i hi => ?_
  simp only [code, Vector.getElem_ofFn, Fin.getElem_fin]
  split
  · exact UInt64.not_not
  · rfl

def LaneExprs.code (a : LaneExprs) : LaneExprs :=
  Vector.ofFn fun i =>
    if i.val ∈ complemented then .not (getElem a i (entry_lt i)) else getElem a i (entry_lt i)

theorem LaneExprs.eval_code (env : ℕ → UInt64) (a : LaneExprs) :
    a.code.eval env = Asm.code (a.eval env) := by
  refine Vector.ext fun i hi => ?_
  rw [getElem_eval env _ hi]
  simp only [code, Asm.code, Vector.getElem_ofFn, Fin.getElem_fin, getElem_eval env a hi]
  split
  · rfl
  · rfl

/-! ## Lanes in memory -/

/-- `[u64; 25]` at an address. -/
def lanesAt (m : Memory) (p : UInt64) : Keccak.Lanes :=
  Vector.ofFn fun i : Fin 25 => m.load (p + UInt64.ofNat (8 * i))

theorem lanesAt_of_holds {env : ℕ → UInt64} {m : Memory} {B : Buffer} {a : LaneExprs}
    (h : Holds env m B a.toList) : lanesAt m B.base = a.eval env := by
  refine Vector.ext fun i hi => ?_
  rw [LaneExprs.getElem_eval env a hi, lanesAt, Vector.getElem_ofFn]
  exact h.2 i a[i] (by simp [hi])

/-- The five lanes that are in registers as well. -/
def carried (a : LaneExprs) : List (Reg × Value) :=
  [(rax, .word a[20]), (rbx, .word a[21]), (rcx, .word a[22]), (rdx, .word a[23]),
    (rbp, .word a[24])]

structure Carries (s : State) (a : Keccak.Lanes) : Prop where
  rax : s.regs .rax = a[20]
  rbx : s.regs .rbx = a[21]
  rcx : s.regs .rcx = a[22]
  rdx : s.regs .rdx = a[23]
  rbp : s.regs .rbp = a[24]

theorem carries_iff {s : State} {L : Layout} {env : ℕ → UInt64} {a : LaneExprs} :
    Carries s (a.eval env) ↔ ∀ p ∈ carried a, s.regs p.1 = p.2.eval L env := by
  constructor
  · intro h
    simp only [carried, List.forall_mem_cons, Value.eval, ← LaneExprs.getElem_eval]
    exact ⟨h.rax, h.rbx, h.rcx, h.rdx, h.rbp, by simp⟩
  · intro h
    simp only [carried, List.forall_mem_cons, Value.eval, ← LaneExprs.getElem_eval] at h
    obtain ⟨hrax, hrbx, hrcx, hrdx, hrbp, -⟩ := h
    exact ⟨hrax, hrbx, hrcx, hrdx, hrbp⟩

/-! ## One round -/

/-- The lanes of a state whose first buffer they are. -/
def lanesVar : LaneExprs := Vector.ofFn fun i => .var (16 + i)

/-- A round of the specification, on the expressions of coded lanes. -/
def nextLanes : LaneExprs :=
  (LaneExprs.iota (.var 66) (.chi (.rhoPi (.theta lanesVar.code)))).code

def roundPre : View :=
  (View.fresh [25, 25, 1]).know ([(rdi, .ptr 0 100), (rsi, .ptr 1 100), (r15, .ptr 2 0)] ++
    carried lanesVar)

def roundPost : Assertion where
  regs := [(rdi, .ptr 1 100), (rsi, .ptr 0 100), (r15, .ptr 2 8), (rsp, .word rsp.var)] ++
    carried nextLanes
  bufs := [(1, nextLanes.toList)]

theorem round_check :
    check (fun _ => none) [true, true, false] roundPre round roundPost = true := by
  decide +kernel

/-- Where the lanes are, where they go to and where the table is. -/
structure Clear (src dst table : UInt64) : Prop where
  lanes : NoOverlap src 200 dst 200
  src : NoOverlap src 200 table 192
  dst : NoOverlap dst 200 table 192

theorem Clear.swap {src dst table : UInt64} (h : Clear src dst table) : Clear dst src table :=
  ⟨h.lanes.symm, h.dst, h.src⟩

/-- What a round uses of memory. -/
def Clear.layout {src dst table : UInt64} (h : Clear src dst table) {k : ℕ} (hk : k < 24) :
    Layout where
  bufs := [⟨src, 25, true⟩, ⟨dst, 25, true⟩, ⟨table + UInt64.ofNat (8 * k), 1, false⟩]
  apart := by
    simp only [List.pairwise_cons, List.forall_mem_cons]
    exact ⟨⟨h.lanes, h.src.sub_right (by omega), by simp⟩, ⟨h.dst.sub_right (by omega), by simp⟩,
      by simp⟩
  fits := by simp

/-- Before round `k`. -/
structure AtRound (src dst table : UInt64) (k : ℕ) (a : Keccak.Lanes) (s : State) : Prop where
  rdi : s.regs .rdi = src + 100
  rsi : s.regs .rsi = dst + 100
  r15 : s.regs .r15 = table + UInt64.ofNat (8 * k)
  lanes : lanesAt s.mem src = code a
  carries : Carries s (code a)

/-- Memory is the same but for the two buffers. -/
def Outside (src dst : UInt64) (m m' : Memory) : Prop :=
  ∀ x, (∀ i < 200, x ≠ src + UInt64.ofNat i) → (∀ i < 200, x ≠ dst + UInt64.ofNat i) → m' x = m x

def keccakRound (rc : UInt64) (a : Keccak.Lanes) : Keccak.Lanes :=
  Lib.Keccak.iota rc (Lib.Keccak.chi (Lib.Keccak.rhoPi (Lib.Keccak.theta a)))

theorem round_exec {src dst table : UInt64} {k : ℕ} {a : Keccak.Lanes} {s : State}
    (hclear : Clear src dst table) (hk : k < 24) (h : AtRound src dst table k a s)
    (symbols : Symbol → UInt64) :
    AtRound dst src table (k + 1)
        (keccakRound (s.mem.load (table + UInt64.ofNat (8 * k))) a) (exec symbols round s) ∧
      (exec symbols round s).regs .rsp = s.regs .rsp ∧
      Outside src dst s.mem (exec symbols round s).mem := by
  let L := hclear.layout hk
  have hfresh : Shows L (s.env L) (.fresh [25, 25, 1]) s := Shows.fresh L s
  -- what the variables of the check are
  have hlanes : lanesVar.eval (s.env L) = code a := by
    obtain ⟨B, hB, hholds⟩ := hfresh.bufs 0 lanesVar.toList (by decide)
    cases hB
    rw [← h.lanes, ← lanesAt_of_holds hholds]
  have hrc : s.env L 66 = s.mem.load (table + UInt64.ofNat (8 * k)) := by
    obtain ⟨B, hB, -, hword⟩ := hfresh.bufs 2 [.var 66] (by decide)
    cases hB
    show (Expr.var 66).eval (s.env L) = _
    rw [← hword 0 (.var 66) rfl, Buffer.word]
    exact congrArg s.mem.load (UInt64.add_zero _)
  have hnext : nextLanes.eval (s.env L) =
      code (keccakRound (s.mem.load (table + UInt64.ofNat (8 * k))) a) := by
    simp only [nextLanes, LaneExprs.eval_code, LaneExprs.eval_iota, LaneExprs.eval_chi,
      LaneExprs.eval_rhoPi, LaneExprs.eval_theta, hlanes, code_code, Expr.eval, hrc]
    rfl
  have hpre : Shows L (s.env L) roundPre s := by
    refine Shows.know ?_ hfresh
    intro p hp
    rcases List.mem_append.mp hp with hp | hp
    · simp only [List.mem_cons, List.not_mem_nil, or_false] at hp
      rcases hp with rfl | rfl | rfl
      · exact h.rdi
      · exact h.rsi
      · exact h.r15.trans (UInt64.add_zero _).symm
    · exact carries_iff.mp (hlanes ▸ h.carries) p hp
  obtain ⟨⟨hregs, hbufs⟩, hframe⟩ := check_sound (by simp) hpre round_check
  have hreg : ∀ r x, (r, x) ∈ roundPost.regs → (exec symbols round s).regs r = x.eval L (s.env L) :=
    fun r x hmem => hregs (r, x) hmem
  obtain ⟨B, hB, hholds⟩ := hbufs (1, nextLanes.toList) (by simp [roundPost])
  cases hB
  refine ⟨⟨hreg _ (.ptr 1 100) (by simp [roundPost]), hreg _ (.ptr 0 100) (by simp [roundPost]), ?_,
    ?_, ?_⟩, ?_, ?_⟩
  · rw [hreg _ (.ptr 2 8) (by simp [roundPost]), Nat.mul_succ, UInt64.ofNat_add, ← UInt64.add_assoc]
    rfl
  · rw [← hnext, ← lanesAt_of_holds hholds]
  · rw [← hnext, carries_iff (L := L)]
    intro p hp
    exact hregs p (List.mem_append_right _ hp)
  · exact hreg _ (.word rsp.var) (by simp [roundPost])
  · intro x hsrc hdst
    refine hframe x ?_
    intro B hB hw hcovers
    obtain ⟨i, hi, rfl⟩ := hcovers
    simp only [L, Clear.layout, List.mem_cons, List.not_mem_nil, or_false] at hB
    rcases hB with rfl | rfl | rfl
    · exact hsrc i hi rfl
    · exact hdst i hi rfl
    · cases hw

end Asm
end KaspaMiner
