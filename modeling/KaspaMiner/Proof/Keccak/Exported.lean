import KaspaMiner.Proof.Keccak.Call

/-!
# `KeccakF1600`

What the exported routine does for its caller. The words of the stack are counted from 256 bytes
below the stack pointer on: word 0 is where the inner call returns to, words 1 to 25 are the second
buffer, then come the registers that were pushed, and word 32 is where the routine itself returns
to. The convention of Windows adds two words above that one, which belong to the callee as well.
-/

namespace KaspaMiner
namespace Asm

open Lib (Keccak.Lanes)
open Lib.X64 Lib.Bitwise Lib.X64.Reg

/-! ## Conventions -/

def stackVars (words : ℕ) : List Expr := freshWords 41 words

def savedWords (words : ℕ) (saved : List (Reg × ℕ)) : List Expr :=
  saved.foldl (fun ws p => ws.set p.2 p.1.var) (stackVars words)

def tableAt (_ : Symbol) : Option Value := some (.ptr 2 0)

def prologuePre (arg : Reg) (words : ℕ) : View :=
  (View.fresh [25, words, 24]).know [(arg, .ptr 0 0), (rsp, .ptr 1 256)]

def prologuePost (words : ℕ) (saved : List (Reg × ℕ)) : Assertion where
  regs := [(rdi, .ptr 0 100), (rsi, .ptr 1 108), (r15, .ptr 2 0), (rsp, .ptr 1 8)]
  bufs := [(0, lanesVar.code.toList), (1, savedWords words saved)]

def epiloguePre (words : ℕ) : View :=
  (View.fresh [25, words, 24]).know [(rdi, .ptr 0 100), (rsp, .ptr 1 8)]

def epiloguePost (words : ℕ) (saved : List (Reg × ℕ)) : Assertion where
  regs := (rsp, .ptr 1 256) :: saved.map fun p => (p.1, .word (.var (41 + p.2)))
  bufs := [(0, lanesVar.code.toList), (1, stackVars words)]

/-- How the routine is called, and a prologue and an epilogue that go with it. -/
structure Convention where
  prologue : List (Op Symbol)
  epilogue : List (Op Symbol)
  /-- Where the address of the state is. -/
  arg : Reg
  /-- How much of the stack belongs to the routine. -/
  words : ℕ
  /-- The registers that it preserves, and where they are meanwhile. -/
  saved : List (Reg × ℕ)
  slots : ∀ p ∈ saved, p.1 ≠ rsp ∧ 26 ≤ p.2 ∧ p.2 < words
  kept : ∀ p ∈ saved, (savedWords words saved)[p.2]? = some p.1.var
  returns : (savedWords words saved)[32]? = some (.var (41 + 32))
  words_gt : 32 < words
  words_le : words ≤ 64
  prologue_ok : check tableAt [true, true, false] (prologuePre arg words) prologue
    (prologuePost words saved) = true
  epilogue_ok : check tableAt [true, true, false] (epiloguePre words) epilogue
    (epiloguePost words saved) = true

def sysV : Convention where
  prologue := SysV.prologue
  epilogue := SysV.epilogue
  arg := rdi
  words := 33
  saved := [(r15, 26), (r14, 27), (r13, 28), (r12, 29), (rbp, 30), (rbx, 31)]
  slots := by decide
  kept := by decide
  returns := by decide
  words_gt := by decide
  words_le := by decide
  prologue_ok := by decide +kernel
  epilogue_ok := by decide +kernel

def win64 : Convention where
  prologue := Win64.prologue
  epilogue := Win64.epilogue
  arg := rcx
  words := 35
  saved := [(r15, 26), (r14, 27), (r13, 28), (r12, 29), (rbp, 30), (rbx, 31), (rdi, 33), (rsi, 34)]
  slots := by decide
  kept := by decide
  returns := by decide
  words_gt := by decide
  words_le := by decide
  prologue_ok := by decide +kernel
  epilogue_ok := by decide +kernel

/-! ## Before and after -/

/-- The state at `p` and the stack from `base` on are nobody else's. -/
structure Callable (words : ℕ) (table p base : UInt64) : Prop where
  state_stack : NoOverlap p 200 base (8 * words)
  state_table : NoOverlap p 200 table 192
  stack_table : NoOverlap base (8 * words) table 192

/-- The state, the stack and the table. -/
def callBufs (words : ℕ) (table p base : UInt64) : List Buffer :=
  [⟨p, 25, true⟩, ⟨base, words, true⟩, ⟨table, 24, false⟩]

theorem Callable.apart {words : ℕ} {table p base : UInt64} (h : Callable words table p base) :
    (callBufs words table p base).Pairwise
      fun B C => NoOverlap B.base (8 * B.words) C.base (8 * C.words) := by
  simp only [callBufs, List.pairwise_cons, List.forall_mem_cons]
  exact ⟨⟨h.state_stack, h.state_table, by simp⟩, ⟨h.stack_table, by simp⟩, by simp⟩

theorem callBufs_fit {words : ℕ} (table p base : UInt64) (hle : words ≤ 64) :
    ∀ B ∈ callBufs words table p base, 8 * B.words ≤ 2 ^ 64 := by
  simp only [callBufs, List.forall_mem_cons]
  exact ⟨by omega, by omega, by omega, by simp⟩

def Callable.layout {words : ℕ} {table p base : UInt64} (h : Callable words table p base)
    (hle : words ≤ 64) : Layout where
  bufs := callBufs words table p base
  apart := h.apart
  fits := callBufs_fit table p base hle

/-- Memory is the same but for the state and the stack. -/
def Elsewhere (p base : UInt64) (words : ℕ) (m m' : Memory) : Prop :=
  ∀ x, (∀ i < 200, x ≠ p + UInt64.ofNat i) → (∀ i < 8 * words, x ≠ base + UInt64.ofNat i) →
    m' x = m x

section
variable {words : ℕ} {table p base : UInt64}

theorem Callable.elsewhere (h : Callable words table p base) (hle : words ≤ 64) {m m' : Memory}
    (hframe : Frame (h.layout hle) m m') : Elsewhere p base words m m' := by
  intro x hp hbase
  refine hframe x ?_
  rintro B hB hw ⟨i, hi, rfl⟩
  simp only [layout, callBufs, List.mem_cons, List.not_mem_nil, or_false] at hB
  rcases hB with rfl | rfl | rfl
  · exact hp i hi rfl
  · exact hbase i hi rfl
  · cases hw

theorem Callable.fresh_lanes (h : Callable words table p base) (hle : words ≤ 64) (s : State) :
    lanesVar.eval (s.env (h.layout hle)) = lanesAt s.mem p := by
  obtain ⟨B, hB, hholds⟩ := (Shows.fresh (h.layout hle) s).bufs 0 lanesVar.toList (by rfl)
  cases hB
  exact (lanesAt_of_holds hholds).symm

theorem Callable.fresh_stack (h : Callable words table p base) (hle : words ≤ 64) (s : State)
    {k : ℕ} (hk : k < words) :
    (Expr.var (41 + k)).eval (s.env (h.layout hle)) = s.mem.load (base + UInt64.ofNat (8 * k)) := by
  obtain ⟨B, hB, -, hword⟩ := (Shows.fresh (h.layout hle) s).bufs 1 (stackVars words) (by rfl)
  cases hB
  exact (hword k _ (by simp [stackVars, freshWords, hk])).symm

variable (c : Convention)

theorem prologue_exec {s : State} (h : Callable c.words table p base) (harg : s.regs c.arg = p)
    (hrsp : s.regs .rsp = base + 256) (symbols : Symbol → UInt64)
    (hsym : symbols .iotas = table) :
    AtCall p (base + 8) table (lanesAt s.mem p) (exec symbols c.prologue s) ∧
      (exec symbols c.prologue s).regs .rsp = base + 8 ∧
      (∀ q ∈ c.saved, (exec symbols c.prologue s).mem.load (base + UInt64.ofNat (8 * q.2)) =
        s.regs q.1) ∧
      (exec symbols c.prologue s).mem.load (base + UInt64.ofNat (8 * 32)) =
        s.mem.load (base + UInt64.ofNat (8 * 32)) ∧
      Elsewhere p base c.words s.mem (exec symbols c.prologue s).mem := by
  let L := h.layout c.words_le
  have hfresh : Shows L (s.env L) (.fresh [25, c.words, 24]) s := Shows.fresh L s
  have hpre : Shows L (s.env L) (prologuePre c.arg c.words) s := by
    refine Shows.know ?_ hfresh
    intro q hq
    simp only [List.mem_cons, List.not_mem_nil, or_false] at hq
    rcases hq with rfl | rfl
    · exact harg.trans (UInt64.add_zero _).symm
    · exact hrsp
  have hvalues : ∀ y x, tableAt y = some x → symbols y = x.eval L (s.env L) := by
    rintro ⟨⟩ x hx
    cases hx
    exact hsym.trans (UInt64.add_zero _).symm
  obtain ⟨⟨hregs, hbufs⟩, hframe⟩ := check_sound hvalues hpre c.prologue_ok
  generalize exec symbols c.prologue s = s' at hregs hbufs hframe
  have hreg : ∀ r x, (r, x) ∈ (prologuePost c.words c.saved).regs →
      s'.regs r = x.eval L (s.env L) :=
    fun r x hmem => hregs (r, x) hmem
  obtain ⟨B, hB, hlanes⟩ := hbufs (0, lanesVar.code.toList) (by simp [prologuePost])
  cases hB
  obtain ⟨B, hB, -, hstack⟩ := hbufs (1, savedWords c.words c.saved) (by simp [prologuePost])
  cases hB
  refine ⟨⟨hreg _ (.ptr 0 100) (by simp [prologuePost]), ?_, ?_, ?_⟩,
    hreg _ (.ptr 1 8) (by simp [prologuePost]), ?_, ?_, h.elsewhere c.words_le hframe⟩
  · rw [hreg _ (.ptr 1 108) (by simp [prologuePost]), UInt64.add_assoc]
    rfl
  · rw [hreg _ (.ptr 2 0) (by simp [prologuePost])]
    exact UInt64.add_zero _
  · rw [lanesAt_of_holds hlanes, LaneExprs.eval_code, h.fresh_lanes]
  · intro q hq
    exact (hstack q.2 _ (c.kept q hq)).trans (hfresh.regs q.1).symm
  · have hword : s'.mem.load (base + UInt64.ofNat (8 * 32)) =
        (Expr.var (41 + 32)).eval (s.env L) := hstack 32 _ c.returns
    rw [hword, h.fresh_stack c.words_le s c.words_gt]

theorem epilogue_exec {s : State} (h : Callable c.words table p base)
    (hrdi : s.regs .rdi = p + 100) (hrsp : s.regs .rsp = base + 8) (symbols : Symbol → UInt64)
    (hsym : symbols .iotas = table) :
    lanesAt (exec symbols c.epilogue s).mem p = code (lanesAt s.mem p) ∧
      (exec symbols c.epilogue s).regs .rsp = base + 256 ∧
      (∀ q ∈ c.saved, (exec symbols c.epilogue s).regs q.1 =
        s.mem.load (base + UInt64.ofNat (8 * q.2))) ∧
      (exec symbols c.epilogue s).mem.load (base + UInt64.ofNat (8 * 32)) =
        s.mem.load (base + UInt64.ofNat (8 * 32)) ∧
      Elsewhere p base c.words s.mem (exec symbols c.epilogue s).mem := by
  let L := h.layout c.words_le
  have hfresh : Shows L (s.env L) (.fresh [25, c.words, 24]) s := Shows.fresh L s
  have hpre : Shows L (s.env L) (epiloguePre c.words) s := by
    refine Shows.know ?_ hfresh
    intro q hq
    simp only [List.mem_cons, List.not_mem_nil, or_false] at hq
    rcases hq with rfl | rfl
    · exact hrdi
    · exact hrsp
  have hvalues : ∀ y x, tableAt y = some x → symbols y = x.eval L (s.env L) := by
    rintro ⟨⟩ x hx
    cases hx
    exact hsym.trans (UInt64.add_zero _).symm
  obtain ⟨⟨hregs, hbufs⟩, hframe⟩ := check_sound hvalues hpre c.epilogue_ok
  generalize exec symbols c.epilogue s = s' at hregs hbufs hframe
  obtain ⟨B, hB, hlanes⟩ := hbufs (0, lanesVar.code.toList) (by simp [epiloguePost])
  cases hB
  obtain ⟨B, hB, -, hstack⟩ := hbufs (1, stackVars c.words) (by simp [epiloguePost])
  cases hB
  refine ⟨?_, hregs (rsp, .ptr 1 256) List.mem_cons_self, ?_, ?_, h.elsewhere c.words_le hframe⟩
  · rw [lanesAt_of_holds hlanes, LaneExprs.eval_code, h.fresh_lanes]
  · intro q hq
    have hreg := hregs (q.1, .word (.var (41 + q.2)))
      (List.mem_cons_of_mem _ (List.mem_map.mpr ⟨q, hq, rfl⟩))
    exact hreg.trans (h.fresh_stack c.words_le s (c.slots q hq).2.2)
  · have hget : (stackVars c.words)[32]? = some (.var (41 + 32)) := by
      simp [stackVars, freshWords, c.words_gt]
    have hword : s'.mem.load (base + UInt64.ofNat (8 * 32)) =
        (Expr.var (41 + 32)).eval (s.env L) := hstack 32 _ hget
    rw [hword, h.fresh_stack c.words_le s c.words_gt]

/-! ## The call -/

namespace Elsewhere
variable {m m' m'' : Memory}

theorem trans (h : Elsewhere p base words m m') (h' : Elsewhere p base words m' m'') :
    Elsewhere p base words m m'' :=
  fun x hp hbase => (h' x hp hbase).trans (h x hp hbase)

theorem of_outside {j : ℕ} (hj : j + 200 ≤ 8 * words)
    (h : Outside p (base + UInt64.ofNat j) m m') : Elsewhere p base words m m' := by
  intro x hp hbase
  refine h x hp fun i hi heq => hbase (j + i) (by omega) ?_
  rw [heq, UInt64.add_assoc, ← UInt64.ofNat_add]

theorem of_store (hwords : 0 < words) (v : UInt64) :
    Elsewhere p base words m (m.store base v) :=
  fun _ _ hbase => Memory.store_apart fun i hi => hbase i (by omega)

/-- The table survives. -/
theorem loaded (h : Elsewhere p base words m m') (hc : Callable words table p base)
    (hm : Loaded m table) : Loaded m' table := by
  intro k rc hk
  have hlt : k < 24 := (List.getElem?_eq_some_iff.mp hk).1
  have hp : NoOverlap p 200 (table + UInt64.ofNat (8 * k)) 8 := hc.state_table.sub_right (by omega)
  have hbase : NoOverlap base (8 * words) (table + UInt64.ofNat (8 * k)) 8 :=
    hc.stack_table.sub_right (by omega)
  rw [← hm k rc hk]
  exact Memory.load_congr fun i hi =>
    h _ (fun j hj heq => hp j hj i hi heq.symm) (fun j hj heq => hbase j hj i hi heq.symm)

end Elsewhere

theorem lanesAt_store {m : Memory} {v : UInt64} (h : NoOverlap p 200 base 8) :
    lanesAt (m.store base v) p = lanesAt m p := by
  refine Vector.ext fun i hi => ?_
  simp only [lanesAt, Vector.getElem_ofFn]
  have hapart := h.symm.sub_right (j := 8 * i) (w := 8) (by omega)
  exact Memory.load_store_apart hapart.symm

/-- When `__KeccakF1600` starts, on behalf of a call in the state `s`. `ret` is the address after
the inner call. -/
structure Inside (table p base ret : UInt64) (s s' : State) : Prop where
  call : AtCall p (base + UInt64.ofNat 8) table (lanesAt s.mem p) s'
  rsp : s'.regs .rsp = base
  ret : s'.mem.load base = ret
  saved : ∀ q ∈ c.saved, s'.mem.load (base + UInt64.ofNat (8 * q.2)) = s.regs q.1
  returns : s'.mem.load (base + UInt64.ofNat (8 * 32)) = s.mem.load (base + UInt64.ofNat (8 * 32))
  elsewhere : Elsewhere p base c.words s.mem s'.mem

variable {c} (P : Linked c.prologue c.epilogue)

theorem enter {s : State} (h : Callable c.words P.table p base) (harg : s.regs c.arg = p)
    (hrsp : s.regs .rsp = base + 256) :
    ∃ s', P.img.run (c.prologue.length + 1) { state := s, rip := P.img.target .KeccakF1600 } =
        some { state := s', rip := P.img.target .__KeccakF1600 } ∧
      Inside c P.table p base (P.img.addr (206 + c.prologue.length + 1)) s s' := by
  have hgt := c.words_gt
  have hle := c.words_le
  obtain ⟨hcall, hrsp₁, hsaved, hreturn, helse⟩ := prologue_exec c h harg hrsp P.img.symbols rfl
  have hpro := Image.run_exec P.laid P.drop_exported s
  have hrest := Image.drop_block P.drop_exported
  rw [List.length_map] at hrest
  generalize exec P.img.symbols c.prologue s = s₁ at hcall hrsp₁ hsaved hreturn helse hpro
  have hpush := Image.run_one P.laid hrest s₁
  simp only [Image.execInstr] at hpush
  generalize P.img.addr (206 + c.prologue.length + 1) = ret at hpush ⊢
  have hbase : s₁.regs .rsp - 8 = base := by
    rw [hrsp₁]
    exact UInt64.add_sub_cancel _ _
  have hmem : (s₁.push ret).mem = s₁.mem.store base ret := by rw [State.push, hbase]
  -- The inner call puts its return address into word 0, which none of the others minds.
  have hword : ∀ k, 26 ≤ k → k < c.words →
      Memory.Apart (base + UInt64.ofNat (8 * k)) base := fun k hk hlt =>
    (noOverlap_start base (by omega) (by omega)).symm
  have hstart : NoOverlap p 200 base 8 := fun i hi j hj => h.state_stack i hi j (by omega)
  refine ⟨s₁.push ret, ?_, ⟨hcall.rdi, hcall.rsi, hcall.r15, ?_⟩, ?_, ?_, ?_, ?_, ?_⟩
  · rw [P.target_exported]
    exact Image.run_trans (n := c.prologue.length) (k := 1) hpro hpush
  · rw [hmem, lanesAt_store hstart, hcall.lanes]
  · rw [State.push, hbase]
    rfl
  · rw [hmem, Memory.load_store]
  · intro q hq
    rw [hmem, Memory.load_store_apart (hword q.2 (c.slots q hq).2.1 (c.slots q hq).2.2)]
    exact hsaved q hq
  · rw [hmem, Memory.load_store_apart (hword 32 (by omega) hgt)]
    exact hreturn
  · rw [hmem]
    exact helse.trans (Elsewhere.of_store (by omega) ret)

theorem leave {ret : UInt64} {s s₁ : State} (h : Callable c.words P.table p base)
    (hrsp : s.regs .rsp = base + 256) (hin : Inside c P.table p base ret s s₁) {s₂ : State}
    {a : Keccak.Lanes} (hrdi₂ : s₂.regs .rdi = p + 100) (hrsp₂ : s₂.regs .rsp = base + 8)
    (hlanes₂ : lanesAt s₂.mem p = code a)
    (houtside : Outside p (base + UInt64.ofNat 8) s₁.mem s₂.mem) :
    ∃ s', P.img.run (c.epilogue.length + 1)
          { state := s₂, rip := P.img.addr (206 + c.prologue.length + 1) } =
        some { state := s', rip := s.mem.load (s.regs .rsp) } ∧
      lanesAt s'.mem p = a ∧ (∀ q ∈ c.saved, s'.regs q.1 = s.regs q.1) ∧
      s'.regs .rsp = s.regs .rsp + 8 ∧ s'.mem.load (s.regs .rsp) = s.mem.load (s.regs .rsp) ∧
      Elsewhere p base c.words s.mem s'.mem := by
  have hgt := c.words_gt
  have hle := c.words_le
  -- The words behind the second buffer are as the prologue left them.
  have hkept : ∀ k, 26 ≤ k → k < c.words → s₂.mem.load (base + UInt64.ofNat (8 * k)) =
      s₁.mem.load (base + UInt64.ofNat (8 * k)) := fun k hk hlt =>
    houtside.load (h.state_stack.sub_right (by omega)) (noOverlap_of_le base (by omega) (by omega))
  have hrest := Image.drop_block (b := [_]) (Image.drop_block P.drop_exported)
  rw [List.length_map] at hrest
  obtain ⟨hlanes₃, hrsp₃, hsaved₃, hreturn₃, helse₃⟩ :=
    epilogue_exec c h hrdi₂ hrsp₂ P.img.symbols rfl
  have hepi := Image.run_exec P.laid hrest s₂
  have hlast := Image.drop_block hrest
  rw [List.length_map] at hlast
  generalize exec P.img.symbols c.epilogue s₂ = s₃ at *
  have htop : s₃.regs .rsp = s.regs .rsp := hrsp₃.trans hrsp.symm
  have hword : s₃.mem.load (s₃.regs .rsp) = s.mem.load (s.regs .rsp) := by
    rw [htop, hrsp]
    exact hreturn₃.trans ((hkept 32 (by omega) hgt).trans hin.returns)
  have hret := Image.run_one P.laid hlast s₃
  simp only [Image.execInstr, hword] at hret
  refine ⟨_, Image.run_trans (n := c.epilogue.length) (k := 1) hepi hret, ?_, ?_, ?_, ?_, ?_⟩
  · rw [hlanes₃, hlanes₂, code_code]
  · intro q hq
    obtain ⟨hne, hlow, hhigh⟩ := c.slots q hq
    show Function.update s₃.regs .rsp _ q.1 = _
    rw [Function.update_of_ne hne, hsaved₃ q hq, hkept q.2 hlow hhigh, hin.saved q hq]
  · rw [← htop]
    rfl
  · rw [← hword, htop]
  · exact hin.elsewhere.trans ((Elsewhere.of_outside (by omega) houtside).trans helse₃)

/-- **The exported routine**, under either convention. -/
theorem call_run {s : State} (hloaded : Loaded s.mem P.table)
    (h : Callable c.words P.table p base) (harg : s.regs c.arg = p)
    (hrsp : s.regs .rsp = base + 256) :
    ∃ s', P.img.run (c.prologue.length + 4739 + c.epilogue.length)
          { state := s, rip := P.img.target .KeccakF1600 } =
        some { state := s', rip := s.mem.load (s.regs .rsp) } ∧
      lanesAt s'.mem p = Lib.Keccak.f1600 (lanesAt s.mem p) ∧
      s'.regs .rsp = s.regs .rsp + 8 ∧ (∀ q ∈ c.saved, s'.regs q.1 = s.regs q.1) ∧
      ∀ x, (∀ i < 200, x ≠ p + UInt64.ofNat i) →
        (∀ i < 8 * c.words, i < 256 ∨ 264 ≤ i → x ≠ base + UInt64.ofNat i) →
        s'.mem x = s.mem x := by
  have hgt := c.words_gt
  have hle := c.words_le
  obtain ⟨s₁, hrun₁, hin⟩ := enter P h harg hrsp
  have hclear : Clear p (base + UInt64.ofNat 8) P.table :=
    ⟨h.state_stack.sub_right (by omega), h.state_table,
      (h.stack_table.symm.sub_right (by omega)).symm⟩
  have hstate : NoOverlap p 200 (s₁.regs .rsp) 8 := by
    rw [hin.rsp]
    exact fun i hi j hj => h.state_stack i hi j (by omega)
  have hbuffer : NoOverlap (base + UInt64.ofNat 8) 200 (s₁.regs .rsp) 8 := by
    rw [hin.rsp]
    exact (noOverlap_start base (by omega) (by omega)).symm
  obtain ⟨s₂, hrun₂, hrdi₂, hrsp₂, hlanes₂, houtside⟩ :=
    permute_run P hclear (hin.elsewhere.loaded h hloaded) hstate hbuffer hin.call
  rw [hin.rsp] at hrsp₂
  rw [hin.rsp, hin.ret] at hrun₂
  obtain ⟨s₃, hrun₃, hlanes, hsaved, hend, hword, helse⟩ :=
    leave P h hrsp hin hrdi₂ hrsp₂ hlanes₂ houtside
  refine ⟨s₃, ?_, hlanes, hend, hsaved, ?_⟩
  · have hsteps : c.prologue.length + 4739 + c.epilogue.length =
        (c.prologue.length + 1) + (4737 + (c.epilogue.length + 1)) := by omega
    rw [hsteps]
    exact Image.run_trans hrun₁ (Image.run_trans hrun₂ hrun₃)
  · intro x hp hbase
    -- The word with the return address is the callee's to write, and has not changed.
    by_cases htop : ∃ i < 8, x = s.regs .rsp + UInt64.ofNat i
    · obtain ⟨i, hi, rfl⟩ := htop
      exact Memory.load_inj hword hi
    · refine helse x hp fun i hi heq => ?_
      by_cases hi' : i < 256 ∨ 264 ≤ i
      · exact hbase i hi hi' heq
      · refine htop ⟨i - 256, by omega, ?_⟩
        have hlit : (256 : UInt64) = UInt64.ofNat 256 := rfl
        have hsum : 256 + (i - 256) = i := by omega
        rw [heq, hrsp, hlit, UInt64.add_assoc, ← UInt64.ofNat_add, hsum]

end

end Asm
end KaspaMiner
