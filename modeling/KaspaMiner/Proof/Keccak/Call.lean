import KaspaMiner.Proof.Keccak.Round

/-!
# A call of the linked permutation

`__KeccakF1600` does the rounds and returns; `KeccakF1600` is what the program calls. The exported
routine differs between the two conventions in what it does before and after, so both are instances
of one statement about a prologue and an epilogue that pass their checks.
-/

namespace KaspaMiner
namespace Asm

open Lib (Keccak.Lanes)
open Lib.X64 Lib.Bitwise Lib.X64.Reg

/-! ## The text -/

theorem entry_length : entry.length = 6 := rfl

theorem round_length : round.length = 195 := by decide +kernel

namespace Linked
variable {prologue epilogue : List (Op Symbol)} (P : Linked prologue epilogue)

def table : UInt64 := P.img.symbols .iotas

/-- After the label `KeccakF1600`. -/
def exported (prologue epilogue : List (Op Symbol)) : List (Instr Symbol Label) :=
  prologue.map .op ++ .call .__KeccakF1600 :: (epilogue.map .op ++ [.ret])

theorem code_eq : P.img.code = entry.map .op ++ .jmp .loop :: (round.map .op ++
    .op (.testq 255 r15) :: .jnz .loop :: .op (.leaq (-192) r15 r15) :: .ret ::
      exported prologue epilogue) := by
  unfold Image.code
  rw [P.src_eq]
  simp [text, __KeccakF1600, exported]

theorem drop_entry : P.img.code.drop 0 = entry.map .op ++ .jmp .loop :: P.img.code.drop 7 := by
  rw [P.code_eq]
  rfl

theorem drop_jmp : P.img.code.drop 6 = .jmp .loop :: P.img.code.drop 7 := by
  rw [P.code_eq]
  rfl

theorem drop_loop : P.img.code.drop 7 = round.map .op ++ .op (.testq 255 r15) :: .jnz .loop ::
    .op (.leaq (-192) r15 r15) :: .ret :: exported prologue epilogue := by
  rw [P.code_eq]
  rfl

theorem drop_exported : P.img.code.drop 206 = exported prologue epilogue := by
  rw [P.code_eq]
  rfl

theorem target_permute : P.img.target .__KeccakF1600 = P.img.addr 0 := by
  unfold Image.target
  rw [P.src_eq]
  simp [text, __KeccakF1600]

theorem target_loop : P.img.target .loop = P.img.addr 7 := by
  unfold Image.target
  rw [P.src_eq]
  simp [text, __KeccakF1600, entry_length]

theorem target_exported : P.img.target .KeccakF1600 = P.img.addr 206 := by
  unfold Image.target
  rw [P.src_eq]
  simp [text, __KeccakF1600, entry_length, round_length]

end Linked

/-! ## The loop -/

/-- The table starts 64 bytes after a multiple of 256, so the last byte of the address after a
constant is zero after the last one only. -/
theorem last_byte {table : UInt64} (haligned : table.toNat % 256 = 64) {k : ℕ} (hk : k ≤ 24) :
    (((table + UInt64.ofNat (8 * k)) &&& 255) == 0) = decide (k = 24) := by
  have hand : ((table + UInt64.ofNat (8 * k)) &&& 255).toNat = (64 + 8 * k) % 256 := by
    rw [UInt64.toNat_and, UInt64.toNat_add, UInt64.toNat_ofNat']
    show _ &&& (2 ^ 8 - 1) = _
    rw [Nat.and_two_pow_sub_one_eq_mod]
    omega
  rw [Bool.eq_iff_iff, beq_iff_eq, decide_eq_true_eq, ← UInt64.toNat_inj, hand]
  constructor
  · intro h0
    have hmod : (64 + 8 * k) % 256 = 0 := h0
    omega
  · rintro rfl
    rfl

theorem AtRound.flags {src dst table : UInt64} {k : ℕ} {a : Keccak.Lanes} {s : State}
    (h : AtRound src dst table k a s) (x : UInt64) : AtRound src dst table k a (s.flags x) :=
  ⟨h.rdi, h.rsi, h.r15, h.lanes, ⟨h.carries.rax, h.carries.rbx, h.carries.rcx, h.carries.rdx,
    h.carries.rbp⟩⟩

namespace Outside
variable {src dst : UInt64} {m m' m'' : Memory}

theorem refl (src dst : UInt64) (m : Memory) : Outside src dst m m := fun _ _ _ => rfl

theorem trans (h : Outside src dst m m') (h' : Outside src dst m' m'') : Outside src dst m m'' :=
  fun x hsrc hdst => (h' x hsrc hdst).trans (h x hsrc hdst)

theorem swap (h : Outside src dst m m') : Outside dst src m m' :=
  fun x hdst hsrc => h x hsrc hdst

/-- A word somewhere else. -/
theorem load (h : Outside src dst m m') {x : UInt64} (hsrc : NoOverlap src 200 x 8)
    (hdst : NoOverlap dst 200 x 8) : m'.load x = m.load x :=
  Memory.load_congr fun i hi =>
    h _ (fun j hj heq => hsrc j hj i hi heq.symm) (fun j hj heq => hdst j hj i hi heq.symm)

/-- The table survives. -/
theorem loaded {table : UInt64} (h : Outside src dst m m') (hclear : Clear src dst table)
    (hm : Loaded m table) : Loaded m' table := by
  intro k rc hk
  have hlt : k < 24 := (List.getElem?_eq_some_iff.mp hk).1
  rw [h.load (hclear.src.sub_right (by omega)) (hclear.dst.sub_right (by omega))]
  exact hm k rc hk

end Outside

section
variable {prologue epilogue : List (Op Symbol)} (P : Linked prologue epilogue)

/-- One round and the test after it. -/
theorem iteration {src dst : UInt64} {k : ℕ} {rc : UInt64} {a : Keccak.Lanes} {s : State}
    (hclear : Clear src dst P.table) (hloaded : Loaded s.mem P.table)
    (hrc : iotasTable[k]? = some rc) (h : AtRound src dst P.table k a s) :
    ∃ s', P.img.run 197 { state := s, rip := P.img.addr 7 } =
        some { state := s', rip := if k + 1 = 24 then P.img.addr 204 else P.img.addr 7 } ∧
      AtRound dst src P.table (k + 1) (keccakRound rc a) s' ∧
      s'.regs .rsp = s.regs .rsp ∧ Outside src dst s.mem s'.mem := by
  have hk : k < 24 := (List.getElem?_eq_some_iff.mp hrc).1
  obtain ⟨hnext, hrsp, houtside⟩ := round_exec hclear hk h P.img.symbols
  rw [hloaded k rc hrc] at hnext
  have hround := Image.run_exec P.laid P.drop_loop s
  have htest := Image.drop_block P.drop_loop
  rw [List.length_map, round_length] at htest
  have hjnz := Image.drop_block (b := [_]) htest
  rw [round_length] at hround
  generalize exec P.img.symbols round s = s₁ at hround hnext hrsp houtside
  -- The table ends at a multiple of 256, which is what the test looks for.
  have hzf : (s₁.regs .r15 &&& 255 == 0) = decide (k + 1 = 24) := by
    rw [hnext.r15]
    exact last_byte P.aligned (by omega)
  refine ⟨s₁.flags (s₁.regs .r15 &&& 255), ?_, hnext.flags _, hrsp, houtside⟩
  refine Image.run_trans (k := 2) hround (Image.run_trans (n := 1) (k := 1)
    (Image.run_one P.laid htest s₁) ?_)
  refine (Image.run_one P.laid hjnz _).trans ?_
  simp only [Image.execInstr, Op.exec, State.flags, hzf, decide_eq_true_eq, P.target_loop]
  rfl

/-- **The loop**, from any round on. -/
theorem loop_run (n : ℕ) : ∀ {src dst : UInt64} {k : ℕ} {a : Keccak.Lanes} {s : State},
    k + (n + 1) = 24 → Clear src dst P.table → Loaded s.mem P.table →
    AtRound src dst P.table k a s →
    ∃ s', P.img.run ((n + 1) * 197) { state := s, rip := P.img.addr 7 } =
        some { state := s', rip := P.img.addr 204 } ∧
      AtRound (Prod.swap^[n + 1] (src, dst)).1 (Prod.swap^[n + 1] (src, dst)).2 P.table 24
        ((iotasTable.drop k).foldl (fun a rc => keccakRound rc a) a) s' ∧
      s'.regs .rsp = s.regs .rsp ∧ Outside src dst s.mem s'.mem := by
  have hlen : iotasTable.length = 24 := rfl
  induction n with
  | zero =>
    intro src dst k a s hk hclear hloaded h
    have hlt : k < iotasTable.length := by omega
    obtain ⟨s₁, hrun, hnext, hrsp, houtside⟩ :=
      iteration P hclear hloaded (List.getElem?_eq_getElem hlt) h
    have hlast : k + 1 = 24 := by omega
    rw [if_pos hlast] at hrun
    rw [hlast] at hnext
    refine ⟨s₁, hrun, ?_, hrsp, houtside⟩
    rw [List.drop_eq_getElem_cons hlt, List.drop_of_length_le (by omega)]
    exact hnext
  -- After a round the buffers have changed places, and the rest of the rounds is from there.
  | succ n ih =>
    intro src dst k a s hk hclear hloaded h
    have hlt : k < iotasTable.length := by omega
    obtain ⟨s₁, hrun, hnext, hrsp, houtside⟩ :=
      iteration P hclear hloaded (List.getElem?_eq_getElem hlt) h
    have hmore : k + 1 ≠ 24 := by omega
    rw [if_neg hmore] at hrun
    obtain ⟨s₂, hrun', hlast, hrsp', houtside'⟩ :=
      ih (by omega) hclear.swap (houtside.loaded hclear hloaded) hnext
    refine ⟨s₂, ?_, ?_, hrsp'.trans hrsp, houtside.trans houtside'.swap⟩
    · rw [Nat.succ_mul, Nat.add_comm]
      exact Image.run_trans hrun hrun'
    · rw [List.drop_eq_getElem_cons hlt, List.foldl_cons, Function.iterate_succ_apply]
      exact hlast

/-! ## `__KeccakF1600` -/

def entryPre : View := (View.fresh [25]).know [(rdi, .ptr 0 100)]

def entryPost : Assertion where
  regs := [(rdi, .ptr 0 100), (rsi, .word rsi.var), (r15, .word r15.var), (rsp, .word rsp.var)] ++
    carried lanesVar
  bufs := []

theorem entry_check : check (fun _ => none) [false] entryPre entry entryPost = true := by
  decide +kernel

/-- What `__KeccakF1600` is called with. -/
structure AtCall (st tmp table : UInt64) (a : Keccak.Lanes) (s : State) : Prop where
  rdi : s.regs .rdi = st + 100
  rsi : s.regs .rsi = tmp + 100
  r15 : s.regs .r15 = table
  lanes : lanesAt s.mem st = code a

theorem entry_exec {st tmp table : UInt64} {a : Keccak.Lanes} {s : State}
    (h : AtCall st tmp table a s) (symbols : Symbol → UInt64) :
    AtRound st tmp table 0 a (exec symbols entry s) ∧
      (exec symbols entry s).regs .rsp = s.regs .rsp ∧ (exec symbols entry s).mem = s.mem := by
  let L : Layout := ⟨[⟨st, 25, false⟩], by simp, by simp⟩
  have hfresh : Shows L (s.env L) (.fresh [25]) s := Shows.fresh L s
  have hlanes : lanesVar.eval (s.env L) = code a := by
    obtain ⟨B, hB, hholds⟩ := hfresh.bufs 0 lanesVar.toList (by decide)
    cases hB
    rw [← h.lanes, ← lanesAt_of_holds hholds]
  have hpre : Shows L (s.env L) entryPre s := by
    refine Shows.know ?_ hfresh
    intro p hp
    obtain rfl := List.mem_singleton.mp hp
    exact h.rdi
  have hchecked : entryPost.Holds L (s.env L) (exec symbols entry s) ∧
      Frame L s.mem (exec symbols entry s).mem := check_sound (by simp) hpre entry_check
  obtain ⟨⟨hregs, -⟩, hframe⟩ := hchecked
  have hmem : (exec symbols entry s).mem = s.mem := by
    funext x
    refine hframe x ?_
    intro B hB hw
    obtain rfl := List.mem_singleton.mp hB
    cases hw
  have hreg : ∀ r x, (r, x) ∈ entryPost.regs → (exec symbols entry s).regs r = x.eval L (s.env L) :=
    fun r x hmem => hregs (r, x) hmem
  have hr15 := (hreg r15 (.word r15.var) (by simp [entryPost])).trans h.r15
  refine ⟨⟨hreg _ (.ptr 0 100) (by simp [entryPost]),
    (hreg _ (.word rsi.var) (by simp [entryPost])).trans h.rsi, hr15.trans (UInt64.add_zero _).symm,
    by rw [hmem, h.lanes], ?_⟩, hreg _ (.word rsp.var) (by simp [entryPost]), hmem⟩
  rw [← hlanes, carries_iff (L := L)]
  exact fun p hp => hregs p (List.mem_append_right _ hp)

/-- **The inner routine.** It permutes the lanes in place and returns. -/
theorem permute_run {st tmp : UInt64} {a : Keccak.Lanes} {s : State}
    (hclear : Clear st tmp P.table) (hloaded : Loaded s.mem P.table)
    (hst : NoOverlap st 200 (s.regs .rsp) 8) (htmp : NoOverlap tmp 200 (s.regs .rsp) 8)
    (h : AtCall st tmp P.table a s) :
    ∃ s', P.img.run 4737 { state := s, rip := P.img.target .__KeccakF1600 } =
        some { state := s', rip := s.mem.load (s.regs .rsp) } ∧
      s'.regs .rdi = st + 100 ∧ s'.regs .rsp = s.regs .rsp + 8 ∧
      lanesAt s'.mem st = code (Lib.Keccak.f1600 a) ∧ Outside st tmp s.mem s'.mem := by
  obtain ⟨hstart, hrsp₁, hmem₁⟩ := entry_exec h P.img.symbols
  have hentry := Image.run_exec P.laid P.drop_entry s
  rw [entry_length] at hentry
  generalize exec P.img.symbols entry s = s₁ at hentry hstart hrsp₁ hmem₁
  -- Twenty-four rounds is an even number, so the lanes are back in the first buffer.
  obtain ⟨s₂, hloop, hend, hrsp₂, houtside⟩ :=
    loop_run P 23 (by omega) hclear (hmem₁ ▸ hloaded) hstart
  rw [hmem₁] at houtside
  have hleaq := Image.drop_block P.drop_loop
  rw [List.length_map, round_length] at hleaq
  have hleaq := Image.drop_block (b := [_, _]) hleaq
  have hret := Image.drop_block (b := [_]) hleaq
  let s₃ : State := (Op.leaq (-192) r15 r15).exec P.img.symbols s₂
  refine ⟨{ s₃ with regs := Function.update s₃.regs .rsp (s₃.regs .rsp + 8) }, ?_, ?_, ?_, ?_, ?_⟩
  · have hjmp := Image.run_one P.laid P.drop_jmp s₁
    have hleaq := Image.run_one P.laid hleaq s₂
    have hret := Image.run_one P.laid hret s₃
    have hword : s₃.mem.load (s₃.regs .rsp) = s.mem.load (s.regs .rsp) := by
      show s₂.mem.load (s₂.regs .rsp) = _
      rw [hrsp₂, hrsp₁]
      exact houtside.load hst htmp
    simp only [Image.execInstr, P.target_loop] at hjmp
    simp only [Image.execInstr, hword] at hret
    rw [P.target_permute]
    show P.img.run (6 + (1 + ((23 + 1) * 197 + (1 + 1)))) _ = _
    exact Image.run_trans hentry (Image.run_trans hjmp (Image.run_trans hloop
      (Image.run_trans hleaq hret)))
  · exact hend.rdi
  · show s₂.regs .rsp + 8 = _
    rw [hrsp₂, hrsp₁]
  · exact hend.lanes
  · exact houtside

end

end Asm
end KaspaMiner
