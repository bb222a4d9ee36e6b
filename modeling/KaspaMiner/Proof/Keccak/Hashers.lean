import KaspaMiner.Proof.CShake
import KaspaMiner.Proof.Keccak.Exported

/-!
# The permutation and the hashers, as linked

What the routine is for: the state of a hasher goes in, and the first four lanes of what comes out
are the hash.
-/

namespace KaspaMiner
namespace Asm

open Lib (Keccak.Lanes)
open Lib.X64 Lib.X64.Reg

/-! ## A program to run -/

/-- Some place for each part: the text at 2¹², the table at 2¹⁶ + 64. -/
def somewhere (prologue epilogue : List (Op Symbol))
    (hfits : (instrs (text prologue epilogue)).length ≤ 4096) : Linked prologue epilogue where
  img := {
    src := text prologue epilogue
    addr := fun k => UInt64.ofNat (4096 + k)
    symbols := fun _ => 65600 }
  src_eq := rfl
  laid := by
    intro i hi j hj heq
    have hi' : i < 4096 := hi.trans_le hfits
    have hj' : j < 4096 := hj.trans_le hfits
    have hnat := congrArg UInt64.toNat heq
    rw [UInt64.toNat_ofNat', UInt64.toNat_ofNat', Nat.mod_eq_of_lt (by omega),
      Nat.mod_eq_of_lt (by omega)] at hnat
    omega
  aligned := show (65600 : UInt64).toNat % 256 = 64 from rfl

/-- Nothing but the table. -/
def tableOnly : Memory := fun x =>
  (iotasTable.flatMap fun rc => Lib.leBytes 8 rc.toNat)[(x - 65600).toNat]?.getD 0

theorem tableOnly_loaded : Loaded tableOnly 65600 := by
  intro k rc hk
  have hlt : k < 24 := (List.getElem?_eq_some_iff.mp hk).1
  have hall : ∀ k < 24, some (tableOnly.load (65600 + UInt64.ofNat (8 * k))) = iotasTable[k]? := by
    decide +kernel
  exact Option.some.inj ((hall k hlt).trans hk)

/-- A call with the state at 2¹⁷ and the stack at 2¹⁸. -/
def someCall (arg : Reg) : State where
  regs r := if r = arg then 131072 else if r = rsp then 262144 else 0
  zf := false
  mem := tableOnly

theorem someCall_callable {words : ℕ} (hwords : words ≤ 64) :
    Callable words 65600 131072 (262144 - 256) where
  state_stack := noOverlap_of_toNat (by decide) (by
    have : (262144 - 256 : UInt64).toNat = 261888 := rfl
    omega)
  state_table := (noOverlap_of_toNat (by decide) (by decide)).symm
  stack_table := (noOverlap_of_toNat (by decide) (by
    have : (262144 - 256 : UInt64).toNat = 261888 := rfl
    omega)).symm

/-! ## Both of them -/

/-- **The System V routine is Keccak-f[1600].** Called with the address of 25 lanes in `rdi`, the
routine of the `elf` and `osx` files returns to its caller after 4771 instructions, whatever the
lanes are. They have been permuted in place; `rsp` and the registers that belong to the caller are
what they were, and so is all memory but the state and the 256 bytes below the return address. -/
theorem KeccakF1600_sysV (P : Linked SysV.prologue SysV.epilogue) {s : State}
    (hloaded : Loaded s.mem P.table)
    (h : Callable 33 P.table (s.regs .rdi) (s.regs .rsp - 256)) :
    ∃ s', P.img.run 4771 { state := s, rip := P.img.target .KeccakF1600 } =
        some { state := s', rip := s.mem.load (s.regs .rsp) } ∧
      lanesAt s'.mem (s.regs .rdi) = Lib.Keccak.f1600 (lanesAt s.mem (s.regs .rdi)) ∧
      s'.regs .rsp = s.regs .rsp + 8 ∧
      (∀ r ∈ [rbx, rbp, r12, r13, r14, r15], s'.regs r = s.regs r) ∧
      ∀ x, (∀ i < 200, x ≠ s.regs .rdi + UInt64.ofNat i) →
        (∀ i < 256, x ≠ s.regs .rsp - 256 + UInt64.ofNat i) → s'.mem x = s.mem x := by
  obtain ⟨s', hrun, hlanes, hrsp, hsaved, hmem⟩ := call_run (c := sysV) P hloaded h rfl
    (UInt64.sub_add_cancel _ _).symm
  refine ⟨s', hrun, hlanes, hrsp, ?_, ?_⟩
  · intro r hr
    have hall : ∀ r ∈ [rbx, rbp, r12, r13, r14, r15], ∃ q ∈ sysV.saved, q.1 = r := by decide
    obtain ⟨q, hq, rfl⟩ := hall r hr
    exact hsaved q hq
  · intro x hp hbase
    refine hmem x hp fun i hi hor => hbase i ?_
    have : i < 264 := hi
    omega

theorem KeccakF1600_sysV_somewhere :
    let P := somewhere SysV.prologue SysV.epilogue (by decide +kernel)
    ∃ s', P.img.run 4771 { state := someCall rdi, rip := P.img.target .KeccakF1600 } =
        some { state := s', rip := tableOnly.load 262144 } ∧
      lanesAt s'.mem 131072 = Lib.Keccak.f1600 (lanesAt tableOnly 131072) := by
  obtain ⟨s', hrun, hlanes, -⟩ := KeccakF1600_sysV
    (somewhere SysV.prologue SysV.epilogue (by decide +kernel)) (s := someCall rdi) tableOnly_loaded
    (someCall_callable (by decide))
  exact ⟨s', hrun, hlanes⟩

/-- **So is the routine of Windows**, of the `mingw64`, `win64` and `msvc` files: the address comes
in `rcx`, `rdi` and `rsi` belong to the caller as well, and 16 bytes above the return address are
written, which the caller leaves to the routine. -/
theorem KeccakF1600_win64 (P : Linked Win64.prologue Win64.epilogue) {s : State}
    (hloaded : Loaded s.mem P.table)
    (h : Callable 35 P.table (s.regs .rcx) (s.regs .rsp - 256)) :
    ∃ s', P.img.run 4777 { state := s, rip := P.img.target .KeccakF1600 } =
        some { state := s', rip := s.mem.load (s.regs .rsp) } ∧
      lanesAt s'.mem (s.regs .rcx) = Lib.Keccak.f1600 (lanesAt s.mem (s.regs .rcx)) ∧
      s'.regs .rsp = s.regs .rsp + 8 ∧
      (∀ r ∈ [rbx, rbp, rdi, rsi, r12, r13, r14, r15], s'.regs r = s.regs r) ∧
      ∀ x, (∀ i < 200, x ≠ s.regs .rcx + UInt64.ofNat i) →
        (∀ i < 256, x ≠ s.regs .rsp - 256 + UInt64.ofNat i) →
        (∀ i < 16, x ≠ s.regs .rsp + 8 + UInt64.ofNat i) → s'.mem x = s.mem x := by
  obtain ⟨s', hrun, hlanes, hrsp, hsaved, hmem⟩ := call_run (c := win64) P hloaded h rfl
    (UInt64.sub_add_cancel _ _).symm
  refine ⟨s', hrun, hlanes, hrsp, ?_, ?_⟩
  · intro r hr
    have hall : ∀ r ∈ [rbx, rbp, rdi, rsi, r12, r13, r14, r15], ∃ q ∈ win64.saved, q.1 = r := by
      decide
    obtain ⟨q, hq, rfl⟩ := hall r hr
    exact hsaved q hq
  · intro x hp hbase hshadow
    refine hmem x hp fun i hi hor heq => ?_
    have hlt : i < 280 := hi
    rcases hor with hlow | hhigh
    · exact hbase i hlow heq
    · refine hshadow (i - 264) (by omega) ?_
      have hrsp' : s.regs .rsp + 8 = s.regs .rsp - 256 + UInt64.ofNat 264 := by
        rw [UInt64.sub_eq_add_neg, UInt64.add_assoc]
        rfl
      have hsum : 264 + (i - 264) = i := by omega
      rw [heq, hrsp', UInt64.add_assoc, ← UInt64.ofNat_add, hsum]

theorem KeccakF1600_win64_somewhere :
    let P := somewhere Win64.prologue Win64.epilogue (by decide +kernel)
    ∃ s', P.img.run 4777 { state := someCall rcx, rip := P.img.target .KeccakF1600 } =
        some { state := s', rip := tableOnly.load 262144 } ∧
      lanesAt s'.mem 131072 = Lib.Keccak.f1600 (lanesAt tableOnly 131072) := by
  obtain ⟨s', hrun, hlanes, -⟩ := KeccakF1600_win64
    (somewhere Win64.prologue Win64.epilogue (by decide +kernel)) (s := someCall rcx)
    tableOnly_loaded (someCall_callable (by decide))
  exact ⟨s', hrun, hlanes⟩

/-! ## The hashers -/

/-- `keccak::f1600` as it is on x86-64: what a call of the routine in the state `s` leaves of the
lanes that its argument points at, once it has come back. Irreducible, as it is thousands of
instructions long. -/
@[irreducible] def Linked.f1600 (c : Convention) (L : Linked c.prologue c.epilogue) (s : State) :
    Option Keccak.Lanes :=
  match L.img.run (c.prologue.length + 4739 + c.epilogue.length)
      { state := s, rip := L.img.target .KeccakF1600 } with
  | some m =>
    if m.rip = s.mem.load (s.regs .rsp) then some (lanesAt m.state.mem (s.regs c.arg)) else none
  | none => none

/-- A state in which a caller may hand the lanes `a` over. -/
structure Call (c : Convention) (L : Linked c.prologue c.epilogue) (a : Keccak.Lanes) (s : State) :
    Prop where
  loaded : Loaded s.mem L.table
  callable : Callable c.words L.table (s.regs c.arg) (s.regs .rsp - 256)
  lanes : lanesAt s.mem (s.regs c.arg) = a

theorem Call.f1600 {c : Convention} {L : Linked c.prologue c.epilogue} {a : Keccak.Lanes}
    {s : State} (h : Call c L a s) : L.f1600 c s = some (Lib.Keccak.f1600 a) := by
  obtain ⟨s', hrun, hlanes, -⟩ := call_run L h.loaded h.callable rfl
    (UInt64.sub_add_cancel _ _).symm
  unfold Linked.f1600
  rw [hrun]
  show (if _ then some (lanesAt s'.mem (s.regs c.arg)) else none) = _
  rw [if_pos rfl, hlanes, h.lanes]

/-- **The hashes of the linked program**, under either convention. When each value of
`keccak::f1600` is what a call of the routine left of its argument, `finalize_with_nonce` and `hash`
are, read little-endian, the first 32 bytes of cSHAKE256 of their messages: of the pre-pow hash, the
timestamp, 32 zeros and the nonce under `ProofOfWorkHash`, and of any 32 bytes under `HeavyHash`. -/
theorem hashers_linked (c : Convention) (L : Linked c.prologue c.epilogue) {P : Prims}
    (hf : ∀ a, ∃ s, Call c L a s ∧ L.f1600 c s = some (P.f1600 a)) :
    (∀ (prePowHash : Hash) (timestamp nonce : UInt64),
      ((Pow.PowHasher.new prePowHash timestamp).finalizeWithNonce P nonce).toLeBytes.toList =
        Lib.CShake.cShake256 Lib.Keccak.f1600 (prePowHash.toLeBytes.toList ++ u64Bytes timestamp ++
          List.replicate 32 0 ++ u64Bytes nonce) 32 [] Pow.PROOF_OF_WORK_DOMAIN) ∧
    ∀ inHash : Hash, (Pow.HeavyHasher.hash P inHash).toLeBytes.toList =
      Lib.CShake.cShake256 Lib.Keccak.f1600 inHash.toLeBytes.toList 32 []
        Pow.HEAVY_HASH_DOMAIN := by
  have hP : P.f1600 = Lib.Keccak.f1600 := by
    funext a
    obtain ⟨s, hcall, hs⟩ := hf a
    exact Option.some.inj (hs.symm.trans hcall.f1600)
  exact ⟨Pow.PowHasher.finalizeWithNonce_eq hP, Pow.HeavyHasher.hash_eq hP⟩

/-- The bytes of the lanes, one after the other. -/
def laneByte (a : Keccak.Lanes) (j : ℕ) : UInt8 :=
  (u64Bytes (a.toList.getD (j / 8) 0)).getD (j % 8) 0

/-- The call that hands over the lanes `a`. -/
def callWith (arg : Reg) (a : Keccak.Lanes) : State where
  regs := (someCall arg).regs
  zf := false
  mem x := if (x - 131072).toNat < 200 then laneByte a (x - 131072).toNat else tableOnly x

theorem callWith_lanes (arg : Reg) (a : Keccak.Lanes) :
    lanesAt (callWith arg a).mem 131072 = a := by
  refine Vector.ext fun k hk => ?_
  rw [lanesAt, Vector.getElem_ofFn]
  have hbytes : ((List.range 8).map fun i =>
      (callWith arg a).mem (131072 + UInt64.ofNat (8 * k) + UInt64.ofNat i)) = u64Bytes a[k] := by
    refine List.ext_getElem (by simp) fun i hi _ => ?_
    have hi : i < 8 := by simpa using hi
    have hidx : (131072 + UInt64.ofNat (8 * k) + UInt64.ofNat i - 131072).toNat = 8 * k + i := by
      rw [UInt64.add_assoc, ← UInt64.ofNat_add, UInt64.add_comm, UInt64.add_sub_cancel,
        UInt64.toNat_ofNat']
      exact Nat.mod_eq_of_lt (by omega)
    have hdiv : (8 * k + i) / 8 = k := by omega
    have hmod : (8 * k + i) % 8 = i := by omega
    have hlane : a.toList.getD k 0 = a[k] := by simp [List.getD, hk]
    rw [List.getElem_map, List.getElem_range]
    show (if _ then _ else _) = _
    rw [hidx, if_pos (by omega), laneByte, hdiv, hmod, hlane]
    exact List.getD_eq_getElem _ _ _
  have hfit : a[k].toNat % 256 ^ 8 = a[k].toNat := Nat.mod_eq_of_lt a[k].toNat_lt
  show Memory.load _ (131072 + UInt64.ofNat (8 * k)) = a[k]
  unfold Memory.load
  rw [hbytes, u64Bytes, Lib.leValue_leBytes, hfit, UInt64.ofNat_toNat]

theorem callWith_loaded (arg : Reg) (a : Keccak.Lanes) : Loaded (callWith arg a).mem 65600 := by
  intro k rc hk
  have hlt : k < 24 := (List.getElem?_eq_some_iff.mp hk).1
  rw [← tableOnly_loaded k rc hk]
  refine Memory.load_congr fun i hi => if_neg ?_
  rw [UInt64.toNat_sub, UInt64.toNat_add, UInt64.toNat_add, UInt64.toNat_ofNat',
    UInt64.toNat_ofNat']
  have htable : (65600 : UInt64).toNat = 65600 := rfl
  have hstate : (131072 : UInt64).toNat = 131072 := rfl
  omega

/-- The System V routine, somewhere in memory. -/
def linkedSomewhere : Linked sysV.prologue sysV.epilogue :=
  somewhere SysV.prologue SysV.epilogue (by decide +kernel)

theorem callWith_call (a : Keccak.Lanes) : Call sysV linkedSomewhere a (callWith rdi a) :=
  ⟨callWith_loaded rdi a, someCall_callable (by decide), callWith_lanes rdi a⟩

theorem linkedSomewhere_isSome (a : Keccak.Lanes) :
    (linkedSomewhere.f1600 sysV (callWith rdi a)).isSome := by
  rw [(callWith_call a).f1600]
  rfl

/-- The program that calls it. -/
def linkedPrims : Prims :=
  { Pow.benchPrims with
    f1600 := fun a => (linkedSomewhere.f1600 sysV (callWith rdi a)).get (linkedSomewhere_isSome a) }

theorem hashers_linked_somewhere :
    ((Pow.PowHasher.new (Uint256.fromLeBytes Pow.benchDigest) 5435345234).finalizeWithNonce
      linkedPrims 432432432).toLeBytes.toList =
        Lib.CShake.cShake256 Lib.Keccak.f1600
          ((Uint256.fromLeBytes Pow.benchDigest).toLeBytes.toList ++ u64Bytes 5435345234 ++
            List.replicate 32 0 ++ u64Bytes 432432432) 32 [] Pow.PROOF_OF_WORK_DOMAIN ∧
    (Pow.HeavyHasher.hash linkedPrims (Uint256.fromLeBytes Pow.benchDigest)).toLeBytes.toList =
      Lib.CShake.cShake256 Lib.Keccak.f1600 (Uint256.fromLeBytes Pow.benchDigest).toLeBytes.toList
        32 [] Pow.HEAVY_HASH_DOMAIN := by
  have hhashers := hashers_linked sysV linkedSomewhere (P := linkedPrims) fun a =>
    ⟨callWith rdi a, callWith_call a, (Option.some_get (linkedSomewhere_isSome a)).symm⟩
  exact ⟨hhashers.1 _ _ _, hhashers.2 _⟩

end Asm
end KaspaMiner
