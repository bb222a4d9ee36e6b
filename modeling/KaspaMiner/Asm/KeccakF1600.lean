import KaspaMiner.Lib.X64

/-!
# `asm/keccakf1600_x86-64-*.s`

The permutation as it is linked on x86-64: the same two routines for every platform, but for how
the exported one is called. `elf` and `osx` have the System V convention, `mingw64`, `win64` and
`msvc` the one of Windows. The last is in Intel syntax and has the same instructions as the others
of its kind.

The state is read and written through `rdi + 100`, so that all its lanes are within the reach of a
displacement of one byte; a round goes from the lanes at `rdi` to those at `rsi` and swaps the two.
-/

namespace KaspaMiner
namespace Asm

open Lib.X64 Lib.X64.Reg Lib.X64.Op Lib.X64.Instr Lib.X64.Operand

inductive Symbol where
  | iotas
  deriving DecidableEq

inductive Label where
  | __KeccakF1600
  | loop
  | KeccakF1600
  deriving DecidableEq

open KaspaMiner.Asm.Symbol

/-- The table at `iotas`. Zeros fill the 64 bytes between the last multiple of 256 and it. -/
def iotasTable : List UInt64 := [
  0x0000000000000001, 0x0000000000008082, 0x800000000000808a, 0x8000000080008000,
  0x000000000000808b, 0x0000000080000001, 0x8000000080008081, 0x8000000000008009,
  0x000000000000008a, 0x0000000000000088, 0x0000000080008009, 0x000000008000000a,
  0x000000008000808b, 0x800000000000008b, 0x8000000000008089, 0x8000000000008003,
  0x8000000000008002, 0x8000000000000080, 0x000000000000800a, 0x800000008000000a,
  0x8000000080008081, 0x8000000000008080, 0x0000000080000001, 0x8000000080008008]

/-! ## `__KeccakF1600` -/

/-- Five lanes are kept in registers from one round to the next. -/
def entry : List (Op Symbol) := [
  endbr64,
  movq (mem 60 rdi) rax, movq (mem 68 rdi) rbx, movq (mem 76 rdi) rcx, movq (mem 84 rdi) rdx,
  movq (mem 92 rdi) rbp]

def round : List (Op Symbol) := [
  movq (mem (-100) rdi) r8, movq (mem (-52) rdi) r9, movq (mem (-4) rdi) r10, movq (mem 44 rdi) r11,
  xorq (mem (-84) rdi) rcx, xorq (mem (-76) rdi) rdx, xorq r8 rax, xorq (mem (-92) rdi) rbx,
  xorq (mem (-44) rdi) rcx, xorq (mem (-60) rdi) rax, movq rbp r12, xorq (mem (-68) rdi) rbp,
  xorq r10 rcx, xorq (mem (-20) rdi) rax, xorq (mem (-36) rdi) rdx, xorq r9 rbx,
  xorq (mem (-28) rdi) rbp,
  xorq (mem 36 rdi) rcx, xorq (mem 20 rdi) rax, xorq (mem 4 rdi) rdx, xorq (mem (-12) rdi) rbx,
  xorq (mem 12 rdi) rbp,
  movq rcx r13, rolq 1 rcx, xorq rax rcx, xorq r11 rdx,
  rolq 1 rax, xorq rdx rax, xorq (mem 28 rdi) rbx,
  rolq 1 rdx, xorq rbx rdx, xorq (mem 52 rdi) rbp,
  rolq 1 rbx, xorq rbp rbx,
  rolq 1 rbp, xorq r13 rbp, xorq rcx r9, xorq rdx r10, rolq 44 r9, xorq rbp r11, xorq rax r12,
  rolq 43 r10, xorq rbx r8, movq r9 r13, rolq 21 r11, orq r10 r9, xorq r8 r9, rolq 14 r12,
  xorq (mem 0 r15) r9, leaq 8 r15 r15,
  movq r12 r14, andq r11 r12, movq r9 (mem (-100) rsi), xorq r10 r12, notq r10,
  movq r12 (mem (-84) rsi),
  orq r11 r10, movq (mem 76 rdi) r12, xorq r13 r10, movq r10 (mem (-92) rsi),
  andq r8 r13, movq (mem (-28) rdi) r9, xorq r14 r13, movq (mem (-20) rdi) r10,
  movq r13 (mem (-68) rsi),
  orq r8 r14, movq (mem (-76) rdi) r8, xorq r11 r14, movq (mem 28 rdi) r11,
  movq r14 (mem (-76) rsi),

  xorq rbp r8, xorq rdx r12, rolq 28 r8, xorq rcx r11, xorq rax r9, rolq 61 r12, rolq 45 r11,
  xorq rbx r10, rolq 20 r9, movq r8 r13, orq r12 r8, rolq 3 r10,
  xorq r11 r8, movq r8 (mem (-36) rsi),
  movq r9 r14, andq r13 r9, movq (mem (-92) rdi) r8, xorq r12 r9, notq r12, movq r9 (mem (-28) rsi),
  orq r11 r12, movq (mem (-44) rdi) r9, xorq r10 r12, movq r12 (mem (-44) rsi),
  andq r10 r11, movq (mem 60 rdi) r12, xorq r14 r11, movq r11 (mem (-52) rsi),
  orq r10 r14, movq (mem 4 rdi) r10, xorq r13 r14, movq (mem 52 rdi) r11, movq r14 (mem (-60) rsi),

  xorq rbp r10, xorq rax r11, rolq 25 r10, xorq rdx r9, rolq 8 r11, xorq rbx r12, rolq 6 r9,
  xorq rcx r8, rolq 18 r12, movq r10 r13, andq r11 r10, rolq 1 r8,
  notq r11, xorq r9 r10, movq r10 (mem (-12) rsi),
  movq r12 r14, andq r11 r12, movq (mem (-12) rdi) r10, xorq r13 r12, movq r12 (mem (-4) rsi),
  orq r9 r13, movq (mem 84 rdi) r12, xorq r8 r13, movq r13 (mem (-20) rsi),
  andq r8 r9, xorq r14 r9, movq r9 (mem 12 rsi),
  orq r8 r14, movq (mem (-60) rdi) r9, xorq r11 r14, movq (mem 36 rdi) r11, movq r14 (mem 4 rsi),

  movq (mem (-68) rdi) r8,
  xorq rcx r10, xorq rdx r11, rolq 10 r10, xorq rbx r9, rolq 15 r11, xorq rbp r12, rolq 36 r9,
  xorq rax r8, rolq 56 r12, movq r10 r13, orq r11 r10, rolq 27 r8,
  notq r11, xorq r9 r10, movq r10 (mem 28 rsi),
  movq r12 r14, orq r11 r12, xorq r13 r12, movq r12 (mem 36 rsi),
  andq r9 r13, xorq r8 r13, movq r13 (mem 20 rsi),
  orq r8 r9, xorq r14 r9, movq r9 (mem 52 rsi),
  andq r14 r8, xorq r11 r8, movq r8 (mem 44 rsi),

  xorq (mem (-84) rdi) rdx, xorq (mem (-36) rdi) rbp, rolq 62 rdx, xorq (mem 68 rdi) rcx,
  rolq 55 rbp, xorq (mem 12 rdi) rax, rolq 2 rcx, xorq (mem 20 rdi) rbx, xchgq rsi rdi, rolq 39 rax,
  rolq 41 rbx, movq rdx r13, andq rbp rdx, notq rbp, xorq rcx rdx, movq rdx (mem 92 rdi),
  movq rax r14, andq rbp rax, xorq r13 rax, movq rax (mem 60 rdi),
  orq rcx r13, xorq rbx r13, movq r13 (mem 84 rdi),
  andq rbx rcx, xorq r14 rcx, movq rcx (mem 76 rdi),
  orq r14 rbx, xorq rbp rbx, movq rbx (mem 68 rdi),
  movq rdx rbp, movq r13 rdx]

set_option linter.style.nameCheck false in
def __KeccakF1600 : List (Line Symbol Label) :=
  [.label .__KeccakF1600] ++ entry.map Line.op ++ [.instr (jmp .loop),
  .label .loop] ++ round.map Line.op ++ [.instr (.op (testq 255 r15)), .instr (jnz .loop),
  .instr (.op (leaq (-192) r15 r15)), .instr ret]

/-! ## `KeccakF1600` -/

namespace SysV

def prologue : List (Op Symbol) := [
  endbr64,
  pushq rbx, pushq rbp, pushq r12, pushq r13, pushq r14, pushq r15,
  leaq 100 rdi rdi, subq 200 rsp,
  notq (mem (-92) rdi), notq (mem (-84) rdi), notq (mem (-36) rdi), notq (mem (-4) rdi),
  notq (mem 36 rdi), notq (mem 60 rdi),
  leaRip iotas r15, leaq 100 rsp rsi]

def epilogue : List (Op Symbol) := [
  notq (mem (-92) rdi), notq (mem (-84) rdi), notq (mem (-36) rdi), notq (mem (-4) rdi),
  notq (mem 36 rdi), notq (mem 60 rdi), leaq (-100) rdi rdi,
  leaq 248 rsp r11, movq (mem (-48) r11) r15, movq (mem (-40) r11) r14, movq (mem (-32) r11) r13,
  movq (mem (-24) r11) r12, movq (mem (-16) r11) rbp, movq (mem (-8) r11) rbx, leaq 0 r11 rsp]

end SysV

namespace Win64

def prologue : List (Op Symbol) := [
  endbr64, movq rdi (mem 8 rsp), movq rsi (mem 16 rsp), movq rsp r11, movq rcx rdi,
  pushq rbx, pushq rbp, pushq r12, pushq r13, pushq r14, pushq r15,
  leaq 100 rdi rdi, subq 200 rsp,
  notq (mem (-92) rdi), notq (mem (-84) rdi), notq (mem (-36) rdi), notq (mem (-4) rdi),
  notq (mem 36 rdi), notq (mem 60 rdi),
  leaRip iotas r15, leaq 100 rsp rsi]

def epilogue : List (Op Symbol) := [
  notq (mem (-92) rdi), notq (mem (-84) rdi), notq (mem (-36) rdi), notq (mem (-4) rdi),
  notq (mem 36 rdi), notq (mem 60 rdi), leaq (-100) rdi rdi,
  leaq 248 rsp r11, movq (mem (-48) r11) r15, movq (mem (-40) r11) r14, movq (mem (-32) r11) r13,
  movq (mem (-24) r11) r12, movq (mem (-16) r11) rbp, movq (mem (-8) r11) rbx, leaq 0 r11 rsp,
  movq (mem 8 r11) rdi, movq (mem 16 r11) rsi]

end Win64

/-- The text of an object file. -/
def text (prologue epilogue : List (Op Symbol)) : List (Line Symbol Label) :=
  __KeccakF1600 ++ [.label .KeccakF1600] ++ prologue.map Line.op ++
  [.instr (call .__KeccakF1600)] ++ epilogue.map Line.op ++ [.instr ret]

/-- The text, linked. `.align 256` is in front of the zeros that the table comes after. -/
structure Linked (prologue epilogue : List (Op Symbol)) where
  img : Image Symbol Label
  src_eq : img.src = text prologue epilogue
  laid : img.Laid
  aligned : (img.symbols iotas).toNat % 256 = 64

/-- The table is where it was linked. -/
def Loaded (m : Memory) (table : UInt64) : Prop :=
  ∀ k rc, iotasTable[k]? = some rc → m.load (table + UInt64.ofNat (8 * k)) = rc

end Asm
end KaspaMiner
