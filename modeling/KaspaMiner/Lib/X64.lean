import Mathlib.Data.List.Infix
import KaspaMiner.Lib.Bitwise
import KaspaMiner.Lib.Radix

/-!
# A fragment of x86-64

What a routine of integer code is made of: moves, bitwise operations, rotations and pushes of
64-bit words, jumps and calls. Operands are in the order of the AT&T syntax, the destination last.
Memory is flat and consists of bytes; a word may be anywhere in it.

A program is a list of lines. Where its instructions end up, and where the data is that they name,
is up to whoever links it (`Image`). A `call` pushes a real address and a `ret` goes wherever the
word on the stack says, out of the image as well.
-/

namespace KaspaMiner
namespace Lib
namespace X64

open Bitwise (rotateLeft)

inductive Reg where
  | rax | rbx | rcx | rdx | rsi | rdi | rbp | rsp | r8 | r9 | r10 | r11 | r12 | r13 | r14 | r15
  deriving DecidableEq

/-! ## Memory -/

abbrev Memory := UInt64 → UInt8

namespace Memory

/-- The eight bytes at an address, the least significant first. -/
def load (m : Memory) (a : UInt64) : UInt64 :=
  UInt64.ofNat (leValue ((List.range 8).map fun i => m (a + UInt64.ofNat i)))

def store (m : Memory) (a v : UInt64) : Memory := fun x =>
  (leBytes 8 v.toNat)[(x - a).toNat]?.getD (m x)

theorem store_apart {m : Memory} {a v x : UInt64} (h : ∀ i < 8, x ≠ a + UInt64.ofNat i) :
    m.store a v x = m x := by
  have hge : 8 ≤ (x - a).toNat := by
    by_contra hlt
    refine h (x - a).toNat (by omega) ?_
    rw [UInt64.ofNat_toNat, UInt64.add_comm, UInt64.sub_add_cancel]
  unfold store
  rw [List.getElem?_eq_none (by rw [leBytes_length]; exact hge)]
  rfl

theorem store_at (m : Memory) (a v : UInt64) {i : ℕ} (hi : i < 8) :
    m.store a v (a + UInt64.ofNat i) = (leBytes 8 v.toNat)[i]?.getD 0 := by
  have hidx : (a + UInt64.ofNat i - a).toNat = i := by
    rw [UInt64.add_comm, UInt64.add_sub_cancel, UInt64.toNat_ofNat']
    exact Nat.mod_eq_of_lt (by omega)
  unfold store
  rw [hidx, List.getElem?_eq_getElem (by rw [leBytes_length]; exact hi)]
  rfl

theorem load_congr {m m' : Memory} {a : UInt64}
    (h : ∀ i < 8, m' (a + UInt64.ofNat i) = m (a + UInt64.ofNat i)) : m'.load a = m.load a := by
  unfold load
  refine congrArg (fun bs => UInt64.ofNat (leValue bs)) (List.map_congr_left ?_)
  intro i hi
  exact h i (List.mem_range.mp hi)

/-- A word tells its bytes. -/
theorem load_inj {m m' : Memory} {a : UInt64} (h : m'.load a = m.load a) {i : ℕ} (hi : i < 8) :
    m' (a + UInt64.ofNat i) = m (a + UInt64.ofNat i) := by
  have hlt : ∀ m : Memory,
      leValue ((List.range 8).map fun i => m (a + UInt64.ofNat i)) < 2 ^ 64 := by
    intro m
    have hbound := leValue_lt ((List.range 8).map fun i => m (a + UInt64.ofNat i))
    rw [List.length_map, List.length_range] at hbound
    exact hbound
  have hvalue := congrArg UInt64.toNat h
  unfold load at hvalue
  rw [UInt64.toNat_ofNat', UInt64.toNat_ofNat', Nat.mod_eq_of_lt (hlt m'),
    Nat.mod_eq_of_lt (hlt m)] at hvalue
  have hbytes := leValue_inj (by simp) hvalue
  exact List.map_inj_left.mp hbytes i (List.mem_range.mpr hi)

theorem load_store (m : Memory) (a v : UInt64) : (m.store a v).load a = v := by
  have hbytes : ((List.range 8).map fun i => m.store a v (a + UInt64.ofNat i)) =
      leBytes 8 v.toNat := by
    refine List.ext_getElem? ?_
    intro i
    rw [List.getElem?_map]
    by_cases hi : i < 8
    · rw [List.getElem?_range hi, Option.map_some, store_at m a v hi,
        List.getElem?_eq_getElem (by rw [leBytes_length]; exact hi)]
      rfl
    · rw [List.getElem?_eq_none (by rw [List.length_range]; omega),
        List.getElem?_eq_none (by rw [leBytes_length]; omega)]
      rfl
  have hfit : v.toNat % 256 ^ 8 = v.toNat := Nat.mod_eq_of_lt v.toNat_lt
  unfold load
  rw [hbytes, leValue_leBytes, hfit, UInt64.ofNat_toNat]

/-- Two words that share no byte. -/
def Apart (a b : UInt64) : Prop :=
  ∀ i < 8, ∀ j < 8, a + UInt64.ofNat i ≠ b + UInt64.ofNat j

theorem load_store_apart {m : Memory} {a b v : UInt64} (h : Apart a b) :
    (m.store b v).load a = m.load a :=
  load_congr fun i hi => store_apart (h i hi)

end Memory

/-! ## Instructions -/

/-- Where a word is read or written: a register, or `disp(base)`. -/
inductive Operand where
  | reg (r : Reg)
  | mem (disp : ℤ) (base : Reg)
  deriving DecidableEq

instance : Coe Reg Operand := ⟨.reg⟩

/-- The instructions that go on to the next one. `S` are the symbols of the data. -/
inductive Op (S : Type) where
  | movq (src dst : Operand)
  | xorq (src dst : Operand)
  | orq (src dst : Operand)
  | andq (src dst : Operand)
  | notq (dst : Operand)
  | rolq (n : ℕ) (dst : Reg)
  | leaq (disp : ℤ) (base dst : Reg)
  /-- `leaq sym(%rip),dst` -/
  | leaRip (sym : S) (dst : Reg)
  | xchgq (a b : Reg)
  | subq (imm : UInt64) (dst : Reg)
  | testq (imm : UInt64) (dst : Reg)
  | pushq (src : Reg)
  | endbr64
  deriving DecidableEq

inductive Instr (S L : Type) where
  | op (o : Op S)
  | jmp (l : L)
  | jnz (l : L)
  | call (l : L)
  | ret
  deriving DecidableEq

inductive Line (S L : Type) where
  | label (l : L)
  | instr (i : Instr S L)

/-- A line of straight-line code. -/
def Line.op {S L : Type} (o : Op S) : Line S L := .instr (.op o)

/-- The instructions of a list of lines. -/
def instrs {S L : Type} (src : List (Line S L)) : List (Instr S L) :=
  src.filterMap fun
    | .label _ => none
    | .instr i => some i

/-- A label stands for the instruction after it. -/
def position {S L : Type} [DecidableEq L] (l : L) : List (Line S L) → ℕ
  | [] => 0
  | .label l' :: src => if l' = l then 0 else position l src
  | .instr _ :: src => position l src + 1

section
variable {S L : Type}

@[simp] theorem instrs_nil : instrs ([] : List (Line S L)) = [] := rfl

@[simp] theorem instrs_label (l : L) (src : List (Line S L)) :
    instrs (.label l :: src) = instrs src := rfl

@[simp] theorem instrs_instr (i : Instr S L) (src : List (Line S L)) :
    instrs (.instr i :: src) = i :: instrs src := rfl

@[simp] theorem instrs_append (src src' : List (Line S L)) :
    instrs (src ++ src') = instrs src ++ instrs src' := List.filterMap_append

@[simp] theorem instrs_ops (ops : List (Op S)) :
    instrs (ops.map (Line.op (L := L))) = ops.map .op := by
  induction ops with
  | nil => rfl
  | cons o ops ih => exact congrArg (.op o :: ·) ih

variable [DecidableEq L]

@[simp] theorem position_label (l l' : L) (src : List (Line S L)) :
    position l (.label l' :: src) = if l' = l then 0 else position l src := rfl

@[simp] theorem position_instr (l : L) (i : Instr S L) (src : List (Line S L)) :
    position l (.instr i :: src) = position l src + 1 := rfl

@[simp] theorem position_ops (l : L) (ops : List (Op S)) (src : List (Line S L)) :
    position l (ops.map Line.op ++ src) = ops.length + position l src := by
  induction ops with
  | nil => exact (Nat.zero_add _).symm
  | cons o ops ih =>
    show position l (ops.map Line.op ++ src) + 1 = _
    rw [ih, List.length_cons]
    omega

end

/-! ## What they do -/

structure State where
  regs : Reg → UInt64
  /-- The zero flag. -/
  zf : Bool
  mem : Memory

namespace State

def addr (s : State) (disp : ℤ) (base : Reg) : UInt64 := s.regs base + UInt64.ofInt disp

def read (s : State) : Operand → UInt64
  | .reg r => s.regs r
  | .mem disp base => s.mem.load (s.addr disp base)

def write (s : State) (v : UInt64) : Operand → State
  | .reg r => { s with regs := Function.update s.regs r v }
  | .mem disp base => { s with mem := s.mem.store (s.addr disp base) v }

/-- The result of an operation that sets the flags. -/
def flags (s : State) (v : UInt64) : State := { s with zf := v == 0 }

def push (s : State) (v : UInt64) : State :=
  { s with
    regs := Function.update s.regs .rsp (s.regs .rsp - 8)
    mem := s.mem.store (s.regs .rsp - 8) v }

end State

variable {S L : Type}

def Op.exec (symbols : S → UInt64) (s : State) : Op S → State
  | movq src dst => s.write (s.read src) dst
  | xorq src dst =>
    let v := s.read dst ^^^ s.read src
    (s.write v dst).flags v
  | orq src dst =>
    let v := s.read dst ||| s.read src
    (s.write v dst).flags v
  | andq src dst =>
    let v := s.read dst &&& s.read src
    (s.write v dst).flags v
  | notq dst => s.write (~~~ s.read dst) dst
  | rolq n dst => s.write (rotateLeft (s.regs dst) n) dst
  | leaq disp base dst => s.write (s.addr disp base) dst
  | leaRip sym dst => s.write (symbols sym) dst
  | xchgq a b => (s.write (s.regs b) a).write (s.regs a) b
  | subq imm dst =>
    let v := s.regs dst - imm
    (s.write v dst).flags v
  | testq imm dst => s.flags (s.regs dst &&& imm)
  | pushq src => s.push (s.regs src)
  | endbr64 => s

/-- Straight-line code. -/
def exec (symbols : S → UInt64) (ops : List (Op S)) (s : State) : State :=
  ops.foldl (Op.exec symbols) s

/-! ## A linked program -/

structure Image (S L : Type) where
  src : List (Line S L)
  /-- Where each instruction is. -/
  addr : ℕ → UInt64
  symbols : S → UInt64

structure Machine where
  state : State
  rip : UInt64

namespace Image
variable [DecidableEq L]

def code (img : Image S L) : List (Instr S L) := instrs img.src

def target (img : Image S L) (l : L) : UInt64 := img.addr (position l img.src)

/-- The instruction at an address, by its number. -/
def fetch (img : Image S L) (rip : UInt64) : Option ℕ :=
  (List.range img.code.length).find? fun k => img.addr k = rip

/-- The instruction `k`. -/
def execInstr (img : Image S L) (k : ℕ) (s : State) : Instr S L → Machine
  | .op o => { state := o.exec img.symbols s, rip := img.addr (k + 1) }
  | .jmp l => { state := s, rip := img.target l }
  | .jnz l => { state := s, rip := if s.zf then img.addr (k + 1) else img.target l }
  | .call l => { state := s.push (img.addr (k + 1)), rip := img.target l }
  | .ret =>
    { state := { s with regs := Function.update s.regs .rsp (s.regs .rsp + 8) }
      rip := s.mem.load (s.regs .rsp) }

def step (img : Image S L) (m : Machine) : Option Machine := do
  let k ← img.fetch m.rip
  let i ← img.code[k]?
  return img.execInstr k m.state i

/-- `n` instructions. -/
def run (img : Image S L) : ℕ → Machine → Option Machine
  | 0, m => some m
  | n + 1, m => (img.step m).bind (img.run n)

theorem run_add (img : Image S L) (n k : ℕ) (m : Machine) :
    img.run (n + k) m = (img.run n m).bind (img.run k) := by
  induction n generalizing m with
  | zero => rw [Nat.zero_add]; rfl
  | succ n ih =>
    rw [Nat.succ_add]
    show (img.step m).bind (img.run (n + k)) = ((img.step m).bind (img.run n)).bind (img.run k)
    cases img.step m with
    | none => rfl
    | some m' => exact ih m'

/-- **The rule of sequence.** -/
theorem run_trans {img : Image S L} {n k : ℕ} {m m' m'' : Machine} (h : img.run n m = some m')
    (h' : img.run k m' = some m'') : img.run (n + k) m = some m'' := by
  rw [run_add, h]
  exact h'

/-- No two instructions at one address. -/
def Laid (img : Image S L) : Prop :=
  ∀ i < img.code.length, ∀ j < img.code.length, img.addr i = img.addr j → i = j

variable {img : Image S L}

omit [DecidableEq L] in
theorem fetch_addr (h : img.Laid) {k : ℕ} (hk : k < img.code.length) :
    img.fetch (img.addr k) = some k := by
  unfold fetch
  rw [List.find?_range_eq_some]
  refine ⟨by simp, List.mem_range.mpr hk, ?_⟩
  intro j hj
  simp only [Bool.not_eq_true', decide_eq_false_iff_not]
  intro heq
  exact hj.ne (h j (hj.trans hk) k hk heq)

/-- One instruction. -/
theorem run_one (h : img.Laid) {k : ℕ} {i : Instr S L} {rest : List (Instr S L)}
    (hcode : img.code.drop k = i :: rest) (s : State) :
    img.run 1 { state := s, rip := img.addr k } = some (img.execInstr k s i) := by
  have hi : img.code[k]? = some i := by
    rw [← List.head?_drop, hcode]
    rfl
  have hk : k < img.code.length := (List.getElem?_eq_some_iff.mp hi).1
  unfold run step
  rw [fetch_addr h hk]
  simp only [Option.bind_eq_bind, Option.bind_some, hi]
  rfl

/-- **The rule of straight-line code.** -/
theorem run_exec (h : img.Laid) {k : ℕ} {ops : List (Op S)} {rest : List (Instr S L)}
    (hcode : img.code.drop k = ops.map .op ++ rest) (s : State) :
    img.run ops.length { state := s, rip := img.addr k } =
      some { state := exec img.symbols ops s, rip := img.addr (k + ops.length) } := by
  induction ops generalizing k s with
  | nil => rfl
  | cons o ops ih =>
    have htail : img.code.drop (k + 1) = ops.map .op ++ rest := by
      rw [← List.drop_drop, hcode]
      rfl
    have hnext := ih htail (o.exec img.symbols s)
    rw [Nat.add_assoc, Nat.add_comm 1] at hnext
    rw [List.length_cons, Nat.add_comm ops.length 1]
    exact run_trans (run_one h hcode s) (by rw [Nat.add_comm 1]; exact hnext)

omit [DecidableEq L] in
/-- What comes after a block. -/
theorem drop_block {k : ℕ} {b rest : List (Instr S L)}
    (hcode : img.code.drop k = b ++ rest) : img.code.drop (k + b.length) = rest := by
  rw [← List.drop_drop, hcode, List.drop_left]

end Image

end X64
end Lib
end KaspaMiner
