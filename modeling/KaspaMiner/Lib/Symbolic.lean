import KaspaMiner.Lib.X64

/-!
# Symbolic runs of straight-line code

A `View` is a state with expressions in the place of words. Memory is a few buffers that do not
overlap, and an address is a buffer and a distance into it, so which word an operand means is known
without the addresses being known. `symRun` runs straight-line code on a view. When it succeeds,
`symRun_sound` says what the code does to every state that the view shows: each register and each
word of a buffer has the value of its expression, and outside of the buffers that may be written
memory is what it was.
-/

namespace KaspaMiner
namespace Lib
namespace X64

open Bitwise (Expr rotateLeft)

/-! ## Buffers -/

/-- `m` bytes at `a` and `n` bytes at `b` have no byte in common. -/
def NoOverlap (a : UInt64) (m : ℕ) (b : UInt64) (n : ℕ) : Prop :=
  ∀ i < m, ∀ j < n, a + UInt64.ofNat i ≠ b + UInt64.ofNat j

theorem NoOverlap.symm {a b : UInt64} {m n : ℕ} (h : NoOverlap a m b n) : NoOverlap b n a m :=
  fun j hj i hi heq => h i hi j hj heq.symm

/-- A part of one region and a part of another one. -/
theorem NoOverlap.sub {a b : UInt64} {m n m' n' : ℕ} (h : NoOverlap a m b n) (i j : ℕ)
    (hi : i + m' ≤ m) (hj : j + n' ≤ n) :
    NoOverlap (a + UInt64.ofNat i) m' (b + UInt64.ofNat j) n' := by
  intro k hk l hl
  rw [UInt64.add_assoc, UInt64.add_assoc, ← UInt64.ofNat_add, ← UInt64.ofNat_add]
  exact h (i + k) (by omega) (j + l) (by omega)

theorem NoOverlap.sub_right {a b : UInt64} {m n w : ℕ} (h : NoOverlap a m b n) {j : ℕ}
    (hj : j + w ≤ n) : NoOverlap a m (b + UInt64.ofNat j) w := by
  intro i hi k hk
  rw [UInt64.add_assoc, ← UInt64.ofNat_add]
  exact h i hi (j + k) (by omega)

/-- Different distances from one address are different addresses. -/
theorem noOverlap_of_le (a : UInt64) {i m j n : ℕ} (hij : i + m ≤ j) (hfit : j + n ≤ 2 ^ 64) :
    NoOverlap (a + UInt64.ofNat i) m (a + UInt64.ofNat j) n := by
  intro k hk l hl heq
  rw [UInt64.add_assoc, UInt64.add_assoc, ← UInt64.ofNat_add, ← UInt64.ofNat_add] at heq
  have hnat := congrArg UInt64.toNat (UInt64.add_right_inj a |>.mp heq)
  rw [UInt64.toNat_ofNat', UInt64.toNat_ofNat', Nat.mod_eq_of_lt (by omega),
    Nat.mod_eq_of_lt (by omega)] at hnat
  omega

theorem noOverlap_start (a : UInt64) {m j n : ℕ} (hj : m ≤ j) (hfit : j + n ≤ 2 ^ 64) :
    NoOverlap a m (a + UInt64.ofNat j) n := by
  have h := noOverlap_of_le a (i := 0) (m := m) (j := j) (n := n) (by omega) hfit
  rwa [show a + UInt64.ofNat 0 = a from UInt64.add_zero a] at h

theorem noOverlap_of_toNat {a b : UInt64} {m n : ℕ} (hab : a.toNat + m ≤ b.toNat)
    (hfit : b.toNat + n ≤ 2 ^ 64) : NoOverlap a m b n := by
  have hb : a + UInt64.ofNat (b.toNat - a.toNat) = b := by
    rw [← UInt64.toNat_inj, UInt64.toNat_add, UInt64.toNat_ofNat']
    have := b.toNat_lt
    omega
  rw [← hb]
  exact noOverlap_start a (by omega) (by omega)

structure Buffer where
  base : UInt64
  words : ℕ
  writable : Bool

def Buffer.Covers (B : Buffer) (x : UInt64) : Prop :=
  ∃ i < 8 * B.words, x = B.base + UInt64.ofNat i

/-- The word `k` of a buffer. -/
def Buffer.word (B : Buffer) (k : ℕ) : UInt64 := B.base + UInt64.ofNat (8 * k)

structure Layout where
  bufs : List Buffer
  apart : bufs.Pairwise fun B C => NoOverlap B.base (8 * B.words) C.base (8 * C.words)
  fits : ∀ B ∈ bufs, 8 * B.words ≤ 2 ^ 64

namespace Layout

/-- An address by its buffer and the distance into it. -/
def addr (L : Layout) (b : ℕ) (off : ℤ) : UInt64 :=
  (L.bufs[b]?.elim 0 Buffer.base) + UInt64.ofInt off

/-- Which buffers may be written. -/
def writable (L : Layout) : List Bool := L.bufs.map Buffer.writable

theorem apart_of_ne (L : Layout) {b c : ℕ} {B C : Buffer} (hb : L.bufs[b]? = some B)
    (hc : L.bufs[c]? = some C) (hne : b ≠ c) :
    NoOverlap B.base (8 * B.words) C.base (8 * C.words) := by
  obtain ⟨hb', rfl⟩ := List.getElem?_eq_some_iff.mp hb
  obtain ⟨hc', rfl⟩ := List.getElem?_eq_some_iff.mp hc
  have hpair := List.pairwise_iff_getElem.mp L.apart
  rcases Nat.lt_or_gt_of_ne hne with hlt | hlt
  · exact hpair b c hb' hc' hlt
  · exact (hpair c b hc' hb' hlt).symm

/-- Different words of the buffers share no byte. -/
theorem words_apart (L : Layout) {b c k l : ℕ} {B C : Buffer} (hb : L.bufs[b]? = some B)
    (hc : L.bufs[c]? = some C) (hk : k < B.words) (hl : l < C.words) (hne : b ≠ c ∨ k ≠ l) :
    Memory.Apart (B.word k) (C.word l) := by
  by_cases hbc : b = c
  · subst hbc
    obtain rfl : B = C := by rw [hb] at hc; exact Option.some.inj hc
    have hfit := L.fits B (List.mem_of_getElem? hb)
    rcases Nat.lt_or_gt_of_ne (hne.resolve_left (by simp)) with hlt | hlt
    · exact noOverlap_of_le B.base (by omega) (by omega)
    · exact (noOverlap_of_le B.base (by omega) (by omega)).symm
  · exact (L.apart_of_ne hb hc hbc).sub _ _ (by omega) (by omega)

end Layout

/-! ## Views -/

inductive Value where
  | word (e : Expr)
  | ptr (b : ℕ) (off : ℤ)
  deriving DecidableEq

def Value.eval (L : Layout) (env : ℕ → UInt64) : Value → UInt64
  | word e => e.eval env
  | ptr b off => L.addr b off

structure View where
  regs : Reg → Value
  bufs : List (List Expr)

/-- What the words of a buffer are. -/
def Holds (env : ℕ → UInt64) (m : Memory) (B : Buffer) (ws : List Expr) : Prop :=
  ws.length = B.words ∧ ∀ k e, ws[k]? = some e → m.load (B.word k) = e.eval env

/-- The state is the one that the view describes. -/
structure Shows (L : Layout) (env : ℕ → UInt64) (v : View) (s : State) : Prop where
  regs : ∀ r, s.regs r = (v.regs r).eval L env
  bufs : ∀ (b : ℕ) (ws : List Expr), v.bufs[b]? = some ws →
    ∃ B, L.bufs[b]? = some B ∧ Holds env s.mem B ws

/-- Memory that no writable buffer covers is left alone. -/
def Frame (L : Layout) (m m' : Memory) : Prop :=
  ∀ x, (∀ B ∈ L.bufs, B.writable = true → ¬ B.Covers x) → m' x = m x

theorem Frame.refl (L : Layout) (m : Memory) : Frame L m m := fun _ _ => rfl

theorem Frame.trans {L : Layout} {m m' m'' : Memory} (h : Frame L m m') (h' : Frame L m' m'') :
    Frame L m m'' := fun x hx => (h' x hx).trans (h x hx)

/-! ## Running -/

namespace View

/-- The word that an operand in memory means, as a buffer and an index. -/
def place (v : View) (disp : ℤ) (base : Reg) : Option (ℕ × ℕ) :=
  match v.regs base with
  | .word _ => none
  | .ptr b off =>
    if 0 ≤ off + disp ∧ (off + disp) % 8 = 0 then some (b, ((off + disp) / 8).toNat) else none

def read (v : View) : Operand → Option Value
  | .reg r => some (v.regs r)
  | .mem disp base => do
    let (b, k) ← v.place disp base
    let ws ← v.bufs[b]?
    let e ← ws[k]?
    return .word e

def readWord (v : View) (o : Operand) : Option Expr :=
  match v.read o with
  | some (.word e) => some e
  | _ => none

def setReg (v : View) (r : Reg) (x : Value) : View := { v with regs := Function.update v.regs r x }

def setWord (v : View) (writable : List Bool) (b k : ℕ) (e : Expr) : Option View := do
  let ws ← v.bufs[b]?
  if writable[b]? = some true ∧ k < ws.length then
    return { v with bufs := v.bufs.set b (ws.set k e) }
  else none

def write (v : View) (writable : List Bool) (x : Value) : Operand → Option View
  | .reg r => some (v.setReg r x)
  | .mem disp base =>
    match x with
    | .ptr _ _ => none
    | .word e => do
      let (b, k) ← v.place disp base
      v.setWord writable b k e

/-- `dst := f dst src` -/
def binary (v : View) (writable : List Bool) (f : Expr → Expr → Expr) (src dst : Operand) :
    Option View := do
  let d ← v.readWord dst
  let e ← v.readWord src
  v.write writable (.word (f d e)) dst

end View

/-- What an instruction does to a view. There is no answer where the result is no expression.
`values` is what is known of the addresses of the data. -/
def Op.sym {S : Type} (values : S → Option Value) (writable : List Bool) (v : View) :
    Op S → Option View
  | movq src dst => do
    let x ← v.read src
    v.write writable x dst
  | xorq src dst => v.binary writable .xor src dst
  | orq src dst => v.binary writable .or src dst
  | andq src dst => v.binary writable .and src dst
  | notq dst => do
    let e ← v.readWord dst
    v.write writable (.word (.not e)) dst
  | rolq n dst => do
    let e ← v.readWord dst
    return v.setReg dst (.word (.rol n e))
  | leaq disp base dst =>
    match v.regs base with
    | .word _ => none
    | .ptr b off => some (v.setReg dst (.ptr b (off + disp)))
  | leaRip sym dst => (values sym).map (v.setReg dst)
  | xchgq a b => some ((v.setReg a (v.regs b)).setReg b (v.regs a))
  | subq imm dst =>
    match v.regs dst with
    | .word _ => none
    | .ptr b off => some (v.setReg dst (.ptr b (off - imm.toNat)))
  | testq _ _ => some v
  | pushq src => do
    let e ← v.readWord src
    let (b, k) ← v.place (-8) .rsp
    match v.regs .rsp with
    | .word _ => none
    | .ptr c off =>
      let v ← v.setWord writable b k e
      return v.setReg .rsp (.ptr c (off - 8))
  | endbr64 => some v

def symRun {S : Type} (values : S → Option Value) (writable : List Bool) : List (Op S) → View →
    Option View
  | [], v => some v
  | o :: ops, v => (o.sym values writable v).bind (symRun values writable ops)

/-! ## Soundness -/

section
variable {L : Layout} {env : ℕ → UInt64} {v v' : View} {s : State}

theorem Layout.addr_add (L : Layout) (b : ℕ) (off disp : ℤ) :
    L.addr b off + UInt64.ofInt disp = L.addr b (off + disp) := by
  unfold addr
  rw [UInt64.ofInt_add, UInt64.add_assoc]

theorem ofInt_natCast (n : ℕ) : UInt64.ofInt n = UInt64.ofNat n := by
  have hmod : ((n : ℤ) % 2 ^ 64).toNat = n % 2 ^ 64 := by omega
  unfold UInt64.ofInt
  rw [hmod]
  exact UInt64.ofNat_mod_size

theorem Layout.addr_eq_word {b : ℕ} {B : Buffer} (hb : L.bufs[b]? = some B) (k : ℕ) :
    L.addr b (8 * k : ℕ) = B.word k := by
  unfold addr Buffer.word
  rw [hb, ofInt_natCast]
  rfl

theorem Shows.place (h : Shows L env v s) {disp : ℤ} {base : Reg} {b k : ℕ} {B : Buffer}
    (hplace : v.place disp base = some (b, k)) (hb : L.bufs[b]? = some B) :
    s.addr disp base = B.word k := by
  unfold View.place at hplace
  split at hplace
  · cases hplace
  next c off hreg =>
    split at hplace
    · next hoff =>
      cases hplace
      have hk : off + disp = (8 * ((off + disp) / 8).toNat : ℕ) := by omega
      unfold State.addr
      rw [h.regs base, hreg]
      show L.addr b off + UInt64.ofInt disp = _
      rw [Layout.addr_add, ← Layout.addr_eq_word hb, ← hk]
    · cases hplace

theorem Shows.read (h : Shows L env v s) {o : Operand} {x : Value} (hread : v.read o = some x) :
    s.read o = x.eval L env := by
  cases o with
  | reg r =>
    cases hread
    exact h.regs r
  | mem disp base =>
    simp only [View.read, Option.bind_eq_bind, Option.bind_eq_some_iff, Option.some.injEq,
      Option.pure_def] at hread
    obtain ⟨⟨b, k⟩, hplace, ws, hws, e, he, rfl⟩ := hread
    obtain ⟨B, hB, -, hholds⟩ := h.bufs b ws hws
    show s.mem.load (s.addr disp base) = e.eval env
    rw [h.place hplace hB]
    exact hholds k e he

theorem Shows.readWord (h : Shows L env v s) {o : Operand} {e : Expr}
    (hread : v.readWord o = some e) : s.read o = e.eval env := by
  unfold View.readWord at hread
  split at hread
  · next heq =>
    cases hread
    exact h.read heq
  · cases hread

/-- The flags are not in the view. -/
theorem Shows.flags (h : Shows L env v s) (x : UInt64) : Shows L env v (s.flags x) :=
  ⟨h.regs, h.bufs⟩

theorem Shows.setReg (h : Shows L env v s) (r : Reg) (x : Value) :
    Shows L env (v.setReg r x) { s with regs := Function.update s.regs r (x.eval L env) } := by
  refine ⟨fun r' => ?_, h.bufs⟩
  by_cases heq : r' = r
  · subst heq
    simp only [View.setReg, Function.update_self]
  · simp only [View.setReg, Function.update_of_ne heq]
    exact h.regs r'

/-- A word of a buffer is stored. -/
theorem Shows.setWord (h : Shows L env v s) {b k : ℕ} {e : Expr} {B : Buffer}
    (hset : v.setWord L.writable b k e = some v') (hb : L.bufs[b]? = some B) :
    Shows L env v' { s with mem := s.mem.store (B.word k) (e.eval env) } ∧
      Frame L s.mem (s.mem.store (B.word k) (e.eval env)) := by
  simp only [View.setWord, Option.bind_eq_bind, Option.bind_eq_some_iff, Option.pure_def,
    Option.ite_none_right_eq_some, Option.some.injEq] at hset
  obtain ⟨ws, hws, ⟨hw, hk⟩, rfl⟩ := hset
  obtain ⟨B', hB', hlen, hholds⟩ := h.bufs b ws hws
  obtain rfl : B = B' := Option.some.inj (hb.symm.trans hB')
  have hkB : k < B.words := hlen ▸ hk
  refine ⟨⟨h.regs, ?_⟩, ?_⟩
  -- The word itself, the other words of the buffer, and the other buffers.
  · intro c ws' hws'
    by_cases hcb : c = b
    · subst hcb
      rw [List.getElem?_set_self (List.getElem?_eq_some_iff.mp hws).1] at hws'
      cases hws'
      refine ⟨B, hb, by rw [List.length_set, hlen], ?_⟩
      intro l e' he'
      by_cases hlk : l = k
      · subst hlk
        rw [List.getElem?_set_self hk] at he'
        cases he'
        exact Memory.load_store _ _ _
      · rw [List.getElem?_set_ne (Ne.symm hlk)] at he'
        have hl : l < B.words := hlen ▸ (List.getElem?_eq_some_iff.mp he').1
        show (s.mem.store _ _).load _ = _
        rw [Memory.load_store_apart (L.words_apart hb hb hl hkB (.inr hlk))]
        exact hholds l e' he'
    · rw [List.getElem?_set_ne (Ne.symm hcb)] at hws'
      obtain ⟨C, hC, hlenC, hholdsC⟩ := h.bufs c ws' hws'
      refine ⟨C, hC, hlenC, ?_⟩
      intro l e' he'
      have hl : l < C.words := hlenC ▸ (List.getElem?_eq_some_iff.mp he').1
      show (s.mem.store _ _).load _ = _
      rw [Memory.load_store_apart (L.words_apart hC hb hl hkB (.inl hcb))]
      exact hholdsC l e' he'
  · intro x hx
    have hwB : B.writable = true := by
      rw [Layout.writable, List.getElem?_map, hb] at hw
      exact Option.some.inj hw
    refine Memory.store_apart fun i hi heq => ?_
    refine hx B (List.mem_of_getElem? hb) hwB ⟨8 * k + i, by omega, ?_⟩
    rw [heq, Buffer.word, UInt64.add_assoc, ← UInt64.ofNat_add]

theorem Shows.write (h : Shows L env v s) {x : Value} {o : Operand}
    (hwrite : v.write L.writable x o = some v') :
    Shows L env v' (s.write (x.eval L env) o) ∧
      Frame L s.mem (s.write (x.eval L env) o).mem := by
  cases o with
  | reg r =>
    cases hwrite
    exact ⟨h.setReg r x, Frame.refl L _⟩
  | mem disp base =>
    cases x with
    | ptr => cases hwrite
    | word e =>
      simp only [View.write, Option.bind_eq_bind, Option.bind_eq_some_iff] at hwrite
      obtain ⟨⟨b, k⟩, hplace, hset⟩ := hwrite
      have hws := hset
      simp only [View.setWord, Option.bind_eq_bind, Option.bind_eq_some_iff] at hws
      obtain ⟨ws, hws, -⟩ := hws
      obtain ⟨B, hB, -⟩ := h.bufs b ws hws
      have haddr := h.place hplace hB
      simp only [State.write, haddr]
      exact h.setWord hset hB

theorem Shows.binary (h : Shows L env v s) {f : Expr → Expr → Expr} {src dst : Operand}
    (hb : v.binary L.writable f src dst = some v') {g : UInt64 → UInt64 → UInt64}
    (hf : ∀ d e, (f d e).eval env = g (d.eval env) (e.eval env)) :
    Shows L env v' ((s.write (g (s.read dst) (s.read src)) dst).flags
        (g (s.read dst) (s.read src))) ∧
      Frame L s.mem (s.write (g (s.read dst) (s.read src)) dst).mem := by
  simp only [View.binary, Option.bind_eq_bind, Option.bind_eq_some_iff] at hb
  obtain ⟨d, hd, e, he, hw⟩ := hb
  rw [h.readWord hd, h.readWord he, ← hf]
  exact ⟨(h.write hw).1.flags _, (h.write hw).2⟩

variable {S : Type} {symbols : S → UInt64} {values : S → Option Value}

theorem Op.sym_sound (hsym : ∀ y x, values y = some x → symbols y = x.eval L env)
    (h : Shows L env v s) {o : Op S} (ho : o.sym values L.writable v = some v') :
    Shows L env v' (o.exec symbols s) ∧ Frame L s.mem (o.exec symbols s).mem := by
  cases o with
  | movq src dst =>
    simp only [Op.sym, Option.bind_eq_bind, Option.bind_eq_some_iff] at ho
    obtain ⟨x, hx, hw⟩ := ho
    show Shows L env v' (s.write (s.read src) dst) ∧ Frame L s.mem (s.write (s.read src) dst).mem
    rw [h.read hx]
    exact h.write hw
  | xorq src dst => exact h.binary ho (g := (· ^^^ ·)) fun _ _ => rfl
  | orq src dst => exact h.binary ho (g := (· ||| ·)) fun _ _ => rfl
  | andq src dst => exact h.binary ho (g := (· &&& ·)) fun _ _ => rfl
  | notq dst =>
    simp only [Op.sym, Option.bind_eq_bind, Option.bind_eq_some_iff] at ho
    obtain ⟨e, he, hw⟩ := ho
    show Shows L env v' (s.write (~~~ s.read dst) dst) ∧
      Frame L s.mem (s.write (~~~ s.read dst) dst).mem
    rw [h.readWord he]
    exact h.write hw
  | rolq n dst =>
    simp only [Op.sym, Option.bind_eq_bind, Option.bind_eq_some_iff, Option.pure_def,
      Option.some.injEq] at ho
    obtain ⟨e, he, rfl⟩ := ho
    have hread : s.regs dst = e.eval env := h.readWord he
    refine ⟨?_, Frame.refl L _⟩
    show Shows L env _ { s with regs := Function.update s.regs dst (rotateLeft (s.regs dst) n) }
    rw [hread]
    exact h.setReg dst _
  -- Addresses are only known relative to a buffer, so the base has to point into one.
  | leaq disp base dst =>
    simp only [Op.sym] at ho
    split at ho
    · cases ho
    next b off hreg =>
      cases ho
      refine ⟨?_, Frame.refl L _⟩
      have haddr : s.addr disp base = (Value.ptr b (off + disp)).eval L env := by
        unfold State.addr
        rw [h.regs base, hreg]
        exact L.addr_add b off disp
      show Shows L env _ { s with regs := Function.update s.regs dst (s.addr disp base) }
      rw [haddr]
      exact h.setReg dst _
  | leaRip sym dst =>
    obtain ⟨x, hx, rfl⟩ := Option.map_eq_some_iff.mp ho
    refine ⟨?_, Frame.refl L _⟩
    show Shows L env _ { s with regs := Function.update s.regs dst (symbols sym) }
    rw [hsym sym x hx]
    exact h.setReg dst x
  | xchgq a b =>
    cases ho
    refine ⟨?_, Frame.refl L _⟩
    show Shows L env _ { s with
      regs := Function.update (Function.update s.regs a (s.regs b)) b (s.regs a) }
    rw [h.regs a, h.regs b]
    exact (h.setReg a _).setReg b _
  | subq imm dst =>
    simp only [Op.sym] at ho
    split at ho
    · cases ho
    next b off hreg =>
      cases ho
      refine ⟨?_, Frame.refl L _⟩
      have hsub : s.regs dst - imm = (Value.ptr b (off - imm.toNat)).eval L env := by
        have hneg : UInt64.ofInt (-(imm.toNat : ℤ)) = -imm := by
          rw [UInt64.ofInt_neg, ofInt_natCast, UInt64.ofNat_toNat]
        rw [h.regs dst, hreg, UInt64.sub_eq_add_neg, ← hneg]
        exact L.addr_add b off _
      show Shows L env _ ({ s with
        regs := Function.update s.regs dst (s.regs dst - imm) }.flags _)
      rw [hsub]
      exact (h.setReg dst _).flags _
  | testq imm dst =>
    cases ho
    exact ⟨h.flags _, Frame.refl L _⟩
  -- A store below the stack pointer, and the stack pointer moved there.
  | pushq src =>
    simp only [Op.sym, Option.bind_eq_bind, Option.bind_eq_some_iff] at ho
    obtain ⟨e, he, ⟨b, k⟩, hplace, ho⟩ := ho
    split at ho
    · cases ho
    next c off hreg =>
      simp only [Option.bind_eq_some_iff, Option.pure_def, Option.some.injEq] at ho
      obtain ⟨v₁, hset, rfl⟩ := ho
      have hws := hset
      simp only [View.setWord, Option.bind_eq_bind, Option.bind_eq_some_iff] at hws
      obtain ⟨ws, hws, -⟩ := hws
      obtain ⟨B, hB, -⟩ := h.bufs b ws hws
      have haddr : s.regs .rsp - 8 = s.addr (-8) .rsp := by
        unfold State.addr
        rw [UInt64.sub_eq_add_neg]
        rfl
      have hptr : s.regs .rsp - 8 = (Value.ptr c (off - 8)).eval L env := by
        rw [haddr]
        unfold State.addr
        rw [h.regs .rsp, hreg]
        exact L.addr_add c off (-8)
      have hword : s.regs src = e.eval env := h.readWord he
      have hstore := h.setWord hset hB
      rw [← h.place hplace hB, ← haddr, ← hword] at hstore
      refine ⟨?_, hstore.2⟩
      show Shows L env _ { s with
        regs := Function.update s.regs .rsp (s.regs .rsp - 8)
        mem := s.mem.store (s.regs .rsp - 8) (s.regs src) }
      have hset' := hstore.1.setReg .rsp (.ptr c (off - 8))
      rw [← hptr] at hset'
      exact hset'
  | endbr64 =>
    cases ho
    exact ⟨h, Frame.refl L _⟩

/-- **Soundness.** What the symbolic run says holds of the real one. -/
theorem symRun_sound (hsym : ∀ y x, values y = some x → symbols y = x.eval L env)
    {ops : List (Op S)} (h : Shows L env v s)
    (hrun : symRun values L.writable ops v = some v') :
    Shows L env v' (exec symbols ops s) ∧ Frame L s.mem (exec symbols ops s).mem := by
  induction ops generalizing v s with
  | nil =>
    cases hrun
    exact ⟨h, Frame.refl L _⟩
  | cons o ops ih =>
    obtain ⟨v₁, ho, hops⟩ := Option.bind_eq_some_iff.mp hrun
    obtain ⟨hshows, hframe⟩ := Op.sym_sound hsym h ho
    obtain ⟨hshows', hframe'⟩ := ih hshows hops
    exact ⟨hshows', hframe.trans hframe'⟩

end

/-! ## A view of any state

Every register and every word of a buffer is a variable of its own: the registers are the first
sixteen, the words come after them in the order of the buffers.
-/

namespace Reg

def all : List Reg :=
  [rax, rbx, rcx, rdx, rsi, rdi, rbp, rsp, r8, r9, r10, r11, r12, r13, r14, r15]

/-- Its variable. -/
def var (r : Reg) : Expr := .var (all.idxOf r)

end Reg

/-- The words of a buffer whose first variable is `n`. -/
def freshWords (n words : ℕ) : List Expr := (List.range words).map fun k => .var (n + k)

def freshBufs (n : ℕ) : List ℕ → List (List Expr)
  | [] => []
  | words :: sizes => freshWords n words :: freshBufs (n + words) sizes

def View.fresh (sizes : List ℕ) : View where
  regs r := .word r.var
  bufs := freshBufs 16 sizes

/-- What the words of the buffers are. -/
def contents (m : Memory) (bufs : List Buffer) : List UInt64 :=
  bufs.flatMap fun B => (List.range B.words).map fun k => m.load (B.word k)

/-- What the variables are in a state. -/
def State.env (L : Layout) (s : State) (v : ℕ) : UInt64 :=
  (Reg.all.map s.regs ++ contents s.mem L.bufs).getD v 0

theorem holds_fresh (m : Memory) (bufs : List Buffer) : ∀ (pre : List UInt64) (b : ℕ)
    (ws : List Expr), (freshBufs pre.length (bufs.map Buffer.words))[b]? = some ws →
    ∃ B, bufs[b]? = some B ∧ Holds (fun v => (pre ++ contents m bufs).getD v 0) m B ws := by
  induction bufs with
  | nil =>
    intro pre b ws hws
    cases hws
  | cons B bufs ih =>
    intro pre b ws hws
    have hwords : (List.range B.words).length = B.words := List.length_range
    cases b with
    | zero =>
      obtain rfl : freshWords pre.length B.words = ws := Option.some.inj hws
      refine ⟨B, rfl, by simp [freshWords], ?_⟩
      intro k e he
      obtain ⟨hk, rfl⟩ : k < B.words ∧ Expr.var (pre.length + k) = e := by
        simpa [freshWords, List.getElem?_eq_some_iff] using he
      have hvalue :
          (pre ++ contents m (B :: bufs))[pre.length + k]? = some (m.load (B.word k)) := by
        rw [List.getElem?_append_right (by omega), Nat.add_sub_cancel_left]
        unfold contents
        rw [List.flatMap_cons, List.getElem?_append_left (by simpa using hk), List.getElem?_map,
          List.getElem?_range hk]
        rfl
      show _ = (pre ++ contents m (B :: bufs)).getD (pre.length + k) 0
      rw [List.getD_eq_getElem?_getD, hvalue]
      rfl
    -- A later buffer: the words of this one are in front of its own.
    | succ b =>
      have happ : pre ++ contents m (B :: bufs) =
          (pre ++ (List.range B.words).map fun k => m.load (B.word k)) ++ contents m bufs := by
        rw [List.append_assoc]
        rfl
      have hlen : (pre ++ (List.range B.words).map fun k => m.load (B.word k)).length =
          pre.length + B.words := by simp
      rw [happ]
      refine ih _ b ws ?_
      rw [hlen]
      exact hws

theorem Shows.fresh (L : Layout) (s : State) :
    Shows L (s.env L) (.fresh (L.bufs.map Buffer.words)) s := by
  refine ⟨?_, fun b ws hws => ?_⟩
  · intro r
    cases r <;> rfl
  · have hlen : (Reg.all.map s.regs).length = 16 := rfl
    have h := holds_fresh s.mem L.bufs (Reg.all.map s.regs) b ws
    rw [hlen] at h
    exact h hws

/-- What is known of some registers, put into the view. -/
def View.know (v : View) (facts : List (Reg × Value)) : View :=
  facts.foldl (fun v p => v.setReg p.1 p.2) v

theorem Shows.know {L : Layout} {env : ℕ → UInt64} {s : State} {facts : List (Reg × Value)}
    (hfacts : ∀ p ∈ facts, s.regs p.1 = p.2.eval L env) : ∀ {v : View}, Shows L env v s →
    Shows L env (v.know facts) s := by
  induction facts with
  | nil => exact fun h => h
  | cons p facts ih =>
    intro v h
    have hset := h.setReg p.1 p.2
    rw [← hfacts p List.mem_cons_self, Function.update_eq_self] at hset
    exact ih (fun q hq => hfacts q (List.mem_cons_of_mem _ hq)) hset

/-! ## Comparing -/

/-- A known value. -/
def Value.same : Value → Value → Bool
  | word e, word f => e.anf 0 == f.anf 0
  | ptr b off, ptr c off' => b == c && off == off'
  | _, _ => false

theorem Value.eval_of_same {x y : Value} (h : x.same y = true) (L : Layout) (env : ℕ → UInt64) :
    x.eval L env = y.eval L env := by
  cases x with
  | word e =>
    cases y with
    | word f => exact Bitwise.Expr.eval_congr (by simpa [same] using h) env
    | ptr => cases h
  | ptr b off =>
    cases y with
    | word => cases h
    | ptr c off' =>
      obtain ⟨rfl, rfl⟩ : b = c ∧ off = off' := by simpa [same] using h
      rfl

/-- Registers and buffers, and what is in them. -/
structure Assertion where
  regs : List (Reg × Value)
  bufs : List (ℕ × List Expr)

/-- The view says so. -/
def View.meets (v : View) (post : Assertion) : Bool :=
  post.regs.all (fun p => (v.regs p.1).same p.2) &&
    post.bufs.all fun p => (v.bufs[p.1]?).map (·.map fun e => e.anf 0) ==
      some (p.2.map fun e => e.anf 0)

def Assertion.Holds (post : Assertion) (L : Layout) (env : ℕ → UInt64) (s : State) : Prop :=
  (∀ p ∈ post.regs, s.regs p.1 = p.2.eval L env) ∧
    ∀ p ∈ post.bufs, ∃ B, L.bufs[p.1]? = some B ∧ X64.Holds env s.mem B p.2

theorem Shows.meets {L : Layout} {env : ℕ → UInt64} {v : View} {s : State} (h : Shows L env v s)
    {post : Assertion} (hm : v.meets post = true) : post.Holds L env s := by
  simp only [View.meets, Bool.and_eq_true, List.all_eq_true, beq_iff_eq, Option.map_eq_some_iff]
    at hm
  refine ⟨fun p hp => (h.regs p.1).trans (Value.eval_of_same (hm.1 p hp) L env), ?_⟩
  intro p hp
  obtain ⟨ws, hws, heq⟩ := hm.2 p hp
  obtain ⟨B, hB, hlen, hholds⟩ := h.bufs p.1 ws hws
  have hlen' : ws.length = p.2.length := by simpa using congrArg List.length heq
  refine ⟨B, hB, hlen' ▸ hlen, ?_⟩
  intro k e he
  have hk : k < ws.length := hlen' ▸ (List.getElem?_eq_some_iff.mp he).1
  have hanf : (ws[k]).anf 0 = e.anf 0 := by
    have hget := congrArg (fun l => l[k]?) heq
    simpa [List.getElem?_map, List.getElem?_eq_getElem hk, he] using hget
  rw [hholds k _ (List.getElem?_eq_getElem hk)]
  exact Bitwise.Expr.eval_congr hanf env

/-- Straight-line code leads from a view to an assertion. -/
def check {S : Type} (values : S → Option Value) (writable : List Bool) (pre : View)
    (ops : List (Op S)) (post : Assertion) : Bool :=
  (symRun values writable ops pre).any fun v => v.meets post

/-- **The rule of a checked block.** -/
theorem check_sound {S : Type} {symbols : S → UInt64} {values : S → Option Value} {L : Layout}
    {env : ℕ → UInt64} {pre : View} {s : State} {ops : List (Op S)} {post : Assertion}
    (hsym : ∀ y x, values y = some x → symbols y = x.eval L env) (h : Shows L env pre s)
    (hcheck : check values L.writable pre ops post = true) :
    post.Holds L env (exec symbols ops s) ∧ Frame L s.mem (exec symbols ops s).mem := by
  obtain ⟨v, hv, hm⟩ := (Option.any_eq_true _ _).mp hcheck
  obtain ⟨hshows, hframe⟩ := symRun_sound hsym h hv
  exact ⟨hshows.meets hm, hframe⟩

end X64
end Lib
end KaspaMiner
