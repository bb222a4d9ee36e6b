import KaspaMiner.Pow.HeavyHash
import KaspaMiner.Lib.Loop
import KaspaMiner.Lib.Words

/-!
# Which matrices are drawn

The closures of `rand_matrix_no_rank_check` carry a word and the generator from call to call. What
they compute has nothing hidden in it: entry `(i, j)` is a nibble of draw `4 i + j / 16`, and a
candidate costs 256 draws (`randMatrixNoRankCheck_eq`). The nested loops the source keeps in a
comment compute the same, whatever array they start from (`plainFill_eq`).
-/

namespace KaspaMiner
namespace Pow

open Lib (foldl_finRange)

/-- Nibble `shift` of a word. -/
def nibbleOf (val : UInt64) (shift : ℕ) : UInt16 :=
  (val >>> UInt64.ofNat (4 * shift) &&& 0x0F).toUInt16

theorem nibbleOf_toNat (val : UInt64) {shift : ℕ} (h : shift < 16) :
    (nibbleOf val shift).toNat = val.toNat / 2 ^ (4 * shift) % 16 := by
  unfold nibbleOf
  have hmask : (val >>> UInt64.ofNat (4 * shift) &&& 0x0F).toNat =
      val.toNat / 2 ^ (4 * shift) % 16 := by
    rw [UInt64.toNat_and, Lib.Words.toNat_shiftRight val (by omega)]
    exact Nat.and_two_pow_sub_one_eq_mod _ 4
  rw [UInt64.toNat_toUInt16, hmask]
  omega

/-! ## Array builders -/

/-- A callback that keeps to a sequence of states builds what it answers along that sequence. -/
theorem arrayFromFn_eq {σ α : Type} {cb : ℕ → σ → α × σ} {n : ℕ} (st : ℕ → σ)
    (h : ∀ k < n, (cb k (st k)).2 = st (k + 1)) :
    arrayFromFn n cb (st 0) = (Vector.ofFn fun k : Fin n => (cb k (st k)).1, st n) := by
  induction n with
  | zero => rfl
  | succ n ih =>
    unfold arrayFromFn
    rw [ih fun k hk => h k (Nat.lt_succ_of_lt hk), Vector.ofFn_succ]
    show ((Vector.ofFn _).push (cb n (st n)).1, (cb n (st n)).2) = _
    rw [h n (Nat.lt_succ_self n)]
    rfl

namespace Matrix

def entry (self : Matrix) (i j : Fin 64) : UInt16 := (self.rows.get i).get j

/-- The candidate drawn next. -/
def candidate (g : XoShiRo256PlusPlus) : Matrix :=
  ⟨Vector.ofFn fun i => Vector.ofFn fun j => nibbleOf (g.output (4 * i + j / 16)) (j % 16)⟩

theorem candidate_entry (g : XoShiRo256PlusPlus) (i j : Fin 64) :
    (candidate g).entry i j = nibbleOf (g.output (4 * i + j / 16)) (j % 16) := by
  unfold candidate entry
  rw [get_ofFn, get_ofFn]

theorem ext_entry {m m' : Matrix} (h : ∀ i j, m.entry i j = m'.entry i j) : m = m' := by
  obtain ⟨rows⟩ := m
  obtain ⟨rows'⟩ := m'
  refine congrArg Matrix.mk (Vector.ext fun i hi => Vector.ext ?_)
  intro j hj
  exact h ⟨i, hi⟩ ⟨j, hj⟩

/-- What the closure of a row has captured before call `j`: the word of the call before, and the
generator. -/
def captured (g : XoShiRo256PlusPlus) (j : ℕ) : UInt64 × XoShiRo256PlusPlus :=
  (if j = 0 then 0 else g.output ((j - 1) / 16), g.after ((j + 15) / 16))

/-- A call that starts a new word draws, the fifteen after it do not. -/
theorem captured_succ (g : XoShiRo256PlusPlus) (j : ℕ) :
    (if j % 16 = 0 then (captured g j).2.u64 else captured g j) = captured g (j + 1) := by
  unfold captured
  by_cases hj : j % 16 = 0
  · have hdiv : (j + 15) / 16 = j / 16 := by omega
    have hdiv' : (j + 1 + 15) / 16 = j / 16 + 1 := by omega
    rw [if_pos hj, hdiv, hdiv', XoShiRo256PlusPlus.u64_after]
    rfl
  · have hdiv : (j + 15) / 16 = (j + 1 + 15) / 16 := by omega
    have hprev : (j - 1) / 16 = (j + 1 - 1) / 16 := by omega
    have hne : j ≠ 0 := by
      intro h
      exact hj (by rw [h])
    rw [if_neg hj, if_neg hne, if_neg (Nat.succ_ne_zero j), hdiv, hprev]

/-- The closure of a row. -/
def rowCall (j : ℕ) (s : UInt64 × XoShiRo256PlusPlus) : UInt16 × UInt64 × XoShiRo256PlusPlus :=
  let s := if j % 16 = 0 then s.2.u64 else s
  (nibbleOf s.1 (j % 16), s)

theorem rowCall_captured (g : XoShiRo256PlusPlus) (j : ℕ) :
    rowCall j (captured g j) = (nibbleOf (g.output (j / 16)) (j % 16), captured g (j + 1)) := by
  unfold rowCall
  rw [captured_succ]
  rfl

-- An array of 64 is not to be built where two of them are compared.
attribute [local irreducible] arrayFromFn

/-- The closure of the matrix. -/
def matrixCall (_ : ℕ) (generator : XoShiRo256PlusPlus) :
    Vector UInt16 64 × XoShiRo256PlusPlus :=
  let (row, _, generator) := arrayFromFn 64 rowCall (0, generator)
  (row, generator)

theorem randMatrixNoRankCheck_calls (g : XoShiRo256PlusPlus) : randMatrixNoRankCheck g =
    (⟨(arrayFromFn 64 matrixCall g).1⟩, (arrayFromFn 64 matrixCall g).2) := by
  unfold randMatrixNoRankCheck
  exact Eq.refl (Prod.map Matrix.mk id (arrayFromFn 64 matrixCall g))

/-- A row is four draws. -/
theorem matrixCall_after (g : XoShiRo256PlusPlus) (i : ℕ) : matrixCall i (g.after (4 * i)) =
    (Vector.ofFn fun j : Fin 64 => nibbleOf (g.output (4 * i + j / 16)) (j % 16),
      g.after (4 * (i + 1))) := by
  have hrow : arrayFromFn 64 rowCall (captured (g.after (4 * i)) 0) = _ :=
    arrayFromFn_eq (captured (g.after (4 * i))) fun j _ => congrArg Prod.snd (rowCall_captured _ j)
  unfold matrixCall
  show (let (row, _, generator) := arrayFromFn 64 rowCall (captured (g.after (4 * i)) 0)
    (row, generator)) = _
  rw [hrow]
  simp only [rowCall_captured, XoShiRo256PlusPlus.output_after]
  congr 1
  exact XoShiRo256PlusPlus.after_after g (4 * i) 4

/-- **Each attempt consumes 256 draws.** -/
theorem randMatrixNoRankCheck_eq (g : XoShiRo256PlusPlus) :
    randMatrixNoRankCheck g = (candidate g, g.after 256) := by
  have hrows : arrayFromFn 64 matrixCall (g.after (4 * 0)) = _ :=
    arrayFromFn_eq (fun i => g.after (4 * i)) fun i _ => congrArg Prod.snd (matrixCall_after g i)
  rw [randMatrixNoRankCheck_calls]
  show ((⟨(arrayFromFn 64 matrixCall (g.after (4 * 0))).1⟩ : Matrix),
    (arrayFromFn 64 matrixCall (g.after (4 * 0))).2) = _
  rw [hrows]
  simp only [matrixCall_after]
  rfl

/-! ## The plain loops -/

theorem write_entry (mat : Matrix) (i : Fin 64) (j : ℕ) (val : UInt16) (r c : Fin 64) :
    (mat.write i j val).entry r c = if r = i ∧ c.val = j then val else mat.entry r c := by
  show ((mat.rows.set i ((mat.rows.get i).setIfInBounds j val))[r.val])[c.val] =
    if r = i ∧ c.val = j then val else (mat.rows[r.val])[c.val]
  rw [Vector.getElem_set]
  by_cases hr : i.val = r.val
  · have hri : r = i := Fin.ext hr.symm
    subst hri
    rw [if_pos rfl, Vector.getElem_setIfInBounds]
    by_cases hc : c.val = j
    · rw [if_pos hc.symm, if_pos ⟨rfl, hc⟩]
    · rw [if_neg (Ne.symm hc), if_neg (fun h => hc h.2)]
      rfl
  · rw [if_neg hr, if_neg (fun h => hr (congrArg Fin.val h.1).symm)]

/-- The first `k` entries, row by row, are those of the candidate. -/
def Filled (g : XoShiRo256PlusPlus) (k : ℕ) (mat : Matrix) : Prop :=
  ∀ r c : Fin 64, 64 * r.val + c < k → mat.entry r c = (candidate g).entry r c

theorem Filled.write {g : XoShiRo256PlusPlus} {mat : Matrix} {i j : Fin 64}
    (h : Filled g (64 * i + j) mat) :
    Filled g (64 * i + j + 1) (mat.write i j ((candidate g).entry i j)) := by
  intro r c hlt
  rw [write_entry]
  by_cases hrc : r = i ∧ c.val = j
  · rw [if_pos hrc, hrc.1, Fin.ext hrc.2]
  · rw [if_neg hrc]
    apply h
    have hne : 64 * r.val + c ≠ 64 * i + j := by
      intro heq
      exact hrc ⟨Fin.ext (by omega), by omega⟩
    omega

/-- What the loops keep: `k` words are drawn and written. -/
def Drawn (g : XoShiRo256PlusPlus) (k : ℕ) (s : Matrix × XoShiRo256PlusPlus) : Prop :=
  Filled g (16 * k) s.1 ∧ s.2 = g.after k

/-- The loop over the sixteen nibbles of a word. -/
theorem Filled.word {g : XoShiRo256PlusPlus} {i : Fin 64} {b : Fin 4} {mat : Matrix}
    (h : Filled g (16 * (4 * i + b)) mat) :
    Filled g (16 * (4 * i + b + 1)) ((List.finRange 16).foldl (fun mat (shift : Fin 16) =>
      mat.write i (16 * b + shift) (nibbleOf (g.output (4 * i + b)) shift)) mat) := by
  refine foldl_finRange (fun k mat => Filled g (16 * (4 * i + b) + k) mat) ?_ h
  intro shift mat h
  have hj : 16 * b.val + shift < 64 := by omega
  have hword : (16 * b.val + shift) / 16 = b := by omega
  have hnib : (16 * b.val + shift) % 16 = shift := by omega
  have hidx : 16 * (4 * i.val + b) + shift = 64 * i + (16 * b + shift) := by omega
  have hwrite : Filled g (64 * i + (16 * b + shift) + 1) (mat.write i (16 * b + shift) _) :=
    Filled.write (j := ⟨16 * b + shift, hj⟩) (by rwa [← hidx])
  rw [candidate_entry] at hwrite
  simp only [hword, hnib] at hwrite
  rwa [← hidx] at hwrite

theorem Drawn.row {g : XoShiRo256PlusPlus} {i : Fin 64} {s : Matrix × XoShiRo256PlusPlus}
    (h : Drawn g (4 * i) s) : Drawn g (4 * i + 4) (plainRow s i) := by
  unfold plainRow
  refine foldl_finRange (fun b s => Drawn g (4 * i + b) s) ?_ h
  rintro b ⟨mat, gen⟩ ⟨hmat, hgen⟩
  have hdraw : gen.u64 = (g.output (4 * i + b), g.after (4 * i + b + 1)) := by
    rw [← XoShiRo256PlusPlus.u64_after, ← hgen]
  refine ⟨?_, congrArg Prod.snd hdraw⟩
  show Filled g (16 * (4 * i + b + 1)) ((List.finRange 16).foldl (fun mat (shift : Fin 16) =>
    mat.write i (16 * b + shift) (nibbleOf gen.u64.1 shift)) mat)
  rw [hdraw]
  exact hmat.word

/-- Whatever array it writes over, an attempt of the plain loops draws the candidate. -/
theorem plainFill_eq (mat : Matrix) (g : XoShiRo256PlusPlus) :
    plainFill mat g = (candidate g, g.after 256) := by
  have hstart : Drawn g 0 (mat, g) := ⟨fun r c hlt => absurd hlt (Nat.not_lt_zero _), rfl⟩
  have hfill : Drawn g (4 * 64) (plainFill mat g) := by
    unfold plainFill
    exact foldl_finRange (fun i s => Drawn g (4 * i) s) (fun i s h => h.row) hstart
  rw [show 4 * 64 = 256 by decide] at hfill
  have hmat : (plainFill mat g).1 = candidate g := by
    apply ext_entry
    intro r c
    exact hfill.1 r c (by omega)
  rw [← hmat, ← hfill.2]

theorem plainLoop_eq (P : Prims) (fuel : ℕ) (mat : Matrix) (g : XoShiRo256PlusPlus) :
    plainLoop P fuel mat g = generateLoop P fuel g := by
  induction fuel generalizing mat g with
  | zero => rfl
  | succ fuel ih =>
    unfold plainLoop
    rw [generateLoop_succ, plainFill_eq, randMatrixNoRankCheck_eq]
    simp only [ih]

/-! ## The attempts of a hash -/

/-- The generator before attempt `a`, if the attempts before it are rejected. -/
def attemptStart (hash : Hash) (a : ℕ) : XoShiRo256PlusPlus :=
  (fun g => (randMatrixNoRankCheck g).2)^[a] (.new hash)

def attempt (hash : Hash) (a : ℕ) : Matrix := (randMatrixNoRankCheck (attemptStart hash a)).1

/-- Attempt `a` is accepted and none before it. -/
def FirstAccepted (P : Prims) (hash : Hash) (a : ℕ) : Prop :=
  (attempt hash a).computeRank P.F = 64 ∧ ∀ b < a, (attempt hash b).computeRank P.F ≠ 64

theorem attemptStart_eq (hash : Hash) (a : ℕ) :
    attemptStart hash a = (XoShiRo256PlusPlus.new hash).after (256 * a) := by
  induction a with
  | zero => rfl
  | succ a ih =>
    unfold attemptStart at ih ⊢
    rw [Function.iterate_succ_apply', ih, randMatrixNoRankCheck_eq,
      XoShiRo256PlusPlus.after_after, Nat.mul_succ]

theorem attempt_eq (hash : Hash) (a : ℕ) :
    attempt hash a = candidate ((XoShiRo256PlusPlus.new hash).after (256 * a)) := by
  unfold attempt
  rw [attemptStart_eq, randMatrixNoRankCheck_eq]

theorem attempt_entry (hash : Hash) (a : ℕ) (i j : Fin 64) :
    ((attempt hash a).entry i j).toNat =
      ((XoShiRo256PlusPlus.new hash).output (256 * a + 4 * i + j / 16)).toNat /
        2 ^ (4 * (j.val % 16)) % 16 := by
  rw [attempt_eq, candidate_entry, nibbleOf_toNat _ (Nat.mod_lt _ (by decide)),
    XoShiRo256PlusPlus.output_after, Nat.add_assoc]

theorem attempt_entry_lt (hash : Hash) (a : ℕ) (i j : Fin 64) :
    ((attempt hash a).entry i j).toNat < 16 := by
  rw [attempt_entry]
  exact Nat.mod_lt _ (by decide)

/-- From attempt `a` on. -/
theorem generateLoop_eq_some_iff {P : Prims} {hash : Hash} {m : Matrix} (fuel : ℕ) : ∀ a,
    generateLoop P fuel (attemptStart hash a) = some m ↔ ∃ n, a ≤ n ∧ n < a + fuel ∧
      (attempt hash n).computeRank P.F = 64 ∧
      (∀ b, a ≤ b → b < n → (attempt hash b).computeRank P.F ≠ 64) ∧ attempt hash n = m := by
  induction fuel with
  | zero =>
    intro a
    show none = some m ↔ _
    constructor
    · intro h
      exact absurd h (by simp)
    · rintro ⟨n, hle, hlt, -⟩
      omega
  | succ fuel ih =>
    intro a
    have hnext : (randMatrixNoRankCheck (attemptStart hash a)).2 = attemptStart hash (a + 1) := by
      unfold attemptStart
      rw [Function.iterate_succ_apply']
    rw [generateLoop_succ, hnext]
    show (if (attempt hash a).computeRank P.F = 64 then some (attempt hash a) else _) = _ ↔ _
    -- Accepted, and then it is the first; or not, and the first is a later one.
    by_cases hrank : (attempt hash a).computeRank P.F = 64
    · rw [if_pos hrank]
      constructor
      · intro h
        exact ⟨a, le_rfl, by omega, hrank, fun b hle hlt => absurd hle (by omega), by simpa using h⟩
      · rintro ⟨n, hle, -, -, hbefore, hm⟩
        rcases hle.eq_or_lt with rfl | hlt
        · rw [hm]
        · exact absurd hrank (hbefore a le_rfl hlt)
    · rw [if_neg hrank, ih]
      constructor
      · rintro ⟨n, hle, hlt, hacc, hbefore, hm⟩
        refine ⟨n, by omega, by omega, hacc, ?_, hm⟩
        intro b hab hbn
        rcases hab.eq_or_lt with rfl | hlt
        · exact hrank
        · exact hbefore b hlt hbn
      · rintro ⟨n, hle, hlt, hacc, hbefore, hm⟩
        have hne : a ≠ n := by
          rintro rfl
          exact hrank hacc
        exact ⟨n, by omega, by omega, hacc, fun b hab => hbefore b (by omega), hm⟩

/-- `generate` returns the first attempt that is accepted. -/
theorem generate_eq_some_iff {P : Prims} {fuel : ℕ} {hash : Hash} {m : Matrix} :
    generate P fuel hash = some m ↔ ∃ a < fuel, FirstAccepted P hash a ∧ attempt hash a = m := by
  unfold generate FirstAccepted
  rw [show XoShiRo256PlusPlus.new hash = attemptStart hash 0 from rfl, generateLoop_eq_some_iff]
  simp only [Nat.zero_add, Nat.zero_le, true_and, true_imp_iff, and_assoc]

theorem generate_entry_lt {P : Prims} {fuel : ℕ} {hash : Hash} {m : Matrix}
    (h : generate P fuel hash = some m) (i j : Fin 64) : (m.entry i j).toNat < 16 := by
  obtain ⟨a, -, -, rfl⟩ := generate_eq_some_iff.mp h
  exact attempt_entry_lt hash a i j

/-- **The optimised generator is the plain one.** Both draw the same candidates from the same
words, 256 for each, and both return the first that is accepted. -/
theorem generate_agrees (P : Prims) (hash : Hash) :
    (∀ mat g, plainFill mat g = randMatrixNoRankCheck g) ∧
    (∀ fuel, plainGenerate P fuel hash = generate P fuel hash) ∧
    (∀ a, attemptStart hash a = (XoShiRo256PlusPlus.new hash).after (256 * a)) ∧
    (∀ a i j, ((attempt hash a).entry i j).toNat =
      ((XoShiRo256PlusPlus.new hash).output (256 * a + 4 * i + j / 16)).toNat /
        2 ^ (4 * (j.val % 16)) % 16) ∧
    (∀ fuel m, generate P fuel hash = some m ↔
      ∃ a < fuel, FirstAccepted P hash a ∧ attempt hash a = m) ∧
    (∀ fuel m, generate P fuel hash = some m → ∀ i j, (m.entry i j).toNat < 16) := by
  refine ⟨?_, fun fuel => plainLoop_eq P fuel _ _, attemptStart_eq hash, attempt_entry hash,
    fun fuel m => generate_eq_some_iff, fun fuel m h => generate_entry_lt h⟩
  intro mat g
  rw [plainFill_eq, randMatrixNoRankCheck_eq]

end Matrix

end Pow
end KaspaMiner
