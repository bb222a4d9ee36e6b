import Mathlib.Data.List.Nodup
import Mathlib.Data.List.Infix
import KaspaMiner.Proof.Swap.Owners

/-!
# The history of a cell and what a handle sees of it

`Installs` is about the cell: the history ends with its content, and no `Some` is in it twice.
`Sees` is about the handles: a cache is what was installed at the position of the last
comparison, a guard what was installed at the position it was loaded at, and positions only go
up. What a handle has reported is then read off the history from left to right.

The steps matter to these only through four of the questions of `Steps`: what a step does to the
history (`installed_step`), which call may be about to store (`swapStore_step`), which may hold a
guard (`compare_step`), and where a cache comes from (`handles_step`).
-/

namespace KaspaMiner
namespace SwapRust

open Config

variable {T Addr Tid Hid : Type} [DecidableEq Addr] [DecidableEq Tid] [DecidableEq Hid]
variable {c c' : Config T Addr Tid Hid} {a : Action T Addr Tid Hid}

/-! ## The cell -/

structure Installs (c : Config T Addr Tid Hid) : Prop where
  last : c.installed.getLast? = some c.inner
  serial : ∀ x, some x ∈ c.installed → x.serial < c.next
  pending : ∀ t x, c.pc t = .swapStore (some x) → x.serial < c.next ∧ some x ∉ c.installed
  apart : ∀ t u x, c.pc t = .swapStore (some x) → c.pc u = .swapStore (some x) → t = u
  nodup : (c.installed.filterMap id).Nodup

namespace Installs

theorem last_step (h : Step c a c') (hI : Installs c) :
    c'.installed.getLast? = some c'.inner := by
  rcases installed_step h with ⟨he, hinner, -⟩ | ⟨t, new, -, -, -, hinner, he⟩
  · rw [he, hinner, hI.last]
  · rw [he, hinner, List.getLast?_append]
    rfl

theorem serial_step (h : Step c a c') (hI : Installs c) {x : Arc T Addr}
    (hx : some x ∈ c'.installed) : x.serial < c'.next := by
  apply lt_of_lt_of_le ?_ (next_step h)
  rcases installed_step h with ⟨he, -, -⟩ | ⟨t, new, -, hpc, -, -, he⟩
  · rw [he] at hx
    exact hI.serial x hx
  · rw [he, List.mem_append, List.mem_singleton] at hx
    rcases hx with hx | rfl
    · exact hI.serial x hx
    · exact (hI.pending t x hpc).1

/-- An `Arc` made by this step is younger than every `Arc` that was pending or installed. -/
theorem pending_step (h : Step c a c') (hI : Installs c) {u : Tid} {x : Arc T Addr}
    (hu : c'.pc u = .swapStore (some x)) : x.serial < c'.next ∧ some x ∉ c'.installed := by
  rcases swapStore_step h hu with hu' | hcall
  · obtain ⟨hserial, hmem⟩ := hI.pending u x hu'
    refine ⟨lt_of_lt_of_le hserial (next_step h), ?_⟩
    rcases installed_step h with ⟨he, -, -⟩ | ⟨t, new, -, hpc, hpc', -, he⟩
    · rw [he]
      exact hmem
    · intro hx
      rw [he, List.mem_append, List.mem_singleton] at hx
      rcases hx with hx | rfl
      · exact hmem hx
      · have hut := hI.apart u t x hu' hpc
        subst hut
        rw [hu] at hpc'
        exact absurd hpc' (by simp)
  · subst hcall
    obtain ⟨hserial, hnext, -⟩ := callSwap_fresh h
    constructor
    · rw [hserial, hnext]
      exact Nat.lt_succ_self _
    · intro hx
      rcases installed_step h with ⟨he, -, -⟩ | ⟨t, new, hstore, -⟩
      · rw [he] at hx
        exact absurd hserial (hI.serial x hx).ne
      · exact absurd hstore (by simp)

theorem apart_step (h : Step c a c') (hI : Installs c) {t u : Tid} {x : Arc T Addr}
    (ht : c'.pc t = .swapStore (some x)) (hu : c'.pc u = .swapStore (some x)) : t = u := by
  -- a pending `Arc` is older than the one this step makes
  have hfresh : ∀ w w', c.pc w = .swapStore (some x) → a ≠ .callSwap w' (some x) := by
    intro w w' hw ha
    subst ha
    exact absurd (callSwap_fresh h).1 (hI.pending w x hw).1.ne
  rcases swapStore_step h ht with ht' | hcall
  · rcases swapStore_step h hu with hu' | hcall
    · exact hI.apart t u x ht' hu'
    · exact absurd hcall (hfresh t u ht')
  · rcases swapStore_step h hu with hu' | hcall'
    · exact absurd hcall (hfresh u t hu')
    · rw [hcall] at hcall'
      injection hcall'

theorem nodup_step (h : Step c a c') (hI : Installs c) : (c'.installed.filterMap id).Nodup := by
  rcases installed_step h with ⟨he, -, -⟩ | ⟨t, new, -, hpc, -, -, he⟩
  · rw [he]
    exact hI.nodup
  · rw [he, List.filterMap_append]
    cases new with
    | none => simpa using hI.nodup
    | some x =>
      apply List.nodup_append'.mpr
      refine ⟨hI.nodup, by simp, ?_⟩
      intro y hy hy'
      have hyx : y = x := by simpa using hy'
      subst hyx
      obtain ⟨o, ho, rfl⟩ := List.mem_filterMap.mp hy
      exact (hI.pending t _ hpc).2 ho

end Installs

theorem installs_step (h : Step c a c') (hI : Installs c) : Installs c' where
  last := hI.last_step h
  serial _ hx := hI.serial_step h hx
  pending _ _ hu := hI.pending_step h hu
  apart _ _ _ ht hu := hI.apart_step h ht hu
  nodup := hI.nodup_step h

/-! ## The handles -/

structure Sees (c : Config T Addr Tid Hid) : Prop where
  handle : ∀ h hd, c.handles h = some hd → c.installed[hd.seen]? = some hd.cached ∧
    hd.reports.Sublist (c.installed.take (hd.seen + 1))
  guard : ∀ t caller h guard pos, c.pc t = .compare caller h guard pos →
    c.installed[pos]? = some guard ∧ ∀ hd, c.handles h = some hd → hd.seen ≤ pos

theorem getElem?_mono {α : Type*} {l l' : List α} (h : l <+: l') {i : ℕ} {x : α}
    (hx : l[i]? = some x) : l'[i]? = some x := by
  obtain ⟨t, rfl⟩ := h
  have hi : i < l.length := (List.getElem?_eq_some_iff.mp hx).1
  rw [List.getElem?_append_left hi, hx]

theorem take_mono {α : Type*} {l l' : List α} (h : l <+: l') {i : ℕ} {x : α}
    (hx : l[i]? = some x) : l'.take (i + 1) = l.take (i + 1) := by
  obtain ⟨t, rfl⟩ := h
  have hi : i < l.length := (List.getElem?_eq_some_iff.mp hx).1
  exact List.take_append_of_le_length hi

omit [DecidableEq Tid] [DecidableEq Hid] in
/-- A comparison at a later position keeps what is known of a handle: a report is of a position
behind the last one, since the content there is another one. -/
theorem compared_sees {installed : List (Option (Arc T Addr))} {hd : Handle T Addr}
    {guard : Option (Arc T Addr)} {pos : ℕ} (hcached : installed[hd.seen]? = some hd.cached)
    (hreports : hd.reports.Sublist (installed.take (hd.seen + 1)))
    (hguard : installed[pos]? = some guard) (hle : hd.seen ≤ pos)
    (hsame : asPtr hd.cached = asPtr guard → hd.cached = guard) :
    installed[(hd.compared guard pos).seen]? = some (hd.compared guard pos).cached ∧
      (hd.compared guard pos).reports.Sublist
        (installed.take ((hd.compared guard pos).seen + 1)) := by
  unfold Handle.compared
  by_cases hptr : asPtr hd.cached = asPtr guard
  · rw [if_neg (by simpa using hptr)]
    refine ⟨by rw [hsame hptr]; exact hguard, hreports.trans ?_⟩
    exact List.take_sublist_take_left (by simpa using hle)
  · rw [if_pos hptr]
    refine ⟨hguard, ?_⟩
    -- The content at `pos` is another one, so `pos` is behind the last comparison.
    have hlt : hd.seen < pos := by
      apply lt_of_le_of_ne hle
      intro heq
      subst heq
      rw [hcached] at hguard
      exact hptr (congrArg asPtr (Option.some.inj hguard))
    have hpos : pos < installed.length := (List.getElem?_eq_some_iff.mp hguard).1
    have hget : installed[pos] = guard := (List.getElem?_eq_some_iff.mp hguard).2
    rw [List.take_succ_eq_append_getElem hpos, hget]
    refine List.Sublist.append (hreports.trans ?_) (List.Sublist.refl _)
    exact List.take_sublist_take_left hlt

theorem sees_step (h : Step c a c') (hB : Borrows c.pc c.handles) (hD : Distinct c)
    (hN : Installs c) (hI : Sees c) : Sees c' := by
  have hpre := installed_extends h
  refine ⟨?_, ?_⟩
  · intro x hd' hx
    rcases handles_step h hx with hx' |
      ⟨t, caller, guard, pos, hd, changed, -, hpc, -, hh, rfl⟩ | ⟨y, hd, hh, -, rfl, -⟩
    · obtain ⟨hcached, hreports⟩ := hI.handle x hd' hx'
      exact ⟨getElem?_mono hpre hcached, by rwa [take_mono hpre hcached]⟩
    · obtain ⟨hguard, hle⟩ := hI.guard t caller x guard pos hpc
      obtain ⟨hcached, hreports⟩ := hI.handle x hd hh
      have hsame := (hD.asPtr_eq_iff (x := hd.cached) (y := guard) (fun b hb => .handle hh hb)
        fun b hb => .call (t := t) (by rw [hpc]; exact hb)).mp
      obtain ⟨hcached', hreports'⟩ := compared_sees hcached hreports hguard (hle hd hh) hsame
      exact ⟨getElem?_mono hpre hcached', by rwa [take_mono hpre hcached']⟩
    · obtain ⟨hcached, -⟩ := hI.handle y hd hh
      exact ⟨getElem?_mono hpre hcached, List.nil_sublist _⟩
  · intro u caller x guard pos hu
    rcases compare_step h hu with hu' | ⟨hload, hpc, rfl, rfl⟩
    · obtain ⟨hguard, hle⟩ := hI.guard u caller x guard pos hu'
      refine ⟨getElem?_mono hpre hguard, fun hd' hx => ?_⟩
      rcases handles_step h hx with hx' |
        ⟨t, caller', guard', pos', hd, changed, -, hpc, hpc', hh, rfl⟩ | ⟨y, hd, hh, hnone, rfl, -⟩
      · exact hle hd' hx'
      · -- the handle is borrowed by one call only, and that one is not at the comparison any more
        have hut := hB.unique u t x (by rw [hu']; rfl) (by rw [hpc]; rfl)
        subst hut
        rw [hu] at hpc'
        cases caller' <;> cases changed <;> exact absurd hpc' (by simp [afterCompare])
      · obtain ⟨hd₀, hhd₀⟩ := hB.exist u x (by rw [hu']; rfl)
        rw [hnone] at hhd₀
        exact absurd hhd₀ (by simp)
    · have hlast := hN.last
      rw [List.getLast?_eq_getElem?] at hlast
      refine ⟨getElem?_mono hpre hlast, fun hd' hx => ?_⟩
      rcases handles_step h hx with hx' | ⟨t, _, _, _, _, _, ha, -⟩ | ⟨y, hd, hh, hnone, rfl, hpcs⟩
      · have hseen := (List.getElem?_eq_some_iff.mp (hI.handle x hd' hx').1).1
        omega
      · rw [hload] at ha
        exact absurd ha (by simp)
      · rw [hpcs, hpc] at hu
        exact absurd hu (by simp)

end SwapRust
end KaspaMiner
