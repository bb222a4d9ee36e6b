import KaspaMiner.Lib.Entries
import KaspaMiner.Miner.Channel
import KaspaMiner.Proof.Swap.Changes

/-!
# `WatchSwap` is a channel

The rest of the development speaks of a `Channel`, which is swapped in one step and looked at in
one step. The two facts here are what lets it: the channel moves where `swap` stores and nowhere
else, and at the moment of a load it says of a handle's position what the comparison that follows
will say of its cache. `Proof.Threaded` builds on them.
-/

namespace KaspaMiner
namespace SwapRust

open Config

variable {T Addr Tid Hid : Type}

/-- The channel a configuration stands for. -/
def channel (c : Config T Addr Tid Hid) : Channel T :=
  { older := c.installed.dropLast.map (Option.map Arc.val), current := c.inner.map Arc.val }

theorem channel_contents {c : Config T Addr Tid Hid} (h : Installs c) :
    (channel c).contents = c.installed.map (Option.map Arc.val) := by
  have hlast : c.installed.dropLast ++ [c.inner] = c.installed :=
    List.dropLast_append_getLast? _ h.last
  unfold Channel.contents
  rw [channel]
  conv_rhs => rw [← hlast]
  rw [List.map_append]
  rfl

theorem channel_pos {c : Config T Addr Tid Hid} : (channel c).pos = c.installed.length - 1 := by
  simp [Channel.pos, channel]

theorem channel_content {c : Config T Addr Tid Hid} (h : Installs c) {k : ℕ}
    {x : Option (Arc T Addr)} (hx : c.installed[k]? = some x) :
    (channel c).content k = x.map Arc.val := by
  unfold Channel.content
  rw [channel_contents h, List.getElem?_map, hx]
  rfl

variable {c : Config T Addr Tid Hid}

/-- The handle's own position stands for its cache. -/
theorem changed_iff (hI : Inv c) {x : Hid} {hd : Handle T Addr} (hx : c.handles x = some hd) :
    (channel c).changed hd.seen = true ↔ c.inner ≠ hd.cached := by
  obtain ⟨hcached, -⟩ := hI.sees.handle x hd hx
  have hlast := hI.installs.last
  rw [List.getLast?_eq_getElem?] at hlast
  have hseen := channel_content hI.installs hcached
  constructor
  · intro h he
    rw [he] at hlast
    unfold Channel.changed at h
    rw [channel_pos, hseen] at h
    have hcur : (channel c).current = hd.cached.map Arc.val := by rw [channel, he]
    rw [hcur] at h
    cases hc : hd.cached with
    | none => rw [hc] at h; simp at h
    | some b =>
      rw [hc] at hcached hlast
      rw [Lib.eq_of_getElem?_some hI.installs.nodup hcached hlast] at h
      simp at h
  · intro hne
    unfold Channel.changed
    rw [channel_pos, hseen]
    have hpos : hd.seen ≠ c.installed.length - 1 := by
      intro he
      rw [he, hlast] at hcached
      exact hne (Option.some.inj hcached)
    have hsome : (hd.cached.map Arc.val).isSome = true ∨ (channel c).current.isSome = true := by
      by_contra hnone
      simp [channel] at hnone
      exact hne (by rw [hnone.1, hnone.2])
    simpa [hpos] using hsome

variable [DecidableEq Addr] [DecidableEq Tid] [DecidableEq Hid]

/-- **`swap` moves the channel once**, when it stores; no other step of any call moves it. -/
theorem channel_step (hI : Inv c) {c' : Config T Addr Tid Hid} {a : Action T Addr Tid Hid}
    (h : Step c a c') :
    (∃ t new, a = .store t ∧ c.pc t = .swapStore new ∧
      channel c' = (channel c).swap (new.map Arc.val)) ∨
    (∀ t, a ≠ .store t) ∧ channel c' = channel c := by
  cases h with
  | @store t new hpc =>
    have hcontents : c.installed.map (Option.map Arc.val) = (channel c).contents :=
      (channel_contents hI.installs).symm
    refine .inl ⟨t, new, rfl, hpc, ?_⟩
    unfold channel
    rw [Channel.swap, List.dropLast_concat, hcontents]
    rfl
  | callSwap | lock | notify | unlock | callGet | callWait | load | compare | park | spurious
  | clone | dropHandle | dropReturned =>
    exact .inr ⟨by simp, rfl⟩

end SwapRust
end KaspaMiner
