import KaspaMiner.Miner.Connection

/-!
# The loop of `main.rs`

`main` connects, makes a `MinerManager` and listens until the stream ends; then the manager is
dropped and the loop starts over. `World` is the whole process: where `main` is, and every
connection it ever made, with its threads. `MinerManager::drop` aborts the logger and nothing else,
so the threads of a connection take steps whether or not its manager is still there.

An error, wherever it comes from, ends `main`. The locals of the loop are dropped first and the
flag of `_shutdown_when_dropped` is set after that.
-/

namespace KaspaMiner

open Miner (Connection Mining)

inductive MainPc where
  /-- At the head of the loop, up to `MinerManager::new`. -/
  | connect
  /-- In `listen`, on the connection made last. -/
  | listen
  /-- On the way out, the manager dropped and the flag not set yet. -/
  | unwind
  | returned

structure World where
  main : MainPc
  connections : List Connection
  shutdown : Bool

namespace World

def start : World := { main := .connect, connections := [], shutdown := false }

/-- The manager of connection `m` is the one there is. -/
def Current (w : World) (m : ℕ) : Prop := w.main = .listen ∧ m + 1 = w.connections.length

/-- Templates are processed by a manager that is there, and a template that is not taken is an
`error`. The logger goes with its manager. A thread needs nobody. -/
def Allows (P : Prims) (w : World) (m : ℕ) (conn : Connection) : Connection.Action → Prop
  | .process fuel block => w.Current m ∧ (conn.manager.processBlock P fuel block).2 = .ok ()
  | .log _ => w.Current m
  | .work _ _ => True

inductive Action where
  | connect (nonces : List UInt64)
  | conn (m : ℕ) (a : Connection.Action)
  /-- The stream ends and `listen` returns `Ok`. -/
  | disconnect
  | error
  | exit

/-- `numThreads` is what `get_num_cpus` makes of the option. -/
inductive Step (P : Prims) (numThreads : UInt16) : World → Action → World → Prop
  | connect {w : World} {nonces : List UInt64} (hmain : w.main = .connect)
      (hshutdown : w.shutdown = false) (hlen : nonces.length = numThreads.toNat) :
      Step P numThreads w (.connect nonces)
        { w with main := .listen, connections := w.connections ++ [.new nonces] }
  | conn {w : World} {m : ℕ} {a : Connection.Action} {conn conn' : Connection}
      (hconn : w.connections[m]? = some conn) (hstep : conn.Step P w.shutdown a conn')
      (hallows : w.Allows P m conn a) :
      Step P numThreads w (.conn m a) { w with connections := w.connections.set m conn' }
  | disconnect {w : World} (hmain : w.main = .listen) :
      Step P numThreads w .disconnect { w with main := .connect }
  | error {w : World} (hmain : w.main = .listen) :
      Step P numThreads w .error { w with main := .unwind }
  /-- From the head of the loop, too: a connection that cannot be made, or shutdown. -/
  | exit {w : World} (hmain : w.main = .connect ∨ w.main = .unwind) :
      Step P numThreads w .exit { w with main := .returned, shutdown := true }

variable {P : Prims} {numThreads : UInt16} {w w' : World} {a : Action} {m : ℕ}

/-- A connection moves by its own actions only. -/
theorem Step.connection {conn : Connection} (h : Step P numThreads w a w')
    (hconn : w.connections[m]? = some conn) :
    (∃ b conn', a = .conn m b ∧ w'.connections[m]? = some conn' ∧
      conn.Step P w.shutdown b conn' ∧ w.Allows P m conn b) ∨
    (∀ b, a ≠ .conn m b) ∧ w'.connections[m]? = some conn := by
  have hlt : m < w.connections.length := (List.getElem?_eq_some_iff.mp hconn).1
  cases h with
  | connect hmain hshutdown hlen =>
    exact .inr ⟨by simp, by simp [List.getElem?_append_left hlt, hconn]⟩
  | @conn m' b conn₁ conn' hconn' hstep hallows =>
    by_cases hm : m' = m
    · subst hm
      obtain rfl : conn = conn₁ := Option.some.inj (hconn.symm.trans hconn')
      exact .inl ⟨b, conn', rfl, by simp [hlt], hstep, hallows⟩
    · exact .inr ⟨by simp [hm], by simp [hm, hconn]⟩
  | disconnect hmain => exact .inr ⟨by simp, hconn⟩
  | error hmain => exact .inr ⟨by simp, hconn⟩
  | exit hmain => exact .inr ⟨by simp, hconn⟩

theorem Step.conn_inv {b : Connection.Action} (h : Step P numThreads w (.conn m b) w') :
    ∃ conn conn', w.connections[m]? = some conn ∧ w'.connections[m]? = some conn' ∧
      conn.Step P w.shutdown b conn' := by
  cases h with
  | @conn _ _ conn conn' hconn hstep hallows =>
    have hlt := (List.getElem?_eq_some_iff.mp hconn).1
    exact ⟨conn, conn', hconn, List.getElem?_set_self hlt, hstep⟩

/-- A connection that was not there before is new, and current. -/
theorem Step.connection_new (h : Step P numThreads w a w') {conn : Connection}
    (hold : w.connections[m]? = none) (hconn : w'.connections[m]? = some conn) :
    ∃ nonces, conn = .new nonces ∧ nonces.length = numThreads.toNat ∧ w'.Current m := by
  have hge : w.connections.length ≤ m := List.getElem?_eq_none_iff.mp hold
  have hlt : m < w'.connections.length := (List.getElem?_eq_some_iff.mp hconn).1
  cases h with
  | @connect nonces hmain hshutdown hlen =>
    have hm : m = w.connections.length := by
      rw [List.length_append, List.length_singleton] at hlt
      exact Nat.le_antisymm (Nat.lt_succ_iff.mp hlt) hge
    subst hm
    have hnew : conn = .new nonces := by simpa using hconn.symm
    exact ⟨nonces, hnew, hlen, rfl, by simp⟩
  | conn hconn' hstep hallows =>
    rw [List.length_set] at hlt
    exact absurd hlt (Nat.not_lt.mpr hge)
  | disconnect hmain => exact absurd hlt (Nat.not_lt.mpr hge)
  | error hmain => exact absurd hlt (Nat.not_lt.mpr hge)
  | exit hmain => exact absurd hlt (Nat.not_lt.mpr hge)

/-- A manager that was dropped does not come back. -/
theorem Step.current (h : Step P numThreads w a w') (hm : m < w.connections.length)
    (hcur : w'.Current m) : w.Current m := by
  obtain ⟨hmain', hlen⟩ := hcur
  cases h with
  | connect hmain hshutdown hnonces =>
    rw [List.length_append, List.length_singleton] at hlen
    exact absurd (Nat.succ.inj hlen) (Nat.ne_of_lt hm)
  | conn hconn hstep hallows => exact ⟨hmain', by rwa [List.length_set] at hlen⟩
  | disconnect hmain => exact absurd hmain' (by simp)
  | error hmain => exact absurd hmain' (by simp)
  | exit hmain => exact absurd hmain' (by simp)

/-- What drops a manager, and that it does nothing else. -/
theorem Step.dropped (h : Step P numThreads w a w') (hcur : w.Current m) :
    w'.Current m ∨ (a = .disconnect ∨ a = .error) ∧ w'.connections = w.connections := by
  obtain ⟨hmain, hlen⟩ := hcur
  cases h with
  | connect hmain' hshutdown hnonces =>
    rw [hmain] at hmain'
    exact absurd hmain' (by simp)
  | conn hconn hstep hallows => exact .inl ⟨hmain, by rwa [List.length_set]⟩
  | disconnect hmain' => exact .inr ⟨.inl rfl, rfl⟩
  | error hmain' => exact .inr ⟨.inr rfl, rfl⟩
  | exit hmain' =>
    rw [hmain] at hmain'
    exact absurd hmain' (by simp)

/-! ## One connection of the process -/

/-- Connection `m`, with the flag its threads read. -/
def mining (m : ℕ) (w : World) : Mining :=
  { conn := w.connections[m]?.getD (.new []), shutdown := w.shutdown }

/-- What of an action connection `m` sees. -/
def Action.view (m : ℕ) : Action → Option Mining.Action
  | conn m' a => if m' = m then some (.conn a) else none
  | exit => some .shutdown
  | connect _ | disconnect | error => none

theorem mining_eq {conn : Connection} (h : w.connections[m]? = some conn) :
    w.mining m = { conn, shutdown := w.shutdown } := by
  unfold mining
  rw [h]
  rfl

/-- **Every connection of the process is a `Mining` of its own**, from the moment it is made. -/
theorem mining_run {as : List Action} (h : Lib.Run (Step P numThreads) w as w')
    (hm : m < w.connections.length) :
    Lib.Run (Mining.Step P) (w.mining m) (as.filterMap (Action.view m)) (w'.mining m) := by
  refine h.simulate (I := fun w => m < w.connections.length) ?_ hm
  intro w a w' hm hstep
  have hconn : w.connections[m]? = some w.connections[m] := List.getElem?_eq_getElem hm
  cases hstep with
  | connect hmain hshutdown hlen =>
    refine ⟨by rw [List.length_append]; exact Nat.lt_add_right _ hm, ?_⟩
    show mining m _ = mining m w
    rw [mining_eq hconn, mining_eq (by rw [List.getElem?_append_left hm]; exact hconn)]
  -- A step of another connection is nothing to this one.
  | @conn m' b conn₁ conn' hconn₁ hstep hallows =>
    refine ⟨by rwa [List.length_set], ?_⟩
    by_cases hm' : m' = m
    · subst hm'
      obtain rfl : conn₁ = w.connections[m'] := Option.some.inj (hconn₁.symm.trans hconn)
      have hset : mining m' { w with connections := w.connections.set m' conn' } =
          { conn := conn', shutdown := w.shutdown } := mining_eq (List.getElem?_set_self hm)
      rw [Action.view, if_pos rfl, mining_eq hconn, hset]
      exact .conn hstep
    · rw [Action.view, if_neg hm']
      show mining m _ = mining m w
      rw [mining_eq hconn, mining_eq (by rw [List.getElem?_set_ne hm']; exact hconn)]
  | disconnect hmain => exact ⟨hm, rfl⟩
  | error hmain => exact ⟨hm, rfl⟩
  | exit hmain => exact ⟨hm, .shutdown⟩

end World

end KaspaMiner
