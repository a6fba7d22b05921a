import SceneCulling.Diagnostics.Monitor

/-!
# Listening

A host program that has a logger installed hears of each entry where it arises, in the middle
of the operation, unless the settings hold it back. `listen` runs a computation in this way:
it hands on the entries one at a time and gives the value. It takes a sequence of computations
to the sequence of what is heard of them, so it makes no difference whether entries are handed
on where they arise or after the operation. In all, the host program captures the entries that
are graver than the floor, in order.
-/

namespace SceneCulling

theorem Severity.trace_le (severity : Severity) : .trace ≤ severity := Nat.zero_le severity.rank

namespace Monitor

variable {α β : Type} {monitor : Monitor}

/-- Hands one entry to a host program, which keeps what it gets, oldest first. -/
def dispatch (monitor : Monitor) (entry : Entry) : StateM (List Entry) PUnit :=
  modify fun captured =>
    if monitor.sink = .host ∧ monitor.isEnabled entry.severity = true then captured ++ [entry]
    else captured

/-- A computation, with its entries handed on in the order in which they arise. -/
def listen (monitor : Monitor) (x : Logged α) : StateM (List Entry) α := do
  forM x.log monitor.dispatch
  return x.value

/-! ## Entries are handed on where they arise -/

@[simp] theorem listen_pure (a : α) : monitor.listen (pure a) = pure a := rfl

@[simp] theorem listen_record (entry : Entry) :
    monitor.listen (Logged.record entry) = monitor.dispatch entry := rfl

/-- What is heard of two computations is what is heard of the first and then of the second. -/
@[simp] theorem listen_bind (x : Logged α) (f : α → Logged β) :
    monitor.listen (x >>= f) = monitor.listen x >>= fun a => monitor.listen (f a) := by
  simp only [listen, Logged.log_bind, Logged.value_bind, List.forM_append, bind_assoc, pure_bind]

/-! ## What is captured -/

theorem run_dispatch (h : monitor.sink = .host) (entry : Entry) (captured : List Entry) :
    (monitor.dispatch entry).run captured = (⟨⟩, captured ++ monitor.deliver [entry]) := by
  refine congrArg (Prod.mk PUnit.unit) ?_
  cases henabled : monitor.isEnabled entry.severity with
  | true => simp [deliver, h, henabled]
  | false => simp [deliver, henabled]

theorem run_forM_dispatch (h : monitor.sink = .host) (entries captured : List Entry) :
    (forM entries monitor.dispatch).run captured = (⟨⟩, captured ++ monitor.deliver entries) := by
  induction entries generalizing captured with
  | nil => exact congrArg (Prod.mk PUnit.unit) (List.append_nil captured).symm
  | cons entry entries ih =>
      have hsplit : monitor.deliver (entry :: entries) =
          monitor.deliver [entry] ++ monitor.deliver entries :=
        List.filter_append [entry] entries
      rw [List.forM_cons, StateT.run_bind, run_dispatch h, hsplit, ← List.append_assoc]
      exact ih (captured ++ monitor.deliver [entry])

/-- The value is given in any case, and the entries above the floor are kept, in order. -/
theorem run_listen (h : monitor.sink = .host) (x : Logged α) (captured : List Entry) :
    (monitor.listen x).run captured = (x.value, captured ++ monitor.deliver x.log) := by
  rw [listen, StateT.run_bind, run_forM_dispatch h]
  rfl

/-- Without a floor the host program hears of every entry. -/
theorem deliver_of_trace (h : monitor.settings.minSeverity = .trace) (entries : List Entry) :
    monitor.deliver entries = entries := by
  refine List.filter_eq_self.mpr fun entry _ => ?_
  simp only [isEnabled, h, Severity.trace_le, decide_true]

end Monitor

end SceneCulling
