import SceneCulling.Diagnostics.Edit

/-!
# Chatter

Entries of the two lowest severities are chatter: they tell how a computation went, and nothing
was wrong. A computation is quiet if all that it records is graver. Faults and warnings are, so
a computation is quiet if its parts are, one after the other, and in most computations there is
nothing else to record. There is one lemma for each way to build a computation.
-/

namespace SceneCulling

/-- The entries that only tell how a computation went, in order. -/
def chatter (log : List Entry) : List Entry :=
  log.filter fun entry => decide (entry.severity ≤ .debug)

@[simp] theorem chatter_nil : chatter [] = [] := rfl

@[simp] theorem chatter_append (first second : List Entry) :
    chatter (first ++ second) = chatter first ++ chatter second :=
  List.filter_append first second

namespace Logged

variable {α β : Type} {x : Logged α} {f : α → Logged β}

/-- Nothing is recorded but what is graver than chatter. -/
def Quiet (x : Logged α) : Prop := chatter x.log = []

theorem quiet_pure (a : α) : (pure a : Logged α).Quiet := rfl

theorem quiet_warning (component : Component) (message : String) :
    (note .warn component message).Quiet := rfl

theorem Quiet.bind (h : x.Quiet) (hnext : ∀ a, (f a).Quiet) : (x >>= f).Quiet := by
  rw [Quiet, log_bind, chatter_append, h, hnext x.value]
  rfl

/-- After a quiet computation only the next one is heard. -/
theorem Quiet.chatter_bind (h : x.Quiet) (f : α → Logged β) :
    chatter (x >>= f).log = chatter (f x.value).log := by
  rw [log_bind, chatter_append, h, List.nil_append]

/-- Before a quiet end only what came first is heard. -/
theorem chatter_bind_of_quiet (x : Logged α) (h : (f x.value).Quiet) :
    chatter (x >>= f).log = chatter x.log := by
  rw [log_bind, chatter_append, h, List.append_nil]

theorem chatter_bind_pure (x : Logged α) (g : α → β) :
    chatter (x >>= fun a => pure (g a)).log = chatter x.log :=
  chatter_bind_of_quiet x (quiet_pure _)

end Logged

/-- A fault is recorded, but not as chatter. -/
theorem Attempt.quiet_raise {α : Type} (fault : Fault) : (raise fault : Attempt α).run.Quiet := rfl

namespace Edit

variable {σ τ α β : Type}

/-- Whatever the edit works on, it is quiet. -/
def Quiet (edit : Edit σ α) : Prop := ∀ s, (edit.perform s).Quiet

theorem quiet_pure (a : α) : (pure a : Edit σ α).Quiet := fun _ => rfl

theorem quiet_get : (get : Edit σ σ).Quiet := fun _ => rfl

theorem quiet_set (t : σ) : (set t : Edit σ PUnit).Quiet := fun _ => rfl

theorem quiet_modify (f : σ → σ) : (modify f : Edit σ PUnit).Quiet := fun _ => rfl

theorem quiet_raise (fault : Fault) : (raise fault : Edit σ α).Quiet := fun _ => rfl

theorem quiet_onCopy {edit : Edit τ Unit} (h : edit.Quiet) (t : τ) :
    (onCopy t edit : Edit σ τ).Quiet := fun _ => h t

/-- After a failure nothing more is recorded, and after a success what comes next. -/
theorem Quiet.bind {edit : Edit σ α} {next : α → Edit σ β} (h : edit.Quiet)
    (hnext : ∀ a, (next a).Quiet) : (edit >>= next).Quiet := by
  intro s
  have hfirst := h s
  rcases hperform : edit.perform s with ⟨⟨result, t⟩, log⟩
  rw [hperform] at hfirst
  cases result with
  | error fault =>
      rw [perform_bind_of_error hperform]
      exact hfirst
  | ok a =>
      rw [perform_bind_of_ok hperform, Logged.Quiet, chatter_append, hnext a t, List.append_nil]
      exact hfirst

end Edit

end SceneCulling
