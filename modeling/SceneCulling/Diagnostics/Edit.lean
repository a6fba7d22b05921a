import SceneCulling.Diagnostics.Fault

/-!
# Operations that report

`Logged` is a result together with the diagnostics of the computation that gave it, in
order. Nothing reads a diagnostic back, so diagnostics never decide a result.

An `Attempt` may fail with a fault. An `Edit σ` works on a value of type `σ` in place
and may fail as well. A failed edit stops; what it has written so far stays written.
Every fault is recorded once, where it arises, by `raise`.
-/

namespace SceneCulling

/-- A value and the diagnostics that led to it, oldest first. -/
structure Logged (α : Type) where
  value : α
  log : List Entry := []

namespace Logged

variable {α β : Type}

instance : Monad Logged where
  pure a := ⟨a, []⟩
  bind x f := ⟨(f x.value).value, x.log ++ (f x.value).log⟩

@[simp] theorem value_pure (a : α) : (pure a : Logged α).value = a := rfl

@[simp] theorem log_pure (a : α) : (pure a : Logged α).log = [] := rfl

@[simp] theorem value_bind (x : Logged α) (f : α → Logged β) :
    (x >>= f).value = (f x.value).value := rfl

@[simp] theorem log_bind (x : Logged α) (f : α → Logged β) :
    (x >>= f).log = x.log ++ (f x.value).log := rfl

@[simp] theorem value_map (f : α → β) (x : Logged α) : (f <$> x).value = f x.value := rfl

@[simp] theorem log_map (f : α → β) (x : Logged α) : (f <$> x).log = x.log := by
  change x.log ++ [] = x.log
  simp

/-- Records one entry. -/
def record (entry : Entry) : Logged Unit := ⟨(), [entry]⟩

/-- Records an entry of a component that names no location. -/
def note (severity : Severity) (component : Component) (message : String) : Logged Unit :=
  record { severity, source := component.text, message }

end Logged

/-- A computation that reports and may fail. -/
abbrev Attempt := ExceptT Fault Logged

/-- A computation that works on a value in place, reports, and may fail. -/
abbrev Edit (σ : Type) := ExceptT Fault (StateT σ Logged)

/-- Records a fault and fails with it. -/
def Attempt.raise {α : Type} (fault : Fault) : Attempt α :=
  ExceptT.mk ⟨.error fault, [fault.entry]⟩

namespace Edit

variable {σ τ α β : Type}

/-- Records a fault and fails with it. -/
def raise (fault : Fault) : Edit σ α :=
  ExceptT.mk fun s => ⟨(.error fault, s), [fault.entry]⟩

/-- The outcome of an edit of `s`: the result, the value as the edit leaves it, and the
diagnostics. -/
def perform (edit : Edit σ α) (s : σ) : Logged (Except Fault α × σ) := edit.run.run s

/-- An attempt as an edit that leaves the value alone. -/
def ofAttempt (attempt : Attempt α) : Edit σ α :=
  ExceptT.mk fun s => ⟨(attempt.run.value, s), attempt.run.log⟩

/-- An edit of a copy of `t`, which gives back the edited copy. -/
def onCopy (t : τ) (edit : Edit τ Unit) : Edit σ τ :=
  ExceptT.mk fun s =>
    let outcome := edit.perform t
    ⟨(outcome.value.1.map fun _ => outcome.value.2, s), outcome.log⟩

/-- An edit that never fails, which tells whether the given one succeeded. -/
def succeeds (edit : Edit σ Unit) : StateT σ Logged Bool := fun s => do
  let (result, s) ← edit.perform s
  return (result.isOk, s)

/-! ## Outcomes -/

@[simp] theorem perform_pure (a : α) (s : σ) :
    (pure a : Edit σ α).perform s = ⟨(.ok a, s), []⟩ := rfl

@[simp] theorem perform_raise (fault : Fault) (s : σ) :
    (raise fault : Edit σ α).perform s = ⟨(.error fault, s), [fault.entry]⟩ := rfl

@[simp] theorem perform_get (s : σ) : (get : Edit σ σ).perform s = ⟨(.ok s, s), []⟩ := rfl

@[simp] theorem perform_set (t s : σ) :
    (set t : Edit σ PUnit).perform s = ⟨(.ok ⟨⟩, t), []⟩ := rfl

@[simp] theorem perform_modify (f : σ → σ) (s : σ) :
    (modify f : Edit σ PUnit).perform s = ⟨(.ok ⟨⟩, f s), []⟩ := rfl

@[simp] theorem perform_lift (x : Logged α) (s : σ) :
    (liftM x : Edit σ α).perform s = ⟨(.ok x.value, s), x.log⟩ := by
  change (⟨(.ok x.value, s), x.log ++ [] ++ []⟩ : Logged (Except Fault α × σ)) = _
  simp

@[simp] theorem perform_ofAttempt (attempt : Attempt α) (s : σ) :
    (ofAttempt attempt : Edit σ α).perform s = ⟨(attempt.run.value, s), attempt.run.log⟩ := rfl

theorem perform_onCopy_of_ok {edit : Edit τ Unit} {t u : τ} {log : List Entry}
    (h : edit.perform t = ⟨(.ok (), u), log⟩) (s : σ) :
    (onCopy t edit : Edit σ τ).perform s = ⟨(.ok u, s), log⟩ := by
  change (⟨((edit.perform t).value.1.map fun _ => (edit.perform t).value.2, s),
    (edit.perform t).log⟩ : Logged (Except Fault τ × σ)) = _
  rw [h]
  rfl

theorem perform_onCopy_of_error {edit : Edit τ Unit} {t u : τ} {fault : Fault}
    {log : List Entry} (h : edit.perform t = ⟨(.error fault, u), log⟩) (s : σ) :
    (onCopy t edit : Edit σ τ).perform s = ⟨(.error fault, s), log⟩ := by
  change (⟨((edit.perform t).value.1.map fun _ => (edit.perform t).value.2, s),
    (edit.perform t).log⟩ : Logged (Except Fault τ × σ)) = _
  rw [h]
  rfl

/-- After a success the next edit goes on with the value and adds its diagnostics. -/
theorem perform_bind_of_ok {edit : Edit σ α} {s t : σ} {a : α} {log : List Entry}
    (h : edit.perform s = ⟨(.ok a, t), log⟩) (next : α → Edit σ β) :
    (edit >>= next).perform s =
      ⟨((next a).perform t).value, log ++ ((next a).perform t).log⟩ := by
  change (edit.perform s >>= fun outcome => (ExceptT.bindCont next outcome.1).run outcome.2) = _
  rw [h]
  rfl

/-- After a success without diagnostics only the next edit counts. -/
theorem perform_bind_of_silent {edit : Edit σ α} {s t : σ} {a : α}
    (h : edit.perform s = ⟨(.ok a, t), []⟩) (next : α → Edit σ β) :
    (edit >>= next).perform s = (next a).perform t :=
  perform_bind_of_ok h next

/-- After a failure nothing more happens. -/
theorem perform_bind_of_error {edit : Edit σ α} {s t : σ} {fault : Fault} {log : List Entry}
    (h : edit.perform s = ⟨(.error fault, t), log⟩) (next : α → Edit σ β) :
    (edit >>= next).perform s = ⟨(.error fault, t), log⟩ := by
  change (edit.perform s >>= fun outcome => (ExceptT.bindCont next outcome.1).run outcome.2) = _
  rw [h]
  change (⟨(.error fault, t), log ++ []⟩ : Logged (Except Fault β × σ)) = _
  rw [List.append_nil]

/-- What both edits keep is kept by one after the other, also if the first one fails. -/
theorem of_perform_bind {P : σ → Prop} {edit : Edit σ α} {next : α → Edit σ β} {s : σ}
    (hedit : P (edit.perform s).value.2)
    (hnext : ∀ a t, P t → P ((next a).perform t).value.2) :
    P ((edit >>= next).perform s).value.2 := by
  rcases hperform : edit.perform s with ⟨⟨result, t⟩, log⟩
  rw [hperform] at hedit
  cases result with
  | error fault =>
      rw [perform_bind_of_error hperform]
      exact hedit
  | ok a =>
      rw [perform_bind_of_ok hperform]
      exact hnext a t hedit

end Edit

end SceneCulling
