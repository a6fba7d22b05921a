import SceneCulling.Diagnostics.Edit

/-!
# All or nothing

A refused edit should leave the value as it was and record the refusal once, and an edit that
succeeds should record none. An edit is built so by making all its checks before it writes: a
check never writes, whether it passes or not, so after any checks a write that cannot fail makes
an edit that is all or nothing. There is one lemma for each way to build an edit.
-/

namespace SceneCulling

/-- The entries of a log that record refusals. -/
def refusals (log : List Entry) : List Entry :=
  log.filter fun entry => decide (entry.severity = .error)

@[simp] theorem refusals_nil : refusals [] = [] := rfl

@[simp] theorem refusals_append (first second : List Entry) :
    refusals (first ++ second) = refusals first ++ refusals second :=
  List.filter_append first second

/-- The entries that should record a result: none for a success, and that of the fault for a
refusal. -/
def faultEntries {α : Type} : Except Fault α → List Entry
  | .ok _ => []
  | .error fault => [fault.entry]

@[simp] theorem refusals_entry (fault : Fault) : refusals [fault.entry] = [fault.entry] := rfl

namespace Edit

variable {σ τ α β : Type}

/-- A refusal is recorded once, and a success not at all. -/
def Reports (edit : Edit σ α) : Prop :=
  ∀ s, refusals (edit.perform s).log = faultEntries (edit.perform s).value.1

/-- The edit only reads, whether it is refused or not. -/
structure IsCheck (edit : Edit σ α) : Prop where
  reports : edit.Reports
  reads : ∀ s, (edit.perform s).value.2 = s

/-- What the edit makes of `s` is all of its work, without a refusal, or nothing, with one. -/
structure Settles (edit : Edit σ α) (s : σ) : Prop where
  reports : refusals (edit.perform s).log = faultEntries (edit.perform s).value.1
  keeps : ∀ fault, (edit.perform s).value.1 = .error fault → (edit.perform s).value.2 = s

/-- The edit is all or nothing, whatever it works on. -/
def IsWhole (edit : Edit σ α) : Prop := ∀ s, edit.Settles s

theorem IsWhole.toReports {edit : Edit σ α} (h : edit.IsWhole) : edit.Reports :=
  fun s => (h s).reports

theorem IsCheck.isWhole {edit : Edit σ α} (h : edit.IsCheck) : edit.IsWhole :=
  fun s => ⟨h.reports s, fun _ _ => h.reads s⟩

/-! ## Known outcomes -/

section Outcomes

variable {edit : Edit σ α} {s t : σ} {a : α} {fault : Fault}

theorem settles_of_ok {log : List Entry} (h : edit.perform s = ⟨(.ok a, t), log⟩)
    (hlog : refusals log = []) : edit.Settles s := by
  constructor
  · rw [h]
    exact hlog
  · intro fault hfault
    rw [h] at hfault
    cases hfault

theorem settles_of_refused (h : edit.perform s = ⟨(.error fault, s), [fault.entry]⟩) :
    edit.Settles s := by
  constructor
  · rw [h]
    rfl
  · intro _ _
    rw [h]

end Outcomes

/-! ## Single actions -/

theorem isCheck_pure (a : α) : (pure a : Edit σ α).IsCheck := ⟨fun _ => rfl, fun _ => rfl⟩

theorem isCheck_get : (get : Edit σ σ).IsCheck := ⟨fun _ => rfl, fun _ => rfl⟩

theorem isCheck_raise (fault : Fault) : (raise fault : Edit σ α).IsCheck :=
  ⟨fun _ => rfl, fun _ => rfl⟩

theorem isCheck_ofAttempt {attempt : Attempt α}
    (h : refusals attempt.run.log = faultEntries attempt.run.value) :
    (ofAttempt attempt : Edit σ α).IsCheck :=
  ⟨fun _ => h, fun _ => rfl⟩

theorem isCheck_lift {x : Logged α} (h : refusals x.log = []) : (liftM x : Edit σ α).IsCheck := by
  constructor
  · intro s
    rw [perform_lift]
    exact h
  · intro s
    rw [perform_lift]

/-- Whatever becomes of the copy, the value itself is not touched. -/
theorem isCheck_onCopy {edit : Edit τ Unit} (h : edit.Reports) (t : τ) :
    (onCopy t edit : Edit σ τ).IsCheck := by
  refine ⟨fun s => ?_, fun _ => rfl⟩
  change refusals (edit.perform t).log =
    faultEntries ((edit.perform t).value.1.map fun _ => (edit.perform t).value.2)
  rw [h t]
  cases (edit.perform t).value.1 <;> rfl

theorem isWhole_set (t : σ) : (set t : Edit σ PUnit).IsWhole :=
  fun s => settles_of_ok (perform_set t s) rfl

theorem isWhole_modify (f : σ → σ) : (modify f : Edit σ PUnit).IsWhole :=
  fun s => settles_of_ok (perform_modify f s) rfl

/-! ## One after the other -/

section Bind

variable {edit : Edit σ α} {next : α → Edit σ β}

/-- After a refusal nothing more is done that could be recorded. -/
theorem Reports.bind (h : edit.Reports) (hnext : ∀ a, (next a).Reports) :
    (edit >>= next).Reports := by
  intro s
  have hfirst := h s
  rcases hperform : edit.perform s with ⟨⟨result, t⟩, log⟩
  rw [hperform] at hfirst
  cases result with
  | error fault =>
      rw [perform_bind_of_error hperform]
      exact hfirst
  | ok a =>
      rw [perform_bind_of_ok hperform, refusals_append, hnext a t]
      exact congrArg (· ++ _) hfirst

theorem IsCheck.bind (h : edit.IsCheck) (hnext : ∀ a, (next a).IsCheck) :
    (edit >>= next).IsCheck :=
  ⟨h.reports.bind fun a => (hnext a).reports, fun s =>
    of_perform_bind (P := (· = s)) (h.reads s) fun a t ht => ((hnext a).reads t).trans ht⟩

/-- Nothing is written before the checks have passed. -/
theorem IsCheck.before (h : edit.IsCheck) (hnext : ∀ a, (next a).IsWhole) :
    (edit >>= next).IsWhole := by
  intro s
  refine ⟨h.reports.bind (fun a => (hnext a).toReports) s, fun fault hrefused => ?_⟩
  have hread := h.reads s
  rcases hperform : edit.perform s with ⟨⟨result, t⟩, log⟩
  rw [hperform] at hread
  subst hread
  cases result with
  | error fault' => rw [perform_bind_of_error hperform]
  | ok a =>
      rw [perform_bind_of_ok hperform] at hrefused ⊢
      exact (hnext a t).keeps fault hrefused

/-- An answer is added after the writes, which can no longer be refused. -/
theorem IsWhole.answer (h : edit.IsWhole) (f : α → β) : (edit >>= fun a => pure (f a)).IsWhole := by
  intro s
  refine ⟨h.toReports.bind (fun a => (isCheck_pure (f a)).reports) s, fun fault hrefused => ?_⟩
  have hkeeps := (h s).keeps
  rcases hperform : edit.perform s with ⟨⟨result, t⟩, log⟩
  rw [hperform] at hkeeps
  cases result with
  | error fault' =>
      rw [perform_bind_of_error hperform]
      exact hkeeps fault' rfl
  | ok a =>
      rw [perform_bind_of_ok hperform] at hrefused
      cases hrefused

/-- An edit that looks at the value first has to settle the value that it saw. -/
theorem isWhole_get_bind {next : σ → Edit σ β} (h : ∀ s, (next s).Settles s) :
    (get >>= next).IsWhole := by
  intro s
  have hperform := perform_bind_of_silent (perform_get s) next
  constructor
  · rw [hperform]
    exact (h s).reports
  · rw [hperform]
    exact (h s).keeps

end Bind

end Edit

end SceneCulling
