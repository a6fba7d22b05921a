import SceneCulling.Proofs.Diagnostics.Listening
import SceneCulling.Proofs.Painting.Tracing
import SceneCulling.Proofs.Program.Steps
import SceneCulling.Proofs.Scalar.Ranked

/-!
# Settings only filter diagnostics

Two runs of one program from the same start, under different settings, with the same host
program listening. Only three steps look at the settings: a new pool and a new culler for the
room that they reserve ahead, and a frame for whether to trace. The room does not show, and the
traces are entries of the log. So whatever a program can see is the same in both runs, and the
floor decides about nothing but which entries the host program hears of.
-/

namespace SceneCulling

section Edits

variable {σ τ α β : Type} {s : σ}

/-- Edits that begin alike and go on in the same way. -/
theorem SameButTraces.edit_bind {edit edit' : Edit σ α}
    (h : SameButTraces (edit.perform s) (edit'.perform s)) (next : α → Edit σ β) :
    SameButTraces ((edit >>= next).perform s) ((edit' >>= next).perform s) :=
  h.bind fun outcome => .refl ((ExceptT.bindCont next outcome.1).run outcome.2)

theorem SameButTraces.lift {x y : StateT σ Logged α} (h : SameButTraces (x s) (y s)) :
    SameButTraces ((liftM x : Edit σ α).perform s) ((liftM y : Edit σ α).perform s) :=
  h.bind fun outcome => .refl (pure ((.ok outcome.1, outcome.2) : Except Fault α × σ))

/-- An edit of a part makes the entries of the edit itself. -/
theorem SameButTraces.zoom {part : σ → τ} {replace : τ → σ → σ} {edit edit' : Edit τ α}
    (h : SameButTraces (edit.perform (part s)) (edit'.perform (part s))) :
    SameButTraces ((Edit.zoom part replace edit).perform s)
      ((Edit.zoom part replace edit').perform s) := by
  refine ⟨?_, h.log⟩
  change ((edit.perform (part s)).value.1, replace (edit.perform (part s)).value.2 s) =
    ((edit'.perform (part s)).value.1, replace (edit'.perform (part s)).value.2 s)
  rw [h.value]

end Edits

namespace Program

variable {K : Type} [Scalar K] [Approximation K]

/-- The floor is no matter of any step. -/
theorem Step.edit_floor (step : Step K) (settings : Settings) (floor : Severity) :
    step.edit { settings with minSeverity := floor } = step.edit settings := by
  cases step <;> rfl

theorem run_floor (steps : List (Step K)) (settings : Settings) (floor : Severity) :
    run { settings with minSeverity := floor } steps = run settings steps := by
  induction steps with
  | nil => rfl
  | cons step steps ih => rw [run, run, step.edit_floor, ih]

omit [Approximation K] in
theorem sameButTraces_frame (settings settings' : Settings) (graph : Graph K)
    (stage culler : ℕ) (holdings : Holdings K) :
    SameButTraces ((frame settings graph stage culler holdings).perform holdings)
      ((frame settings' graph stage culler holdings).perform holdings) :=
  .zoom (.lift (Culler.sameButTraces_cull (graph.hierarchy holdings) (holdings.stages stage)
    settings settings' (holdings.cullers culler)))

/-- Whatever the settings, a step gives the same answer, leaves the same behind, and makes the
same entries but for traces. -/
theorem Step.sameButTraces (step : Step K) (settings settings' : Settings)
    (holdings : Holdings K) :
    SameButTraces ((step.edit settings).perform holdings)
      ((step.edit settings').perform holdings) := by
  cases step with
  | onPool i step =>
      cases step with
      | new capacity => cases capacity <;> exact .refl _
      | allocate | allocateCopy | fetch | release => exact .refl _
  | cull graph stage culler =>
      have hframe := sameButTraces_frame settings settings' graph stage culler holdings
      rw [Step.edit, Step.edit, Edit.perform_bind_of_silent (Edit.perform_get holdings),
        Edit.perform_bind_of_silent (Edit.perform_get holdings)]
      exact hframe.edit_bind fun list => pure (Answer.list list)
  | newVolume | ownVolume | onVolume | onStage | onScene | newCuller | paintAll | look =>
      exact .refl _

theorem run_cons (settings : Settings) (step : Step K) (steps : List (Step K))
    (holdings : Holdings K) : (run settings (step :: steps)).run holdings =
      (step.edit settings).perform holdings >>= fun outcome =>
        (run settings steps).run outcome.2 >>= fun rest =>
          pure (outcome.1 :: rest.1, rest.2) := rfl

theorem sameButTraces_run (steps : List (Step K)) (settings settings' : Settings)
    (holdings : Holdings K) :
    SameButTraces ((run settings steps).run holdings) ((run settings' steps).run holdings) := by
  induction steps generalizing holdings with
  | nil => exact .refl _
  | cons step steps ih =>
      rw [run_cons, run_cons]
      refine (step.sameButTraces settings settings' holdings).bind fun outcome => ?_
      exact (ih outcome.2).bind fun _ => .refl _

/-! ## What a host program sees and hears -/

/-- A run with a host program that listens. It hears of the entries of each step before the next
step is made, and the settings of its monitor are in force. -/
def session (monitor : Monitor) : List (Step K) →
    StateT (Holdings K) (StateM (List Entry)) (List (Except Fault (Answer K)))
  | [] => return []
  | step :: steps => do
    let answer ← show StateT (Holdings K) (StateM (List Entry)) (Except Fault (Answer K)) from
      fun holdings => monitor.listen ((step.edit monitor.settings).perform holdings)
    let answers ← session monitor steps
    return answer :: answers

/-- What is heard step by step is what is heard of the whole run. -/
theorem session_eq_listen (monitor : Monitor) (steps : List (Step K)) (holdings : Holdings K) :
    (session monitor steps).run holdings =
      monitor.listen ((run monitor.settings steps).run holdings) := by
  induction steps generalizing holdings with
  | nil => rfl
  | cons step steps ih =>
      have hsession : (session monitor (step :: steps)).run holdings =
          monitor.listen ((step.edit monitor.settings).perform holdings) >>= fun outcome =>
            (session monitor steps).run outcome.2 >>= fun rest =>
              pure (outcome.1 :: rest.1, rest.2) := rfl
      rw [hsession, run_cons, Monitor.listen_bind]
      refine congrArg _ (funext fun outcome => ?_)
      rw [ih, Monitor.listen_bind]
      rfl

/-- What becomes of a session: the answers, what the program holds at the end, and the entries
that the host program has captured. -/
structure Outcome (K : Type) where
  answers : List (Except Fault (Answer K))
  holdings : Holdings K
  captured : List Entry

/-- A session from the given start under some settings, with a host program that captures what
it hears. -/
def outcome (steps : List (Step K)) (start : Holdings K) (settings : Settings) : Outcome K :=
  let ((answers, holdings), captured) :=
    ((session { settings, sink := .host } steps).run start).run []
  { answers, holdings, captured }

theorem outcome_eq (steps : List (Step K)) (start : Holdings K) (settings : Settings) :
    outcome steps start settings =
      { answers := ((run settings steps).run start).value.1
        holdings := ((run settings steps).run start).value.2
        captured := ((run settings steps).run start).log.filter fun entry =>
          settings.minSeverity ≤ entry.severity } := by
  rw [outcome, session_eq_listen, Monitor.run_listen rfl]
  rfl

/-- Settings only filter diagnostics. Whatever steps a program makes, and whatever it holds at
the start, under any two settings it gets the same answers and faults and holds the same at the
end. The entries that are captured with a floor are those that would be captured without one
and are not below it, in order and entire. Other settings with the same floor lead to the same
entries but for traces. -/
theorem settings_only_filter (steps : List (Step K)) (start : Holdings K)
    (settings settings' : Settings) :
    (outcome steps start settings).answers = (outcome steps start settings').answers ∧
      (outcome steps start settings).holdings = (outcome steps start settings').holdings ∧
      (outcome steps start settings).captured =
        (outcome steps start { settings with minSeverity := .trace }).captured.filter
          (fun entry => settings.minSeverity ≤ entry.severity) ∧
      withoutTraces (outcome steps start settings).captured =
        withoutTraces (outcome steps start
          { settings' with minSeverity := settings.minSeverity }).captured := by
  obtain ⟨hvalue, hlog⟩ := sameButTraces_run steps settings settings' start
  simp only [outcome_eq, run_floor]
  refine ⟨congrArg Prod.fst hvalue, congrArg Prod.snd hvalue, ?_, ?_⟩
  · simp only [Severity.trace_le, decide_true, List.filter_true]
  · rw [withoutTraces_filter, withoutTraces_filter, hlog]

/-- Without a trace, a frame that paints nothing says only so. -/
example :
    let _ := Approximation.ofSquares
    let start : Holdings Rat :=
      ⟨fun _ => .new none, fun _ => {}, fun _ => .new ⟨1, 1⟩ .identity (.ofRect 0 0 1 1),
        fun _ => ⟨{}⟩, .empty⟩
    let severities (settings : Settings) :=
      (outcome [.cull .scene 0 0] start settings).captured.map (·.severity)
    severities { minSeverity := .trace, traceCulling := true } = [.trace, .debug] ∧
      severities { traceCulling := true } = [.debug] ∧
      severities { minSeverity := .info } = [] := by
  decide +kernel

end Program

end SceneCulling
