import SceneCulling.Diagnostics.Monitor
import SceneCulling.Proofs.Diagnostics.AllOrNothing
import SceneCulling.Proofs.Program.Steps
import SceneCulling.Proofs.Scalar.Ranked
import SceneCulling.Proofs.Scene.Reachable
import SceneCulling.Proofs.Volume.Pool
import SceneCulling.Proofs.Volume.Reachable

/-!
# Refusals

A request to a program is all or nothing if it calls a single operation. If it is refused,
everything that the program holds and the settings in force are as before, and the logger gets
the fault once. If it is granted, the logger gets no fault. Whether the volumes, the stages and
the scene are reachable does not matter.

It is different for a request that calls several operations and goes on after a refusal: a node's
size is written width first, an effect may do anything, and culling does without the volumes that
it cannot have.
-/

namespace SceneCulling

variable {K : Type}

/-- An edit of a part settles the whole, if to put the part back as it was changes nothing. -/
theorem Edit.Settles.zoom {σ τ α : Type} {part : σ → τ} {replace : τ → σ → σ} {edit : Edit τ α}
    {s : σ} (h : edit.Settles (part s)) (hput : replace (part s) s = s) :
    (Edit.zoom part replace edit).Settles s where
  reports := h.reports
  keeps fault hfault := by
    have hkept : (edit.perform (part s)).value.2 = part s := h.keeps fault hfault
    change replace (edit.perform (part s)).value.2 s = s
    rw [hkept, hput]

/-! ## Settings -/

open Edit in
theorem Monitor.isWhole_install (settings : Settings) : (install settings).IsWhole := by
  intro monitor
  by_cases hcapacity : settings.poolCapacity = 0
  · have hrefused : (install settings).perform monitor =
        ⟨(.error .noCapacity, monitor), [Fault.noCapacity.entry]⟩ := by
      rw [install, if_pos hcapacity]
      rfl
    exact settles_of_refused hrefused
  · have hgranted : (install settings).perform monitor =
        ⟨(.ok (), { monitor with settings }), (Logged.note .debug .settings
          "Toolkit configuration installed").log⟩ := by
      rw [install, if_neg hcapacity]
      rfl
    exact settles_of_ok hgranted rfl

theorem Severity.le_error (severity : Severity) : severity ≤ .error := by
  cases severity <;> decide

/-- No settings hold a refusal back. -/
theorem Monitor.refusals_deliver (monitor : Monitor) (log : List Entry) :
    refusals (monitor.deliver log) = refusals log := by
  rw [refusals, deliver, List.filter_filter, refusals]
  refine List.filter_congr fun entry _ => ?_
  by_cases herror : entry.severity = .error
  · simp [herror, isEnabled, Severity.le_error]
  · simp [herror]

/-! ## Scenes -/

namespace Scene

open Edit

theorem isWhole_createNode (parent : Option NodeKey) (transform : Mat4 K) :
    (createNode parent transform).IsWhole := by
  intro scene
  cases parent with
  | none => exact settles_of_ok (grants_createNode (fun _ hp => by cases hp) transform) rfl
  | some key =>
      cases hkey : scene.contains key with
      | false => exact settles_of_refused (refuses_createNode hkey transform)
      | true =>
          refine settles_of_ok (grants_createNode (fun p hp => ?_) transform) rfl
          obtain rfl := Option.some.inj hp
          exact hkey

theorem isWhole_changeNode (key : NodeKey) (f : Node K → Node K) : (changeNode key f).IsWhole := by
  intro scene
  cases hkey : scene.contains key with
  | false => exact settles_of_refused (refuses_changeNode hkey f)
  | true => exact settles_of_ok (grants_changeNode hkey f) rfl

theorem isWhole_setStage (stage : Stage K) : (setStage stage).IsWhole := by
  intro scene
  cases hroot : scene.contains stage.root with
  | false => exact settles_of_refused (refuses_setStage_unknown hroot)
  | true =>
      cases hparent : scene.parent? stage.root with
      | none => exact settles_of_ok (grants_setStage hroot hparent) rfl
      | some parent => exact settles_of_refused (refuses_setStage_below hparent)

end Scene

/-! ## Volumes -/

variable [Scalar K]

namespace Volume

open Edit

omit [Scalar K] in
theorem isCheck_requireAligned (operation : Operation) :
    (requireAligned operation : Edit (Volume K) Unit).IsCheck := by
  refine isCheck_get.bind fun v => ?_
  cases v.flags.aligned with
  | true => exact isCheck_pure _
  | false => exact isCheck_raise _

theorem isCheck_requireExtent (operation : Operation) (extent : K) :
    (requireExtent operation extent).IsCheck := by
  refine (isCheck_requireAligned operation).bind fun _ => ?_
  cases isExtent extent with
  | true => exact isCheck_pure _
  | false => exact isCheck_raise _

theorem isCheck_readExtent (operation : Operation) (extent : Volume K → K) :
    (readExtent operation extent).IsCheck :=
  (isCheck_requireAligned operation).bind fun _ => isCheck_get.bind fun _ => isCheck_pure _

theorem isWhole_setOrigin (p : Vec3 K) : (setOrigin p).IsWhole :=
  (isCheck_requireAligned _).before fun _ => isWhole_modify _

theorem isWhole_setWidth (width : K) : (setWidth width).IsWhole :=
  (isCheck_requireExtent _ _).before fun _ => isWhole_modify _

theorem isWhole_setHeight (height : K) : (setHeight height).IsWhole :=
  (isCheck_requireExtent _ _).before fun _ => isWhole_modify _

theorem isWhole_setDepth (depth : K) : (setDepth depth).IsWhole :=
  (isCheck_requireExtent _ _).before fun _ => isWhole_modify _

theorem isWhole_align : (align : Edit (Volume K) Unit).IsWhole := by
  intro v
  rcases after_align (v := v) with ⟨h, -⟩ | ⟨h, -⟩ | ⟨h, -⟩
  · exact settles_of_ok h rfl
  · exact settles_of_ok h rfl
  · exact settles_of_refused h

/-- The other volume is aligned on a copy before this one grows. -/
theorem isWhole_union (other : Volume K) : (union other).IsWhole := by
  refine (isCheck_requireAligned _).before fun _ => ?_
  cases other.flags.empty with
  | true => exact (isCheck_pure _).isWhole
  | false =>
      exact (isCheck_onCopy isWhole_align.toReports other).before fun box => isWhole_modify _

/-- Every request to a volume is all or nothing. -/
theorem Request.isWhole_edit (bank : Bank K) (request : Request K) :
    (request.edit bank).IsWhole := by
  cases request with
  | setOrigin p => exact (isWhole_setOrigin p).answer _
  | setWidth x => exact (isWhole_setWidth x).answer _
  | setHeight x => exact (isWhole_setHeight x).answer _
  | setDepth x => exact (isWhole_setDepth x).answer _
  | origin => exact isCheck_get.isWhole.answer _
  | width | height | depth => exact (isCheck_readExtent _ _).isWhole.answer _
  | union source => exact (isWhole_union (bank source)).answer _
  | transform | project | withReference => exact (isWhole_modify _).answer _
  | align => exact isWhole_align.answer _
  | overwrite source => exact (isWhole_set _).answer _
  | boundingRect | vertices => exact isCheck_get.before fun v => (isWhole_set _).answer _

end Volume

namespace Hierarchy

open Edit

variable (tree : Hierarchy K) (stage : Stage K)

theorem eyeTransform_recorded (node : NodeKey) :
    refusals (tree.eyeTransform stage node).run.log =
      faultEntries (tree.eyeTransform stage node).run.value := by
  rw [eyeTransform]
  cases tree.modelview? node stage.root <;> rfl

theorem isWhole_takeTo (ancestor : Option NodeKey) : (tree.takeTo ancestor).IsWhole := by
  refine isCheck_get.before fun v => ?_
  cases v.reference with
  | none => exact (isCheck_raise _).isWhole
  | some node =>
      cases ancestor with
      | some a =>
          dsimp only
          cases tree.modelview? node a with
          | none => exact (isCheck_raise _).isWhole
          | some m => exact isWhole_modify _
      | none =>
          dsimp only
          cases tree.stageOf? node with
          | none => exact (isCheck_ofAttempt rfl).isWhole
          | some stage =>
              exact (isCheck_ofAttempt (tree.eyeTransform_recorded stage node)).before
                fun m => isWhole_modify _

theorem pixelRect_recorded (v : Volume K) :
    refusals (tree.pixelRect stage v).run.log =
      faultEntries (tree.pixelRect stage v).run.value := by
  rw [pixelRect]
  cases v.reference with
  | none => rfl
  | some node =>
      dsimp only
      rw [eyeTransform]
      cases tree.modelview? node stage.root <;> rfl

end Hierarchy

theorem Volume.visibility_recorded (planes : SidePlanes K) (v : Volume K) :
    refusals (v.visibility planes).log = [] := by
  rw [visibility]
  split
  · rfl
  · split
    · rfl
    · split <;> rfl

/-! ## Steps -/

namespace Program

open Edit

/-- The step calls a single operation. -/
def VolumeStep.IsSingle : VolumeStep K → Prop
  | .fitSize _ _ | .adjust _ => False
  | .ask _ | .complete | .classify _ | .classifyOn _ | .takeTo _ _ | .pixelRect _ _ => True

theorem VolumeStep.isWhole_edit (step : VolumeStep K) (h : step.IsSingle)
    (holdings : Holdings K) : (step.edit holdings).IsWhole := by
  cases step with
  | fitSize | adjust => exact h.elim
  | ask request => exact (request.isWhole_edit holdings.volumes).answer _
  | complete => exact (isWhole_modify _).answer _
  | classify planes =>
      exact isCheck_get.before fun v =>
        (isCheck_lift (v.visibility_recorded planes)).isWhole.answer _
  | classifyOn stage =>
      exact isCheck_get.before fun v => (isCheck_lift (v.visibility_recorded _)).isWhole.answer _
  | takeTo graph ancestor =>
      exact ((graph.hierarchy holdings).isWhole_takeTo ancestor).answer _
  | pixelRect graph stage =>
      exact isCheck_get.before fun v =>
        (isCheck_ofAttempt ((graph.hierarchy holdings).pixelRect_recorded _ v)).isWhole.answer _

omit [Scalar K] in
theorem Holdings.putVolume_self (holdings : Holdings K) (i : ℕ) :
    holdings.putVolume i (holdings.volumes i) = holdings := by
  rw [putVolume, Function.update_eq_self]

omit [Scalar K] in
theorem Holdings.putPool_set_self {holdings : Holdings K} {i slot : ℕ} {v : Volume K}
    (hv : (holdings.pools i).get? slot = some v) :
    holdings.putPool i ((holdings.pools i).set slot v) = holdings := by
  rw [VolumePool.set_of_get? hv, putPool, Function.update_eq_self]

theorem VolumeStep.isWhole_editAt (step : VolumeStep K) (h : step.IsSingle) (place : Place) :
    (step.editAt place).IsWhole := by
  refine isWhole_get_bind fun holdings => ?_
  have hstep := step.isWhole_edit h holdings
  cases place with
  | alone i => exact (hstep _).zoom (holdings.putVolume_self i)
  | inPool i slot =>
      dsimp only
      cases hv : (holdings.pools i).get? slot with
      | none => exact (isCheck_pure _).isWhole holdings
      | some v => exact (hstep v).zoom (Holdings.putPool_set_self hv)

theorem PoolStep.isWhole_edit (settings : Settings) (i : ℕ) (step : PoolStep) :
    (step.edit settings i : Edit (Holdings K) _).IsWhole := by
  cases step with
  | new | release => exact (isWhole_modify _).answer _
  | allocate | allocateCopy => exact isCheck_get.before fun _ => (isWhole_modify _).answer _
  | fetch slot volume =>
      refine isCheck_get.before fun holdings => ?_
      cases (holdings.pools i).get? slot with
      | none => exact (isCheck_pure _).isWhole
      | some v => exact (isWhole_modify _).answer _

section Approximate

variable [Approximation K]

theorem StageStep.isWhole_edit (i : ℕ) (step : StageStep K) : (step.edit i).IsWhole := by
  cases step with
  | new | ofSize | change => exact (isWhole_modify _).answer _
  | fetch root =>
      refine isCheck_get.before fun holdings => ?_
      cases holdings.scene.stage? root with
      | none => exact (isCheck_pure _).isWhole
      | some stage => exact (isWhole_modify _).answer _

theorem SceneStep.isWhole_edit (stages : ℕ → Stage K) (step : SceneStep K) :
    (step.edit stages).IsWhole := by
  cases step with
  | new => exact (isWhole_set _).answer _
  | createStage | removeNode => exact isCheck_get.before fun _ => (isWhole_set _).answer _
  | createNode parent transform => exact (Scene.isWhole_createNode parent transform).answer _
  | setTransform key | setSize key | addEffect key =>
      exact (Scene.isWhole_changeNode key _).answer _
  | setStage stage => exact (Scene.isWhole_setStage (stages stage)).answer _
  | changeStage => exact (isWhole_modify _).answer _

/-- The step calls a single operation. -/
def Step.IsSingle : Step K → Prop
  | .onVolume _ step => step.IsSingle
  | .ownVolume _ _ _ | .cull _ _ _ | .paintAll _ _ => False
  | .newVolume _ _ | .onPool _ _ | .onStage _ _ | .onScene _ | .newCuller _ | .look => True

theorem Step.isWhole_edit (step : Step K) (h : step.IsSingle) (settings : Settings) :
    (step.edit settings).IsWhole := by
  cases step with
  | ownVolume | cull | paintAll => exact h.elim
  | newVolume | newCuller => exact (isWhole_modify _).answer _
  | onVolume place step => exact step.isWhole_editAt h place
  | onPool i step => exact step.isWhole_edit settings i
  | onStage i step => exact step.isWhole_edit i
  | onScene step =>
      exact isWhole_get_bind fun holdings =>
        (step.isWhole_edit holdings.stages holdings.scene).zoom rfl
  | look => exact isCheck_get.isWhole.answer _

end Approximate

/-! ## Requests -/

/-- All that a program holds, and the settings in force. -/
structure World (K : Type) where
  holdings : Holdings K
  monitor : Monitor

/-- What a program can ask for: a step, or other settings. -/
inductive Request (K : Type) where
  | make (step : Step K)
  | install (settings : Settings)

namespace Request

/-- The request calls a single operation. -/
def IsSingle : Request K → Prop
  | .make step => step.IsSingle
  | .install _ => True

variable [Approximation K]

def edit : Request K → Edit (World K) (Answer K)
  | .make step => do
    Edit.zoom (·.holdings) (fun holdings world => { world with holdings })
      (step.edit (← get).monitor.settings)
  | .install settings => do
    Edit.zoom (·.monitor) (fun monitor world => { world with monitor })
      (Monitor.install settings)
    return .nothing

theorem isWhole_edit (request : Request K) (h : request.IsSingle) : request.edit.IsWhole := by
  cases request with
  | make step =>
      exact isWhole_get_bind fun world =>
        (step.isWhole_edit h world.monitor.settings world.holdings).zoom rfl
  | install settings =>
      have hinstall : (Edit.zoom (·.monitor) (fun monitor world => { world with monitor })
          (Monitor.install settings) : Edit (World K) Unit).IsWhole :=
        fun world => (Monitor.isWhole_install settings world.monitor).zoom rfl
      exact hinstall.answer _

/-- A request that calls a single operation is all or nothing. If it is refused, all that the
program holds and the settings are as before, and the logger gets one entry of the severity of an
error, which has a location and the message of the fault. If it is granted, it gets none. -/
theorem all_or_nothing (request : Request K) (h : request.IsSingle) (world : World K) :
    let outcome := request.edit.perform world
    let heard := outcome.value.2.monitor.deliver outcome.log
    (∀ fault, outcome.value.1 = .error fault → outcome.value.2 = world ∧
      ∃ entry, (heard.filter fun entry => entry.severity = .error) = [entry] ∧
        entry.location? = some fault.place ∧ entry.message = fault.message) ∧
    ∀ answer, outcome.value.1 = .ok answer → ∀ entry ∈ heard, entry.severity ≠ .error := by
  intro outcome heard
  have hwhole : request.edit.Settles world := request.isWhole_edit h world
  have hrefusals : refusals heard = faultEntries outcome.value.1 := by
    rw [Monitor.refusals_deliver]
    exact hwhole.reports
  constructor
  · intro fault hfault
    rw [hfault] at hrefusals
    exact ⟨hwhole.keeps fault hfault, fault.entry, hrefusals, rfl, rfl⟩
  · intro answer hanswer entry hentry herror
    rw [hanswer] at hrefusals
    have hmem : entry ∈ refusals heard := List.mem_filter.mpr ⟨hentry, decide_eq_true herror⟩
    rw [hrefusals] at hmem
    cases hmem

/-- An empty scene, and volumes in the space of a node that it does not have. -/
def strayWorld : World Rat :=
  ⟨⟨fun _ => .new (some ⟨2, 1⟩), fun _ => .new {},
    fun _ => @Stage.new Rat _ .ofSquares ⟨1, 1⟩ .identity (.ofRect 0 0 100 100),
    fun _ => .new {}, .empty⟩, {}⟩

/-- The pixels of a stray volume are refused, since its node is not under the root of the
stage. -/
theorem stray_pixelRect_refused :
    let _ := Approximation.ofSquares
    let request : Request Rat := .make (.onVolume (.alone 0) (.pixelRect .scene 0))
    let outcome := request.edit.perform strayWorld
    request.IsSingle ∧ outcome.value.1 = .error (.notUnderRoot ⟨2, 1⟩ ⟨1, 1⟩) ∧
      outcome.value.2 = strayWorld ∧
      ∃ entry, ((outcome.value.2.monitor.deliver outcome.log).filter fun entry =>
          entry.severity = .error) = [entry] ∧
        entry.location?.isSome ∧
        entry.message = "node NodeKey(2v1) is not under stage root NodeKey(1v1)" := by
  intro _ request outcome
  have hrefused : outcome.value.1 = .error (.notUnderRoot ⟨2, 1⟩ ⟨1, 1⟩) := rfl
  obtain ⟨hrefusal, -⟩ := all_or_nothing request trivial strayWorld
  obtain ⟨hworld, entry, hentry, hlocation, hmessage⟩ := hrefusal _ hrefused
  refine ⟨trivial, hrefused, hworld, entry, hentry, ?_, hmessage.trans (by decide +kernel)⟩
  rw [hlocation]
  rfl

end Request

end Program

end SceneCulling
