import SceneCulling.Painting.Culler

/-!
# Traces

A culler records what became of each node if the settings ask for it. These records are all
that the setting decides about: two computations that differ in it give the same value, and
their logs are the same once the traces of cullers are left out. Computations in sequence keep
this relation, so a recursion keeps it if its single steps do.
-/

namespace SceneCulling

/-- The entry says what became of a single node. -/
def Entry.isTrace (entry : Entry) : Bool :=
  entry.severity == .trace && entry.source == Component.culler.text

/-- The entries that are no traces, in order. -/
def withoutTraces (log : List Entry) : List Entry := log.filter fun entry => !entry.isTrace

@[simp] theorem withoutTraces_append (log log' : List Entry) :
    withoutTraces (log ++ log') = withoutTraces log ++ withoutTraces log' :=
  List.filter_append log log'

/-- It makes no difference whether traces are left out before other entries or after them. -/
theorem withoutTraces_filter (kept : Entry → Bool) (log : List Entry) :
    withoutTraces (log.filter kept) = (withoutTraces log).filter kept := by
  rw [withoutTraces, withoutTraces, List.filter_filter, List.filter_filter]
  exact congrArg (List.filter · log) (funext fun _ => Bool.and_comm _ _)

/-- Both computations give the same value, with the same log but for traces. -/
structure SameButTraces {α : Type} (x y : Logged α) : Prop where
  value : x.value = y.value
  log : withoutTraces x.log = withoutTraces y.log

namespace SameButTraces

variable {α β : Type} {x y : Logged α} {f g : α → Logged β}

theorem refl (x : Logged α) : SameButTraces x x := ⟨rfl, rfl⟩

theorem bind (h : SameButTraces x y) (hnext : ∀ a, SameButTraces (f a) (g a)) :
    SameButTraces (x >>= f) (y >>= g) := by
  obtain ⟨hvalue, hlog⟩ := hnext x.value
  constructor
  · rw [Logged.value_bind, Logged.value_bind, ← h.value]
    exact hvalue
  · rw [Logged.log_bind, Logged.log_bind, withoutTraces_append, withoutTraces_append, h.log,
      ← h.value, hlog]

/-- Computations that begin alike may go on with traces of their own. -/
theorem after (x : Logged α) (hnext : ∀ a, SameButTraces (f a) (g a)) :
    SameButTraces (x >>= f) (x >>= g) :=
  (refl x).bind hnext

end SameButTraces

namespace Hierarchy

variable {K : Type} [Scalar K] (tree : Hierarchy K) (stage : Stage K)

/-- Whether a trace is asked for does not show once traces are left out. -/
theorem sameButTraces_noteIf (trace trace' : Bool) (message : String) :
    SameButTraces (noteIf trace message) (noteIf trace' message) := by
  have hnone (trace : Bool) : withoutTraces (noteIf trace message).log = [] := by
    cases trace with
    | false => rfl
    | true => simp [noteIf, Logged.note, Logged.record, withoutTraces, Entry.isTrace]
  exact ⟨rfl, (hnone trace).trans (hnone trace').symm⟩

theorem sameButTraces_decideItem (trace trace' parentInside : Bool) (node : NodeKey)
    (volume : Option (Volume K)) (size : Nat) :
    SameButTraces (tree.decideItem stage trace parentInside node volume size)
      (tree.decideItem stage trace' parentInside node volume size) := by
  cases volume with
  | none => exact (sameButTraces_noteIf trace trace' _).bind fun _ => .refl _
  | some v =>
      refine .after _ fun visibility => ?_
      by_cases hout : visibility = .outside
      · rw [if_pos hout, if_pos hout]
        exact (sameButTraces_noteIf trace trace' _).bind fun _ => .refl _
      · rw [if_neg hout, if_neg hout]
        refine .after _ fun pixels => ?_
        exact (sameButTraces_noteIf trace trace' _).bind fun _ => .refl _

/-- The recursion meets the same nodes with the same answers, so by induction on the outline
it lists the same items. -/
theorem sameButTraces_select (trace trace' : Bool) (pool : VolumePool K) (inside : Bool)
    (outline : Outline (NodeKey × Bound)) :
    SameButTraces (tree.select stage trace pool inside outline)
      (tree.select stage trace' pool inside outline) := by
  induction outline generalizing inside with
  | nil => exact .refl _
  | node label below next ihbelow ihnext =>
      obtain ⟨node, bound⟩ := label
      refine (tree.sameButTraces_decideItem stage trace trace' inside node _ _).bind fun item => ?_
      cases item with
      | none => exact (ihnext inside).bind fun _ => .refl _
      | some item =>
          refine (ihbelow _).bind fun descendants => ?_
          exact (ihnext inside).bind fun _ => .refl _

end Hierarchy

/-- Of the settings a frame reads only whether to trace. -/
theorem Culler.sameButTraces_cull {K : Type} [Scalar K] (tree : Hierarchy K) (stage : Stage K)
    (settings settings' : Settings) (culler : Culler K) :
    SameButTraces (Culler.cull tree stage settings culler)
      (Culler.cull tree stage settings' culler) := by
  refine .after _ fun measured => ?_
  refine (tree.sameButTraces_select stage _ _ _ _ _).bind fun list => ?_
  exact .refl _

end SceneCulling
