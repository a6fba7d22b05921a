import SceneCulling.Diagnostics.Edit

/-!
# Settings and monitors

Settings choose which diagnostics are recorded and delivered, and how much storage is
reserved ahead. They never change a result. A monitor holds the settings in force and says where
diagnostics go. The diagnostics of an operation are delivered after it, by the settings that it
leaves in force.
-/

namespace SceneCulling

/-- The choices of a program that culls scenes. -/
structure Settings where
  /-- Entries of lower severities are not delivered. -/
  minSeverity : Severity := .debug
  /-- The number of scratch volumes that a pool reserves ahead. -/
  poolCapacity : Nat := 64
  /-- Whether culling records what became of each node. -/
  traceCulling : Bool := false
deriving DecidableEq, Repr

/-- Where entries are delivered. -/
inductive Sink where
  /-- To the host program. -/
  | host
  /-- To the console. -/
  | console
deriving DecidableEq, Repr

/-- The settings in force and the place of delivery. -/
structure Monitor where
  settings : Settings := {}
  sink : Sink := .console
deriving DecidableEq, Repr

namespace Monitor

/-- Whether entries of a severity are delivered. -/
def isEnabled (monitor : Monitor) (severity : Severity) : Bool :=
  monitor.settings.minSeverity ≤ severity

/-- Those of some entries that are delivered. -/
def deliver (monitor : Monitor) (entries : List Entry) : List Entry :=
  entries.filter fun entry => monitor.isEnabled entry.severity

/-- Replaces the settings. Pools need room for one volume at least. -/
def install (settings : Settings) : Edit Monitor Unit := do
  if settings.poolCapacity = 0 then
    Edit.raise .noCapacity
  modify ({ · with settings })
  Logged.note .debug .settings "Toolkit configuration installed"

/-- Returns to the default settings. -/
def shutDown (monitor : Monitor) : Monitor := { monitor with settings := {} }

end Monitor

end SceneCulling
