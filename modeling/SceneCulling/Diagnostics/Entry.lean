import SceneCulling.Diagnostics.Timestamp

/-!
# Entries of the log

An entry says how grave an event is, which component noticed it, and what happened. It may name the
place in the program where it arose. Severities go from the chatter of single nodes up to a refused
operation. `Entry.plainText` is an entry as one line.
-/

namespace SceneCulling

/-- How grave an event is. -/
inductive Severity where
  | trace
  | debug
  | info
  | warn
  | error
deriving DecidableEq, Repr

namespace Severity

/-- Graver severities have greater ranks. -/
def rank : Severity → Nat
  | trace => 0
  | debug => 1
  | info => 2
  | warn => 3
  | error => 4

instance : LE Severity := ⟨fun a b => a.rank ≤ b.rank⟩

instance (a b : Severity) : Decidable (a ≤ b) := inferInstanceAs (Decidable (a.rank ≤ b.rank))

instance : Ord Severity := ⟨fun a b => compare a.rank b.rank⟩

/-- The name in a line of the log, padded to five letters. -/
def label : Severity → String
  | trace => "TRACE"
  | debug => "DEBUG"
  | info => "INFO "
  | warn => "WARN "
  | error => "ERROR"

end Severity

/-- A single diagnostic. The time is added when the entry is written out. -/
structure Entry where
  severity : Severity
  /-- The component that noticed the event. -/
  source : String
  message : String
  file : Option String := none
  line : Option Nat := none
deriving DecidableEq, Repr

namespace Entry

/-- An entry has a location only if both file and line are known. -/
def location? (entry : Entry) : Option (String × Nat) := do
  return (← entry.file, ← entry.line)

/-- The location as it ends a line, in brackets. -/
def locationText (entry : Entry) : String :=
  match entry.location? with
  | some (file, line) => " (" ++ file ++ ":" ++ toString line ++ ")"
  | none => ""

/-- The entry as one line of plain text, without a line break. -/
def plainText (entry : Entry) (time : Timestamp) : String :=
  "[" ++ time.text ++ "] [" ++ entry.severity.label ++ "] [" ++ entry.source ++ "] " ++
    entry.message ++ entry.locationText

end Entry

end SceneCulling
