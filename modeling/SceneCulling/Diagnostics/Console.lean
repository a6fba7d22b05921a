import SceneCulling.Diagnostics.Entry

/-!
# The console

The console shows each entry on a line of its own, with the severity and the component
in colour. A colour is a list of display codes. It is switched on before a text by the
escape sequence with these codes and off after it by the sequence with the code 0. A
text that already switches colours off is kept in colour, by switching on again after
each such place.
-/

namespace SceneCulling.Console

/-- Display codes as they stand in an escape sequence. -/
structure Style where
  codes : String
deriving DecidableEq, Repr

/-- A piece of a line. -/
inductive Span where
  | plain (text : String)
  | styled (style : Style) (text : String)

/-- The escape sequence that switches on the display codes. -/
def escape (codes : List Char) : List Char := '\x1b' :: '[' :: codes ++ ['m']

/-- Switches on `codes` again after each place where all codes are switched off. -/
def keepOn (codes : List Char) : List Char → List Char
  | '\x1b' :: '[' :: '0' :: 'm' :: rest => escape ['0'] ++ escape codes ++ keepOn codes rest
  | c :: rest => c :: keepOn codes rest
  | [] => []

/-- A text in the given style. -/
def Style.paint (style : Style) (text : String) : String :=
  let codes := style.codes.toList
  String.ofList (escape codes ++ keepOn codes text.toList ++ escape ['0'])

def Span.render (colour : Bool) : Span → String
  | plain text => text
  | styled style text => if colour then style.paint text else text

/-- The style of a severity's name. -/
def severityStyle : Severity → Style
  | .trace => ⟨"90"⟩
  | .debug => ⟨"36"⟩
  | .info => ⟨"32"⟩
  | .warn => ⟨"33"⟩
  | .error => ⟨"1;31"⟩

/-- The style of a component's name. -/
def sourceStyle : Style := ⟨"94"⟩

/-- The pieces of the line that shows an entry. -/
def spans (entry : Entry) (time : Timestamp) : List Span :=
  [.plain "[", .plain time.text, .plain "] [",
    .styled (severityStyle entry.severity) entry.severity.label, .plain "] [",
    .styled sourceStyle entry.source, .plain "] ", .plain entry.message] ++
  match entry.file, entry.line with
  | some file, some line =>
    [.plain " (", .plain file, .plain ":", .plain (toString line), .plain ")"]
  | _, _ => []

/-- What the console prints for an entry, with the line break. -/
def print (colour : Bool) (entry : Entry) (time : Timestamp) : String :=
  String.join ((spans entry time).map (·.render colour)) ++ "\n"

end SceneCulling.Console
