/-!
# Records as text

A value with named parts can be shown on one line (`Record.inline`) or with one part on each line
(`Record.indented`). A part is a single text or a list of them. The indented form ends every item
with a comma and writes an empty list without a line break.
-/

namespace BitLinear.Text

/-- A part of a record. -/
inductive RecordPart where
  /-- A text of its own. -/
  | atom (text : String)
  /-- A list of texts. -/
  | list (items : List String)

/-- A name with named parts. -/
structure Record where
  /-- The name in front of the parts. -/
  name : String
  /-- The parts in order. -/
  parts : List (String × RecordPart)

/-- A part on one line. -/
def RecordPart.inline : RecordPart → String
  | .atom text => text
  | .list items => "[" ++ String.intercalate ", " items ++ "]"

/-- A part with one item on each line, inside a record. -/
def RecordPart.indented : RecordPart → String
  | .atom text => text
  | .list [] => "[]"
  | .list items => "[\n" ++ String.join (items.map fun item => s!"        {item},\n") ++ "    ]"

/-- A record on one line. -/
def Record.inline (r : Record) : String :=
  let items := r.parts.map fun (name, part) => name ++ ": " ++ part.inline
  r.name ++ " \x7b " ++ String.intercalate ", " items ++ " \x7d"

/-- A record with one part on each line. -/
def Record.indented (r : Record) : String :=
  let lines := r.parts.map fun (name, part) => "    " ++ name ++ ": " ++ part.indented ++ ",\n"
  r.name ++ " \x7b\n" ++ String.join lines ++ "\x7d"

end BitLinear.Text
