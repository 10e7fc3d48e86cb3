/-!
# Record — names and fields as text

A record is shown as a name and its labelled fields between braces, either on one line or with one
field to a line. Addresses inside running text are hexadecimal.
-/

namespace BoundaryTag

/-- The digits of `n` in base sixteen, in lower case and without leading zeros. -/
def hex (n : Nat) : String := String.ofList (Nat.toDigits 16 n)

/-- An address as running text shows it. -/
def hexAddr (n : Nat) : String := "0x" ++ hex n

inductive Style where
  /-- On one line. -/
  | compact
  /-- One field to a line, each indented by four blanks and followed by a comma. -/
  | indented
  deriving DecidableEq

/-- A name with labelled fields, each of which is text already. -/
structure Record where
  name : String
  fields : List (String × String)

namespace Record

def indentRest (text : String) : String :=
  String.ofList (text.toList.flatMap fun c => if c = '\n' then '\n' :: "    ".toList else [c])

/-- A field in the middle of an indented record. -/
def indentedField (field : String × String) : String :=
  "    " ++ field.1 ++ ": " ++ indentRest field.2 ++ ",\n"

def render : Style → Record → String
  | .compact, r =>
    r.name ++ " \x7b " ++ ", ".intercalate (r.fields.map fun f => f.1 ++ ": " ++ f.2) ++ " \x7d"
  | .indented, r =>
    r.name ++ " \x7b\n" ++ String.join (r.fields.map indentedField) ++ "\x7d"

end Record

def optionText : Option Nat → String
  | none => "None"
  | some a => "Some(" ++ toString a ++ ")"

def bytesText (bs : ByteArray) : String :=
  "[" ++ ", ".intercalate (bs.toList.map fun b => toString b.toNat) ++ "]"

end BoundaryTag
