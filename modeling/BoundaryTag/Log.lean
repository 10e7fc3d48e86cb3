import BoundaryTag.Text.Record

/-!
# Log — lines of text with a level

A record is a line of text with a level. Levels are ordered by how much they tell.
-/

namespace BoundaryTag

/-- How much a record matters, the least talkative first. -/
inductive LogLevel where
  | warn
  | debug
  | trace
  deriving DecidableEq

namespace LogLevel

def rank : LogLevel → Nat
  | warn => 1
  | debug => 2
  | trace => 3

def label : LogLevel → String
  | warn => "WARN"
  | debug => "DEBUG"
  | trace => "TRACE"

end LogLevel

structure LogRecord where
  level : LogLevel
  text : String
  deriving DecidableEq

def LogRecord.line (r : LogRecord) : String := r.level.label ++ " " ++ r.text

end BoundaryTag
