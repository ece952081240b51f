/-!
# LintBridge.Terminal.Log

The log of a terminal program. It goes to the error stream, through one handler however often it is
configured; the last configuration counts.
-/

namespace LintBridge

/-- The least serious messages that are logged. -/
inductive LogLevel where
  | debug
  | warning
  deriving DecidableEq, Repr

/-- The name of a level. -/
def LogLevel.name : LogLevel → String
  | debug => "DEBUG"
  | warning => "WARNING"

/-- How the log is configured. -/
structure Log where
  level : LogLevel := .warning
  handlers : Nat := 0
  deriving DecidableEq, Repr

namespace Log

/-- The log configured once more. -/
def configure (log : Log) (debug : Bool) : Log where
  level := if debug then .debug else .warning
  handlers := max log.handlers 1

@[simp] theorem configure_configure (log : Log) (earlier debug : Bool) :
    (log.configure earlier).configure debug = log.configure debug := by
  simp [configure]

/-- A log that is configured several times is as if it were configured once, as it is last. -/
theorem foldl_configure (log : Log) (earlier : List Bool) (debug : Bool) :
    (earlier.foldl configure log).configure debug = log.configure debug := by
  induction earlier generalizing log with
  | nil => rfl
  | cons first rest ih => simp [ih]

end Log

end LintBridge
