/-!
# Verbosity

How often the user asks for more diagnostics decides from which level on they are shown.
-/

set_option autoImplicit false

namespace RpmRelease

/-- Levels of diagnostics, the most urgent first. -/
inductive Level
  | warn
  | info
  | debug
deriving DecidableEq, Repr

namespace Level

/-- The name of a level. -/
def name : Level → String
  | warn => "WARN"
  | info => "INFO"
  | debug => "DEBUG"

/-- The lowest level shown after a number of requests for more. -/
def ofVerbosity : Nat → Level
  | 0 => warn
  | 1 => info
  | _ => debug

end Level

end RpmRelease
