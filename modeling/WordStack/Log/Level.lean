import WordStack.Text.Blank

/-! # Levels

The level of a message says how grave it is. -/

namespace WordStack.Log

/-- **A level.** -/
inductive Level where
  | debug
  | info
  | warn
  | error
  deriving DecidableEq

namespace Level

/-- The levels from the least grave on, by number. -/
def rank : Level → Nat
  | debug => 0
  | info => 1
  | warn => 2
  | error => 3

/-- One level is below another if it is less grave. -/
instance : LE Level := ⟨fun a b => a.rank ≤ b.rank⟩

instance (a b : Level) : Decidable (a ≤ b) := inferInstanceAs (Decidable (a.rank ≤ b.rank))

/-- The level as messages show it. -/
def name : Level → String
  | debug => "DEBUG"
  | info => "INFO"
  | warn => "WARN"
  | error => "ERROR"

/-- The level that a word stands for, in whatever case its letters are. -/
def ofText? (text : String) : Option Level :=
  match String.ofList (Text.lower text) with
  | "debug" => some debug
  | "info" => some info
  | "warn" => some warn
  | "warning" => some warn
  | "error" => some error
  | _ => none

/-- What to say of a word that stands for no level. It is shown in lower case. -/
def unknown (text : String) : String :=
  "unknown log level '" ++ String.ofList (Text.lower text) ++ "'"

end Level

end WordStack.Log
