import LuaBytecode.Value.Basic
/-!
# Faults

Everything that can stop compiling or running a chunk, by its cause. `Fault.message` is the
text of each; a raised value's text is the value's own (`Value.render`).
-/

namespace LuaBytecode

/-- Why compiling or running stopped. -/
inductive Fault where
  /-- The compiler refused the tree at this line. -/
  | compile (line : Nat) (message : String)
  /-- A runtime error with its text. -/
  | runtime (message : String)
  /-- An operation applied to a value of the wrong type: the action and the type's name. -/
  | typeMismatch (action : String) (got : String)
  /-- A call of a value that is no function and has no `__call`; the type's name. -/
  | notCallable (got : String)
  /-- Too many frames. -/
  | stackOverflow
  /-- A value raised by `error` or a failed `assert`. -/
  | raised (v : Value)
  /-- An entry point that is deliberately not provided. -/
  | unsupported (what : String)
  /-- A state the compiler or the machine should never reach. -/
  | internal (message : String)
  /-- A failed consistency check of the compiler: an operand too wide for its field, a
  register given back below the locals, an arithmetic overflow. The text is the check's. -/
  | panic (message : String)
  deriving Inhabited

namespace Fault

/-- The text of a fault. -/
def message : Fault → String
  | compile line msg => "compile error at line " ++ toString line ++ ": " ++ msg
  | runtime msg => "runtime error: " ++ msg
  | typeMismatch action got => "attempt to " ++ action ++ " a " ++ got ++ " value"
  | notCallable got => "attempt to call a " ++ got ++ " value"
  | stackOverflow => "stack overflow"
  | raised v => v.render
  | unsupported what => "unsupported operation: " ++ what
  | internal msg => "internal error: " ++ msg
  | panic msg => msg

/-- The name of a fault's kind. -/
def kind : Fault → String
  | compile .. => "Compile"
  | runtime _ => "Runtime"
  | typeMismatch .. => "TypeError"
  | notCallable _ => "NotCallable"
  | stackOverflow => "StackOverflow"
  | raised _ => "Value"
  | unsupported _ => "Unsupported"
  | internal _ => "Internal"
  | panic _ => "Panic"

end Fault

end LuaBytecode
