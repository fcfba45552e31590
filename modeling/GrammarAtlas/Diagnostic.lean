import GrammarAtlas.Fault
import GrammarAtlas.Symbol

/-! # Diagnostics

All that is to be said about a grammar: the faults of its text, names declared twice, names and
grammars that are not to be found. -/

namespace GrammarAtlas

inductive Severity where
  | error
  | warning
deriving Repr, DecidableEq

namespace Diagnostic

inductive Cause where
  | fault (cause : Fault.Cause)
  | duplicate (ns : Namespace) (name : String)
  | unresolved (ns : Namespace) (name : String)
  | unknownImport (grammar : String)
deriving Repr, DecidableEq

namespace Cause

def severity : Cause → Severity
  | fault _ | duplicate _ _ => .error
  | unresolved _ _ | unknownImport _ => .warning

/-- A stable name of the cause for other programs. -/
def code : Cause → String
  | fault _ => "syntax"
  | duplicate _ _ => "duplicate-definition"
  | unresolved _ _ => "unresolved-reference"
  | unknownImport _ => "unknown-import"

def message : Cause → String
  | fault cause => cause.message
  | duplicate ns name =>
    "Duplicate definition: " ++ ns.text ++ " '" ++ name ++ "' is already defined"
  | unresolved ns name =>
    "Unresolved reference: " ++ ns.text ++ " '" ++ name ++ "' is not defined"
  | unknownImport grammar => "Unknown import: grammar '" ++ grammar ++ "' is not available"

end Cause

end Diagnostic

structure Diagnostic where
  cause : Diagnostic.Cause
  location : Location
deriving Repr, DecidableEq

namespace Diagnostic

def severity (d : Diagnostic) : Severity := d.cause.severity

def isError (d : Diagnostic) : Bool := d.severity == .error

def code (d : Diagnostic) : String := d.cause.code

def message (d : Diagnostic) : String := d.cause.message

def ofFault (f : Fault) : Diagnostic := ⟨.fault f.cause, f.location⟩

end Diagnostic

end GrammarAtlas
