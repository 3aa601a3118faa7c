import NamespaceLang.Diagnostic.Cause
import NamespaceLang.Position

/-!
# Diagnostics

A diagnostic is a list of entries, the first of them the problem itself and the
others notes, under the trace of what was being worked out when it came up.
-/

set_option autoImplicit false

namespace NamespaceLang

inductive Severity where
  | error
  | note
  /-- Something held to be impossible has happened. -/
  | unreachable
  | warning
  deriving DecidableEq, Repr, Inhabited

def Severity.name : Severity → String
  | .error => "error"
  | .note => "note"
  | .unreachable => "unreachable"
  | .warning => "warning"

def Severity.all : List Severity := [.error, .note, .unreachable, .warning]

structure Entry where
  pos? : Option Position
  severity : Severity
  cause : Cause
  deriving DecidableEq, Repr, Inhabited

def Entry.message (e : Entry) : String := e.cause.message

structure Breadcrumb where
  label : String
  pos : Position
  deriving DecidableEq, Repr, Inhabited

abbrev Trace := List Breadcrumb

structure Diagnostic where
  entries : List Entry
  /-- Outermost step first. -/
  trace : Trace
  deriving DecidableEq, Repr, Inhabited

namespace Diagnostic

def error (pos : Position) (cause : Cause) : Diagnostic := ⟨[⟨some pos, .error, cause⟩], []⟩

def unreachable (pos : Position) (cause : Cause) : Diagnostic :=
  ⟨[⟨some pos, .unreachable, cause⟩], []⟩

def withNote (d : Diagnostic) (pos : Position) (cause : Cause) : Diagnostic :=
  { d with entries := d.entries ++ [⟨some pos, .note, cause⟩] }

/-- The diagnostic as seen from the end of `trace`. -/
def under (trace : Trace) (d : Diagnostic) : Diagnostic := { d with trace := trace ++ d.trace }

def severity (d : Diagnostic) : Severity := (d.entries.head?.map (·.severity)).getD .error

def message (d : Diagnostic) : String := (d.entries.head?.map (·.message)).getD ""

def pos? (d : Diagnostic) : Option Position := d.entries.head?.bind (·.pos?)

def notes (d : Diagnostic) : List Entry := d.entries.tail

@[simp] theorem under_nil (d : Diagnostic) : d.under [] = d := rfl

end Diagnostic

end NamespaceLang
