import PathDoc.CommandLine

/-!
# PathDoc.Main — the command line program

Prints the document that the arguments build, or what is wrong on standard error with exit code 1.
-/

open PathDoc

/-- What is said about a seed that is no document: this reader does not say where it stops. -/
def PathDoc.notADocument : String := "the seed is not a JSON document"

/-- Says what is wrong. -/
def PathDoc.complain (message : String) : IO UInt32 := do
  IO.eprintln message
  return 1

def main (args : List String) : IO UInt32 :=
  match Invocation.read args with
  | .error e => complain e.message
  | .ok inv =>
    match inv.output with
    | .error e => complain (e.message notADocument)
    | .ok text => do
      IO.println text
      return 0
