import PathDoc.Draft

/-!
# PathDoc.CommandLine — a document from command line arguments

`Invocation.read` turns arguments into an invocation, `Invocation.output` performs it. Options may
stand anywhere; every other argument is a pair of a path and a value around the first `=`.
-/

namespace PathDoc

open Json

/-- What the arguments ask for. -/
structure Invocation where
  verbose : Bool := false
  pretty : Bool := false
  force : Bool := false
  seed : Option String := none
  pairs : List (String × Value) := []

/-- What is wrong with the arguments. -/
inductive Misuse where
  | unknown (arg : String)
  | valueless (option : String)
  | noEquals (arg : String)
  | nothingToWrite
deriving DecidableEq, Repr

/-- The fault in words. -/
def Misuse.message : Misuse → String
  | unknown arg => "Unknown option: " ++ arg
  | valueless option => "Option " ++ option ++ " expects a value"
  | noEquals arg => "Expected <path>=<value>, got: " ++ arg
  | nothingToWrite => "At least one <path>=<value> pair is required"

/-- Why an invocation has no output. -/
inductive Failure where
  /-- The seed is no document. -/
  | badSeed
  /-- A write was refused. -/
  | refused (r : Refusal)

/-- The failure in words. Where a seed stops being a document is for the reader of documents to say,
and `complaint` is what it says. -/
def Failure.message (complaint : String) : Failure → String
  | badSeed => "json error: " ++ complaint
  | refused r => r.message

/-- The value that a text stands for: the document that it denotes, or else the text itself. -/
def Json.Value.ofArgument (text : String) : Value := (Value.ofText? text).getD (.str text)

/-- A path and a value around the first `=`. -/
def pair? (arg : String) : Option (String × Value) :=
  let cs := arg.toList
  match cs.dropWhile (· ≠ '=') with
  | [] => none
  | _ :: value =>
    some (String.ofList (cs.takeWhile (· ≠ '=')), Value.ofArgument (String.ofList value))

namespace Invocation

/-- Takes the arguments one by one into an invocation; pairs come in at the end. -/
def take (inv : Invocation) : List String → Except Misuse Invocation
  | [] => .ok inv
  | arg :: args =>
    if arg = "-v" ∨ arg = "--verbose" then take { inv with verbose := true } args
    else if arg = "--pretty" then take { inv with pretty := true } args
    else if arg = "--force" then take { inv with force := true } args
    else if arg = "--seed" then
      match args with
      | [] => .error (.valueless arg)
      | seed :: args => take { inv with seed := some seed } args
    else if ['-', '-'].isPrefixOf arg.toList then .error (.unknown arg)
    else
      match pair? arg with
      | none => .error (.noEquals arg)
      | some pair => take { inv with pairs := inv.pairs ++ [pair] } args

/-- The invocation that arguments spell; it has a pair. -/
def read (args : List String) : Except Misuse Invocation :=
  match take {} args with
  | .error e => .error e
  | .ok inv => if inv.pairs.isEmpty then .error .nothingToWrite else .ok inv

/-- The draft that an invocation starts from. -/
def start? (inv : Invocation) : Option Draft :=
  let options : Options := { pretty := inv.pretty }
  match inv.seed with
  | none => some { options }
  | some text => (Draft.ofText? text).map fun d => { d with options }

/-- The text of the document that an invocation builds. -/
def output (inv : Invocation) : Except Failure String :=
  match inv.start? with
  | none => .error .badSeed
  | some d =>
    match d.writeAll (if inv.force then .high else d.options.priority.permission) inv.pairs with
    | .error r => .error (.refused r)
    | .ok d => .ok d.text

end Invocation

end PathDoc
