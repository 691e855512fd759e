import Script.Run
import Script.WhiteSpace

/-!
The program as it is used: with a script, or with lines of input that are answered one by one. What
reaches its two channels, and the status that it exits with, follow from its arguments, from what a
script's file holds and from its input.
-/

namespace Script

/-- What a line of input asks for. -/
inductive Entry where
  | blank
  | program (source : String)
  | expression (source : String)
deriving DecidableEq, Repr

/-- A line that ends like a statement is run, any other is evaluated. -/
def Entry.ofLine (line : String) : Entry :=
  let text := trimWhiteSpace line.toList
  match text.getLast? with
  | none => .blank
  | some last =>
    if last = ';' ∨ last = '}' then .program (String.ofList text)
    else .expression (String.ofList text)

/-- Why a script cannot be read. -/
inductive FileFault where
  | missing
  | directory
  | belowFile
  | denied
  | notText
  | other (reason : String)
deriving DecidableEq, Repr

/-- What the bytes of a script or of a line have to be, when they are not. -/
def notText : String := "stream did not contain valid UTF-8"

def FileFault.message : FileFault → String
  | .missing => "No such file or directory (os error 2)"
  | .directory => "Is a directory (os error 21)"
  | .belowFile => "Not a directory (os error 20)"
  | .denied => "Permission denied (os error 13)"
  | .notText => Script.notText
  | .other reason => reason

inductive Status where
  | success
  | usage
  | unreadable
  | failed
  | noScript
  | noInput
deriving DecidableEq, Repr

def Status.code : Status → UInt32
  | .success => 0
  | .usage => 64
  | .unreadable => 65
  | .failed => 70
  | .noScript => 66
  | .noInput => 74

def RunError.status : RunError → Status
  | .unreadable _ => .unreadable
  | .runtime _ => .failed

def usage : String := "Usage: alpha [script]\n"

def prompt : String := "> "

/-- A machine, whose sink is one of the channels, and the text on the other one. -/
structure Console where
  machine : Machine
  errors : String := ""

namespace Console

def start (time : Clock) : Console :=
  { machine := .start {} time }

def write (console : Console) (text : String) : Console :=
  let { machine, errors } := console
  { machine := { machine with sink := (machine.sink.write text).2 }, errors }

def complain (console : Console) (text : String) : Console :=
  { console with errors := console.errors ++ text ++ "\n" }

/-- Runs a source, complains if it fails, and says what status that means. -/
def run (level : Nat) (console : Console) (source : String) : Option (Console × Status) :=
  match console.machine.run level source with
  | .done () machine => some ({ console with machine }, .success)
  | .failed error machine => some (({ console with machine }).complain error.text, error.status)
  | .exhausted => none

def evaluate (level : Nat) (console : Console) (source : String) : Option Console :=
  match console.machine.evaluate level source with
  | .done value machine => some (({ console with machine }).write (value.text ++ "\n"))
  | .failed error machine => some (({ console with machine }).complain error.text)
  | .exhausted => none

def enter (level : Nat) (console : Console) (line : String) : Option Console :=
  match Entry.ofLine line with
  | .blank => some console
  | .program source => (console.run level source).map Prod.fst
  | .expression source => console.evaluate level source

/-- Answers the bytes of a line. The session goes on unless they are no text. -/
def enterBytes (level : Nat) (console : Console) (line : ByteArray) : Option (Console × Status) :=
  match String.fromUTF8? line with
  | some line => (console.enter level line).map (·, .success)
  | none => some (console.complain ("Error reading input: " ++ notText), .noInput)

def session (level : Nat) (console : Console) : List ByteArray → Option (Console × Status)
  | [] => some (console.write prompt, .success)
  | line :: rest =>
    match (console.write prompt).enterBytes level line with
    | some (console, .success) => session level console rest
    | ending => ending

def script (level : Nat) (console : Console) (file : Except FileFault ByteArray) :
    Option (Console × Status) :=
  let source? := file.bind fun bytes =>
    match String.fromUTF8? bytes with
    | some source => .ok source
    | none => .error .notText
  match source? with
  | .ok source => console.run level source
  | .error fault => some (console.complain ("Error reading file: " ++ fault.message), .noScript)

/-- The lines of an input, without the line feeds that end them. -/
def lines (input : List UInt8) : List ByteArray :=
  match input with
  | [] => []
  | byte :: rest =>
    let line := (byte :: rest).takeWhile (· != 10)
    ⟨line.toArray⟩ :: lines (rest.drop line.length)
termination_by input.length
decreasing_by
  simp only [List.length_drop, List.length_cons]
  omega

/-- What the program does with its arguments, given what a file holds and the whole input. -/
def respond (level : Nat) (time : Clock) (arguments : List String)
    (file : String → Except FileFault ByteArray) (input : ByteArray) : Option (Console × Status) :=
  let console := start time
  match arguments with
  | [] => console.session level (lines input.toList)
  | [path] => console.script level (file path)
  | _ => some (console.write usage, .usage)

end Console

end Script
