import Script.Console
import Std.Time.DateTime.Timestamp

/-!
The command line: one script, or lines of input until they end.
-/

namespace Script

/-- Levels and turns that no run uses up. -/
def enough : Nat := Nat.pow 2 62

/-- Seconds since the beginning of 1970. The time is taken once, outside of the evaluation, so a script or a line of
input reads the same each time. -/
def now : IO Clock := do
  let time ← Std.Time.Timestamp.now
  return .still (Float.ofInt time.toNanosecondsSinceUnixEpoch.val / 1e9)

def fileFault : IO.Error → FileFault
  | .noFileOrDirectory .. => .missing
  | .inappropriateType _ 21 _ => .directory
  | .inappropriateType .. => .belowFile
  | .permissionDenied .. => .denied
  | error => .other (toString error)

def readScript (path : String) : IO (Except FileFault ByteArray) := do
  try
    return .ok (← IO.FS.readBinFile path)
  catch error =>
    return .error (fileFault error)

/-- Sends out what is on the two channels, and leaves them empty. -/
def drain (console : Console) : IO Console := do
  let machine := console.machine
  let output ← IO.getStdout
  output.write machine.sink.written
  output.flush
  (← IO.getStderr).putStr console.errors
  return { machine := { machine with sink := {} } }

def finish (console : Console) (status : Status) : IO UInt32 := do
  let _ ← drain console
  return status.code

/-- Bytes up to a line feed, or to the end of the input. -/
partial def readLine (input : IO.FS.Stream) (line : ByteArray) : IO ByteArray := do
  let bytes ← input.read 1
  match bytes.data.toList with
  | [] => return line
  | byte :: _ => if byte = 10 then return line.push byte else readLine input (line.push byte)

partial def converse (input : IO.FS.Stream) (console : Console) : IO UInt32 := do
  let console ← drain (console.write prompt)
  let line ← readLine input .empty
  if line.isEmpty then return Status.success.code
  let time ← now
  let console := { console with machine := { console.machine with time } }
  match console.enterBytes enough line with
  | some (console, .success) => converse input console
  | some (console, status) => finish console status
  | none => return Status.failed.code

end Script

open Script in
def main (arguments : List String) : IO UInt32 := do
  let console := Console.start (← now)
  match arguments with
  | [] => converse (← IO.getStdin) console
  | [path] =>
    match console.script enough (← readScript path) with
    | some (console, status) => finish console status
    | none => return Status.failed.code
  | _ => finish (console.write usage) .usage
