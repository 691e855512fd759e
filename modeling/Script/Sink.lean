import Script.RuntimeError

/-!
Where printed text goes: bytes, of which a sink may accept only so many.
-/

namespace Script

structure Sink where
  written : ByteArray := .empty
  limit : Option Nat := none
  refusesFlush : Bool := false

namespace Sink

/-- The bytes that still fit, of some that are to be written. -/
def fitting (sink : Sink) (bytes : ByteArray) : ByteArray :=
  match sink.limit with
  | none => bytes
  | some limit => bytes.extract 0 (limit - sink.written.size)

/-- Writes what fits. The write fails if that is not all. -/
def write (sink : Sink) (text : String) : Except OutputFault Unit × Sink :=
  let bytes := text.toUTF8
  let fitting := sink.fitting bytes
  (if fitting.size = bytes.size then .ok () else .error .full,
    { sink with written := sink.written ++ fitting })

def flush (sink : Sink) : Except OutputFault Unit :=
  if sink.refusesFlush then .error .unflushed else .ok ()

/-- The text written from some byte on. A character that the limit cuts off shows as a replacement
character. -/
def textFrom (sink : Sink) (start : Nat) : String :=
  let bytes := sink.written.extract start sink.written.size
  let upTo (cut : Nat) := String.fromUTF8? (bytes.extract 0 (bytes.size - cut))
  match upTo 0 with
  | some text => text
  | none => ([1, 2, 3].findSome? upTo).getD "" ++ "\ufffd"

end Sink

end Script
