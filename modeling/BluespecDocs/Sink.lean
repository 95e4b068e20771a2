/-!
Where output goes. A sink may take only so many bytes, and then refuses; it may also refuse to flush.
-/

namespace BluespecDocs

/-- Why output cannot be written: the reader is gone, or the sink takes no more bytes. -/
inductive WriteError where
  | brokenPipe | nothingTaken
deriving DecidableEq, Repr

namespace WriteError

def message : WriteError → String
  | brokenPipe => "broken pipe"
  | nothingTaken => "failed to write whole buffer"

end WriteError

/-- A sink: what it has taken, how many more bytes it takes if there is a limit, how it refuses more, and
whether it refuses to flush. -/
structure Sink where
  taken : ByteArray := ByteArray.empty
  room : Option Nat := none
  refusal : WriteError := .brokenPipe
  flushFails : Bool := false

namespace Sink

/-- Writes a text, as far as the sink takes it. -/
def write (sink : Sink) (text : String) : Sink × Except WriteError Unit :=
  let bytes := text.toUTF8
  match sink.room with
  | none => ({ sink with taken := sink.taken ++ bytes }, .ok ())
  | some room =>
    let part := bytes.extract 0 room
    ({ sink with taken := sink.taken ++ part, room := some (room - part.size) },
     if bytes.size ≤ room then .ok () else .error sink.refusal)

def flush (sink : Sink) : Except WriteError Unit := if sink.flushFails then .error .brokenPipe else .ok ()

def publish (sink : Sink) (text : String) : Sink × Except WriteError Unit :=
  let (sink, result) := sink.write text
  (sink, do
    result
    sink.flush)

/-- Writes texts one after the other until one is refused. -/
def writeEach (sink : Sink) : List String → Sink × Except WriteError Unit
  | [] => (sink, .ok ())
  | text :: texts =>
    match sink.write text with
    | (sink, .ok ()) => sink.writeEach texts
    | (sink, .error e) => (sink, .error e)

end Sink

end BluespecDocs
