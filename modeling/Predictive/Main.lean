import Predictive.Command.Directory

namespace Predictive

partial def readAll (stream : IO.FS.Stream) (bytes : ByteArray) : IO ByteArray := do
  let chunk ← stream.read 65536
  if chunk.isEmpty then return bytes else readAll stream (bytes ++ chunk)

def readFault : IO.Error → ReadFault
  | .noFileOrDirectory .. => .notFound
  | .inappropriateType _ 21 _ => .isDirectory
  | .inappropriateType .. => .notDirectory
  | e => .other (toString e)

def readBytes (action : IO ByteArray) : IO (Except ReadFault String) := do
  match ← action.toBaseIO with
  | .ok bytes => return decodeText bytes
  | .error e => return .error (readFault e)

def runCommandLine (args : List String) : IO UInt32 := do
  match Invocation.ofCommandLine? args with
  | none =>
    IO.eprint summaryText
    return 2
  | some invocation =>
    let sources ← match invocation with
      | .run { file := some path, .. } => do
        let text ← readBytes (IO.FS.readBinFile path)
        pure ⟨.ok "", fun _ => text⟩
      | .run _ => do
        let text ← readBytes (do readAll (← IO.getStdin) .empty)
        pure ⟨text, fun _ => .error .notFound⟩
      | .tell _ => pure ⟨.ok "", fun _ => .error .notFound⟩
    let response := invocation.response sources
    IO.eprint response.log
    IO.print response.output
    return UInt32.ofNat response.code

end Predictive

def main (args : List String) : IO UInt32 := Predictive.runCommandLine args
