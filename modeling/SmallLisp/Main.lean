import SmallLisp.Cli.Command
import SmallLisp.Text.Utf8

open SmallLisp

def lookupOnDisk (name : String) : IO Cli.Lookup := do
  try
    let bytes ← IO.FS.readBinFile name
    pure (.contents (Text.decode bytes.toList))
  catch e =>
    match e with
    | .noFileOrDirectory .. => pure .absent
    | _ => pure .directory

partial def readAllInput (stream : IO.FS.Stream) (seen : ByteArray) : IO ByteArray := do
  let bytes ← stream.read 65536
  if bytes.isEmpty then pure seen else readAllInput stream (seen ++ bytes)

def main (args : List String) : IO UInt32 := do
  let input := do
    let bytes ← readAllInput (← IO.getStdin) .empty
    pure (Text.decode bytes.toList)
  let output ← Cli.execute lookupOnDisk input args
  IO.print output.stdout
  pure output.exitCode.toUInt32
