import LiveMarkup.Command.Outcome

/-! The program: reads the files that its arguments name, runs, and writes. -/

namespace LiveMarkup

/-- The text of a file, if it can be read and is text. -/
def readText (path : String) : IO (Option String) := do
  try
    let bytes ← IO.FS.readBinFile path
    pure (String.fromUTF8? bytes)
  catch _ => pure none

/-- Writes a file; tells whether that went well. -/
def writeText (path text : String) : IO Bool := do
  try
    IO.FS.writeFile path text
    pure true
  catch _ => pure false

/-- Tells why a run failed, the causes below. -/
def reportFailure (e : CommandError) : IO Unit := do
  IO.eprintln ("Error: " ++ e.context)
  match e.chain.drop 1 with
  | [] => pure ()
  | causes => IO.eprintln ("\nCaused by:\n    " ++ "\n    ".intercalate causes)

def start (args : List String) : IO UInt32 := do
  let paths := match Arguments.parse args with
    | .ok request => request.paths
    | .error _ => []
  let table ← paths.mapM fun path => do pure (path, ← readText path)
  let outcome := runProgram (fun path => (Entries.get? path table).join) args
  let failure ← match outcome.written with
    | none => pure outcome.failure
    | some (path, text) => do
      let written ← writeText path text
      pure (if written then outcome.failure else some (.unwritable path))
  match failure with
  | some e =>
    reportFailure e
    pure 1
  | none =>
    IO.print outcome.stdout
    pure (UInt32.ofNat outcome.code)

end LiveMarkup

def main (args : List String) : IO UInt32 := LiveMarkup.start args
