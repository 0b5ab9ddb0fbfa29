import Flexbox.CommandLine

namespace Flexbox.CommandLine

def reason (e : IO.Error) : String :=
  match e with
  | .noFileOrDirectory .. => "No such file or directory (os error 2)"
  | .permissionDenied .. => "Permission denied (os error 13)"
  | e => toString e

def attempt (read : IO String) : IO (Except String String) := do
  try
    return .ok (← read)
  catch e =>
    return .error (reason e)

def systemInputs : Inputs IO where
  file path := attempt (IO.FS.readFile path)
  standard := attempt do (← IO.getStdin).readToEnd
  isInteractive := do (← IO.getStdin).isTty

end Flexbox.CommandLine

def main (arguments : List String) : IO UInt32 := do
  let outcome ← Flexbox.CommandLine.call arguments Flexbox.CommandLine.systemInputs
  (← IO.getStdout).putStr outcome.output
  (← IO.getStderr).putStr outcome.errors
  return outcome.code.toUInt32
