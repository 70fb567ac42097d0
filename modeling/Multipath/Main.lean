import Multipath.Command.Run

/-!
The program: files and both output streams of the system around `Command.runArguments`.
-/

open Multipath

/-- Whether a code is an error's number, which comes with or without a minus sign. -/
def isNumber (code number : UInt32) : Bool := code = number || code = -number

def readFile (path : String) : IO (Except FileError ByteArray) := do
  match ← (IO.FS.readBinFile path).toBaseIO with
  | .ok bytes => return .ok bytes
  | .error (.noFileOrDirectory ..) => return .error .missing
  | .error (.permissionDenied ..) => return .error .denied
  | .error (.inappropriateType _ code _) =>
    return .error (if isNumber code 20 then .notDirectory else .directory)
  | .error e@(.invalidArgument _ code _) =>
    return .error (if isNumber code 36 then .nameTooLong else .other (toString e))
  | .error e => return .error (.other (toString e))

def files : Files IO where
  read := readFile
  isFile path := return (← readFile path).toBool

def main (args : List String) : IO UInt32 := do
  let outcome ← Command.runArguments files args
  IO.print outcome.out
  IO.eprint outcome.err
  return outcome.code.toUInt32
