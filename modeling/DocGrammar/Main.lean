import DocGrammar.File.Echo

/-!
# The command line

`echo` for document files: each argument is a path, and each file is written back as canonical text.
All that happens here is reading and writing; what is written is decided in `File.Echo`.
-/

set_option autoImplicit false

namespace DocGrammar
namespace CommandLine

/-- The number of an error, which may be given as a negative number of 32 bits. -/
def errorNumber (code : UInt32) : Nat := min code.toNat (UInt32.size - code.toNat)

/-- The operating system's part of an error. -/
def systemError : IO.Error → SystemError
  | .noFileOrDirectory _ _ _ => .notFound
  | .permissionDenied _ _ _ => .permissionDenied
  | .inappropriateType _ code _ => .ofCode (errorNumber code)
  | .invalidArgument _ code _ => .ofCode (errorNumber code)
  | .otherError code _ => .ofCode (errorNumber code)
  | _ => ⟨5, "Input/output error"⟩

/-- Reads a file. -/
def contentsOf (path : String) : IO FileContents := do
  try
    return .ok (← IO.FS.readBinFile path).data
  catch error =>
    return .error (systemError error)

/-- Echoes files in order, and tells whether one of them failed. -/
def run : List String → IO Bool
  | [] => return false
  | path :: rest => do
    let report := echoFile path (← contentsOf path)
    IO.print report.output
    IO.eprint report.errors
    return report.failed || (← run rest)

end CommandLine
end DocGrammar

/-- Echoes the files named by the arguments. -/
def main (paths : List String) : IO UInt32 := do
  if ← DocGrammar.CommandLine.run paths then return 1 else return 0
