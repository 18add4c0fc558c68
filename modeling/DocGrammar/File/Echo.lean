import DocGrammar.Doc.Grammar
import DocGrammar.Doc.Printer
import DocGrammar.Grammar.Failure

/-!
# Echoing document files

The command line reads document files and writes each back as canonical text under a comment that
names it.  A file that cannot be read is reported instead, and the others are echoed all the same.

What the operating system answers is an argument here: a file's bytes, or why there are none.
-/

set_option autoImplicit false

namespace DocGrammar

/-! ## Failing to read or write a file

A document file can be out of reach, or it can be read and hold no document. -/

/-- An error of the operating system: its number, and what it means. -/
structure SystemError where
  code : Nat
  description : String
  deriving DecidableEq

namespace SystemError

/-- There is no such file, or no such folder on the way to it. -/
def notFound : SystemError := ⟨2, "No such file or directory"⟩

/-- A folder on the way to the file is a file itself. -/
def notDirectory : SystemError := ⟨20, "Not a directory"⟩

/-- The file is a folder. -/
def isDirectory : SystemError := ⟨21, "Is a directory"⟩

/-- The path, or a name on it, is longer than names may be. -/
def nameTooLong : SystemError := ⟨36, "File name too long"⟩

/-- The file is not for this user to read. -/
def permissionDenied : SystemError := ⟨13, "Permission denied"⟩

/-- The errors that reading a file usually ends in. -/
def usual : List SystemError :=
  [notFound, permissionDenied, notDirectory, isDirectory, nameTooLong]

/-- The error of a number. -/
def ofCode (code : Nat) : SystemError :=
  (usual.find? fun e ↦ e.code == code).getD ⟨code, "Unknown error"⟩

/-- The meaning, and the number in parentheses. -/
def text (e : SystemError) : String :=
  e.description ++ " (os error " ++ Dump.nat e.code ++ ")"

end SystemError

/-- Why a document file could not be read or written. -/
inductive FileError where
  | system (error : SystemError)
  | malformed (error : ParseError)
  deriving DecidableEq

/-- The error on one line. -/
def FileError.text : FileError → String
  | system error => "I/O error: " ++ error.text
  | malformed error => "parse error " ++ error.text

/-! ## Files and reports -/

/-- What the operating system has for a file. -/
abbrev FileContents := Except SystemError (Array UInt8)

/-- The document in a file. -/
def Doc.ofFile (contents : FileContents) : Except FileError Doc :=
  match contents with
  | .error error => .error (.system error)
  | .ok input =>
    match Doc.read {} input with
    | (.ok _, root) => .ok root
    | (.error error, _) => .error (.malformed error)

/-- The bytes a document is written to a file as. -/
def Doc.toFile (d : Doc) : List UInt8 := Utf8.encode d.print

/-- What a run of the command line says. -/
structure Report where
  output : String := ""
  errors : String := ""
  failed : Bool := false
  deriving DecidableEq

namespace Report

/-- The exit status: one if anything went wrong. -/
def status (r : Report) : Nat := r.failed.toNat

/-- One report after another. -/
def append (a b : Report) : Report :=
  ⟨a.output ++ b.output, a.errors ++ b.errors, a.failed || b.failed⟩

instance : Append Report := ⟨append⟩

end Report

/-- Echoes one file. -/
def echoFile (path : String) (contents : FileContents) : Report :=
  match Doc.ofFile contents with
  | .ok root => { output := "// " ++ path ++ "\n" ++ root.print }
  | .error error => { errors := path ++ ": " ++ error.text ++ "\n", failed := true }

/-- Echoes files in order. -/
def echoFiles : List (String × FileContents) → Report
  | [] => {}
  | (path, contents) :: rest => echoFile path contents ++ echoFiles rest

end DocGrammar
