import Lox.Text.Newline
import Lox.Text.Utf8

/-
  Source files: finding one in a directory and reading it.

  Key definitions include:
    * `Unread`
    * `Directory`
    * `Place`
    * `Directory.step`
    * `Directory.find`
    * `readSource`
-/

namespace Lox

------------------------------------------------------------
-- Failures
------------------------------------------------------------

/-
  Why a file cannot be read: the system refuses, the name is
  none, or its bytes are not text.
-/
inductive Unread where
  | refused (reason : String)
  | nullInName
  | notText (fault : Text.Utf8.Fault)
deriving DecidableEq

namespace Unread

def notFound : Unread :=
  refused "No such file or directory"

def isDirectory : Unread :=
  refused "Is a directory"

def notDirectory : Unread :=
  refused "Not a directory"

def nameTooLong : Unread :=
  refused "File name too long"

end Unread

------------------------------------------------------------
-- Directories
------------------------------------------------------------

/-
  The directory in which the program runs.  It holds files
  and nothing else; of the directories above it nothing is
  known but that they are there.
-/
structure Directory where
  files : List (String × List UInt8)

/-
  Where a path has led to so far: the directory itself, one
  of those above it, or a file.
-/
inductive Place where
  | inside
  | above
  | file (bytes : List UInt8)
deriving DecidableEq

namespace Directory

/- The steps of a path: its parts between slashes. -/
def steps : List Char → List (List Char)
  | [] => [[]]
  | '/' :: rest => [] :: steps rest
  | c :: rest =>
      match steps rest with
      | [] => [[c]]
      | p :: ps => (c :: p) :: ps

/- A name or path may not have more bytes than these. -/
def longestName : Nat := 255

def longestPath : Nat := 4095

/- Go on to the file of a name. -/
def enter
    (dir : Directory)
    (p : Place)
    (name : String) : Except Unread Place :=
  if longestName < name.utf8ByteSize then .error .nameTooLong
  else
    match p, dir.files.lookup name with
    | .inside, some bytes => .ok (.file bytes)
    | _, _ => .error .notFound

/-
  Take one step of a path.  An empty step and a dot lead
  nowhere, two dots lead up, and no step leads on from a
  file, not even an empty one.
-/
def step
    (dir : Directory)
    (p : Place)
    (part : List Char) : Except Unread Place :=
  match p with
  | .file _ => .error .notDirectory
  | _ =>
      if part = [] ∨ part = ['.'] then .ok p
      else if part = ['.', '.'] then .ok .above
      else dir.enter p (String.ofList part)

/- Where a path starts: at the top, or in the directory. -/
def start
    (path : String) : Place :=
  if path.toList.head? = some '/' then .above else .inside

/- The bytes of the file that a path leads to. -/
def find
    (dir : Directory)
    (path : String) : Except Unread (List UInt8) :=
  if '\x00' ∈ path.toList then .error .nullInName
  else if path.isEmpty then .error .notFound
  else if longestPath < path.utf8ByteSize then
    .error .nameTooLong
  else do
    match ← (steps path.toList).foldlM dir.step (start path) with
    | .file bytes => return bytes
    | _ => throw .isDirectory

end Directory

------------------------------------------------------------
-- Sources
------------------------------------------------------------

/- The source text that bytes hold, with unified line ends. -/
def readSource
    (bytes : List UInt8) : Except Unread String :=
  match Text.Utf8.decode bytes with
  | .ok cs => .ok (String.ofList (Text.unifyNewlines cs))
  | .error f => .error (.notText f)

end Lox
