/-!
Opening files by their paths: what the operating system answers for a folder whose files are known.
-/

set_option autoImplicit false

namespace IntegerPrograms

structure OpenFault where
  code : Nat
  text : String
  deriving DecidableEq

namespace OpenFault

def notFound : OpenFault := ⟨2, "No such file or directory"⟩

def nameTooLong : OpenFault := ⟨36, "File name too long"⟩

def message (fault : OpenFault) : String := s!"{fault.text} (os error {fault.code})"

end OpenFault

inductive Opened where
  | file (text : String)
  | directory
  deriving DecidableEq

/-- The files of a folder by name, with their texts. There is nothing else below the folder or
beside it. -/
structure Folder where
  files : List (String × String) := []

namespace Folder

def maxPath : Nat := 4096

def maxName : Nat := 255

def isStep (name : String) : Bool := name = "" || name = "." || name = ".."

/-- Follows the names of a path up to the first that is not there. A name is measured only when
it is looked up. -/
def walk : List String → Except OpenFault Opened
  | [] => .ok .directory
  | name :: rest =>
    if isStep name then walk rest
    else .error (if maxName < name.utf8ByteSize then .nameTooLong else .notFound)

def find (folder : Folder) (path : String) : Except OpenFault Opened :=
  match folder.files.lookup path with
  | some text => .ok (.file text)
  | none =>
    if path.isEmpty then .error .notFound
    else if maxPath ≤ path.utf8ByteSize then .error .nameTooLong
    else walk (path.splitOn "/")

end Folder

end IntegerPrograms
