namespace LosslessYaml

inductive Entry : Type
  | missing
  | blocked
  | denied
  | directory
  | file (contents : List UInt8)
  deriving DecidableEq

inductive ReadError : Type
  | notFound
  | permissionDenied
  | notADirectory
  | isADirectory
  deriving DecidableEq

def ReadError.message : ReadError → String
  | .notFound => "No such file or directory (os error 2)"
  | .permissionDenied => "Permission denied (os error 13)"
  | .notADirectory => "Not a directory (os error 20)"
  | .isADirectory => "Is a directory (os error 21)"

namespace Entry

def isPresent : Entry → Bool
  | .missing | .blocked => false
  | _ => true

def contents : Entry → Except ReadError (List UInt8)
  | .missing => .error .notFound
  | .blocked => .error .notADirectory
  | .denied => .error .permissionDenied
  | .directory => .error .isADirectory
  | .file bs => .ok bs

end Entry

structure Host : Type where
  environment : String → Option String
  look : String → Entry

def Host.home? (h : Host) : Option String := (h.environment "HOME").filter (· ≠ "")

end LosslessYaml
