/-! The files that commands read and write. -/

namespace StackMachine

/-- Why a file cannot be read or written. -/
inductive FileError where
  | notFound
  | notDirectory
  | isDirectory
  | nameTooLong
  | invalidUtf8
  | other (message : String)
deriving DecidableEq

/-- The messages of the operating system end with its number for the error. -/
def FileError.message : FileError → String
  | notFound => "No such file or directory (os error 2)"
  | notDirectory => "Not a directory (os error 20)"
  | isDirectory => "Is a directory (os error 21)"
  | nameTooLong => "File name too long (os error 36)"
  | invalidUtf8 => "stream did not contain valid UTF-8"
  | other message => message

/-- What commands may do with files. -/
class Files (m : Type → Type) where
  read : (path : String) → m (Except FileError (List UInt8))
  write : (path : String) → List UInt8 → m (Except FileError Unit)
  /-- The names in a directory, and nothing for a path that leads to none. -/
  names? : (path : String) → m (Option (Except FileError (List String)))

end StackMachine
