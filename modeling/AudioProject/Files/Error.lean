/-
  Why the file system refuses.
-/

namespace AudioProject

inductive FileError where
  | notFound
  | alreadyExists
  | notDirectory
  | isDirectory
  | notEmpty
  | nameTooLong
  /-- A path with a NUL character. -/
  | nulInPath
  /-- Text was asked for, and the bytes are not UTF-8. -/
  | notText
  /-- A copy of something that is no file. -/
  | notRegular
  /-- A failure that was asked for beforehand. -/
  | simulated
  deriving DecidableEq, Repr

def FileError.message : FileError → String
  | notFound => "No such file or directory (os error 2)"
  | alreadyExists => "File exists (os error 17)"
  | notDirectory => "Not a directory (os error 20)"
  | isDirectory => "Is a directory (os error 21)"
  | notEmpty => "Directory not empty (os error 39)"
  | nameTooLong => "File name too long (os error 36)"
  | nulInPath => "file name contained an unexpected NUL byte"
  | notText => "stream did not contain valid UTF-8"
  | notRegular => "the source path is neither a regular file nor a symlink to a regular file"
  | simulated => "simulated crash for fault injection testing"

end AudioProject
