/-!
What can go wrong with a file, and how messages say it.
-/

namespace PluginHost.Storage

inductive Fault where
  | missing
  | alreadyThere
  | notFolder
  | isFolder
  | nameTooLong
  | tooManyLinks
  | busy
  | notText
  | nulInName
  | other (text : String)
  deriving DecidableEq, Repr

def numbered (text : String) (number : Nat) : String :=
  text ++ " (os error " ++ toString number ++ ")"

def Fault.message : Fault → String
  | .missing => numbered "No such file or directory" 2
  | .alreadyThere => numbered "File exists" 17
  | .notFolder => numbered "Not a directory" 20
  | .isFolder => numbered "Is a directory" 21
  | .nameTooLong => numbered "File name too long" 36
  | .tooManyLinks => numbered "Too many levels of symbolic links" 40
  | .busy => numbered "Device or resource busy" 16
  | .notText => "stream did not contain valid UTF-8"
  | .nulInName => "file name contained an unexpected NUL byte"
  | .other text => text

end PluginHost.Storage
