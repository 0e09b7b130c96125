/-! Reading the text of a file by its path, in a folder of which only the files are known. -/
namespace EightBit

inductive ReadFailure where
  | missing
  | isDirectory
  | notDirectory
  | nameTooLong
  | nulInPath
  | notText
  | other (reason : String)
  deriving DecidableEq

def ReadFailure.message : ReadFailure → String
  | missing => "No such file or directory (os error 2)"
  | isDirectory => "Is a directory (os error 21)"
  | notDirectory => "Not a directory (os error 20)"
  | nameTooLong => "File name too long (os error 36)"
  | nulInPath => "file name contained an unexpected NUL byte"
  | notText => "stream did not contain valid UTF-8"
  | other reason => reason

/-- The names of the files with their content. -/
structure Folder where
  files : List (String × ByteArray)

namespace Folder

/-- Where a part of a path leads to. Nothing is known outside of the folder. -/
inductive Place where
  | inside
  | outside
  | file (content : ByteArray)

/-- Splits a path at its slashes. -/
def components : List Char → List (List Char)
  | [] => [[]]
  | c :: cs =>
    if c = '/' then [] :: components cs
    else
      match components cs with
      | [] => [[c]]
      | part :: parts => (c :: part) :: parts

def lookup (folder : Folder) (name : String) : Except ReadFailure Place :=
  match folder.files.find? (·.1 == name) with
  | some (_, content) => .ok (.file content)
  | none => .error .missing

/-- Follows one component of a path. -/
def enter (folder : Folder) (place : Place) (part : List Char) : Except ReadFailure Place :=
  match place with
  | .file _ => .error .notDirectory
  | place =>
    if part = [] ∨ part = ['.'] then .ok place
    else if part = ['.', '.'] then .ok .outside
    else
      let name := String.ofList part
      if 255 < name.utf8ByteSize then .error .nameTooLong
      else
        match place with
        | .inside => folder.lookup name
        | _ => .error .missing

def locate (folder : Folder) (path : String) : Except ReadFailure Place :=
  let cs := path.toList
  if '\x00' ∈ cs then .error .nulInPath
  else if cs.isEmpty then .error .missing
  else if 4096 ≤ path.utf8ByteSize then .error .nameTooLong
  else
    let start : Place := if cs.head? = some '/' then .outside else .inside
    (components cs).foldlM folder.enter start

/-- The text of bytes in UTF-8. -/
def decode (content : ByteArray) : Except ReadFailure String :=
  match String.fromUTF8? content with
  | some text => .ok text
  | none => .error .notText

def read (folder : Folder) (path : String) : Except ReadFailure String :=
  match folder.locate path with
  | .ok (.file content) => decode content
  | .ok _ => .error .isDirectory
  | .error failure => .error failure

end Folder
end EightBit
