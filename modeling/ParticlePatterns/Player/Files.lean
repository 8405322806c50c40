/-!
# Files

A path is a walk from directory to directory. It leads to the text of a file, or ends
at the first step that cannot be taken.
-/

set_option autoImplicit false

namespace ParticlePatterns.Player

inductive ReadError
  | missing
  | denied
  | notDirectory
  | isDirectory
  | nameTooLong
  /-- The bytes of the file are those of no text. -/
  | notText
deriving DecidableEq, Repr

namespace ReadError

def reason : ReadError → String
  | missing => "No such file or directory"
  | denied => "Permission denied"
  | notDirectory => "Not a directory"
  | isDirectory => "Is a directory"
  | nameTooLong => "File name too long"
  | notText => "stream did not contain valid UTF-8"

def code? : ReadError → Option Nat
  | missing => some 2
  | denied => some 13
  | notDirectory => some 20
  | isDirectory => some 21
  | nameTooLong => some 36
  | notText => none

def ofCode? (code : Nat) : Option ReadError :=
  [missing, denied, notDirectory, isDirectory, nameTooLong].find? fun e => e.code? == some code

def message (e : ReadError) : String :=
  match e.code? with
  | some code => s!"{e.reason} (os error {code})"
  | none => e.reason

end ReadError

inductive Node
  | file (text : String)
  | directory (entries : List (String × Node))

namespace Node

def names : List Char → List (List Char)
  | [] => [[]]
  | c :: rest =>
      if c = '/' then [] :: names rest
      else match names rest with
        | [] => [[c]]
        | first :: others => (c :: first) :: others

/-- Go from the first of the given nodes, with those around it, by the given names. The
outermost directory is around itself. -/
def walk : List Node → List String → Except ReadError Node
  | [], _ => .error .missing
  | here :: _, [] => .ok here
  | .file _ :: _, _ :: _ => .error .notDirectory
  | .directory entries :: around, name :: rest =>
      if name.isEmpty || name == "." then walk (.directory entries :: around) rest
      else if name == ".." then
        walk (if around.isEmpty then [.directory entries] else around) rest
      else if 255 < name.utf8ByteSize then .error .nameTooLong
      else match entries.find? fun entry => entry.1 == name with
        | none => .error .missing
        | some (_, node) => walk (node :: .directory entries :: around) rest

def read (places : List Node) (path : String) : Except ReadError String :=
  if path.isEmpty then .error .missing
  else if 4096 ≤ path.utf8ByteSize then .error .nameTooLong
  else
    let start := if path.toList.head? = some '/' then places.getLast?.toList else places
    match walk start ((names path.toList).map String.ofList) with
    | .error e => .error e
    | .ok (.file text) => .ok text
    | .ok (.directory _) => .error .isDirectory

end Node

end ParticlePatterns.Player
