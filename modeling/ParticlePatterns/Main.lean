import ParticlePatterns.Number.Double
import ParticlePatterns.Player.Files
import ParticlePatterns.Player.Session

/-!
# The program

Reads its files, runs a session and prints it line by line.
-/

set_option autoImplicit false

namespace ParticlePatterns.Player

def errorCode? : IO.Error → Option UInt32
  | .noFileOrDirectory _ code _ => some code
  | .permissionDenied _ code _ => some code
  | .inappropriateType _ code _ => some code
  | .invalidArgument _ code _ => some code
  | _ => none

def readError? (e : IO.Error) : Option ReadError :=
  (errorCode? e).bind fun code => ReadError.ofCode? (min code.toNat (0 - code).toNat)

def readText (path : String) : IO (Except String String) := do
  try
    match String.fromUTF8? (← IO.FS.readBinFile path) with
    | some text => return .ok text
    | none => return .error ReadError.notText.message
  catch e =>
    return .error ((readError? e).elim (toString e) ReadError.message)

def readAll (paths : List String) : IO (String → Except String String) := do
  let texts ← paths.mapM fun path => return (path, ← readText path)
  return fun path => match texts.find? fun entry => entry.1 == path with
    | some entry => entry.2
    | none => .error "not read"

def play : Nat → Session Float → IO UInt32
  | 0, _ => return 0
  | ticks + 1, s => match s.advance with
    | .error fault => do
        IO.eprintln fault.message
        return 101
    | .ok s => do
        IO.println s.summary
        if s.field.size = 0 then return 0 else play ticks s

def start (o : Options Float) : IO UInt32 := do
  let read ← readAll (o.config.toList ++ o.pattern.toList)
  match Plan.ofOptions read o with
  | .error failure =>
      IO.eprint failure.text
      return 1
  | .ok (.announce text) =>
      IO.print text
      return 0
  | .ok (.play text settings pattern) =>
      IO.print text
      match Session.ofPattern settings o.dt pattern with
      | .error fault =>
          IO.eprintln fault.message
          return 101
      | .ok s => play o.ticks s

def usage : String :=
  "usage: patterns [PATTERN] [--source TEXT] [--ticks N] [--dt X] [--seed N]\n"
    ++ "                [--config PATH] [--print] [--names]\n"

end ParticlePatterns.Player

open ParticlePatterns.Player in
def main (args : List String) : IO UInt32 :=
  match Options.ofArguments? args with
  | some o => start o
  | none => do
      IO.eprint usage
      return 2
