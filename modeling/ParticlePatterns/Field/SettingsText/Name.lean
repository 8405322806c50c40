import ParticlePatterns.Parsing.Recogniser
import ParticlePatterns.Text.NameCharacter

/-!
# Names in settings

A name is a low line or a letter, and what may follow it. Behind the mark `r#` a name
may also hold points and signs, and may start with anything that it may hold.
-/

set_option autoImplicit false

namespace ParticlePatterns.SettingsText

open Parsing
open Recogniser (runLength)

def startsName (c : Char) : Bool :=
  c = '_' || Text.canStartName c

def isMarkedPart (c : Char) : Bool :=
  ['.', '+', '-'].contains c || Text.canFollowInName c

def startsQuotation (text : List Char) : Bool :=
  ["r\"", "r#\"", "r##", "b\"", "b'", "br\"", "br#"].any fun start =>
    start.toList.isPrefixOf text

def nameToken : Recogniser := fun text =>
  if startsQuotation text then none
  else match text with
    | 'r' :: '#' :: rest => (Recogniser.someRun isMarkedPart rest).map (· + 2)
    | c :: rest => if startsName c then some (runLength Text.canFollowInName rest + 1) else none
    | [] => none

def keyToken : Recogniser := fun text =>
  (nameToken text).filter fun n => !(text.drop n).head?.any isMarkedPart

def nameOf (text : List Char) : List Char :=
  match text with
  | 'r' :: '#' :: rest => rest
  | text => text

def word (text : String) : Recogniser := fun rest =>
  (Recogniser.literal text.toList rest).filter fun n =>
    !(rest.drop n).head?.any Text.canFollowInName

def oneOf (words : List String) : Recogniser := fun text =>
  words.findSome? fun name => word name text

end ParticlePatterns.SettingsText
