import ParticlePatterns.Field.Settings
import ParticlePatterns.Field.SettingsText.Value

/-!
# Settings as text

Settings are written as `FieldConfig(seed: 7, capacity: 16)`. Any setting may be left out
and is the standard one then. The name may be left out too, unless a directive in front
asks for it. Settings with other names may hold any value; directives can allow more ways
to write one.
-/

set_option autoImplicit false

namespace ParticlePatterns

inductive SettingsError
  | unreadable
  | zeroSeed
deriving DecidableEq, Repr

def SettingsError.message : SettingsError → String
  | unreadable => "RON parse error"
  | zeroSeed => "Invalid configuration: seed must be non-zero"

namespace SettingsText

open Parsing
open Parsing.Parser (choice many optional eof)

inductive Setting
  | seed (value : UInt64)
  | capacity (value : UInt64)
  /-- A setting that is of no use here. -/
  | unused
deriving DecidableEq, Repr

namespace Setting

def seed? : Setting → Option UInt64
  | seed value => some value
  | _ => none

def capacity? : Setting → Option UInt64
  | capacity value => some value
  | _ => none

end Setting

def depthLimit : Nat := 126

def key : Parser String :=
  (token keyToken "name").map fun text => String.ofList (nameOf text.toList)

def whole : Parser UInt64 :=
  (token wholeToken "whole number").bind fun text =>
    match (Whole.read? text.toList).bind Whole.toUInt64? with
    | some n => .pure n
    | none => .fail "whole number of 64 bits"

def setting (allowed : Allowance) : Parser Setting :=
  (key.skip (mark ":")).bind fun
    | "seed" => whole.map .seed
    | "capacity" => whole.map .capacity
    | _ => (value allowed depthLimit).map fun _ => .unused

def requestNames : List String :=
  ["unwrap_newtypes", "implicit_some", "unwrap_variant_newtypes", "explicit_struct_names"]

def request : Parser (List String) :=
  (((mark "enable").andThen (mark "(")).andThen (parted key)).skip (mark ")")
    |>.bind fun names =>
      if !names.isEmpty && names.all requestNames.contains then .pure names
      else .fail "request"

def remark : Parser (List String) :=
  (((choice [mark "type", mark "schema"]).andThen (mark "=")).andThen
    (token (long .text) "text")).map fun _ => []

def directive : Parser (List String) :=
  ((mark "#").andThen ((mark "!").andThen ((mark "[").andThen (choice [request, remark])))).skip
    (mark "]")

def title (needed : Bool) : Parser Unit :=
  (optional key).bind fun
    | some name => if name = "FieldConfig" then .pure () else .fail "FieldConfig"
    | none => if needed then .fail "FieldConfig" else .pure ()

def allowance (requests : List String) : Allowance :=
  ⟨requests.contains "implicit_some", requests.contains "unwrap_variant_newtypes"⟩

def settings : Parser (List Setting) :=
  (gap.andThen ((many directive).map List.flatten)).bind fun requests =>
    (title (requests.contains "explicit_struct_names")).andThen
      ((((mark "(").andThen (parted (setting (allowance requests)))).skip (mark ")")).skip eof)

def only (values : List UInt64) (otherwise : UInt64) : Except SettingsError UInt64 :=
  match values with
  | [] => .ok otherwise
  | [value] => .ok value
  | _ => .error .unreadable

end SettingsText

namespace Settings

def check (c : Settings) : Except SettingsError Settings :=
  if c.IsValid then .ok c else .error .zeroSeed

def ofText (text : String) : Except SettingsError Settings :=
  match SettingsText.settings.parse text with
  | .error _ => .error .unreadable
  | .ok found => do
      let seed ← SettingsText.only (found.filterMap (·.seed?)) standard.seed
      let capacity ← SettingsText.only (found.filterMap (·.capacity?)) standard.capacity
      check ⟨seed, capacity⟩

end Settings

end ParticlePatterns
