import ParticlePatterns.Data.Basic
import ParticlePatterns.Field.Settings
import ParticlePatterns.Behavior.Easing
import ParticlePatterns.Sprite
import ParticlePatterns.Random
import ParticlePatterns.Term.Printer

/-!
# Stored forms

Names are stored as texts, and read also as the single key of a record that holds
nothing. Settings are stored as records; what is read may have more fields, and may
be an array of the fields in order.
-/

set_option autoImplicit false

namespace ParticlePatterns

namespace Data

variable {ν : Type}

def boolean? : Data ν → Option Bool
  | boolean b => some b
  | _ => none

def word? : Data ν → Option UInt64
  | integer n => if 0 ≤ n ∧ n.toNat < UInt64.size then some n.toNat.toUInt64 else none
  | _ => none

def ofWord (n : UInt64) : Data ν :=
  integer n.toNat

def variant? : Data ν → Option String
  | text name => some name
  | record [(name, null)] => some name
  | _ => none

def named? {T : Type} (all : List T) (name : T → String) (d : Data ν) : Option T :=
  d.variant?.bind fun found => all.find? fun value => name value == found

def fields? (names : List String) : Data ν → Option (List (Option (Data ν)))
  | record fields => some (names.map fun name => (fields.find? fun f => f.1 == name).map (·.2))
  | array items =>
      if items.length ≤ names.length then
        some (items.map some ++ List.replicate (names.length - items.length) none)
      else none
  | _ => none

end Data

section Names

variable {ν : Type}

def Easing.ofData? (d : Data ν) : Option Easing :=
  d.named? Easing.all Easing.name

def Easing.toData (e : Easing) : Data ν :=
  .text e.name

def Model.ofData? (d : Data ν) : Option Model :=
  d.named? Model.all Model.name

def Model.toData (m : Model) : Data ν :=
  .text m.name

def Property.key : Property → String
  | .speed => "Speed"
  | .opacity => "Opacity"
  | .hue => "Hue"

def Property.ofData? (d : Data ν) : Option Property :=
  d.named? Property.all Property.key

def Property.toData (p : Property) : Data ν :=
  .text p.key

def Modification.all : List Modification := [.set, .add, .multiply]

def Modification.key : Modification → String
  | .set => "Set"
  | .add => "Add"
  | .multiply => "Mul"

def Modification.ofData? (d : Data ν) : Option Modification :=
  d.named? Modification.all Modification.key

def Modification.toData (m : Modification) : Data ν :=
  .text m.key

@[simp] theorem Easing.ofData?_toData (e : Easing) : ofData? (e.toData : Data ν) = some e := by
  cases e <;> rfl

@[simp] theorem Model.ofData?_toData (m : Model) : ofData? (m.toData : Data ν) = some m := by
  cases m <;> rfl

@[simp] theorem Property.ofData?_toData (p : Property) :
    ofData? (p.toData : Data ν) = some p := by
  cases p <;> rfl

@[simp] theorem Modification.ofData?_toData (m : Modification) :
    ofData? (m.toData : Data ν) = some m := by
  cases m <;> rfl

end Names

section Settings

variable {ν : Type}

def PrintStyle.ofData? (d : Data ν) : Option PrintStyle :=
  match d.fields? ["indent", "sugar"] with
  | some [some indent, some sugar] => do
      pure ⟨← indent.boolean?, ← sugar.boolean?⟩
  | _ => none

def PrintStyle.toData (o : PrintStyle) : Data ν :=
  .record [("indent", .boolean o.indent), ("sugar", .boolean o.sugar)]

def Data.wordOr (otherwise : UInt64) : Option (Data ν) → Option UInt64
  | none => some otherwise
  | some d => d.word?

def Settings.ofData? (d : Data ν) : Option Settings :=
  match d.fields? ["seed", "capacity"] with
  | some [seed, capacity] => do
      pure ⟨← Data.wordOr standard.seed seed, ← Data.wordOr standard.capacity capacity⟩
  | _ => none

def Settings.toData (c : Settings) : Data ν :=
  .record [("seed", .ofWord c.seed), ("capacity", .ofWord c.capacity)]

def Rng.ofData? (d : Data ν) : Option Rng :=
  match d.fields? ["state"] with
  | some [some state] => state.word?.map Rng.mk
  | _ => none

def Rng.toData (r : Rng) : Data ν :=
  .record [("state", .ofWord r.state)]

@[simp] theorem Data.word?_ofWord (n : UInt64) : (Data.ofWord n : Data ν).word? = some n := by
  have bound := n.toNat_lt
  simp [Data.ofWord, Data.word?, UInt64.size, bound]

@[simp] theorem PrintStyle.ofData?_toData (o : PrintStyle) :
    ofData? (o.toData : Data ν) = some o := by
  rfl

@[simp] theorem Settings.ofData?_toData (c : Settings) :
    ofData? (c.toData : Data ν) = some c := by
  simp [ofData?, toData, Data.fields?, Data.wordOr]

@[simp] theorem Rng.ofData?_toData (r : Rng) : ofData? (r.toData : Data ν) = some r := by
  simp [ofData?, toData, Data.fields?]

end Settings

end ParticlePatterns
