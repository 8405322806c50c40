import ParticlePatterns.Field.SettingsText
import ParticlePatterns.Player.Options
import ParticlePatterns.Pattern.Basic

/-!
# Sessions

A session runs one pattern in a field and sums the field up after every tick. It is
over when nothing is alive any more, or after the ticks it was given.
-/

set_option autoImplicit false

namespace ParticlePatterns.Player

structure Failure where
  message : String
  causes : List String
deriving DecidableEq, Repr

namespace Failure

def causeLines : List String → List String
  | [] => []
  | [cause] => ["", "Caused by:", "    " ++ cause]
  | causes =>
      "" :: "Caused by:" :: causes.zipIdx.map fun (cause, i) => s!"    {i}: {cause}"

def text (f : Failure) : String :=
  String.join ((("Error: " ++ f.message) :: causeLines f.causes).map (· ++ "\n"))

def ofPattern {α : Type} [Numeral α] (e : PatternError α) : Failure :=
  ⟨e.message, [e.reason]⟩

def inside (f : Failure) (work : String) : Failure :=
  ⟨work, f.message :: f.causes⟩

end Failure

def standardSource : String :=
  "loop 30 emit 3 1 1 \x7b\n  speed 2; 60 opacity 0\n| rotate 0 [] 0\n\x7d"

structure Session (α : Type) where
  field : Field α
  dt : α
  tick : Nat

namespace Session

variable {α : Type} [Scalar α]

def ofPattern (settings : Settings) (dt : α) (p : Pattern α) :
    Except (Fault α) (Session α) := do
  let field ← p.spawnInto (← Field.ofSettings settings)
  pure ⟨field, dt, 0⟩

def column (width : Nat) (text : List Char) : List Char :=
  List.replicate (width - text.length) ' ' ++ text

def bounds (f : Field α) : Vec3 α × α :=
  let (sum, extent) := f.particles.foldl
    (fun (sum, extent) p =>
      (sum.add p.sprite.position, Scalar.max extent p.sprite.position.length))
    ((Vec3.zero : Vec3 α), (0 : α))
  (if f.size = 0 then Vec3.zero else sum.divide (Scalar.ofNat f.size), extent)

variable [Numeral α]

def fixed (width : Nat) (x : α) : List Char :=
  column width (Numeral.writeFixed 2 x)

def count (width n : Nat) : List Char :=
  column width (Nat.toDigits 10 n)

def summary (s : Session α) : String :=
  let (center, extent) := bounds s.field
  let closed := s.field.particles.toList.countP fun p => p.sprite.closed
  String.ofList ("tick ".toList ++ count 4 s.tick
    ++ "  t=".toList ++ fixed 8 (Scalar.ofNat s.tick * s.dt)
    ++ "  live=".toList ++ count 5 s.field.size
    ++ "  closed=".toList ++ count 4 closed
    ++ "  center=(".toList ++ fixed 7 center.x
    ++ ", ".toList ++ fixed 7 center.y
    ++ ", ".toList ++ fixed 7 center.z
    ++ ")  extent=".toList ++ fixed 7 extent)

def advance (s : Session α) : Except (Fault α) (Session α) := do
  let field ← s.field.update s.dt
  pure { s with field, tick := s.tick + 1 }

def lines : Nat → Session α → List String × Option (Fault α)
  | 0, _ => ([], none)
  | ticks + 1, s => match s.advance with
    | .error fault => ([], some fault)
    | .ok s =>
        if s.field.size = 0 then ([s.summary], none)
        else
          let (rest, fault) := lines ticks s
          (s.summary :: rest, fault)

end Session

inductive Plan (α : Type)
  | announce (text : String)
  | play (text : String) (settings : Settings) (pattern : Pattern α)

section Planning

variable {α : Type} [Scalar α] [Numeral α]

def settingsOf (read : String → Except String String) (o : Options α) :
    Except Failure Settings := do
  let unusable (e : SettingsError) : Failure := ⟨e.message, []⟩
  let settings ← match o.config with
    | none => pure .standard
    | some path => match read path with
      | .error reason => throw ⟨"reading config " ++ path, [reason]⟩
      | .ok text => (Settings.ofText text).mapError unusable
  match o.seed with
  | none => pure settings
  | some seed => ({ settings with seed }.check).mapError unusable

def patternOf (read : String → Except String String) (o : Options α) :
    Except Failure (Pattern α) :=
  match o.pattern with
  | some path =>
      let found : Except (PatternError α) (Pattern α) := match read path with
        | .error reason => .error (.unreadable reason)
        | .ok text => Pattern.ofSource text
      found.mapError fun e => (Failure.ofPattern e).inside ("loading pattern " ++ path)
  | none => (Pattern.ofSource (o.source.getD standardSource)).mapError Failure.ofPattern

/-- Settings are looked at first, then the length of a tick, then the pattern. -/
def Plan.ofOptions (read : String → Except String String) (o : Options α) :
    Except Failure (Plan α) :=
  if o.names then .ok (.announce (" ".intercalate (Builtin.names α) ++ "\n"))
  else do
    let settings ← settingsOf read o
    if 0 < o.dt then
      let pattern ← patternOf read o
      let text := String.ofList (Program.display pattern.program) ++ "\n\n"
      pure (.play (if o.print then text else "") settings pattern)
    else
      throw ⟨"--dt must be positive, got " ++ String.ofList (Numeral.write o.dt), []⟩

end Planning

end ParticlePatterns.Player
