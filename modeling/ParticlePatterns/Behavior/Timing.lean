import ParticlePatterns.Behavior.Fault
import ParticlePatterns.Behavior.Easing

/-!
# Windows and timing

A behavior is driven by windows of its own local time. The first window starts
at 0 and every later one where the one before it ended. A window is answered by
a negative number while the behavior goes on, and by the time left over in the
window once it is complete.
-/

set_option autoImplicit false

namespace ParticlePatterns

structure Window (α : Type) where
  start : α
  stop : α
deriving DecidableEq, Repr

structure Timing (α : Type) where
  easing : Easing
  lifespan : α
  lastStop : Option α
deriving DecidableEq, Repr

namespace Timing

variable {α : Type} [Scalar α]

def ofLifespan (lifespan : α) : Timing α :=
  ⟨.linear, lifespan, none⟩

def instant : Timing α := ofLifespan 0

def unbounded : Timing α := ofLifespan Scalar.infinity

def isRunning (t : Timing α) : Bool :=
  t.lastStop.isSome

def setEasing (t : Timing α) (easing : Easing) : Except (Fault α) (Timing α) :=
  if t.isRunning then .error .easingAfterStart else .ok { t with easing }

def setLifespan (t : Timing α) (lifespan : α) : Except (Fault α) (Timing α) :=
  if t.isRunning then .error .lifespanAfterStart
  else if 0 ≤ lifespan then .ok { t with lifespan }
  else .error (.negativeLifespan lifespan)

/-- Windows meet if they are no further apart than `10 ^ -9`, relative to large times. -/
def Meets (lastStop start : α) : Prop :=
  Scalar.abs (start - lastStop) ≤ 1 / 1000000000 * Scalar.max (Scalar.abs lastStop) 1

instance (lastStop start : α) : Decidable (Meets lastStop start) :=
  inferInstanceAs (Decidable (_ ≤ _))

def enter (t : Timing α) (w : Window α) : Except (Fault α) (Bool × Timing α) :=
  if w.start ≤ w.stop then
    match t.lastStop with
    | none =>
        if w.start ≤ 0 ∧ 0 ≤ w.start then .ok (true, { t with lastStop := some w.stop })
        else .error (.lateStart w.start)
    | some lastStop =>
        if Meets lastStop w.start then .ok (false, { t with lastStop := some w.stop })
        else .error (.gap w.start lastStop)
  else .error (.backwards w.start w.stop)

theorem enter_eq_ok {t after : Timing α} {w : Window α} {first : Bool}
    (h : t.enter w = .ok (first, after)) :
    first = !t.isRunning ∧ after = { t with lastStop := some w.stop } := by
  unfold enter at h
  split at h
  · split at h
    · split at h <;> cases h
      simp_all [isRunning]
    · split at h <;> cases h
      simp_all [isRunning]
  · cases h

def progress (t : Timing α) (time : α) : α :=
  t.easing.progress time t.lifespan

def delta (t : Timing α) (w : Window α) : α :=
  t.easing.delta w.start w.stop t.lifespan

def verdict (t : Timing α) (w : Window α) : α :=
  if t.lifespan ≤ w.stop then w.stop - Scalar.max t.lifespan w.start else -1

end Timing

/-- Where the window ends that is passed on inside a lifespan. A lifespan that is over
already at the start of the window leaves it whole, so that what takes no time still
sees time pass. -/
def Window.stopWithin {α : Type} [Scalar α] (w : Window α) (lifespan : α) : α :=
  if w.start < lifespan then Scalar.min w.stop lifespan else w.stop

end ParticlePatterns
