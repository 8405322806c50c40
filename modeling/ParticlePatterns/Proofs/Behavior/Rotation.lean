import ParticlePatterns.Proofs.Behavior.Sweeps
import ParticlePatterns.Proofs.Geometry.Orientations

/-!
# Rotation

A rotation turns by the angles of each window about all three axes, one axis after the other. As
long as there is only one axis the turns of all windows add up. With several axes they do not: the
turns about the first axis of one window come behind those about the last axis of the window
before. Then it depends on the windows where the sprite faces in the end.
-/

set_option autoImplicit false

open scoped Quaternion

namespace ParticlePatterns

open Exact (real)

namespace Quaternion

def IsTurn (q : Quaternion Exact) : Prop :=
  q.IsReal ∧ q.normSquared = 1

theorem isTurn_ofHamilton {h : ℍ[ℝ]} (unit : Quaternion.normSq h = 1) : (ofHamilton h).IsTurn :=
  ⟨⟨_, _, _, _, rfl⟩, by rw [normSquared_ofHamilton, unit, Exact.one_eq_real]⟩

theorem isTurn_identity : (identity : Quaternion Exact).IsTurn :=
  identity_eq_ofHamilton ▸ isTurn_ofHamilton (map_one _)

theorem IsTurn.exists_hamilton {q : Quaternion Exact} (h : q.IsTurn) :
    ∃ h : ℍ[ℝ], Quaternion.normSq h = 1 ∧ q = ofHamilton h := by
  obtain ⟨⟨x, y, z, w, rfl⟩, norm⟩ := h
  let h : ℍ[ℝ] := ⟨w, x, y, z⟩
  have same : (⟨real x, real y, real z, real w⟩ : Quaternion Exact) = ofHamilton h := rfl
  rw [same, normSquared_ofHamilton, Exact.one_eq_real] at norm
  exact ⟨h, Exact.real.inj norm, same⟩

def SameTurn (p q : Quaternion Exact) : Prop :=
  p = q ∨ p = ⟨-q.x, -q.y, -q.z, -q.w⟩

theorem sameTurn_ofHamilton {g h : ℍ[ℝ]} :
    (ofHamilton g).SameTurn (ofHamilton h) ↔ g = h ∨ g = -h := by
  simp only [SameTurn, ofHamilton, mk.injEq, Exact.real.injEq, Exact.neg_real, Quaternion.ext_iff,
    Quaternion.re_neg, Quaternion.imI_neg, Quaternion.imJ_neg, Quaternion.imK_neg]
  tauto

end Quaternion

namespace Easing

variable {e : Easing} {n : ℝ}

theorem continuous_realCurve (e : Easing) : Continuous e.realCurve := by
  cases e with
  | linear => exact continuous_id
  | easeIn => exact continuous_id.mul continuous_id
  | easeOut =>
    unfold realCurve
    fun_prop
  | easeInOut =>
    have late : realCurve easeInOut = fun r =>
        if 1 ≤ r + r then 1 - (1 - r + (1 - r)) * (1 - r) else (r + r) * r := by
      funext r
      simp only [realCurve, ← not_lt, ite_not]
    rw [late]
    refine Continuous.if_le (by fun_prop) (by fun_prop) continuous_const (by fun_prop) ?_
    intro r half
    linear_combination (2 * r - 1) * half

/-- Every share comes at some time. -/
theorem exists_realShare_eq (e : Easing) (hn : 0 < n) {k : ℝ} (h0 : 0 ≤ k) (h1 : k ≤ 1) :
    ∃ x, 0 ≤ x ∧ e.realShare n x = k := by
  have ratio : realRatio n = fun x => max 0 (min 1 (x / n)) := by
    funext x
    rw [realRatio, if_neg (not_le_of_gt hn)]
  have continuous : Continuous (e.realShare n) := by
    refine e.continuous_realCurve.comp (?_ : Continuous (realRatio n))
    rw [ratio]
    fun_prop
  have between : k ∈ Set.Icc (e.realShare n 0) (e.realShare n n) := by
    rw [e.realShare_zero, e.realShare_of_le le_rfl hn]
    exact ⟨h0, h1⟩
  obtain ⟨x, inside, same⟩ := intermediate_value_Icc hn.le continuous.continuousOn between
  exact ⟨x, inside.1, same⟩

end Easing

def Stage.facing {α : Type} (stage : Stage α) (rotation : Quaternion α) : Stage α :=
  { stage with sprite := { stage.sprite with rotation } }

theorem Stage.facing_inj {α : Type} {stage : Stage α} {q q' : Quaternion α}
    (h : (.ok (stage.facing q) : Except (Fault α) (Stage α)) = .ok (stage.facing q')) : q = q' :=
  congrArg (fun s : Stage α => s.sprite.rotation) (Except.ok.inj h)

namespace Effect

variable {a b c n stop : ℝ} {h : ℍ[ℝ]} {easing : Easing} {ws : List (Window Exact)}
  {stage : Stage Exact}

theorem memoryless_rotate (degrees : Vec3 Exact) : (rotate degrees).Memoryless :=
  fun _ _ _ _ => rfl

theorem rotate_apply {s : Sprite Exact} (unit : Quaternion.normSq h = 1)
    (faces : s.rotation = .ofHamilton h) (x y : ℝ) :
    let k := easing.realShare n y - easing.realShare n x
    ((rotate ⟨real a, real b, real c⟩).apply ⟨easing, real n, none⟩ false ⟨real x, real y⟩ s).2 =
      { s with rotation := .ofHamilton (h * eulerTurn (a * k) (b * k) (c * k)) } := by
  intro k
  have part : (⟨easing, real n, none⟩ : Timing Exact).delta ⟨real x, real y⟩ = real k :=
    Timing.delta_real rfl x y
  simp only [Effect.apply, part, Vec3.scale, Exact.real_mul_real, Sprite.rotate, faces,
    Quaternion.ofDegrees_real, Quaternion.ofHamilton_mul,
    Quaternion.normalize_ofHamilton (normSq_mul_eulerTurn unit _ _ _)]

theorem sweep_rotate (unit : Quaternion.normSq h = 1)
    (faces : stage.sprite.rotation = .ofHamilton h) (hw : Spans 0 stop ws)
    (kind : AboutOneAxis a b c ∨ ∀ w ∈ ws, ¬easing.Fractional (real n) w) :
    let k := easing.realShare n stop
    (Behavior.leaf ⟨easing, real n, none⟩ (rotate ⟨real a, real b, real c⟩)).sweep ws stage =
      .ok (stage.facing (.ofHamilton (h * eulerTurn (a * k) (b * k) (c * k)))) := by
  refine (memoryless_rotate _).sweep_eq (fun k => { stage.sprite with
    rotation := .ofHamilton (h * eulerTurn (a * k) (b * k) (c * k)) }) ?_ hw kind ?_
  · intro x y later kind
    rw [rotate_apply (normSq_mul_eulerTurn unit _ _ _) rfl, mul_assoc,
      eulerTurn_mul_sub (easing.realShare_mono n later) kind]
  · simp only [mul_zero, eulerTurn_zero, mul_one, ← faces]

/-- Whatever the windows, nothing but the rotation changes. -/
theorem exists_sweep_rotate (unit : Quaternion.normSq h = 1)
    (faces : stage.sprite.rotation = .ofHamilton h) (hw : Spans 0 stop ws) :
    ∃ g : ℍ[ℝ], Quaternion.normSq g = 1 ∧
      (Behavior.leaf ⟨easing, real n, none⟩ (rotate ⟨real a, real b, real c⟩)).sweep ws stage =
        .ok (stage.facing (.ofHamilton g)) := by
  let good (_ : ℝ) (_ : List (Window Exact)) (s : Sprite Exact) : Prop :=
    ∃ g : ℍ[ℝ], Quaternion.normSq g = 1 ∧ s = { stage.sprite with rotation := .ofHamilton g }
  have start : good 0 ws stage.sprite := ⟨h, unit, by rw [← faces]⟩
  have step : (rotate ⟨real a, real b, real c⟩).Preserves easing n stop good := by
    rintro now mid rest s - - ⟨g, hg, rfl⟩
    rw [rotate_apply hg rfl]
    exact ⟨_, normSq_mul_eulerTurn hg _ _ _, rfl⟩
  obtain ⟨_, run, g, hg, rfl⟩ := (memoryless_rotate _).exists_sweep step (.inl ⟨rfl, rfl⟩) hw start
  exact ⟨g, hg, run⟩

/-- The sprite ends as a turn of itself, by the share of the angles if the turns add up. -/
theorem exists_turn (turned : stage.sprite.rotation.IsTurn) (hw : Spans 0 stop ws) :
    ∃ q : Quaternion Exact, q.IsTurn ∧
      (Behavior.leaf ⟨easing, real n, none⟩ (rotate ⟨real a, real b, real c⟩)).sweep ws stage =
        .ok (stage.facing q) ∧
      ((AboutOneAxis a b c ∨ ∀ w ∈ ws, ¬easing.Fractional (real n) w) →
        q = stage.sprite.rotation.mul (.ofDegrees ((⟨real a, real b, real c⟩ : Vec3 Exact).scale
          (easing.progress (real stop) (real n))))) := by
  obtain ⟨h, unit, faces⟩ := turned.exists_hamilton
  obtain ⟨g, hg, run⟩ := exists_sweep_rotate unit faces hw
  refine ⟨.ofHamilton g, Quaternion.isTurn_ofHamilton hg, run, fun kind => ?_⟩
  have share : easing.progress (real stop) (real n) = real (easing.realShare n stop) :=
    Timing.progress_real (t := ⟨easing, real n, none⟩) rfl stop
  rw [Stage.facing_inj (run.symm.trans (sweep_rotate unit faces hw kind)), faces, share]
  simp only [Vec3.scale, Exact.real_mul_real, Quaternion.ofDegrees_real,
    Quaternion.ofHamilton_mul]

theorem sweep_rotate_cons (unit : Quaternion.normSq h = 1)
    (faces : stage.sprite.rotation = .ofHamilton h) {last : Option Exact} {now mid : ℝ}
    (awaits : (⟨easing, real n, last⟩ : Timing Exact).Awaits now) (later : now ≤ mid) :
    let k := easing.realShare n mid - easing.realShare n now
    (Behavior.leaf ⟨easing, real n, last⟩ (rotate ⟨real a, real b, real c⟩)).sweep
        (⟨real now, real mid⟩ :: ws) stage =
      (Behavior.leaf ⟨easing, real n, some (real mid)⟩ (rotate ⟨real a, real b, real c⟩)).sweep ws
        (stage.facing (.ofHamilton (h * eulerTurn (a * k) (b * k) (c * k)))) := by
  intro k
  rw [(memoryless_rotate _).sweep_cons awaits later, rotate_apply unit faces]
  rfl

theorem sweep_rotate_whole (unit : Quaternion.normSq h = 1)
    (faces : stage.sprite.rotation = .ofHamilton h) {y : ℝ} (hy : 0 ≤ y) :
    let k := easing.realShare n y
    (Behavior.leaf ⟨easing, real n, none⟩ (rotate ⟨real a, real b, real c⟩)).sweep
        [⟨real 0, real y⟩] stage =
      .ok (stage.facing (.ofHamilton (h * eulerTurn (a * k) (b * k) (c * k)))) := by
  intro k
  rw [sweep_rotate_cons unit faces (.inl ⟨rfl, rfl⟩) hy, easing.realShare_zero, sub_zero]
  rfl

theorem sweep_rotate_cut (unit : Quaternion.normSq h = 1)
    (faces : stage.sprite.rotation = .ofHamilton h) {x y : ℝ} (hx : 0 ≤ x) (hxy : x ≤ y) :
    let k := easing.realShare n x
    let l := easing.realShare n y - k
    (Behavior.leaf ⟨easing, real n, none⟩ (rotate ⟨real a, real b, real c⟩)).sweep
        [⟨real 0, real x⟩, ⟨real x, real y⟩] stage =
      .ok (stage.facing (.ofHamilton
        (h * eulerTurn (a * k) (b * k) (c * k) * eulerTurn (a * l) (b * l) (c * l)))) := by
  intro k l
  rw [sweep_rotate_cons unit faces (.inl ⟨rfl, rfl⟩) hx, easing.realShare_zero, sub_zero,
    sweep_rotate_cons (normSq_mul_eulerTurn unit _ _ _) rfl (.inr rfl) hxy]
  rfl

end Effect

def SliceIndependent (r : Behavior Exact) : Prop :=
  ∀ {now : ℝ} {ws ws' : List (Window Exact)} {stage : Stage Exact} {q q' : Quaternion Exact},
    stage.sprite.rotation.IsTurn → Spans 0 now ws → Spans 0 now ws' →
    r.sweep ws stage = .ok (stage.facing q) → r.sweep ws' stage = .ok (stage.facing q') →
    q.SameTurn q'

theorem aboutOneAxis_of_sliceIndependent {a b c n : ℝ} {easing : Easing} (hn : 0 < n)
    (h : SliceIndependent (.leaf ⟨easing, real n, none⟩ (.rotate ⟨real a, real b, real c⟩))) :
    AboutOneAxis a b c := by
  refine aboutOneAxis_of_halves fun s positive within => ?_
  obtain ⟨x, hx, shareX⟩ := easing.exists_realShare_eq hn positive.le (by linarith)
  obtain ⟨y, hy, shareY⟩ := easing.exists_realShare_eq hn (k := s + s) (by linarith) within
  have later : x ≤ y := by
    by_contra early
    have less := easing.realShare_mono n (le_of_not_ge early)
    linarith
  let stage : Stage Exact := ⟨.initial, .ofSeed 1, #[]⟩
  have unit : Quaternion.normSq (1 : ℍ[ℝ]) = 1 := map_one _
  have faces : stage.sprite.rotation = .ofHamilton 1 := Quaternion.identity_eq_ofHamilton
  have whole : Spans 0 y [⟨real 0, real y⟩] := ⟨y, hy, rfl, rfl⟩
  have cut : Spans 0 y [⟨real 0, real x⟩, ⟨real x, real y⟩] := ⟨x, hx, rfl, y, later, rfl, rfl⟩
  have same := h Quaternion.isTurn_identity cut whole (Effect.sweep_rotate_cut unit faces hx later)
    (Effect.sweep_rotate_whole unit faces hy)
  rw [Quaternion.sameTurn_ofHamilton] at same
  simpa only [shareX, shareY, add_sub_cancel_right, one_mul] using same

theorem sliceIndependent_rotate {a b c n : ℝ} {easing : Easing}
    (kind : AboutOneAxis a b c ∨ n ≤ 0) :
    SliceIndependent (.leaf ⟨easing, real n, none⟩ (.rotate ⟨real a, real b, real c⟩)) := by
  intro now ws ws' stage q q' turned hw hw' run run'
  have adds {ws : List (Window Exact)} (hw : Spans 0 now ws) :
      AboutOneAxis a b c ∨ ∀ w ∈ ws, ¬easing.Fractional (real n) w :=
    kind.imp_right fun nothing w hmem => by
      obtain ⟨x, y, -, -, rfl⟩ := hw.exists_of_mem hmem
      exact Easing.not_fractional_of_nonpos nothing
  obtain ⟨_, -, first, same⟩ := Effect.exists_turn turned hw
  obtain ⟨_, -, second, same'⟩ := Effect.exists_turn turned hw'
  rw [Stage.facing_inj (run.symm.trans first), Stage.facing_inj (run'.symm.trans second),
    same (adds hw), same' (adds hw')]
  exact .inl rfl

/-- In all windows a rotation changes nothing but where the sprite faces, which stays a turn. If
there is only one axis, or no window ends while the share is in between, it turns by the share of
the angles that has come. So it does not depend on the windows if there is one axis or no lifespan;
in every other case it does, not only by the sign of the quaternion. -/
theorem rotation_slices (a b c n : ℝ) (easing : Easing) :
    let degrees : Vec3 Exact := ⟨real a, real b, real c⟩
    let r := (Behavior.rotate degrees).withTiming ⟨easing, real n, none⟩
    (∀ {now : ℝ} {ws : List (Window Exact)} {stage : Stage Exact},
      stage.sprite.rotation.IsTurn → Spans 0 now ws →
      ∃ q : Quaternion Exact, q.IsTurn ∧ r.sweep ws stage = .ok (stage.facing q) ∧
        ((AboutOneAxis a b c ∨ ∀ w ∈ ws, ¬easing.Fractional (real n) w) →
          q = stage.sprite.rotation.mul
            (.ofDegrees (degrees.scale (easing.progress (real now) (real n)))))) ∧
      (SliceIndependent r ↔ AboutOneAxis a b c ∨ n ≤ 0) := by
  intro degrees r
  refine ⟨fun turned hw => Effect.exists_turn turned hw, fun independent => ?_,
    sliceIndependent_rotate⟩
  obtain nothing | some := le_or_gt n 0
  · exact .inr nothing
  · exact .inl (aboutOneAxis_of_sliceIndependent some independent)

/-- A quarter of a turn about one axis, in two windows and in one. -/
theorem rotation_slices_quarter :
    let r := (Behavior.rotate ⟨real 0, real 0, real 90⟩).withTiming ⟨.easeIn, real 2, none⟩
    let ws : List (Window Exact) := [⟨real 0, real 1⟩, ⟨real 1, real 3⟩]
    let ws' : List (Window Exact) := [⟨real 0, real 3⟩]
    let stage : Stage Exact := ⟨.initial, .ofSeed 1, #[]⟩
    stage.sprite.rotation.IsTurn ∧ Spans 0 3 ws ∧ Spans 0 3 ws' ∧ ∃ q : Quaternion Exact,
      q.IsTurn ∧ r.sweep ws stage = .ok (stage.facing q) ∧
        r.sweep ws' stage = .ok (stage.facing q) := by
  intro r ws ws' stage
  have turned : stage.sprite.rotation.IsTurn := Quaternion.isTurn_identity
  have cut : Spans 0 3 ws := ⟨1, by norm_num, rfl, 3, by norm_num, rfl, rfl⟩
  have whole : Spans 0 3 ws' := ⟨3, by norm_num, rfl, rfl⟩
  have axis : AboutOneAxis 0 0 90 := .inr (.inr ⟨rfl, rfl⟩)
  obtain ⟨runs, -⟩ := rotation_slices 0 0 90 2 .easeIn
  obtain ⟨q, unit, run, same⟩ := runs turned cut
  obtain ⟨q', -, run', same'⟩ := runs turned whole
  refine ⟨turned, cut, whole, q, unit, run, ?_⟩
  rw [run', same (.inl axis), same' (.inl axis)]

/-- Half a turn about x and half a turn about y, in one window and in two that are cut halfway. -/
theorem rotation_cut_halfway :
    let r := (Behavior.rotate ⟨real 180, real 180, real 0⟩).withTiming ⟨.linear, real 2, none⟩
    let ws : List (Window Exact) := [⟨real 0, real 2⟩]
    let ws' : List (Window Exact) := [⟨real 0, real 1⟩, ⟨real 1, real 2⟩]
    let stage : Stage Exact := ⟨.initial, .ofSeed 1, #[]⟩
    stage.sprite.rotation.IsTurn ∧ Spans 0 2 ws ∧ Spans 0 2 ws' ∧ ∃ q q' : Quaternion Exact,
      r.sweep ws stage = .ok (stage.facing q) ∧ r.sweep ws' stage = .ok (stage.facing q') ∧
        q = ⟨real 0, real 0, real 1, real 0⟩ ∧
        q' = ⟨real (1 / 2), real (1 / 2), real (1 / 2), real (-1 / 2)⟩ ∧ ¬q.SameTurn q' := by
  intro r ws ws' stage
  have whole : Spans 0 2 ws := ⟨2, by norm_num, rfl, rfl⟩
  have cut : Spans 0 2 ws' := ⟨1, by norm_num, rfl, 2, by norm_num, rfl, rfl⟩
  have half : Easing.linear.realShare 2 1 = 1 / 2 :=
    Easing.realShare_linear two_pos zero_le_one one_le_two
  have all : Easing.linear.realShare 2 2 = 1 := Easing.linear.realShare_of_le le_rfl two_pos
  have unit : Quaternion.normSq (1 : ℍ[ℝ]) = 1 := map_one _
  have faces : stage.sprite.rotation = .ofHamilton 1 := Quaternion.identity_eq_ofHamilton
  have run : r.sweep ws stage = _ := Effect.sweep_rotate_whole unit faces zero_le_two
  have run' : r.sweep ws' stage = _ := Effect.sweep_rotate_cut unit faces zero_le_one one_le_two
  rw [all] at run
  rw [half, all, sub_half] at run'
  have angle : halfAngle 180 = Real.pi / 2 := by
    unfold halfAngle
    ring
  have angle' : halfAngle (180 * (1 / 2)) = Real.pi / 4 := by
    unfold halfAngle
    ring
  have root : √2 / 2 * (√2 / 2) = (1 / 2 : ℝ) := by
    rw [div_mul_div_comm, Real.mul_self_sqrt zero_le_two]
    norm_num
  have value : Quaternion.ofHamilton (1 * eulerTurn (180 * 1) (180 * 1) (0 * 1)) =
      ⟨real 0, real 0, real 1, real 0⟩ := by
    simp [Quaternion.ofHamilton, eulerTurn, angle]
  have value' : Quaternion.ofHamilton (1 * eulerTurn (180 * (1 / 2)) (180 * (1 / 2)) (0 * (1 / 2)) *
      eulerTurn (180 * (1 / 2)) (180 * (1 / 2)) (0 * (1 / 2))) =
      ⟨real (1 / 2), real (1 / 2), real (1 / 2), real (-1 / 2)⟩ := by
    simp only [Quaternion.ofHamilton, eulerTurn, angle']
    simp [root]
    norm_num
  refine ⟨Quaternion.isTurn_identity, whole, cut, _, _, run, run', value, value', ?_⟩
  rw [value, value']
  norm_num [Quaternion.SameTurn]

end ParticlePatterns
