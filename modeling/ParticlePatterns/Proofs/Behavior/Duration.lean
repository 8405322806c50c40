import ParticlePatterns.Proofs.Behavior.Clock

/-!
# Durations

How long a behavior takes is a matter of the behavior alone: a chain takes as long as
all it is made of, branches as long as the longest of them, and nothing takes longer than
its lifespan. A behavior under way is due at a time of its own, and every window either
ends before that time or ends the behavior at it.
-/

set_option autoImplicit false

namespace ParticlePatterns

open Exact (real)

noncomputable def cap : Exact → ℝ → ℝ
  | .real l, d => min l d
  | _, d => d

section Cap

variable {lifespan : Exact} {x d : ℝ}

theorem cap_eq_right (h : real d ≤ lifespan) : cap lifespan d = d := by
  match lifespan, h with
  | .real l, h => exact min_eq_right h
  | .infinite _, _ => rfl

theorem cap_eq_left (h : x ≤ d) : cap (real x) d = x :=
  min_eq_left h

theorem le_cap (h : real x ≤ lifespan) (hd : x ≤ d) : x ≤ cap lifespan d := by
  match lifespan, h with
  | .real l, h => exact le_min h hd
  | .infinite _, _ => exact hd

end Cap

inductive Lasts : Behavior Exact → ℝ → Prop
  | effect {timing : Timing Exact} {effect : Effect Exact} {d : ℝ} : timing.lastStop = none →
      timing.lifespan = real d → 0 ≤ d → Lasts (.leaf timing effect) d
  | emission {timing : Timing Exact} {batch : Batch} {body : Gen Exact (Behavior Exact)} {d : ℝ} :
      timing.lastStop = none → timing.lifespan = real d → 0 ≤ d → body.Total →
      Lasts (.emit timing batch body) d
  | sequence {timing : Timing Exact} {bs : List (Behavior Exact)} {δ : Behavior Exact → ℝ} :
      timing.lastStop = none → 0 < timing.lifespan → bs.length ≤ Chain.stepLimit →
      (∀ b ∈ bs, Lasts b (δ b)) →
      Lasts ((Behavior.sequence bs).withTiming timing) (cap timing.lifespan (bs.map δ).sum)
  | repetition {timing : Timing Exact} {body : Gen Exact (Behavior Exact)} {sibling : Sibling}
      {n : Nat} {d : ℝ} : timing.lastStop = none → 0 < timing.lifespan → n ≤ Chain.stepLimit →
      body.Total → (∀ b, body.Gives b → Lasts b d) →
      Lasts ((Behavior.repetition body sibling n).withTiming timing) (cap timing.lifespan (n * d))
  | together {timing : Timing Exact} {bs : List (Behavior Exact)} {δ : Behavior Exact → ℝ} :
      timing.lastStop = none → 0 < timing.lifespan → (∀ b ∈ bs, Lasts b (δ b)) →
      Lasts ((Behavior.together bs).withTiming timing)
        (cap timing.lifespan ((bs.map δ).foldr max 0))

def Supply.Amounts (δ : Behavior Exact → ℝ) : Supply Exact → Nat → ℝ → Prop
  | .list rest, n, total => n = rest.length ∧ total = (rest.map δ).sum
  | .body _ _ none, _, _ => False
  | .body make sibling (some k), n, total =>
      n = k ∧ ∃ d, (∀ b, (Supply.body make sibling none).Gives b → δ b = d) ∧ total = k * d

/-- Driven until the first time, and complete at the second one. -/
inductive Due : ℝ → Behavior Exact → ℝ → Prop
  | leaf {now d : ℝ} {timing : Timing Exact} {effect : Effect Exact} : timing.Awaits now →
      timing.lifespan = real d → 0 ≤ now → now ≤ d → Due now (.leaf timing effect) d
  | emit {now d : ℝ} {timing : Timing Exact} {batch : Batch} {body : Gen Exact (Behavior Exact)} :
      timing.Awaits now → timing.lifespan = real d → 0 ≤ now → now ≤ d → body.Total →
      Due now (.emit timing batch body) d
  | first {timing : Timing Exact} {supply : Supply Exact} {current : Option (Behavior Exact)}
      {offset : Exact} {fresh : Bool} {δ : Behavior Exact → ℝ} {n : Nat} {total : ℝ} :
      timing.lastStop = none → 0 < timing.lifespan → supply.Total → supply.Amounts δ n total →
      n ≤ Chain.stepLimit → (∀ b, supply.Gives b → Due 0 b (δ b)) →
      Due 0 (.chain timing supply current offset fresh) (cap timing.lifespan total)
  | chain {now offset d : ℝ} {timing : Timing Exact} {supply : Supply Exact}
      {child : Behavior Exact} {fresh : Bool} {δ : Behavior Exact → ℝ} {n : Nat} {total : ℝ} :
      timing.lastStop = some (real now) → 0 ≤ timing.lifespan → real now < timing.lifespan →
      supply.Total → supply.Amounts δ n total → n < Chain.stepLimit →
      (∀ b, supply.Gives b → Due 0 b (δ b)) → (fresh = true → offset = now) →
      Due (childStart now offset fresh) child d →
      Due now (.chain timing supply (some child) (real offset) fresh)
        (cap timing.lifespan (offset + d + total))
  | parallel {now : ℝ} {timing : Timing Exact} {branches : List (Behavior Exact × Option Exact)}
      {ds : List ℝ} : timing.Awaits now → 0 ≤ timing.lifespan → real now < timing.lifespan →
      0 ≤ now → ds.length = branches.length →
      (timing.isRunning = true → ∃ p ∈ branches, p.2 = none) →
      (∀ q ∈ branches.zip ds, q.1.2 = none → Due now q.1.1 q.2) →
      (∀ q ∈ branches.zip ds, ∀ time, q.1.2 = some time → time = real q.2 ∧ q.2 ≤ now) →
      Due now (.parallel timing branches) (cap timing.lifespan (ds.foldr max 0))

namespace Supply.Amounts

variable {δ : Behavior Exact → ℝ} {s after : Supply Exact} {n : Nat} {total : ℝ} {r rng : Rng}

theorem of_next_none (h : s.Amounts δ n total) (hn : s.next r = .ok (none, after, rng)) :
    total = 0 := by
  match s, h with
  | .list [], ⟨_, ht⟩ => simpa using ht
  | .list (b :: rest), _ => cases hn
  | .body make sibling (some 0), ⟨_, d, _, ht⟩ => simpa using ht
  | .body make sibling (some (k + 1)), _ =>
    obtain ⟨made, _, he⟩ := map_eq_ok.1 hn
    cases he

theorem of_next_some {b : Behavior Exact} (h : s.Amounts δ n total)
    (hn : s.next r = .ok (some b, after, rng)) :
    ∃ k, n = k + 1 ∧ after.Amounts δ k (total - δ b) := by
  match s, h with
  | .list [], _ => cases hn
  | .list (c :: rest), ⟨hl, ht⟩ =>
    cases hn
    exact ⟨rest.length, by simpa using hl, rfl, by simp [ht]⟩
  | .body make sibling (some 0), _ => cases hn
  | .body make sibling (some (k + 1)), ⟨hk, d, all, ht⟩ =>
    obtain ⟨⟨made, _⟩, hm, he⟩ := map_eq_ok.1 hn
    cases he
    refine ⟨k, hk, rfl, d, all, ?_⟩
    rw [ht, all b ⟨r, rng, hm⟩]
    push_cast
    ring

theorem nonneg (h : s.Amounts δ n total) (ht : s.Total) (all : ∀ b, s.Gives b → 0 ≤ δ b) :
    0 ≤ total := by
  match s, h with
  | .list rest, ⟨_, hs⟩ =>
    rw [hs]
    refine List.sum_nonneg fun x hx => ?_
    obtain ⟨b, hb, rfl⟩ := List.mem_map.1 hx
    exact all b hb
  | .body make sibling (some k), ⟨_, d, each, hs⟩ =>
    obtain ⟨b, rng, hm⟩ := ht ⟨0⟩
    have hd : 0 ≤ d := each b ⟨_, rng, hm⟩ ▸ all b ⟨_, rng, hm⟩
    rw [hs]
    positivity

end Supply.Amounts

theorem foldr_max_nonneg (ds : List ℝ) : 0 ≤ ds.foldr max 0 := by
  induction ds with
  | nil => exact le_refl 0
  | cons d ds ih => exact le_max_of_le_right ih

theorem le_foldr_max {ds : List ℝ} {d : ℝ} (h : d ∈ ds) : d ≤ ds.foldr max 0 := by
  induction h with
  | head => exact le_max_left _ _
  | tail _ _ ih => exact le_max_of_le_right ih

theorem exists_mem_zip {T U : Type} {xs : List T} {ys : List U} (h : ys.length = xs.length)
    {x : T} (hx : x ∈ xs) : ∃ y, (x, y) ∈ xs.zip ys := by
  obtain ⟨i, hi, rfl⟩ := List.getElem_of_mem hx
  have hi' : i < (xs.zip ys).length := by
    rw [List.length_zip]
    omega
  have e : (xs.zip ys)[i] = (xs[i], ys[i]) := by simp
  exact ⟨ys[i], e ▸ List.getElem_mem hi'⟩

theorem Lasts.due {b : Behavior Exact} {d : ℝ} (h : Lasts b d) : Due 0 b d := by
  induction h with
  | effect hn hl h0 => exact .leaf (.inl ⟨hn, rfl⟩) hl (le_refl 0) h0
  | emission hn hl h0 ht => exact .emit (.inl ⟨hn, rfl⟩) hl (le_refl 0) h0 ht
  | sequence hn hl hs _ ih => exact .first hn hl trivial ⟨rfl, rfl⟩ hs ih
  | @repetition timing body sibling n d hn hl hs ht _ ih =>
    have made : ∀ {b}, (Supply.body body sibling (some n)).Gives b → Due 0 b d :=
      fun hb => ih _ ⟨_, hb⟩
    have amounts : (Supply.body body sibling (some n)).Amounts (fun _ => d) n (n * d) :=
      ⟨rfl, d, fun _ _ => rfl, rfl⟩
    exact .first hn hl (ht sibling) amounts hs fun b hb => made hb
  | @together timing bs δ hn hl _ ih =>
    have alive : real 0 < timing.lifespan := Exact.zero_eq_real ▸ hl
    have each : ∀ q ∈ (bs.map (·, (none : Option Exact))).zip (bs.map δ),
        q.1.2 = none ∧ Due 0 q.1.1 q.2 := by
      intro q hq
      rw [List.zip_map'] at hq
      obtain ⟨b, hb, rfl⟩ := List.mem_map.1 hq
      exact ⟨rfl, ih b hb⟩
    refine .parallel (.inl ⟨hn, rfl⟩) (Exact.nonneg_of_pos hl) alive (le_refl 0) (by simp) ?_
      (fun q hq _ => (each q hq).2) ?_
    · intro hr
      rw [Timing.isRunning, hn] at hr
      cases hr
    · intro q hq time ht
      rw [(each q hq).1] at ht
      cases ht

namespace Due

variable {now d : ℝ} {b : Behavior Exact}

theorem le (h : Due now b d) : now ≤ d := by
  induction h with
  | leaf _ _ _ hd => exact hd
  | emit _ _ _ hd => exact hd
  | first _ hl ht amounts _ _ ih =>
    rw [Exact.zero_eq_real] at hl
    exact le_cap (Exact.real_le_of_lt hl) (amounts.nonneg ht ih)
  | @chain now offset d timing supply child fresh δ n total _ _ hb ht amounts _ _ late _ ih child =>
    have rest := amounts.nonneg ht ih
    rw [childStart_eq late] at child
    exact le_cap (Exact.real_le_of_lt hb) (by linarith)
  | @parallel now timing branches ds awaits _ hb h0 length left _ _ ih =>
    refine le_cap (Exact.real_le_of_lt hb) ?_
    obtain ⟨_, rfl⟩ | hs := awaits
    · exact foldr_max_nonneg ds
    · obtain ⟨p, hp, hn⟩ := left (by simp [Timing.isRunning, hs])
      obtain ⟨d, paired⟩ := exists_mem_zip length hp
      exact le_trans (ih _ paired hn) (le_foldr_max (List.of_mem_zip paired).2)

end Due

end ParticlePatterns
