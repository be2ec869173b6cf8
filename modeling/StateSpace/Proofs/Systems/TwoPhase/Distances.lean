import Mathlib.Algebra.Order.BigOperators.Group.List
import StateSpace.Proofs.Search.Depths
import StateSpace.Proofs.Systems.TwoPhase.Census

/-!
# How far the states of two-phase commit are

Whatever a state shows to have happened took a step: an announcement, its being heard, the decision, and the end of a
resource manager.

* `happened s` : how much that is; `happened_assemble` : what the stances have of it, and the decision;
* `Turn.happened_le` : a turn adds at most one, so no run to `s` is shorter (`happened_le_of_isRun`);
* `exists_before` : something that happened last can be taken back, so some run is as short (`exists_run`);
* `distances_exact` : so that is the distance, and a breadth-first search gets as deep as the farthest state.
-/

namespace StateSpace.TwoPhase

instance : DecidablePred RmState.Decided := fun r => inferInstanceAs (Decidable (r = .committed ∨ r = .aborted))

/-- What has happened: the announcements of resource managers, how many of them the transaction manager has heard, whether
it has decided, and how many resource managers have committed or aborted. -/
def happened (s : State) : Nat :=
  s.msgs.countP (·.kind = .prepared) + s.tmPrepared.count true + (if s.tm = .init then 0 else 1) +
    s.rms.countP (·.Decided)

/-! ## One resource manager at a time -/

def Stance.happened (x : Stance) : Nat := x.sent.toNat + x.heard.toNat + if x.rm.Decided then 1 else 0

def happenedTo (tm : TmState) (xs : List Stance) : Nat :=
  (xs.map Stance.happened).sum + if tm = .init then 0 else 1

theorem happened_assemble (tm : TmState) (xs : List Stance) : happened (assemble tm xs) = happenedTo tm xs := by
  have hdecision : (decision tm).countP (·.kind = .prepared) = 0 := by
    cases tm <;> rfl
  have hstances (first : Nat) : (notices first xs).countP (·.kind = .prepared) + (xs.map Stance.heard).count true +
      (xs.map Stance.rm).countP (·.Decided) = (xs.map Stance.happened).sum := by
    induction xs generalizing first with
    | nil => rfl
    | cons x xs ih =>
      have hrest := ih (first + 1)
      have hsent : (notices first (x :: xs)).countP (·.kind = .prepared) =
          x.sent.toNat + (notices (first + 1) xs).countP (·.kind = .prepared) := by
        rw [notices]
        cases x.sent <;> simp [Message.prepared, Nat.add_comm]
      have hheard : ((x :: xs).map Stance.heard).count true = x.heard.toNat + (xs.map Stance.heard).count true := by
        rw [List.map_cons, List.count_cons]
        cases x.heard <;> simp [Nat.add_comm]
      have hdecided : ((x :: xs).map Stance.rm).countP (·.Decided) =
          (if x.rm.Decided then 1 else 0) + (xs.map Stance.rm).countP (·.Decided) := by
        rw [List.map_cons, List.countP_cons]
        simp [Nat.add_comm]
      rw [hsent, hheard, hdecided, List.map_cons, List.sum_cons, Stance.happened]
      omega
  have hmsgs : (assemble tm xs).msgs.countP (·.kind = .prepared) = (notices 0 xs).countP (·.kind = .prepared) := by
    rw [assemble, List.countP_append, hdecision, Nat.add_zero]
  calc happened (assemble tm xs)
      = (notices 0 xs).countP (·.kind = .prepared) + (xs.map Stance.heard).count true + (if tm = .init then 0 else 1) +
          (xs.map Stance.rm).countP (·.Decided) := by
        rw [happened, hmsgs]
        rfl
    _ = happenedTo tm xs := by
        rw [happenedTo, ← hstances 0]
        omega

/-! ## No run is shorter -/

theorem Shift.happened_le {tm : TmState} {k : ActionKind} {x y : Stance} (h : Shift tm k x y) :
    y.happened ≤ x.happened + 1 := by
  have hsent := x.sent.toNat_le
  have hheard := x.heard.toNat_le
  unfold Stance.happened
  cases h with
  | hear =>
    simp only [Bool.toNat_true]
    omega
  | prepare hw =>
    simp [hw, RmState.Decided]
    omega
  | quit hw => simp [hw, RmState.Decided]
  | commit | abort =>
    dsimp only
    split <;> split <;> omega

/-- A turn adds at most one to what has happened. -/
theorem Turn.happened_le {a : Action} {c c' : TmState × List Stance} (h : Turn a c c') :
    happenedTo c'.1 c'.2 ≤ happenedTo c.1 c.2 + 1 := by
  cases h with
  | commit | abort => exact Nat.le_refl _
  | @shift tm xs k i x y hx hy =>
    have hsum := sum_map_set Stance.happened hx y
    have hone := hy.happened_le
    unfold happenedTo
    dsimp only
    omega

theorem happenedTo_start (n : Nat) : happenedTo .init (List.replicate n ⟨.working, false, false⟩) = 0 := by
  simp [happenedTo, Stance.happened, RmState.Decided]

/-- **No run to a state is shorter than what has happened in it.** -/
theorem happened_le_of_isRun {n : Nat} {p : Path State Action} (hp : p.IsRun (model n)) :
    happened p.last ≤ p.steps.length := by
  have hlead := hp.lead (P := fun t k => ∃ tm xs, xs.length = n ∧ t = assemble tm xs ∧ happenedTo tm xs ≤ k) ?_ ?_
  · obtain ⟨tm, xs, -, hlast, hle⟩ := hlead
    rwa [hlast, happened_assemble]
  · intro t ht
    rw [List.mem_singleton.1 ht]
    exact ⟨.init, _, List.length_replicate, initial_eq_assemble n, Nat.le_of_eq (happenedTo_start n)⟩
  · rintro s a t k - hstep ⟨tm, xs, rfl, rfl, hle⟩
    obtain ⟨c, hturn, rfl⟩ := step_assemble.1 hstep
    have hone : happenedTo c.1 c.2 ≤ happenedTo tm xs + 1 := hturn.happened_le
    refine ⟨c.1, c.2, ?_, rfl, by omega⟩
    cases hturn with
    | commit | abort => rfl
    | shift => exact List.length_set

/-! ## Some run is as short -/

/-- The stances of a resource manager to which nothing has happened since the decision, or since the start. -/
def unmoved : TmState → List Stance
  | .init => [⟨.working, false, false⟩]
  | .committed => [⟨.prepared, true, true⟩]
  | .aborted => stances .init

/-- What happened to a resource manager last can be taken back. -/
theorem exists_shift {tm : TmState} {x : Stance} (hx : x ∈ stances tm) (hmoved : x ∉ unmoved tm) :
    ∃ k y, y ∈ stances tm ∧ Shift tm k y x ∧ x.happened = y.happened + 1 := by
  cases tm with
  | init =>
    simp only [stances, List.mem_cons, List.not_mem_nil, or_false] at hx
    rcases hx with rfl | rfl | rfl | rfl
    · exact absurd (by decide) hmoved
    · exact ⟨_, ⟨.working, false, false⟩, by decide, .quit rfl, rfl⟩
    · exact ⟨_, ⟨.working, false, false⟩, by decide, .prepare rfl, rfl⟩
    · exact ⟨_, ⟨.prepared, true, false⟩, by decide, .hear rfl rfl, rfl⟩
  | committed =>
    simp only [stances, List.mem_cons, List.not_mem_nil, or_false] at hx
    rcases hx with rfl | rfl
    · exact absurd (by decide) hmoved
    · exact ⟨_, ⟨.prepared, true, true⟩, by decide, .commit rfl, rfl⟩
  | aborted =>
    simp only [stances, List.mem_cons, List.not_mem_nil, or_false] at hx
    rcases hx with rfl | rfl | rfl | rfl | rfl | rfl
    · exact absurd (by decide) hmoved
    · exact absurd (by decide) hmoved
    · exact absurd (by decide) hmoved
    · exact absurd (by decide) hmoved
    · exact ⟨_, ⟨.prepared, true, false⟩, by decide, .abort rfl, rfl⟩
    · exact ⟨_, ⟨.prepared, true, true⟩, by decide, .abort rfl, rfl⟩

/-- **Something that happened last can be taken back**, in all forms but the initial one. -/
theorem exists_before {tm : TmState} {xs : List Stance} (hxs : ∀ x ∈ xs, x ∈ stances tm) :
    (tm = .init ∧ xs = List.replicate xs.length ⟨.working, false, false⟩) ∨
    ∃ a c, (∀ x ∈ c.2, x ∈ stances c.1) ∧ c.2.length = xs.length ∧ Turn a c (tm, xs) ∧
      happenedTo tm xs = happenedTo c.1 c.2 + 1 := by
  by_cases hall : ∀ x ∈ xs, x ∈ unmoved tm
  · -- nobody has moved, so the decision came last, if it was taken
    cases tm with
    | init => exact Or.inl ⟨rfl, List.eq_replicate_iff.2 ⟨rfl, fun x hx => List.mem_singleton.1 (hall x hx)⟩⟩
    | committed =>
      refine Or.inr ⟨_, (.init, xs), fun x hx => ?_, rfl, .commit fun x hx => ?_, rfl⟩
      · have hprepared : (⟨.prepared, true, true⟩ : Stance) ∈ stances .init := by decide
        rwa [← List.mem_singleton.1 (hall x hx)] at hprepared
      · rw [List.mem_singleton.1 (hall x hx)]
    | aborted => exact Or.inr ⟨_, (.init, xs), hall, rfl, .abort, rfl⟩
  · right
    simp only [not_forall] at hall
    obtain ⟨x, hmem, hmoved⟩ := hall
    obtain ⟨i, hi⟩ := List.mem_iff_getElem?.1 hmem
    obtain ⟨k, y, hy, hshift, hone⟩ := exists_shift (hxs x hmem) hmoved
    have hlt : i < xs.length := (List.getElem?_eq_some_iff.1 hi).1
    have hback : (xs.set i y).set i x = xs := by
      obtain ⟨-, rfl⟩ := List.getElem?_eq_some_iff.1 hi
      rw [List.set_set, List.set_getElem_self]
    have hturn : Turn ⟨k, i⟩ (tm, xs.set i y) (tm, (xs.set i y).set i x) :=
      .shift (List.getElem?_set_self hlt) hshift
    rw [hback] at hturn
    refine ⟨_, (tm, xs.set i y), fun z hz => ?_, List.length_set, hturn, ?_⟩
    · rcases List.mem_or_eq_of_mem_set hz with hz | rfl
      · exact hxs z hz
      · exact hy
    · have hsum := sum_map_set Stance.happened hi y
      unfold happenedTo
      dsimp only
      omega

/-- **Some run to a form has as many steps as have happened.** -/
theorem exists_run {n : Nat} {tm : TmState} {xs : List Stance} (hn : xs.length = n) (hxs : ∀ x ∈ xs, x ∈ stances tm) :
    ∃ p : Path State Action, p.IsRun (model n) ∧ p.last = assemble tm xs ∧ p.steps.length = happenedTo tm xs := by
  subst hn
  -- by induction on what has happened, of which the last is taken back
  generalize hk : happenedTo tm xs = k
  induction k generalizing tm xs with
  | zero =>
    rcases exists_before hxs with ⟨rfl, heq⟩ | ⟨a, c, -, -, -, hone⟩
    · refine ⟨.single (initial xs.length), Path.isRun_single List.mem_cons_self, ?_, rfl⟩
      exact (initial_eq_assemble _).trans (congrArg _ heq.symm)
    · omega
  | succ k ih =>
    rcases exists_before hxs with ⟨rfl, heq⟩ | ⟨a, c, hc, hlen, hturn, hone⟩
    · rw [heq, happenedTo_start] at hk
      cases hk
    · obtain ⟨p, hrun, hlast, hsteps⟩ := ih hc (by omega)
      rw [hlen] at hrun
      have hstep : (model xs.length).Step p.last a (assemble tm xs) := by
        rw [hlast, ← hlen]
        exact step_assemble.2 ⟨_, hturn, rfl⟩
      refine ⟨p.push a (assemble tm xs), hrun.push rfl hstep, Path.last_push _ _ _, ?_⟩
      simp [Path.push, hsteps]

/-! ## Distances -/

/-- **The distance of a state** is what has happened in it. -/
theorem atDistance_happened {n : Nat} {s : State} (h : (model n).Reachable s) : (model n).AtDistance s (happened s) := by
  obtain ⟨tm, xs, hn, hxs, rfl⟩ := isForm_of_reachable h
  obtain ⟨p, hrun, hlast, hsteps⟩ := exists_run hn hxs
  refine ⟨⟨p, hrun, hlast, by rw [hsteps, happened_assemble]⟩, ?_⟩
  rintro k ⟨q, hq, hqlast, rfl⟩
  rw [← hqlast]
  exact happened_le_of_isRun hq

theorem happened_stance_le (x : Stance) : x.happened ≤ 3 := by
  have hsent := x.sent.toNat_le
  have hheard := x.heard.toNat_le
  unfold Stance.happened
  split <;> omega

theorem happenedTo_le (tm : TmState) (xs : List Stance) : happenedTo tm xs ≤ 3 * xs.length + 1 := by
  have hsum : (xs.map Stance.happened).sum ≤ (xs.map Stance.happened).length • 3 := by
    refine List.sum_le_card_nsmul _ _ fun k hk => ?_
    obtain ⟨x, -, rfl⟩ := List.mem_map.1 hk
    exact happened_stance_le x
  rw [List.length_map, nsmul_eq_mul, Nat.cast_id] at hsum
  unfold happenedTo
  split <;> omega

theorem happenedTo_committed (n : Nat) :
    happenedTo .committed (List.replicate n ⟨.committed, true, true⟩) = 3 * n + 1 := by
  simp [happenedTo, Stance.happened, RmState.Decided, Nat.mul_comm]

/-- **The farthest states.** -/
theorem isGreatest_distance (n : Nat) :
    IsGreatest {d | ∃ s, (model n).Reachable s ∧ (model n).AtDistance s d} (3 * n + 1) := by
  constructor
  · have hx : (⟨.committed, true, true⟩ : Stance) ∈ stances .committed := by decide
    have hfar := reachable_replicate n hx
    refine ⟨_, hfar, ?_⟩
    have hd := atDistance_happened hfar
    rwa [happened_assemble, happenedTo_committed] at hd
  · rintro d ⟨s, hs, hd⟩
    rw [hd.unique (atDistance_happened hs)]
    obtain ⟨tm, xs, rfl, -, rfl⟩ := isForm_of_reachable hs
    rw [happened_assemble]
    exact happenedTo_le tm xs

/-- **Distances in two-phase commit** are what has happened in a state, `3 * n + 1` at most, and a breadth-first
search reports the depth of the farthest. -/
theorem distances_exact (n : Nat) :
    (∀ s, (model n).Reachable s → (model n).AtDistance s (happened s)) ∧
    IsGreatest {d | ∃ s, (model n).Reachable s ∧ (model n).AtDistance s d} (3 * n + 1) ∧
    (Set.InjOn (model n).fingerprint {s | (model n).Reachable s} → ∀ cfg : Config State, cfg.workers ≤ 1 →
      cfg.order = .breadthFirst → cfg.maxStates = 0 → cfg.maxDepth = 0 →
      (∀ call t fp, cfg.visitor call t fp = .ok ()) →
        ∃ s, Search.check (model n) cfg = .ok s ∧ s.maxDepth = 3 * n + 2) := by
  refine ⟨fun s => atDistance_happened, isGreatest_distance n, fun hinj cfg h1 hbfs hstates hdepth hv => ?_⟩
  have hseed := Search.seed_ok (model_total n) cfg
  obtain ⟨s, moves, hcheck, rfl, hdone, hn⟩ := Search.check_unstopped (model_total n) (model_meets n)
    ⟨_, List.mem_cons_of_mem _ (List.mem_cons_of_mem _ List.mem_cons_self), rfl⟩ h1 hstates hv
  obtain ⟨g, hr, hdisc⟩ := Search.after_discoveredAt hseed moves
  have horderly : Search.Orderly (model n) cfg (Search.after (model n) cfg moves) g :=
    ⟨hr, h1, hbfs, hinj, fun t => hr.rooted hseed⟩
  have hdeepest := (horderly.exactLevels hseed hdisc hdone hn).deepest (List.cons_ne_nil _ _)
  refine ⟨_, hcheck, hdeepest.unique ⟨?_, ?_⟩⟩
  · obtain ⟨t, -, ht⟩ := (isGreatest_distance n).1
    exact ⟨t, _, ⟨ht, Or.inl hdepth⟩, rfl⟩
  · rintro k ⟨t, d, hd, rfl⟩
    have hle := (isGreatest_distance n).2 ⟨t, hd.1.reachable, hd.1⟩
    omega

/-- With two resource managers the search gets to depth 8, that of the state in which both have committed. -/
theorem distances_exact_two : Set.InjOn (model 2).fingerprint {s | (model 2).Reachable s} ∧
    (model 2).AtDistance (assemble .committed (List.replicate 2 ⟨.committed, true, true⟩)) 7 ∧
    ∃ s, Search.check (model 2) { order := .breadthFirst } = .ok s ∧ s.maxDepth = 8 := by
  have hinj : Set.InjOn (model 2).fingerprint {s | (model 2).Reachable s} := injOn_of_forms (by decide +kernel)
  have hx : (⟨.committed, true, true⟩ : Stance) ∈ stances .committed := by decide
  obtain ⟨hdistance, -, hsearch⟩ := distances_exact 2
  exact ⟨hinj, hdistance _ (reachable_replicate 2 hx),
    hsearch hinj { order := .breadthFirst } (Nat.le_refl 1) rfl rfl rfl fun _ _ _ => rfl⟩

end StateSpace.TwoPhase
