import Mathlib.Data.Nat.Find
import StateSpace.Proofs.Actor.Commutation
import StateSpace.Proofs.Search.Hunt
import StateSpace.Proofs.Systems.Clocks.Descent

/-!
# Two clocks take turns

One timestamp goes back and forth between the clocks and grows by one with each delivery, until it wraps to `0`.

* `tick k` : the state after `k` deliveries; `hushed k` : that state once the envelope was dropped;
* `event_tick_iff`, `not_event_hushed` : what can happen in these;
* `lead_of_isRun` : so a run is in such a state, and its length says in which; `reachable_iff`, `atDistance_iff` : the
  reachable states and their distances;
* `relay n` : the run of `n` deliveries; `eq_relay` : the only run to `tick n`;
* `two_clocks_exact` : what a depth-bounded search reports of the property that the clocks stay below a limit.
-/

namespace StateSpace.TwoClocks

open ActorSystem

/-- The greatest odd number up to `k`, or `0` if there is none. -/
def lastOdd (k : Nat) : Nat := Nat.findGreatest (· % 2 = 1) k

def lastEven (k : Nat) : Nat := Nat.findGreatest (· % 2 = 0) k

/-- What is in flight after `k` deliveries, with the timestamp modulo `2 ^ 32`. -/
def pending (k : Nat) : Envelope UInt32 :=
  if k % 2 = 0 then ⟨1, 0, UInt32.ofNat (k + 1)⟩ else ⟨0, 1, UInt32.ofNat (k + 1)⟩

/-- The state after `k` deliveries. -/
def tick (k : Nat) : SystemState UInt32 UInt32 :=
  ⟨[UInt32.ofNat (lastOdd k), UInt32.ofNat (lastEven k)], [pending k]⟩

/-- The state after `k` deliveries and the loss of the envelope. -/
def hushed (k : Nat) : SystemState UInt32 UInt32 := ⟨(tick k).actors, []⟩

variable {limit : UInt32} {lossy : Bool} {k j n : Nat} {s t : SystemState UInt32 UInt32} {a : NetAction UInt32}

/-! ## Odd and even -/

theorem lastOdd_le (k : Nat) : lastOdd k ≤ k := Nat.findGreatest_le k

theorem lastEven_le (k : Nat) : lastEven k ≤ k := Nat.findGreatest_le k

theorem lastOdd_succ (k : Nat) : lastOdd (k + 1) = if (k + 1) % 2 = 1 then k + 1 else lastOdd k := Nat.findGreatest_succ k

theorem lastEven_succ (k : Nat) : lastEven (k + 1) = if (k + 1) % 2 = 0 then k + 1 else lastEven k :=
  Nat.findGreatest_succ k

theorem max_last (k : Nat) : max (lastOdd k) (lastEven k) = k := by
  cases k with
  | zero => rfl
  | succ k =>
    have hodd := lastOdd_le k
    have heven := lastEven_le k
    rw [lastOdd_succ, lastEven_succ]
    split <;> split <;> omega

theorem toNat_ofNat (hk : k < 2 ^ 32) : (UInt32.ofNat k).toNat = k := UInt32.toNat_ofNat_of_lt' hk

/-- Whoever is to receive the pending timestamp has an older one, unless that wrapped. -/
theorem lt_pending (hk : k < 2 ^ 32) (hj : j ≤ k) : UInt32.ofNat j < UInt32.ofNat (k + 1) ↔ k + 1 < 2 ^ 32 := by
  rw [UInt32.lt_iff_toNat_lt, toNat_ofNat (by omega), UInt32.toNat_ofNat']
  omega

/-! ## What can happen -/

theorem hasClocks (limit : UInt32) (lossy : Bool) : (twoClocks limit lossy).HasClocks 2 := rfl

/-- A delivery takes the clocks one step on. -/
theorem delivered_tick (k : Nat) :
    (⟨(tick k).actors.set (pending k).dst (pending k).msg,
      Network.post (Network.remove (tick k).network (pending k)) (pending k).dst [⟨(pending k).src, (pending k).msg + 1⟩]⟩ :
      SystemState UInt32 UInt32) = tick (k + 1) := by
  have hempty : Network.remove (tick k).network (pending k) = [] := List.erase_cons_head ..
  have hmsg : (UInt32.ofNat (k + 1) + 1 : UInt32) = UInt32.ofNat (k + 1 + 1) := (UInt32.ofNat_add _ _).symm
  rw [hempty]
  rcases Nat.mod_two_eq_zero_or_one k with hk | hk
  · have hpending : pending k = ⟨1, 0, UInt32.ofNat (k + 1)⟩ := if_pos hk
    have hnext : pending (k + 1) = ⟨0, 1, UInt32.ofNat (k + 1 + 1)⟩ := if_neg (by omega)
    rw [hpending, tick, tick, hnext, lastOdd_succ, lastEven_succ, if_pos (by omega), if_neg (by omega), ← hmsg]
    rfl
  · have hpending : pending k = ⟨0, 1, UInt32.ofNat (k + 1)⟩ := if_neg (by omega)
    have hnext : pending (k + 1) = ⟨1, 0, UInt32.ofNat (k + 1 + 1)⟩ := if_pos (by omega)
    rw [hpending, tick, tick, hnext, lastOdd_succ, lastEven_succ, if_neg (by omega), if_pos (by omega), ← hmsg]
    rfl

theorem receiver (k : Nat) : (pending k).dst < 2 ∧ (pending k).msg = UInt32.ofNat (k + 1) ∧
    ∃ j ≤ k, (tick k).actors[(pending k).dst]? = some (UInt32.ofNat j) := by
  unfold pending
  split
  · exact ⟨Nat.zero_lt_two, rfl, lastOdd k, lastOdd_le k, rfl⟩
  · exact ⟨Nat.one_lt_two, rfl, lastEven k, lastEven_le k, rfl⟩

/-- **What can happen after `k` deliveries**: the next one, unless the timestamp wrapped, or the loss of the envelope. -/
theorem event_tick_iff (hk : k < 2 ^ 32) : Event (twoClocks limit lossy) (tick k) a t ↔
    (a = .deliver (pending k) ∧ k + 1 < 2 ^ 32 ∧ t = tick (k + 1)) ∨
    (a = .drop (pending k) ∧ lossy = true ∧ t = hushed k) := by
  obtain ⟨hdst, hmsg, j, hj, hclock⟩ := receiver k
  have hempty : Network.remove (tick k).network (pending k) = [] := List.erase_cons_head ..
  have hnewer : UInt32.ofNat j < (pending k).msg ↔ k + 1 < 2 ^ 32 := by rw [hmsg, lt_pending hk hj]
  rw [event_iff (hasClocks limit lossy)]
  constructor
  · rintro (⟨e, c, rfl, he, -, hc, hlt, rfl⟩ | ⟨e, rfl, he, hlossy, rfl⟩)
    · obtain rfl := List.mem_singleton.1 he
      rw [hclock] at hc
      cases hc
      exact Or.inl ⟨rfl, hnewer.1 hlt, delivered_tick k⟩
    · obtain rfl := List.mem_singleton.1 he
      exact Or.inr ⟨rfl, hlossy, by rw [hempty, hushed]⟩
  · rintro (⟨rfl, hlt, rfl⟩ | ⟨rfl, hlossy, rfl⟩)
    · exact Or.inl ⟨_, _, rfl, List.mem_singleton_self _, hdst, hclock, hnewer.2 hlt, (delivered_tick k).symm⟩
    · exact Or.inr ⟨_, rfl, List.mem_singleton_self _, hlossy, by rw [hempty, hushed]⟩

theorem not_event_hushed : ¬ Event (twoClocks limit lossy) (hushed k) a t := by
  intro h
  rcases (event_iff (hasClocks limit lossy)).1 h with ⟨e, c, -, he, -⟩ | ⟨e, -, he, -⟩
  · cases he
  · cases he

theorem initial_eq (limit : UInt32) (lossy : Bool) : (twoClocks limit lossy).initial = tick 0 := rfl

/-! ## Telling states apart -/

theorem eq_of_actors (hj : j < 2 ^ 32) (hk : k < 2 ^ 32) (h : (tick j).actors = (tick k).actors) : j = k := by
  have hodd := lastOdd_le j
  have hodd' := lastOdd_le k
  have heven := lastEven_le j
  have heven' := lastEven_le k
  obtain ⟨h₀, h₁⟩ := List.cons.inj h
  have hleft := congrArg UInt32.toNat h₀
  have hright := congrArg UInt32.toNat (List.cons.inj h₁).1
  rw [toNat_ofNat (by omega), toNat_ofNat (by omega)] at hleft hright
  rw [← max_last j, ← max_last k, hleft, hright]

theorem tick_ne_hushed : tick j ≠ hushed k := by
  intro h
  cases congrArg SystemState.network h

/-- The state is where a run of `n` steps leads: `n` deliveries, or one less and the loss of the envelope. -/
def Stage (lossy : Bool) (t : SystemState UInt32 UInt32) (n : Nat) : Prop :=
  n < 2 ^ 32 ∧ t = tick n ∨ lossy = true ∧ ∃ k < 2 ^ 32, n = k + 1 ∧ t = hushed k

theorem Stage.unique (h : Stage lossy t n) (h' : Stage lossy t j) : n = j := by
  rcases h with ⟨hn, rfl⟩ | ⟨-, k, hk, rfl, rfl⟩
  · rcases h' with ⟨hj, heq⟩ | ⟨-, k, -, -, heq⟩
    · exact eq_of_actors hn hj (congrArg SystemState.actors heq)
    · exact absurd heq tick_ne_hushed
  · rcases h' with ⟨-, heq⟩ | ⟨-, k', hk', rfl, heq⟩
    · exact absurd heq.symm tick_ne_hushed
    · have hactors := congrArg SystemState.actors heq
      rw [eq_of_actors hk hk' hactors]

/-! ## Runs -/

theorem stage_of_isRun {p : Path (SystemState UInt32 UInt32) (NetAction UInt32)}
    (hp : p.IsRun (twoClocks limit lossy).model) : Stage lossy p.last p.steps.length := by
  refine hp.lead (P := Stage lossy) (fun t ht => ?_) fun s a t n _ hstep hs => ?_
  · rw [List.mem_singleton.1 ht, initial_eq]
    exact Or.inl ⟨by decide, rfl⟩
  · have hevent := step_iff.1 hstep
    rcases hs with ⟨hn, rfl⟩ | ⟨-, k, -, -, rfl⟩
    · rcases (event_tick_iff hn).1 hevent with ⟨-, hlt, rfl⟩ | ⟨-, hlossy, rfl⟩
      · exact Or.inl ⟨hlt, rfl⟩
      · exact Or.inr ⟨hlossy, n, hn, rfl, rfl⟩
    · exact absurd hevent not_event_hushed

def relay (n : Nat) : Path (SystemState UInt32 UInt32) (NetAction UInt32) :=
  ⟨tick 0, (List.range n).map fun i => (.deliver (pending i), tick (i + 1))⟩

theorem relay_succ (n : Nat) : relay (n + 1) = (relay n).push (.deliver (pending n)) (tick (n + 1)) := by
  simp [relay, Path.push, List.range_succ]

theorem length_relay (n : Nat) : (relay n).steps.length = n := by
  simp [relay]

theorem isRun_relay (limit : UInt32) (lossy : Bool) (hn : n < 2 ^ 32) :
    (relay n).IsRun (twoClocks limit lossy).model ∧ (relay n).last = tick n := by
  induction n with
  | zero => exact ⟨Path.isRun_single (List.mem_singleton_self _), rfl⟩
  | succ n ih =>
    obtain ⟨hrun, hlast⟩ := ih (by omega)
    have hstep : (twoClocks limit lossy).model.Step (relay n).last (.deliver (pending n)) (tick (n + 1)) := by
      rw [hlast, step_iff, event_tick_iff (by omega)]
      exact Or.inl ⟨rfl, hn, rfl⟩
    rw [relay_succ]
    exact ⟨hrun.push rfl hstep, Path.last_push _ _ _⟩

theorem mem_runLengths_iff : n ∈ (twoClocks limit lossy).model.runLengths t ↔ Stage lossy t n := by
  constructor
  · rintro ⟨p, hp, rfl, rfl⟩
    exact stage_of_isRun hp
  · rintro (⟨hn, rfl⟩ | ⟨hlossy, k, hk, rfl, rfl⟩)
    · obtain ⟨hrun, hlast⟩ := isRun_relay limit lossy hn
      exact ⟨relay n, hrun, hlast, length_relay n⟩
    · obtain ⟨hrun, hlast⟩ := isRun_relay limit lossy hk
      refine Model.runLengths_succ (a := .drop (pending k)) ⟨relay k, hrun, hlast, length_relay k⟩ rfl ?_
      rw [step_iff, event_tick_iff hk]
      exact Or.inr ⟨rfl, hlossy, rfl⟩

/-- **All runs to a state are of one length.** -/
theorem atDistance_iff : (twoClocks limit lossy).model.AtDistance t n ↔ Stage lossy t n := by
  constructor
  · intro h
    exact mem_runLengths_iff.1 h.1
  · intro h
    refine ⟨mem_runLengths_iff.2 h, fun j hj => ?_⟩
    rw [h.unique (mem_runLengths_iff.1 hj)]

theorem reachable_iff : (twoClocks limit lossy).model.Reachable t ↔ ∃ n, Stage lossy t n := by
  constructor
  · intro h
    obtain ⟨n, hn⟩ := h.runLength
    exact ⟨n, mem_runLengths_iff.1 hn⟩
  · rintro ⟨n, hn⟩
    exact (atDistance_iff.2 hn).reachable

theorem reachable_lossless_iff : (twoClocks limit false).model.Reachable t ↔ ∃ k < 2 ^ 32, t = tick k := by
  simp [reachable_iff, Stage]

theorem reachable_lossy_iff :
    (twoClocks limit true).model.Reachable t ↔ ∃ k < 2 ^ 32, t = tick k ∨ t = hushed k := by
  rw [reachable_iff]
  constructor
  · rintro ⟨n, ⟨hn, rfl⟩ | ⟨-, k, hk, -, rfl⟩⟩
    · exact ⟨n, hn, Or.inl rfl⟩
    · exact ⟨k, hk, Or.inr rfl⟩
  · rintro ⟨k, hk, rfl | rfl⟩
    · exact ⟨k, Or.inl ⟨hk, rfl⟩⟩
    · exact ⟨k + 1, Or.inr ⟨rfl, k, hk, rfl, rfl⟩⟩

theorem runLengths_tick (hk : k < 2 ^ 32) : (twoClocks limit lossy).model.runLengths (tick k) = {k} := by
  have htick : Stage lossy (tick k) k := Or.inl ⟨hk, rfl⟩
  ext n
  rw [mem_runLengths_iff, Set.mem_singleton_iff]
  constructor
  · intro h
    exact h.unique htick
  · rintro rfl
    exact htick

theorem exists_step_tick (hk : k < 2 ^ 32) :
    (∃ a t, (twoClocks limit false).model.Step (tick k) a t) ↔ k ≠ 2 ^ 32 - 1 := by
  simp only [step_iff, event_tick_iff hk]
  constructor
  · rintro ⟨a, t, ⟨-, hlt, -⟩ | ⟨-, hlossy, -⟩⟩
    · omega
    · cases hlossy
  · intro hne
    exact ⟨_, _, Or.inl ⟨rfl, by omega, rfl⟩⟩

/-- A run that has lost nothing consists of deliveries. -/
theorem eq_deliveries {steps : List (NetAction UInt32 × SystemState UInt32 UInt32)} (hk : k < 2 ^ 32)
    (h : Path.Along (twoClocks limit lossy).model (tick k) steps) (hlast : (⟨tick k, steps⟩ : Path _ _).last = tick n) :
    steps = (List.range' k steps.length).map fun i => (.deliver (pending i), tick (i + 1)) := by
  induction steps generalizing k with
  | nil => rfl
  | cons x steps ih =>
    obtain ⟨a, t⟩ := x
    rw [Path.last_cons] at hlast
    rcases (event_tick_iff hk).1 (step_iff.1 h.2.1) with ⟨rfl, hlt, rfl⟩ | ⟨rfl, -, rfl⟩
    · have hrest := ih hlt h.2.2 hlast
      rw [List.length_cons, List.range'_succ, List.map_cons, ← hrest]
    · -- nothing follows the loss, and it does not lead to `tick n`
      cases steps with
      | nil => exact absurd hlast.symm tick_ne_hushed
      | cons y steps => exact absurd (step_iff.1 h.2.2.2.1) not_event_hushed

theorem eq_relay {p : Path (SystemState UInt32 UInt32) (NetAction UInt32)} (hp : p.IsRun (twoClocks limit lossy).model)
    (hlast : p.last = tick n) : p = relay p.steps.length := by
  obtain ⟨init, steps⟩ := p
  obtain rfl : init = tick 0 := List.mem_singleton.1 hp.init_mem
  have hsteps := eq_deliveries (by decide) hp.along hlast
  rw [← List.range_eq_range'] at hsteps
  rw [relay, ← hsteps]

/-! ## The limit -/

theorem resolvedBy_iff (hs : s.actors = (tick k).actors) (hk : k < 2 ^ 32) :
    (belowLimit limit).ResolvedBy s ↔ limit.toNat ≤ k := by
  have hodd := lastOdd_le k
  have heven := lastEven_le k
  have hmax := max_last k
  have hcondition : (belowLimit limit).condition s =
      .ok (decide (UInt32.ofNat (lastOdd k) < limit) && (decide (UInt32.ofNat (lastEven k) < limit) && true)) := by
    show Except.ok (s.actors.all (· < limit)) = _
    rw [hs]
    rfl
  rw [Property.resolvedBy_always rfl, hcondition, Except.ok.injEq, Bool.and_true, Bool.and_eq_false_iff,
    decide_eq_false_iff_not, decide_eq_false_iff_not, UInt32.lt_iff_toNat_lt, UInt32.lt_iff_toNat_lt,
    toNat_ofNat (by omega), toNat_ofNat (by omega)]
  omega

theorem model_total (limit : UInt32) (lossy : Bool) : (twoClocks limit lossy).model.Total := by
  have hfaultless : (twoClocks limit lossy).Faultless := by
    intro actor hactor state src msg
    rw [List.eq_of_mem_replicate hactor]
    exact ⟨_, rfl⟩
  refine ⟨fun _ _ => ⟨true, rfl⟩, fun _ _ => ⟨_, rfl⟩, fun t _ a _ _ _ => nextOf_ok hfaultless t a, fun t _ p hp => ?_⟩
  rw [List.mem_singleton.1 hp]
  exact ⟨_, rfl⟩

/-- The first violation is met after as many deliveries as the limit says, and nowhere else so early. -/
theorem Stage.limit_le (h : Stage lossy t n) (hres : (belowLimit limit).ResolvedBy t) :
    limit.toNat ≤ n ∧ (n = limit.toNat → t = tick n) := by
  rcases h with ⟨hn, rfl⟩ | ⟨-, k, hk, rfl, rfl⟩
  · exact ⟨(resolvedBy_iff rfl hn).1 hres, fun _ => rfl⟩
  · have hle := (resolvedBy_iff rfl hk).1 hres
    exact ⟨by omega, fun heq => by omega⟩

theorem isLeast_violation (limit : UInt32) (lossy : Bool) :
    IsLeast {d | ∃ t, (twoClocks limit lossy).model.AtDistance t d ∧ (belowLimit limit).ResolvedBy t} limit.toNat := by
  have hlimit := limit.toNat_lt
  constructor
  · exact ⟨tick limit.toNat, atDistance_iff.2 (Or.inl ⟨hlimit, rfl⟩), (resolvedBy_iff rfl hlimit).2 (Nat.le_refl _)⟩
  · rintro d ⟨t, ht, hres⟩
    exact ((atDistance_iff.1 ht).limit_le hres).1

/-- **Two clocks take turns**: the reachable states are those after `k` deliveries, up to the wrap at `2 ^ 32`, and
those after a loss. So a bounded search finds the limit violated after as many deliveries, or gives up at the bound.
-/
theorem two_clocks_exact (limit : UInt32) :
    (∀ s, (twoClocks limit false).model.Reachable s ↔ ∃ k < 2 ^ 32, s = tick k) ∧
    (∀ k < 2 ^ 32, (twoClocks limit false).model.runLengths (tick k) = {k} ∧
      ((∃ a t, (twoClocks limit false).model.Step (tick k) a t) ↔ k ≠ 2 ^ 32 - 1)) ∧
    (∀ s, (twoClocks limit true).model.Reachable s ↔ ∃ k < 2 ^ 32, s = tick k ∨ s = ⟨(tick k).actors, []⟩) ∧
    ∀ (lossy : Bool) (bound : Nat), 1 ≤ bound → bound ≤ 2 ^ 32 →
      Set.InjOn (twoClocks limit lossy).model.fingerprint
        {t | ∃ d < bound, (twoClocks limit lossy).model.AtDistance t d} →
      ∀ cfg : Config (SystemState UInt32 UInt32), cfg.workers ≤ 1 → cfg.order = .breadthFirst → cfg.maxStates = 0 →
      cfg.maxDepth = bound → (∀ call t fp, cfg.visitor call t fp = .ok ()) →
        (limit.toNat ≤ bound - 1 → ∃ s, Search.check (twoClocks limit lossy).model cfg = .ok s ∧
          s.termination = .stopped ∧ s.verdicts (twoClocks limit lossy).model =
            .ok [⟨"less than limit", .always, .failed, some (relay limit.toNat)⟩]) ∧
        (¬ limit.toNat ≤ bound - 1 → ∃ s, Search.check (twoClocks limit lossy).model cfg = .ok s ∧
          s.termination = .boundReached ∧ s.verdicts (twoClocks limit lossy).model =
            .ok [⟨"less than limit", .always, .inconclusive, none⟩]) := by
  refine ⟨fun s => reachable_lossless_iff, fun k hk => ⟨runLengths_tick hk, exists_step_tick hk⟩,
    fun s => reachable_lossy_iff, ?_⟩
  rintro lossy _ hpos hle hinj cfg h1 hbfs hstates rfl hv
  have hhunt : Search.Hunt (twoClocks limit lossy).model cfg (belowLimit limit) :=
    ⟨model_total limit lossy, rfl, rfl, h1, hbfs, hstates, hv⟩
  refine ⟨fun hlimit => ?_, fun hlimit => ?_⟩
  · obtain ⟨s, path, hcheck, hend, hverdicts, hrun, hres, hlen⟩ :=
      hhunt.fails hpos hinj (show limit.toNat < cfg.maxDepth by omega) (isLeast_violation limit lossy)
    have hlast := ((stage_of_isRun hrun).limit_le hres).2 hlen
    rw [eq_relay hrun hlast, hlen] at hverdicts
    exact ⟨s, hcheck, hend, hverdicts⟩
  · refine hhunt.gives_up hpos hinj (fun t d hd ht hres => ?_) ⟨tick (cfg.maxDepth - 1), rfl, ?_⟩
    · have hfirst := ((atDistance_iff.1 ht).limit_le hres).1
      omega
    · exact atDistance_iff.2 (Or.inl ⟨by omega, rfl⟩)

def near (bound : Nat) : List (SystemState UInt32 UInt32) :=
  (List.range bound).map tick ++ (List.range (bound - 1)).map hushed

theorem injOn_of_near {bound : Nat} (h : ((near bound).map (twoClocks limit lossy).model.fingerprint).Nodup) :
    Set.InjOn (twoClocks limit lossy).model.fingerprint
      {t | ∃ d < bound, (twoClocks limit lossy).model.AtDistance t d} := by
  have hnear : ∀ t d, d < bound → (twoClocks limit lossy).model.AtDistance t d → t ∈ near bound := by
    intro t d hd ht
    rcases atDistance_iff.1 ht with ⟨-, rfl⟩ | ⟨-, k, -, rfl, rfl⟩
    · exact List.mem_append_left _ (List.mem_map_of_mem (List.mem_range.2 hd))
    · exact List.mem_append_right _ (List.mem_map_of_mem (List.mem_range.2 (by omega)))
  rintro s ⟨d, hd, hs⟩ t ⟨d', hd', ht⟩
  exact List.inj_on_of_nodup_map h (hnear s d hd hs) (hnear t d' hd' ht)

/-- On a lossy network the limit 2 is found to be violated with bound 3, by two deliveries. -/
theorem two_clocks_exact_two :
    Set.InjOn (twoClocks 2 true).model.fingerprint {t | ∃ d < 3, (twoClocks 2 true).model.AtDistance t d} ∧
    ∃ s, Search.check (twoClocks 2 true).model { maxDepth := 3 } = .ok s ∧ s.termination = .stopped ∧
      s.verdicts (twoClocks 2 true).model = .ok [⟨"less than limit", .always, .failed, some (relay 2)⟩] := by
  have hinj : Set.InjOn (twoClocks 2 true).model.fingerprint {t | ∃ d < 3, (twoClocks 2 true).model.AtDistance t d} :=
    injOn_of_near (by decide +kernel)
  obtain ⟨-, -, -, hsearch⟩ := two_clocks_exact 2
  have hfails := (hsearch true 3 (by decide) (by decide) hinj { maxDepth := 3 } (Nat.le_refl 1) rfl rfl rfl
    fun _ _ _ => rfl).1
  exact ⟨hinj, hfails (by decide)⟩

end StateSpace.TwoClocks
