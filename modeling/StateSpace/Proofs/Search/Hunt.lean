import StateSpace.Proofs.Search.Alarms
import StateSpace.Proofs.Search.Horizon
import StateSpace.Proofs.Search.Shortest

/-!
# Looking for a violation within a bound on the depth

* `Hunt m cfg p` : a single breadth-first worker looks for a violation of the only property `p`, and nothing else can stop
  it; `Hunt.run`, `Hunt.run_curtailed` : how this ends;
* `Orderly.nearest` : a discovery is as near as any state that resolves the property; `Orderly.openAt` : without one, no
  state that is due does;
* `Hunt.fails`, `Hunt.gives_up` : so the hunt finds a nearest violation, or none up to the bound, if fingerprints tell apart
  the states within the horizon.
-/

namespace StateSpace.Search

variable {σ α : Type} {m : Model σ α} {cfg : Config σ} {s : Search σ α} {g : Chronicle σ} {p : Property σ}

/-- A single breadth-first worker looks for a violation of the only property of a model, and neither a fault nor the number
of states can stop it. -/
structure Hunt (m : Model σ α) (cfg : Config σ) (p : Property σ) : Prop where
  total : m.Total
  properties : m.properties = [p]
  always : p.expectation = .always
  solo : cfg.workers ≤ 1
  order : cfg.order = .breadthFirst
  states : cfg.maxStates = 0
  visitor : ∀ call t fp, cfg.visitor call t fp = .ok ()

theorem Hunt.curtailed (h : Hunt m cfg p) (hpos : 0 < cfg.maxDepth) : Hunt (m.curtailed cfg.maxDepth) cfg p :=
  { h with total := h.total.curtailed hpos }

/-- The hunt ends, and the only reason to stop it is that the violation was found. -/
theorem Hunt.run (h : Hunt m cfg p) (hinj : Set.InjOn m.fingerprint {t | m.Reachable t}) :
    ∃ s g, check m cfg = .ok s ∧ Orderly m cfg s g ∧ s.done = true ∧ s.fault = none ∧
      s.stopReason = if s.discoveries.slot 0 = Hash.noFingerprint then none else some .stopped := by
  have hseed := seed_ok h.total cfg
  obtain ⟨s, moves, hcheck, rfl, hcancel, hdone, hfault⟩ := check_run h.total h.solo h.visitor
  obtain ⟨g, hr, -⟩ := after_reached hseed moves
  refine ⟨_, g, hcheck, ⟨hr, h.solo, h.order, hinj, fun t => hr.rooted hseed⟩, hdone, hfault, ?_⟩
  have hone : m.properties.length = 1 := by rw [h.properties, List.length_singleton]
  have hreason : ∀ r, (after m cfg moves).stopReason = some r →
      r = .stopped ∧ (after m cfg moves).discoveries.slot 0 ≠ Hash.noFingerprint := by
    intro r hr
    have hwarrant := (after_warranted hseed hcancel).reason r hr
    cases r with
    | boundReached => exact absurd h.states (Nat.ne_of_gt hwarrant.1)
    | error => exact absurd hfault hwarrant
    | stopped =>
      refine ⟨rfl, ?_⟩
      rcases hwarrant with ⟨-, i, q, hq, -, hi⟩ | hresolved
      · have hlt := (List.getElem?_eq_some_iff.1 hq).1
        rwa [show i = 0 by omega] at hi
      · exact hresolved.2 0 hresolved.1
  by_cases hslot : (after m cfg moves).discoveries.slot 0 = Hash.noFingerprint
  · rw [if_pos hslot, Option.eq_none_iff_forall_ne_some]
    exact fun r hr => (hreason r hr).2 hslot
  · have hsounds : Alarm.resolution.Sounds m cfg (after m cfg moves) := by
      refine ⟨by omega, fun i hi => ?_⟩
      rwa [show i = 0 by omega]
    rw [if_neg hslot]
    rcases after_heeded hseed hcancel .resolution hsounds with hstop | ⟨q, hq, hatt⟩
    · obtain ⟨r, hr⟩ := Option.ne_none_iff_exists'.1 hstop
      rw [hr, (hreason r hr).1]
    · exact absurd hatt (Phase.not_attends
        (List.flatMap_eq_nil_iff.1 (flatMap_of_done hdone Phase.fresh rfl) q hq) .resolution)

theorem Hunt.run_curtailed (h : Hunt m cfg p) (hpos : 0 < cfg.maxDepth)
    (hinj : Set.InjOn m.fingerprint {t | ∃ d < cfg.maxDepth, m.AtDistance t d}) :
    ∃ s g, check m cfg = .ok s ∧ Orderly (m.curtailed cfg.maxDepth) cfg s g ∧ s.done = true ∧ s.fault = none ∧
      s.stopReason = if s.discoveries.slot 0 = Hash.noFingerprint then none else some .stopped := by
  have hrun := (h.curtailed hpos).run (hinj.mono fun t ht => Model.reachable_curtailed hpos ht)
  rwa [check_curtailed (seed_ok h.total cfg) h.solo hpos] at hrun

theorem Hunt.property (h : Hunt m cfg p) : m.properties[0]? = some p := by
  rw [h.properties]
  rfl

/-- The entry of a discovery is as near as any state that resolves the property. -/
theorem Orderly.nearest (h : Orderly m cfg s g) {i : Nat} (hp : m.properties[i]? = some p)
    (hi : s.discoveries.slot i ≠ Hash.noFingerprint) :
    ∃ l ∈ g.ledger, l.entry.fp = s.discoveries.slot i ∧ p.ResolvedBy l.entry.state ∧
      ∀ t d, m.AtDistance t d → p.ResolvedBy t → l.entry.depth ≤ d + 1 := by
  obtain ⟨newer, l, older, hL, hfp, hres, hopen⟩ := h.reached.firstFound h.solo h.order i p hp hi
  have hl : l ∈ g.ledger := by
    rw [hL]
    exact List.mem_append_right _ List.mem_cons_self
  refine ⟨l, hl, hfp, hres, fun t d hd ht => ?_⟩
  by_contra hlt
  obtain ⟨run, hrun, rfl, rfl⟩ := hd.1
  obtain ⟨k, hk, hstate, hdepth⟩ := h.registered_above hl hrun (Nat.lt_of_not_le hlt)
  have hearlier := hopen k (h.inLine.mem_older hL hk hdepth)
  rw [hstate] at hearlier
  exact hearlier.not_resolvedBy ht

theorem Orderly.openAt (h : Orderly m cfg s g) (hdone : s.done = true) (hn : s.stopReason = none) {i : Nat}
    (hp : m.properties[i]? = some p) (hi : s.discoveries.slot i = Hash.noFingerprint) {t : σ} {d : Nat}
    (hd : m.Due cfg t d) : p.OpenAt t := by
  have hpending := h.reached.pending_of_done hn hdone
  obtain ⟨-, -, hdropped⟩ := h.reached.completed hdone hpending
  obtain ⟨l, hl, rfl, -⟩ := (h.due_iff (h.inLine.ledger_eq h.reached hdone hpending)).1 hd
  refine h.reached.judgement.openAt hdropped hl (fun q hq hun => ?_) hp hi
  rw [List.flatMap_eq_nil_iff.1 (flatMap_of_done hdone Phase.unjudged rfl) q hq] at hun
  cases hun

theorem verdicts_single (hp : m.properties = [p]) {path : Option (Path σ α)} (h : s.discoveryAt m 0 = .ok path) :
    s.verdicts m =
      .ok [⟨p.name, p.expectation, s.discoveries.verdict 0 p.expectation s.exhausted, path⟩] := by
  unfold verdicts judgements
  rw [hp]
  simp [h]

/-- **The hunt succeeds** if a violation is due: it finds one at the least distance, and stops. -/
theorem Hunt.fails (h : Hunt m cfg p) (hpos : 0 < cfg.maxDepth)
    (hinj : Set.InjOn m.fingerprint {t | ∃ d < cfg.maxDepth, m.AtDistance t d}) {d : Nat} (hlt : d < cfg.maxDepth)
    (hd : IsLeast {d | ∃ t, m.AtDistance t d ∧ p.ResolvedBy t} d) :
    ∃ s path, check m cfg = .ok s ∧ s.termination = .stopped ∧
      s.verdicts m = .ok [⟨p.name, .always, .failed, some path⟩] ∧ path.IsRun m ∧ p.ResolvedBy path.last ∧
      path.steps.length = d := by
  obtain ⟨s, g, hcheck, ho, hdone, hfault, hreason⟩ := h.run_curtailed hpos hinj
  have hp := (h.curtailed hpos).property
  have hslot : s.discoveries.slot 0 ≠ Hash.noFingerprint := by
    intro hslot
    rw [if_pos hslot] at hreason
    obtain ⟨t, ht, hres⟩ := hd.1
    have hdue : (m.curtailed cfg.maxDepth).Due cfg t d := ⟨(Model.atDistance_curtailed hlt).2 ht, Or.inr hlt⟩
    exact (ho.openAt hdone hreason hp hslot hdue).not_resolvedBy hres
  rw [if_neg hslot] at hreason
  obtain ⟨l, hl, hfp, hres, hnear⟩ := ho.nearest hp hslot
  obtain ⟨path, hrec, hrun, hlast, hsize⟩ := ho.reached.reconstruct_eq ho.inj hl
  rw [hfp] at hrec
  have hfound : s.discoveries.get? 0 = some (s.discoveries.slot 0) := Discoveries.get?_eq_some.2 ⟨rfl, hslot⟩
  have hpath : s.discoveryAt m 0 = .ok (some path) := by
    rw [discoveryAt, hfound]
    dsimp only
    rw [Path.reconstruct_curtailed hrec]
    rfl
  refine ⟨s, path, hcheck, ?_, ?_, hrun.of_curtailed, by rwa [hlast], ?_⟩
  · unfold termination
    rw [hdone, hfault, hreason]
    rfl
  · rw [verdicts_single h.properties hpath, Discoveries.verdict, hfound, h.always]
    rfl
  · -- the entry is neither farther than the nearest violation nor nearer
    obtain ⟨t, ht, hrest⟩ := hd.1
    have hle := hnear t d ((Model.atDistance_curtailed hlt).2 ht) hrest
    obtain ⟨d', hdepth, hd', -⟩ := ho.atDistance hl
    have hge := hd.2 ⟨_, (Model.atDistance_curtailed (by omega)).1 hd', hres⟩
    unfold Path.size at hsize
    omega

/-- **The hunt gives up** at the bound if no violation is due and some state is that far away. -/
theorem Hunt.gives_up (h : Hunt m cfg p) (hpos : 0 < cfg.maxDepth)
    (hinj : Set.InjOn m.fingerprint {t | ∃ d < cfg.maxDepth, m.AtDistance t d})
    (hopen : ∀ t d, d < cfg.maxDepth → m.AtDistance t d → ¬ p.ResolvedBy t)
    (hfar : ∃ t, m.withinBoundary t = .ok true ∧ m.AtDistance t (cfg.maxDepth - 1)) :
    ∃ s, check m cfg = .ok s ∧ s.termination = .boundReached ∧
      s.verdicts m = .ok [⟨p.name, .always, .inconclusive, none⟩] := by
  obtain ⟨s, g, hcheck, ho, hdone, hfault, hreason⟩ := h.run_curtailed hpos hinj
  have hp := (h.curtailed hpos).property
  have hslot : s.discoveries.slot 0 = Hash.noFingerprint := by
    by_contra hslot
    obtain ⟨l, hl, -, hres, -⟩ := ho.nearest hp hslot
    obtain ⟨d, -, hd, hdue⟩ := ho.atDistance hl
    have hlt : d < cfg.maxDepth := by omega
    exact hopen _ d hlt ((Model.atDistance_curtailed hlt).1 hd) hres
  rw [if_pos hslot] at hreason
  have hlimited : s.depthLimited = true := by
    obtain ⟨t, hb, ht⟩ := hfar
    have hpending := ho.reached.pending_of_done hreason hdone
    rw [ho.depthLimited_iff (ho.inLine.ledger_eq ho.reached hdone hpending)]
    exact ⟨hpos, t, hb, (Model.atDistance_curtailed (by omega)).2 ht⟩
  have hnone : s.discoveries.get? 0 = none := Discoveries.get?_eq_none.2 hslot
  have hpath : s.discoveryAt m 0 = .ok none := by rw [discoveryAt, hnone]
  have hrest : s.exhausted = false := by simp [Search.exhausted, hlimited]
  refine ⟨s, hcheck, ?_, ?_⟩
  · rw [ho.reached.termination_eq hdone hreason, hlimited]
    rfl
  · rw [verdicts_single h.properties hpath, Discoveries.verdict, hnone, hrest, h.always]
    rfl

end StateSpace.Search
