import Mathlib.Algebra.BigOperators.Group.List.Basic
import StateSpace.Proofs.Discoveries.Calls
import StateSpace.Proofs.Lists

/-!
# Evaluations that compete, step by step

Evaluations by several workers look at one property after another, each in up to four steps, and between two steps others
may act: two workers may both see a property without a discovery, and both find that their states resolve it.

* `Look` : what a call does next with the property that it is at; `Call.next` : its next step, through the operations on
  discoveries; `Contest.play` : any interleaving of the steps of calls;
* `Call.claims i c` : whether a call has reported the property at `i`, or is about to;
* `Stride`, `next_stride` : a step leaves the discoveries alone, or stores one, or counts one;
* `Fair ps inputs s` : each discovery is claimed by one call, whose state resolves the property; kept whatever a step does
  (`Fair.quiet`, `Fair.store`, `Fair.count`), so by every step (`Fair.step`) and every interleaving (`fair_play`).
-/

namespace StateSpace

/-- What a call does next with the property that it is at. -/
inductive Look where
  /-- See whether the property has a discovery. -/
  | loading
  /-- Evaluate its condition. -/
  | testing
  /-- Store the fingerprint if there is none yet. -/
  | exchanging
  /-- Count and report the discovery just stored. -/
  | counting
  deriving DecidableEq, Repr

structure Call (σ : Type) where
  state : σ
  fp : Fingerprint
  /-- The position of the property that it is at. -/
  place : Nat := 0
  look : Look := .loading
  /-- The positions of the properties that it has reported, the latest first. -/
  reported : List Nat := []
  /-- The fault that ended it. -/
  fault : Option Fault := none

namespace Call

variable {σ : Type}

def advance (c : Call σ) : Call σ := { c with place := c.place + 1, look := .loading }

def next (ps : List (Property σ)) (d : Discoveries) (c : Call σ) : Discoveries × Call σ :=
  match c.fault, ps[c.place]? with
  | none, some p =>
    match c.look with
    | .loading => (d, if d.slot c.place = Hash.noFingerprint then { c with look := .testing } else c.advance)
    | .testing =>
      match p.condition c.state with
      | .error f => (d, { c with fault := some f })
      | .ok holds => (d, if p.expectation.resolvedBy holds then { c with look := .exchanging } else c.advance)
    | .exchanging =>
      match d.exchange c.place c.fp with
      | (true, d) => (d, { c with look := .counting })
      | (false, d) => (d, c.advance)
    | .counting => (d.tally, { c with reported := c.place :: c.reported }.advance)
  | _, _ => (d, c)

/-- The call has looked at all properties, or was ended by a fault. -/
def Ended (ps : List (Property σ)) (c : Call σ) : Prop := c.fault ≠ none ∨ ps.length ≤ c.place

/-- The call has reported the property at a position, or has stored its discovery and is about to. -/
def claims (i : Nat) (c : Call σ) : Nat := c.reported.count i + if c.look = .counting ∧ c.place = i then 1 else 0

/-- The call has stored a discovery and not counted it. -/
def owes (c : Call σ) : Nat := if c.look = .counting then 1 else 0

def findings (ps : List (Property σ)) (c : Call σ) : Findings where
  violations := c.reported.countP fun i => ps[i]?.map Property.expectation = some .always
  witnesses := c.reported.countP fun i => ps[i]?.map Property.expectation = some .sometimes

def messages (ps : List (Property σ)) (c : Call σ) : List Log.Message :=
  c.reported.filterMap fun i => ps[i]?.map fun p => .resolved p.name p.expectation c.fp

def evaluation (ps : List (Property σ)) (d : Discoveries) (c : Call σ) : Discoveries.Evaluation :=
  ⟨d, c.findings ps, c.messages ps, c.fault⟩

end Call

/-- The property at a position, if any, has a discovery or is open at the state. -/
def Discoveries.Passed {σ : Type} (ps : List (Property σ)) (d : Discoveries) (state : σ) (i : Nat) : Prop :=
  ∀ p, ps[i]? = some p → d.slot i ≠ Hash.noFingerprint ∨ p.OpenAt state

structure Contest (σ : Type) where
  discoveries : Discoveries
  calls : List (Call σ)

namespace Contest

variable {σ : Type}

def step (ps : List (Property σ)) (s : Contest σ) (k : Nat) : Contest σ :=
  match s.calls[k]? with
  | none => s
  | some c => ⟨(c.next ps s.discoveries).1, s.calls.set k (c.next ps s.discoveries).2⟩

def play (ps : List (Property σ)) (s : Contest σ) (moves : List Nat) : Contest σ := moves.foldl (step ps) s

def start (ps : List (Property σ)) (inputs : List (σ × Fingerprint)) : Contest σ :=
  ⟨.none ps.length, inputs.map fun x => { state := x.1, fp := x.2 }⟩

theorem step_eq (ps : List (Property σ)) {s : Contest σ} {k : Nat} {c : Call σ} (h : s.calls[k]? = some c) :
    s.step ps k = ⟨(c.next ps s.discoveries).1, s.calls.set k (c.next ps s.discoveries).2⟩ := by
  rw [step, h]

theorem step_of_none (ps : List (Property σ)) {s : Contest σ} {k : Nat} (h : s.calls[k]? = none) : s.step ps k = s := by
  rw [step, h]

variable {ps : List (Property σ)} {inputs : List (σ × Fingerprint)} {d d' : Discoveries} {c c' : Call σ} {s : Contest σ}

/-! ## One step -/

section

variable {p : Property σ}

theorem next_of_ended (h : c.Ended ps) (d : Discoveries) : c.next ps d = (d, c) := by
  unfold Call.next
  rcases h with hf | hplace
  · obtain ⟨f, hf⟩ := Option.ne_none_iff_exists'.1 hf
    simp only [hf]
  · rw [List.getElem?_eq_none hplace]
    cases c.fault <;> rfl

variable (hf : c.fault = none) (hp : ps[c.place]? = some p)

include hf hp

theorem next_loading (hlook : c.look = .loading) (d : Discoveries) : c.next ps d =
    (d, if d.slot c.place = Hash.noFingerprint then { c with look := .testing } else c.advance) := by
  simp only [Call.next, hf, hp, hlook]

theorem next_raises (hlook : c.look = .testing) (d : Discoveries) {f : Fault} (hc : p.condition c.state = .error f) :
    c.next ps d = (d, { c with fault := some f }) := by
  simp only [Call.next, hf, hp, hlook, hc]

theorem next_testing (hlook : c.look = .testing) (d : Discoveries) {holds : Bool} (hc : p.condition c.state = .ok holds) :
    c.next ps d = (d, if p.expectation.resolvedBy holds then { c with look := .exchanging } else c.advance) := by
  simp only [Call.next, hf, hp, hlook, hc]

theorem next_exchanging (hlook : c.look = .exchanging) (d : Discoveries) : c.next ps d =
    if d.slot c.place = Hash.noFingerprint then (⟨d.slots.set c.place c.fp, d.count⟩, { c with look := .counting })
    else (d, c.advance) := by
  by_cases hslot : d.slot c.place = Hash.noFingerprint
  · simp only [Call.next, hf, hp, hlook, Discoveries.exchange, if_pos hslot]
  · simp only [Call.next, hf, hp, hlook, Discoveries.exchange, if_neg hslot]

theorem next_counting (hlook : c.look = .counting) (d : Discoveries) :
    c.next ps d = (d.tally, { c with reported := c.place :: c.reported }.advance) := by
  simp only [Call.next, hf, hp, hlook]

end

/-- What a step of a call does to it and to the discoveries. -/
inductive Stride (ps : List (Property σ)) (d : Discoveries) (c : Call σ) : Discoveries × Call σ → Prop
  | rest : Stride ps d c (d, c)
  /-- Nothing is stored or counted; the call goes to store something only if its state resolves the property, and passes
  a property only if that has a discovery or is open at its state. -/
  | quiet {c' : Call σ} (hlook : c.look ≠ .counting) (hlook' : c'.look ≠ .counting) (hstate : c'.state = c.state)
      (hfp : c'.fp = c.fp) (hreported : c'.reported = c.reported)
      (hres : c'.look = .exchanging → c'.fault = none ∧ ∃ p, ps[c'.place]? = some p ∧ p.ResolvedBy c'.state)
      (hpast : ∀ i, c.place ≤ i → i < c'.place → Discoveries.Passed ps d c.state i) :
    Stride ps d c (d, c')
  | store (hlook : c.look = .exchanging) (hslot : d.slot c.place = Hash.noFingerprint) :
    Stride ps d c (⟨d.slots.set c.place c.fp, d.count⟩, { c with look := .counting })
  | count (hlook : c.look = .counting) :
    Stride ps d c (⟨d.slots, d.count + 1⟩, { c with reported := c.place :: c.reported }.advance)

theorem Stride.advance (hlook : c.look ≠ .counting) (hpast : Discoveries.Passed ps d c.state c.place) :
    Stride ps d c (d, c.advance) := by
  refine .quiet hlook (by simp [Call.advance]) rfl rfl rfl (by simp [Call.advance]) fun i hle hlt => ?_
  rwa [Nat.le_antisymm (Nat.le_of_lt_succ hlt) hle]

theorem Stride.stay {c' : Call σ} (hlook : c.look ≠ .counting) (hlook' : c'.look ≠ .counting) (hstate : c'.state = c.state)
    (hfp : c'.fp = c.fp) (hreported : c'.reported = c.reported) (hplace : c'.place = c.place)
    (hres : c'.look = .exchanging → c'.fault = none ∧ ∃ p, ps[c'.place]? = some p ∧ p.ResolvedBy c'.state) :
    Stride ps d c (d, c') :=
  .quiet hlook hlook' hstate hfp hreported hres fun _ hle hlt => absurd (hplace ▸ hlt) (Nat.not_lt.2 hle)

theorem next_stride (ps : List (Property σ)) (d : Discoveries) (c : Call σ) : Stride ps d c (c.next ps d) := by
  by_cases hend : c.Ended ps
  · rw [next_of_ended hend]
    exact .rest
  · rw [Call.Ended, not_or, not_not, Nat.not_le] at hend
    obtain ⟨hf, hlt⟩ := hend
    have hp := List.getElem?_eq_getElem hlt
    have hunique : ∀ {q}, ps[c.place]? = some q → q = ps[c.place] := by
      intro q hq
      rw [hp] at hq
      exact (Option.some.inj hq).symm
    cases hlook : c.look with
    | loading =>
      rw [next_loading hf hp hlook]
      split
      · exact .stay (by simp [hlook]) (by simp) rfl rfl rfl rfl (by simp)
      · rename_i hslot
        exact .advance (by simp [hlook]) fun _ _ => Or.inl hslot
    | testing =>
      cases hc : ps[c.place].condition c.state with
      | error f =>
        rw [next_raises hf hp hlook d hc]
        exact .stay (by simp [hlook]) (by simp [hlook]) rfl rfl rfl rfl (by simp [hlook])
      | ok holds =>
        rw [next_testing hf hp hlook d hc]
        split
        · rename_i hres
          exact .stay (by simp [hlook]) (by simp) rfl rfl rfl rfl fun _ => ⟨hf, _, hp, holds, hc, hres⟩
        · rename_i hres
          refine .advance (by simp [hlook]) fun q hq => Or.inr ?_
          rw [hunique hq]
          exact ⟨holds, hc, by simpa using hres⟩
    | exchanging =>
      rw [next_exchanging hf hp hlook]
      split
      · rename_i hslot
        exact .store hlook hslot
      · rename_i hslot
        exact .advance (by simp [hlook]) fun _ _ => Or.inl hslot
    | counting =>
      rw [next_counting hf hp hlook]
      exact .count hlook

theorem Stride.grows {r : Discoveries × Call σ} (h : Stride ps d c r) : Discoveries.Grows d r.1 := by
  cases h with
  | rest | quiet => exact .refl d
  | count => exact ⟨rfl, fun _ _ => rfl⟩
  | store _ hslot =>
    refine ⟨List.length_set, fun i hi => ?_⟩
    rw [Discoveries.slot_set, if_neg]
    rintro ⟨rfl, -⟩
    exact hi hslot

/-! ## Each discovery is claimed once -/

def filled (d : Discoveries) (i : Nat) : Nat := if d.slot i = Hash.noFingerprint then 0 else 1

theorem filled_set {j n : Nat} {fp : Fingerprint} (hlt : j < d.slots.length) (hslot : d.slot j = Hash.noFingerprint)
    (hfp : fp ≠ Hash.noFingerprint) (i : Nat) :
    filled ⟨d.slots.set j fp, n⟩ i = filled d i + if j = i then 1 else 0 := by
  unfold filled
  rw [Discoveries.slot_set]
  by_cases hij : j = i
  · subst hij
    simp [hlt, hslot, hfp]
  · simp [hij]

/-- What holds of discoveries and calls between any two steps. -/
structure Fair (ps : List (Property σ)) (inputs : List (σ × Fingerprint)) (s : Contest σ) : Prop where
  length : s.discoveries.slots.length = ps.length
  inputs : s.calls.map (fun c => (c.state, c.fp)) = inputs
  resolves : ∀ c ∈ s.calls, c.look = .exchanging ∨ c.look = .counting →
    c.fault = none ∧ ∃ p, ps[c.place]? = some p ∧ p.ResolvedBy c.state
  past : ∀ c ∈ s.calls, ∀ i < c.place, Discoveries.Passed ps s.discoveries c.state i
  once : ∀ i, (s.calls.map (Call.claims i)).sum = filled s.discoveries i
  backed : ∀ c ∈ s.calls, ∀ i, 0 < c.claims i →
    s.discoveries.slot i = c.fp ∧ ∃ p, ps[i]? = some p ∧ p.ResolvedBy c.state
  counted : s.discoveries.count + (s.calls.map Call.owes).sum = s.discoveries.slots.countP (· ≠ Hash.noFingerprint)

theorem fair_start (ps : List (Property σ)) (inputs : List (σ × Fingerprint)) : Fair ps inputs (start ps inputs) := by
  have hcalls : ∀ c ∈ (start ps inputs).calls, c.look = .loading ∧ c.place = 0 ∧ ∀ i, c.claims i = 0 := by
    intro c hc
    obtain ⟨x, -, rfl⟩ := List.mem_map.1 hc
    exact ⟨rfl, rfl, fun i => rfl⟩
  have hslot : ∀ i, (start ps inputs).discoveries.slot i = Hash.noFingerprint := Discoveries.slot_none _
  refine ⟨List.length_replicate, ?_, fun c hc hlook => ?_, fun c hc i hlt => ?_, fun i => ?_, fun c hc i hpos => ?_, ?_⟩
  · rw [start, List.map_map]
    exact List.map_id inputs
  · rw [(hcalls c hc).1] at hlook
    simp at hlook
  · rw [(hcalls c hc).2.1] at hlt
    cases hlt
  · rw [filled, if_pos (hslot i)]
    refine List.sum_eq_zero fun n hn => ?_
    obtain ⟨c, hc, rfl⟩ := List.mem_map.1 hn
    exact (hcalls c hc).2.2 i
  · rw [(hcalls c hc).2.2 i] at hpos
    cases hpos
  · have hnone : ((start ps inputs).calls.map Call.owes).sum = 0 := by
      refine List.sum_eq_zero fun n hn => ?_
      obtain ⟨c, hc, rfl⟩ := List.mem_map.1 hn
      simp [Call.owes, hcalls c hc]
    rw [hnone]
    exact Discoveries.counted_none _

theorem Fair.fp_ne (h : Fair ps inputs s) (hfps : ∀ x ∈ inputs, x.2 ≠ Hash.noFingerprint) (hc : c ∈ s.calls) :
    c.fp ≠ Hash.noFingerprint := by
  apply hfps (c.state, c.fp)
  rw [← h.inputs]
  exact List.mem_map_of_mem hc

/-- A step of one call: what it claims is what it stores. -/
theorem Fair.set (h : Fair ps inputs s) (hfps : ∀ x ∈ inputs, x.2 ≠ Hash.noFingerprint) {k : Nat}
    (hk : s.calls[k]? = some c) (hgrows : Discoveries.Grows s.discoveries d') (hstate : c'.state = c.state)
    (hfp : c'.fp = c.fp) (hres : c'.look = .exchanging ∨ c'.look = .counting →
      c'.fault = none ∧ ∃ p, ps[c'.place]? = some p ∧ p.ResolvedBy c'.state)
    (hpast : ∀ i, c.place ≤ i → i < c'.place → Discoveries.Passed ps d' c.state i)
    (hclaims : ∀ i, c'.claims i + filled s.discoveries i = c.claims i + filled d' i)
    (hnew : ∀ i, c.claims i < c'.claims i → d'.slot i = c.fp ∧ ∃ p, ps[i]? = some p ∧ p.ResolvedBy c.state)
    (hcounted : d'.count + c'.owes + s.discoveries.slots.countP (· ≠ Hash.noFingerprint) =
      s.discoveries.count + c.owes + d'.slots.countP (· ≠ Hash.noFingerprint)) :
    Fair ps inputs ⟨d', s.calls.set k c'⟩ := by
  have hc := List.mem_of_getElem? hk
  have hold : ∀ x ∈ s.calls, ∀ i, 0 < x.claims i → d'.slot i = x.fp ∧ ∃ p, ps[i]? = some p ∧ p.ResolvedBy x.state := by
    intro x hx i hpos
    obtain ⟨hslot, hbacked⟩ := h.backed x hx i hpos
    have hne : s.discoveries.slot i ≠ Hash.noFingerprint := by
      rw [hslot]
      exact h.fp_ne hfps hx
    exact ⟨(hgrows.2 i hne).trans hslot, hbacked⟩
  have hpassed : ∀ x ∈ s.calls, ∀ i < x.place, Discoveries.Passed ps d' x.state i := by
    intro x hx i hlt p hp
    rcases h.past x hx i hlt p hp with hne | hopen
    · exact Or.inl (by rwa [hgrows.2 i hne])
    · exact Or.inr hopen
  refine ⟨hgrows.1.trans h.length, ?_, fun x hx hlook => ?_, fun x hx i hlt => ?_, fun i => ?_, fun x hx i hpos => ?_, ?_⟩
  · rw [List.map_set, hstate, hfp, ← h.inputs]
    exact map_set_self _ hk
  · rcases List.mem_or_eq_of_mem_set hx with hx | rfl
    · exact h.resolves x hx hlook
    · exact hres hlook
  · rcases List.mem_or_eq_of_mem_set hx with hx | rfl
    · exact hpassed x hx i hlt
    · rw [hstate]
      by_cases hle : c.place ≤ i
      · exact hpast i hle hlt
      · exact hpassed c hc i (Nat.lt_of_not_le hle)
  · have hsum := sum_map_set (Call.claims i) hk c'
    have honce := h.once i
    have hone := hclaims i
    dsimp only
    omega
  · rcases List.mem_or_eq_of_mem_set hx with hx | rfl
    · exact hold x hx i hpos
    · -- what the call claims anew is what was just stored, the rest it has claimed before
      rw [hfp, hstate]
      by_cases hlt : c.claims i < x.claims i
      · exact hnew i hlt
      · exact hold c hc i (by omega)
  · have hsum := sum_map_set Call.owes hk c'
    have hcount := h.counted
    dsimp only
    omega

theorem Fair.quiet (h : Fair ps inputs s) (hfps : ∀ x ∈ inputs, x.2 ≠ Hash.noFingerprint) {k : Nat}
    (hk : s.calls[k]? = some c) (hlook : c.look ≠ .counting) (hlook' : c'.look ≠ .counting) (hstate : c'.state = c.state)
    (hfp : c'.fp = c.fp) (hreported : c'.reported = c.reported)
    (hres : c'.look = .exchanging → c'.fault = none ∧ ∃ p, ps[c'.place]? = some p ∧ p.ResolvedBy c'.state)
    (hpast : ∀ i, c.place ≤ i → i < c'.place → Discoveries.Passed ps s.discoveries c.state i) :
    Fair ps inputs ⟨s.discoveries, s.calls.set k c'⟩ := by
  have hclaims : ∀ i, c'.claims i = c.claims i := by
    intro i
    simp [Call.claims, hlook, hlook', hreported]
  have howes : c'.owes = c.owes := by simp [Call.owes, hlook, hlook']
  apply h.set hfps hk (.refl _) hstate hfp (fun hor => hres (hor.resolve_right hlook')) hpast
  · intro i
    rw [hclaims]
  · intro i hlt
    rw [hclaims] at hlt
    omega
  · rw [howes]

theorem Fair.store (h : Fair ps inputs s) (hfps : ∀ x ∈ inputs, x.2 ≠ Hash.noFingerprint) {k : Nat}
    (hk : s.calls[k]? = some c) (hlook : c.look = .exchanging) (hslot : s.discoveries.slot c.place = Hash.noFingerprint) :
    Fair ps inputs
      ⟨⟨s.discoveries.slots.set c.place c.fp, s.discoveries.count⟩, s.calls.set k { c with look := .counting }⟩ := by
  have hc := List.mem_of_getElem? hk
  have hne := h.fp_ne hfps hc
  have hstride : Stride ps s.discoveries c _ := .store hlook hslot
  obtain ⟨hfault, p, hp, hres⟩ := h.resolves c hc (Or.inl hlook)
  have hlt : c.place < s.discoveries.slots.length := by
    rw [h.length]
    exact (List.getElem?_eq_some_iff.1 hp).1
  have hclaims : ∀ i, ({ c with look := .counting } : Call σ).claims i = c.claims i + if c.place = i then 1 else 0 := by
    intro i
    simp [Call.claims, hlook]
  have howes : ({ c with look := .counting } : Call σ).owes = c.owes + 1 := by simp [Call.owes, hlook]
  refine h.set hfps hk hstride.grows rfl rfl (fun _ => ⟨hfault, p, hp, hres⟩) ?_ ?_ ?_ ?_
  · intro i hle hlt'
    exact absurd hlt' (Nat.not_lt.2 hle)
  · intro i
    rw [hclaims, filled_set hlt hslot hne]
    omega
  · intro i hnew
    rw [hclaims] at hnew
    by_cases hi : c.place = i
    · subst hi
      exact ⟨by rw [Discoveries.slot_set, if_pos ⟨rfl, hlt⟩], p, hp, hres⟩
    · rw [if_neg hi] at hnew
      omega
  · dsimp only
    rw [howes, Discoveries.countP_slots_set hlt hslot hne]
    omega

theorem Fair.count (h : Fair ps inputs s) (hfps : ∀ x ∈ inputs, x.2 ≠ Hash.noFingerprint) {k : Nat}
    (hk : s.calls[k]? = some c) (hlook : c.look = .counting) :
    Fair ps inputs ⟨⟨s.discoveries.slots, s.discoveries.count + 1⟩,
      s.calls.set k { c with reported := c.place :: c.reported }.advance⟩ := by
  have hc := List.mem_of_getElem? hk
  have hclaims : ∀ i, ({ c with reported := c.place :: c.reported }.advance : Call σ).claims i = c.claims i := by
    intro i
    simp [Call.claims, Call.advance, hlook, List.count_cons]
  have howes : c.owes = ({ c with reported := c.place :: c.reported }.advance : Call σ).owes + 1 := by
    simp [Call.owes, Call.advance, hlook]
  have hclaimed : 0 < c.claims c.place := by simp [Call.claims, hlook]
  -- so the property that it goes past has a discovery, its own
  have hstored : s.discoveries.slot c.place ≠ Hash.noFingerprint := by
    rw [(h.backed c hc c.place hclaimed).1]
    exact h.fp_ne hfps hc
  refine h.set hfps hk ⟨rfl, fun _ _ => rfl⟩ rfl rfl (by simp [Call.advance]) ?_ ?_ ?_ ?_
  · intro i hle hlt p hp
    rw [← Nat.le_antisymm hle (Nat.le_of_lt_succ hlt)]
    exact Or.inl hstored
  · intro i
    rw [hclaims]
    rfl
  · intro i hnew
    rw [hclaims] at hnew
    omega
  · dsimp only
    omega

theorem Fair.step (h : Fair ps inputs s) (hfps : ∀ x ∈ inputs, x.2 ≠ Hash.noFingerprint) (k : Nat) :
    Fair ps inputs (s.step ps k) := by
  cases hk : s.calls[k]? with
  | none => rwa [step_of_none ps hk]
  | some c =>
    rw [step_eq ps hk]
    have hstride := next_stride ps s.discoveries c
    generalize c.next ps s.discoveries = r at hstride ⊢
    cases hstride with
    | rest =>
      obtain ⟨hlt, rfl⟩ := List.getElem?_eq_some_iff.1 hk
      rwa [List.set_getElem_self]
    | quiet hlook hlook' hstate hfp hreported hres hpast =>
      exact h.quiet hfps hk hlook hlook' hstate hfp hreported hres hpast
    | store hlook hslot => exact h.store hfps hk hlook hslot
    | count hlook => exact h.count hfps hk hlook

/-- **Whatever the interleaving**, each discovery is claimed by one call. -/
theorem fair_play (hfps : ∀ x ∈ inputs, x.2 ≠ Hash.noFingerprint) (h : Fair ps inputs s) (moves : List Nat) :
    Fair ps inputs (s.play ps moves) := by
  induction moves generalizing s with
  | nil => exact h
  | cons k moves ih => exact ih (h.step hfps k)

theorem grows_step (ps : List (Property σ)) (s : Contest σ) (k : Nat) :
    Discoveries.Grows s.discoveries (s.step ps k).discoveries := by
  cases hk : s.calls[k]? with
  | none =>
    rw [step_of_none ps hk]
    exact .refl _
  | some c =>
    rw [step_eq ps hk]
    exact (next_stride ps s.discoveries c).grows

theorem grows_play (ps : List (Property σ)) (s : Contest σ) (moves : List Nat) :
    Discoveries.Grows s.discoveries (s.play ps moves).discoveries := by
  induction moves generalizing s with
  | nil => exact .refl _
  | cons k moves ih => exact (grows_step ps s k).trans (ih _)

end Contest

end StateSpace
