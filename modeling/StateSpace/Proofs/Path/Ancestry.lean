import Mathlib.Data.List.Perm.Subperm
import StateSpace.Proofs.Path.Replay
import StateSpace.Proofs.Registry.History

/-!
# Following links back, whatever they are

The links need not come from a search: they may run in circles, or lead to a fingerprint that is linked to nothing.

* `Leads links x xs z` : following the links from `x` passes `xs` and comes to `z`; `ancestryFrom_leads` : so does the walk;
  `Leads.length_le` : if it passes nothing twice, it passes at most as many fingerprints as are linked;
* `Breaks`, `Returns`, `Roots` : the three ways in which following the links can end; `exists_ending` : one of them occurs;
* `ancestryFrom_of_breaks`, `ancestryFrom_of_returns`, `ancestryFrom_of_roots` : the answer in each case, found within any
  bound that exceeds the number of links;
* `reconstruct_classified` : what a reconstruction answers.
-/

namespace StateSpace.Path

variable {σ α : Type} {links : Predecessors}

/-- Following the links from the first fingerprint passes those of the list, in order, and comes to the last. -/
inductive Leads (links : Predecessors) : Fingerprint → List Fingerprint → Fingerprint → Prop
  | here {x : Fingerprint} : Leads links x [] x
  | back {x y z : Fingerprint} {xs : List Fingerprint} (hx : links.lookup x = some y) (h : Leads links y xs z) :
      Leads links x (x :: xs) z

/-- Following the links comes to a fingerprint that has none, and to no fingerprint twice. -/
def Breaks (links : Predecessors) (target f : Fingerprint) : Prop :=
  ∃ xs, Leads links target xs f ∧ (f :: xs).Nodup ∧ links.lookup f = none

/-- Following the links comes to a fingerprint that was passed before, and meets none that is linked to itself. -/
def Returns (links : Predecessors) (target f : Fingerprint) : Prop :=
  ∃ xs x, Leads links target xs x ∧ (x :: xs).Nodup ∧ links.lookup x = some f ∧ f ∈ xs

/-- Following the links comes to a fingerprint that is linked to itself, and to no fingerprint twice; read backwards, what
it comes to is the chain. -/
def Roots (links : Predecessors) (target : Fingerprint) (chain : List Fingerprint) : Prop :=
  ∃ xs x, Leads links target xs x ∧ (x :: xs).Nodup ∧ links.lookup x = some x ∧ chain = x :: xs.reverse

/-! ## Walks -/

section

variable {x y z : Fingerprint} {xs : List Fingerprint}

theorem Leads.start_mem (h : Leads links x xs z) : x ∈ z :: xs := by
  cases h with
  | here => exact List.mem_cons_self
  | back => exact List.mem_cons_of_mem _ List.mem_cons_self

theorem Leads.snoc (h : Leads links x xs y) (hy : links.lookup y = some z) : Leads links x (xs ++ [y]) z := by
  induction h with
  | here => exact .back hy .here
  | back hx _ ih => exact .back hx (ih hy)

theorem Leads.linked (h : Leads links x xs z) : ∀ y ∈ xs, links.lookup y ≠ none := by
  induction h with
  | here => exact fun y hy => absurd hy List.not_mem_nil
  | back hx _ ih =>
    refine List.forall_mem_cons.2 ⟨?_, ih⟩
    rw [hx]
    exact Option.some_ne_none _

/-- A walk that passes nothing twice passes at most as many fingerprints as are linked. -/
theorem Leads.length_le (hs : links.Sound) (h : Leads links x xs z) (hnd : (z :: xs).Nodup) : xs.length ≤ links.size := by
  have hkeys : xs ⊆ links.bindings.map Prod.fst := by
    intro y hy
    by_contra hno
    exact h.linked y hy (hs.lookup_eq_none_iff.2 hno)
  have hle := (List.Nodup.subperm (List.nodup_cons.1 hnd).2 hkeys).length_le
  rwa [List.length_map, ← hs.size_eq] at hle

/-- The walk goes the way that the links lead, and takes up what it passes. -/
theorem ancestryFrom_leads (h : Leads links x xs z) (hnd : (z :: xs).Nodup) (fuel : Nat) {seen : List Fingerprint}
    (hseen : ∀ y ∈ xs, y ∉ seen) :
    ancestryFrom links (xs.length + fuel) seen x = ancestryFrom links fuel (xs.reverse ++ seen) z := by
  induction h generalizing seen with
  | here => rw [List.length_nil, Nat.zero_add, List.reverse_nil, List.nil_append]
  | @back x y z xs hx h ih =>
    have hswap : x ∉ z :: xs ∧ (z :: xs).Nodup := List.nodup_cons.1 ((List.Perm.swap x z xs).nodup hnd)
    obtain ⟨hnew, hrest⟩ := List.forall_mem_cons.1 hseen
    have hne : y ≠ x := by
      rintro rfl
      exact hswap.1 h.start_mem
    have hfresh : ∀ w ∈ xs, w ∉ x :: seen := by
      intro w hw hmem
      rcases List.mem_cons.1 hmem with rfl | hmem
      · exact hswap.1 (List.mem_cons_of_mem _ hw)
      · exact hrest w hw hmem
    rw [List.length_cons, Nat.add_right_comm, ancestryFrom, if_neg hnew, hx]
    dsimp only
    rw [if_neg hne, ih hswap.2 hfresh, List.reverse_cons, List.append_assoc]
    rfl

end

/-! ## The three endings -/

section

variable {target f : Fingerprint} {fuel : Nat}

/-- Any bound above the number of links lets the walk come to where they lead, with a step left. -/
theorem Leads.ancestryFrom_at (hs : links.Sound) {xs : List Fingerprint} {x : Fingerprint} (h : Leads links target xs x)
    (hnd : (x :: xs).Nodup) (hfuel : links.size < fuel) :
    x ∉ xs.reverse ∧ ∃ k, ancestryFrom links fuel [] target = ancestryFrom links (k + 1) xs.reverse x := by
  refine ⟨?_, ?_⟩
  · rw [List.mem_reverse]
    exact (List.nodup_cons.1 hnd).1
  · have hle := h.length_le hs hnd
    obtain ⟨k, rfl⟩ : ∃ k, fuel = xs.length + (k + 1) := ⟨fuel - xs.length - 1, by omega⟩
    refine ⟨k, ?_⟩
    rw [ancestryFrom_leads h hnd _ fun y _ => List.not_mem_nil, List.append_nil]

theorem ancestryFrom_of_breaks (hs : links.Sound) (h : Breaks links target f) (hfuel : links.size < fuel) :
    ancestryFrom links fuel [] target = .error (.unknown f) := by
  obtain ⟨xs, hwalk, hnd, hf⟩ := h
  obtain ⟨hnew, k, hk⟩ := hwalk.ancestryFrom_at hs hnd hfuel
  rw [hk, ancestryFrom, if_neg hnew, hf]

theorem ancestryFrom_of_returns (hs : links.Sound) (h : Returns links target f) (hfuel : links.size < fuel) :
    ancestryFrom links fuel [] target = .error (.cycle f) := by
  obtain ⟨xs, x, hwalk, hnd, hx, hf⟩ := h
  obtain ⟨hnew, k, hk⟩ := hwalk.ancestryFrom_at hs hnd hfuel
  have hne : f ≠ x := by
    rintro rfl
    exact hnew (List.mem_reverse.2 hf)
  rw [hk, ancestryFrom, if_neg hnew, hx]
  dsimp only
  rw [if_neg hne]
  -- the walk is back at `f`, whether or not it could go on
  cases k with
  | zero => rfl
  | succ k =>
    rw [ancestryFrom, if_pos]
    exact List.mem_cons_of_mem _ (List.mem_reverse.2 hf)

theorem ancestryFrom_of_roots (hs : links.Sound) {chain : List Fingerprint} (h : Roots links target chain)
    (hfuel : links.size < fuel) : ancestryFrom links fuel [] target = .ok chain := by
  obtain ⟨xs, x, hwalk, hnd, hx, rfl⟩ := h
  obtain ⟨hnew, k, hk⟩ := hwalk.ancestryFrom_at hs hnd hfuel
  rw [hk, ancestryFrom, if_neg hnew, hx]
  dsimp only
  rw [if_pos rfl]

/-- A walk that has passed nothing twice ends, as it can only go on to fingerprints that it has not passed. -/
theorem Leads.ends (hs : links.Sound) {xs : List Fingerprint} {x : Fingerprint} (h : Leads links target xs x)
    (hnd : (x :: xs).Nodup) :
    (∃ f, Breaks links target f) ∨ (∃ f, Returns links target f) ∨ ∃ chain, Roots links target chain := by
  obtain ⟨n, hn⟩ : ∃ n, links.size < xs.length + n := ⟨links.size + 1, by omega⟩
  induction n generalizing xs x with
  | zero =>
    have hle := h.length_le hs hnd
    omega
  | succ n ih =>
    cases hx : links.lookup x with
    | none => exact Or.inl ⟨x, xs, h, hnd, hx⟩
    | some y =>
      by_cases hy : y ∈ x :: xs
      · right
        rcases List.mem_cons.1 hy with rfl | hmem
        · exact Or.inr ⟨_, xs, y, h, hnd, hx, rfl⟩
        · exact Or.inl ⟨y, xs, x, h, hnd, hx, hmem⟩
      · refine ih (h.snoc hx) ?_ ?_
        · refine List.nodup_cons.2 ⟨?_, ?_⟩
          · rwa [(List.perm_append_singleton x xs).mem_iff]
          · exact (List.perm_append_singleton x xs).symm.nodup hnd
        · rw [List.length_append, List.length_singleton]
          omega

theorem exists_ending (hs : links.Sound) (target : Fingerprint) :
    (∃ f, Breaks links target f) ∨ (∃ f, Returns links target f) ∨ ∃ chain, Roots links target chain :=
  Leads.ends hs .here (List.nodup_singleton target)

/-- No bound above the number of links is felt. -/
theorem ancestryFrom_eq_ancestry (hs : links.Sound) (target : Fingerprint) (hfuel : links.size < fuel) :
    ancestryFrom links fuel [] target = ancestry links target := by
  have hlt := Nat.lt_succ_self links.size
  rcases exists_ending hs target with ⟨f, hf⟩ | ⟨f, hf⟩ | ⟨chain, hc⟩
  · rw [ancestry, ancestryFrom_of_breaks hs hf hfuel, ancestryFrom_of_breaks hs hf hlt]
  · rw [ancestry, ancestryFrom_of_returns hs hf hfuel, ancestryFrom_of_returns hs hf hlt]
  · rw [ancestry, ancestryFrom_of_roots hs hc hfuel, ancestryFrom_of_roots hs hc hlt]

theorem ancestry_eq_unknown_iff (hs : links.Sound) : ancestry links target = .error (.unknown f) ↔ Breaks links target f := by
  have hlt := Nat.lt_succ_self links.size
  refine ⟨fun h => ?_, fun h => ancestryFrom_of_breaks hs h hlt⟩
  rcases exists_ending hs target with ⟨f', hf⟩ | ⟨f', hf⟩ | ⟨chain, hc⟩
  · cases h.symm.trans (ancestryFrom_of_breaks hs hf hlt)
    exact hf
  · cases h.symm.trans (ancestryFrom_of_returns hs hf hlt)
  · cases h.symm.trans (ancestryFrom_of_roots hs hc hlt)

theorem ancestry_eq_cycle_iff (hs : links.Sound) : ancestry links target = .error (.cycle f) ↔ Returns links target f := by
  have hlt := Nat.lt_succ_self links.size
  refine ⟨fun h => ?_, fun h => ancestryFrom_of_returns hs h hlt⟩
  rcases exists_ending hs target with ⟨f', hf⟩ | ⟨f', hf⟩ | ⟨chain, hc⟩
  · cases h.symm.trans (ancestryFrom_of_breaks hs hf hlt)
  · cases h.symm.trans (ancestryFrom_of_returns hs hf hlt)
    exact hf
  · cases h.symm.trans (ancestryFrom_of_roots hs hc hlt)

end

/-! ## Reconstruction -/

theorem reconstruct_of_error {m : Model σ α} {target : Fingerprint} {e : Error} (h : ancestry links target = .error e) :
    reconstruct m links target = .error e := by
  rw [reconstruct, h]
  rfl

theorem reconstruct_of_roots (m : Model σ α) (hs : links.Sound) {target : Fingerprint} {chain : List Fingerprint}
    (h : Roots links target chain) : reconstruct m links target = ofFingerprints m chain := by
  rw [reconstruct, ancestry, ancestryFrom_of_roots hs h (Nat.lt_succ_self _), ok_bind]

/-- The errors of the walk are those of a reconstruction: replaying the chain raises others. -/
theorem reconstruct_eq_error_iff (m : Model σ α) {target : Fingerprint} {e : Error} (he : ∀ n, e ≠ .notARun n)
    (hf : ∀ f, e ≠ .fault f) : reconstruct m links target = .error e ↔ ancestry links target = .error e := by
  refine ⟨fun h => ?_, reconstruct_of_error⟩
  cases hanc : ancestry links target with
  | error e' =>
    cases h.symm.trans (reconstruct_of_error hanc)
    rfl
  | ok chain =>
    rw [reconstruct, hanc, ok_bind, ofFingerprints] at h
    split at h
    · cases h
      exact absurd rfl (hf _)
    · cases h
      exact absurd rfl (he _)
    · cases h

/-- **What a reconstruction answers**, for any links that a registry can hold and any target: a run, or which of the
three errors, told by where following the links comes to. -/
theorem reconstruct_classified (m : Model σ α) (hm : m.Faultless) (shards capacity : Nat)
    (requests : List (Registry.Request Fingerprint Fingerprint)) (links : Predecessors)
    (hlinks : links = (Registry.new shards capacity).served requests) (target : Fingerprint) :
    (∀ fuel, links.size < fuel → ancestryFrom links fuel [] target = ancestry links target) ∧
    (∀ f, reconstruct m links target = .error (.unknown f) ↔ Breaks links target f) ∧
    (∀ f, reconstruct m links target = .error (.cycle f) ↔ Returns links target f) ∧
    ((∀ f, ¬Breaks links target f) → (∀ f, ¬Returns links target f) → ∃ chain, Roots links target chain ∧
      ((∃ p, replay m chain = .ok (some p) ∧ reconstruct m links target = .ok p ∧ p.fingerprints m = chain) ∨
        replay m chain = .ok none ∧ reconstruct m links target = .error (.notARun chain.length))) ∧
    ∀ (f : Fingerprint) (n : Nat), (Error.unknown f).message = s!"Path reconstruction failed: unknown fingerprint {f}" ∧
      (Error.cycle f).message = s!"Path reconstruction failed: predecessor cycle at fingerprint {f}" ∧
      (Error.notARun n).message = s!"Path reconstruction failed: fingerprint chain of length {n} is not a run of the model" := by
  have hs : links.Sound := by
    rw [hlinks]
    exact (Registry.tracks_served shards capacity requests).sound
  refine ⟨fun fuel => ancestryFrom_eq_ancestry hs target, fun f => ?_, fun f => ?_, fun hbreaks hreturns => ?_,
    fun f n => ⟨rfl, rfl, rfl⟩⟩
  · rw [reconstruct_eq_error_iff m (by simp) (by simp), ancestry_eq_unknown_iff hs]
  · rw [reconstruct_eq_error_iff m (by simp) (by simp), ancestry_eq_cycle_iff hs]
  · rcases exists_ending hs target with ⟨f, hf⟩ | ⟨f, hf⟩ | ⟨chain, hc⟩
    · exact absurd hf (hbreaks f)
    · exact absurd hf (hreturns f)
    · refine ⟨chain, hc, ?_⟩
      rw [reconstruct_of_roots m hs hc]
      obtain ⟨found, hfound⟩ := replay_ok hm chain
      cases found with
      | none => exact Or.inr ⟨hfound, ofFingerprints_of_replay hfound⟩
      | some p => exact Or.inl ⟨p, hfound, ofFingerprints_of_replay hfound, (replay_eq_some_iff.1 hfound).2⟩

/-- Links of four kinds: to a state of the graph, into a circle that does not pass the start, to the reserved fingerprint,
and to itself where no initial state is. -/
def frayed : List (Registry.Request Fingerprint Fingerprint) :=
  [.insert (detours.model.fingerprint 0) (detours.model.fingerprint 0),
    .insert (detours.model.fingerprint 2) (detours.model.fingerprint 0),
    .insert 100 101, .insert 101 102, .insert 102 101, .insert 50 Hash.noFingerprint, .insert 60 60]

def frayedLinks : Predecessors := (Registry.new 4 2).served frayed

theorem reconstruct_classified_frayed :
    Breaks frayedLinks 50 Hash.noFingerprint ∧ Returns frayedLinks 100 101 ∧
    (∃ p, Roots frayedLinks (detours.model.fingerprint 2) (p.fingerprints detours.model) ∧
      reconstruct detours.model frayedLinks (detours.model.fingerprint 2) = .ok p) ∧
    ∃ chain, Roots frayedLinks 60 chain ∧ replay detours.model chain = .ok none ∧
      reconstruct detours.model frayedLinks 60 = .error (.notARun chain.length) := by
  have hm : detours.model.Faultless := Graph.faultless (by decide +kernel)
  have hall := reconstruct_classified detours.model hm 4 2 frayed frayedLinks rfl
  have hrun : reconstruct detours.model frayedLinks (detours.model.fingerprint 2) = .ok ⟨0, [(1, 2)]⟩ := by decide +kernel
  have hlone : reconstruct detours.model frayedLinks 60 = .error (.notARun 1) := by decide +kernel
  refine ⟨((hall 50).2.1 _).1 (by decide +kernel), ((hall 100).2.2.1 _).1 (by decide +kernel), ?_, ?_⟩
  · obtain ⟨-, hunknown, hcycle, hroots, -⟩ := hall (detours.model.fingerprint 2)
    simp only [hrun, reduceCtorEq, false_iff] at hunknown hcycle
    obtain ⟨chain, hc, ⟨p, -, hp, rfl⟩ | ⟨-, hno⟩⟩ := hroots hunknown hcycle
    · exact ⟨p, hc, hp⟩
    · cases hrun.symm.trans hno
  · obtain ⟨-, hunknown, hcycle, hroots, -⟩ := hall 60
    simp only [hlone, Except.error.injEq, reduceCtorEq, false_iff] at hunknown hcycle
    obtain ⟨chain, hc, ⟨p, -, hp, -⟩ | hno⟩ := hroots hunknown hcycle
    · cases hlone.symm.trans hp
    · exact ⟨chain, hc, hno⟩

end StateSpace.Path
