import StateSpace.Proofs.Search.Coverage
import StateSpace.Proofs.Search.Lineage

/-!
# The links form a forest

* `Climb links fp chain` : following the links from `fp` passes the fingerprints of `chain`, the last of which is linked to
  itself; `Lineage.climb` : lineages are climbed;
* `Origins m s g` : the entries that workers expand were visited, and so were those that others were linked to; kept by
  every transition (`Reached.origins`);
* `DiscoveredAt.unique` : a fingerprint is discovered at one depth;
* `registry_forest` : from every registered fingerprint the links lead to an initial state, along states that were
  expanded, and the number of fingerprints passed is the depth.
-/

namespace StateSpace.Search

open StateSpace.Path

variable {σ α : Type} {m : Model σ α} {cfg : Config σ} {s s' : Search σ α} {g g' : Chronicle σ}

/-! ## Climbing -/

/-- Following the links from a fingerprint passes those of the list and ends at one that is linked to itself. -/
inductive Climb (links : Predecessors) : Fingerprint → List Fingerprint → Prop
  | root {fp : Fingerprint} (h : links.lookup fp = some fp) : Climb links fp [fp]
  | link {fp parent : Fingerprint} {chain : List Fingerprint} (h : links.lookup fp = some parent) (hne : parent ≠ fp)
      (hc : Climb links parent chain) : Climb links fp (fp :: chain)

theorem Lineage.climb {L ks : List (Link σ)} {l : Link σ} {links : Predecessors}
    (hlinks : ∀ x ∈ L, links.lookup x.entry.fp = some x.parent) (h : Lineage m L ks l) :
    Climb links l.entry.fp (((ks ++ [l]).map fun x => x.entry.fp).reverse) := by
  induction h with
  | @root l hl hi hp =>
    refine .root ?_
    rw [hlinks l hl, hp]
  | @child ks k l before after a hk hl hp hd hne hb ha hbefore ht ih =>
    have hkl : k.entry.fp ≠ l.entry.fp := hne k (List.mem_append_right _ (List.mem_singleton_self _))
    rw [List.map_append, List.reverse_append]
    refine .link ?_ hkl ih
    rw [hlinks l hl, hp]

theorem Lineage.init_of_self {L ks : List (Link σ)} {l : Link σ} (h : Lineage m L ks l) (hp : l.parent = l.entry.fp) :
    l.entry.state ∈ m.initStates := by
  cases h with
  | root _ hi => exact hi
  | @child ks k _ _ _ _ _ _ hpk _ hne =>
    exact absurd (hpk.symm.trans hp) (hne k (List.mem_append_right _ (List.mem_singleton_self _)))

theorem Lineage.self_of_depth {L ks : List (Link σ)} {l : Link σ} (h : Lineage m L ks l) (hd : l.entry.depth = 1) :
    l.parent = l.entry.fp := by
  cases h with
  | root _ _ hp => exact hp
  | child hk _ _ hdk =>
    have hpos := hk.depth_eq
    omega

theorem ofFingerprints_ne (fps : List Fingerprint) (fp : Fingerprint) :
    ofFingerprints m fps ≠ .error (.cycle fp) ∧ ofFingerprints m fps ≠ .error (.unknown fp) := by
  unfold ofFingerprints
  split <;> simp

/-! ## Origins -/

/-- An action leads from a state that was expanded, and has the first fingerprint, to one with the second. -/
def Sprung (m : Model σ α) (s : Search σ α) (parent fp : Fingerprint) : Prop :=
  ∃ t a u, m.Reachable t ∧ m.withinBoundary t = .ok true ∧ m.fingerprint t = parent ∧ (t, parent) ∈ s.visits ∧
    m.Step t a u ∧ m.fingerprint u = fp

/-- Where links come from: workers have visited what they expand, and whatever they have registered sprang from it. -/
structure Origins (m : Model σ α) (s : Search σ α) (g : Chronicle σ) : Prop where
  working : ∀ p ∈ s.workers, ∀ e ∈ p.visited, (e.state, e.fp) ∈ s.visits
  links : ∀ l ∈ g.ledger, l.parent = l.entry.fp ∨ Sprung m s l.parent l.entry.fp

theorem Sprung.mono (hv : s.visits ⊆ s'.visits) {parent fp : Fingerprint} (h : Sprung m s parent fp) :
    Sprung m s' parent fp := by
  obtain ⟨t, a, u, hr, hb, hfp, hmem, hstep⟩ := h
  exact ⟨t, a, u, hr, hb, hfp, hv hmem, hstep⟩

theorem Origins.same (h : Origins m s g) (hws : s'.workers = s.workers) (hv : s'.visits = s.visits)
    (hg : ∀ l ∈ g'.ledger, l ∈ g.ledger ∨ l.parent = l.entry.fp) : Origins m s' g' := by
  refine ⟨?_, fun l hl => ?_⟩
  · rw [hws, hv]
    exact h.working
  · rcases hg l hl with hl | hl
    · exact (h.links l hl).imp_right (Sprung.mono (by rw [hv]; exact List.Subset.refl _))
    · exact Or.inl hl

theorem Origins.set (h : Origins m s g) {w : Nat} {q : Phase σ α} (hws : s'.workers = s.workers.set w q)
    (hv : s.visits ⊆ s'.visits) (hg : g'.ledger = g.ledger) (hq : ∀ e ∈ q.visited, (e.state, e.fp) ∈ s'.visits) :
    Origins m s' g' := by
  refine ⟨fun p hp e he => ?_, fun l hl => ?_⟩
  · rw [hws] at hp
    rcases List.mem_or_eq_of_mem_set hp with hp | rfl
    · exact hv (h.working p hp e he)
    · exact hq e he
  · rw [hg] at hl
    exact (h.links l hl).imp_right (Sprung.mono hv)

theorem Origins.visited (h : Origins m s g) {w : Nat} {p : Phase σ α} (hw : s.workers[w]? = some p) :
    ∀ e ∈ p.visited, (e.state, e.fp) ∈ s.visits :=
  h.working p (List.mem_of_getElem? hw)

theorem Origins.frame (h : Origins m s g) {w : Nat} {p q : Phase σ α} (hw : s.workers[w]? = some p)
    (hws : s'.workers = s.workers.set w q) (hq : q.visited = p.visited) (hv : s'.visits = s.visits)
    (hg : g'.ledger = g.ledger) : Origins m s' g' := by
  refine h.set hws (by rw [hv]; exact List.Subset.refl _) hg ?_
  rw [hq, hv]
  exact h.visited hw

theorem Transition.origins {who : Option Nat} (hr : Reached m cfg s g) (ht : Transition m cfg who s g s' g')
    (h : Origins m s g) : Origins m s' g' := by
  have hrefl := List.Subset.refl s.visits
  cases ht with
  | log | rest | cancel | again => exact h.same rfl rfl fun l hl => Or.inl hl
  | plant =>
    refine h.same rfl rfl fun l hl => ?_
    rcases List.mem_cons.1 hl with rfl | hl
    · exact Or.inr rfl
    · exact Or.inl hl
  | start | take | wait | leave | complete | crash => exact h.set rfl hrefl rfl fun e he => by cases he
  | visit =>
    refine h.set rfl (List.subset_cons_self _ _) rfl fun e he => ?_
    rw [List.mem_singleton.1 he]
    exact List.mem_cons_self
  | present hw | outside hw | deep hw | enumerate hw | skip hw | known hw | judge hw | note hw | give hw =>
    exact h.frame hw rfl rfl rfl rfl
  | @discover w _ _ e a todo t registry hw hn hl =>
    have hset : Origins m { s with workers := s.workers.set w (.judging e ⟨t, m.fingerprint t, e.depth + 1⟩ todo) } g :=
      h.frame hw rfl rfl rfl rfl
    refine ⟨hset.working, fun l hmem => ?_⟩
    rcases List.mem_cons.1 hmem with rfl | hmem
    · -- the entry being expanded is registered, within the boundary, and was visited
      obtain ⟨k, hk, rfl⟩ := hr.custody.mem_ledger hw List.mem_cons_self
      have hvisit := h.visited hw k.entry (List.mem_singleton_self _)
      cases hr.expansions.acting hw (List.mem_singleton_self _) with
      | inside hb ha =>
        refine Or.inr ⟨k.entry.state, a, t, hr.grown.reachable hk, hb, (hr.grown.fp_eq hk).symm, hvisit, ⟨?_, hn⟩, rfl⟩
        exact ⟨_, ha, List.mem_append_right _ List.mem_cons_self⟩
    · exact hset.links l hmem

/-- **Links come from expansions.** -/
theorem Reached.origins (h : Reached m cfg s g) : Origins m s g := by
  induction h with
  | blank =>
    refine ⟨fun p hp e he => ?_, fun l hl => by cases hl⟩
    rw [List.eq_of_mem_replicate hp] at he
    cases he
  | next hr ht ih => exact ht.origins hr ih

/-! ## The depth of a discovery -/

theorem after_append (moves more : List Move) :
    after m cfg (moves ++ more) = (after m cfg moves).play m cfg more :=
  List.foldl_append

theorem lookup_after_append (hseed : (seed m cfg).1 = .ok ()) {moves : List Move} {fp parent : Fingerprint}
    (h : (after m cfg moves).registry.lookup fp = some parent) (more : List Move) :
    (after m cfg (moves ++ more)).registry.lookup fp = some parent := by
  obtain ⟨g, hr, -⟩ := after_reached hseed moves
  obtain ⟨g', hr', hsuf⟩ := hr.play more
  obtain ⟨l, hl, hfp⟩ := hr.lookup_eq_some.1 h
  rw [after_append]
  exact hr'.lookup_eq_some.2 ⟨l, hsuf.subset hl, hfp⟩

/-- A fingerprint is not registered before it is. -/
theorem lookup_before (hseed : (seed m cfg).1 = .ok ()) {moves more : List Move} {fp : Fingerprint}
    (h : (after m cfg (moves ++ more)).registry.lookup fp = none) : (after m cfg moves).registry.lookup fp = none := by
  cases hl : (after m cfg moves).registry.lookup fp with
  | none => rfl
  | some parent =>
    rw [lookup_after_append hseed hl more] at h
    cases h

/-- Two moves that register a fingerprint are the same move. -/
theorem registration_unique (hseed : (seed m cfg).1 = .ok ()) {fp : Fingerprint} {before before' rest rest' : List Move}
    {mv mv' : Move} (heq : before ++ mv :: rest = before' ++ mv' :: rest')
    (hnone : (after m cfg before).registry.lookup fp = none)
    (hsome : (after m cfg (before ++ [mv])).registry.lookup fp ≠ none)
    (hnone' : (after m cfg before').registry.lookup fp = none)
    (hsome' : (after m cfg (before' ++ [mv'])).registry.lookup fp ≠ none) : before = before' ∧ mv = mv' := by
  rcases List.append_eq_append_iff.1 heq with ⟨gap, rfl, hgap⟩ | ⟨gap, rfl, hgap⟩
  · cases gap with
    | nil =>
      cases hgap
      exact ⟨(List.append_nil _).symm, rfl⟩
    | cons x gap =>
      cases hgap
      rw [List.append_cons] at hnone'
      exact absurd (lookup_before hseed hnone') hsome
  · cases gap with
    | nil =>
      cases hgap
      exact ⟨List.append_nil _, rfl⟩
    | cons x gap =>
      cases hgap
      rw [List.append_cons] at hnone
      exact absurd (lookup_before hseed hnone) hsome'

/-- A fingerprint is discovered at one depth. -/
theorem DiscoveredAt.unique (hseed : (seed m cfg).1 = .ok ()) {moves : List Move} {fp : Fingerprint} {d d' : Nat}
    (h : DiscoveredAt m cfg moves fp d) (h' : DiscoveredAt m cfg moves fp d') : d = d' := by
  have hlate {before : List Move} (hnone : (after m cfg before).registry.lookup fp = none) :
      (after m cfg []).registry.lookup fp = none := by
    refine lookup_before hseed (?_ : (after m cfg ([] ++ before)).registry.lookup fp = none)
    exact hnone
  rcases h with ⟨hseeded, rfl⟩ | ⟨before, w, pick, rest, e, todo, rfl, hw, hnone, hsome, rfl⟩
  · rcases h' with ⟨-, rfl⟩ | ⟨before, w, pick, rest, e, todo, -, -, hnone, -, -⟩
    · rfl
    · exact absurd (hlate hnone) hseeded
  · rcases h' with ⟨hseeded, -⟩ | ⟨before', w', pick', rest', e', todo', heq, hw', hnone', hsome', rfl⟩
    · exact absurd (hlate hnone) hseeded
    · obtain ⟨rfl, hmv⟩ := registration_unique hseed heq hnone hsome hnone' hsome'
      cases hmv
      cases hw.symm.trans hw'
      rfl

/-! ## The forest -/

theorem Reached.climb (h : Reached m cfg s g) {l : Link σ} (hl : l ∈ g.ledger) : ∃ chain, Climb s.registry l.entry.fp chain ∧
    chain.Nodup ∧ chain.length - 1 < s.registry.size ∧ chain.length = l.entry.depth ∧
    ancestry s.registry l.entry.fp = .ok chain.reverse := by
  obtain ⟨ks, hks⟩ := h.grown.lineage hl
  have hlinks : ∀ x ∈ g.ledger, s.registry.lookup x.entry.fp = some x.parent := fun x hx =>
    h.lookup_eq_some.2 ⟨x, hx, rfl, rfl⟩
  have hlt : ks.length < s.registry.size := by
    have hlt := hks.length_lt
    rwa [← h.size_eq] at hlt
  refine ⟨_, hks.climb hlinks, List.nodup_reverse.2 hks.nodup, ?_, ?_, ?_⟩
  · rwa [List.length_reverse, List.length_map, List.length_append, List.length_singleton, Nat.add_sub_cancel]
  · rw [List.length_reverse, List.length_map, List.length_append, hks.depth_eq, List.length_singleton]
  · rw [ancestry, hks.ancestryFrom_eq hlinks (Nat.lt_succ_of_lt hlt) [] fun x _ => List.not_mem_nil, List.append_nil,
      List.reverse_reverse]

/-- The fingerprints that are linked to themselves are those of the initial states. -/
theorem lookup_self_iff (hseed : (seed m cfg).1 = .ok ()) (moves : List Move) (fp : Fingerprint) :
    (after m cfg moves).registry.lookup fp = some fp ↔ ∃ t ∈ m.initStates, m.fingerprint t = fp := by
  constructor
  · intro h
    obtain ⟨g, hr, -⟩ := after_reached hseed moves
    obtain ⟨l, hl, rfl, hp⟩ := hr.lookup_eq_some.1 h
    obtain ⟨ks, hks⟩ := hr.grown.lineage hl
    exact ⟨l.entry.state, hks.init_of_self hp, (hr.grown.fp_eq hl).symm⟩
  · rintro ⟨t, ht, rfl⟩
    obtain ⟨g, hs⟩ := seed_seeded hseed
    obtain ⟨l, hl, hfp⟩ := hs.roots t ht
    obtain ⟨ks, hks⟩ := hs.reached.grown.lineage hl
    have hself := hks.self_of_depth (hs.depth l hl)
    have hlook : (after m cfg []).registry.lookup (m.fingerprint t) = some (m.fingerprint t) :=
      hs.reached.lookup_eq_some.2 ⟨l, hl, hfp, hself.trans hfp⟩
    exact lookup_after_append hseed hlook moves

/-- **The links form a forest** rooted at the initial states, whatever the hash function and at any moment of any run,
so that reconstruction meets neither a cycle nor an unknown fingerprint. -/
theorem registry_forest (m : Model σ α) (cfg : Config σ) (hseed : (seed m cfg).1 = .ok ()) (moves : List Move) :
    (∀ fp, (after m cfg moves).registry.lookup fp ≠ none →
      ∃ chain, Climb (after m cfg moves).registry fp chain ∧ chain.Nodup ∧
        chain.length - 1 < (after m cfg moves).registry.size ∧
        ∀ depth, DiscoveredAt m cfg moves fp depth ↔ depth = chain.length) ∧
    (∀ fp, (after m cfg moves).registry.lookup fp = some fp ↔ ∃ t ∈ m.initStates, m.fingerprint t = fp) ∧
    (∀ fp parent, (after m cfg moves).registry.lookup fp = some parent → parent ≠ fp →
      Sprung m (after m cfg moves) parent fp) ∧
    ∀ fp, ((after m cfg moves).registry.lookup fp ≠ none ∨ ∃ i, (after m cfg moves).discoveries.get? i = some fp) →
      ∀ x, reconstruct m (after m cfg moves).registry fp ≠ .error (.cycle x) ∧
        reconstruct m (after m cfg moves).registry fp ≠ .error (.unknown x) := by
  obtain ⟨g, hr, hdisc⟩ := after_discoveredAt hseed moves
  have hmem {fp : Fingerprint} (h : (after m cfg moves).registry.lookup fp ≠ none) : ∃ l ∈ g.ledger, l.entry.fp = fp := by
    obtain ⟨parent, hparent⟩ := Option.ne_none_iff_exists'.1 h
    obtain ⟨l, hl, hfp, -⟩ := hr.lookup_eq_some.1 hparent
    exact ⟨l, hl, hfp⟩
  refine ⟨fun fp h => ?_, lookup_self_iff hseed moves, fun fp parent h hne => ?_, fun fp h => ?_⟩
  · obtain ⟨l, hl, rfl⟩ := hmem h
    obtain ⟨chain, hclimb, hnodup, hlt, hlen, -⟩ := hr.climb hl
    refine ⟨chain, hclimb, hnodup, hlt, fun depth => ⟨fun hd => ?_, fun hd => ?_⟩⟩
    · rw [hlen]
      exact hd.unique hseed (hdisc l hl)
    · rw [hd, hlen]
      exact hdisc l hl
  · obtain ⟨l, hl, rfl, rfl⟩ := hr.lookup_eq_some.1 h
    exact (hr.origins.links l hl).resolve_left hne
  · have hl : ∃ l ∈ g.ledger, l.entry.fp = fp := by
      rcases h with h | ⟨i, hi⟩
      · exact hmem h
      · obtain ⟨hslot, hne⟩ := Discoveries.get?_eq_some.1 hi
        obtain ⟨l, hl, hfp, -⟩ := hr.judgement.backed i (by rwa [hslot])
        exact ⟨l, hl, hfp.trans hslot⟩
    obtain ⟨l, hl, rfl⟩ := hl
    obtain ⟨chain, -, -, -, -, hanc⟩ := hr.climb hl
    rw [reconstruct, hanc, ok_bind]
    exact ofFingerprints_ne _

/-- Two initial states with one hash, which is also that of a state two steps away, among loops. -/
def tangle : Graph where
  init := [0, 4]
  fans := #[.edges [.state 0, .state 1], .edges [.state 2, .state 1, .state 3], .edges [.state 3], .edges [.state 0]]
  hashes := #[10, 11, 10, 13, 10]
  properties := [⟨"below three", .always, fun t => .ok (t < 3)⟩]

def tangleMoves : List Move := (List.replicate 18 [.work 0 0, .work 1 0]).flatten

theorem registry_forest_tangle :
    (after tangle.model pair tangleMoves).registry.lookup (tangle.model.fingerprint 3) =
      some (tangle.model.fingerprint 1) ∧
    (∃ chain, Climb (after tangle.model pair tangleMoves).registry (tangle.model.fingerprint 3) chain ∧ chain.Nodup ∧
      chain.length - 1 < (after tangle.model pair tangleMoves).registry.size ∧
      DiscoveredAt tangle.model pair tangleMoves (tangle.model.fingerprint 3) chain.length) ∧
    (after tangle.model pair tangleMoves).registry.lookup (tangle.model.fingerprint 2) =
      some (tangle.model.fingerprint 2) ∧
    Sprung tangle.model (after tangle.model pair tangleMoves) (tangle.model.fingerprint 1) (tangle.model.fingerprint 3) ∧
    ∃ fp, (after tangle.model pair tangleMoves).discoveries.get? 0 = some fp ∧
      ∀ x, reconstruct tangle.model (after tangle.model pair tangleMoves).registry fp ≠ .error (.cycle x) := by
  have hseed : (seed tangle.model pair).1 = .ok () := by decide +kernel
  have hlink : (after tangle.model pair tangleMoves).registry.lookup (tangle.model.fingerprint 3) =
      some (tangle.model.fingerprint 1) := by decide +kernel
  have hne : tangle.model.fingerprint 1 ≠ tangle.model.fingerprint 3 := by decide +kernel
  have hd : ∃ fp, (after tangle.model pair tangleMoves).discoveries.get? 0 = some fp :=
    Option.isSome_iff_exists.1 (by decide +kernel)
  obtain ⟨hchain, hroots, hlinks, hrec⟩ := registry_forest tangle.model pair hseed tangleMoves
  obtain ⟨chain, hclimb, hnodup, hlt, hdepth⟩ := hchain (tangle.model.fingerprint 3) (by rw [hlink]; simp)
  obtain ⟨fp, hfp⟩ := hd
  refine ⟨hlink, ⟨chain, hclimb, hnodup, hlt, (hdepth _).2 rfl⟩, ?_, hlinks _ _ hlink hne, fp, hfp, fun x => ?_⟩
  · exact (hroots _).2 ⟨0, List.mem_cons_self, by decide +kernel⟩
  · exact (hrec fp (Or.inr ⟨0, hfp⟩) x).1

end StateSpace.Search
