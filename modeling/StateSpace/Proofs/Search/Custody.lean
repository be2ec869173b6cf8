import Mathlib.Data.Fintype.Card
import StateSpace.Proofs.Search.Transition

/-!
# Every registered entry is somewhere, once

* `Reached m cfg s g` : a search that transitions lead to, with its chronicle;
* `Reached.bindings` : the registry holds the links of the ledger;
* `Custody s g` : each registered entry is queued, in a worker's hands, completed, or was in the hands of a worker that a
  fault ended; the pending count is the number of those queued, held and lost. Kept by every transition
  (`Reached.custody`), and the count never wraps, as there are fewer fingerprints than words.
-/

namespace StateSpace

variable {σ α : Type}

def Phase.entries (p : Phase σ α) : List (Entry σ) := p.held ++ p.fresh

def Link.binding (l : Link σ) : Fingerprint × Fingerprint := (l.entry.fp, l.parent)

namespace Search

/-- The searches that a search can become, from before its seeding on. -/
inductive Reached (m : Model σ α) (cfg : Config σ) : Search σ α → Chronicle σ → Prop
  | blank : Reached m cfg (blank m cfg) ⟨[], [], [], []⟩
  | next {who : Option Nat} {s s' : Search σ α} {g g' : Chronicle σ} :
    Reached m cfg s g → Transition m cfg who s g s' g' → Reached m cfg s' g'

variable {m : Model σ α} {cfg : Config σ} {s s' : Search σ α} {g g' : Chronicle σ}

/-! ## Shape -/

theorem Transition.workers {who : Option Nat} (h : Transition m cfg who s g s' g')
    (hw : s.frontier.workers = s.workers.length) : s'.frontier.workers = s'.workers.length := by
  cases h with
  | @take w pick _ _ _ p e theft f h hp hpop =>
    have hlt : w < s.frontier.workers := by
      rw [hw]
      exact (List.getElem?_eq_some_iff.1 h).1
    rw [List.length_set, (Frontier.pop_entry hlt hpop).2.workers, hw]
  | give h =>
    rw [Frontier.workers_append, List.length_set]
    exact hw
  | plant =>
    rw [Frontier.workers_seed]
    exact hw
  | log | rest | cancel | again => exact hw
  | _ =>
    rw [List.length_set]
    exact hw

theorem Reached.workers (h : Reached m cfg s g) : s.frontier.workers = s.workers.length := by
  induction h with
  | blank => simp [Search.blank]
  | next _ ht ih => exact ht.workers ih

theorem Transition.length_workers {who : Option Nat} (h : Transition m cfg who s g s' g') :
    s'.workers.length = s.workers.length := by
  cases h with
  | log | rest | cancel | again | plant => rfl
  | _ => exact List.length_set

theorem Reached.length_workers (h : Reached m cfg s g) : s.workers.length = max cfg.workers 1 := by
  induction h with
  | blank => simp [Search.blank]
  | next _ ht ih => rw [ht.length_workers, ih]

theorem Reached.worker_lt (h : Reached m cfg s g) {w : Nat} {p : Phase σ α} (hw : s.workers[w]? = some p) :
    w < s.frontier.workers := by
  rw [h.workers]
  exact (List.getElem?_eq_some_iff.1 hw).1

theorem Reached.sound (h : Reached m cfg s g) : s.registry.Sound := by
  induction h with
  | blank => exact Registry.sound_new _ _
  | next _ ht ih =>
    cases ht with
    | known _ _ _ hs | discover _ _ _ hs | again hs | plant _ _ _ hs => exact hs
    | _ => exact ih

/-- The registry holds the links of the ledger. -/
theorem Reached.bindings (h : Reached m cfg s g) : s.registry.bindings.Perm (g.ledger.map Link.binding) := by
  induction h with
  | blank => simp [Search.blank, Registry.empty]
  | next _ ht ih =>
    cases ht with
    | known _ _ _ _ hb | again _ hb => exact hb.trans ih
    | discover _ _ _ _ hb | plant _ _ _ _ hb => exact hb.trans (ih.cons _)
    | _ => exact ih

theorem Reached.nodup (h : Reached m cfg s g) : (g.ledger.map fun l => l.entry.fp).Nodup := by
  have hnd := (h.bindings.map Prod.fst).nodup_iff.1 h.sound.nodup
  rwa [List.map_map] at hnd

theorem Reached.size_eq (h : Reached m cfg s g) : s.generated = g.ledger.length := by
  rw [generated, h.sound.size_eq, h.bindings.length_eq, List.length_map]

/-- A fingerprint is found if and only if an entry in the ledger has it. -/
theorem Reached.lookup_eq_some (h : Reached m cfg s g) {fp parent : Fingerprint} :
    s.registry.lookup fp = some parent ↔ ∃ l ∈ g.ledger, l.entry.fp = fp ∧ l.parent = parent := by
  rw [h.sound.lookup_eq_some_iff, h.bindings.mem_iff, List.mem_map]
  simp only [Link.binding, Prod.mk.injEq]

theorem Reached.lookup_eq_none (h : Reached m cfg s g) {fp : Fingerprint} :
    s.registry.lookup fp = none ↔ ∀ l ∈ g.ledger, l.entry.fp ≠ fp := by
  rw [Option.eq_none_iff_forall_ne_some]
  constructor
  · intro hn l hl hfp
    exact hn l.parent (h.lookup_eq_some.2 ⟨l, hl, hfp, rfl⟩)
  · intro hn parent hp
    obtain ⟨l, hl, hfp, -⟩ := h.lookup_eq_some.1 hp
    exact hn l hl hfp

theorem Reached.fp_ne (h : Reached m cfg s g) {l : Link σ} (hl : l ∈ g.ledger) : l.entry.fp ≠ Hash.noFingerprint := by
  intro hfp
  have hsome := h.lookup_eq_some.2 ⟨l, hl, hfp, rfl⟩
  rw [Registry.lookup_reserved] at hsome
  cases hsome

theorem length_lt_of_nodup {l : List UInt64} (hnd : l.Nodup) (hne : (0 : UInt64) ∉ l) : l.length < 2 ^ 64 := by
  have hcons : (0 :: l).Nodup := List.nodup_cons.2 ⟨hne, hnd⟩
  have hinj : Function.Injective UInt64.toFin := fun a b hab => UInt64.toFin_inj.1 hab
  have hcard := (hcons.map hinj).length_le_card
  rw [Fintype.card_fin, List.length_map, List.length_cons] at hcard
  exact hcard

/-- There are fewer entries than words, as each has a fingerprint of its own and none has fingerprint 0. -/
theorem Reached.ledger_lt (h : Reached m cfg s g) : g.ledger.length < 2 ^ 64 := by
  have hlt := length_lt_of_nodup h.nodup (fun hmem => by
    obtain ⟨l, hl, hfp⟩ := List.mem_map.1 hmem
    exact h.fp_ne hl hfp)
  rwa [List.length_map] at hlt

/-! ## Custody -/

/-- Where the registered entries are. -/
structure Custody (s : Search σ α) (g : Chronicle σ) : Prop where
  places : (g.ledger.map Link.entry).Perm
    (s.frontier.entries ++ (s.workers.flatMap Phase.entries ++ (g.completed ++ (g.lost ++ g.dropped))))
  pending : s.frontier.pending.toNat =
    s.frontier.entries.length + ((s.workers.flatMap Phase.held).length + g.lost.length)
  dropped : g.dropped.length ≤ g.lost.length

theorem Custody.held_le (h : Custody s g) {w : Nat} {p : Phase σ α} (hw : s.workers[w]? = some p) :
    p.held.length ≤ s.frontier.pending.toNat := by
  have hset := (flatMap_set_perm Phase.held (.finished : Phase σ α) hw).length_eq
  have hp := h.pending
  rw [List.length_append, List.length_append, show (Phase.finished : Phase σ α).held.length = 0 from rfl] at hset
  omega

theorem Custody.length_eq (h : Custody s g) : g.ledger.length = s.frontier.entries.length +
    ((s.workers.flatMap Phase.entries).length + (g.completed.length + (g.lost.length + g.dropped.length))) := by
  have hlen := h.places.length_eq
  simpa only [List.length_append, List.length_map] using hlen

theorem length_held_add_fresh (ps : List (Phase σ α)) :
    (ps.flatMap Phase.entries).length = (ps.flatMap Phase.held).length + (ps.flatMap Phase.fresh).length := by
  induction ps with
  | nil => rfl
  | cons p ps ih =>
    simp only [List.flatMap_cons, List.length_append, ih, Phase.entries]
    omega

theorem toNat_add_one {x : UInt64} (h : x.toNat + 1 < 2 ^ 64) : (x + 1).toNat = x.toNat + 1 := by
  rw [UInt64.toNat_add, UInt64.toNat_one, Nat.mod_eq_of_lt h]

theorem toNat_sub_one {x : UInt64} (h : 1 ≤ x.toNat) : (x - 1).toNat = x.toNat - 1 :=
  UInt64.toNat_sub_of_le x 1 (by rw [UInt64.le_iff_toNat_le]; exact h)

theorem Custody.frame (h : Custody s g) {w : Nat} {p q : Phase σ α} (hw : s.workers[w]? = some p)
    (hws : s'.workers = s.workers.set w q) (hheld : q.held = p.held) (hfresh : q.fresh = p.fresh)
    (hf : s'.frontier.entries = s.frontier.entries) (hp : s'.frontier.pending = s.frontier.pending) :
    Custody s' g := by
  have hentries : q.entries = p.entries := by rw [Phase.entries, Phase.entries, hheld, hfresh]
  refine ⟨?_, ?_, h.dropped⟩
  · rw [hf, hws, flatMap_set_of_eq Phase.entries hw hentries]
    exact h.places
  · rw [hf, hp, hws, flatMap_set_of_eq Phase.held hw hheld]
    exact h.pending

theorem Custody.same (h : Custody s g) (hf : s'.frontier.entries = s.frontier.entries)
    (hp : s'.frontier.pending = s.frontier.pending) (hws : s'.workers = s.workers) : Custody s' g := by
  refine ⟨?_, ?_, h.dropped⟩
  · rw [hf, hws]
    exact h.places
  · rw [hf, hp, hws]
    exact h.pending

theorem held_of_idle {p : Phase σ α} (hp : p = .idle ∨ p = .waiting) : p.held = [] ∧ p.fresh = [] := by
  rcases hp with rfl | rfl
  · exact ⟨rfl, rfl⟩
  · exact ⟨rfl, rfl⟩

theorem Custody.take (h : Custody s g) {w : Nat} {p : Phase σ α} {e : Entry σ} {f : Frontier (Entry σ)}
    (hw : s.workers[w]? = some p) (hp : p.held = [] ∧ p.fresh = []) (hperm : s.frontier.entries.Perm (e :: f.entries))
    (hpend : f.pending = s.frontier.pending) (r : List Log.Record) :
    Custody { s with frontier := f, workers := s.workers.set w (.visiting e), records := r } g := by
  have hset := flatMap_set_perm Phase.entries (.visiting e : Phase σ α) hw
  have hheld := flatMap_set_perm Phase.held (.visiting e : Phase σ α) hw
  rw [Phase.entries, hp.1, hp.2] at hset
  rw [hp.1] at hheld
  refine ⟨?_, ?_, h.dropped⟩
  · classical
    rw [List.perm_iff_count]
    intro x
    have h1 := h.places.count_eq x
    have h2 := hset.count_eq x
    have h3 := hperm.count_eq x
    simp only [List.count_append, List.count_cons, List.count_nil, Phase.entries, Phase.held, Phase.fresh] at h1 h2 h3 ⊢
    omega
  · have h1 := h.pending
    have h2 := hheld.length_eq
    have h3 := hperm.length_eq
    simp only [List.length_append, List.length_cons, List.length_nil, Phase.held] at h2 h3 ⊢
    rw [hpend]
    omega

theorem Custody.complete (h : Custody s g) {w : Nat} {e : Entry σ} (hw : s.workers[w]? = some (.acting e [])) :
    Custody { s with frontier := s.frontier.complete, workers := s.workers.set w .idle }
      { g with completed := e :: g.completed } := by
  have hset := flatMap_set_perm Phase.entries (.idle : Phase σ α) hw
  have hheld := flatMap_set_perm Phase.held (.idle : Phase σ α) hw
  refine ⟨?_, ?_, h.dropped⟩
  · classical
    rw [List.perm_iff_count]
    intro x
    have h1 := h.places.count_eq x
    have h2 := hset.count_eq x
    have h3 : s.frontier.complete.entries = s.frontier.entries := rfl
    simp only [List.count_append, List.count_cons, List.count_nil, Phase.entries, Phase.held, Phase.fresh, h3] at h1 h2 ⊢
    omega
  · have h1 := h.pending
    have h2 := hheld.length_eq
    have h3 : s.frontier.complete.entries = s.frontier.entries := rfl
    have hone : 1 ≤ s.frontier.pending.toNat := h.held_le hw
    simp only [List.length_append, List.length_cons, List.length_nil, Phase.held, h3] at h2 ⊢
    rw [Frontier.complete, toNat_sub_one hone]
    omega

theorem Custody.discover (h : Custody s g) {w : Nat} {e child : Entry σ} {todo todo' : List α} {parent : Fingerprint}
    {registry : Predecessors} (hw : s.workers[w]? = some (.acting e todo)) :
    Custody { s with registry, workers := s.workers.set w (.judging e child todo') }
      { g with ledger := ⟨child, parent⟩ :: g.ledger } := by
  have hset := flatMap_set_perm Phase.entries (.judging e child todo' : Phase σ α) hw
  refine ⟨?_, ?_, h.dropped⟩
  · classical
    rw [List.perm_iff_count]
    intro x
    have h1 := h.places.count_eq x
    have h2 := hset.count_eq x
    simp only [List.count_append, List.count_cons, List.count_nil, Phase.entries, Phase.held, Phase.fresh,
      List.map_cons] at h1 h2 ⊢
    omega
  · have hheld := flatMap_set_of_eq Phase.held hw (show (Phase.judging e child todo' : Phase σ α).held = _ from rfl)
    simp only [hheld]
    exact h.pending

theorem Custody.give (hr : Reached m cfg s g) (h : Custody s g) {w : Nat} {e child : Entry σ} {todo : List α}
    (hw : s.workers[w]? = some (.pushing e child todo)) :
    Custody { s with frontier := s.frontier.announce.append w child, workers := s.workers.set w (.acting e todo) } g := by
  have hset := flatMap_set_perm Phase.entries (.acting e todo : Phase σ α) hw
  have hfresh := flatMap_set_perm Phase.fresh (.acting e todo : Phase σ α) hw
  have happ := Frontier.entries_append (f := s.frontier.announce) (hr.worker_lt hw) child
  have hann : s.frontier.announce.entries = s.frontier.entries := rfl
  rw [hann] at happ
  refine ⟨?_, ?_, h.dropped⟩
  · classical
    rw [List.perm_iff_count]
    intro x
    have h1 := h.places.count_eq x
    have h2 := hset.count_eq x
    have h3 := happ.count_eq x
    simp only [List.count_append, List.count_cons, List.count_nil, Phase.entries, Phase.held, Phase.fresh] at h1 h2 h3 ⊢
    omega
  · -- the entry to be pushed is registered and not counted yet, so counting it does not wrap
    have h1 := h.pending
    have h2 := hfresh.length_eq
    have h3 := happ.length_eq
    have h4 := h.length_eq
    have h5 := hr.ledger_lt
    have h6 := length_held_add_fresh s.workers
    have hheld := flatMap_set_of_eq Phase.held hw (show (Phase.acting e todo : Phase σ α).held = _ from rfl)
    simp only [List.length_append, List.length_cons, List.length_nil, Phase.fresh] at h2 h3
    simp only [hheld]
    show (s.frontier.pending + 1).toNat = _
    rw [toNat_add_one (by omega), h3]
    omega

theorem length_fresh_le (p : Phase σ α) : p.fresh.length ≤ p.held.length := by
  cases p <;> simp [Phase.fresh, Phase.held]

theorem Custody.crash (h : Custody s g) {w : Nat} {p : Phase σ α} {e : Entry σ} (hw : s.workers[w]? = some p)
    (hp : p.held = [e]) (hf : s'.frontier.entries = s.frontier.entries) (hpend : s'.frontier.pending = s.frontier.pending)
    (hws : s'.workers = s.workers.set w .finished) :
    Custody s' { g with lost := e :: g.lost, dropped := p.fresh ++ g.dropped } := by
  have hset := flatMap_set_perm Phase.entries (.finished : Phase σ α) hw
  have hheld := flatMap_set_perm Phase.held (.finished : Phase σ α) hw
  rw [Phase.entries, hp] at hset
  rw [hp] at hheld
  refine ⟨?_, ?_, ?_⟩
  · classical
    rw [List.perm_iff_count, hf, hws]
    intro x
    have h1 := h.places.count_eq x
    have h2 := hset.count_eq x
    simp only [List.count_append, List.count_cons, List.count_nil, Phase.entries, Phase.held,
      show (Phase.finished : Phase σ α).fresh = [] from rfl] at h1 h2 ⊢
    omega
  · have h1 := h.pending
    have h2 := hheld.length_eq
    rw [hf, hpend, hws]
    simp only [List.length_append, List.length_cons, List.length_nil,
      show (Phase.finished : Phase σ α).held = [] from rfl] at h2 ⊢
    omega
  · have h1 := h.dropped
    have h2 := length_fresh_le p
    rw [hp] at h2
    simp only [List.length_append, List.length_cons, List.length_nil] at h2 ⊢
    omega

theorem Custody.plant (hr : Reached m cfg s g) (h : Custody s g) {root : Entry σ} {parent : Fingerprint}
    (hs : ∀ l ∈ g.ledger, l.entry.fp ≠ root.fp) (hne : root.fp ≠ Hash.noFingerprint) {stop : Bool}
    (hf : s'.frontier = (s.frontier.flagged stop).seed root) (hws : s'.workers = s.workers) :
    Custody s' { g with ledger := ⟨root, parent⟩ :: g.ledger } := by
  have hpos : 0 < (s.frontier.flagged stop).workers := by
    show 0 < s.frontier.workers
    rw [hr.workers, hr.length_workers]
    omega
  have hseed := Frontier.entries_seed hpos root
  have hflag : (s.frontier.flagged stop).entries = s.frontier.entries := rfl
  rw [hflag] at hseed
  refine ⟨?_, ?_, h.dropped⟩
  · classical
    rw [List.perm_iff_count, hf, hws]
    intro x
    have h1 := h.places.count_eq x
    have h2 := hseed.count_eq x
    simp only [List.count_append, List.count_cons, List.map_cons] at h1 h2 ⊢
    omega
  · have h1 := h.pending
    have h2 := hseed.length_eq
    have h3 := h.length_eq
    have h4 := length_held_add_fresh s.workers
    have hlt : (root.fp :: g.ledger.map fun l => l.entry.fp).length < 2 ^ 64 := by
      refine length_lt_of_nodup (List.nodup_cons.2 ⟨?_, hr.nodup⟩) ?_
      · intro hmem
        obtain ⟨l, hl, hfp⟩ := List.mem_map.1 hmem
        exact hs l hl hfp
      · intro hmem
        rcases List.mem_cons.1 hmem with hzero | hmem
        · exact hne hzero.symm
        · obtain ⟨l, hl, hfp⟩ := List.mem_map.1 hmem
          exact hr.fp_ne hl hfp
    rw [List.length_cons, List.length_map] at hlt
    rw [List.length_cons] at h2
    rw [hf, hws, h2]
    show (s.frontier.pending + 1).toNat = _ + (_ + g.lost.length)
    rw [toNat_add_one (by omega)]
    omega

/-- **Every transition keeps custody.** -/
theorem Transition.custody {who : Option Nat} (hr : Reached m cfg s g) (ht : Transition m cfg who s g s' g')
    (h : Custody s g) : Custody s' g' := by
  cases ht with
  | log | rest | cancel | again => exact h.same rfl rfl rfl
  | start hw | visit hw | present hw | outside hw | deep hw | enumerate hw | skip hw | known hw | judge hw | note hw =>
    exact h.frame hw rfl rfl rfl rfl rfl
  | wait hw hp | leave hw hp =>
    rcases hp with rfl | rfl
    · exact h.frame hw rfl rfl rfl rfl rfl
    · exact h.frame hw rfl rfl rfl rfl rfl
  | @take w pick _ _ r p e theft f hw hp hpop =>
    obtain ⟨hperm, halike⟩ := Frontier.pop_entry (hr.worker_lt hw) hpop
    exact h.take hw (held_of_idle hp) hperm halike.pending r
  | complete hw => exact h.complete hw
  | discover hw => exact h.discover hw
  | give hw => exact h.give hr hw
  | crash hw hp => exact h.crash hw hp rfl rfl rfl
  | @plant _ _ _ _ state _ _ _ _ _ _ hl => exact h.plant hr (hr.lookup_eq_none.1 hl) (fingerprint_ne m state) rfl rfl

theorem Reached.custody (h : Reached m cfg s g) : Custody s g := by
  induction h with
  | blank =>
    have hnone (f : Phase σ α → List (Entry σ)) (hf : f .starting = []) (n : Nat) :
        (List.replicate n .starting).flatMap f = [] := by
      rw [List.flatMap_eq_nil_iff]
      intro p hp
      rw [List.eq_of_mem_replicate hp, hf]
    refine ⟨?_, ?_, Nat.le_refl _⟩
    · simp [Search.blank, Frontier.entries_new, hnone Phase.entries rfl]
    · simp only [Search.blank, Frontier.entries_new, hnone Phase.held rfl]
      rfl
  | next hr ht ih => exact ht.custody hr ih

end Search

end StateSpace
