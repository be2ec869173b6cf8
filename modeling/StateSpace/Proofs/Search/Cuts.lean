import StateSpace.Proofs.Search.Forest

/-!
# What the bound on the depth cuts

* `Config.Cuts cfg depth` : entries of this depth are not expanded;
* `Phase.growing` : the entry from which a worker registers what follows it;
* `Cutting m cfg s g` : nothing grows from an entry that is cut, and the search knows whether one within the boundary was;
  kept by every transition (`Reached.cutting`).
-/

namespace StateSpace

variable {σ α : Type}

/-- Entries of this depth are not expanded. -/
def Config.Cuts (cfg : Config σ) (depth : Nat) : Prop := 0 < cfg.maxDepth ∧ cfg.maxDepth ≤ depth

theorem Config.Cuts.mono {cfg : Config σ} {d d' : Nat} (h : cfg.Cuts d) (hd : d ≤ d') : cfg.Cuts d' := ⟨h.1, h.2.trans hd⟩

def Phase.growing : Phase σ α → List (Entry σ)
  | .acting e (_ :: _) | .judging e _ _ | .noting e _ _ _ | .pushing e _ _ => [e]
  | _ => []

theorem Phase.growing_acting (e : Entry σ) (todo : List α) : (Phase.acting e todo).growing ⊆ [e] := by
  cases todo with
  | nil => exact List.nil_subset _
  | cons a todo => exact List.Subset.refl _

namespace Search

variable {m : Model σ α} {cfg : Config σ} {s s' : Search σ α} {g g' : Chronicle σ}

/-- What was cut, and whether the search knows. -/
structure Cutting (m : Model σ α) (cfg : Config σ) (s : Search σ α) (g : Chronicle σ) : Prop where
  growing : ∀ p ∈ s.workers, ∀ e ∈ p.growing, ¬ cfg.Cuts e.depth
  ledger : ∀ l ∈ g.ledger, ¬ cfg.Cuts (l.entry.depth - 1)
  opened : ∀ p ∈ s.workers, ∀ e ∈ p.opened, m.withinBoundary e.state = .ok true → cfg.Cuts e.depth →
    s.depthLimited = true
  completed : ∀ e ∈ g.completed, m.withinBoundary e.state = .ok true → cfg.Cuts e.depth → s.depthLimited = true
  limited : s.depthLimited = true → ∃ l ∈ g.ledger, (l.entry.state, l.entry.fp) ∈ s.visits ∧
    m.withinBoundary l.entry.state = .ok true ∧ cfg.Cuts l.entry.depth

theorem Cutting.same (h : Cutting m cfg s g) (hws : s'.workers = s.workers) (hd : s'.depthLimited = s.depthLimited)
    (hv : s'.visits = s.visits) : Cutting m cfg s' g := by
  refine ⟨?_, h.ledger, ?_, ?_, ?_⟩
  · rw [hws]
    exact h.growing
  · rw [hws, hd]
    exact h.opened
  · rw [hd]
    exact h.completed
  · rw [hd, hv]
    exact h.limited

theorem Cutting.set (h : Cutting m cfg s g) {w : Nat} {q : Phase σ α} (hws : s'.workers = s.workers.set w q)
    (hd : s'.depthLimited = s.depthLimited) (hv : s.visits ⊆ s'.visits) (hl : g'.ledger = g.ledger)
    (hc : g'.completed = g.completed) (hgrowing : ∀ e ∈ q.growing, ¬ cfg.Cuts e.depth)
    (hopened : ∀ e ∈ q.opened, m.withinBoundary e.state = .ok true → cfg.Cuts e.depth → s.depthLimited = true) :
    Cutting m cfg s' g' := by
  refine ⟨fun p hp => ?_, ?_, fun p hp => ?_, ?_, fun hlim => ?_⟩
  · rw [hws] at hp
    rcases List.mem_or_eq_of_mem_set hp with hp | rfl
    · exact h.growing p hp
    · exact hgrowing
  · rw [hl]
    exact h.ledger
  · rw [hws] at hp
    rw [hd]
    rcases List.mem_or_eq_of_mem_set hp with hp | rfl
    · exact h.opened p hp
    · exact hopened
  · rw [hc, hd]
    exact h.completed
  · rw [hd] at hlim
    rw [hl]
    obtain ⟨l, hmem, hvis, hcut⟩ := h.limited hlim
    exact ⟨l, hmem, hv hvis, hcut⟩

theorem Cutting.advance (h : Cutting m cfg s g) {w : Nat} {p q : Phase σ α} (hw : s.workers[w]? = some p)
    (hws : s'.workers = s.workers.set w q) (hgrowing : q.growing ⊆ p.growing) (hopened : q.opened = p.opened)
    (hd : s'.depthLimited = s.depthLimited) (hv : s'.visits = s.visits) : Cutting m cfg s' g := by
  have hp := List.mem_of_getElem? hw
  refine h.set hws hd (by rw [hv]; exact List.Subset.refl _) rfl rfl (fun e he => h.growing p hp e (hgrowing he)) ?_
  rw [hopened]
  exact h.opened p hp

theorem Cutting.register (h : Cutting m cfg s g) {l : Link σ} (hl : ¬ cfg.Cuts (l.entry.depth - 1)) :
    Cutting m cfg s { g with ledger := l :: g.ledger } := by
  refine ⟨h.growing, fun k hk => ?_, h.opened, h.completed, fun hlim => ?_⟩
  · rcases List.mem_cons.1 hk with rfl | hk
    · exact hl
    · exact h.ledger k hk
  · obtain ⟨k, hmem, hcut⟩ := h.limited hlim
    exact ⟨k, List.mem_cons_of_mem _ hmem, hcut⟩

theorem Transition.cutting {who : Option Nat} (hr : Reached m cfg s g) (ht : Transition m cfg who s g s' g')
    (h : Cutting m cfg s g) : Cutting m cfg s' g' := by
  have hrefl := List.Subset.refl s.visits
  cases ht with
  | log | rest | cancel | again => exact h.same rfl rfl rfl
  | plant =>
    have hroot : ¬ cfg.Cuts (1 - 1) := fun hcut => absurd hcut.1 (Nat.not_lt.2 hcut.2)
    exact (h.register hroot).same rfl rfl rfl
  | start | take | wait | leave | present | crash =>
    exact h.set rfl rfl hrefl rfl rfl (fun e he => by cases he) fun e he => by cases he
  | visit =>
    exact h.set rfl rfl (List.subset_cons_self _ _) rfl rfl (fun e he => by cases he) fun e he => by cases he
  | @outside w _ _ e hw hb =>
    refine h.set rfl rfl hrefl rfl rfl (fun e he => by cases he) fun x hx hin => ?_
    rw [List.mem_singleton.1 hx, hb] at hin
    cases hin
  | @deep w _ _ e hw hb hd =>
    obtain ⟨l, hl, rfl⟩ := hr.custody.mem_ledger hw List.mem_cons_self
    refine ⟨fun p hp => ?_, h.ledger, fun _ _ _ _ _ _ => rfl, fun _ _ _ _ => rfl, fun _ => ⟨l, hl, ?_, hb, hd⟩⟩
    · rcases List.mem_or_eq_of_mem_set hp with hp | rfl
      · exact h.growing p hp
      · exact fun e he => by cases he
    · exact hr.origins.visited hw l.entry (List.mem_singleton_self _)
  | @enumerate w _ _ e as hw hb hd =>
    refine h.set rfl rfl hrefl rfl rfl (fun x hx => ?_) fun x hx _ hcut => ?_
    · rw [List.mem_singleton.1 (Phase.growing_acting e as hx)]
      exact hd
    · rw [List.mem_singleton.1 hx] at hcut
      exact absurd hcut hd
  | @complete w _ _ e hw =>
    have hset : Cutting m cfg { s with frontier := s.frontier.complete, workers := s.workers.set w .idle } g :=
      h.set rfl rfl hrefl rfl rfl (fun e he => by cases he) fun e he => by cases he
    refine ⟨hset.growing, hset.ledger, hset.opened, fun x hx => ?_, hset.limited⟩
    rcases List.mem_cons.1 hx with rfl | hx
    · exact h.opened _ (List.mem_of_getElem? hw) x (List.mem_singleton_self _)
    · exact h.completed x hx
  | @skip w _ _ e a todo hw | @known w _ _ e a todo _ _ _ hw | @give w _ _ e _ todo hw =>
    exact h.advance hw rfl (Phase.growing_acting e todo) rfl rfl rfl
  | @discover w _ _ e a todo t registry hw =>
    have hlive : ¬ cfg.Cuts e.depth := h.growing _ (List.mem_of_getElem? hw) e (List.mem_singleton_self _)
    have hset : Cutting m cfg
        { s with registry, workers := s.workers.set w (.judging e ⟨t, m.fingerprint t, e.depth + 1⟩ todo) } g :=
      h.advance hw rfl (List.Subset.refl _) rfl rfl rfl
    exact hset.register hlive
  | judge hw | note hw => exact h.advance hw rfl (List.Subset.refl _) rfl rfl rfl

/-- **The bound on the depth cuts what it says, and the search knows.** -/
theorem Reached.cutting (h : Reached m cfg s g) : Cutting m cfg s g := by
  induction h with
  | blank =>
    have hstart : ∀ p ∈ (Search.blank m cfg).workers, p = .starting := fun p hp => List.eq_of_mem_replicate hp
    refine ⟨fun p hp e he => ?_, fun l hl => ?_, fun p hp e he => ?_, fun e he => ?_, fun hlim => ?_⟩
    · rw [hstart p hp] at he
      cases he
    · cases hl
    · rw [hstart p hp] at he
      cases he
    · cases he
    · cases hlim
  | next hr ht ih => exact ht.cutting hr ih

end Search

end StateSpace
