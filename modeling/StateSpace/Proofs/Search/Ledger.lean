import Mathlib.Data.Set.Function
import StateSpace.Proofs.Search.Custody

/-!
# How the ledger grows, and when it is closed

* `Expansion m cfg limited g e todo` : how far the expansion of the entry `e` is when the actions `todo` remain;
  `Reached.expansions` : workers and completed entries keep to it;
* `Grown m ledger` : each entry of the ledger is initial or is led to by an action of an earlier entry within the boundary,
  and no action before that one raises a fault; `Reached.grown`;
* `Seeded s g` : what holds when the workers start; `seed_seeded`, `after_reached` : seeding and playing;
* `mem_ledger_of_reachable` : once every entry is expanded to its end, every reachable state is in the ledger.
-/

namespace StateSpace

variable {σ α : Type}

def Chronicle.Knows (g : Chronicle σ) (fp : Fingerprint) : Prop := ∃ l ∈ g.ledger, l.entry.fp = fp

theorem Chronicle.Knows.mono {g g' : Chronicle σ} (hg : g.ledger <:+ g'.ledger) {fp : Fingerprint} (h : g.Knows fp) :
    g'.Knows fp := by
  obtain ⟨l, hl, hfp⟩ := h
  exact ⟨l, hg.subset hl, hfp⟩

/-- The entry a worker expands, with the actions that remain. -/
def Phase.expanding : Phase σ α → List (Entry σ × List α)
  | .acting e todo | .judging e _ todo | .noting e _ todo _ | .pushing e _ todo => [(e, todo)]
  | _ => []

namespace Search

/-- The action raises no fault, and the state it leads to, if any, is registered. -/
def Handled (m : Model σ α) (g : Chronicle σ) (s : σ) (a : α) : Prop :=
  ∃ next, m.next s a = .ok next ∧ ∀ t, next = some t → g.Knows (m.fingerprint t)

/-- How far the expansion of an entry is, when the actions in the last argument remain. -/
inductive Expansion (m : Model σ α) (cfg : Config σ) (limited : Bool) (g : Chronicle σ) (e : Entry σ) : List α → Prop
  | outside (hb : m.withinBoundary e.state = .ok false) : Expansion m cfg limited g e []
  | cut (hb : m.withinBoundary e.state = .ok true) (hd : 0 < cfg.maxDepth ∧ cfg.maxDepth ≤ e.depth)
      (hl : limited = true) : Expansion m cfg limited g e []
  | inside {before todo : List α} (hb : m.withinBoundary e.state = .ok true)
      (ha : m.actions e.state = .ok (before ++ todo)) (hh : ∀ a ∈ before, Handled m g e.state a) :
      Expansion m cfg limited g e todo

/-- Every entry that is being expanded or was completed is as far as its worker believes. -/
structure Expansions (m : Model σ α) (cfg : Config σ) (s : Search σ α) (g : Chronicle σ) : Prop where
  working : ∀ p ∈ s.workers, ∀ x ∈ p.expanding, Expansion m cfg s.depthLimited g x.1 x.2
  completed : ∀ e ∈ g.completed, Expansion m cfg s.depthLimited g e []

variable {m : Model σ α} {cfg : Config σ} {s s' : Search σ α} {g g' : Chronicle σ}

/-! ## Expansion -/

theorem Handled.mono (hg : g.ledger <:+ g'.ledger) {x : σ} {a : α} (h : Handled m g x a) : Handled m g' x a := by
  obtain ⟨next, hn, hk⟩ := h
  exact ⟨next, hn, fun t ht => (hk t ht).mono hg⟩

theorem Expansion.mono {limited limited' : Bool} (hl : limited = true → limited' = true) (hg : g.ledger <:+ g'.ledger)
    {e : Entry σ} {todo : List α} (h : Expansion m cfg limited g e todo) : Expansion m cfg limited' g' e todo := by
  cases h with
  | outside hb => exact .outside hb
  | cut hb hd hlim => exact .cut hb hd (hl hlim)
  | inside hb ha hh => exact .inside hb ha fun a hmem => (hh a hmem).mono hg

theorem Expansion.advance {limited : Bool} {e : Entry σ} {a : α} {todo : List α}
    (h : Expansion m cfg limited g e (a :: todo)) (hh : Handled m g e.state a) : Expansion m cfg limited g e todo := by
  cases h with
  | @inside before _ hb ha hbefore =>
    have ha' : m.actions e.state = .ok (before ++ [a] ++ todo) := by rw [ha, List.append_assoc, List.singleton_append]
    refine .inside hb ha' fun b hmem => ?_
    rcases List.mem_append.1 hmem with hmem | hmem
    · exact hbefore b hmem
    · rw [List.mem_singleton.1 hmem]
      exact hh

theorem Transition.ledger {who : Option Nat} (h : Transition m cfg who s g s' g') : g.ledger <:+ g'.ledger := by
  cases h with
  | discover | plant => exact List.suffix_cons _ _
  | _ => exact List.suffix_refl _

theorem Transition.limited {who : Option Nat} (h : Transition m cfg who s g s' g') (hl : s.depthLimited = true) :
    s'.depthLimited = true := by
  cases h with
  | deep => rfl
  | _ => exact hl

theorem Expansions.set (h : Expansions m cfg s g) {w : Nat} {q : Phase σ α} (hws : s'.workers = s.workers.set w q)
    (hl : s.depthLimited = true → s'.depthLimited = true) (hg : g.ledger <:+ g'.ledger)
    (hc : g'.completed = g.completed) (hq : ∀ x ∈ q.expanding, Expansion m cfg s'.depthLimited g' x.1 x.2) :
    Expansions m cfg s' g' := by
  refine ⟨fun p hp x hx => ?_, fun e he => ?_⟩
  · rw [hws] at hp
    rcases List.mem_or_eq_of_mem_set hp with hp | rfl
    · exact (h.working p hp x hx).mono hl hg
    · exact hq x hx
  · rw [hc] at he
    exact (h.completed e he).mono hl hg

theorem Expansions.same (h : Expansions m cfg s g) (hws : s'.workers = s.workers)
    (hl : s.depthLimited = true → s'.depthLimited = true) (hg : g.ledger <:+ g'.ledger)
    (hc : g'.completed = g.completed) : Expansions m cfg s' g' := by
  refine ⟨fun p hp x hx => ?_, fun e he => ?_⟩
  · rw [hws] at hp
    exact (h.working p hp x hx).mono hl hg
  · rw [hc] at he
    exact (h.completed e he).mono hl hg

theorem Expansions.acting (h : Expansions m cfg s g) {w : Nat} {p : Phase σ α} {e : Entry σ} {todo : List α}
    (hw : s.workers[w]? = some p) (hx : (e, todo) ∈ p.expanding) : Expansion m cfg s.depthLimited g e todo :=
  h.working p (List.mem_of_getElem? hw) _ hx

theorem Transition.expansions {who : Option Nat} (hr : Reached m cfg s g) (ht : Transition m cfg who s g s' g')
    (h : Expansions m cfg s g) : Expansions m cfg s' g' := by
  have hl := ht.limited
  have hg := ht.ledger
  cases ht with
  | log | rest | cancel | again | plant => exact h.same rfl hl hg rfl
  | start | take | wait | leave | visit | present | crash => exact h.set rfl hl hg rfl fun x hx => by cases hx
  | outside hw hb =>
    refine h.set rfl hl hg rfl fun x hx => ?_
    rw [List.mem_singleton.1 hx]
    exact .outside hb
  | deep hw hb hd =>
    refine h.set rfl hl hg rfl fun x hx => ?_
    rw [List.mem_singleton.1 hx]
    exact .cut hb hd rfl
  | @enumerate w _ _ e as hw hb hd ha =>
    refine h.set rfl hl hg rfl fun x hx => ?_
    rw [List.mem_singleton.1 hx]
    have ha' : m.actions e.state = .ok ([] ++ as) := ha
    exact .inside hb ha' fun a hmem => by cases hmem
  | @complete w _ _ e hw =>
    refine ⟨fun p hp x hx => ?_, fun e' he => ?_⟩
    · rcases List.mem_or_eq_of_mem_set hp with hp | rfl
      · exact (h.working p hp x hx).mono hl hg
      · cases hx
    · rcases List.mem_cons.1 he with rfl | he
      · exact (h.acting hw (List.mem_singleton_self _)).mono hl hg
      · exact (h.completed e' he).mono hl hg
  | skip hw hn =>
    refine h.set rfl hl hg rfl fun x hx => ?_
    rw [List.mem_singleton.1 hx]
    exact (h.acting hw (List.mem_singleton_self _)).advance ⟨none, hn, fun t ht => by cases ht⟩
  | @known w _ _ e a todo t parent registry hw hn hlook =>
    refine h.set rfl hl hg rfl fun x hx => ?_
    rw [List.mem_singleton.1 hx]
    obtain ⟨l, hmem, hfp, -⟩ := hr.lookup_eq_some.1 hlook
    refine (h.acting hw (List.mem_singleton_self _)).advance ⟨some t, hn, fun t' ht' => ⟨l, hmem, ?_⟩⟩
    rw [hfp, Option.some.inj ht']
  | @discover w _ _ e a todo t registry hw hn =>
    refine h.set rfl hl hg rfl fun x hx => ?_
    rw [List.mem_singleton.1 hx]
    refine ((h.acting hw (List.mem_singleton_self _)).mono hl hg).advance ⟨some t, hn, fun t' ht' => ?_⟩
    exact ⟨_, List.mem_cons_self, by rw [Option.some.inj ht']⟩
  | judge hw | note hw | give hw =>
    refine h.set rfl hl hg rfl fun x hx => ?_
    rw [List.mem_singleton.1 hx]
    exact h.acting hw (List.mem_singleton_self _)

/-- **Every expansion is as far as its worker believes.** -/
theorem Reached.expansions (h : Reached m cfg s g) : Expansions m cfg s g := by
  induction h with
  | blank =>
    refine ⟨fun p hp x hx => ?_, fun e he => by cases he⟩
    rw [List.eq_of_mem_replicate hp] at hx
    cases hx
  | next hr ht ih => exact ht.expansions hr ih

/-! ## Growth -/

/-- How a ledger grows, the latest link first: by an initial state, or by a state that follows an entry in it. -/
inductive Grown (m : Model σ α) : List (Link σ) → Prop
  | nil : Grown m []
  | root {L : List (Link σ)} {t : σ} (hL : Grown m L) (hi : t ∈ m.initStates)
      (hn : ∀ l ∈ L, l.entry.fp ≠ m.fingerprint t) : Grown m (⟨⟨t, m.fingerprint t, 1⟩, m.fingerprint t⟩ :: L)
  | child {L : List (Link σ)} {k : Link σ} {before after : List α} {a : α} {t : σ} (hL : Grown m L) (hk : k ∈ L)
      (hb : m.withinBoundary k.entry.state = .ok true) (ha : m.actions k.entry.state = .ok (before ++ a :: after))
      (hbefore : ∀ b ∈ before, ∃ next, m.next k.entry.state b = .ok next)
      (ht : m.next k.entry.state a = .ok (some t)) (hn : ∀ l ∈ L, l.entry.fp ≠ m.fingerprint t) :
      Grown m (⟨⟨t, m.fingerprint t, k.entry.depth + 1⟩, k.entry.fp⟩ :: L)

theorem Custody.mem_ledger (h : Custody s g) {w : Nat} {p : Phase σ α} {e : Entry σ} (hw : s.workers[w]? = some p)
    (he : e ∈ p.entries) : ∃ l ∈ g.ledger, l.entry = e := by
  have hmem : e ∈ s.workers.flatMap Phase.entries := List.mem_flatMap.2 ⟨p, List.mem_of_getElem? hw, he⟩
  exact List.mem_map.1 (h.places.mem_iff.2 (List.mem_append_right _ (List.mem_append_left _ hmem)))

theorem Reached.grown (h : Reached m cfg s g) : Grown m g.ledger := by
  induction h with
  | blank => exact .nil
  | next hr ht ih =>
    cases ht with
    | plant hw hi hl => exact .root ih hi (hr.lookup_eq_none.1 hl)
    | discover hw hn hl =>
      obtain ⟨k, hk, rfl⟩ := hr.custody.mem_ledger hw List.mem_cons_self
      cases hr.expansions.acting hw (List.mem_singleton_self _) with
      | inside hb ha hh =>
        refine .child ih hk hb ha (fun b hmem => ?_) hn (hr.lookup_eq_none.1 hl)
        obtain ⟨next, hnext, -⟩ := hh b hmem
        exact ⟨next, hnext⟩
    | _ => exact ih

theorem Grown.fp_eq {L : List (Link σ)} (h : Grown m L) {l : Link σ} (hl : l ∈ L) :
    l.entry.fp = m.fingerprint l.entry.state := by
  induction h with
  | nil => cases hl
  | root _ _ _ ih | child _ _ _ _ _ _ _ ih =>
    rcases List.mem_cons.1 hl with rfl | hl
    · rfl
    · exact ih hl

/-- Every registered state is reachable. -/
theorem Grown.reachable {L : List (Link σ)} (h : Grown m L) {l : Link σ} (hl : l ∈ L) : m.Reachable l.entry.state := by
  induction h generalizing l with
  | nil => cases hl
  | root _ hi _ ih =>
    rcases List.mem_cons.1 hl with rfl | hl
    · exact .init hi
    · exact ih hl
  | child _ hk hb ha _ ht _ ih =>
    rcases List.mem_cons.1 hl with rfl | hl
    · exact .step (ih hk) hb ⟨⟨_, ha, List.mem_append_right _ List.mem_cons_self⟩, ht⟩
    · exact ih hl

/-- A reachable state with a known fingerprint is registered, if fingerprints tell reachable states apart. -/
theorem Reached.mem_of_knows (h : Reached m cfg s g) (hinj : Set.InjOn m.fingerprint {t | m.Reachable t}) {t : σ}
    (ht : m.Reachable t) (hk : g.Knows (m.fingerprint t)) : ∃ l ∈ g.ledger, l.entry.state = t := by
  obtain ⟨l, hl, hfp⟩ := hk
  refine ⟨l, hl, hinj (h.grown.reachable hl) ht ?_⟩
  rw [← h.grown.fp_eq hl, hfp]

/-! ## Seeding and playing -/

/-- What holds when the workers start. -/
structure Seeded (m : Model σ α) (cfg : Config σ) (s : Search σ α) (g : Chronicle σ) : Prop where
  reached : Reached m cfg s g
  starting : ∀ p ∈ s.workers, p = .starting
  depth : ∀ l ∈ g.ledger, l.entry.depth = 1
  roots : ∀ t ∈ m.initStates, g.Knows (m.fingerprint t)

theorem seedFrom_spec (rest : List σ) (hr : Reached m cfg s g) (hw : ∀ p ∈ s.workers, p = .starting)
    (hd : ∀ l ∈ g.ledger, l.entry.depth = 1) (hi : ∀ t ∈ rest, t ∈ m.initStates)
    (h : seedFrom m cfg rest s = (.ok (), s')) :
    ∃ g', Reached m cfg s' g' ∧ (∀ p ∈ s'.workers, p = .starting) ∧ (∀ l ∈ g'.ledger, l.entry.depth = 1) ∧
      g.ledger <:+ g'.ledger ∧ ∀ t ∈ rest, g'.Knows (m.fingerprint t) := by
  induction rest generalizing s g with
  | nil =>
    cases h
    exact ⟨g, hr, hw, hd, List.suffix_refl _, fun t ht => by cases ht⟩
  | cons t rest ih =>
    rw [seedFrom] at h
    cases hp : s.plant m cfg ⟨t, m.fingerprint t, 1⟩ with
    | mk outcome s₁ =>
      rw [hp] at h
      cases outcome with
      | error f => cases h
      | ok u =>
        obtain ⟨g₁, ht, hws, hknown, hdepth⟩ := plant_transition g hr.sound hw (hi t List.mem_cons_self) rfl hp
        have hr₁ := Reached.next hr ht
        have hd₁ : ∀ l ∈ g₁.ledger, l.entry.depth = 1 := fun l hl => (hdepth l hl).elim (hd l) id
        obtain ⟨g', hr', hw', hd', hsuf, hk⟩ := ih hr₁ (by rwa [hws]) hd₁
          (fun t' ht' => hi t' (List.mem_cons_of_mem _ ht')) h
        refine ⟨g', hr', hw', hd', ht.ledger.trans hsuf, fun t' ht' => ?_⟩
        rcases List.mem_cons.1 ht' with rfl | ht'
        · obtain ⟨parent, hparent⟩ := Option.ne_none_iff_exists'.1 hknown
          obtain ⟨l, hl, hfp, -⟩ := hr₁.lookup_eq_some.1 hparent
          exact Chronicle.Knows.mono hsuf ⟨l, hl, hfp⟩
        · exact hk t' ht'

/-- **Seeding**, unless it raises a fault, registers the initial states and starts the workers. -/
theorem seed_seeded (h : (seed m cfg).1 = .ok ()) : ∃ g, Seeded m cfg (seed m cfg).2 g := by
  unfold seed at h ⊢
  cases hs : seedFrom m cfg m.initStates (blank m cfg) with
  | mk outcome s =>
    rw [hs] at h
    cases outcome with
    | error f => cases h
    | ok u =>
      have hblank : Reached m cfg (Search.blank m cfg) ⟨[], [], [], []⟩ := .blank
      obtain ⟨g, hr, hw, hd, -, hk⟩ := seedFrom_spec m.initStates hblank
        (fun p hp => List.eq_of_mem_replicate hp) (fun l hl => by cases hl) (fun t ht => ht) hs
      have hlog : Transition m cfg none s g (s.record .checker .main (.seeded s.generated)) g := .log
      exact ⟨g, hr.next hlog, hw, hd, hk⟩

theorem Reached.move (h : Reached m cfg s g) (mv : Move) :
    ∃ g', Reached m cfg (s.move m cfg mv) g' ∧ g.ledger <:+ g'.ledger := by
  obtain ⟨who, g', ht⟩ := move_transition m cfg s g mv h.sound h.workers
  exact ⟨g', h.next ht, ht.ledger⟩

theorem Reached.play (h : Reached m cfg s g) (moves : List Move) :
    ∃ g', Reached m cfg (s.play m cfg moves) g' ∧ g.ledger <:+ g'.ledger := by
  induction moves generalizing s g with
  | nil => exact ⟨g, h, List.suffix_refl _⟩
  | cons mv moves ih =>
    obtain ⟨g₁, h₁, hsuf₁⟩ := h.move mv
    obtain ⟨g₂, h₂, hsuf₂⟩ := ih h₁
    exact ⟨g₂, h₂, hsuf₁.trans hsuf₂⟩

/-- The search that moves lead to after its seeding. -/
def after (m : Model σ α) (cfg : Config σ) (moves : List Move) : Search σ α := (seed m cfg).2.play m cfg moves

theorem after_reached (h : (seed m cfg).1 = .ok ()) (moves : List Move) :
    ∃ g, Reached m cfg (after m cfg moves) g ∧ ∀ t ∈ m.initStates, g.Knows (m.fingerprint t) := by
  obtain ⟨g₀, hs⟩ := seed_seeded h
  obtain ⟨g, hr, hsuf⟩ := hs.reached.play moves
  exact ⟨g, hr, fun t ht => (hs.roots t ht).mono hsuf⟩

/-! ## Closure -/

theorem flatMap_of_done {β : Type} (h : s.done = true) (f : Phase σ α → List β) (hf : f .finished = []) :
    s.workers.flatMap f = [] := by
  rw [List.flatMap_eq_nil_iff]
  intro p hp
  have hfin : p.isFinished = true := List.all_eq_true.1 h p hp
  cases p with
  | finished => exact hf
  | _ => cases hfin

/-- In a search that is over with nothing pending, every registered entry was completed. -/
theorem Reached.completed (h : Reached m cfg s g) (hd : s.done = true) (hp : s.frontier.pending = 0) :
    (g.ledger.map Link.entry).Perm g.completed ∧ g.lost = [] ∧ g.dropped = [] := by
  have hpend := h.custody.pending
  have hdrop := h.custody.dropped
  have hplaces := h.custody.places
  rw [hp, UInt64.toNat_zero] at hpend
  have hentries : s.frontier.entries = [] := List.length_eq_zero_iff.1 (by omega)
  have hlost : g.lost = [] := List.length_eq_zero_iff.1 (by omega)
  have hdropped : g.dropped = [] := List.length_eq_zero_iff.1 (by omega)
  rw [hentries, flatMap_of_done hd _ rfl, hlost, hdropped] at hplaces
  exact ⟨by simpa using hplaces, hlost, hdropped⟩

/-- **Once every entry is expanded to its end, every reachable state is registered.** -/
theorem mem_ledger_of_reachable (h : Reached m cfg s g) (hinj : Set.InjOn m.fingerprint {t | m.Reachable t})
    (hroots : ∀ t ∈ m.initStates, g.Knows (m.fingerprint t))
    (hall : ∀ l ∈ g.ledger, Expansion m cfg false g l.entry []) {t : σ} (ht : m.Reachable t) :
    ∃ l ∈ g.ledger, l.entry.state = t := by
  induction ht with
  | init hi => exact h.mem_of_knows hinj (.init hi) (hroots _ hi)
  | @step x t a hx hb hstep ih =>
    obtain ⟨l, hl, rfl⟩ := ih
    refine h.mem_of_knows hinj (.step hx hb hstep) ?_
    obtain ⟨⟨as, has, hmem⟩, hnext⟩ := hstep
    cases hall l hl with
    | outside hb' =>
      rw [hb] at hb'
      cases hb'
    | cut _ _ hl => cases hl
    | @inside before _ _ ha hh =>
      rw [has, List.append_nil] at ha
      cases ha
      obtain ⟨next, hnext', hk⟩ := hh a hmem
      rw [hnext] at hnext'
      exact hk t (Except.ok.inj hnext').symm

end Search

end StateSpace
