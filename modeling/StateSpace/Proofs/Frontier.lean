import StateSpace.Frontier.Basic
import StateSpace.Proofs.Lists

/-!
# Entries of a frontier are neither lost nor doubled

* `Frontier.entries f` : all queued entries, worker by worker;
* `Frontier.Alike f f'` : `f'` has the settings and counters of `f`, only the deques differ;
* `entries_append`, `entries_of_takeLocal`, `entries_grab`, `entries_deposit` : what each step does to the entries;
* `pop_cases` : the three answers of a pop; `pop_entry`, `pop_waiting`, `pop_over` : what follows from each of them;
* `entries_append_solo`, `entries_seed_solo`, `pop_oldest` : with a single worker the frontier is one queue, from which a
  breadth-first pop takes the oldest entry.
-/

namespace StateSpace.Frontier

variable {α : Type}

def entries (f : Frontier α) : List α := f.deques.flatMap Deque.toList

/-- The same frontier but for the deques and the count of stolen entries. -/
structure Alike (f f' : Frontier α) : Prop where
  workers : f'.workers = f.workers
  order : f'.order = f.order
  pending : f'.pending = f.pending
  stopRequested : f'.stopRequested = f.stopRequested
  seeded : f'.seeded = f.seeded

theorem Alike.refl (f : Frontier α) : Alike f f := ⟨rfl, rfl, rfl, rfl, rfl⟩

theorem Alike.trans {f g h : Frontier α} (h₁ : Alike f g) (h₂ : Alike g h) : Alike f h :=
  ⟨h₂.workers.trans h₁.workers, h₂.order.trans h₁.order, h₂.pending.trans h₁.pending,
    h₂.stopRequested.trans h₁.stopRequested, h₂.seeded.trans h₁.seeded⟩

def flagged (f : Frontier α) (stop : Bool) : Frontier α := ⟨f.order, f.deques, f.seeded, f.pending, stop, f.stolen⟩

theorem entries_new (workers : Nat) (order : SearchOrder) : (new workers order : Frontier α).entries = [] := by
  simp only [entries, new, List.flatMap_eq_nil_iff]
  intro d hd
  rw [List.eq_of_mem_replicate hd, Deque.toList_empty]

@[simp] theorem workers_new (workers : Nat) (order : SearchOrder) :
    (new workers order : Frontier α).workers = max workers 1 := by
  simp [Frontier.workers, new]

theorem getElem?_of_lt {f : Frontier α} {worker : Nat} (h : worker < f.workers) :
    ∃ d, f.deques[worker]? = some d := ⟨_, List.getElem?_eq_getElem h⟩

/-! ## Pushing -/

theorem modify_eq_set {β : Type} {l : List β} {i : Nat} {x : β} (g : β → β) (h : l[i]? = some x) :
    l.modify i g = l.set i (g x) := by
  rw [List.modify_eq_set_getElem?, h]
  rfl

theorem entries_append {f : Frontier α} {worker : Nat} (h : worker < f.workers) (x : α) :
    (f.append worker x).entries.Perm (x :: f.entries) := by
  obtain ⟨d, hd⟩ := getElem?_of_lt h
  have hset := flatMap_set_perm Deque.toList (d.push x) hd
  rw [Deque.toList_push, List.append_assoc] at hset
  simp only [entries, append, modify_eq_set _ hd]
  exact (List.perm_append_left_iff _).1 hset

theorem workers_append (f : Frontier α) (worker : Nat) (x : α) : (f.append worker x).workers = f.workers := by
  simp [workers, append]

theorem entries_seed {f : Frontier α} (h : 0 < f.workers) (x : α) : (f.seed x).entries.Perm (x :: f.entries) :=
  entries_append (f := f.announce) (Nat.mod_lt _ h) x

theorem workers_seed (f : Frontier α) (x : α) : (f.seed x).workers = f.workers :=
  workers_append f.announce _ x

/-! ## Popping -/

theorem takeLocal_eq (f : Frontier α) (worker : Nat) : f.takeLocal worker = f.deques[worker]?.bind fun d =>
    (match f.order with
      | .breadthFirst => d.popOldest?
      | .depthFirst => d.popNewest?).map fun r : α × Deque α =>
        (r.1, { f with deques := f.deques.set worker r.2 }) := by
  obtain ⟨order, deques, seeded, pending, stopRequested, stolen⟩ := f
  unfold takeLocal
  simp only [Option.bind_eq_bind]
  cases deques[worker]? with
  | none => rfl
  | some d =>
    cases order with
    | breadthFirst => cases h : d.popOldest? <;> simp [h]
    | depthFirst => cases h : d.popNewest? <;> simp [h]

theorem takeLocal_eq_some {f f' : Frontier α} {worker : Nat} {x : α} (h : f.takeLocal worker = some (x, f')) :
    ∃ d d', f.deques[worker]? = some d ∧ f' = { f with deques := f.deques.set worker d' } ∧
      d.toList.Perm (x :: d'.toList) := by
  rw [takeLocal_eq, Option.bind_eq_some_iff] at h
  obtain ⟨d, hd, h⟩ := h
  obtain ⟨⟨y, d'⟩, hpop, hres⟩ := Option.map_eq_some_iff.1 h
  cases hres
  refine ⟨d, d', hd, rfl, ?_⟩
  split at hpop
  · rw [Deque.toList_of_popOldest? hpop]
  · rw [Deque.toList_of_popNewest? hpop]
    exact List.perm_append_singleton _ _

theorem entries_of_takeLocal {f : Frontier α} {worker : Nat} {r : α × Frontier α} (h : f.takeLocal worker = some r) :
    f.entries.Perm (r.1 :: r.2.entries) ∧ Alike f r.2 := by
  obtain ⟨x, f'⟩ := r
  obtain ⟨d, d', hd, rfl, hperm⟩ := takeLocal_eq_some h
  refine ⟨?_, by simp [workers], rfl, rfl, rfl, rfl⟩
  have hset := flatMap_set_perm Deque.toList d' hd
  have hmid : (d'.toList ++ f.deques.flatMap Deque.toList).Perm
      (d'.toList ++ (x :: (f.deques.set worker d').flatMap Deque.toList)) := by
    refine hset.symm.trans ((hperm.append_right _).trans ?_)
    exact List.perm_middle.symm
  exact (List.perm_append_left_iff _).1 hmid

theorem takeLocal_eq_none {f : Frontier α} {worker : Nat} (h : f.takeLocal worker = none) : f.queued worker = [] := by
  unfold queued
  cases hd : f.deques[worker]? with
  | none => rfl
  | some d =>
    rw [takeLocal_eq, hd, Option.bind_some, Option.map_eq_none_iff] at h
    split at h
    · exact (Deque.popOldest?_eq_none_iff d).1 h
    · exact (Deque.popNewest?_eq_none_iff d).1 h

theorem takeLocal_of_queued {f : Frontier α} {worker : Nat} (h : f.queued worker ≠ []) :
    ∃ r, f.takeLocal worker = some r := by
  cases ht : f.takeLocal worker with
  | none => exact absurd (takeLocal_eq_none ht) h
  | some r => exact ⟨r, rfl⟩

theorem entries_grab {f : Frontier α} {victim : Nat} (h : victim < f.workers) :
    f.entries.Perm ((f.grab victim).1 ++ (f.grab victim).2.entries) ∧ Alike f (f.grab victim).2 := by
  obtain ⟨d, hd⟩ := getElem?_of_lt h
  have hset := flatMap_set_perm Deque.toList (d.splitOldest (max 1 (d.toList.length / 2))).2 hd
  simp only [grab, hd, Option.getD_some]
  refine ⟨?_, by simp [workers], rfl, rfl, rfl, rfl⟩
  rw [Deque.toList_splitOldest] at hset
  have hsplit := List.take_append_drop (max 1 (d.toList.length / 2)) d.toList
  rw [Deque.splitOldest_fst]
  refine ((List.perm_append_left_iff (d.toList.drop (max 1 (d.toList.length / 2)))).1 ?_)
  refine hset.symm.trans ?_
  nth_rewrite 1 [← hsplit]
  simp only [entries, ← List.append_assoc]
  exact List.perm_append_comm.append_right _

theorem entries_deposit {f : Frontier α} {thief : Nat} (h : thief < f.workers) (taken : List α) :
    (f.deposit thief taken).entries.Perm (taken ++ f.entries) ∧ Alike f (f.deposit thief taken) ∧
      (f.deposit thief taken).queued thief = f.queued thief ++ taken := by
  obtain ⟨d, hd⟩ := getElem?_of_lt h
  have hset := flatMap_set_perm Deque.toList (d.pushAll taken) hd
  rw [Deque.toList_pushAll, List.append_assoc] at hset
  refine ⟨?_, ⟨by simp [workers, deposit], rfl, rfl, rfl, rfl⟩, ?_⟩
  · simp only [entries, deposit, modify_eq_set _ hd]
    exact (List.perm_append_left_iff _).1 hset
  · simp [queued, deposit, hd]

theorem mem_victims {f : Frontier α} {worker v : Nat} :
    v ∈ f.victims worker ↔ v < f.workers ∧ v ≠ worker ∧ f.queued v ≠ [] := by
  simp [victims]

theorem entries_eq_nil {f : Frontier α} (h : ∀ v < f.workers, f.queued v = []) : f.entries = [] := by
  simp only [entries, List.flatMap_eq_nil_iff]
  intro d hd
  obtain ⟨v, hv, rfl⟩ := List.mem_iff_getElem.1 hd
  have hq := h v hv
  rwa [queued, List.getElem?_eq_getElem hv] at hq

/-- If a worker has nothing and nobody to steal from, nothing is queued. -/
theorem entries_of_no_victims {f : Frontier α} {worker : Nat} (hq : f.queued worker = []) (hv : f.victims worker = []) :
    f.entries = [] := by
  refine entries_eq_nil fun v hlt => ?_
  by_cases hvw : v = worker
  · rw [hvw, hq]
  · by_contra hfull
    have hmem := mem_victims.2 ⟨hlt, hvw, hfull⟩
    rw [hv] at hmem
    cases hmem

theorem grab_ne_nil {f : Frontier α} {victim : Nat} (h : f.queued victim ≠ []) : (f.grab victim).1 ≠ [] := by
  simp only [queued] at h
  simp only [grab, Deque.splitOldest_fst, ne_eq, List.take_eq_nil_iff, not_or]
  exact ⟨by omega, h⟩

/-- **What a pop answers**: an entry that was queued, or that the worker has to wait while something is pending, or that
the search is over. -/
theorem pop_cases (f : Frontier α) {worker : Nat} (pick : Nat) (hw : worker < f.workers) :
    (∃ x theft f', f.pop worker pick = (.entry x, theft, f') ∧ f.stopRequested = false ∧
      f.entries.Perm (x :: f'.entries) ∧ Alike f f') ∨
    (f.pop worker pick = (.waiting, none, f) ∧ f.stopRequested = false ∧ f.entries = [] ∧ f.pending ≠ 0) ∨
    (f.pop worker pick = (.over, none, f) ∧ (f.stopRequested = true ∨ f.entries = [] ∧ f.pending = 0)) := by
  unfold pop
  cases hs : f.stopRequested with
  | true => exact Or.inr (Or.inr ⟨rfl, Or.inl rfl⟩)
  | false =>
    simp only [Bool.false_eq_true, if_false]
    cases ht : f.takeLocal worker with
    | some r =>
      obtain ⟨hperm, halike⟩ := entries_of_takeLocal ht
      exact Or.inl ⟨r.1, none, r.2, rfl, trivial, hperm, halike⟩
    | none =>
      have hown := takeLocal_eq_none ht
      cases hv : (f.victims worker)[pick % (f.victims worker).length]? with
      | none =>
        right
        have hnil : f.victims worker = [] := by
          by_contra hne
          have hlt := Nat.mod_lt pick (List.length_pos_of_ne_nil hne)
          rw [List.getElem?_eq_getElem hlt] at hv
          cases hv
        have hempty := entries_of_no_victims hown hnil
        by_cases hp : f.pending = 0
        · exact Or.inr ⟨by simp [exhausted, hp], Or.inr ⟨hempty, hp⟩⟩
        · exact Or.inl ⟨by simp [exhausted, hp], trivial, hempty, hp⟩
      | some victim =>
        left
        obtain ⟨hlt, -, hq⟩ := mem_victims.1 (List.mem_of_getElem? hv)
        obtain ⟨hgrab, halike⟩ := entries_grab hlt
        have hw' : worker < (f.grab victim).2.workers := by rw [halike.workers]; exact hw
        obtain ⟨hdep, halike', hqueued⟩ := entries_deposit hw' (f.grab victim).1
        -- the thief has what it stole, so its second look into its own deque succeeds
        obtain ⟨r, hr⟩ := takeLocal_of_queued (f := (f.grab victim).2.deposit worker (f.grab victim).1)
          (by rw [hqueued]; simp [grab_ne_nil hq])
        obtain ⟨hperm, halike''⟩ := entries_of_takeLocal hr
        refine ⟨r.1, some ⟨worker, victim, (f.grab victim).1.length⟩, r.2, ?_, trivial, ?_, ?_⟩
        · simp only [hr]
        · exact hgrab.trans (hdep.symm.trans hperm)
        · exact (halike.trans halike').trans halike''

section

variable {f f' : Frontier α} {worker pick : Nat} {theft : Option Theft}

theorem pop_entry {x : α} (hw : worker < f.workers) (h : f.pop worker pick = (.entry x, theft, f')) :
    f.entries.Perm (x :: f'.entries) ∧ Alike f f' := by
  rcases f.pop_cases pick hw with ⟨y, t, f₁, hpop, -, hperm, halike⟩ | ⟨hpop, -⟩ | ⟨hpop, -⟩
  · cases h.symm.trans hpop
    exact ⟨hperm, halike⟩
  · cases h.symm.trans hpop
  · cases h.symm.trans hpop

theorem pop_waiting (hw : worker < f.workers) (h : f.pop worker pick = (.waiting, theft, f')) :
    f.stopRequested = false ∧ f.entries = [] ∧ f.pending ≠ 0 := by
  rcases f.pop_cases pick hw with ⟨y, t, f₁, hpop, -⟩ | ⟨-, hwait⟩ | ⟨hpop, -⟩
  · cases h.symm.trans hpop
  · exact hwait
  · cases h.symm.trans hpop

theorem pop_over (hw : worker < f.workers) (h : f.pop worker pick = (.over, theft, f')) :
    f.stopRequested = true ∨ f.entries = [] ∧ f.pending = 0 := by
  rcases f.pop_cases pick hw with ⟨y, t, f₁, hpop, -⟩ | ⟨hpop, -⟩ | ⟨-, hover⟩
  · cases h.symm.trans hpop
  · cases h.symm.trans hpop
  · exact hover

end

/-! ## A single worker -/

section

variable {f f' : Frontier α}

theorem victims_solo (h : f.workers = 1) : f.victims 0 = [] := by
  simp [victims, h]

theorem entries_append_solo (h : f.workers = 1) (x : α) : (f.append 0 x).entries = f.entries ++ [x] := by
  obtain ⟨d, hd⟩ := List.length_eq_one_iff.1 h
  simp [entries, append, hd]

theorem entries_seed_solo (h : f.workers = 1) (x : α) : (f.seed x).entries = f.entries ++ [x] := by
  have hturn : f.seeded % f.workers = 0 := by rw [h, Nat.mod_one]
  have happ : (f.seed x).entries = (f.announce.append (f.seeded % f.workers) x).entries := rfl
  rw [happ, hturn]
  exact entries_append_solo (f := f.announce) h x

theorem takeLocal_oldest (h : f.workers = 1) (ho : f.order = .breadthFirst) {x : α} (ht : f.takeLocal 0 = some (x, f')) :
    f.entries = x :: f'.entries := by
  obtain ⟨d, hd⟩ := List.length_eq_one_iff.1 h
  rw [takeLocal_eq, ho, hd] at ht
  obtain ⟨⟨y, d'⟩, hpop, hres⟩ := Option.map_eq_some_iff.1 ht
  cases hres
  have hlist := Deque.toList_of_popOldest? hpop
  simp [entries, hd, hlist]

/-- A breadth-first pop takes the oldest entry. -/
theorem pop_oldest (h : f.workers = 1) (ho : f.order = .breadthFirst) {x : α} {pick : Nat} {theft : Option Theft}
    (hpop : f.pop 0 pick = (.entry x, theft, f')) : f.entries = x :: f'.entries := by
  unfold pop at hpop
  cases hs : f.stopRequested with
  | true =>
    rw [hs] at hpop
    cases hpop
  | false =>
    rw [hs, victims_solo h] at hpop
    cases ht : f.takeLocal 0 with
    | none =>
      rw [ht] at hpop
      cases he : f.exhausted <;> simp [he] at hpop
    | some r =>
      rw [ht] at hpop
      cases hpop
      exact takeLocal_oldest h ho ht

end

end StateSpace.Frontier
