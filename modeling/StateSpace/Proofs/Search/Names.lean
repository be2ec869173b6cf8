import StateSpace.Proofs.Search.Lineage
import StateSpace.Search.Outcome

/-!
# Discoveries by name

Names of properties may repeat. A property asked for by name is the first that has it, whether it is resolved or not, while
the runs by name are those of the first properties that are resolved.

* `mem_bindSorted` : what a list that is sorted by name binds when a name is added;
* `named m s` : the names of the properties in order, each with the run to its discovery; `resolvedRuns` : those with a run;
* `discovery_eq`, `discoveries?_eq`, `resolved_eq` : the three ways to ask for discoveries, read off these lists;
* `Shadowed m s name` : a property with the name is resolved, but the first is not;
* `discovery_by_name` : so the three agree, except on names that are shadowed.
-/

namespace StateSpace.Search

variable {σ α β : Type}

/-! ## Lists sorted by name -/

def Ascending (l : List (String × β)) : Prop := l.Pairwise fun x y => x.1 < y.1

theorem Ascending.not_mem {l : List (String × β)} {b : String × β} (h : Ascending (b :: l)) {name : String}
    (hlt : name < b.1) : name ∉ (b :: l).map Prod.fst := by
  intro hmem
  obtain ⟨c, hc, rfl⟩ := List.mem_map.1 hmem
  rcases List.mem_cons.1 hc with rfl | hc
  · exact String.lt_irrefl _ hlt
  · exact String.lt_irrefl _ (String.lt_trans hlt ((List.pairwise_cons.1 h).1 c hc))

theorem Ascending.nodup_keys {l : List (String × β)} (h : Ascending l) : (l.map Prod.fst).Nodup := by
  refine List.pairwise_map.2 (h.imp fun {x y} hlt heq => ?_)
  rw [heq] at hlt
  exact String.lt_irrefl _ hlt

theorem mem_keys_iff {l : List (String × β)} {name : String} :
    name ∈ l.map Prod.fst ↔ ∃ x, l.lookup name = some x := by
  cases hl : l.lookup name with
  | none =>
    refine iff_of_false (fun hmem => ?_) (by simp)
    obtain ⟨b, hb, rfl⟩ := List.mem_map.1 hmem
    simpa using List.lookup_eq_none_iff.1 hl b hb
  | some x =>
    obtain ⟨before, after, rfl, -⟩ := List.lookup_eq_some_iff.1 hl
    exact iff_of_true (by simp) ⟨x, rfl⟩

theorem mem_bindSorted {l : List (String × β)} (h : Ascending l) {name : String} {x : β} {b : String × β} :
    b ∈ bindSorted name x l ↔ b ∈ l ∨ b = (name, x) ∧ name ∉ l.map Prod.fst := by
  induction l with
  | nil => simp [bindSorted]
  | cons c l ih =>
    obtain ⟨n, y⟩ := c
    unfold bindSorted
    split
    · rename_i hlt
      rw [List.mem_cons, and_iff_left (h.not_mem hlt), or_comm]
    · split
      · rename_i heq
        simp [heq]
      · rename_i hne
        rw [List.mem_cons, ih (List.pairwise_cons.1 h).2, List.mem_cons, List.map_cons, List.mem_cons]
        simp [hne, or_assoc]

theorem mem_keys_bindSorted {l : List (String × β)} (h : Ascending l) {name k : String} {x : β} :
    k ∈ (bindSorted name x l).map Prod.fst ↔ k ∈ l.map Prod.fst ∨ k = name := by
  constructor
  · intro hk
    obtain ⟨b, hb, rfl⟩ := List.mem_map.1 hk
    rcases (mem_bindSorted h).1 hb with hb | ⟨rfl, -⟩
    · exact Or.inl (List.mem_map_of_mem hb)
    · exact Or.inr rfl
  · intro hk
    by_cases hmem : k ∈ l.map Prod.fst
    · obtain ⟨b, hb, rfl⟩ := List.mem_map.1 hmem
      exact List.mem_map_of_mem ((mem_bindSorted h).2 (Or.inl hb))
    · obtain rfl := hk.resolve_left hmem
      exact List.mem_map.2 ⟨(k, x), (mem_bindSorted h).2 (Or.inr ⟨rfl, hmem⟩), rfl⟩

theorem Ascending.bindSorted {l : List (String × β)} (h : Ascending l) (name : String) (x : β) :
    Ascending (bindSorted name x l) := by
  induction l with
  | nil => exact List.pairwise_singleton _ _
  | cons c l ih =>
    obtain ⟨n, y⟩ := c
    obtain ⟨hc, hl⟩ := List.pairwise_cons.1 h
    unfold Search.bindSorted
    split
    · rename_i hlt
      refine List.pairwise_cons.2 ⟨fun b hb => ?_, h⟩
      rcases List.mem_cons.1 hb with rfl | hb
      · exact hlt
      · exact String.lt_trans hlt (hc b hb)
    · split
      · exact h
      · rename_i hnot hne
        refine List.pairwise_cons.2 ⟨fun b hb => ?_, ih hl⟩
        rcases (mem_bindSorted hl).1 hb with hb | ⟨rfl, -⟩
        · exact hc b hb
        · exact Std.lt_of_le_of_ne (String.not_lt.1 hnot) (Ne.symm hne)

/-- Binding names one after another gives each the first of its values. -/
theorem mem_bindAll (found : List (String × β)) {bound : List (String × β)} (h : Ascending bound) :
    Ascending (found.foldl (fun l b => bindSorted b.1 b.2 l) bound) ∧
    ∀ name x, (name, x) ∈ found.foldl (fun l b => bindSorted b.1 b.2 l) bound ↔
      (name, x) ∈ bound ∨ name ∉ bound.map Prod.fst ∧ found.lookup name = some x := by
  induction found generalizing bound with
  | nil => exact ⟨h, fun name x => by simp⟩
  | cons b found ih =>
    obtain ⟨n, y⟩ := b
    obtain ⟨hasc, hmem⟩ := ih (h.bindSorted n y)
    refine ⟨hasc, fun name x => ?_⟩
    rw [List.foldl_cons, hmem, mem_bindSorted h, mem_keys_bindSorted h, List.lookup_cons]
    by_cases hn : name = n
    · subst hn
      simp [eq_comm, and_comm]
    · have hbeq : (name == n) = false := beq_eq_false_iff_ne.2 hn
      simp [hn, hbeq]

/-! ## Runs by name -/

def resolvedRuns (l : List (String × Option β)) : List (String × β) := l.filterMap fun x => x.2.map fun y => (x.1, y)

theorem lookup_resolvedRuns {l : List (String × Option β)} {name : String} (h : l.lookup name ≠ some none) :
    (resolvedRuns l).lookup name = (l.lookup name).join := by
  induction l with
  | nil => rfl
  | cons x l ih =>
    obtain ⟨n, o⟩ := x
    rw [List.lookup_cons] at h ⊢
    by_cases hn : name = n
    · subst hn
      cases o with
      | none => simp at h
      | some y => simp [resolvedRuns]
    · have hbeq : (name == n) = false := beq_eq_false_iff_ne.2 hn
      rw [hbeq] at h ⊢
      rw [← ih h]
      cases o with
      | none => rfl
      | some y => simp [resolvedRuns, List.lookup_cons, hbeq]

variable {m : Model σ α} {s : Search σ α}

/-- The run to the discovery of a property, if there is one and it can be rebuilt. -/
def runAt (m : Model σ α) (s : Search σ α) (i : Nat) : Option (Path σ α) := (s.discoveryAt m i).toOption.join

/-- The names of the properties in order, each with the run to its discovery. -/
def named (m : Model σ α) (s : Search σ α) : List (String × Option (Path σ α)) :=
  m.properties.zipIdx.map fun x => (x.1.name, runAt m s x.2)

def Reconstructible (m : Model σ α) (s : Search σ α) : Prop :=
  ∀ i fp, s.discoveries.get? i = some fp → ∃ path : Path σ α, Path.reconstruct m s.registry fp = .ok path

theorem discoveryAt_eq (h : Reconstructible m s) (i : Nat) :
    s.discoveryAt m i = .ok (runAt m s i) ∧ (runAt m s i).isSome = (s.discoveries.get? i).isSome := by
  unfold runAt
  cases hd : s.discoveries.get? i with
  | none =>
    have hat : s.discoveryAt m i = .ok none := by
      unfold discoveryAt
      rw [hd]
    rw [hat]
    exact ⟨rfl, rfl⟩
  | some fp =>
    obtain ⟨path, hpath⟩ := h i fp hd
    have hat : s.discoveryAt m i = .ok (some path) := by
      unfold discoveryAt
      simp only [hd, hpath]
      rfl
    rw [hat]
    exact ⟨rfl, rfl⟩

/-- Every discovery can be rebuilt if fingerprints tell reachable states apart. -/
theorem after_reconstructible {cfg : Config σ} (hinj : Set.InjOn m.fingerprint {t | m.Reachable t})
    (hseed : (seed m cfg).1 = .ok ()) (moves : List Move) : Reconstructible m (after m cfg moves) := by
  intro i fp hd
  obtain ⟨g, hr, -⟩ := after_reached hseed moves
  obtain ⟨hslot, hne⟩ := Discoveries.get?_eq_some.1 hd
  obtain ⟨l, hl, hfp, -⟩ := hr.judgement.backed i (by rwa [hslot])
  obtain ⟨path, hrec, -⟩ := hr.reconstruct_eq hinj hl
  rw [hfp, hslot] at hrec
  exact ⟨path, hrec⟩

theorem lookup_zipIdx (f : Nat → β) (ps : List (Property σ)) (name : String) (k : Nat) :
    ((ps.zipIdx k).map fun x => (x.1.name, f x.2)).lookup name = (findProperty? ps name).map fun i => f (i + k) := by
  unfold findProperty?
  induction ps generalizing k with
  | nil => rfl
  | cons p ps ih =>
    rw [List.zipIdx_cons, List.map_cons, List.lookup_cons, List.findIdx?_cons, ih]
    by_cases hn : name = p.name
    · simp [hn]
    · have hbeq : (name == p.name) = false := beq_eq_false_iff_ne.2 hn
      have hbeq' : (p.name == name) = false := beq_eq_false_iff_ne.2 (Ne.symm hn)
      rw [hbeq, if_neg (by simp [hbeq']), Option.map_map]
      dsimp only
      congr 1
      funext i
      show f (i + (k + 1)) = f (i + 1 + k)
      rw [Nat.add_comm k 1, Nat.add_assoc]

theorem lookup_named (name : String) : (named m s).lookup name = (findProperty? m.properties name).map (runAt m s) :=
  lookup_zipIdx (runAt m s) m.properties name 0

/-- A property asked for by name is the first with it. -/
theorem discovery_eq (h : Reconstructible m s) (name : String) : s.discovery m name = .ok ((named m s).lookup name).join := by
  unfold discovery
  rw [lookup_named]
  cases findProperty? m.properties name with
  | none => rfl
  | some i => exact (discoveryAt_eq h i).1

theorem discoveries?_eq (h : Reconstructible m s) :
    s.discoveries? m = .ok ((resolvedRuns (named m s)).foldl (fun l b => bindSorted b.1 b.2 l) []) := by
  unfold discoveries? named
  generalize ([] : List (String × Path σ α)) = bound
  induction m.properties.zipIdx generalizing bound with
  | nil => rfl
  | cons x l ih =>
    obtain ⟨p, i⟩ := x
    rw [List.foldlM_cons]
    dsimp only
    rw [(discoveryAt_eq h i).1]
    cases hrun : runAt m s i with
    | none =>
      have hlist : resolvedRuns (((p, i) :: l).map fun x => (x.1.name, runAt m s x.2)) =
          resolvedRuns (l.map fun x => (x.1.name, runAt m s x.2)) := by simp [resolvedRuns, hrun]
      rw [hlist]
      exact ih bound
    | some path =>
      have hlist : resolvedRuns (((p, i) :: l).map fun x => (x.1.name, runAt m s x.2)) =
          (p.name, path) :: resolvedRuns (l.map fun x => (x.1.name, runAt m s x.2)) := by simp [resolvedRuns, hrun]
      rw [hlist]
      exact ih (bindSorted p.name path bound)

/-- Each name is bound once, to the first run that there is for it. -/
theorem discoveries?_spec (h : Reconstructible m s) :
    ∃ runs, s.discoveries? m = .ok runs ∧ (runs.map Prod.fst).Nodup ∧
      ∀ name path, (name, path) ∈ runs ↔ (resolvedRuns (named m s)).lookup name = some path := by
  have hnil : Ascending ([] : List (String × Path σ α)) := List.Pairwise.nil
  obtain ⟨hascending, hmem⟩ := mem_bindAll (resolvedRuns (named m s)) hnil
  refine ⟨_, discoveries?_eq h, hascending.nodup_keys, fun name path => ?_⟩
  rw [hmem]
  simp

/-- The names of the resolved properties are those with a run. -/
theorem resolved_eq (h : Reconstructible m s) : (s.status m).resolved = (resolvedRuns (named m s)).map Prod.fst := by
  unfold status resolvedRuns named
  rw [List.filterMap_map, List.map_filterMap]
  apply List.filterMap_congr
  intro x _
  have hsome := (discoveryAt_eq h x.2).2
  cases hd : s.discoveries.get? x.2 <;> cases hrun : runAt m s x.2 <;> simp_all

/-! ## Shadowed names -/

/-- A property with the name is resolved, but the first property with the name is not. -/
def Shadowed (m : Model σ α) (s : Search σ α) (name : String) : Prop :=
  (∃ i, findProperty? m.properties name = some i ∧ s.discoveries.get? i = none) ∧
  ∃ j p, m.properties[j]? = some p ∧ p.name = name ∧ s.discoveries.get? j ≠ none

theorem mem_resolved {name : String} : name ∈ (s.status m).resolved ↔
    ∃ j p, m.properties[j]? = some p ∧ p.name = name ∧ s.discoveries.get? j ≠ none := by
  unfold status
  simp only [List.mem_filterMap, List.mem_zipIdx_iff_getElem?, Option.map_eq_some_iff]
  constructor
  · rintro ⟨⟨p, j⟩, hp, fp, hfp, rfl⟩
    exact ⟨j, p, hp, rfl, by simp [hfp]⟩
  · rintro ⟨j, p, hp, rfl, hd⟩
    obtain ⟨fp, hfp⟩ := Option.ne_none_iff_exists'.1 hd
    exact ⟨(p, j), hp, fp, hfp, rfl⟩

theorem shadowed_iff (h : Reconstructible m s) {name : String} :
    Shadowed m s name ↔ (named m s).lookup name = some none ∧ name ∈ (s.status m).resolved := by
  have hnone : ∀ i, runAt m s i = none ↔ s.discoveries.get? i = none := by
    intro i
    rw [← Option.not_isSome_iff_eq_none, (discoveryAt_eq h i).2, Option.not_isSome_iff_eq_none]
  rw [Shadowed, lookup_named, mem_resolved, Option.map_eq_some_iff]
  simp only [hnone]

theorem not_shadowed (h : (m.properties.map Property.name).Nodup) (name : String) : ¬ Shadowed m s name := by
  rintro ⟨⟨i, hi, hnone⟩, j, p, hj, rfl, hsome⟩
  obtain ⟨hlt, hname, -⟩ := List.findIdx?_eq_some_iff_getElem.1 hi
  have hij : i = j := by
    obtain ⟨hlt', rfl⟩ := List.getElem?_eq_some_iff.1 hj
    have hi' : i < (m.properties.map Property.name).length := by simpa using hlt
    have hj' : j < (m.properties.map Property.name).length := by simpa using hlt'
    have heq : (m.properties.map Property.name)[i] = (m.properties.map Property.name)[j] := by simpa using hname
    exact h.getElem_inj_iff.1 heq
  rw [hij] at hnone
  exact hsome hnone

/-- **Discoveries by name.** Asking for a name gives the run that is bound to it, unless the name is shadowed: then it
gives nothing, though a run is bound. -/
theorem discovery_by_name (m : Model σ α) (s : Search σ α) (h : Reconstructible m s) :
    ∃ runs, s.discoveries? m = .ok runs ∧ (runs.map Prod.fst).Nodup ∧
      (∀ name, name ∈ (s.status m).resolved ↔ ∃ path, (name, path) ∈ runs) ∧
      (∀ name, ∃ found, s.discovery m name = .ok found ∧
        (∀ path, found = some path ↔ (name, path) ∈ runs ∧ ¬ Shadowed m s name) ∧
        (Shadowed m s name ↔ found = none ∧ ∃ path, (name, path) ∈ runs)) ∧
      ((m.properties.map Property.name).Nodup → ∀ name, ¬ Shadowed m s name) := by
  obtain ⟨runs, hruns, hnodup, hmem⟩ := discoveries?_spec h
  have hbound : ∀ name, name ∈ (s.status m).resolved ↔ ∃ path, (name, path) ∈ runs := by
    intro name
    rw [resolved_eq h, mem_keys_iff]
    exact exists_congr fun path => (hmem name path).symm
  refine ⟨runs, hruns, hnodup, hbound, fun name => ⟨_, discovery_eq h name, ?_⟩, not_shadowed⟩
  rw [shadowed_iff h, hbound]
  by_cases hl : (named m s).lookup name = some none
  · -- the first property with the name is not resolved, and nothing is found
    rw [hl]
    refine ⟨fun path => ?_, by simp⟩
    exact iff_of_false (by simp) fun hpath => hpath.2 ⟨rfl, path, hpath.1⟩
  · have hfound : (resolvedRuns (named m s)).lookup name = ((named m s).lookup name).join := lookup_resolvedRuns hl
    refine ⟨fun path => ?_, iff_of_false (fun hs => hl hs.1) ?_⟩
    · rw [← hfound, ← hmem, and_iff_left fun hs => hl hs.1]
    · rintro ⟨hnone, path, hpath⟩
      rw [← hfound, (hmem name path).1 hpath] at hnone
      cases hnone

/-- Two properties with one name, of which the second is violated. -/
def namesakes : Graph where
  init := [0]
  fans := #[.edges [.state 1], .edges []]
  properties := [⟨"safe", .always, fun _ => .ok true⟩, ⟨"safe", .always, fun t => .ok (t < 1)⟩]

/-- The search of the namesakes when it is over: asked for the name it gives nothing, though it has a run by that name. -/
theorem discovery_by_name_namesakes :
    (after namesakes.model broad (List.replicate 20 (.work 0 0))).done = true ∧
    Shadowed namesakes.model (after namesakes.model broad (List.replicate 20 (.work 0 0))) "safe" ∧
    (after namesakes.model broad (List.replicate 20 (.work 0 0))).discovery namesakes.model "safe" = .ok none ∧
    ∃ runs path, (after namesakes.model broad (List.replicate 20 (.work 0 0))).discoveries? namesakes.model = .ok runs ∧
      ("safe", path) ∈ runs := by
  have hinj : Set.InjOn namesakes.model.fingerprint {t | namesakes.model.Reachable t} :=
    namesakes.injOn_fingerprint (L := [0, 1]) (by decide) (by decide +kernel)
  have hrec : Reconstructible namesakes.model (after namesakes.model broad (List.replicate 20 (.work 0 0))) :=
    after_reconstructible hinj (by decide +kernel) _
  have hshadowed : Shadowed namesakes.model (after namesakes.model broad (List.replicate 20 (.work 0 0))) "safe" :=
    ⟨⟨0, by decide, by decide +kernel⟩, 1, _, rfl, rfl, by decide +kernel⟩
  obtain ⟨runs, hruns, -, -, hname, -⟩ := discovery_by_name _ _ hrec
  obtain ⟨found, hfound, -, hiff⟩ := hname "safe"
  obtain ⟨rfl, path, hpath⟩ := hiff.1 hshadowed
  exact ⟨by decide +kernel, hshadowed, hfound, runs, path, hruns, hpath⟩

end StateSpace.Search
