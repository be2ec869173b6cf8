import Mathlib.Data.List.Nodup
import Mathlib.Data.List.Perm.Basic
import StateSpace.Registry.Table

/-!
# Tables hold what was put into them

A binding is found again because no slot between its home and its own is ever freed.

* `Passed t key start d` : the `d` slots from `start` on are taken by other keys than `key`;
* `probeFrom_spec` : what a search has passed when it ends;
* `Table.Sound` : every binding is where a search for its key gets to, and there is room left;
* `Sound.probe_eq_found_iff`, `Sound.probe_ne_full` : a search answers from the bindings;
* `Sound.place`, `Sound.grow` : the two ways a table changes, with the bindings they leave.
-/

namespace StateSpace.Registry.Table

variable {κ ν : Type}

/-! ## Slots and bindings -/

theorem mem_bindings {t : Table κ ν} {b : κ × ν} : b ∈ t.bindings ↔ ∃ i : Nat, t.slots[i]? = some (some b) := by
  simp only [bindings, List.mem_filterMap, id_eq, exists_eq_right, Array.mem_toList_iff, Array.mem_iff_getElem?]

theorem filterMap_set_perm {α : Type} {x : α} : ∀ {l : List (Option α)} {i : Nat}, l[i]? = some none →
    ((l.set i (some x)).filterMap id).Perm (x :: l.filterMap id)
  | none :: l, 0, _ => by simp
  | some y :: l, 0, h => by simp at h
  | none :: l, i + 1, h => by
    simpa using filterMap_set_perm (l := l) (i := i) (by simpa using h)
  | some y :: l, i + 1, h => by
    have ih := filterMap_set_perm (x := x) (l := l) (i := i) (by simpa using h)
    simpa using (ih.cons y).trans (List.Perm.swap x y _)

theorem bindings_place_perm {t : Table κ ν} {slot : Nat} (key : κ) (value : ν) (h : t.slots[slot]? = some none) :
    (t.place slot key value).bindings.Perm ((key, value) :: t.bindings) := by
  simp only [bindings, place, Array.toList_setIfInBounds]
  exact filterMap_set_perm (by simpa using h)

theorem exists_free_slot {t : Table κ ν} (h : t.bindings.length < t.slots.size) :
    ∃ i : Nat, t.slots[i]? = some none := by
  rw [← Array.length_toList, bindings, List.length_filterMap_lt_length_iff_exists] at h
  obtain ⟨o, ho, hnone⟩ := h
  rw [id_eq] at hnone
  subst hnone
  exact Array.mem_iff_getElem?.1 (Array.mem_toList_iff.1 ho)

/-! ## Searching -/

/-- The `d` slots from `start` on, round the end, are taken by other keys. -/
def Passed (t : Table κ ν) (key : κ) (start d : Nat) : Prop :=
  ∀ j < d, ∃ b : κ × ν, t.slots[(start + j) % t.slots.size]? = some (some b) ∧ b.1 ≠ key

theorem Passed.zero (t : Table κ ν) (key : κ) (start : Nat) : Passed t key start 0 :=
  fun j hj => absurd hj (Nat.not_lt_zero j)

theorem Passed.cons {t : Table κ ν} {key : κ} {start d : Nat} {b : κ × ν} (hs : start < t.slots.size)
    (hb : t.slots[start]? = some (some b)) (hne : b.1 ≠ key)
    (h : Passed t key ((start + 1) % t.slots.size) d) : Passed t key start (d + 1) := by
  intro j hj
  cases j with
  | zero => exact ⟨b, by rwa [Nat.add_zero, Nat.mod_eq_of_lt hs], hne⟩
  | succ j =>
    obtain ⟨c, hc, hck⟩ := h j (by omega)
    rw [Nat.mod_add_mod] at hc
    exact ⟨c, by rwa [show start + (j + 1) = start + 1 + j by omega], hck⟩

theorem Passed.le {t : Table κ ν} {key : κ} {start d i : Nat} {v : ν} (h : Passed t key start d)
    (hv : t.slots[(start + i) % t.slots.size]? = some (some (key, v))) : d ≤ i := by
  apply Nat.le_of_not_lt
  intro hlt
  obtain ⟨b, hb, hne⟩ := h i hlt
  rw [hv] at hb
  cases hb
  exact hne rfl

/-- Where a search ends, and that it has passed only other keys on its way. -/
theorem probeFrom_spec [DecidableEq κ] (t : Table κ ν) (key : κ) : ∀ (left slot : Nat), slot < t.slots.size →
    match t.probeFrom key left slot with
    | .found v => ∃ d < left, t.slots[(slot + d) % t.slots.size]? = some (some (key, v)) ∧ Passed t key slot d
    | .free s => ∃ d < left, s = (slot + d) % t.slots.size ∧ t.slots[s]? = some none ∧ Passed t key slot d
    | .full => Passed t key slot left := by
  intro left
  induction left with
  | zero => intro slot _; exact Passed.zero t key slot
  | succ left ih =>
    intro slot hs
    unfold probeFrom
    have hget : t.slots[slot]? = some t.slots[slot] := Array.getElem?_eq_getElem hs
    rw [hget]
    cases hb : t.slots[slot] with
    | none =>
      refine ⟨0, by omega, ?_, ?_, Passed.zero t key slot⟩
      · rw [Nat.add_zero, Nat.mod_eq_of_lt hs]
      · rw [hget, hb]
    | some b =>
      obtain ⟨k, v⟩ := b
      rw [hb] at hget
      by_cases hk : k = key
      · subst hk
        simp only [if_true]
        exact ⟨0, by omega, by rwa [Nat.add_zero, Nat.mod_eq_of_lt hs], Passed.zero t k slot⟩
      · simp only [if_neg hk]
        have ih := ih ((slot + 1) % t.slots.size) (Nat.mod_lt _ (by omega))
        have hstep : ∀ d, ((slot + 1) % t.slots.size + d) % t.slots.size = (slot + (d + 1)) % t.slots.size := by
          intro d
          rw [Nat.mod_add_mod, show slot + 1 + d = slot + (d + 1) by omega]
        -- one slot was passed, so each offset found from the next slot on grows by one
        split at ih
        · obtain ⟨d, hd, hf, hp⟩ := ih
          exact ⟨d + 1, by omega, by rwa [← hstep], hp.cons hs hget hk⟩
        · obtain ⟨d, hd, hf, hn, hp⟩ := ih
          exact ⟨d + 1, by omega, by rwa [← hstep], hn, hp.cons hs hget hk⟩
        · exact ih.cons hs hget hk

variable [ToWord κ]

theorem home_lt {t : Table κ ν} (h : 0 < t.slots.size) (key : κ) : t.home key < t.slots.size := Nat.mod_lt _ h

/-! ## Sound tables -/

/-- Searches find every binding, keys are bound once, and at most three quarters of the slots are taken. -/
structure Sound (t : Table κ ν) : Prop where
  pos : 0 < t.slots.size
  count_eq : t.count = t.bindings.length
  room : 4 * t.count ≤ 3 * t.slots.size
  nodup : (t.bindings.map Prod.fst).Nodup
  reach : ∀ i b, t.slots[i]? = some (some b) →
    ∃ d < t.slots.size, i = (t.home b.1 + d) % t.slots.size ∧ Passed t b.1 (t.home b.1) d

theorem sound_empty {length : Nat} (h : 0 < length) : Sound (empty length : Table κ ν) := by
  refine ⟨by simpa using h, by rw [bindings_empty]; rfl, by simp [empty], by simp, ?_⟩
  intro i b hb
  have hmem : b ∈ (empty length : Table κ ν).bindings := mem_bindings.2 ⟨i, hb⟩
  simp at hmem

variable {t : Table κ ν}

theorem Sound.bindings_lt (h : t.Sound) : t.bindings.length < t.slots.size := by
  have h1 := h.pos
  have h2 := h.room
  have h3 := h.count_eq
  omega

omit [ToWord κ] in
theorem not_crowded_iff : t.crowded = false ↔ 4 * (t.count + 1) ≤ 3 * t.slots.size := by
  simp [crowded]

theorem exists_offset {n start i : Nat} (hs : start < n) (hi : i < n) : ∃ d < n, (start + d) % n = i := by
  refine ⟨(n - start + i) % n, Nat.mod_lt _ (by omega), ?_⟩
  rw [Nat.add_mod_mod, show start + (n - start + i) = i + n by omega, Nat.add_mod_right, Nat.mod_eq_of_lt hi]

variable [DecidableEq κ]

theorem Sound.probe_ne_full (h : t.Sound) (key : κ) : t.probe key ≠ .full := by
  intro hp
  have hspec := probeFrom_spec t key t.slots.size (t.home key) (home_lt h.pos key)
  unfold probe at hp
  rw [hp] at hspec
  obtain ⟨i, hi⟩ := exists_free_slot h.bindings_lt
  have hlt : i < t.slots.size := (Array.getElem?_eq_some_iff.1 hi).1
  obtain ⟨d, hd, hdi⟩ := exists_offset (home_lt h.pos key) hlt
  obtain ⟨b, hb, -⟩ := hspec d hd
  rw [hdi, hi] at hb
  cases hb

theorem probe_free {key : κ} {slot : Nat} (hpos : 0 < t.slots.size) (hp : t.probe key = .free slot) :
    ∃ d < t.slots.size, slot = (t.home key + d) % t.slots.size ∧ t.slots[slot]? = some none ∧
      Passed t key (t.home key) d := by
  have hspec := probeFrom_spec t key t.slots.size (t.home key) (home_lt hpos key)
  unfold probe at hp
  rwa [hp] at hspec

theorem probe_found {key : κ} {v : ν} (hpos : 0 < t.slots.size) (hp : t.probe key = .found v) :
    ∃ d < t.slots.size, t.slots[(t.home key + d) % t.slots.size]? = some (some (key, v)) ∧
      Passed t key (t.home key) d := by
  have hspec := probeFrom_spec t key t.slots.size (t.home key) (home_lt hpos key)
  unfold probe at hp
  rwa [hp] at hspec

/-- A search does not end at a free slot if its key is bound. -/
theorem Sound.not_mem_of_probe_free (h : t.Sound) {key : κ} {slot : Nat} (hp : t.probe key = .free slot) (v : ν) :
    (key, v) ∉ t.bindings := by
  intro hmem
  obtain ⟨i, hi⟩ := mem_bindings.1 hmem
  obtain ⟨d, hd, rfl, hpass⟩ := h.reach i _ hi
  obtain ⟨e, he, rfl, hfree, hpass'⟩ := probe_free h.pos hp
  rcases Nat.lt_trichotomy d e with hlt | rfl | hlt
  · exact absurd hlt (Nat.not_lt_of_le (hpass'.le hi))
  · rw [hi] at hfree
    cases hfree
  · obtain ⟨b, hb, -⟩ := hpass e hlt
    rw [hfree] at hb
    cases hb

/-- A search finds exactly what is bound. -/
theorem Sound.probe_eq_found_iff (h : t.Sound) {key : κ} {v : ν} :
    t.probe key = .found v ↔ (key, v) ∈ t.bindings := by
  constructor
  · intro hp
    obtain ⟨d, -, hd, -⟩ := probe_found h.pos hp
    exact mem_bindings.2 ⟨_, hd⟩
  · intro hmem
    cases hp : t.probe key with
    | full => exact absurd hp (h.probe_ne_full key)
    | free slot => exact absurd hmem (h.not_mem_of_probe_free hp v)
    | found w =>
      obtain ⟨d, -, hd, -⟩ := probe_found h.pos hp
      have hw : (key, w) ∈ t.bindings := mem_bindings.2 ⟨_, hd⟩
      have heq : (key, v) = (key, w) := List.inj_on_of_nodup_map h.nodup hmem hw rfl
      cases heq
      rfl

/-! ## Changing tables -/

omit [ToWord κ] [DecidableEq κ] in
theorem Passed.place {key : κ} {start d slot : Nat} (hfree : t.slots[slot]? = some none) (k : κ) (v : ν)
    (h : Passed t key start d) : Passed (t.place slot k v) key start d := by
  intro j hj
  obtain ⟨b, hb, hne⟩ := h j hj
  refine ⟨b, ?_, hne⟩
  have hslot : slot ≠ (start + j) % t.slots.size := by
    rintro rfl
    rw [hfree] at hb
    cases hb
  rw [slots_size_place]
  simpa only [Table.place, Array.getElem?_setIfInBounds_ne hslot] using hb

theorem Sound.place (h : t.Sound) {key : κ} {slot : Nat} (hp : t.probe key = .free slot)
    (hroom : 4 * (t.count + 1) ≤ 3 * t.slots.size) (v : ν) : (t.place slot key v).Sound := by
  obtain ⟨e, he, heq, hfree, hpass⟩ := probe_free h.pos hp
  have hperm := bindings_place_perm key v hfree
  have hlt : slot < t.slots.size := (Array.getElem?_eq_some_iff.1 hfree).1
  refine ⟨by simpa using h.pos, ?_, by simpa using hroom, ?_, ?_⟩
  · rw [hperm.length_eq, count_place, h.count_eq, List.length_cons]
  · rw [(hperm.map Prod.fst).nodup_iff, List.map_cons, List.nodup_cons]
    refine ⟨fun hmem => ?_, h.nodup⟩
    obtain ⟨⟨k, w⟩, hb, rfl⟩ := List.mem_map.1 hmem
    exact h.not_mem_of_probe_free hp w hb
  · intro i b hb
    rw [slots_size_place]
    have hhome : ∀ k, (t.place slot key v).home k = t.home k := by
      intro k
      simp only [home, slots_size_place]
    rw [hhome]
    by_cases hi : slot = i
    · subst hi
      have hb' : b = (key, v) := by
        rw [Table.place, Array.getElem?_setIfInBounds_self_of_lt hlt] at hb
        simpa using hb.symm
      subst hb'
      exact ⟨e, he, heq, hpass.place hfree key v⟩
    · rw [Table.place, Array.getElem?_setIfInBounds_ne hi] at hb
      obtain ⟨d, hd, hid, hpd⟩ := h.reach i b hb
      exact ⟨d, hd, hid, hpd.place hfree key v⟩

/-- Inserting a key that is not bound adds its binding. -/
theorem Sound.insert (h : t.Sound) {key : κ} (v : ν) (hnew : key ∉ t.bindings.map Prod.fst)
    (hroom : 4 * (t.count + 1) ≤ 3 * t.slots.size) :
    ∃ t', t.insert key v = .ok t' ∧ t'.Sound ∧ t'.bindings.Perm ((key, v) :: t.bindings) ∧
      t'.slots.size = t.slots.size := by
  unfold Table.insert
  cases hp : t.probe key with
  | full => exact absurd hp (h.probe_ne_full key)
  | found w =>
    exact absurd (List.mem_map.2 ⟨(key, w), h.probe_eq_found_iff.1 hp, rfl⟩) hnew
  | free slot =>
    obtain ⟨d, -, -, hfree, -⟩ := probe_free h.pos hp
    exact ⟨_, rfl, h.place hp hroom v, bindings_place_perm key v hfree, slots_size_place t slot key v⟩

theorem Sound.insertAll : ∀ (bs : List (κ × ν)) {t : Table κ ν}, t.Sound →
    ((bs ++ t.bindings).map Prod.fst).Nodup → 4 * (t.count + bs.length) ≤ 3 * t.slots.size →
    ∃ t', bs.foldlM (fun t b => t.insert b.1 b.2) t = .ok t' ∧ t'.Sound ∧ t'.bindings.Perm (bs ++ t.bindings) ∧
      t'.slots.size = t.slots.size
  | [], t, h, _, _ => ⟨t, rfl, h, List.Perm.refl _, rfl⟩
  | b :: bs, t, h, hnd, hroom => by
    have hnd' := hnd
    simp only [List.cons_append, List.map_cons, List.nodup_cons] at hnd'
    rw [List.length_cons] at hroom
    have hnew : b.1 ∉ t.bindings.map Prod.fst := by
      intro hmem
      exact hnd'.1 (by rw [List.map_append]; exact List.mem_append_right _ hmem)
    obtain ⟨t₁, h₁, hs₁, hp₁, hz₁⟩ := h.insert b.2 hnew (by omega)
    have hmid : (bs ++ t₁.bindings).Perm (b :: bs ++ t.bindings) :=
      (hp₁.append_left bs).trans List.perm_middle
    have hcount : t₁.count = t.count + 1 := by
      rw [hs₁.count_eq, hp₁.length_eq, List.length_cons, h.count_eq]
    obtain ⟨t₂, h₂, hs₂, hp₂, hz₂⟩ := Sound.insertAll bs hs₁ ((hmid.map Prod.fst).nodup_iff.2 hnd)
      (by rw [hcount, hz₁]; omega)
    refine ⟨t₂, ?_, hs₂, hp₂.trans hmid, hz₂.trans hz₁⟩
    rw [List.foldlM_cons, h₁]
    exact h₂

/-- **Growing** never fails, keeps the bindings and makes room for one more. -/
theorem Sound.grow (h : t.Sound) :
    ∃ t', t.grow = .ok t' ∧ t'.Sound ∧ t'.bindings.Perm t.bindings ∧ 4 * (t'.count + 1) ≤ 3 * t'.slots.size := by
  have hpos := h.pos
  have hroom := h.room
  have hcount := h.count_eq
  obtain ⟨t', ht', hs', hp', hz'⟩ := Sound.insertAll t.bindings (sound_empty (ν := ν) (κ := κ)
    (show 0 < t.slots.size * 2 by omega)) (by simpa using h.nodup) (by simp [empty]; omega)
  rw [bindings_empty, List.append_nil] at hp'
  rw [slots_size_empty] at hz'
  refine ⟨t', ht', hs', hp', ?_⟩
  rw [hs'.count_eq, hp'.length_eq, hz', ← hcount]
  omega

end StateSpace.Registry.Table
