import Mathlib.Algebra.Ring.Nat
import StateSpace.Proofs.Registry.History

/-!
# How the shards of a registry are laid out

A shard grows before it looks for the key, so that an insertion which binds nothing may double its length. That cannot go
on: a shard is crowded only while its bindings are many for its length.

* `Table.Fits initial t` : the length is a power of two, and has not outgrown the bindings; kept by growing
  (`Fits.grow`) and by filling a slot (`Fits.place`);
* `Registry.Fits` : so it is of every shard, after one insertion (`Fits.insertIfAbsent`) and after any requests
  (`fits_served`);
* `Laid` : how the bindings of one shard are laid out; `laid_of_sound` : sound tables that fit are laid out so;
* `grow_lookup` : growing is not noticed by searches;
* `shards_laid_out` : the shards of a registry, after any requests.
-/

namespace StateSpace.Registry

variable {κ ν : Type}

/-- The length of a table is a power of two. It is the initial one at most, or twice what the bindings and one more call for
at most. -/
structure Table.Fits (initial : Nat) (t : Table κ ν) : Prop where
  pow : ∃ k, t.slots.size = 2 ^ k
  length : t.slots.size ≤ max initial (8 * (t.count + 1) / 3)

/-- The length of every shard is fit for its bindings. -/
def Fits {reserved : κ} (initial : Nat) (r : Registry κ ν reserved) : Prop :=
  ∀ (i : Nat) (t : Table κ ν), r.shards[i]? = some t → t.Fits initial

/-! ## Growing -/

namespace Table

variable [ToWord κ] [DecidableEq κ] {t t' : Table κ ν}

theorem slots_size_of_insert {key : κ} {value : ν} (h : t.insert key value = .ok t') :
    t'.slots.size = t.slots.size := by
  unfold Table.insert at h
  split at h
  · cases h
    exact slots_size_place ..
  · cases h
    rfl
  · cases h

theorem slots_size_of_insertAll (bs : List (κ × ν)) (h : bs.foldlM (fun t b => t.insert b.1 b.2) t = .ok t') :
    t'.slots.size = t.slots.size := by
  induction bs generalizing t with
  | nil =>
    cases h
    rfl
  | cons b bs ih =>
    rw [List.foldlM_cons] at h
    cases hb : t.insert b.1 b.2 with
    | error e =>
      rw [hb] at h
      cases h
    | ok t₁ =>
      rw [hb] at h
      rw [ih h, slots_size_of_insert hb]

theorem slots_size_of_grow (h : t.grow = .ok t') : t'.slots.size = t.slots.size * 2 := by
  rw [slots_size_of_insertAll _ h, slots_size_empty]

/-- Growing keeps a table sound, and neither the number of its bindings nor what is found changes. -/
theorem Sound.of_grow (h : t.Sound) (hg : t.grow = .ok t') :
    t'.Sound ∧ t'.bindings.Perm t.bindings ∧ t'.count = t.count := by
  obtain ⟨u, hu, hs, hp, -⟩ := h.grow
  rw [hg] at hu
  cases hu
  refine ⟨hs, hp, ?_⟩
  rw [hs.count_eq, h.count_eq, hp.length_eq]

/-- **Growing is not noticed by searches.** -/
theorem Sound.grow_lookup (h : t.Sound) (hg : t.grow = .ok t') (key : κ) :
    (t'.probe key).value? = (t.probe key).value? := by
  obtain ⟨hs, hp, -⟩ := h.of_grow hg
  have hvalue : ∀ (p : Probe ν) (v : ν), p.value? = some v ↔ p = .found v := by
    intro p v
    cases p <;> simp [Probe.value?]
  apply Option.ext
  intro v
  rw [hvalue, hvalue, hs.probe_eq_found_iff, h.probe_eq_found_iff, hp.mem_iff]

omit [DecidableEq κ] in
/-- A key is in one slot at most: of two, the search for the key would pass over the nearer. -/
theorem Sound.slot_unique (h : t.Sound) {slot slot' : Nat} {key : κ} {v v' : ν}
    (hv : t.slots[slot]? = some (some (key, v))) (hv' : t.slots[slot']? = some (some (key, v'))) : slot = slot' := by
  obtain ⟨d, -, rfl, hpassed⟩ := h.reach slot _ hv
  obtain ⟨d', -, rfl, hpassed'⟩ := h.reach slot' _ hv'
  have hle : d' ≤ d := hpassed'.le hv
  have hle' : d ≤ d' := hpassed.le hv'
  rw [Nat.le_antisymm hle hle']

/-! ## Lengths -/

variable {initial : Nat}

theorem Fits.grow (h : t.Fits initial) (hs : t.Sound) (hc : t.crowded = true) (hg : t.grow = .ok t') :
    t'.Fits initial := by
  obtain ⟨k, hk⟩ := h.pow
  have hsize := slots_size_of_grow hg
  have hcount := (hs.of_grow hg).2.2
  have hcrowded : 3 * t.slots.size < 4 * (t.count + 1) := by simpa [crowded] using hc
  refine ⟨⟨k + 1, by rw [hsize, hk, Nat.pow_succ]⟩, ?_⟩
  rw [hsize, hcount]
  omega

omit [ToWord κ] [DecidableEq κ] in
theorem Fits.place (h : t.Fits initial) (slot : Nat) (key : κ) (value : ν) : (t.place slot key value).Fits initial := by
  have hlength := h.length
  refine ⟨by simpa using h.pow, ?_⟩
  rw [slots_size_place, count_place]
  omega

end Table

variable {reserved : κ} [ToWord κ] [DecidableEq κ] {r r' : Registry κ ν reserved} {initial : Nat}

omit [ToWord κ] [DecidableEq κ] in
theorem slots_size_new {shards capacity i : Nat} {t : Table κ ν}
    (ht : (new shards capacity : Registry κ ν reserved).shards[i]? = some t) :
    t.slots.size = 1 <<< exponentFor capacity := by
  rw [shard_new ht, Table.slots_size_empty]

omit [ToWord κ] [DecidableEq κ] in
theorem fits_new (shards capacity : Nat) :
    (new shards capacity : Registry κ ν reserved).Fits (1 <<< exponentFor capacity) := by
  intro i t ht
  rw [← slots_size_new ht]
  refine ⟨⟨exponentFor capacity, ?_⟩, Nat.le_max_left _ _⟩
  rw [slots_size_new ht, Nat.shiftLeft_eq, Nat.one_mul]

theorem shard_of_makeRoomIn {i j : Nat} {t' : Table κ ν} (h : r.makeRoomIn i = .ok r') (hj : r'.shards[j]? = some t') :
    r.shards[j]? = some t' ∨ ∃ t, r.shards[j]? = some t ∧ t.crowded = true ∧ t.grow = .ok t' := by
  unfold makeRoomIn at h
  split at h
  · cases h
    exact Or.inl hj
  · rename_i t ht
    split at h
    · rename_i hc
      split at h
      · cases h
      · rename_i u hg
        cases h
        by_cases hij : i = j
        · subst hij
          rw [Array.getElem?_setIfInBounds_self_of_lt (Array.getElem?_eq_some_iff.1 ht).1] at hj
          cases hj
          exact Or.inr ⟨t, ht, hc, hg⟩
        · rw [Array.getElem?_setIfInBounds_ne hij] at hj
          exact Or.inl hj
    · cases h
      exact Or.inl hj

omit [DecidableEq κ] in
theorem shard_of_place {slot j : Nat} {key : κ} {value : ν} {t' : Table κ ν}
    (hj : (r.place slot key value).shards[j]? = some t') :
    r.shards[j]? = some t' ∨ ∃ t, r.shards[j]? = some t ∧ t' = t.place slot key value := by
  unfold place at hj
  rw [Array.getElem?_modify] at hj
  split at hj
  · obtain ⟨t, ht, rfl⟩ := Option.map_eq_some_iff.1 hj
    exact Or.inr ⟨t, ht, rfl⟩
  · exact Or.inl hj

theorem Fits.makeRoomIn (h : r.Fits initial) (hs : r.Sound) {i : Nat} (hr : r.makeRoomIn i = .ok r') :
    r'.Fits initial := by
  intro j t' hj
  rcases shard_of_makeRoomIn hr hj with hj | ⟨t, ht, hc, hg⟩
  · exact h j t' hj
  · exact (h j t ht).grow (hs.sound j t ht) hc hg

omit [DecidableEq κ] in
theorem Fits.place (h : r.Fits initial) (slot : Nat) (key : κ) (value : ν) : (r.place slot key value).Fits initial := by
  intro j t' hj
  rcases shard_of_place hj with hj | ⟨t, ht, rfl⟩
  · exact h j t' hj
  · exact (h j t ht).place slot key value

/-- **One insertion** leaves shards that fit, whether it binds its key or not. -/
theorem Fits.insertIfAbsent (h : r.Fits initial) (hs : r.Sound) (key : κ) (value : ν) :
    (r.insertIfAbsent key value).2.Fits initial := by
  by_cases hk : key = reserved
  · subst hk
    rwa [insertIfAbsent_reserved]
  · obtain ⟨t, ht, -⟩ := hs.shard key
    obtain ⟨r₁, -, hr₁, -⟩ := hs.makeRoomIn ht
    have h₁ : r₁.Fits initial := h.makeRoomIn hs hr₁
    rw [insertIfAbsent_eq value hk hr₁]
    cases r₁.probe key with
    | free slot => exact h₁.place slot key value
    | found old => exact h₁
    | full => exact h₁

/-- **All requests** leave shards that fit. -/
theorem fits_served (shards capacity : Nat) (requests : List (Request κ ν)) :
    ((new shards capacity : Registry κ ν reserved).served requests).Fits (1 <<< exponentFor capacity) := by
  induction requests using List.reverseRecOn with
  | nil => exact fits_new shards capacity
  | append_singleton past q ih =>
    rw [served_concat]
    cases q with
    | insert key value => exact ih.insertIfAbsent (tracks_served shards capacity past).sound key value
    | _ => exact ih

/-! ## Layout -/

/-- How the bindings of a shard are laid out. -/
structure Laid (initial : Nat) (r : Registry κ ν reserved) (i : Nat) (t : Table κ ν) : Prop where
  /-- The length is a power of two, so that the home of a key is given by the low bits of the mixed key. -/
  pow : ∃ k, t.slots.size = 2 ^ k
  home : ∀ key, t.home key = (Hash.mix (toWord key)).toNat &&& (t.slots.size - 1)
  /-- The slots that are taken are counted, at most three quarters are, and so some are free. -/
  count : t.count = t.slots.toList.countP Option.isSome
  load : 4 * t.count ≤ 3 * t.slots.size
  free : ∃ slot : Nat, t.slots[slot]? = some none
  /-- No key is bound twice. -/
  once : ∀ (slot slot' : Nat) (key : κ) (v v' : ν),
    t.slots[slot]? = some (some (key, v)) → t.slots[slot']? = some (some (key, v')) → slot = slot'
  /-- Every key is allowed, and is in the shard that the top bits of the mixed key select. -/
  own : ∀ (slot : Nat) (key : κ) (v : ν), t.slots[slot]? = some (some (key, v)) → key ≠ reserved ∧ r.shardOf key = i
  /-- From the home of a key to its slot, round the end, no slot is free. -/
  chain : ∀ (slot : Nat) (key : κ) (v : ν), t.slots[slot]? = some (some (key, v)) →
    ∃ d < t.slots.size, slot = (t.home key + d) % t.slots.size ∧
      ∀ j < d, t.slots[(t.home key + j) % t.slots.size]? ≠ some none
  /-- Beyond the initial length, the length is bounded by the number of bindings. -/
  length : t.slots.size ≤ max initial (8 * (t.count + 1) / 3)

omit [DecidableEq κ] in
theorem laid_of_sound {i : Nat} {t : Table κ ν} (hs : r.Sound) (hf : r.Fits initial) (ht : r.shards[i]? = some t) :
    Laid initial r i t := by
  have htable : t.Sound := hs.sound i t ht
  have hfits : t.Fits initial := hf i t ht
  refine ⟨hfits.pow, fun key => ?_, ?_, htable.room, Table.exists_free_slot htable.bindings_lt, ?_, ?_, ?_, hfits.length⟩
  · obtain ⟨k, hk⟩ := hfits.pow
    unfold Table.home
    rw [hk, Nat.and_two_pow_sub_one_eq_mod]
  · rw [htable.count_eq, Table.bindings, List.length_filterMap_eq_countP]
    rfl
  · intro slot slot' key v v' hv hv'
    exact htable.slot_unique hv hv'
  · intro slot key v hslot
    obtain ⟨hshard, hne⟩ := hs.own i t ht (key, v) (Table.mem_bindings.2 ⟨slot, hslot⟩)
    exact ⟨hne, hshard⟩
  · intro slot key v hslot
    obtain ⟨d, hd, heq, hpassed⟩ := htable.reach slot (key, v) hslot
    refine ⟨d, hd, heq, fun j hj hfree => ?_⟩
    obtain ⟨b, hb, -⟩ := hpassed j hj
    rw [hfree] at hb
    cases hb

omit [DecidableEq κ] in
theorem Sound.sum_count (h : r.Sound) : (r.shards.toList.map Table.count).sum = r.size := by
  have hcount : r.shards.toList.map Table.count = r.shards.toList.map fun t => t.bindings.length := by
    apply List.map_congr_left
    intro t ht
    obtain ⟨i, hi⟩ := Array.mem_iff_getElem?.1 (Array.mem_toList_iff.1 ht)
    exact (h.sound i t hi).count_eq
  rw [hcount, h.size_eq, bindings, List.length_flatMap]

/-- How a registry is laid out, and that a full table is never met. -/
structure LaidOut (initial : Nat) (r : Registry κ ν reserved) : Prop where
  shards_size : r.shards.size = 2 ^ r.shardBits
  /-- The top bits of a mixed key select a shard that there is. -/
  index : ∀ key, r.shardOf key < r.shards.size
  laid : ∀ (i : Nat) (t : Table κ ν), r.shards[i]? = some t → Laid initial r i t
  size : (r.shards.toList.map Table.count).sum = r.size
  /-- No insertion meets a full table. -/
  never_full : ∀ key value, (r.insertIfAbsent key value).1 ≠ .error .tableFull
  /-- Nor does any that a shard makes when it grows, and what is found in it is the same. -/
  grows : ∀ (i : Nat) (t : Table κ ν), r.shards[i]? = some t →
    ∃ t', t.grow = .ok t' ∧ ∀ key, (t'.probe key).value? = (t.probe key).value?
  /-- So making room for a key changes no answer of the registry. -/
  makes_room : ∀ key, ∃ r', r.makeRoom key = .ok r' ∧ ∀ k, r'.lookup k = r.lookup k

theorem Sound.never_full (h : r.Sound) (key : κ) (value : ν) : (r.insertIfAbsent key value).1 ≠ .error .tableFull := by
  by_cases hk : key = reserved
  · subst hk
    rw [insertIfAbsent_reserved]
    simp
  · obtain ⟨outcome, hok⟩ := h.insertIfAbsent_ok hk value
    rw [hok]
    simp

/-- **How shards are laid out**, after any requests: no longer than the bindings demand, unbroken from the homes on,
and never full, not even while a shard grows. -/
theorem shards_laid_out (shards capacity : Nat) (requests : List (Request κ ν)) :
    (∀ (i : Nat) (t : Table κ ν), (new shards capacity : Registry κ ν reserved).shards[i]? = some t →
      t.slots.size = 1 <<< exponentFor capacity) ∧
    LaidOut (1 <<< exponentFor capacity) ((new shards capacity : Registry κ ν reserved).served requests) := by
  have hs : ((new shards capacity : Registry κ ν reserved).served requests).Sound :=
    (tracks_served shards capacity requests).sound
  refine ⟨fun i t ht => slots_size_new ht, hs.shards_size, fun key => ?_, fun i t ht => ?_, hs.sum_count, hs.never_full,
    fun i t ht => ?_, fun key => ?_⟩
  · rw [hs.shards_size]
    exact shardOf_lt _ key
  · exact laid_of_sound hs (fits_served shards capacity requests) ht
  · obtain ⟨t', hg, -⟩ := (hs.sound i t ht).grow
    exact ⟨t', hg, (hs.sound i t ht).grow_lookup hg⟩
  · obtain ⟨t, ht, -⟩ := hs.shard key
    obtain ⟨r', -, hr', hs', -, hperm, -⟩ := hs.makeRoomIn ht
    exact ⟨r', hr', hs.lookup_congr hs' hperm⟩

/-- An insertion that binds nothing makes a shard grow, but only once. -/
example : ((new 1 0 : Registry UInt8 Nat 255).served [.insert 7 1, .insert 7 2, .insert 7 3]).shards.map (·.slots.size) =
    #[4] := by decide +kernel

end StateSpace.Registry
