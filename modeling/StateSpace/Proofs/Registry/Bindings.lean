import Mathlib.Algebra.Ring.Nat
import StateSpace.Proofs.Lists
import StateSpace.Proofs.Registry.Table
import StateSpace.Registry.Basic

/-!
# A registry is a map whose bindings stay

* `Registry.Sound` : every shard is sound and holds only keys of its own;
* `Sound.lookup_eq_some_iff` : the bindings decide what is found;
* `Sound.insertIfAbsent_new`, `Sound.insertIfAbsent_known` : the two answers of an insertion. The bindings gain one, or are
  the same in another order, as the shard may have grown.
-/

namespace StateSpace.Registry

variable {κ ν : Type} {reserved : κ} [ToWord κ]

/-! ## Shards -/

theorem shardOf_lt (r : Registry κ ν reserved) (key : κ) : r.shardOf key < 2 ^ r.shardBits := by
  have hword : (Hash.mix (toWord key)).toNat < 2 ^ 64 := UInt64.toNat_lt _
  unfold shardOf
  rw [Nat.shiftRight_eq_div_pow]
  by_cases hb : r.shardBits ≤ 64
  · apply Nat.div_lt_of_lt_mul
    rw [← Nat.pow_add, Nat.sub_add_cancel hb]
    exact hword
  · rw [Nat.sub_eq_zero_of_le (by omega), Nat.pow_zero, Nat.div_one]
    exact Nat.lt_trans hword (Nat.pow_lt_pow_right (by decide) (by omega))

omit [ToWord κ] in
theorem mem_bindings {r : Registry κ ν reserved} {b : κ × ν} :
    b ∈ r.bindings ↔ ∃ (i : Nat) (t : Table κ ν), r.shards[i]? = some t ∧ b ∈ t.bindings := by
  simp only [bindings, List.mem_flatMap, Array.mem_toList_iff, Array.mem_iff_getElem?]
  constructor
  · rintro ⟨t, ⟨i, hi⟩, hb⟩
    exact ⟨i, t, hi, hb⟩
  · rintro ⟨i, t, hi, hb⟩
    exact ⟨t, ⟨i, hi⟩, hb⟩

/-! ## Sound registries -/

/-- Every shard is sound and holds only its own keys, each bound once. -/
structure Sound (r : Registry κ ν reserved) : Prop where
  shards_size : r.shards.size = 2 ^ r.shardBits
  sound : ∀ (i : Nat) (t : Table κ ν), r.shards[i]? = some t → t.Sound
  own : ∀ (i : Nat) (t : Table κ ν), r.shards[i]? = some t → ∀ b ∈ t.bindings, r.shardOf b.1 = i ∧ b.1 ≠ reserved
  size_eq : r.size = r.bindings.length
  nodup : (r.bindings.map Prod.fst).Nodup

omit [ToWord κ] in
@[simp] theorem bindings_new (shards capacity : Nat) :
    (new shards capacity : Registry κ ν reserved).bindings = [] := by
  simp only [bindings, new, Array.toList_replicate, List.flatMap_eq_nil_iff]
  intro t ht
  rw [List.eq_of_mem_replicate ht, Table.bindings_empty]

omit [ToWord κ] in
theorem shard_new {shards capacity i : Nat} {t : Table κ ν}
    (ht : (new shards capacity : Registry κ ν reserved).shards[i]? = some t) :
    t = Table.empty (1 <<< exponentFor capacity) := by
  simp only [new, Array.getElem?_replicate] at ht
  split at ht
  · exact (Option.some.inj ht).symm
  · cases ht

theorem sound_new (shards capacity : Nat) : (new shards capacity : Registry κ ν reserved).Sound := by
  refine ⟨?_, fun i t ht => ?_, fun i t ht b hb => ?_, by simp [bindings_new]; rfl, by simp⟩
  · simp [new, Nat.shiftLeft_eq]
  · rw [shard_new ht]
    exact Table.sound_empty (by rw [Nat.shiftLeft_eq, Nat.one_mul]; exact Nat.two_pow_pos _)
  · rw [shard_new ht, Table.bindings_empty] at hb
    cases hb

variable {r : Registry κ ν reserved}

theorem Sound.shard (h : r.Sound) (key : κ) : ∃ t, r.shards[r.shardOf key]? = some t ∧ t.Sound := by
  have hlt : r.shardOf key < r.shards.size := by
    rw [h.shards_size]
    exact r.shardOf_lt key
  exact ⟨_, Array.getElem?_eq_getElem hlt, h.sound _ _ (Array.getElem?_eq_getElem hlt)⟩

/-- A key is bound in its own shard or nowhere. -/
theorem Sound.mem_bindings_iff (h : r.Sound) {key : κ} {v : ν} {t : Table κ ν}
    (ht : r.shards[r.shardOf key]? = some t) : (key, v) ∈ r.bindings ↔ (key, v) ∈ t.bindings := by
  rw [mem_bindings]
  constructor
  · rintro ⟨i, u, hi, hb⟩
    have hi' : r.shardOf key = i := (h.own i u hi (key, v) hb).1
    rw [← hi', ht] at hi
    rwa [Option.some.inj hi]
  · intro hb
    exact ⟨_, t, ht, hb⟩

variable [DecidableEq κ]

theorem probeShard_eq {i : Nat} {t : Table κ ν} (ht : r.shards[i]? = some t) (key : κ) :
    r.probeShard i key = t.probe key := by
  unfold probeShard
  rw [ht]

theorem probe_eq {key : κ} {t : Table κ ν} (ht : r.shards[r.shardOf key]? = some t) : r.probe key = t.probe key :=
  probeShard_eq ht key

/-- **The bindings decide what is found.** -/
theorem Sound.lookup_eq_some_iff (h : r.Sound) {key : κ} {v : ν} : r.lookup key = some v ↔ (key, v) ∈ r.bindings := by
  obtain ⟨t, ht, hs⟩ := h.shard key
  rw [h.mem_bindings_iff ht, ← hs.probe_eq_found_iff]
  unfold lookup
  rw [probe_eq ht]
  by_cases hk : key = reserved
  · rw [if_pos hk]
    refine ⟨nofun, fun hp => ?_⟩
    exact absurd hk (h.own _ t ht _ (hs.probe_eq_found_iff.1 hp)).2
  · rw [if_neg hk]
    cases t.probe key <;> simp [Probe.value?]

theorem Sound.lookup_eq_none_iff (h : r.Sound) {key : κ} : r.lookup key = none ↔ key ∉ r.bindings.map Prod.fst := by
  rw [Option.eq_none_iff_forall_ne_some]
  constructor
  · intro hn hmem
    obtain ⟨⟨k, v⟩, hb, rfl⟩ := List.mem_map.1 hmem
    exact hn v (h.lookup_eq_some_iff.2 hb)
  · intro hn v hv
    exact hn (List.mem_map.2 ⟨(key, v), h.lookup_eq_some_iff.1 hv, rfl⟩)

/-- Registries with the same bindings answer alike. -/
theorem Sound.lookup_congr {r' : Registry κ ν reserved} (h : r.Sound) (h' : r'.Sound)
    (hp : r'.bindings.Perm r.bindings) (key : κ) : r'.lookup key = r.lookup key := by
  apply Option.ext
  intro v
  rw [h'.lookup_eq_some_iff, h.lookup_eq_some_iff, hp.mem_iff]

theorem Sound.lookup_cons {r' : Registry κ ν reserved} {key : κ} {value : ν} (h : r.Sound) (h' : r'.Sound)
    (hp : r'.bindings.Perm ((key, value) :: r.bindings)) (k : κ) :
    r'.lookup k = if k = key then some value else r.lookup k := by
  have hnew : key ∉ r.bindings.map Prod.fst := by
    have hnd := (hp.map Prod.fst).nodup_iff.1 h'.nodup
    exact (List.nodup_cons.1 hnd).1
  apply Option.ext
  intro v
  rw [h'.lookup_eq_some_iff, hp.mem_iff, List.mem_cons, Prod.mk.injEq]
  by_cases hk : k = key
  · subst hk
    rw [if_pos rfl]
    constructor
    · rintro (⟨-, rfl⟩ | hmem)
      · rfl
      · exact absurd (List.mem_map.2 ⟨_, hmem, rfl⟩) hnew
    · intro hv
      exact Or.inl ⟨rfl, (Option.some.inj hv).symm⟩
  · rw [if_neg hk, h.lookup_eq_some_iff]
    simp [hk]

/-! ## Insertion -/

omit [DecidableEq κ] in
theorem Sound.replace (h : r.Sound) {i : Nat} {t t' : Table κ ν} (ht : r.shards[i]? = some t) (hs : t'.Sound)
    (new : List (κ × ν)) (hp : t'.bindings.Perm (new ++ t.bindings))
    (hown : ∀ b ∈ new, r.shardOf b.1 = i ∧ b.1 ≠ reserved) (hnew : ((new ++ r.bindings).map Prod.fst).Nodup)
    (size : Nat) (hsize : size = r.size + new.length) :
    (⟨r.shardBits, r.shards.setIfInBounds i t', size⟩ : Registry κ ν reserved).Sound ∧
      (⟨r.shardBits, r.shards.setIfInBounds i t', size⟩ : Registry κ ν reserved).bindings.Perm
        (new ++ r.bindings) := by
  have hlt : i < r.shards.size := (Array.getElem?_eq_some_iff.1 ht).1
  have hget : ∀ (j : Nat) (u : Table κ ν), (r.shards.setIfInBounds i t')[j]? = some u →
      j = i ∧ u = t' ∨ r.shards[j]? = some u := by
    intro j u hu
    by_cases hi : i = j
    · subst hi
      rw [Array.getElem?_setIfInBounds_self_of_lt hlt] at hu
      exact Or.inl ⟨rfl, (Option.some.inj hu).symm⟩
    · rw [Array.getElem?_setIfInBounds_ne hi] at hu
      exact Or.inr hu
  have hperm : (⟨r.shardBits, r.shards.setIfInBounds i t', size⟩ : Registry κ ν reserved).bindings.Perm
      (new ++ r.bindings) := by
    have hset := flatMap_set_perm Table.bindings (l := r.shards.toList) (a := t) t' (by simpa using ht)
    simp only [bindings, Array.toList_setIfInBounds]
    have hmid : (t'.bindings ++ r.shards.toList.flatMap Table.bindings).Perm
        (t.bindings ++ (new ++ r.shards.toList.flatMap Table.bindings)) := by
      refine (hp.append_right _).trans ?_
      simp only [← List.append_assoc]
      exact List.perm_append_comm.append_right _
    exact (List.perm_append_left_iff _).1 (hset.trans hmid)
  refine ⟨⟨?_, ?_, ?_, ?_, ?_⟩, hperm⟩
  · simpa using h.shards_size
  · intro j u hu
    rcases hget j u hu with ⟨-, rfl⟩ | hu
    · exact hs
    · exact h.sound j u hu
  · intro j u hu b hb
    rcases hget j u hu with ⟨rfl, rfl⟩ | hu
    · rcases List.mem_append.1 (hp.mem_iff.1 hb) with hb | hb
      · exact hown b hb
      · exact h.own _ t ht b hb
    · exact h.own j u hu b hb
  · rw [hperm.length_eq, List.length_append, hsize, h.size_eq, Nat.add_comm]
  · exact (hperm.map Prod.fst).nodup_iff.2 hnew

/-- Making room keeps the bindings. -/
theorem Sound.makeRoomIn (h : r.Sound) {i : Nat} {t : Table κ ν} (ht : r.shards[i]? = some t) :
    ∃ r' t', r.makeRoomIn i = .ok r' ∧ r'.Sound ∧ r'.shardBits = r.shardBits ∧ r'.bindings.Perm r.bindings ∧
      r'.shards[i]? = some t' ∧ 4 * (t'.count + 1) ≤ 3 * t'.slots.size := by
  unfold Registry.makeRoomIn
  simp only [ht]
  cases hc : t.crowded with
  | false => exact ⟨r, t, by simp, h, rfl, List.Perm.refl _, ht, Table.not_crowded_iff.1 hc⟩
  | true =>
    obtain ⟨t', hg, hs', hp', hroom⟩ := (h.sound i t ht).grow
    have hrep := h.replace ht hs' [] (by simpa using hp') (fun b hb => by cases hb) (by simpa using h.nodup)
      r.size rfl
    refine ⟨⟨r.shardBits, r.shards.setIfInBounds i t', r.size⟩, t', by simp [hg], hrep.1, rfl, hrep.2, ?_, hroom⟩
    exact Array.getElem?_setIfInBounds_self_of_lt (Array.getElem?_eq_some_iff.1 ht).1

theorem modify_eq_setIfInBounds {α : Type} {xs : Array α} {i : Nat} {x : α} (f : α → α) (h : xs[i]? = some x) :
    xs.modify i f = xs.setIfInBounds i (f x) := by
  have hlt : i < xs.size := (Array.getElem?_eq_some_iff.1 h).1
  apply Array.ext_getElem?
  intro j
  rw [Array.getElem?_modify, Array.getElem?_setIfInBounds]
  by_cases hj : i = j
  · subst hj
    simp only [if_true, h, Option.map_some, if_pos hlt]
  · rw [if_neg hj, if_neg hj]

/-- An insertion ends where the search for the key ends, once there is room. -/
theorem insertIfAbsent_eq {r₁ : Registry κ ν reserved} {key : κ} (value : ν) (hk : key ≠ reserved)
    (hr : r.makeRoom key = .ok r₁) : r.insertIfAbsent key value = r₁.conclude key value (r₁.probe key) := by
  rw [insertIfAbsent, if_neg hk, hr]

/-- **A key that is not bound** is bound by the insertion. -/
theorem Sound.insertIfAbsent_new (h : r.Sound) {key : κ} (value : ν) (hk : key ≠ reserved)
    (hnone : r.lookup key = none) :
    ∃ r', r.insertIfAbsent key value = (.ok ⟨value, true⟩, r') ∧ r'.Sound ∧
      r'.bindings.Perm ((key, value) :: r.bindings) := by
  obtain ⟨t₀, ht₀, -⟩ := h.shard key
  obtain ⟨r₁, t, hr₁, h₁, hbits, hp₁, ht, hroom⟩ := h.makeRoomIn ht₀
  have hshard : r₁.shardOf key = r.shardOf key := by rw [shardOf, shardOf, hbits]
  have hs := h₁.sound _ t ht
  have hnone₁ : key ∉ r₁.bindings.map Prod.fst := by
    rw [(hp₁.map Prod.fst).mem_iff]
    exact h.lookup_eq_none_iff.1 hnone
  rw [← hshard] at ht
  rw [insertIfAbsent_eq value hk hr₁, probe_eq ht]
  cases hp : t.probe key with
  | full => exact absurd hp (hs.probe_ne_full key)
  | found v =>
    have hmem : (key, v) ∈ r₁.bindings := (h₁.mem_bindings_iff ht).2 (hs.probe_eq_found_iff.1 hp)
    exact absurd (List.mem_map.2 ⟨_, hmem, rfl⟩) hnone₁
  | free slot =>
    obtain ⟨d, -, -, hfree, -⟩ := Table.probe_free hs.pos hp
    have hrep := h₁.replace ht (hs.place hp hroom value) [(key, value)] (Table.bindings_place_perm key value hfree)
      (by simpa using hk) (by simpa using ⟨by simpa using hnone₁, h₁.nodup⟩) (r₁.size + 1) rfl
    refine ⟨r₁.place slot key value, rfl, ?_⟩
    unfold Registry.place
    rw [modify_eq_setIfInBounds _ ht]
    exact ⟨hrep.1, hrep.2.trans (hp₁.cons _)⟩

/-- **A key that is bound** stays bound as it was. -/
theorem Sound.insertIfAbsent_known (h : r.Sound) {key : κ} {old : ν} (value : ν) (hold : r.lookup key = some old) :
    ∃ r', r.insertIfAbsent key value = (.ok ⟨old, false⟩, r') ∧ r'.Sound ∧ r'.bindings.Perm r.bindings := by
  obtain ⟨t₀, ht₀, -⟩ := h.shard key
  obtain ⟨r₁, t, hr₁, h₁, hbits, hp₁, ht, -⟩ := h.makeRoomIn ht₀
  have hshard : r₁.shardOf key = r.shardOf key := by rw [shardOf, shardOf, hbits]
  have hk : key ≠ reserved := by
    rintro rfl
    rw [lookup_reserved] at hold
    cases hold
  have hmem : (key, old) ∈ r₁.bindings := hp₁.mem_iff.2 (h.lookup_eq_some_iff.1 hold)
  rw [← hshard] at ht
  have hprobe : r₁.probe key = .found old := by
    rw [probe_eq ht]
    exact (h₁.sound _ t ht).probe_eq_found_iff.2 ((h₁.mem_bindings_iff ht).1 hmem)
  rw [insertIfAbsent_eq value hk hr₁, hprobe]
  exact ⟨r₁, rfl, h₁, hp₁⟩

theorem Sound.insertIfAbsent_ok (h : r.Sound) {key : κ} (hk : key ≠ reserved) (value : ν) :
    ∃ outcome, (r.insertIfAbsent key value).1 = .ok outcome := by
  cases hold : r.lookup key with
  | none =>
    obtain ⟨r', hins, -⟩ := h.insertIfAbsent_new value hk hold
    exact ⟨_, congrArg Prod.fst hins⟩
  | some old =>
    obtain ⟨r', hins, -⟩ := h.insertIfAbsent_known value hold
    exact ⟨_, congrArg Prod.fst hins⟩

end StateSpace.Registry
