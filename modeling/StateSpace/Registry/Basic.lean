import StateSpace.Registry.Table

/-!
# Registries

A `Registry` binds keys to values, and the first binding of a key stays. It is split into shards by the top bits of
the mixed key, each shard being a `Table` that places bindings by the low bits.

* `Registry.new`: the shards of an empty registry.
* `Registry.probe`: the search for a key in its shard; `Registry.lookup` and `Registry.insertIfAbsent` go through it.
* `Registry.size`, `Registry.bindings`: what is bound.

One key is reserved and is never bound.
-/

namespace StateSpace

open Registry (Table InsertError)

structure Registry (κ ν : Type) (reserved : κ) where
  shardBits : Nat
  shards : Array (Table κ ν)
  size : Nat

namespace Registry

/-- The least exponent whose power of two is not below `n`. -/
def exponentFor (n : Nat) : Nat := if n ≤ 1 then 0 else Nat.log2 (n - 1) + 1

variable {κ ν : Type} {reserved : κ} [ToWord κ] [DecidableEq κ]

def defaultShards : Nat := 64

def defaultCapacity : Nat := 256

/-- An empty registry with at least the given numbers of shards and of slots in each, both rounded up to a power
of two. -/
def new (shardCount capacity : Nat) : Registry κ ν reserved :=
  let bits := exponentFor shardCount
  ⟨bits, Array.replicate (1 <<< bits) (Table.empty (1 <<< exponentFor capacity)), 0⟩

def empty : Registry κ ν reserved := new defaultShards defaultCapacity

/-- The shard of a key: the top bits of the mixed key. -/
def shardOf (r : Registry κ ν reserved) (key : κ) : Nat :=
  (Hash.mix (toWord key)).toNat >>> (64 - r.shardBits)

def probeShard (r : Registry κ ν reserved) (index : Nat) (key : κ) : Probe ν :=
  match r.shards[index]? with
  | none => .full
  | some shard => shard.probe key

def probe (r : Registry κ ν reserved) (key : κ) : Probe ν := r.probeShard (r.shardOf key) key

def lookup (r : Registry κ ν reserved) (key : κ) : Option ν :=
  if key = reserved then none else (r.probe key).value?

/-- The same bindings, with room for one more in a shard. -/
def makeRoomIn (r : Registry κ ν reserved) (index : Nat) : Except InsertError (Registry κ ν reserved) :=
  match r.shards[index]? with
  | none => .ok r
  | some shard =>
    if shard.crowded then
      match shard.grow with
      | .error e => .error e
      | .ok shard => .ok { r with shards := r.shards.setIfInBounds index shard }
    else .ok r

def makeRoom (r : Registry κ ν reserved) (key : κ) : Except InsertError (Registry κ ν reserved) :=
  r.makeRoomIn (r.shardOf key)

def place (r : Registry κ ν reserved) (slot : Nat) (key : κ) (value : ν) : Registry κ ν reserved :=
  { r with shards := r.shards.modify (r.shardOf key) (·.place slot key value), size := r.size + 1 }

/-- What an insertion answers: the value now bound to the key, and whether this insertion bound it. -/
structure Outcome (ν : Type) where
  value : ν
  inserted : Bool
  deriving DecidableEq, Repr

/-- Binds a key where the search for it has ended, unless it was found. -/
def conclude (r : Registry κ ν reserved) (key : κ) (value : ν) :
    Probe ν → Except InsertError (Outcome ν) × Registry κ ν reserved
  | .free slot => (.ok ⟨value, true⟩, r.place slot key value)
  | .found old => (.ok ⟨old, false⟩, r)
  | .full => (.error .tableFull, r)

/-- Binds a key unless it is bound already. The shard of the key makes room even for a key that is. -/
def insertIfAbsent (r : Registry κ ν reserved) (key : κ) (value : ν) :
    Except InsertError (Outcome ν) × Registry κ ν reserved :=
  if key = reserved then (.error .reservedKey, r)
  else
    match r.makeRoom key with
    | .error e => (.error e, r)
    | .ok r => r.conclude key value (r.probe key)

def contains (r : Registry κ ν reserved) (key : κ) : Bool := (r.lookup key).isSome

def getD (r : Registry κ ν reserved) (key : κ) (fallback : ν) : ν := (r.lookup key).getD fallback

def isEmpty (r : Registry κ ν reserved) : Bool := r.size == 0

def shardCount (r : Registry κ ν reserved) : Nat := r.shards.size

/-- Every binding once: shard by shard, and slot by slot in a shard. -/
def bindings (r : Registry κ ν reserved) : List (κ × ν) := r.shards.toList.flatMap Table.bindings

/-- Inserts bindings in order up to the first that is refused; answers how many were new, and the refusal. -/
def insertMany (r : Registry κ ν reserved) :
    List (κ × ν) → Nat × Registry κ ν reserved × Option InsertError
  | [] => (0, r, none)
  | (k, v) :: rest =>
    match r.insertIfAbsent k v with
    | (.error e, r) => (0, r, some e)
    | (.ok outcome, r) =>
      let (n, r, e) := r.insertMany rest
      (n + outcome.inserted.toNat, r, e)

/-! ## The reserved key -/

@[simp] theorem lookup_reserved (r : Registry κ ν reserved) : r.lookup reserved = none := by
  simp only [lookup, if_true]

@[simp] theorem insertIfAbsent_reserved (r : Registry κ ν reserved) (value : ν) :
    r.insertIfAbsent reserved value = (.error .reservedKey, r) := by
  simp only [insertIfAbsent, if_true]

/-! ## Shape -/

omit [DecidableEq κ]

omit [ToWord κ] in
@[simp] theorem shardCount_new (shards capacity : Nat) :
    (new shards capacity : Registry κ ν reserved).shardCount = 1 <<< exponentFor shards := by
  simp only [shardCount, new, Array.size_replicate]

@[simp] theorem shardCount_place (r : Registry κ ν reserved) (slot : Nat) (key : κ) (value : ν) :
    (r.place slot key value).shardCount = r.shardCount := by
  simp only [shardCount, place, Array.size_modify]

@[simp] theorem size_place (r : Registry κ ν reserved) (slot : Nat) (key : κ) (value : ν) :
    (r.place slot key value).size = r.size + 1 := rfl

end Registry

end StateSpace
