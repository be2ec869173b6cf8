import StateSpace.Hash

/-!
# One table of a registry

A `Table` holds bindings in slots. A binding sits in the first free slot at or after its home slot, wrapping round
at the end, so a search may stop at a free slot. A table is kept at most three quarters full.

* `Table.probe`: the slot where a search for a key ends.
* `Table.place`, `Table.insert`: fill a free slot, and the one where the search ends.
* `Table.grow`: twice the slots, the old bindings inserted again in the order of their old slots.
* `Table.crowded`: the table has to grow before it takes one more binding.
-/

namespace StateSpace.Registry

inductive InsertError where
  | reservedKey
  | tableFull
  deriving DecidableEq, Repr

def InsertError.message : InsertError → String
  | .reservedKey => "ShardedMap: the empty key is reserved"
  | .tableFull => "ShardedMap: shard table is full"

/-- Slots with at most one binding each, and the number of bindings. -/
structure Table (κ ν : Type) where
  slots : Array (Option (κ × ν))
  count : Nat

inductive Probe (ν : Type) where
  | free (slot : Nat)
  | found (value : ν)
  | full
  deriving DecidableEq, Repr

def Probe.value? {ν : Type} : Probe ν → Option ν
  | .found v => some v
  | _ => none

namespace Table

variable {κ ν : Type} [ToWord κ] [DecidableEq κ]

def empty (length : Nat) : Table κ ν := ⟨Array.replicate length none, 0⟩

def home (t : Table κ ν) (key : κ) : Nat := (Hash.mix (toWord key)).toNat % t.slots.size

/-- Searches the given number of slots, from `slot` on, for a key or a free slot. -/
def probeFrom (t : Table κ ν) (key : κ) : (left slot : Nat) → Probe ν
  | 0, _ => .full
  | left + 1, slot =>
    match t.slots[slot]? with
    | none => .full
    | some none => .free slot
    | some (some (k, v)) => if k = key then .found v else probeFrom t key left ((slot + 1) % t.slots.size)

def probe (t : Table κ ν) (key : κ) : Probe ν := t.probeFrom key t.slots.size (t.home key)

def place (t : Table κ ν) (slot : Nat) (key : κ) (value : ν) : Table κ ν :=
  ⟨t.slots.setIfInBounds slot (some (key, value)), t.count + 1⟩

def insert (t : Table κ ν) (key : κ) (value : ν) : Except InsertError (Table κ ν) :=
  match t.probe key with
  | .free slot => .ok (t.place slot key value)
  | .found _ => .ok t
  | .full => .error .tableFull

def bindings (t : Table κ ν) : List (κ × ν) := t.slots.toList.filterMap id

/-- Twice the slots with the same bindings. -/
def grow (t : Table κ ν) : Except InsertError (Table κ ν) :=
  t.bindings.foldlM (fun t b => t.insert b.1 b.2) (empty (t.slots.size * 2))

/-- One more binding would fill more than three quarters of the slots. -/
def crowded (t : Table κ ν) : Bool := 4 * (t.count + 1) > 3 * t.slots.size

omit [ToWord κ] [DecidableEq κ]

@[simp] theorem slots_size_empty (length : Nat) : (empty length : Table κ ν).slots.size = length := by
  simp only [empty, Array.size_replicate]

@[simp] theorem bindings_empty (length : Nat) : (empty length : Table κ ν).bindings = [] := by
  simp only [bindings, empty, Array.toList_replicate, List.filterMap_eq_nil_iff]
  intro slot h
  exact List.eq_of_mem_replicate h

@[simp] theorem slots_size_place (t : Table κ ν) (slot : Nat) (key : κ) (value : ν) :
    (t.place slot key value).slots.size = t.slots.size := by
  simp only [place, Array.size_setIfInBounds]

@[simp] theorem count_place (t : Table κ ν) (slot : Nat) (key : κ) (value : ν) :
    (t.place slot key value).count = t.count + 1 := rfl

end Table

end StateSpace.Registry
