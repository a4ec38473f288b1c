/-!
A bounded store that forgets what has not been used for longest. The entries are listed with the
most recently used one first; an entry is used when it is put or found, and when there are more
entries than the capacity allows, the last one is dropped. An entry keeps the value that it was
first put with for as long as it is stored.
-/

namespace RegexSearch

structure Cache (κ ν : Type) where
  capacity : Nat
  /-- Keys and values, the most recently used first. No key occurs twice. -/
  entries : List (κ × ν)
  deriving DecidableEq, Repr

namespace Cache

variable {κ ν : Type} [DecidableEq κ]

def empty (capacity : Nat) : Cache κ ν := ⟨capacity, []⟩

def size (cache : Cache κ ν) : Nat :=
  cache.entries.length

/-- The keys stored, the most recently used first. -/
def keys (cache : Cache κ ν) : List κ :=
  cache.entries.map (·.1)

/-- The value stored under a key, without using it. -/
def lookup? (cache : Cache κ ν) (key : κ) : Option ν :=
  (cache.entries.find? (·.1 = key)).map (·.2)

def contains (cache : Cache κ ν) (key : κ) : Bool :=
  (cache.lookup? key).isSome

/-- Puts an entry in front and takes any other entry under its key away. -/
def toFront (cache : Cache κ ν) (key : κ) (value : ν) : Cache κ ν :=
  { cache with entries := (key, value) :: cache.entries.filter (·.1 ≠ key) }

/-- Drops what the capacity does not allow. -/
def trim (cache : Cache κ ν) : Cache κ ν :=
  { cache with entries := cache.entries.take cache.capacity }

/-- The value stored under a key, which is used by this. -/
def get (cache : Cache κ ν) (key : κ) : Option ν × Cache κ ν :=
  match cache.lookup? key with
  | some value => (some value, cache.toFront key value)
  | none => (none, cache)

/-- Stores a value unless there is one under the key, and gives the value that is stored then. A
cache without capacity stores nothing and gives the value itself. -/
def put (cache : Cache κ ν) (key : κ) (value : ν) : ν × Cache κ ν :=
  if cache.capacity = 0 then (value, cache)
  else
    match cache.lookup? key with
    | some stored => (stored, cache.toFront key stored)
    | none => (value, (cache.toFront key value).trim)

def clear (cache : Cache κ ν) : Cache κ ν :=
  { cache with entries := [] }

end Cache

end RegexSearch
