import RegexSearch.Proofs.Cache

/-!
A cache and its history. The requests that a cache has been given, each with the reply that it got,
say all about the cache: a key is used by being put and by being found, the keys of the cache are
the distinct ones used last, and the value under a key is that of the put that has inserted it. A
put under a key that is there inserts nothing, and clearing the cache makes a new beginning.
-/

namespace RegexSearch

namespace Cache

/-- What can be asked of a cache. -/
inductive Request (κ ν : Type) where
  | get (key : κ)
  | put (key : κ) (value : ν)
  | contains (key : κ)
  | size
  | clear
  deriving DecidableEq, Repr

inductive Reply (ν : Type) where
  | value (found : Option ν)
  | stored (value : ν)
  | contained (verdict : Bool)
  | size (count : Nat)
  | cleared
  deriving DecidableEq, Repr

/-- The requests made so far with their replies, the latest first. -/
abbrev History (κ ν : Type) := List (Request κ ν × Reply ν)

section

variable {κ ν : Type} [DecidableEq κ]

/-- The reply to a request, and the cache after it. -/
def perform (cache : Cache κ ν) : Request κ ν → Reply ν × Cache κ ν
  | .get key => (cache.get key).map .value id
  | .put key value => (cache.put key value).map .stored id
  | .contains key => (.contained (cache.contains key), cache)
  | .size => (.size cache.size, cache)
  | .clear => (.cleared, cache.clear)

/-- Makes requests one after the other, and adds them to a history. -/
def run (cache : Cache κ ν) (history : History κ ν) :
    List (Request κ ν) → History κ ν × Cache κ ν
  | [] => (history, cache)
  | request :: later =>
    let (reply, next) := cache.perform request
    next.run ((request, reply) :: history) later

end

namespace History

variable {κ ν : Type}

/-- The keys used since the cache was cleared, the latest first: those that were put, and those that
were asked for and found. -/
def uses : History κ ν → List κ
  | [] => []
  | (.put key _, _) :: earlier => key :: uses earlier
  | (.get key, .value (some _)) :: earlier => key :: uses earlier
  | (.clear, _) :: _ => []
  | _ :: earlier => uses earlier

variable [DecidableEq κ]

/-- The keys that a cache holds: the distinct ones used last, as many as the capacity allows. -/
def held (capacity : Nat) (history : History κ ν) : List κ :=
  history.uses.eraseDups.take capacity

/-- The value with which a key was inserted the last time. A put inserts its key unless the cache
holds it already. -/
def inserted? (capacity : Nat) (key : κ) : History κ ν → Option ν
  | [] => none
  | (.put other value, _) :: earlier =>
    if other = key ∧ key ∉ held capacity earlier then some value
    else inserted? capacity key earlier
  | _ :: earlier => inserted? capacity key earlier

end History

/-! ### What a cache holds -/

variable {κ ν : Type} [DecidableEq κ] {cache : Cache κ ν} {key : κ} {value : ν}

theorem lookup?_eq_none_iff : cache.lookup? key = none ↔ key ∉ cache.keys := by
  simp only [lookup?, keys, Option.map_eq_none_iff, List.find?_eq_none, decide_eq_true_eq,
    List.mem_map, not_exists, not_and]

theorem contains_iff : cache.contains key = true ↔ key ∈ cache.keys := by
  rw [contains, ← Option.ne_none_iff_isSome, ne_eq, lookup?_eq_none_iff, not_not]

/-- A cache whose keys and values are those that a history tells. -/
structure Follows (capacity : Nat) (history : History κ ν) (cache : Cache κ ν) : Prop where
  sized : cache.capacity = capacity
  keys : cache.Lists history.uses
  values : cache.Satisfies fun key value => history.inserted? capacity key = some value

namespace Follows

variable {capacity : Nat} {history : History κ ν}

theorem empty (capacity : Nat) : Follows capacity [] (Cache.empty capacity : Cache κ ν) where
  sized := rfl
  keys := by simp [Lists, Cache.keys, Cache.empty, History.uses]
  values := satisfies_empty capacity

theorem keys_eq (h : Follows capacity history cache) : cache.keys = history.held capacity := by
  have hkeys : cache.keys = history.uses.eraseDups.take cache.capacity := h.keys
  rw [hkeys, h.sized, History.held]

theorem mem_held_iff (h : Follows capacity history cache) :
    key ∈ history.held capacity ↔ key ∈ cache.keys := by
  rw [h.keys_eq]

theorem lookup?_of_notMem (h : Follows capacity history cache)
    (hkey : key ∉ history.held capacity) : cache.lookup? key = none :=
  lookup?_eq_none_iff.mpr (mt h.mem_held_iff.mpr hkey)

/-- A key that is held is found with the value of its latest insertion. -/
theorem exists_lookup? (h : Follows capacity history cache) (hkey : key ∈ history.held capacity) :
    ∃ value, history.inserted? capacity key = some value ∧ cache.lookup? key = some value := by
  cases hlookup : cache.lookup? key with
  | none => exact absurd (h.mem_held_iff.mp hkey) (lookup?_eq_none_iff.mp hlookup)
  | some value => exact ⟨value, h.values _ (mem_of_lookup? hlookup), rfl⟩

theorem capacity_pos_of_mem (h : Follows capacity history cache)
    (hkey : key ∈ history.held capacity) : cache.capacity ≠ 0 := by
  intro hzero
  rw [History.held, ← h.sized, hzero, List.take_zero] at hkey
  cases hkey

/-! ### Requests -/

theorem get (h : Follows capacity history cache) (key : κ) :
    Follows capacity ((.get key, .value (cache.get key).1) :: history) (cache.get key).2 := by
  cases hget : cache.get key with
  | mk found next =>
      have hcapacity := capacity_get cache key
      have hvalues := (h.values.get key).1
      rw [hget] at hcapacity hvalues
      cases found with
      | none =>
          have hsame := get_eq_of_none (congrArg Prod.fst hget)
          rw [hget] at hsame
          obtain rfl : next = cache := hsame
          exact ⟨h.sized, h.keys, h.values⟩
      | some value =>
          have hlists := h.keys.get (congrArg Prod.fst hget)
          rw [hget] at hlists
          exact ⟨hcapacity.trans h.sized, hlists, hvalues⟩

/-- The values after a put: a new one if the key was not held, and the old ones. -/
theorem values_put (h : Follows capacity history cache) (key : κ) (value : ν) (reply : Reply ν) :
    (cache.put key value).2.Satisfies fun other stored =>
      History.inserted? capacity other ((.put key value, reply) :: history) = some stored := by
  have hold : ∀ other stored, (key ≠ other ∨ other ∈ history.held capacity) →
      history.inserted? capacity other = some stored →
      History.inserted? capacity other ((.put key value, reply) :: history) = some stored := by
    intro other stored hcase hinserted
    rw [History.inserted?, if_neg, hinserted]
    rintro ⟨hsame, hfresh⟩
    exact hcase.elim (fun hne => hne hsame) hfresh
  have hentries : cache.Satisfies fun other stored =>
      History.inserted? capacity other ((.put key value, reply) :: history) = some stored := by
    intro entry hentry
    apply hold _ _ _ (h.values entry hentry)
    exact .inr (h.mem_held_iff.mpr (List.mem_map_of_mem hentry))
  unfold Cache.put
  split
  · exact hentries
  · cases hlookup : cache.lookup? key with
    | some stored =>
        have hstored := hentries _ (mem_of_lookup? hlookup)
        exact hentries.toFront hstored
    | none =>
        have hfresh : key ∉ history.held capacity :=
          mt h.mem_held_iff.mp (lookup?_eq_none_iff.mp hlookup)
        have hnew :
            History.inserted? capacity key ((.put key value, reply) :: history) = some value := by
          rw [History.inserted?, if_pos ⟨rfl, hfresh⟩]
        exact (hentries.toFront hnew).trim

theorem put (h : Follows capacity history cache) (key : κ) (value : ν) :
    Follows capacity ((.put key value, .stored (cache.put key value).1) :: history)
      (cache.put key value).2 where
  sized := (capacity_put cache key value).trans h.sized
  keys := h.keys.put key value
  values := h.values_put key value _

theorem clear (h : Follows capacity history cache) (reply : Reply ν) :
    Follows capacity ((.clear, reply) :: history) cache.clear where
  sized := h.sized
  keys := by simp [Lists, Cache.keys, Cache.clear, History.uses]
  values := by
    intro entry hentry
    cases hentry

/-- A request with its reply continues the history of the cache. -/
theorem perform (h : Follows capacity history cache) (request : Request κ ν) :
    Follows capacity ((request, (cache.perform request).1) :: history)
      (cache.perform request).2 := by
  cases request with
  | get key => exact h.get key
  | put key value => exact h.put key value
  | contains key => exact ⟨h.sized, h.keys, h.values⟩
  | size => exact ⟨h.sized, h.keys, h.values⟩
  | clear => exact h.clear _

/-- Whatever has been asked of a cache, it follows its history. -/
theorem run (h : Follows capacity history cache) (requests : List (Request κ ν)) :
    Follows capacity (cache.run history requests).1 (cache.run history requests).2 := by
  induction requests generalizing history cache with
  | nil => exact h
  | cons request later ih => exact ih (h.perform request)

end Follows

end Cache

end RegexSearch
