import RegexSearch.Proofs.Cache.History

/-!
Caches of different capacities. If two caches are given the same requests, the larger one holds all
keys that the smaller one holds, in the same order of use. A key that only the larger one finds
comes to the front there and nowhere else, so the keys of the smaller cache need not come first.
What the requests keep up is that the keys of the smaller cache are a sublist of those of the larger
one, and that the larger one has no less room left. So if a new key pushes a key out of the larger
cache, it pushes one out of the smaller cache too, and that one was used no later.
-/

namespace RegexSearch

/-- Shortening a list from behind, and a sublist of it by no less, leaves a sublist of it. -/
theorem take_sublist_take {α : Type} {part whole : List α} (h : part.Sublist whole)
    {count count' : Nat} (hcount : whole.length + count ≤ part.length + count') :
    (part.take count).Sublist (whole.take count') := by
  induction h generalizing count count' with
  | slnil => simp
  | @cons part whole item h ih =>
      have hlength := h.length_le
      rw [List.length_cons] at hcount
      obtain ⟨fewer, rfl⟩ : ∃ fewer, count' = fewer + 1 := ⟨count' - 1, by omega⟩
      rw [List.take_succ_cons]
      exact (ih (by omega)).cons item
  | @cons_cons part whole item h ih =>
      have hlength := h.length_le
      rw [List.length_cons, List.length_cons] at hcount
      cases count with
      | zero => exact List.nil_sublist _
      | succ count =>
          obtain ⟨fewer, rfl⟩ : ∃ fewer, count' = fewer + 1 := ⟨count' - 1, by omega⟩
          rw [List.take_succ_cons, List.take_succ_cons]
          exact (ih (by omega)).cons_cons item

/-- A key of a list that is moved to its front takes the place of no other key. -/
theorem perm_cons_filter {κ : Type} [DecidableEq κ] {keys : List κ} {key : κ}
    (hnodup : keys.Nodup) (hmem : key ∈ keys) :
    (key :: keys.filter (· != key)).Perm keys := by
  rw [← hnodup.erase_eq_filter]
  exact (List.perm_cons_erase hmem).symm

namespace Cache

/-! ### The keys of two caches -/

/-- The keys of a cache and those of a larger one, which are the same in the same order but for some
more, and leave no less room. -/
structure Nested {κ : Type} (capacity capacity' : Nat) (keys keys' : List κ) : Prop where
  capacity_le : capacity ≤ capacity'
  length_le : keys.length ≤ capacity
  length_le' : keys'.length ≤ capacity'
  nodup : keys'.Nodup
  sublist : keys.Sublist keys'
  room : keys'.length + capacity ≤ keys.length + capacity'

namespace Nested

variable {κ : Type} {capacity capacity' : Nat} {keys keys' : List κ} {key : κ}

theorem nil (hle : capacity ≤ capacity') : Nested capacity capacity' ([] : List κ) [] where
  capacity_le := hle
  length_le := Nat.zero_le _
  length_le' := Nat.zero_le _
  nodup := List.nodup_nil
  sublist := List.Sublist.refl _
  room := Nat.add_le_add_left hle 0

/-- If a key that is new to both caches pushes out one of the larger cache, the smaller one was full
too and loses its last key, which stood no further in front. -/
theorem insert (h : Nested capacity capacity' keys keys') (hmem' : key ∉ keys') :
    Nested capacity capacity' ((key :: keys).take capacity) ((key :: keys').take capacity') where
  capacity_le := h.capacity_le
  length_le := List.length_take_le _ _
  length_le' := List.length_take_le _ _
  nodup := (List.nodup_cons.mpr ⟨hmem', h.nodup⟩).take
  sublist := by
    have hroom := h.room
    apply take_sublist_take (h.sublist.cons_cons key)
    simp only [List.length_cons]
    omega
  room := by
    have hroom := h.room
    have hle := h.capacity_le
    simp only [List.length_take, List.length_cons]
    omega

variable [DecidableEq κ]

/-- A key that both caches hold comes to the front in both. -/
theorem toFront (h : Nested capacity capacity' keys keys') (hmem : key ∈ keys) :
    Nested capacity capacity' (key :: keys.filter (· != key)) (key :: keys'.filter (· != key)) := by
  have hperm := perm_cons_filter (h.nodup.sublist h.sublist) hmem
  have hperm' := perm_cons_filter h.nodup (h.sublist.subset hmem)
  constructor
  · exact h.capacity_le
  · exact hperm.length_eq ▸ h.length_le
  · exact hperm'.length_eq ▸ h.length_le'
  · exact hperm'.nodup_iff.mpr h.nodup
  · exact (h.sublist.filter _).cons_cons key
  · rw [hperm.length_eq, hperm'.length_eq]
    exact h.room

/-- Without a key, what the larger cache holds still contains what the smaller one holds, unless
this is the key. -/
theorem sublist_filter (h : Nested capacity capacity' keys keys') (hmem : key ∉ keys) :
    keys.Sublist (keys'.filter (· != key)) := by
  rw [← filter_bne_eq_self hmem]
  exact h.sublist.filter _

/-- A key that only the larger cache holds is in front of the others there, but in nobody's way. -/
theorem toFront_larger (h : Nested capacity capacity' keys keys') (hmem : key ∉ keys)
    (hmem' : key ∈ keys') : Nested capacity capacity' keys (key :: keys'.filter (· != key)) := by
  have hperm' := perm_cons_filter h.nodup hmem'
  constructor
  · exact h.capacity_le
  · exact h.length_le
  · exact hperm'.length_eq ▸ h.length_le'
  · exact hperm'.nodup_iff.mpr h.nodup
  · exact (h.sublist_filter hmem).cons key
  · rw [hperm'.length_eq]
    exact h.room

/-- A key that is new to the smaller cache only pushes out a key of that cache only. -/
theorem insert_smaller (h : Nested capacity capacity' keys keys') (hmem : key ∉ keys)
    (hmem' : key ∈ keys') :
    Nested capacity capacity' ((key :: keys).take capacity) (key :: keys'.filter (· != key)) := by
  have hfront := h.toFront_larger hmem hmem'
  have hpresent : (key :: keys).Sublist (key :: keys'.filter (· != key)) :=
    (h.sublist_filter hmem).cons_cons key
  exact { hfront with
    length_le := List.length_take_le _ _
    sublist := (List.take_sublist _ _).trans hpresent
    room := by
      have hroom := hfront.room
      have hlength := h.length_le
      simp only [List.length_take, List.length_cons] at hroom ⊢
      omega }

end Nested

/-! ### Requests -/

variable {κ ν : Type} [DecidableEq κ] {cache smaller larger : Cache κ ν}

theorem keys_get (cache : Cache κ ν) (key : κ) :
    (cache.get key).2.keys =
      if key ∈ cache.keys then key :: cache.keys.filter (· != key) else cache.keys := by
  unfold Cache.get
  cases hlookup : cache.lookup? key with
  | none => rw [if_neg (lookup?_eq_none_iff.mp hlookup)]
  | some value => rw [if_pos (mem_keys_of_lookup? hlookup), keys_toFront]

/-- A new key comes to the front like an old one, and what the capacity does not allow is
dropped. -/
theorem keys_put (hlength : cache.keys.length ≤ cache.capacity) (key : κ) (value : ν) :
    (cache.put key value).2.keys =
      if key ∈ cache.keys then key :: cache.keys.filter (· != key)
      else (key :: cache.keys).take cache.capacity := by
  unfold Cache.put
  split
  · rename_i hzero
    have hkeys : cache.keys = [] := List.length_eq_zero_iff.mp (by omega)
    simp [hkeys, hzero]
  · cases hlookup : cache.lookup? key with
    | some stored => rw [if_pos (mem_keys_of_lookup? hlookup), keys_toFront]
    | none =>
        have hmem := lookup?_eq_none_iff.mp hlookup
        have hcapacity : (cache.toFront key value).capacity = cache.capacity := rfl
        rw [if_neg hmem, keys_trim, keys_toFront, filter_bne_eq_self hmem, hcapacity]

theorem isSome_get_iff (cache : Cache κ ν) (key : κ) :
    (cache.get key).1.isSome = true ↔ key ∈ cache.keys := by
  rw [← contains_iff, contains, Cache.get]
  cases cache.lookup? key <;> rfl

/-- Whether a request for a key has found it. -/
def Reply.isHit : Reply ν → Bool
  | .value found => found.isSome
  | .contained verdict => verdict
  | _ => false

/-- The same request of two histories, which is a hit in the second one if it is in the first. -/
def HitsToo (entry entry' : Request κ ν × Reply ν) : Prop :=
  entry'.1 = entry.1 ∧ (entry.2.isHit = true → entry'.2.isHit = true)

/-- The keys of a cache, nested in those of a larger one. -/
def NestedIn (smaller larger : Cache κ ν) : Prop :=
  Nested smaller.capacity larger.capacity smaller.keys larger.keys

namespace NestedIn

theorem get (h : smaller.NestedIn larger) (key : κ) :
    (smaller.get key).2.NestedIn (larger.get key).2 := by
  rw [NestedIn, capacity_get, capacity_get, keys_get, keys_get]
  by_cases hmem : key ∈ smaller.keys
  · rw [if_pos hmem, if_pos (h.sublist.subset hmem)]
    exact h.toFront hmem
  · rw [if_neg hmem]
    by_cases hmem' : key ∈ larger.keys
    · rw [if_pos hmem']
      exact h.toFront_larger hmem hmem'
    · rw [if_neg hmem']
      exact h

theorem put (h : smaller.NestedIn larger) (key : κ) (value : ν) :
    (smaller.put key value).2.NestedIn (larger.put key value).2 := by
  rw [NestedIn, capacity_put, capacity_put, keys_put h.length_le, keys_put h.length_le']
  by_cases hmem : key ∈ smaller.keys
  · rw [if_pos hmem, if_pos (h.sublist.subset hmem)]
    exact h.toFront hmem
  · rw [if_neg hmem]
    by_cases hmem' : key ∈ larger.keys
    · rw [if_pos hmem']
      exact h.insert_smaller hmem hmem'
    · rw [if_neg hmem']
      exact h.insert hmem'

theorem perform (h : smaller.NestedIn larger) (request : Request κ ν) :
    (smaller.perform request).2.NestedIn (larger.perform request).2 := by
  cases request with
  | get key => exact h.get key
  | put key value => exact h.put key value
  | contains key => exact h
  | size => exact h
  | clear => exact .nil h.capacity_le

theorem isHit (h : smaller.NestedIn larger) (request : Request κ ν)
    (hhit : (smaller.perform request).1.isHit = true) :
    (larger.perform request).1.isHit = true := by
  cases request with
  | get key =>
      have hmem := (isSome_get_iff smaller key).mp hhit
      exact (isSome_get_iff larger key).mpr (h.sublist.subset hmem)
  | contains key =>
      have hmem := contains_iff.mp hhit
      exact contains_iff.mpr (h.sublist.subset hmem)
  | put key value => cases hhit
  | size => cases hhit
  | clear => cases hhit

theorem run (h : smaller.NestedIn larger) {history history' : History κ ν}
    (hhistory : List.Forall₂ HitsToo history history') (requests : List (Request κ ν)) :
    (smaller.run history requests).2.NestedIn (larger.run history' requests).2 ∧
      List.Forall₂ HitsToo (smaller.run history requests).1 (larger.run history' requests).1 := by
  induction requests generalizing smaller larger history history' with
  | nil => exact ⟨h, hhistory⟩
  | cons request later ih => exact ih (h.perform request) (.cons ⟨rfl, h.isHit request⟩ hhistory)

end NestedIn

/-- A larger cache never turns a hit into a miss. Whatever has been asked of two empty caches, the
keys of the smaller one are among those of the larger one, in the same order of use; so each of the
requests made so far that has hit in the smaller cache has hit in the larger one, and so does
whatever is asked next. -/
theorem keys_sublist_of_capacity_le {capacity capacity' : Nat} (hle : capacity ≤ capacity')
    (requests : List (Request κ ν)) :
    let smaller := (empty capacity : Cache κ ν).run [] requests
    let larger := (empty capacity' : Cache κ ν).run [] requests
    smaller.2.keys.Sublist larger.2.keys ∧
      List.Forall₂ HitsToo smaller.1 larger.1 ∧
      ∀ key, ((smaller.2.get key).1.isSome = true → (larger.2.get key).1.isSome = true) ∧
        (smaller.2.contains key = true → larger.2.contains key = true) := by
  intro smaller larger
  have hempty : (empty capacity : Cache κ ν).NestedIn (empty capacity') := .nil hle
  obtain ⟨hkeys, hhistory⟩ := hempty.run .nil requests
  exact ⟨hkeys.sublist, hhistory, fun key => ⟨hkeys.isHit (.get key), hkeys.isHit (.contains key)⟩⟩

/-- With room for one key and for two: key 1 is found by the larger cache only and comes to the
front there, so that key 3 drives key 2 out of both. -/
theorem keys_sublist_of_capacity_le_of_found_by_larger :
    let requests : List (Request Nat Nat) :=
      [.put 1 10, .put 2 20, .contains 2, .get 1, .put 3 30, .get 3]
    let smaller := (empty 1 : Cache Nat Nat).run [] requests
    let larger := (empty 2 : Cache Nat Nat).run [] requests
    1 ≤ 2 ∧ smaller.2.keys = [3] ∧ larger.2.keys = [3, 1] ∧
      smaller.2.keys.Sublist larger.2.keys ∧
      larger.2.contains 3 = true := by
  intro requests smaller larger
  obtain ⟨hkeys, -, hhits⟩ := keys_sublist_of_capacity_le (Nat.le_succ 1) requests
  have hcontains : smaller.2.contains 3 = true := by decide
  exact ⟨Nat.le_succ 1, by decide, by decide, hkeys, (hhits 3).2 hcontains⟩

end Cache

end RegexSearch
