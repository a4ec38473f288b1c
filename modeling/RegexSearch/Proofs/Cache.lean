import Mathlib.Data.List.Nodup
import RegexSearch.Cache

/-!
What a cache remembers. A history of uses, the latest one first, determines the keys of a cache:
they are the first distinct keys of the history, as many as the capacity allows. What has been
dropped does not matter any more, because another use only moves a key to the front. The values
are the ones that were put, so whatever holds of these holds of all entries.
-/

namespace RegexSearch

section Histories

variable {κ : Type} [BEq κ] [LawfulBEq κ]

/-- Leaving out keys and leaving out repetitions can be exchanged. -/
theorem eraseDups_filter (keep : κ → Bool) (uses : List κ) :
    (uses.filter keep).eraseDups = uses.eraseDups.filter keep := by
  cases uses with
  | nil => rfl
  | cons key uses =>
      have hrest := eraseDups_filter keep (uses.filter (!· == key))
      rw [List.eraseDups_cons]
      cases hkeep : keep key with
      | true =>
          rw [List.filter_cons_of_pos hkeep, List.filter_cons_of_pos hkeep,
            List.eraseDups_cons, ← hrest, List.filter_comm]
      | false =>
          have hkept : (uses.filter (!· == key)).filter keep = uses.filter keep := by
            rw [List.filter_filter]
            apply List.filter_congr
            intro other _
            by_cases hother : other = key <;> simp [hother, hkeep]
          have hdropped : ¬ keep key = true := by simp [hkeep]
          rw [List.filter_cons_of_neg hdropped, List.filter_cons_of_neg hdropped, ← hrest, hkept]
termination_by uses.length
decreasing_by
  have := List.length_filter_le (!· == key) uses
  rw [List.length_cons]
  omega

/-- After another use, its key is the first one. -/
theorem eraseDups_cons_eq (key : κ) (uses : List κ) :
    (key :: uses).eraseDups = key :: uses.eraseDups.filter (· != key) := by
  rw [List.eraseDups_cons, eraseDups_filter]
  rfl

theorem nodup_eraseDups (uses : List κ) : uses.eraseDups.Nodup := by
  induction uses with
  | nil => exact List.nodup_nil
  | cons key uses ih =>
      rw [eraseDups_cons_eq]
      apply List.nodup_cons.mpr
      constructor
      · simp
      · exact ih.filter _

theorem filter_bne_eq_self {keys : List κ} {key : κ} (h : key ∉ keys) :
    keys.filter (· != key) = keys := by
  apply List.filter_eq_self.mpr
  intro other hother
  apply bne_iff_ne.mpr
  rintro rfl
  exact h hother

/-- A key that comes to the front takes away at most one of the keys behind it. -/
theorem take_filter_take {keys : List κ} (hnodup : keys.Nodup) (key : κ) (count : Nat) :
    ((keys.take (count + 1)).filter (· != key)).take count =
      (keys.filter (· != key)).take count := by
  induction keys generalizing count with
  | nil => rfl
  | cons first keys ih =>
      obtain ⟨hfirst, hrest⟩ := List.nodup_cons.mp hnodup
      rw [List.take_succ_cons]
      by_cases hkey : first = key
      · subst hkey
        have hdropped : ¬ (first != first) = true := by simp
        have htaken : first ∉ keys.take count := fun hmem => hfirst (List.mem_of_mem_take hmem)
        rw [List.filter_cons_of_neg (p := (· != first)) hdropped,
          List.filter_cons_of_neg (p := (· != first)) hdropped, filter_bne_eq_self hfirst,
          filter_bne_eq_self htaken, List.take_take, Nat.min_self]
      · have hkept : (first != key) = true := bne_iff_ne.mpr hkey
        rw [List.filter_cons_of_pos (p := (· != key)) hkept,
          List.filter_cons_of_pos (p := (· != key)) hkept]
        cases count with
        | zero => rfl
        | succ count => rw [List.take_succ_cons, List.take_succ_cons, ih hrest]

/-- A key that is put in front pushes the same keys out, whether or not those behind the capacity
are still there. -/
theorem take_cons_filter_take {keys : List κ} (hnodup : keys.Nodup) (key : κ) (capacity : Nat) :
    (key :: (keys.take capacity).filter (· != key)).take capacity =
      (key :: keys.filter (· != key)).take capacity := by
  cases capacity with
  | zero => rfl
  | succ count => rw [List.take_succ_cons, List.take_succ_cons, take_filter_take hnodup]

end Histories

namespace Cache

variable {κ ν : Type} {cache : Cache κ ν} {key : κ} {value : ν} {condition : κ → ν → Prop}

theorem keys_trim : cache.trim.keys = cache.keys.take cache.capacity :=
  List.map_take

/-- Every entry satisfies a condition. -/
def Satisfies (condition : κ → ν → Prop) (cache : Cache κ ν) : Prop :=
  ∀ entry ∈ cache.entries, condition entry.1 entry.2

theorem satisfies_empty (capacity : Nat) :
    (empty capacity : Cache κ ν).Satisfies condition := by
  intro entry hmem
  cases hmem

theorem Satisfies.trim (h : cache.Satisfies condition) : cache.trim.Satisfies condition :=
  fun entry hentry => h entry (List.mem_of_mem_take hentry)

variable [DecidableEq κ]

theorem mem_of_lookup? (h : cache.lookup? key = some value) : (key, value) ∈ cache.entries := by
  obtain ⟨entry, hentry, rfl⟩ := Option.map_eq_some_iff.mp h
  have hkey : entry.1 = key := by simpa using List.find?_some hentry
  rw [← hkey]
  exact List.mem_of_find?_eq_some hentry

theorem mem_keys_of_lookup? (h : cache.lookup? key = some value) : key ∈ cache.keys :=
  List.mem_map.mpr ⟨_, mem_of_lookup? h, rfl⟩

theorem capacity_get (cache : Cache κ ν) (key : κ) :
    (cache.get key).2.capacity = cache.capacity := by
  unfold Cache.get
  cases cache.lookup? key <;> rfl

theorem capacity_put (cache : Cache κ ν) (key : κ) (value : ν) :
    (cache.put key value).2.capacity = cache.capacity := by
  unfold Cache.put
  split
  · rfl
  · cases cache.lookup? key <;> rfl

/-- A key that is not found leaves the cache as it is. -/
theorem get_eq_of_none (h : (cache.get key).1 = none) : (cache.get key).2 = cache := by
  unfold Cache.get at h ⊢
  cases hlookup : cache.lookup? key with
  | none => rfl
  | some stored =>
      rw [hlookup] at h
      cases h

/-! ### Values -/

theorem Satisfies.toFront (h : cache.Satisfies condition) (hvalue : condition key value) :
    (cache.toFront key value).Satisfies condition := by
  intro entry hentry
  rcases List.mem_cons.mp hentry with rfl | hold
  · exact hvalue
  · exact h entry (List.mem_of_mem_filter hold)

theorem Satisfies.get (h : cache.Satisfies condition) (key : κ) :
    (cache.get key).2.Satisfies condition ∧
      ∀ value, (cache.get key).1 = some value → condition key value := by
  unfold Cache.get
  cases hlookup : cache.lookup? key with
  | none =>
      refine ⟨h, ?_⟩
      intro value hvalue
      cases hvalue
  | some stored =>
      have hstored : condition key stored := h _ (mem_of_lookup? hlookup)
      refine ⟨h.toFront hstored, ?_⟩
      intro value hvalue
      rw [← Option.some.inj hvalue]
      exact hstored

/-- The value that is stored in the end satisfies the condition too, whether it is the given one or
one that was there before. -/
theorem Satisfies.put (h : cache.Satisfies condition) (key : κ) (hvalue : condition key value) :
    (cache.put key value).2.Satisfies condition ∧ condition key (cache.put key value).1 := by
  unfold Cache.put
  split
  · exact ⟨h, hvalue⟩
  · cases hlookup : cache.lookup? key with
    | none => exact ⟨(h.toFront hvalue).trim, hvalue⟩
    | some stored =>
        have hstored : condition key stored := h _ (mem_of_lookup? hlookup)
        exact ⟨h.toFront hstored, hstored⟩

/-! ### Keys -/

variable [BEq κ]

/-- The keys are those used last in a history, the latest use of which comes first. -/
def Lists (cache : Cache κ ν) (uses : List κ) : Prop :=
  cache.keys = uses.eraseDups.take cache.capacity

variable [LawfulBEq κ]

theorem keys_toFront : (cache.toFront key value).keys = key :: cache.keys.filter (· != key) := by
  simp only [keys, toFront, List.map_cons, List.filter_map]
  congr 2
  apply List.filter_congr
  intro entry _
  by_cases hkey : entry.1 = key <;> simp [hkey]

/-- A key that is put in front is the one used last. -/
theorem Lists.toFront_trim {uses : List κ} (h : cache.Lists uses) (key : κ) (value : ν) :
    (cache.toFront key value).trim.Lists (key :: uses) := by
  rw [Lists, keys_trim, keys_toFront, h, eraseDups_cons_eq]
  exact take_cons_filter_take (nodup_eraseDups uses) key cache.capacity

/-- If the key was there before, the capacity is kept without dropping anything. -/
theorem Lists.toFront {uses : List κ} (h : cache.Lists uses) (hmem : key ∈ cache.keys) (value : ν) :
    (cache.toFront key value).Lists (key :: uses) := by
  have hless : (cache.keys.filter (· != key)).length < cache.keys.length := by
    apply List.length_filter_lt_length_iff_exists.mpr
    exact ⟨key, hmem, by simp⟩
  have hlength : cache.keys.length ≤ cache.capacity := by
    rw [h]
    exact List.length_take_le _ _
  have hroom : (cache.toFront key value).keys.length ≤ cache.capacity := by
    rw [keys_toFront, List.length_cons]
    omega
  have htrim := h.toFront_trim key value
  rw [Lists, keys_trim] at htrim
  exact (List.take_of_length_le hroom).symm.trans htrim

theorem Lists.get {uses : List κ} (h : cache.Lists uses) {stored : ν}
    (hget : (cache.get key).1 = some stored) : (cache.get key).2.Lists (key :: uses) := by
  unfold Cache.get at hget ⊢
  cases hlookup : cache.lookup? key with
  | none =>
      rw [hlookup] at hget
      cases hget
  | some value => exact h.toFront (mem_keys_of_lookup? hlookup) value

theorem Lists.put {uses : List κ} (h : cache.Lists uses) (key : κ) (value : ν) :
    (cache.put key value).2.Lists (key :: uses) := by
  unfold Cache.put
  split
  · rename_i hcapacity
    rw [Lists, hcapacity, List.take_zero] at h ⊢
    exact h
  · cases hlookup : cache.lookup? key with
    | none => exact h.toFront_trim key value
    | some stored => exact h.toFront (mem_keys_of_lookup? hlookup) stored

end Cache

end RegexSearch
