import Mathlib.Data.List.AList
import RegexSearch.Proofs.Cache.History

/-!
A cache with an index. To look for a key in a long list takes long; an index from keys to the nodes
of the list leads there at once. A node keeps its handle wherever in the list it is moved, so the
index changes only when a node comes or goes. The list and the index are kept in step: they have the
same keys, and no handle in the index is without its node. So the two together do what the plain
list of a cache does, request by request.
-/

namespace RegexSearch

/-- A node of the list, which the index refers to by its handle. -/
structure Node (κ ν : Type) where
  handle : Nat
  key : κ
  value : ν
  deriving DecidableEq, Repr

structure LinkedCache (κ ν : Type) where
  capacity : Nat
  /-- The most recently used first. -/
  nodes : List (Node κ ν)
  /-- The handle of the node of each key. -/
  index : AList fun _ : κ => Nat
  /-- The handle of the next node that comes. -/
  fresh : Nat

namespace LinkedCache

variable {κ ν : Type} [DecidableEq κ]

def empty (capacity : Nat) : LinkedCache κ ν := ⟨capacity, [], ∅, 0⟩

def keys (cache : LinkedCache κ ν) : List κ :=
  cache.nodes.map (·.key)

/-- The node with a handle. -/
def node? (cache : LinkedCache κ ν) (handle : Nat) : Option (Node κ ν) :=
  cache.nodes.find? (·.handle = handle)

/-- Moves the node with a handle to the front. -/
def splice (cache : LinkedCache κ ν) (handle : Nat) : LinkedCache κ ν :=
  match cache.node? handle with
  | none => cache
  | some node => { cache with nodes := node :: cache.nodes.filter (·.handle ≠ handle) }

/-- Puts a new node in front, and enters it into the index. -/
def pushFront (cache : LinkedCache κ ν) (key : κ) (value : ν) : LinkedCache κ ν :=
  { cache with
    nodes := ⟨cache.fresh, key, value⟩ :: cache.nodes
    index := cache.index.insert key cache.fresh
    fresh := cache.fresh + 1 }

/-- Takes the last node away, and its key out of the index. -/
def popBack (cache : LinkedCache κ ν) : LinkedCache κ ν :=
  match cache.nodes.getLast? with
  | none => cache
  | some node =>
    { cache with nodes := cache.nodes.dropLast, index := cache.index.erase node.key }

theorem nodes_popBack (cache : LinkedCache κ ν) :
    cache.popBack.nodes = cache.nodes.dropLast := by
  unfold popBack
  split
  · rename_i hnone
    rw [List.getLast?_eq_none_iff.mp hnone, List.dropLast_nil]
  · rfl

/-- Takes nodes away at the end as long as there are more than the capacity allows. -/
def evict (cache : LinkedCache κ ν) : LinkedCache κ ν :=
  if cache.capacity < cache.nodes.length then cache.popBack.evict else cache
termination_by cache.nodes.length
decreasing_by
  rw [nodes_popBack, List.length_dropLast]
  omega

/-- The value under a key, which is used by this. -/
def get (cache : LinkedCache κ ν) (key : κ) : Option ν × LinkedCache κ ν :=
  match cache.index.lookup key with
  | none => (none, cache)
  | some handle => ((cache.node? handle).map (·.value), cache.splice handle)

/-- Stores a value unless there is one under the key, and gives the value that is stored then. -/
def put (cache : LinkedCache κ ν) (key : κ) (value : ν) : ν × LinkedCache κ ν :=
  if cache.capacity = 0 then (value, cache)
  else
    match cache.index.lookup key with
    | some handle => (((cache.node? handle).map (·.value)).getD value, cache.splice handle)
    | none =>
      let stored := (cache.pushFront key value).evict
      ((stored.nodes.head?.map (·.value)).getD value, stored)

def contains (cache : LinkedCache κ ν) (key : κ) : Bool :=
  (cache.index.lookup key).isSome

def size (cache : LinkedCache κ ν) : Nat :=
  cache.nodes.length

def clear (cache : LinkedCache κ ν) : LinkedCache κ ν :=
  { cache with nodes := [], index := ∅ }

/-- The reply to a request, and the cache after it. -/
def perform (cache : LinkedCache κ ν) : Cache.Request κ ν → Cache.Reply ν × LinkedCache κ ν
  | .get key => (cache.get key).map .value id
  | .put key value => (cache.put key value).map .stored id
  | .contains key => (.contained (cache.contains key), cache)
  | .size => (.size cache.size, cache)
  | .clear => (.cleared, cache.clear)

/-- Makes requests one after the other, and adds them to a history. -/
def run (cache : LinkedCache κ ν) (history : Cache.History κ ν) :
    List (Cache.Request κ ν) → Cache.History κ ν × LinkedCache κ ν
  | [] => (history, cache)
  | request :: later =>
    let (reply, next) := cache.perform request
    next.run ((request, reply) :: history) later

/-- The plain list of the keys with their values. -/
def plain (cache : LinkedCache κ ν) : Cache κ ν :=
  ⟨cache.capacity, cache.nodes.map fun node => (node.key, node.value)⟩

/-- The list and the index are in step. -/
structure InStep (cache : LinkedCache κ ν) : Prop where
  keys : cache.keys.Nodup
  handles : (cache.nodes.map (·.handle)).Nodup
  lt_fresh : ∀ node ∈ cache.nodes, node.handle < cache.fresh
  index : ∀ key handle, cache.index.lookup key = some handle ↔
    ∃ node ∈ cache.nodes, node.key = key ∧ node.handle = handle

variable {cache : LinkedCache κ ν} {key : κ} {value : ν} {handle : Nat}

private theorem filter_middle {α : Type} {keep : α → Bool} {front back : List α} {item : α}
    (hitem : ¬ keep item = true) (hothers : ∀ other ∈ front ++ back, keep other = true) :
    (front ++ item :: back).filter keep = front ++ back := by
  rw [List.filter_append, List.filter_cons_of_neg hitem, ← List.filter_append]
  exact List.filter_eq_self.mpr hothers

private theorem ne_of_nodup_map {α β : Type} {part : α → β} {front back : List α} {item : α}
    (h : ((front ++ item :: back).map part).Nodup) :
    ∀ other ∈ front ++ back, part other ≠ part item := by
  rw [List.map_append, List.map_cons, List.nodup_middle, List.nodup_cons, ← List.map_append] at h
  intro other hother hsame
  exact h.1 (List.mem_map.mpr ⟨other, hother, hsame⟩)

omit [DecidableEq κ] in
theorem keys_plain (cache : LinkedCache κ ν) : cache.plain.keys = cache.keys := by
  simp [plain, Cache.keys, keys]

namespace InStep

theorem clear (cache : LinkedCache κ ν) : cache.clear.InStep where
  keys := List.nodup_nil
  handles := List.nodup_nil
  lt_fresh := fun _ hmem => absurd hmem List.not_mem_nil
  index := by simp [LinkedCache.clear]

theorem empty (capacity : Nat) : (empty capacity : LinkedCache κ ν).InStep :=
  clear (LinkedCache.empty capacity)

/-- Only the nodes count, not their order. -/
theorem of_perm (h : cache.InStep) {nodes : List (Node κ ν)} (hperm : nodes.Perm cache.nodes) :
    ({ cache with nodes } : LinkedCache κ ν).InStep where
  keys := (hperm.map _).nodup_iff.mpr h.keys
  handles := (hperm.map _).nodup_iff.mpr h.handles
  lt_fresh := fun node hmem => h.lt_fresh node (hperm.mem_iff.mp hmem)
  index := by
    intro key handle
    simp only [hperm.mem_iff]
    exact h.index key handle

theorem mem_keys_iff (h : cache.InStep) : key ∈ cache.index.keys ↔ key ∈ cache.keys := by
  rw [← AList.mem_keys, ← AList.lookup_isSome, Option.isSome_iff_exists]
  simp only [h.index, LinkedCache.keys, List.mem_map]
  constructor
  · rintro ⟨handle, node, hmem, hkey, -⟩
    exact ⟨node, hmem, hkey⟩
  · rintro ⟨node, hmem, hkey⟩
    exact ⟨node.handle, node, hmem, hkey, rfl⟩

theorem perm_keys (h : cache.InStep) : cache.index.keys.Perm cache.keys :=
  (List.perm_ext_iff_of_nodup cache.index.keys_nodup h.keys).mpr fun _ => h.mem_keys_iff

theorem lookup?_eq_none_iff (h : cache.InStep) :
    cache.index.lookup key = none ↔ cache.plain.lookup? key = none := by
  rw [AList.lookup_eq_none, AList.mem_keys, h.mem_keys_iff, Cache.lookup?_eq_none_iff, keys_plain]

/-- A handle in the index leads to its node, wherever it is. -/
theorem exists_node (h : cache.InStep) (hlookup : cache.index.lookup key = some handle) :
    ∃ front node back, cache.nodes = front ++ node :: back ∧ node.key = key ∧
      (∀ other ∈ front ++ back, other.key ≠ key ∧ other.handle ≠ handle) ∧
      cache.node? handle = some node := by
  obtain ⟨node, hmem, rfl, rfl⟩ := (h.index key handle).mp hlookup
  obtain ⟨front, back, hnodes⟩ := List.append_of_mem hmem
  have hkeys := h.keys
  have hhandles := h.handles
  rw [LinkedCache.keys, hnodes] at hkeys
  rw [hnodes] at hhandles
  have hothers : ∀ other ∈ front ++ back, other.key ≠ node.key ∧ other.handle ≠ node.handle :=
    fun other hother => ⟨ne_of_nodup_map hkeys other hother, ne_of_nodup_map hhandles other hother⟩
  refine ⟨front, node, back, hnodes, rfl, hothers, ?_⟩
  rw [node?, List.find?_eq_some_iff_append]
  refine ⟨by simp, front, back, hnodes, ?_⟩
  intro other hother
  simpa using (hothers other (List.mem_append_left _ hother)).2

/-- What the index finds is what the list holds, and moving the node to the front keeps the two in
step. -/
theorem found (h : cache.InStep) (hlookup : cache.index.lookup key = some handle) :
    ∃ node, cache.node? handle = some node ∧ cache.plain.lookup? key = some node.value ∧
      (cache.splice handle).plain = cache.plain.toFront key node.value ∧
      (cache.splice handle).InStep := by
  obtain ⟨front, node, back, hnodes, rfl, hothers, hnode⟩ := h.exists_node hlookup
  have hfront : ∀ other ∈ front, other.key ≠ node.key := fun other hmem =>
    (hothers other (List.mem_append_left _ hmem)).1
  have hself : node.handle = handle := by simpa using List.find?_some hnode
  have hrest : cache.nodes.filter (·.handle ≠ handle) = front ++ back := by
    rw [hnodes]
    apply filter_middle
    · simpa using hself
    · intro other hmem
      simpa using (hothers other hmem).2
  refine ⟨node, hnode, ?_, ?_, ?_⟩
  · simp only [Cache.lookup?, plain, List.find?_map, hnodes, Option.map_map]
    rw [List.find?_append, List.find?_eq_none.mpr, Option.none_or]
    · simp
    · intro other hmem
      simpa using hfront other hmem
  · have hfiltered : cache.nodes.filter (·.key ≠ node.key) = front ++ back := by
      rw [hnodes]
      apply filter_middle
      · simp
      · intro other hmem
        simpa using (hothers other hmem).1
    simp only [splice, hnode, plain, Cache.toFront, hrest, List.filter_map, List.map_cons]
    rw [← hfiltered]
    rfl
  · simp only [splice, hnode, hrest]
    apply h.of_perm
    rw [hnodes]
    exact List.perm_middle.symm

/-! ### Nodes that come and go -/

theorem pushFront (h : cache.InStep) (hkey : key ∉ cache.keys) (value : ν) :
    (cache.pushFront key value).InStep where
  keys := List.nodup_cons.mpr ⟨hkey, h.keys⟩
  handles := by
    refine List.nodup_cons.mpr ⟨?_, h.handles⟩
    intro hmem
    obtain ⟨node, hnode, hsame⟩ := List.mem_map.mp hmem
    exact Nat.ne_of_lt (h.lt_fresh node hnode) hsame
  lt_fresh := by
    intro node hmem
    rcases List.mem_cons.mp hmem with rfl | hold
    · exact Nat.lt_succ_self _
    · exact Nat.lt_succ_of_lt (h.lt_fresh node hold)
  index := by
    intro other handle
    simp only [LinkedCache.pushFront, List.exists_mem_cons_iff]
    by_cases hother : other = key
    · subst hother
      have habsent : ¬ ∃ node ∈ cache.nodes, node.key = other ∧ node.handle = handle := by
        rintro ⟨node, hnode, hsame, -⟩
        exact hkey (List.mem_map.mpr ⟨node, hnode, hsame⟩)
      simp [habsent]
    · rw [AList.lookup_insert_ne hother, h.index]
      simp [Ne.symm hother]

theorem popBack (h : cache.InStep) : cache.popBack.InStep := by
  rcases List.eq_nil_or_concat cache.nodes with hnil | ⟨nodes, last, hnodes⟩
  · simpa [LinkedCache.popBack, hnil] using h
  · have hkeys := h.keys
    have hhandles := h.handles
    have hpop : cache.popBack = { cache with nodes, index := cache.index.erase last.key } := by
      simp [LinkedCache.popBack, hnodes]
    rw [LinkedCache.keys, hnodes, List.concat_eq_append, List.map_append] at hkeys
    rw [hnodes, List.concat_eq_append, List.map_append] at hhandles
    rw [hpop]
    constructor
    · exact hkeys.of_append_left
    · exact hhandles.of_append_left
    · intro node hmem
      exact h.lt_fresh node (by simp [hnodes, hmem])
    · intro key handle
      by_cases hkey : key = last.key
      · have habsent : ¬ ∃ node ∈ nodes, node.key = key ∧ node.handle = handle := by
          rintro ⟨node, hnode, hsame, -⟩
          apply List.disjoint_of_nodup_append hkeys (List.mem_map_of_mem hnode)
          simp [hsame, hkey]
        rw [AList.lookup_eq_none.mpr]
        · simpa using habsent
        · simp [AList.mem_erase, hkey]
      · rw [AList.lookup_erase_ne hkey, h.index]
        simp [hnodes, or_and_right, exists_or, Ne.symm hkey]

end InStep

theorem capacity_popBack (cache : LinkedCache κ ν) :
    cache.popBack.capacity = cache.capacity := by
  unfold popBack
  split <;> rfl

/-- Evicting leaves of the list as much as the capacity allows. -/
theorem InStep.evict (h : cache.InStep) :
    cache.evict.InStep ∧ cache.evict.capacity = cache.capacity ∧
      cache.evict.nodes = cache.nodes.take cache.capacity := by
  induction cache using LinkedCache.evict.induct with
  | case1 cache hmore ih =>
      obtain ⟨hstep, hcapacity, hnodes⟩ := ih h.popBack
      rw [LinkedCache.evict, if_pos hmore]
      refine ⟨hstep, hcapacity.trans (capacity_popBack cache), ?_⟩
      rw [hnodes, nodes_popBack, capacity_popBack, List.dropLast_eq_take, List.take_take,
        Nat.min_eq_left]
      omega
  | case2 cache hfits =>
      rw [LinkedCache.evict, if_neg hfits]
      exact ⟨h, rfl, (List.take_of_length_le (Nat.le_of_not_lt hfits)).symm⟩

/-! ### Requests -/

/-- A request to the list with its index is a request to the plain list. -/
theorem InStep.get (h : cache.InStep) (key : κ) :
    (cache.get key).map id plain = cache.plain.get key ∧ (cache.get key).2.InStep := by
  unfold LinkedCache.get Cache.get
  cases hlookup : cache.index.lookup key with
  | none =>
      rw [h.lookup?_eq_none_iff.mp hlookup]
      exact ⟨rfl, h⟩
  | some handle =>
      obtain ⟨node, hnode, hplain, hsplice, hstep⟩ := h.found hlookup
      simp only [hnode, hplain, Prod.map, hsplice]
      exact ⟨rfl, hstep⟩

theorem toFront_plain (hkey : key ∉ cache.keys) (value : ν) :
    cache.plain.toFront key value = (cache.pushFront key value).plain := by
  have hkept : cache.plain.entries.filter (·.1 ≠ key) = cache.plain.entries := by
    apply List.filter_eq_self.mpr
    intro entry hentry
    have hmem : entry.1 ∈ cache.plain.keys := List.mem_map_of_mem hentry
    rw [keys_plain] at hmem
    have hne : entry.1 ≠ key := ne_of_mem_of_not_mem hmem hkey
    exact decide_eq_true hne
  simp only [Cache.toFront, hkept]
  rfl

theorem InStep.put (h : cache.InStep) (key : κ) (value : ν) :
    (cache.put key value).map id plain = cache.plain.put key value ∧
      (cache.put key value).2.InStep := by
  unfold LinkedCache.put Cache.put
  have hcapacity : cache.plain.capacity = cache.capacity := rfl
  rw [hcapacity]
  split
  · exact ⟨rfl, h⟩
  · rename_i hpositive
    cases hlookup : cache.index.lookup key with
    | none =>
        -- With room for at least one node, the new one in front is not evicted.
        have hplain := h.lookup?_eq_none_iff.mp hlookup
        have hkey : key ∉ cache.keys := by
          rw [← keys_plain]
          exact Cache.lookup?_eq_none_iff.mp hplain
        obtain ⟨hstep, hsized, hnodes⟩ := (h.pushFront hkey value).evict
        have htrim : (cache.pushFront key value).evict.plain =
            (cache.pushFront key value).plain.trim := by
          simp only [plain, Cache.trim, hsized, hnodes, List.map_take]
        have hhead : (cache.pushFront key value).evict.nodes.head? =
            some ⟨cache.fresh, key, value⟩ := by
          rw [hnodes, List.head?_take, if_neg]
          · rfl
          · exact hpositive
        simp only [hplain, Prod.map, hhead, htrim, toFront_plain hkey]
        exact ⟨rfl, hstep⟩
    | some handle =>
        obtain ⟨node, hnode, hplain, hsplice, hstep⟩ := h.found hlookup
        simp only [hnode, hplain, Prod.map, hsplice]
        exact ⟨rfl, hstep⟩

theorem InStep.contains (h : cache.InStep) (key : κ) :
    cache.contains key = cache.plain.contains key := by
  have hsame : cache.index.lookup key = none ↔ cache.plain.lookup? key = none :=
    h.lookup?_eq_none_iff
  rw [LinkedCache.contains, Cache.contains, Bool.eq_iff_iff, ← Option.ne_none_iff_isSome,
    ← Option.ne_none_iff_isSome]
  exact not_congr hsame

/-- Each request gets the reply that the plain list gives, and the two stay in step. -/
theorem InStep.perform (h : cache.InStep) (request : Cache.Request κ ν) :
    (cache.perform request).map id plain = cache.plain.perform request ∧
      (cache.perform request).2.InStep := by
  cases request with
  | get key =>
      obtain ⟨hget, hstep⟩ := h.get key
      refine ⟨?_, hstep⟩
      rw [Cache.perform, ← hget]
      rfl
  | put key value =>
      obtain ⟨hput, hstep⟩ := h.put key value
      refine ⟨?_, hstep⟩
      rw [Cache.perform, ← hput]
      rfl
  | contains key =>
      refine ⟨?_, h⟩
      rw [Cache.perform, ← h.contains key]
      rfl
  | size =>
      refine ⟨?_, h⟩
      simp [LinkedCache.perform, Cache.perform, LinkedCache.size, Cache.size, plain]
  | clear => exact ⟨rfl, InStep.clear cache⟩

/-- However many requests are made, the replies are those of the plain list. -/
theorem InStep.run (h : cache.InStep) (history : Cache.History κ ν)
    (requests : List (Cache.Request κ ν)) :
    (cache.run history requests).map id plain = cache.plain.run history requests ∧
      (cache.run history requests).2.InStep := by
  induction requests generalizing cache history with
  | nil => exact ⟨rfl, h⟩
  | cons request later ih =>
      obtain ⟨hperform, hstep⟩ := h.perform request
      rw [Cache.run, ← hperform]
      exact ih hstep _

/-- The history tells which requests were made. -/
theorem requests_run (cache : LinkedCache κ ν) (history : Cache.History κ ν)
    (requests : List (Cache.Request κ ν)) :
    (cache.run history requests).1.map (·.1) = requests.reverse ++ history.map (·.1) := by
  induction requests generalizing cache history with
  | nil => rfl
  | cons request later ih =>
      rw [LinkedCache.run, ih]
      simp

/-- A cache that holds the keys used last, both in its list and in its index. -/
structure HoldsRecent (capacity : Nat) (history : Cache.History κ ν) (cache : LinkedCache κ ν) :
    Prop where
  sized : cache.capacity = capacity
  /-- The list and the index have the same keys, none of them twice. -/
  same_keys : cache.index.keys.Perm cache.keys
  nodup : cache.keys.Nodup
  /-- The index leads to the nodes of the list. -/
  leads : ∀ key handle, cache.index.lookup key = some handle →
    ∃ node, cache.node? handle = some node ∧ node.key = key
  /-- The keys are the first distinct ones of the uses, the latest of which comes first. -/
  recent : cache.keys = history.uses.eraseDups.take capacity
  length : cache.keys.length = min capacity history.uses.eraseDups.length

/-- A cache that replies to the next request as its history tells. -/
structure RepliesBy (capacity : Nat) (history : Cache.History κ ν) (cache : LinkedCache κ ν) :
    Prop where
  contains : ∀ key, cache.perform (.contains key) =
    (.contained (decide (key ∈ history.held capacity)), cache)
  size : cache.perform .size = (.size (history.held capacity).length, cache)
  clear : cache.perform .clear = (.cleared, { cache with nodes := [], index := ∅ })
  get_absent : ∀ key ∉ history.held capacity, cache.perform (.get key) = (.value none, cache)
  put_absent : ∀ key ∉ history.held capacity, ∀ value,
    (cache.perform (.put key value)).1 = .stored value
  /-- A key that is held has the value of its latest insertion, and no other put changes it. -/
  held : ∀ key ∈ history.held capacity, ∃ value, history.inserted? capacity key = some value ∧
    (cache.perform (.get key)).1 = .value (some value) ∧
    ∀ other, (cache.perform (.put key other)).1 = .stored value

section

variable {capacity : Nat} {history : Cache.History κ ν}

theorem keys_eq_held (hfollows : cache.plain.Follows capacity history) :
    cache.keys = history.held capacity := by
  rw [← keys_plain, hfollows.keys_eq]

theorem InStep.holdsRecent (h : cache.InStep) (hfollows : cache.plain.Follows capacity history) :
    cache.HoldsRecent capacity history where
  sized := hfollows.sized
  same_keys := h.perm_keys
  nodup := h.keys
  leads := by
    intro key handle hlookup
    obtain ⟨_, node, _, _, hkey, _, hnode⟩ := h.exists_node hlookup
    exact ⟨node, hnode, hkey⟩
  recent := keys_eq_held hfollows
  length := by
    rw [keys_eq_held hfollows, Cache.History.held, List.length_take]

/-- The reply is the one that the plain list gives. -/
theorem InStep.reply_eq (h : cache.InStep) (request : Cache.Request κ ν) :
    (cache.perform request).1 = (cache.plain.perform request).1 := by
  rw [← (h.perform request).1]
  rfl

theorem InStep.repliesBy (h : cache.InStep) (hfollows : cache.plain.Follows capacity history) :
    cache.RepliesBy capacity history where
  contains := by
    intro key
    have hcontains : cache.plain.contains key = decide (key ∈ history.held capacity) := by
      rw [Bool.eq_iff_iff, Cache.contains_iff, ← hfollows.mem_held_iff, decide_eq_true_iff]
    rw [LinkedCache.perform, h.contains, hcontains]
  size := by
    rw [LinkedCache.perform, LinkedCache.size, ← keys_eq_held hfollows, LinkedCache.keys,
      List.length_map]
  clear := rfl
  get_absent := by
    intro key hkey
    have hlookup := h.lookup?_eq_none_iff.mpr (hfollows.lookup?_of_notMem hkey)
    simp only [LinkedCache.perform, LinkedCache.get, hlookup]
    rfl
  put_absent := by
    intro key hkey value
    rw [h.reply_eq, Cache.perform, Cache.put, hfollows.lookup?_of_notMem hkey]
    split <;> rfl
  held := by
    intro key hkey
    obtain ⟨value, hinserted, hlookup⟩ := hfollows.exists_lookup? hkey
    refine ⟨value, hinserted, ?_, ?_⟩
    · rw [h.reply_eq, Cache.perform, Cache.get, hlookup]
      rfl
    · intro other
      rw [h.reply_eq, Cache.perform, Cache.put, hlookup, if_neg (hfollows.capacity_pos_of_mem hkey)]
      rfl

end

/-- After any requests to an empty cache, the list with its index is the plain list that the same
requests make. It holds the keys used last and replies by its history, and without capacity it
stores nothing. -/
theorem run_empty (capacity : Nat) (requests : List (Cache.Request κ ν)) :
    let history := ((empty capacity).run [] requests).1
    let cache := ((empty capacity).run [] requests).2
    history.map (·.1) = requests.reverse ∧
      (Cache.empty capacity).run [] requests = (history, cache.plain) ∧
      cache.HoldsRecent capacity history ∧ cache.RepliesBy capacity history ∧
      (capacity = 0 → cache.nodes = [] ∧
        ∀ key value, cache.perform (.put key value) = (.stored value, cache)) := by
  intro history cache
  obtain ⟨hrun, hstep⟩ := (InStep.empty capacity).run [] requests
  have hplain : (Cache.empty capacity).run [] requests = (history, cache.plain) := hrun.symm
  have hempty : Cache.Follows capacity [] (Cache.empty capacity : Cache κ ν) := .empty capacity
  have hfollows := hempty.run requests
  rw [hplain] at hfollows
  refine ⟨?_, hplain, hstep.holdsRecent hfollows, hstep.repliesBy hfollows, ?_⟩
  · simpa using requests_run (empty capacity) [] requests
  · intro hcapacity
    constructor
    · have hkeys : cache.keys = history.held 0 := hcapacity ▸ keys_eq_held hfollows
      exact List.map_eq_nil_iff.mp (hkeys.trans List.take_zero)
    · intro key value
      have hsized : cache.capacity = 0 := hfollows.sized.trans hcapacity
      rw [LinkedCache.perform, LinkedCache.put, if_pos hsized]
      rfl

/-- With room for two keys, the key put twice keeps its first value and its place, and the one that
comes last drives the other out. Without room nothing comes in. -/
theorem run_empty_two_zero :
    (∃ cache : LinkedCache Nat Nat,
      ((empty 2).run [] [.put 1 10, .put 2 20, .put 1 11, .put 3 30, .get 2]).2 = cache ∧
      cache.keys = [3, 1] ∧ cache.index.keys.Perm [3, 1] ∧
      (cache.perform (.get 1)).1 = .value (some 10) ∧
      cache.perform (.get 2) = (.value none, cache)) ∧
    ((empty 0).run [] [.put 1 10]).2.nodes = ([] : List (Node Nat Nat)) := by
  constructor
  · obtain ⟨-, hplain, hrecent, hreplies, -⟩ :=
      run_empty 2 [.put 1 10, .put 2 20, .put 1 11, .put 3 30, .get 2]
    have hhistory := congrArg Prod.fst hplain
    rw [← hhistory] at hrecent hreplies
    have hkeys : _ = [3, 1] := hrecent.recent
    obtain ⟨value, hinserted, hget, -⟩ := hreplies.held 1 (by decide)
    obtain rfl : 10 = value := Option.some.inj hinserted
    refine ⟨_, rfl, hkeys, hkeys ▸ hrecent.same_keys, hget, ?_⟩
    exact hreplies.get_absent 2 (by decide)
  · obtain ⟨-, -, -, -, hzero⟩ := run_empty 0 [.put 1 10]
    exact (hzero rfl).1

end LinkedCache

end RegexSearch
