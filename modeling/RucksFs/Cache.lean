import RucksFs.Delta

/-!
# The sharded cache of folded inode values (`server/src/cache.rs`)

`InodeFoldedCache` is sixteen LRU lists selected by a multiplicative hash of the inode number.
`lru::LruCache` is modelled by its documented behaviour: a list of entries, most recently used
first, where `put` moves the key to the front and drops the last entry when the list would
exceed its capacity.

`find` is the value a `get` would return.  The lemmas say how each operation changes it: a
lookup after an operation is either what the operation wrote or what was there before
(`find_put`, `find_applyDeltas`, `find_invalidate`, `find_get`); entries may also disappear by
eviction.

* `InodeFoldedCache.Holds` — the entries are those of an unbounded map, some of them evicted; `Holds.step`, `Holds.run`.
* `cache_refines_map` — after every sequence of calls.
-/

set_option autoImplicit false

namespace RucksFs

/-- `lru::LruCache<Inode, InodeValue>`: most recently used first. -/
structure LruCache where
  cap : Nat
  entries : List (Inode × InodeValue)
  deriving DecidableEq, Repr

namespace LruCache

def find (c : LruCache) (i : Inode) : Option InodeValue := (c.entries.find? (·.1 == i)).map (·.2)

/-- `put`: the key moves to the front; the least recently used entry goes when full. -/
def put (c : LruCache) (i : Inode) (v : InodeValue) : LruCache :=
  { c with entries := ((i, v) :: c.entries.filter (·.1 != i)).take c.cap }

/-- `get`: a hit is promoted. -/
def get (c : LruCache) (i : Inode) : Option InodeValue × LruCache :=
  match c.find i with
  | some v => (some v, { c with entries := (i, v) :: c.entries.filter (·.1 != i) })
  | none => (none, c)

/-- `get_mut` followed by an in-place update: a hit is promoted, a miss does nothing. -/
def modify (c : LruCache) (i : Inode) (f : InodeValue → InodeValue) : LruCache :=
  match c.find i with
  | some v => { c with entries := (i, f v) :: c.entries.filter (·.1 != i) }
  | none => c

def pop (c : LruCache) (i : Inode) : LruCache := { c with entries := c.entries.filter (·.1 != i) }

theorem find_filter_ne (l : List (Inode × InodeValue)) {i j : Inode} (h : j ≠ i) :
    ((l.filter (·.1 != i)).find? (·.1 == j)).map (·.2) = (l.find? (·.1 == j)).map (·.2) := by
  induction l with
  | nil => rfl
  | cons p l ih =>
      by_cases hp : p.1 = i
      · have hpj : (p.1 == j) = false := by simp [hp, Ne.symm h]
        rw [List.filter_cons_of_neg (by simp [hp]), ih, List.find?_cons, hpj]
      · rw [List.filter_cons_of_pos (by simp [hp]), List.find?_cons, List.find?_cons]
        split
        · rfl
        · exact ih

theorem find_filter_self (l : List (Inode × InodeValue)) (i : Inode) :
    (l.filter (·.1 != i)).find? (·.1 == i) = none := by
  simp [List.find?_eq_none]

theorem find_cons_filter (c : LruCache) (i j : Inode) (v : InodeValue) :
    (({ c with entries := (i, v) :: c.entries.filter (·.1 != i) }) : LruCache).find j =
      if j = i then some v else c.find j := by
  unfold find
  by_cases h : j = i
  · simp [h]
  · simp only [List.find?_cons, h, if_false]
    rw [show (i == j) = false by simp [Ne.symm h]]
    exact find_filter_ne _ h

theorem find_take {c : LruCache} {n : Nat} {j : Inode} {w : InodeValue}
    (h : ((c.entries.take n).find? (·.1 == j)).map (·.2) = some w) : c.find j = some w := by
  unfold find
  rw [← List.take_append_drop n c.entries, List.find?_append]
  cases hf : (c.entries.take n).find? (·.1 == j) with
  | none => rw [hf] at h; cases h
  | some p => rw [hf] at h; exact h

theorem find_put {c : LruCache} {i j : Inode} {v w : InodeValue} (h : (c.put i v).find j = some w) :
    (j = i ∧ w = v) ∨ (j ≠ i ∧ c.find j = some w) := by
  have h' := find_take (c := { c with entries := (i, v) :: c.entries.filter (·.1 != i) }) h
  rw [find_cons_filter] at h'
  by_cases e : j = i
  · rw [if_pos e] at h'
    exact Or.inl ⟨e, (Option.some.inj h').symm⟩
  · rw [if_neg e] at h'
    exact Or.inr ⟨e, h'⟩

theorem find_get (c : LruCache) (i j : Inode) : (c.get i).2.find j = c.find j := by
  unfold get
  split
  · rename_i v hv
    rw [find_cons_filter]
    split
    · rename_i e; rw [e, hv]
    · rfl
  · rfl

theorem find_modify (c : LruCache) (i j : Inode) (f : InodeValue → InodeValue) :
    (c.modify i f).find j = if j = i then (c.find i).map f else c.find j := by
  unfold modify
  split
  · rename_i v hv
    rw [find_cons_filter, hv]
    rfl
  · rename_i hv
    split
    · rename_i e; rw [e, hv]; rfl
    · rfl

theorem find_pop (c : LruCache) (i j : Inode) :
    (c.pop i).find j = if j = i then none else c.find j := by
  unfold pop find
  split
  · rename_i e
    rw [e, find_filter_self]
    rfl
  · rename_i e
    exact find_filter_ne _ e

/-! ### Capacity -/

/-- The list is no longer than its capacity. -/
def Within (c : LruCache) : Prop := c.entries.length ≤ c.cap

variable {c : LruCache}

/-- An entry that is found leaves room when it is taken out. -/
theorem length_filter_lt {i : Inode} {v : InodeValue} (h : c.find i = some v) :
    (c.entries.filter (·.1 != i)).length < c.entries.length := by
  obtain ⟨p, hp, -⟩ := Option.map_eq_some_iff.1 h
  apply List.length_filter_lt_length_iff_exists.2
  exact ⟨p, List.mem_of_find?_eq_some hp, by simpa using List.find?_some hp⟩

theorem within_put (c : LruCache) (i : Inode) (v : InodeValue) : (c.put i v).Within :=
  List.length_take_le ..

theorem within_modify (h : c.Within) (i : Inode) (f : InodeValue → InodeValue) : (c.modify i f).Within := by
  unfold modify
  split
  · rename_i v hv
    exact Nat.le_trans (length_filter_lt hv) h
  · exact h

theorem within_get (h : c.Within) (i : Inode) : (c.get i).2.Within := by
  unfold get
  split
  · rename_i v hv
    exact Nat.le_trans (length_filter_lt hv) h
  · exact h

theorem within_pop (h : c.Within) (i : Inode) : (c.pop i).Within :=
  Nat.le_trans (List.length_filter_le ..) h

@[simp] theorem cap_put (c : LruCache) (i : Inode) (v : InodeValue) : (c.put i v).cap = c.cap := rfl

@[simp] theorem cap_pop (c : LruCache) (i : Inode) : (c.pop i).cap = c.cap := rfl

@[simp] theorem cap_get (c : LruCache) (i : Inode) : (c.get i).2.cap = c.cap := by
  unfold get
  split <;> rfl

@[simp] theorem cap_modify (c : LruCache) (i : Inode) (f : InodeValue → InodeValue) : (c.modify i f).cap = c.cap := by
  unfold modify
  split <;> rfl

/-- With room for one entry, what was just put is found. -/
theorem find_put_self (h : 0 < c.cap) (i : Inode) (v : InodeValue) : (c.put i v).find i = some v := by
  obtain ⟨n, hn⟩ := Nat.exists_eq_add_one.2 h
  simp [put, find, hn]

end LruCache

def NUM_SHARDS : Nat := 16

/-- `shard_index`: Fibonacci hash of the inode number, top four bits. -/
def shardIndex (inode : Inode) : Fin NUM_SHARDS :=
  ⟨inode * 0x9E3779B97F4A7C15 % 2 ^ 64 / 2 ^ 60, by unfold NUM_SHARDS; omega⟩

/-- `InodeFoldedCache`. -/
structure InodeFoldedCache where
  shards : Fin NUM_SHARDS → LruCache

namespace InodeFoldedCache

/-- `InodeFoldedCache::new`. -/
def new (capacity : Nat) : InodeFoldedCache := ⟨fun _ => ⟨max (capacity / NUM_SHARDS) 1, []⟩⟩

def setShard (c : InodeFoldedCache) (idx : Fin NUM_SHARDS) (l : LruCache) : InodeFoldedCache :=
  ⟨fun k => if k = idx then l else c.shards k⟩

/-- What a `get` of `i` would return. -/
def find (c : InodeFoldedCache) (i : Inode) : Option InodeValue := (c.shards (shardIndex i)).find i

def get (c : InodeFoldedCache) (i : Inode) : Option InodeValue × InodeFoldedCache :=
  let r := (c.shards (shardIndex i)).get i
  (r.1, c.setShard (shardIndex i) r.2)

def put (c : InodeFoldedCache) (i : Inode) (v : InodeValue) : InodeFoldedCache :=
  c.setShard (shardIndex i) ((c.shards (shardIndex i)).put i v)

/-- `apply_delta`. -/
def applyDelta (c : InodeFoldedCache) (i : Inode) (d : DeltaOp) : InodeFoldedCache :=
  c.setShard (shardIndex i) ((c.shards (shardIndex i)).modify i (fun v => foldDeltas v [d]))

/-- `apply_deltas`. -/
def applyDeltas (c : InodeFoldedCache) (i : Inode) (ds : List DeltaOp) : InodeFoldedCache :=
  c.setShard (shardIndex i) ((c.shards (shardIndex i)).modify i (fun v => foldDeltas v ds))

def invalidate (c : InodeFoldedCache) (i : Inode) : InodeFoldedCache :=
  c.setShard (shardIndex i) ((c.shards (shardIndex i)).pop i)

theorem find_setShard (c : InodeFoldedCache) (idx : Fin NUM_SHARDS) (l : LruCache) (j : Inode) :
    (c.setShard idx l).find j = if shardIndex j = idx then l.find j else c.find j := by
  unfold find setShard
  dsimp only
  split <;> rfl

theorem get_fst (c : InodeFoldedCache) (i : Inode) : (c.get i).1 = c.find i := by
  unfold get find LruCache.get
  dsimp only
  split
  · rename_i v hv; rw [hv]
  · rename_i hv; rw [hv]

theorem find_get (c : InodeFoldedCache) (i j : Inode) : (c.get i).2.find j = c.find j := by
  unfold get
  dsimp only
  rw [find_setShard]
  split
  · rename_i e
    rw [LruCache.find_get, ← e]
    rfl
  · rfl

/-- After a `put` a lookup finds what was put, or what was there before. -/
theorem find_put {c : InodeFoldedCache} {i j : Inode} {v w : InodeValue}
    (h : (c.put i v).find j = some w) : (j = i ∧ w = v) ∨ (j ≠ i ∧ c.find j = some w) := by
  unfold put at h
  rw [find_setShard] at h
  split at h
  · rename_i e
    rcases LruCache.find_put h with h | ⟨hne, h⟩
    · exact Or.inl h
    · rw [← e] at h
      exact Or.inr ⟨hne, h⟩
  · rename_i e
    exact Or.inr ⟨fun he => e (by rw [he]), h⟩

theorem find_put_self {c : InodeFoldedCache} {i : Inode} (h : 0 < (c.shards (shardIndex i)).cap) (v : InodeValue) :
    (c.put i v).find i = some v := by
  unfold put
  rw [find_setShard, if_pos rfl, LruCache.find_put_self h]

theorem find_modifyShard (c : InodeFoldedCache) (i j : Inode) (f : InodeValue → InodeValue) :
    (c.setShard (shardIndex i) ((c.shards (shardIndex i)).modify i f)).find j =
      if j = i then (c.find i).map f else c.find j := by
  rw [find_setShard, LruCache.find_modify]
  by_cases h : j = i
  · simp [h, find]
  · simp only [h, if_false]
    split
    · rename_i e; rw [← e]; rfl
    · rfl

theorem find_applyDeltas (c : InodeFoldedCache) (i j : Inode) (ds : List DeltaOp) :
    (c.applyDeltas i ds).find j =
      if j = i then (c.find i).map (fun v => foldDeltas v ds) else c.find j :=
  find_modifyShard c i j _

theorem find_invalidate (c : InodeFoldedCache) (i j : Inode) :
    (c.invalidate i).find j = if j = i then none else c.find j := by
  unfold invalidate
  rw [find_setShard, LruCache.find_pop]
  by_cases h : j = i
  · simp [h]
  · simp only [h, if_false]
    split
    · rename_i e; rw [← e]; rfl
    · rfl

end InodeFoldedCache

/-! ## Runs of the cache -/

/-- A call of the cache. -/
inductive CacheCall where
  | get (i : Inode)
  | put (i : Inode) (v : InodeValue)
  | applyDelta (i : Inode) (d : DeltaOp)
  | applyDeltas (i : Inode) (ds : List DeltaOp)
  | invalidate (i : Inode)
  deriving DecidableEq, Repr

namespace CacheCall

def step : CacheCall → InodeFoldedCache → InodeFoldedCache
  | .get i, c => (c.get i).2
  | .put i v, c => c.put i v
  | .applyDelta i d, c => c.applyDelta i d
  | .applyDeltas i ds, c => c.applyDeltas i ds
  | .invalidate i, c => c.invalidate i

/-- The same call of a map that never evicts. -/
def onMap : CacheCall → (Inode → Option InodeValue) → Inode → Option InodeValue
  | .get _, m => m
  | .put i v, m => Function.update m i (some v)
  | .applyDelta i d, m => Function.update m i ((m i).map fun v => foldDeltas v [d])
  | .applyDeltas i ds, m => Function.update m i ((m i).map fun v => foldDeltas v ds)
  | .invalidate i, m => Function.update m i none

/-- The deltas that it applies to `i`. -/
def deltasOn (i : Inode) : CacheCall → List DeltaOp
  | .applyDelta j d => if j = i then [d] else []
  | .applyDeltas j ds => if j = i then ds else []
  | _ => []

/-- It neither puts nor invalidates `i`. -/
def Keeps (i : Inode) : CacheCall → Prop
  | .put j _ => j ≠ i
  | .invalidate j => j ≠ i
  | _ => True

end CacheCall

/-- The cache after the calls `cs`. -/
def InodeFoldedCache.after (capacity : Nat) (cs : List CacheCall) : InodeFoldedCache :=
  cs.foldl (fun c a => a.step c) (.new capacity)

/-- The map after the calls `cs`. -/
def mapAfter (cs : List CacheCall) : Inode → Option InodeValue := cs.foldl (fun m a => a.onMap m) fun _ => none

/-- A cache of `capacity` whose entries are those of `m`, some of them evicted. -/
structure InodeFoldedCache.Holds (capacity : Nat) (c : InodeFoldedCache) (m : Inode → Option InodeValue) : Prop where
  cap : ∀ k, (c.shards k).cap = max (capacity / NUM_SHARDS) 1
  within : ∀ k, (c.shards k).Within
  value : ∀ {i v}, c.find i = some v → m i = some v

namespace InodeFoldedCache.Holds

variable {capacity : Nat} {c : InodeFoldedCache} {m : Inode → Option InodeValue}

theorem new (capacity : Nat) : Holds capacity (.new capacity) fun _ => none :=
  ⟨fun _ => rfl, fun _ => Nat.zero_le _, fun h => h⟩

/-- One shard is replaced. -/
theorem setShard (h : Holds capacity c m) {k : Fin NUM_SHARDS} {l : LruCache} {m' : Inode → Option InodeValue}
    (hcap : l.cap = (c.shards k).cap) (hwithin : l.Within)
    (hvalue : ∀ {i v}, (c.setShard k l).find i = some v → m' i = some v) : Holds capacity (c.setShard k l) m' := by
  refine ⟨fun j => ?_, fun j => ?_, hvalue⟩
  · show (if j = k then l else c.shards j).cap = _
    split
    · rw [hcap, h.cap]
    · exact h.cap j
  · show (if j = k then l else c.shards j).Within
    split
    · exact hwithin
    · exact h.within j

/-- Deltas on one entry. -/
theorem modify (h : Holds capacity c m) (i : Inode) (f : InodeValue → InodeValue) :
    Holds capacity (c.setShard (shardIndex i) ((c.shards (shardIndex i)).modify i f))
      (Function.update m i ((m i).map f)) := by
  apply h.setShard (LruCache.cap_modify ..) (LruCache.within_modify (h.within _) i f)
  intro j v hj
  rw [find_modifyShard] at hj
  rw [Function.update_apply]
  split
  · rename_i e
    rw [if_pos e] at hj
    obtain ⟨w, hw, rfl⟩ := Option.map_eq_some_iff.1 hj
    rw [h.value hw, Option.map_some]
  · rename_i e
    rw [if_neg e] at hj
    exact h.value hj

theorem step (h : Holds capacity c m) (a : CacheCall) : Holds capacity (a.step c) (a.onMap m) := by
  cases a with
  | get i =>
      apply h.setShard (LruCache.cap_get ..) (LruCache.within_get (h.within _) i)
      intro j v hj
      exact h.value ((find_get c i j).symm.trans hj)
  | put i v =>
      apply h.setShard (LruCache.cap_put ..) (LruCache.within_put ..)
      intro j w hj
      rcases find_put hj with ⟨rfl, rfl⟩ | ⟨hne, hj⟩
      · exact Function.update_self ..
      · exact (Function.update_of_ne hne ..).trans (h.value hj)
  | applyDelta i d => exact h.modify i _
  | applyDeltas i ds => exact h.modify i _
  | invalidate i =>
      apply h.setShard (LruCache.cap_pop ..) (LruCache.within_pop (h.within _) i)
      intro j v hj
      have hfind := (find_invalidate c i j).symm.trans hj
      split at hfind
      · cases hfind
      · rename_i hne
        exact (Function.update_of_ne hne ..).trans (h.value hfind)

theorem run (h : Holds capacity c m) (cs : List CacheCall) :
    Holds capacity (cs.foldl (fun c a => a.step c) c) (cs.foldl (fun m a => a.onMap m) m) := by
  induction cs generalizing c m with
  | nil => exact h
  | cons a cs ih => exact ih (h.step a)

end InodeFoldedCache.Holds

/-- Calls that neither put nor invalidate `i` fold their deltas into its value. -/
theorem onMap_of_keeps {i : Inode} {v : InodeValue} {m : Inode → Option InodeValue} (hm : m i = some v) {a : CacheCall}
    (ha : a.Keeps i) : a.onMap m i = some (foldDeltas v (a.deltasOn i)) := by
  cases a with
  | get j => exact hm
  | put j w => exact (Function.update_of_ne (Ne.symm ha) ..).trans hm
  | invalidate j => exact (Function.update_of_ne (Ne.symm ha) ..).trans hm
  | applyDelta j d =>
      by_cases hj : i = j
      · subst hj
        simp [CacheCall.onMap, CacheCall.deltasOn, hm]
      · simp [CacheCall.onMap, CacheCall.deltasOn, hj, Ne.symm hj, hm]
  | applyDeltas j ds =>
      by_cases hj : i = j
      · subst hj
        simp [CacheCall.onMap, CacheCall.deltasOn, hm]
      · simp [CacheCall.onMap, CacheCall.deltasOn, hj, Ne.symm hj, hm]

theorem foldl_onMap_of_keeps {i : Inode} : ∀ (cs : List CacheCall) {v : InodeValue} {m : Inode → Option InodeValue},
    m i = some v → (∀ a ∈ cs, a.Keeps i) →
      cs.foldl (fun m a => a.onMap m) m i = some (foldDeltas v (cs.flatMap (CacheCall.deltasOn i)))
  | [], _, _, hm, _ => hm
  | a :: cs, v, m, hm, hk => by
      have hstep := onMap_of_keeps hm (hk a List.mem_cons_self)
      rw [List.foldl_cons, foldl_onMap_of_keeps cs hstep fun b hb => hk b (List.mem_cons_of_mem a hb),
        List.flatMap_cons, foldDeltas_append]

/-- The map holds the last value put, with the deltas applied since. -/
theorem mapAfter_put {i : Inode} {v : InodeValue} (xs ys : List CacheCall) (hk : ∀ a ∈ ys, a.Keeps i) :
    mapAfter (xs ++ .put i v :: ys) i = some (foldDeltas v (ys.flatMap (CacheCall.deltasOn i))) := by
  unfold mapAfter
  rw [List.foldl_append, List.foldl_cons]
  exact foldl_onMap_of_keeps ys (Function.update_self ..) hk

/-- **The cache is an unbounded map with entries missing.**  After every sequence of calls a lookup finds nothing or
what the map holds, a value just put is found, and no shard exceeds its part of the capacity. -/
theorem cache_refines_map (capacity : Nat) (cs : List CacheCall) :
    (∀ i, ((InodeFoldedCache.after capacity cs).get i).1 = none ∨
      ((InodeFoldedCache.after capacity cs).get i).1 = mapAfter cs i) ∧
    (∀ i v xs ys, cs = xs ++ .put i v :: ys → (∀ a ∈ ys, a.Keeps i) →
      mapAfter cs i = some (foldDeltas v (ys.flatMap (CacheCall.deltasOn i)))) ∧
    (∀ i, (shardIndex i).val < 16) ∧
    (∀ k, ((InodeFoldedCache.after capacity cs).shards k).entries.length ≤ max 1 (capacity / 16)) ∧
    ∀ i v, (((InodeFoldedCache.after capacity cs).put i v).get i).1 = some v := by
  have h : (InodeFoldedCache.after capacity cs).Holds capacity (mapAfter cs) := (InodeFoldedCache.Holds.new capacity).run cs
  refine ⟨fun i => ?_, ?_, fun i => (shardIndex i).isLt, fun k => ?_, fun i v => ?_⟩
  · rw [InodeFoldedCache.get_fst]
    cases hf : (InodeFoldedCache.after capacity cs).find i with
    | none => exact Or.inl rfl
    | some v => exact Or.inr (h.value hf).symm
  · rintro i v xs ys rfl hk
    exact mapAfter_put xs ys hk
  · have hle : ((InodeFoldedCache.after capacity cs).shards k).entries.length ≤ _ := h.within k
    rw [h.cap k, Nat.max_comm] at hle
    exact hle
  · rw [InodeFoldedCache.get_fst]
    apply InodeFoldedCache.find_put_self
    rw [h.cap]
    exact Nat.lt_of_lt_of_le Nat.one_pos (Nat.le_max_right ..)

end RucksFs
