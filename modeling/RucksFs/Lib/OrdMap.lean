import Mathlib.Data.List.Lex
import Mathlib.Data.List.Sort
import Mathlib.Data.Prod.Lex

/-!
# Finite maps kept in key order

`OrdMap κ ν` is a finite map stored as a list of bindings in strictly increasing key order, the
shape of one column family of an ordered key-value store.  The order is a field of the type, so
every map that can be written down is sorted and has each key at most once.

* `get`, `put`, `erase` — point operations; `ext_get` says that a map is its `get` function.
* `count` — the number of bindings with a property; `count_put` and `count_erase` say how a
  point write changes it, `count_update` how a change of the property at one key does.
* `slice` — for keys that are pairs in lexicographic order, the bindings with a given first
  component (the prefix scan of such a store), again as a map; `perm_flatMap_slice` says that the
  slices make up the map.
* `toList_put_last` — a key above all others is appended at the end of the list.
-/

set_option autoImplicit false

/-- A finite map: bindings in strictly increasing key order. -/
@[ext] structure OrdMap (κ ν : Type) [LinearOrder κ] where
  toList : List (κ × ν)
  sorted : toList.Pairwise (fun a b => a.1 < b.1)
  deriving DecidableEq

namespace OrdMap

variable {κ ν : Type} [LinearOrder κ] {m : OrdMap κ ν} {l : List (κ × ν)}

/-- First binding of `k` in a list. -/
def getL (k : κ) : List (κ × ν) → Option ν
  | [] => none
  | (a, v) :: l => if a = k then some v else getL k l

/-- Ordered insertion, replacing an existing binding of `k`. -/
def putL (k : κ) (v : ν) : List (κ × ν) → List (κ × ν)
  | [] => [(k, v)]
  | (a, w) :: l =>
      if k < a then (k, v) :: (a, w) :: l
      else if a < k then (a, w) :: putL k v l
      else (k, v) :: l

theorem mem_putL {k : κ} {v : ν} : ∀ {l : List (κ × ν)} {p : κ × ν},
    p ∈ putL k v l → p = (k, v) ∨ p ∈ l
  | [], p, h => by simpa [putL] using h
  | (a, w) :: l, p, h => by
    unfold putL at h
    split at h
    · exact List.mem_cons.1 h
    · split at h
      · rcases List.mem_cons.1 h with rfl | h
        · exact Or.inr List.mem_cons_self
        · rcases mem_putL h with h | h
          · exact Or.inl h
          · exact Or.inr (List.mem_cons_of_mem _ h)
      · rcases List.mem_cons.1 h with h | h
        · exact Or.inl h
        · exact Or.inr (List.mem_cons_of_mem _ h)

theorem sorted_putL (k : κ) (v : ν) : ∀ {l : List (κ × ν)},
    l.Pairwise (fun a b => a.1 < b.1) → (putL k v l).Pairwise (fun a b => a.1 < b.1)
  | [], _ => by simp [putL]
  | (a, w) :: l, h => by
    obtain ⟨hhd, htl⟩ := List.pairwise_cons.1 h
    unfold putL
    split
    · rename_i hk
      refine List.pairwise_cons.2 ⟨?_, h⟩
      intro p hp
      rcases List.mem_cons.1 hp with rfl | hp
      · exact hk
      · exact lt_trans hk (hhd p hp)
    · rename_i hk
      split
      · rename_i hak
        refine List.pairwise_cons.2 ⟨?_, sorted_putL k v htl⟩
        intro p hp
        rcases mem_putL hp with rfl | hp
        · exact hak
        · exact hhd p hp
      · rename_i hak
        have heq : a = k := le_antisymm (not_lt.1 hk) (not_lt.1 hak)
        subst heq
        exact List.pairwise_cons.2 ⟨hhd, htl⟩

theorem mem_iff_getL : ∀ {l : List (κ × ν)}, l.Pairwise (fun a b => a.1 < b.1) →
    ∀ {k : κ} {v : ν}, (k, v) ∈ l ↔ getL k l = some v
  | [], _, k, v => by simp [getL]
  | (a, w) :: l, h, k, v => by
    obtain ⟨hhd, htl⟩ := List.pairwise_cons.1 h
    have ih := mem_iff_getL htl (k := k) (v := v)
    rw [List.mem_cons, ih, getL]
    split
    · rename_i hak
      subst hak
      have hno : getL a l ≠ some v := fun hs =>
        lt_irrefl a (hhd (a, v) ((mem_iff_getL htl).2 hs))
      simp [hno, eq_comm]
    · rename_i hak
      simp [Ne.symm hak]

def get (m : OrdMap κ ν) (k : κ) : Option ν := getL k m.toList

def empty : OrdMap κ ν := ⟨[], List.Pairwise.nil⟩

instance : EmptyCollection (OrdMap κ ν) := ⟨empty⟩

instance : Inhabited (OrdMap κ ν) := ⟨empty⟩

def put (m : OrdMap κ ν) (k : κ) (v : ν) : OrdMap κ ν := ⟨putL k v m.toList, sorted_putL k v m.sorted⟩

def erase (m : OrdMap κ ν) (k : κ) : OrdMap κ ν :=
  ⟨m.toList.filter (fun p => p.1 ≠ k), m.sorted.filter _⟩

theorem mem_toList {k : κ} {v : ν} : (k, v) ∈ m.toList ↔ m.get k = some v :=
  mem_iff_getL m.sorted

theorem nodup_toList (m : OrdMap κ ν) : m.toList.Nodup := by
  refine m.sorted.imp ?_
  rintro a b hlt rfl
  exact lt_irrefl _ hlt

/-- A map is determined by its lookups. -/
theorem ext_get {m' : OrdMap κ ν} (h : ∀ k, m.get k = m'.get k) : m = m' := by
  apply OrdMap.ext
  have hmem : ∀ p : κ × ν, p ∈ m.toList ↔ p ∈ m'.toList := by
    rintro ⟨k, v⟩
    rw [mem_toList, mem_toList, h]
  refine List.Perm.eq_of_pairwise ?_ m.sorted m'.sorted
    ((List.perm_ext_iff_of_nodup m.nodup_toList m'.nodup_toList).2 hmem)
  intro a b _ _ hab hba
  exact absurd (lt_trans hab hba) (lt_irrefl _)

@[simp] theorem get_empty (k : κ) : (∅ : OrdMap κ ν).get k = none := rfl

theorem getL_putL (k : κ) (v : ν) (k' : κ) : ∀ l : List (κ × ν),
    l.Pairwise (fun a b => a.1 < b.1) → getL k' (putL k v l) = if k' = k then some v else getL k' l
  | [], _ => by simp [putL, getL, eq_comm]
  | (a, w) :: l, h => by
    have ih := getL_putL k v k' l (List.pairwise_cons.1 h).2
    unfold putL
    split
    · simp [getL, eq_comm]
    · rename_i hk
      split
      · rename_i hak
        simp only [getL, ih]
        by_cases e : k' = k
        · have hne : a ≠ k' := fun he => lt_irrefl _ (he ▸ e ▸ hak)
          simp [e, e ▸ hne]
        · simp [e]
      · rename_i hak
        have heq : a = k := le_antisymm (not_lt.1 hk) (not_lt.1 hak)
        subst heq
        by_cases e : k' = a
        · simp [getL, e]
        · simp [getL, e, Ne.symm e]

theorem get_put (m : OrdMap κ ν) (k : κ) (v : ν) (k' : κ) :
    (m.put k v).get k' = if k' = k then some v else m.get k' :=
  getL_putL k v k' m.toList m.sorted

@[simp] theorem get_put_self (m : OrdMap κ ν) (k : κ) (v : ν) : (m.put k v).get k = some v := by
  simp [get_put]

theorem get_put_ne (m : OrdMap κ ν) {k k' : κ} (v : ν) (h : k' ≠ k) :
    (m.put k v).get k' = m.get k' := by
  simp [get_put, h]

theorem get_erase (m : OrdMap κ ν) (k k' : κ) :
    (m.erase k).get k' = if k' = k then none else m.get k' := by
  apply Option.ext
  intro v
  have hmem : (k', v) ∈ (m.erase k).toList ↔ (k', v) ∈ m.toList ∧ k' ≠ k := by
    simp [erase]
  rw [← mem_toList, hmem, mem_toList]
  by_cases e : k' = k <;> simp [e]

@[simp] theorem get_erase_self (m : OrdMap κ ν) (k : κ) : (m.erase k).get k = none := by
  simp [get_erase]

theorem get_erase_ne (m : OrdMap κ ν) {k k' : κ} (h : k' ≠ k) :
    (m.erase k).get k' = m.get k' := by
  simp [get_erase, h]

/-! ## Counting bindings -/

/-- Number of bindings that satisfy `P`. -/
def count (P : κ → ν → Bool) (m : OrdMap κ ν) : Nat := m.toList.countP (fun p => P p.1 p.2)

/-- The contribution of one lookup to `count`. -/
def hit (P : κ → ν → Bool) (k : κ) : Option ν → Nat
  | none => 0
  | some v => if P k v then 1 else 0

omit [LinearOrder κ] in
@[simp] theorem hit_none (P : κ → ν → Bool) (k : κ) : hit P k none = 0 := rfl

omit [LinearOrder κ] in
@[simp] theorem hit_some (P : κ → ν → Bool) (k : κ) (v : ν) :
    hit P k (some v) = if P k v then 1 else 0 := rfl

theorem countP_putL (P : κ → ν → Bool) (k : κ) (v : ν) : ∀ l : List (κ × ν),
    l.Pairwise (fun a b => a.1 < b.1) →
    (putL k v l).countP (fun p => P p.1 p.2) + hit P k (getL k l) =
      l.countP (fun p => P p.1 p.2) + hit P k (some v)
  | [], _ => by simp [putL, getL, List.countP_cons]
  | (a, w) :: l, h => by
    obtain ⟨hhd, htl⟩ := List.pairwise_cons.1 h
    have ih := countP_putL P k v l htl
    unfold putL
    split
    · rename_i hk
      -- `k` is below every key of the list, so it has no binding there
      have hnone : getL k ((a, w) :: l) = none := by
        refine Option.eq_none_iff_forall_not_mem.2 fun u hu => ?_
        rcases List.mem_cons.1 ((mem_iff_getL h).2 hu) with he | he
        · exact (ne_of_lt hk) (congrArg Prod.fst he)
        · exact lt_irrefl _ (lt_trans hk (hhd _ he))
      rw [hnone]
      simp [List.countP_cons]
    · rename_i hk
      split
      · rename_i hak
        have hne : ¬ a = k := ne_of_lt hak
        simp only [getL, if_neg hne, List.countP_cons]
        omega
      · rename_i hak
        have heq : a = k := le_antisymm (not_lt.1 hk) (not_lt.1 hak)
        subst heq
        simp only [getL, if_true, List.countP_cons, hit_some]
        omega

/-- **A point write moves a count by the new binding less the old one.** -/
theorem count_put (P : κ → ν → Bool) (m : OrdMap κ ν) (k : κ) (v : ν) :
    (m.put k v).count P + hit P k (m.get k) = m.count P + hit P k (some v) :=
  countP_putL P k v m.toList m.sorted

theorem countP_filter_ne (P : κ → ν → Bool) (k : κ) : ∀ l : List (κ × ν),
    l.Pairwise (fun a b => a.1 < b.1) →
    (l.filter (fun p => p.1 ≠ k)).countP (fun p => P p.1 p.2) + hit P k (getL k l) =
      l.countP (fun p => P p.1 p.2)
  | [], _ => by simp [getL]
  | (a, w) :: l, h => by
    obtain ⟨hhd, htl⟩ := List.pairwise_cons.1 h
    have ih := countP_filter_ne P k l htl
    by_cases e : a = k
    · subst e
      have hnone : getL a l = none :=
        Option.eq_none_iff_forall_not_mem.2 fun u hu =>
          lt_irrefl a (hhd (a, u) ((mem_iff_getL htl).2 hu))
      rw [hnone, hit_none] at ih
      rw [List.filter_cons_of_neg (by simp), getL, if_pos rfl, List.countP_cons, hit_some]
      dsimp only
      omega
    · rw [List.filter_cons_of_pos (by simpa using e), getL, if_neg e, List.countP_cons,
        List.countP_cons]
      omega

theorem count_erase (P : κ → ν → Bool) (m : OrdMap κ ν) (k : κ) :
    (m.erase k).count P + hit P k (m.get k) = m.count P :=
  countP_filter_ne P k m.toList m.sorted

theorem count_eq_zero {P : κ → ν → Bool} : m.count P = 0 ↔ ∀ k v, m.get k = some v → P k v = false := by
  simp only [count, List.countP_eq_zero]
  constructor
  · intro h k v hk
    simpa using h (k, v) (mem_toList.2 hk)
  · rintro h ⟨k, v⟩ hp
    simpa using h k v (mem_toList.1 hp)

theorem count_pos {P : κ → ν → Bool} : 0 < m.count P ↔ ∃ k v, m.get k = some v ∧ P k v = true := by
  rw [Nat.pos_iff_ne_zero, Ne, count_eq_zero]
  simp

theorem count_congr {P Q : κ → ν → Bool} (h : ∀ k v, m.get k = some v → P k v = Q k v) : m.count P = m.count Q := by
  apply List.countP_congr
  rintro ⟨k, v⟩ hp
  simp [h k v (mem_toList.1 hp)]

/-- **A property that changes at one key moves its count by that key's binding.** -/
theorem count_update {P P' : κ → ν → Bool} {k : κ} (m : OrdMap κ ν) (h : ∀ k', k' ≠ k → ∀ v, P' k' v = P k' v) :
    m.count P' + hit P k (m.get k) = m.count P + hit P' k (m.get k) := by
  have hP := count_erase P m k
  have hP' := count_erase P' m k
  have hrest : (m.erase k).count P' = (m.erase k).count P := by
    apply count_congr
    intro k' v hk'
    apply h
    rintro rfl
    rw [get_erase_self] at hk'
    cases hk'
  omega

/-! ## Prefix scans -/

section Slice

variable {α β : Type} [LinearOrder α] [LinearOrder β]

/-- The second component and value of a binding whose first component is `a`. -/
def sliceBinding (a : α) (p : (α ×ₗ β) × ν) : Option (β × ν) :=
  if (ofLex p.1).1 = a then some ((ofLex p.1).2, p.2) else none

omit [LinearOrder β] in
theorem sliceBinding_some {a : α} {p : (α ×ₗ β) × ν} {q : β × ν} :
    sliceBinding a p = some q ↔ p = (toLex (a, q.1), q.2) := by
  unfold sliceBinding
  constructor
  · intro h
    split at h
    · rename_i ha
      cases h
      subst ha
      rfl
    · cases h
  · rintro rfl
    simp

/-- The bindings whose key starts with `a`, under the second key component. -/
def slice (m : OrdMap (α ×ₗ β) ν) (a : α) : OrdMap β ν where
  toList := m.toList.filterMap (sliceBinding a)
  sorted := by
    refine List.Pairwise.filterMap (sliceBinding a) ?_ m.sorted
    intro p p' hlt q hq q' hq'
    rw [sliceBinding_some.1 hq, sliceBinding_some.1 hq'] at hlt
    simpa [Prod.Lex.toLex_lt_toLex] using hlt

@[simp] theorem get_slice (m : OrdMap (α ×ₗ β) ν) (a : α) (b : β) :
    (m.slice a).get b = m.get (toLex (a, b)) := by
  apply Option.ext
  intro v
  rw [← mem_toList, ← mem_toList]
  simp only [slice, List.mem_filterMap, sliceBinding_some]
  constructor
  · rintro ⟨p, hp, rfl⟩
    exact hp
  · intro hp
    exact ⟨_, hp, rfl⟩

theorem slice_put_self (m : OrdMap (α ×ₗ β) ν) (a : α) (b : β) (v : ν) :
    (m.put (toLex (a, b)) v).slice a = (m.slice a).put b v := by
  apply ext_get
  intro b'
  simp [get_put]

theorem slice_put_ne (m : OrdMap (α ×ₗ β) ν) {a a' : α} (b : β) (v : ν) (h : a' ≠ a) :
    (m.put (toLex (a, b)) v).slice a' = m.slice a' := by
  apply ext_get
  intro b'
  simp [get_put, h]

theorem slice_erase_self (m : OrdMap (α ×ₗ β) ν) (a : α) (b : β) :
    (m.erase (toLex (a, b))).slice a = (m.slice a).erase b := by
  apply ext_get
  intro b'
  simp [get_erase]

theorem slice_erase_ne (m : OrdMap (α ×ₗ β) ν) {a a' : α} (b : β) (h : a' ≠ a) :
    (m.erase (toLex (a, b))).slice a' = m.slice a' := by
  apply ext_get
  intro b'
  simp [get_erase, h]

/-- A slice without one key. -/
theorem toList_slice_erase (m : OrdMap (α ×ₗ β) ν) (a a' : α) (b : β) :
    ((m.erase (toLex (a, b))).slice a').toList =
      (m.slice a').toList.filter fun e => decide (toLex (a', e.1) ≠ toLex (a, b)) := by
  by_cases h : a' = a
  · subst h
    rw [slice_erase_self]
    apply List.filter_congr
    intro e _
    exact decide_eq_decide.2 (by simp)
  · rw [slice_erase_ne _ _ h, eq_comm, List.filter_eq_self]
    intro e _
    simp [h]

/-- The slices at distinct first components that cover the map make up all its bindings. -/
theorem perm_flatMap_slice (m : OrdMap (α ×ₗ β) ν) {as : List α} (hnd : as.Nodup)
    (hall : ∀ a b v, m.get (toLex (a, b)) = some v → a ∈ as) :
    (as.flatMap fun a => (m.slice a).toList.map fun q => (toLex (a, q.1), q.2)).Perm m.toList := by
  have hnodup : (as.flatMap fun a => (m.slice a).toList.map fun q => (toLex (a, q.1), q.2)).Nodup := by
    refine List.nodup_flatMap.2 ⟨fun a _ => ?_, ?_⟩
    · refine List.Nodup.map (fun q q' h => ?_) (nodup_toList _)
      simpa [Prod.ext_iff] using h
    · refine hnd.imp fun {a a'} hne => ?_
      intro x hx hx'
      obtain ⟨q, -, rfl⟩ := List.mem_map.1 hx
      obtain ⟨q', -, h⟩ := List.mem_map.1 hx'
      refine hne ?_
      simpa using (congrArg (fun b => (ofLex b.1).1) h).symm
  refine (List.perm_ext_iff_of_nodup hnodup (nodup_toList m)).2 fun x => ?_
  simp only [List.mem_flatMap, List.mem_map]
  constructor
  · rintro ⟨a, -, q, hq, rfl⟩
    rw [mem_toList]
    rw [show q = (q.1, q.2) from rfl, mem_toList, get_slice] at hq
    exact hq
  · intro hx
    have hget : m.get (toLex ((ofLex x.1).1, (ofLex x.1).2)) = some x.2 := mem_toList.1 hx
    refine ⟨_, hall _ _ _ hget, ((ofLex x.1).2, x.2), ?_, rfl⟩
    rw [mem_toList, get_slice]
    exact hget

end Slice

theorem erase_of_get_none {k : κ} (h : m.get k = none) : m.erase k = m := by
  apply ext_get
  intro k'
  rw [get_erase]
  split
  · rename_i heq
    rw [heq, h]
  · rfl

/-! ## Lists of bindings -/

theorem putL_last {k : κ} {v : ν} : ∀ {l : List (κ × ν)}, (∀ p ∈ l, p.1 < k) →
    putL k v l = l ++ [(k, v)]
  | [], _ => rfl
  | (a, w) :: l, h => by
    have ha : a < k := h (a, w) List.mem_cons_self
    have ih := putL_last (v := v) (l := l) (fun p hp => h p (List.mem_cons_of_mem _ hp))
    simp [putL, not_lt.2 (le_of_lt ha), ha, ih]

/-- A key above every key of the map goes to the end of the list. -/
theorem toList_put_last {k : κ} {v : ν} (h : ∀ k' v', m.get k' = some v' → k' < k) :
    (m.put k v).toList = m.toList ++ [(k, v)] :=
  putL_last fun p hp => h p.1 p.2 (mem_toList.1 hp)

theorem toList_eq_nil : m.toList = [] ↔ ∀ k, m.get k = none := by
  constructor
  · intro h k
    simp [get, h, getL]
  · intro h
    have : m = ∅ := ext_get fun k => by rw [h k, get_empty]
    rw [this]
    rfl

end OrdMap
