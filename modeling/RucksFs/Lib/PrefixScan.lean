import Mathlib.Order.Monotone.Basic
import RucksFs.Lib.OrdMap

/-!
# Prefix scans of byte-ordered maps

Keys are strings in lexicographic order.  An iterator starts at the first key that is not below a given string;
the loop over it stops at the first key that does not start with that string.

* `scanFrom`, `scanPrefix` — the iterator, and the loop.
* `scanPrefix_eq_filter` — the loop visits exactly the keys that start with the string, in order: they lie together.
* `image` — a map under strictly increasing encoded keys; `get_image`, `image_put`, `image_erase`.
* `scanPrefix_image` — a scan of encoded pairs is a slice; `slice_image` — so is a slice of pairs encoded by component.
-/

set_option autoImplicit false

section

variable {α : Type} [LinearOrder α]

/-- Keys that start with a string lie together. -/
theorem List.isPrefix_of_not_lt_of_lt {s k k' : List α} (hle : ¬k < s) (hlt : k < k') (h : s <+: k') : s <+: k := by
  induction s generalizing k k' with
  | nil => exact List.nil_prefix
  | cons a s ih =>
      cases k' with
      | nil => cases h.length_le
      | cons b k' =>
          obtain ⟨rfl, htail⟩ := List.cons_prefix_cons.1 h
          cases k with
          | nil => exact absurd (List.nil_lt_cons a s) hle
          | cons c k =>
              rw [List.cons_lt_cons_iff] at hlt hle
              rcases hlt with hc | ⟨rfl, hlt⟩
              · exact absurd (Or.inl hc) hle
              · exact List.cons_prefix_cons.2 ⟨rfl, ih (fun hk => hle (Or.inr ⟨rfl, hk⟩)) hlt htail⟩

end

namespace OrdMap

section

variable {α ν : Type} [LinearOrder α]

/-- An iterator that starts at `s`. -/
def scanFrom (m : OrdMap (List α) ν) (s : List α) : List (List α × ν) :=
  m.toList.dropWhile fun e => decide (e.1 < s)

/-- The bindings that a loop over it sees before a key does not start with `s`. -/
def scanPrefix (m : OrdMap (List α) ν) (s : List α) : List (List α × ν) :=
  (m.scanFrom s).takeWhile fun e => decide (s <+: e.1)

theorem takeWhile_eq_filter {s : List α} : ∀ {l : List (List α × ν)}, l.Pairwise (fun a b => a.1 < b.1) →
    (∀ e ∈ l, ¬e.1 < s) → (l.takeWhile fun e => decide (s <+: e.1)) = l.filter fun e => decide (s <+: e.1)
  | [], _, _ => rfl
  | e :: l, hl, hs => by
      obtain ⟨he, hrest⟩ := List.pairwise_cons.1 hl
      by_cases h : s <+: e.1
      · rw [List.takeWhile_cons_of_pos (by simpa using h), List.filter_cons_of_pos (by simpa using h),
          takeWhile_eq_filter hrest fun x hx => hs x (List.mem_cons_of_mem _ hx)]
      · have hnone : ∀ x ∈ l, ¬s <+: x.1 := fun x hx hp =>
          h (List.isPrefix_of_not_lt_of_lt (hs e List.mem_cons_self) (he x hx) hp)
        rw [List.takeWhile_cons_of_neg (by simpa using h), List.filter_cons_of_neg (by simpa using h), eq_comm,
          List.filter_eq_nil_iff]
        intro x hx
        simpa using hnone x hx

theorem scanPrefix_filter {s : List α} : ∀ {l : List (List α × ν)}, l.Pairwise (fun a b => a.1 < b.1) →
    ((l.dropWhile fun e => decide (e.1 < s)).takeWhile fun e => decide (s <+: e.1)) =
      l.filter fun e => decide (s <+: e.1)
  | [], _ => rfl
  | e :: l, hl => by
      obtain ⟨he, hrest⟩ := List.pairwise_cons.1 hl
      by_cases h : e.1 < s
      · have hnot : ¬s <+: e.1 := fun hp => hp.le h
        rw [List.dropWhile_cons_of_pos (by simpa using h), List.filter_cons_of_neg (by simpa using hnot),
          scanPrefix_filter hrest]
      · rw [List.dropWhile_cons_of_neg (by simpa using h)]
        apply takeWhile_eq_filter hl
        intro x hx
        rcases List.mem_cons.1 hx with rfl | hx
        · exact h
        · exact fun hlt => h ((he x hx).trans hlt)

/-- **A prefix scan sees exactly the keys that start with the string.** -/
theorem scanPrefix_eq_filter (m : OrdMap (List α) ν) (s : List α) :
    m.scanPrefix s = m.toList.filter fun e => decide (s <+: e.1) :=
  scanPrefix_filter m.sorted

/-- The first key of the iterator tells whether there is any. -/
theorem scanPrefix_eq_nil_iff (m : OrdMap (List α) ν) (s : List α) :
    m.scanPrefix s = [] ↔ ∀ e, (m.scanFrom s).head? = some e → ¬s <+: e.1 := by
  unfold scanPrefix
  cases m.scanFrom s with
  | nil => simp
  | cons e l =>
      by_cases h : s <+: e.1
      · simp [h]
      · simp [h]

end

/-! ## Encoded keys -/

section

variable {κ κ' ν ν' : Type} [LinearOrder κ] [LinearOrder κ']

/-- The map under encoded keys, with encoded values. -/
def image (enc : κ → κ') (henc : StrictMono enc) (f : ν → ν') (m : OrdMap κ ν) : OrdMap κ' ν' where
  toList := m.toList.map fun e => (enc e.1, f e.2)
  sorted := by
    rw [List.pairwise_map]
    exact m.sorted.imp fun h => henc h

variable {enc : κ → κ'} {henc : StrictMono enc} {f : ν → ν'} (m : OrdMap κ ν)

theorem get_image (k : κ) : (m.image enc henc f).get (enc k) = (m.get k).map f := by
  apply Option.ext
  intro w
  rw [← mem_toList, Option.map_eq_some_iff]
  show (enc k, w) ∈ m.toList.map _ ↔ _
  rw [List.mem_map]
  constructor
  · rintro ⟨⟨k', v⟩, hmem, heq⟩
    obtain ⟨hk, rfl⟩ := Prod.mk.inj heq
    have hk' : k' = k := henc.injective hk
    subst hk'
    exact ⟨v, mem_toList.1 hmem, rfl⟩
  · rintro ⟨v, hv, rfl⟩
    exact ⟨(k, v), mem_toList.2 hv, rfl⟩

/-- Only encodings are keys. -/
theorem get_image_of_not {k' : κ'} (h : ∀ k, enc k ≠ k') : (m.image enc henc f).get k' = none := by
  rw [Option.eq_none_iff_forall_not_mem]
  intro w hw
  obtain ⟨e, -, heq⟩ := List.mem_map.1 (mem_toList.2 (Option.mem_def.1 hw))
  exact h e.1 (Prod.mk.inj heq).1

theorem image_put (k : κ) (v : ν) : (m.put k v).image enc henc f = (m.image enc henc f).put (enc k) (f v) := by
  apply ext_get
  intro k'
  rw [get_put]
  by_cases h : ∃ k₁, enc k₁ = k'
  · obtain ⟨k₁, rfl⟩ := h
    rw [get_image, get_image, get_put]
    simp only [henc.injective.eq_iff]
    split <;> rfl
  · have hnone := fun k₁ hk₁ => h ⟨k₁, hk₁⟩
    rw [get_image_of_not _ hnone, get_image_of_not _ hnone, if_neg fun hk => hnone k hk.symm]

theorem image_erase (k : κ) : (m.erase k).image enc henc f = (m.image enc henc f).erase (enc k) := by
  apply ext_get
  intro k'
  rw [get_erase]
  by_cases h : ∃ k₁, enc k₁ = k'
  · obtain ⟨k₁, rfl⟩ := h
    rw [get_image, get_image, get_erase]
    simp only [henc.injective.eq_iff]
    split <;> rfl
  · have hnone := fun k₁ hk₁ => h ⟨k₁, hk₁⟩
    rw [get_image_of_not _ hnone, get_image_of_not _ hnone]
    split <;> rfl

theorem image_foldl_erase (ks : List κ) (m : OrdMap κ ν) :
    (ks.foldl erase m).image enc henc f = (ks.map enc).foldl erase (m.image enc henc f) := by
  induction ks generalizing m with
  | nil => rfl
  | cons k ks ih => rw [List.foldl_cons, ih, image_erase, List.map_cons, List.foldl_cons]

end

section

variable {α β γ ν ν' : Type} [LinearOrder α] [LinearOrder β] [LinearOrder γ]
  {enc : α ×ₗ β → List γ} {henc : StrictMono enc} {f : ν → ν'}

/-- **A prefix scan over encoded pairs is a slice**, when the string marks the first component. -/
theorem scanPrefix_image (m : OrdMap (α ×ₗ β) ν) {a : α} {s : List γ} (hs : ∀ k, s <+: enc k ↔ (ofLex k).1 = a) :
    (m.image enc henc f).scanPrefix s = (m.slice a).toList.map fun e => (enc (toLex (a, e.1)), f e.2) := by
  rw [scanPrefix_eq_filter]
  show ((m.toList.map fun e => (enc e.1, f e.2)).filter fun e => decide (s <+: e.1)) =
    (m.toList.filterMap (sliceBinding a)).map fun e => (enc (toLex (a, e.1)), f e.2)
  generalize m.toList = l
  induction l with
  | nil => rfl
  | cons e l ih =>
      by_cases h : (ofLex e.1).1 = a
      · have hslice : sliceBinding a e = some ((ofLex e.1).2, e.2) := if_pos h
        rw [List.map_cons, List.filter_cons_of_pos (by simpa [hs] using h), ih, List.filterMap_cons_some hslice,
          List.map_cons]
        subst h
        rfl
      · have hslice : sliceBinding a e = none := if_neg h
        rw [List.map_cons, List.filter_cons_of_neg (by simpa [hs] using h), ih, List.filterMap_cons_none hslice]

variable {α' β' : Type} [LinearOrder α'] [LinearOrder β'] {pair : α ×ₗ β → α' ×ₗ β'} {hpair : StrictMono pair}

/-- A slice of pairs that are encoded by component. -/
theorem slice_image (m : OrdMap (α ×ₗ β) ν) (fst : α → α') (snd : β → β') (hfst : Function.Injective fst)
    (h : ∀ k, pair k = toLex (fst (ofLex k).1, snd (ofLex k).2)) (a : α) :
    ((m.image pair hpair f).slice (fst a)).toList = (m.slice a).toList.map fun e => (snd e.1, f e.2) := by
  show (m.toList.map fun e => (pair e.1, f e.2)).filterMap (sliceBinding (fst a)) =
    (m.toList.filterMap (sliceBinding a)).map fun e => (snd e.1, f e.2)
  generalize m.toList = l
  induction l with
  | nil => rfl
  | cons e l ih =>
      by_cases he : (ofLex e.1).1 = a
      · have hslice : sliceBinding a e = some ((ofLex e.1).2, e.2) := if_pos he
        have himage : sliceBinding (fst a) (pair e.1, f e.2) = some (snd (ofLex e.1).2, f e.2) := by
          rw [h]
          exact if_pos (congrArg fst he)
        rw [List.map_cons, List.filterMap_cons_some himage, List.filterMap_cons_some hslice, ih, List.map_cons]
      · have hslice : sliceBinding a e = none := if_neg he
        have himage : sliceBinding (fst a) (pair e.1, f e.2) = none := by
          rw [h]
          exact if_neg fun heq => he (hfst heq)
        rw [List.map_cons, List.filterMap_cons_none himage, List.filterMap_cons_none hslice, ih]

end

end OrdMap
