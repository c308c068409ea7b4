import Mathlib.Algebra.Group.Defs
import Mathlib.Data.List.Basic
import Mathlib.Data.List.GetD
import Mathlib.Data.List.OfFn

/-!
# Sparse files

A file is a total map from positions to values that is zero from its size on.  `pread` stops at the end of
the file and `pwrite` moves it.

* `byte_pwrite` — a write replaces a range and nothing else.
* `pread_padded` — a read that is filled up with zeros is a window of the map, wherever the file ends.
* `ZeroFilled` — files as lists that grow by zeros; a list and its map of values change together.
* `Tiles` — a family of equal regions laid end to end; positions in different regions are different.
-/

set_option autoImplicit false

structure SparseFile (β : Type) [Zero β] where
  byte : Nat → β
  size : Nat
  beyond : ∀ k, size ≤ k → byte k = 0

namespace SparseFile

section

variable {β : Type}

/-- `n` values of a map. -/
def window (m : Nat → β) (off n : Nat) : List β := (List.range n).map fun j => m (off + j)

@[simp] theorem length_window (m : Nat → β) (off n : Nat) : (window m off n).length = n := by simp [window]

/-- A window that shows the bytes of a list is that list. -/
theorem window_eq [Zero β] {m : Nat → β} {off : Nat} {data : List β}
    (h : ∀ j < data.length, m (off + j) = data.getD j 0) : window m off data.length = data := by
  refine List.ext_getElem (length_window m off _) fun j hj hj' => ?_
  simp only [window, List.getElem_map, List.getElem_range]
  rw [h j hj', List.getD_eq_getElem?_getD, List.getElem?_eq_getElem hj']
  rfl

theorem window_congr {m m' : Nat → β} {off n : Nat} (h : ∀ j, j < n → m (off + j) = m' (off + j)) :
    window m off n = window m' off n :=
  List.map_congr_left fun j hj => h j (List.mem_range.1 hj)

end

variable {β : Type} [Zero β]

def empty : SparseFile β := ⟨fun _ => 0, 0, fun _ _ => rfl⟩

/-- A map with the range of `data` at `off` replaced. -/
def splice (m : Nat → β) (off : Nat) (data : List β) (k : Nat) : β :=
  if off ≤ k ∧ k < off + data.length then data.getD (k - off) 0 else m k

theorem splice_inside {m : Nat → β} {off : Nat} {data : List β} {k : Nat} (h : off ≤ k)
    (h' : k < off + data.length) : splice m off data k = data.getD (k - off) 0 := if_pos ⟨h, h'⟩

theorem splice_outside {m : Nat → β} {off : Nat} {data : List β} {k : Nat}
    (h : k < off ∨ off + data.length ≤ k) : splice m off data k = m k :=
  if_neg fun hk => by omega

/-- Store `data` at `off`; a write of no values does not move the end. -/
def pwrite (f : SparseFile β) (off : Nat) (data : List β) : SparseFile β where
  byte := splice f.byte off data
  size := if data.isEmpty then f.size else max f.size (off + data.length)
  beyond k hk := by
    cases data with
    | nil =>
        rw [splice_outside (by simp; omega)]
        exact f.beyond k hk
    | cons x xs =>
        have hk' : max f.size (off + (x :: xs).length) ≤ k := hk
        rw [splice_outside (Or.inr (le_trans (le_max_right _ _) hk'))]
        exact f.beyond k (le_trans (le_max_left _ _) hk')

theorem byte_pwrite (f : SparseFile β) (off : Nat) (data : List β) (k : Nat) :
    (f.pwrite off data).byte k = splice f.byte off data k := rfl

/-- The values from `off` on, at most `n`, up to the end of the file. -/
def pread (f : SparseFile β) (off n : Nat) : List β :=
  (List.range (min n (f.size - off))).map fun j => f.byte (off + j)

theorem length_pread (f : SparseFile β) (off n : Nat) : (f.pread off n).length = min n (f.size - off) := by
  simp [pread]

/-- **Reading past the end of a file.**  The rest of the buffer is zero, and so is the map. -/
theorem pread_padded (f : SparseFile β) (off n : Nat) :
    f.pread off n ++ List.replicate (n - (f.pread off n).length) 0 = window f.byte off n := by
  rw [length_pread]
  refine List.ext_getElem (by simp [pread, window]) fun j hj hj' => ?_
  simp only [window, List.getElem_map, List.getElem_range]
  by_cases hin : j < min n (f.size - off)
  · rw [List.getElem_append_left (by rwa [length_pread])]
    simp [pread]
  · rw [List.getElem_append_right (by rw [length_pread]; omega), List.getElem_replicate]
    have hjn : j < n := by simpa using hj'
    exact (f.beyond (off + j) (by omega)).symm

end SparseFile

/-! ## Files as lists -/

namespace ZeroFilled

variable {β : Type} [Zero β]

/-- The list cut or filled up with zeros to `n` values. -/
def resize (l : List β) (n : Nat) : List β := l.take n ++ List.replicate (n - l.length) 0

/-- `data` in place of the values from `off` on; a gap before it is filled with zeros. -/
def overwrite (l : List β) (off : Nat) (data : List β) : List β :=
  resize l off ++ data ++ l.drop (off + data.length)

@[simp] theorem length_resize (l : List β) (n : Nat) : (resize l n).length = n := by
  simp only [resize, List.length_append, List.length_take, List.length_replicate]
  omega

@[simp] theorem length_overwrite (l : List β) (off : Nat) (data : List β) :
    (overwrite l off data).length = max l.length (off + data.length) := by
  simp only [overwrite, List.length_append, length_resize, List.length_drop]
  omega

theorem getD_resize (l : List β) (n k : Nat) : (resize l n).getD k 0 = if k < n then l.getD k 0 else 0 := by
  by_cases hk : k < n
  · rw [if_pos hk, resize]
    by_cases hl : k < l.length
    · rw [List.getD_append _ _ _ _ (by rw [List.length_take]; omega), List.getD_eq_getElem?_getD,
        List.getElem?_take_of_lt hk, List.getD_eq_getElem?_getD]
    · rw [List.getD_append_right _ _ _ _ (by rw [List.length_take]; omega), List.getD_eq_default l _ (by omega),
        List.getD_eq_getElem?_getD, List.getElem?_getD_replicate_default_eq]
  · rw [if_neg hk, List.getD_eq_default _ _ (by rw [length_resize]; omega)]

/-- **A list is written as its map is.** -/
theorem getD_overwrite (l : List β) (off : Nat) (data : List β) (k : Nat) :
    (overwrite l off data).getD k 0 = SparseFile.splice (fun j => l.getD j 0) off data k := by
  by_cases hlow : k < off
  · rw [SparseFile.splice_outside (Or.inl hlow), overwrite, List.append_assoc,
      List.getD_append _ _ _ _ (by rwa [length_resize]), getD_resize, if_pos hlow]
  · by_cases hin : k < off + data.length
    · rw [SparseFile.splice_inside (by omega) hin, overwrite, List.append_assoc,
        List.getD_append_right _ _ _ _ (by rw [length_resize]; omega), length_resize,
        List.getD_append _ _ _ _ (by omega)]
    · rw [SparseFile.splice_outside (Or.inr (by omega)), overwrite,
        List.getD_append_right _ _ _ _ (by rw [List.length_append, length_resize]; omega), List.length_append,
        length_resize, List.getD_eq_getElem?_getD, List.getElem?_drop, List.getD_eq_getElem?_getD]
      congr 2
      omega

/-- A window of the map shows a range of the list, as far as the list goes. -/
theorem take_window {m : Nat → β} {l : List β} (h : ∀ k < l.length, m k = l.getD k 0) (off n : Nat) :
    (SparseFile.window m off n).take (l.length - off) = (l.drop off).take n := by
  apply List.ext_getElem
  · simp only [List.length_take, SparseFile.length_window, List.length_drop]
    omega
  · intro j hj hj'
    have hlt : off + j < l.length := by
      simp only [List.length_take, List.length_drop] at hj'
      omega
    simp only [SparseFile.window, List.getElem_take, List.getElem_map, List.getElem_range, List.getElem_drop]
    rw [h (off + j) hlt, List.getD_eq_getElem l 0 hlt]

end ZeroFilled

/-! ## Equal regions -/

namespace Tiles

variable {w k k' : Nat}

/-- A position determines its region and its place in it. -/
theorem eq_of_eq {i i' : Nat} (hk : k < w) (hk' : k' < w) (h : i * w + k = i' * w + k') : i = i' ∧ k = k' := by
  have hi : i = i' := by
    have hdiv := congrArg (· / w) h
    have hw : 0 < w := by omega
    simpa [Nat.mul_comm _ w, Nat.mul_add_div hw, Nat.div_eq_of_lt, hk, hk'] using hdiv
  subst hi
  exact ⟨rfl, by omega⟩

/-- A range that stays inside one region meets only positions of that region. -/
theorem mem_range (i i' off len : Nat) (hk : k < w) (hlen : off + len ≤ w) (h : i' * w + off ≤ i * w + k)
    (h' : i * w + k < i' * w + off + len) : i = i' ∧ off ≤ k ∧ k < off + len := by
  have hplace : i * w + k = i' * w + (i * w + k - i' * w) := by omega
  obtain ⟨hi, -⟩ := eq_of_eq hk (by omega) hplace
  subst hi
  exact ⟨rfl, by omega, by omega⟩

end Tiles
