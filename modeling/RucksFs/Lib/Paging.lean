import Mathlib.Order.Lattice
import Mathlib.Data.List.Basic

/-!
# Paging through a sorted list by position

A reader goes through a list that is sorted by a key.  Between its steps the list may change.  A step takes some
elements from the reader's position on; the next one starts after them, by position and not by key.

* `Cursor.advance` — one step.
* `Cursor.Aligned` — as many elements as the position says lie at or before the last one taken.
* `Cursor.Once` — an element has been taken exactly once when it lies at or before the last one taken, and not at
  all when it lies behind it.
* `Once.advance`, `Once.complete` — aligned steps keep this, and with nothing left the element has been taken.
-/

set_option autoImplicit false

/-- A position, and the elements taken so far. -/
structure Cursor (α : Type) where
  offset : Nat := 0
  taken : List α := []

namespace Cursor

variable {α κ : Type}

/-- Take `n` elements at most. -/
def advance (c : Cursor α) (l : List α) (n : Nat) : Cursor α :=
  ⟨c.offset + ((l.drop c.offset).take n).length, c.taken ++ (l.drop c.offset).take n⟩

variable [LinearOrder κ] (key : α → κ)

/-- The position counts the elements at or before the last one taken. -/
def Aligned (c : Cursor α) (l : List α) : Prop :=
  c.offset =
    match c.taken.getLast? with
    | none => 0
    | some z => l.countP fun a => decide (key a ≤ key z)

instance (c : Cursor α) (l : List α) : Decidable (c.Aligned key l) := inferInstanceAs (Decidable (_ = _))

/-- Those taken with the key of `a`. -/
def takenAt (a : α) (c : Cursor α) : List α := c.taken.filter fun b => decide (key b = key a)

/-- `a` has been taken once, or lies behind all that has been taken. -/
def Once (a : α) (c : Cursor α) : Prop :=
  match c.taken.getLast? with
  | none => True
  | some z => c.takenAt key a = if key a ≤ key z then [a] else []

section

variable {key} {l : List α}

/-- The elements at or before `x` come first. -/
theorem drop_countP_le (hl : l.Pairwise fun a b => key a < key b) (x : κ) :
    l.drop (l.countP fun a => decide (key a ≤ x)) = l.filter fun a => decide (x < key a) := by
  induction l with
  | nil => rfl
  | cons a l ih =>
      obtain ⟨ha, hrest⟩ := List.pairwise_cons.1 hl
      by_cases hle : key a ≤ x
      · rw [List.countP_cons_of_pos (by simpa using hle), List.drop_succ_cons, ih hrest,
          List.filter_cons_of_neg (by simpa using hle)]
      · have hlt : x < key a := not_le.1 hle
        have hall : ∀ b ∈ a :: l, x < key b := by
          intro b hb
          rcases List.mem_cons.1 hb with rfl | hb
          · exact hlt
          · exact hlt.trans (ha b hb)
        have hnone : (a :: l).countP (fun a => decide (key a ≤ x)) = 0 := by
          apply List.countP_eq_zero.2
          intro b hb
          simpa using hall b hb
        rw [hnone, List.drop_zero, List.filter_eq_self.2]
        intro b hb
        simpa using hall b hb

/-- The elements of a page: those up to its last one. -/
theorem mem_take_iff (hl : l.Pairwise fun a b => key a < key b) {n : Nat} {a z : α}
    (hz : (l.take n).getLast? = some z) (ha : a ∈ l) : a ∈ l.take n ↔ key a ≤ key z := by
  have hsplit : (l.take n ++ l.drop n).Pairwise fun a b => key a < key b := by
    rw [List.take_append_drop]
    exact hl
  obtain ⟨htake, -, hcross⟩ := List.pairwise_append.1 hsplit
  have hzmem : z ∈ l.take n := List.mem_of_getLast? hz
  constructor
  · intro hmem
    obtain ⟨init, hinit⟩ : ∃ init, l.take n = init ++ [z] := List.getLast?_eq_some_iff.1 hz
    rw [hinit] at hmem htake
    rcases List.mem_append.1 hmem with hmem | hmem
    · exact ((List.pairwise_append.1 htake).2.2 a hmem z (List.mem_singleton.2 rfl)).le
    · rw [List.mem_singleton.1 hmem]
  · intro hle
    by_contra hnot
    have hdrop : a ∈ l.drop n := by
      rw [← List.take_append_drop n l] at ha
      exact (List.mem_append.1 ha).resolve_left hnot
    exact absurd (hcross z hzmem a hdrop) (not_lt.2 hle)

/-- Keys are unique. -/
theorem filter_key_of_mem (hl : l.Pairwise fun a b => key a < key b) {a : α} (ha : a ∈ l) :
    (l.filter fun b => decide (key b = key a)) = [a] := by
  induction l with
  | nil => cases ha
  | cons b l ih =>
      obtain ⟨hb, hrest⟩ := List.pairwise_cons.1 hl
      rcases List.mem_cons.1 ha with rfl | ha
      · have hnone : (l.filter fun b => decide (key b = key a)) = [] := by
          apply List.filter_eq_nil_iff.2
          intro x hx
          simpa using (hb x hx).ne'
        rw [List.filter_cons_of_pos (by simp), hnone]
      · rw [List.filter_cons_of_neg (by simpa using (hb a ha).ne), ih hrest ha]

/-- What a page holds under one key. -/
theorem filter_page (hl : l.Pairwise fun a b => key a < key b) {n : Nat} {a z : α}
    (hz : (l.take n).getLast? = some z) (ha : a ∈ l) :
    ((l.take n).filter fun b => decide (key b = key a)) = if key a ≤ key z then [a] else [] := by
  split
  · rename_i hle
    exact filter_key_of_mem hl.take ((mem_take_iff hl hz ha).2 hle)
  · rename_i hnot
    apply List.filter_eq_nil_iff.2
    intro b hb
    have hle := (mem_take_iff hl hz (List.mem_of_mem_take hb)).1 hb
    simpa using fun heq : key b = key a => hnot (heq ▸ hle)

end

variable {key} {c : Cursor α} {l : List α} {a : α}

/-- What is left of an aligned list lies behind the last one taken. -/
theorem Aligned.drop_eq (h : c.Aligned key l) (hl : l.Pairwise fun a b => key a < key b) {z : α}
    (hz : c.taken.getLast? = some z) : l.drop c.offset = l.filter fun b => decide (key z < key b) := by
  unfold Aligned at h
  rw [hz] at h
  rw [h, drop_countP_le hl]

theorem once_start : Once key a ({} : Cursor α) := trivial

/-- **One aligned step.** -/
theorem Once.advance (h : Once key a c) (hal : c.Aligned key l) (hl : l.Pairwise fun a b => key a < key b)
    (ha : a ∈ l) (n : Nat) : Once key a (c.advance l n) := by
  have hrest : (l.drop c.offset).Pairwise fun a b => key a < key b := hl.drop
  unfold Once takenAt Cursor.advance
  rw [List.getLast?_append]
  cases hz : ((l.drop c.offset).take n).getLast? with
  | none =>
      -- nothing was taken
      rw [List.getLast?_eq_none_iff.1 hz, List.append_nil, Option.none_or]
      exact h
  | some z =>
      rw [Option.some_or]
      dsimp only
      rw [List.filter_append]
      cases hold : c.taken.getLast? with
      | none =>
          have hzero : c.offset = 0 := by
            unfold Aligned at hal
            rw [hold] at hal
            exact hal
          rw [List.getLast?_eq_none_iff.1 hold, List.filter_nil, List.nil_append]
          apply filter_page hrest hz
          rw [hzero]
          exact ha
      | some y =>
          have hbehind := hal.drop_eq hl hold
          have hzy : key y < key z := by
            have hmem := List.mem_of_mem_take (List.mem_of_getLast? hz)
            rw [hbehind] at hmem
            simpa using (List.mem_filter.1 hmem).2
          unfold Once takenAt at h
          rw [hold] at h
          dsimp only at h
          rw [h]
          by_cases hle : key a ≤ key y
          · -- taken before; nothing of this key is left
            have hnone : ((l.drop c.offset).take n).filter (fun b => decide (key b = key a)) = [] := by
              apply List.filter_eq_nil_iff.2
              intro b hb
              have hmem := List.mem_of_mem_take hb
              rw [hbehind] at hmem
              have hyb : key y < key b := by simpa using (List.mem_filter.1 hmem).2
              simpa using (hle.trans_lt hyb).ne'
            rw [hnone, if_pos hle, if_pos (hle.trans hzy.le), List.append_nil]
          · rw [if_neg hle, List.nil_append]
            apply filter_page hrest hz
            rw [hbehind]
            exact List.mem_filter.2 ⟨ha, by simpa using hle⟩

/-- **Nothing left.** -/
theorem Once.complete (h : Once key a c) (hal : c.Aligned key l) (hl : l.Pairwise fun a b => key a < key b)
    (ha : a ∈ l) (hend : l.drop c.offset = []) : c.takenAt key a = [a] := by
  cases hold : c.taken.getLast? with
  | none =>
      unfold Aligned at hal
      rw [hold] at hal
      dsimp only at hal
      rw [hal, List.drop_zero] at hend
      rw [hend] at ha
      cases ha
  | some y =>
      have hle : key a ≤ key y := by
        by_contra hlt
        have hmem : a ∈ l.drop c.offset := by
          rw [hal.drop_eq hl hold]
          exact List.mem_filter.2 ⟨ha, by simpa using hlt⟩
        rw [hend] at hmem
        cases hmem
      unfold Once at h
      rw [hold] at h
      dsimp only at h
      rw [h, if_pos hle]

end Cursor
