import Mathlib.Algebra.BigOperators.Group.List.Basic
import Mathlib.Algebra.Order.BigOperators.Group.List
import Mathlib.Algebra.Order.Ring.Int

/-!
# Numbered ledgers

Changes of a count are written down under numbers, in one order, and become part of a ledger in another.  Whoever
reads the ledger adds them up by their numbers, and sees on the way sums that the count may never have had.

* `sumIn` — the sum of the changes that a view, a set of numbers, shows.
* `below`, `either`, `both` — the views that a reader goes through: the numbers below a bound, next to those of an
  older reading or among them.
* `shows` — a member came under a number, or before the ledger began; a view shows it or not.
* `prefix_eq_filter` — in a ledger that is ordered by its numbers, every beginning is a view.
* `Fits` — what is known of a view: the members that it shows are accounted for, and there is room for what has been
  asked for.  `Fits.change` and `Fits.fold` are the rules for a change of the ledger and for folding an older reading
  into the base.
-/

set_option autoImplicit false

namespace Ledger

variable {δ : Type}

/-! ## Sums -/

/-- The sum of the changes whose numbers the view shows. -/
def sumIn (amount : δ → Int) (U : Nat → Bool) (log : List (Nat × δ)) : Int :=
  ((log.filter fun x => U x.1).map fun x => amount x.2).sum

section

variable (amount : δ → Int) (U : Nat → Bool)

@[simp] theorem sumIn_nil : sumIn amount U [] = 0 := rfl

theorem sumIn_cons (x : Nat × δ) (log : List (Nat × δ)) :
    sumIn amount U (x :: log) = (if U x.1 then amount x.2 else 0) + sumIn amount U log := by
  unfold sumIn
  by_cases h : U x.1
  · simp [h]
  · simp [h]

theorem sumIn_append (log log' : List (Nat × δ)) :
    sumIn amount U (log ++ log') = sumIn amount U log + sumIn amount U log' := by
  unfold sumIn
  rw [List.filter_append, List.map_append, List.sum_append]

variable {amount U} {log log' : List (Nat × δ)}

theorem sumIn_perm (h : log.Perm log') : sumIn amount U log = sumIn amount U log' :=
  ((h.filter _).map _).sum_eq

theorem sumIn_congr {V : Nat → Bool} (h : ∀ x ∈ log, U x.1 = V x.1) : sumIn amount U log = sumIn amount V log := by
  unfold sumIn
  rw [List.filter_congr h]

/-- A view that shows all of them. -/
theorem sumIn_all (h : ∀ x ∈ log, U x.1 = true) : sumIn amount U log = (log.map fun x => amount x.2).sum := by
  unfold sumIn
  rw [List.filter_eq_self.2 h]

theorem sumIn_eq_zero (h : ∀ x ∈ log, U x.1 = true → amount x.2 = 0) : sumIn amount U log = 0 := by
  apply List.sum_eq_zero
  intro y hy
  obtain ⟨x, hx, rfl⟩ := List.mem_map.1 hy
  obtain ⟨hmem, hU⟩ := List.mem_filter.1 hx
  exact h x hmem hU

theorem sumIn_le {gain : δ → Int} (h : ∀ d, amount d ≤ gain d) (U : Nat → Bool) (log : List (Nat × δ)) :
    sumIn amount U log ≤ sumIn gain U log := by
  induction log with
  | nil => exact Int.le_refl _
  | cons x log ih =>
      have hx := h x.2
      rw [sumIn_cons, sumIn_cons]
      split <;> omega

theorem sumIn_nonneg (h : ∀ d, 0 ≤ amount d) (U : Nat → Bool) (log : List (Nat × δ)) : 0 ≤ sumIn amount U log := by
  induction log with
  | nil => exact Int.le_refl _
  | cons x log ih =>
      have hx := h x.2
      rw [sumIn_cons]
      split <;> omega

/-- A view that shows less has asked for less. -/
theorem sumIn_mono (h : ∀ d, 0 ≤ amount d) {V : Nat → Bool} (hUV : ∀ x ∈ log, U x.1 = true → V x.1 = true) :
    sumIn amount U log ≤ sumIn amount V log := by
  induction log with
  | nil => exact Int.le_refl _
  | cons x log ih =>
      have hx := h x.2
      have hrest := ih fun y hy => hUV y (List.mem_cons_of_mem _ hy)
      have hhead := hUV x List.mem_cons_self
      rw [sumIn_cons, sumIn_cons]
      by_cases hU : U x.1 = true
      · rw [if_pos hU, if_pos (hhead hU)]
        omega
      · rw [if_neg hU]
        split <;> omega

end

/-! ## Views -/

/-- The numbers below `s`. -/
def below (s q : Nat) : Bool := decide (q < s)

/-- The numbers below `s`, and those of an older reading. -/
def either (ks : List Nat) (s q : Nat) : Bool := decide (q < s ∨ q ∈ ks)

/-- Those of an older reading that are below `s`. -/
def both (ks : List Nat) (s q : Nat) : Bool := decide (q < s ∧ q ∈ ks)

/-- A member that came under number `o`, or was there when the ledger began. -/
def shows (U : Nat → Bool) : Option Nat → Bool
  | none => true
  | some q => U q

section

variable {amount : δ → Int} {s : Nat}

theorem below_of_both {ks : List Nat} {q : Nat} (h : both ks s q = true) : below s q = true := by
  simp only [both, below, decide_eq_true_eq] at h ⊢
  exact h.1

theorem either_of_below {ks : List Nat} {q : Nat} (h : below s q = true) : either ks s q = true := by
  simp only [either, below, decide_eq_true_eq] at h ⊢
  exact Or.inl h

/-- Of the older reading itself, the view shows what lies below the bound. -/
theorem sumIn_both (log : List (Nat × δ)) :
    sumIn amount (both (log.map (·.1)) s) log = sumIn amount (below s) log := by
  apply sumIn_congr
  intro x hx
  unfold both below
  exact decide_eq_decide.2 (and_iff_left (List.mem_map_of_mem hx))

theorem sumIn_both_apart {ks : List Nat} {rest : List (Nat × δ)} (h : ∀ x ∈ rest, x.1 ∉ ks) :
    sumIn amount (both ks s) rest = 0 := by
  apply sumIn_eq_zero
  intro x hx hshow
  simp only [both, decide_eq_true_eq] at hshow
  exact absurd hshow.2 (h x hx)

theorem either_self {log : List (Nat × δ)} {x : Nat × δ} (hx : x ∈ log) : either (log.map (·.1)) s x.1 = true :=
  decide_eq_true (Or.inr (List.mem_map_of_mem hx))

theorem sumIn_either_apart {ks : List Nat} {rest : List (Nat × δ)} (h : ∀ x ∈ rest, x.1 ∉ ks) :
    sumIn amount (either ks s) rest = sumIn amount (below s) rest := by
  apply sumIn_congr
  intro x hx
  unfold either below
  exact decide_eq_decide.2 (or_iff_left (h x hx))

/-- Once the older reading is folded, what came under its numbers came before all others. -/
theorem shows_filter (ks : List Nat) (s : Nat) (o : Option Nat) :
    shows (below s) (o.filter fun q => decide (q ∉ ks)) = shows (either ks s) o := by
  cases o with
  | none => rfl
  | some q =>
      rw [Option.filter_some]
      by_cases hq : q ∈ ks
      · simp [shows, either, hq]
      · simp [shows, either, below, hq]

end

theorem exists_bound (log : List (Nat × δ)) : ∃ s, ∀ x ∈ log, x.1 < s := by
  induction log with
  | nil => exact ⟨0, by simp⟩
  | cons x log ih =>
      obtain ⟨s, hs⟩ := ih
      refine ⟨max s (x.1 + 1), fun y hy => ?_⟩
      rcases List.mem_cons.1 hy with rfl | hy
      · omega
      · have := hs y hy
        omega

/-- **The beginnings of an ordered ledger are views of it.** -/
theorem prefix_eq_filter {log pre post : List (Nat × δ)} (hs : log.Pairwise fun a b => a.1 < b.1)
    (e : log = pre ++ post) : ∃ s, pre = log.filter fun x => below s x.1 := by
  subst e
  cases post with
  | nil =>
      obtain ⟨s, hlt⟩ := exists_bound pre
      refine ⟨s, ?_⟩
      rw [List.append_nil, List.filter_eq_self.2]
      intro x hx
      exact decide_eq_true (hlt x hx)
  | cons y post =>
      obtain ⟨-, hpost, hpre⟩ := List.pairwise_append.1 hs
      refine ⟨y.1, ?_⟩
      rw [List.filter_append, List.filter_eq_self.2, List.filter_eq_nil_iff.2, List.append_nil]
      · intro x hx
        have hle : y.1 ≤ x.1 := by
          rcases List.mem_cons.1 hx with rfl | hx
          · exact Nat.le_refl _
          · exact Nat.le_of_lt ((List.pairwise_cons.1 hpost).1 x hx)
        simp only [below, decide_eq_true_eq]
        omega
      · intro x hx
        exact decide_eq_true (hpre x hx y List.mem_cons_self)

/-! ## Views that fit -/

/-- Of a base count and the sum `sum` that a view shows: the `seen` members that the view shows are accounted for above
`lo`, and what has been asked for stays below `hi`. -/
structure Fits (lo hi base sum seen asked : Int) : Prop where
  low : lo + seen ≤ base + sum
  high : base + sum + asked < hi

namespace Fits

variable {lo hi base sum seen asked : Int}

/-- The ledger changes by what members come and go; what comes had been asked for. -/
theorem change (h : Fits lo hi base sum seen asked) {by' seen' asked' : Int} (hseen : seen' ≤ seen + by')
    (hasked : asked' + by' ≤ asked) : Fits lo hi base (sum + by') seen' asked' := by
  obtain ⟨hlow, hhigh⟩ := h
  constructor <;> omega

/-- Less is seen and less is asked for. -/
theorem mono (h : Fits lo hi base sum seen asked) {seen' asked' : Int} (hseen : seen' ≤ seen)
    (hasked : asked' ≤ asked) : Fits lo hi base sum seen' asked' := by
  obtain ⟨hlow, hhigh⟩ := h
  constructor <;> omega

/-- Part of the sum becomes part of the base. -/
theorem fold {part rest : Int} (h : Fits lo hi base (part + rest) seen asked) :
    Fits lo hi (base + part) rest seen asked := by
  obtain ⟨hlow, hhigh⟩ := h
  constructor <;> omega

end Fits

/-! ## Accounts -/

/-- One of several accounts changes. -/
theorem sum_map_set {T : Type} (f : T → Int) (t' : T) {ts : List T} {n : Nat} {t : T} (h : ts[n]? = some t) :
    ((ts.set n t').map f).sum + f t = (ts.map f).sum + f t' := by
  induction ts generalizing n with
  | nil => simp at h
  | cons u ts ih =>
      cases n with
      | zero =>
          simp only [List.getElem?_cons_zero, Option.some.injEq] at h
          subst h
          simp only [List.set_cons_zero, List.map_cons, List.sum_cons]
          omega
      | succ n =>
          rw [List.getElem?_cons_succ] at h
          have hrest := ih h
          simp only [List.set_cons_succ, List.map_cons, List.sum_cons]
          omega

end Ledger
