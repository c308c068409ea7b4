import Mathlib.Algebra.Order.BigOperators.Group.List
import Mathlib.Data.List.Perm.Basic
import Mathlib.Order.Bounds.Basic
import RucksFs.Core

/-!
# Delta operations and their fold (`server/src/delta.rs`)

A `DeltaOp` is an incremental change of a directory's attributes.  `foldDeltas` applies a list
of them in order: link-count changes are added in signed arithmetic, clamped at zero and
truncated to 32 bits after every step; times are merged by maximum.

* `foldDeltas_nlink` — while no partial sum leaves the range of a `u32`, the link count is the
  base's plus the sum.
* `foldDeltas_perm` — while no order of the deltas can leave it, the order does not matter.
* `isGreatest_foldDeltas` — a time is the latest of the base's and of those set.
* `foldDeltas_any_order` — bounds on the links added and removed, under which neither the order nor a division of the
  deltas matters.
-/

set_option autoImplicit false

namespace RucksFs

/-- `DeltaOp`. -/
inductive DeltaOp where
  | incrementNlink (n : Int)
  | setMtime (t : Nat)
  | setCtime (t : Nat)
  | setAtime (t : Nat)
  deriving DecidableEq, Repr

/-- One iteration of the loop of `fold_deltas`. -/
def foldDelta (base : InodeValue) : DeltaOp → InodeValue
  | .incrementNlink n => { base with nlink := (max ((base.nlink : Int) + n) 0).toNat % U32_SIZE }
  | .setMtime t => { base with mtime := max base.mtime t }
  | .setCtime t => { base with ctime := max base.ctime t }
  | .setAtime t => { base with atime := max base.atime t }

/-- `fold_deltas`. -/
def foldDeltas (base : InodeValue) (deltas : List DeltaOp) : InodeValue :=
  deltas.foldl foldDelta base

@[simp] theorem foldDeltas_nil (base : InodeValue) : foldDeltas base [] = base := rfl

theorem foldDeltas_cons (base : InodeValue) (d : DeltaOp) (ds : List DeltaOp) :
    foldDeltas base (d :: ds) = foldDeltas (foldDelta base d) ds := rfl

theorem foldDeltas_append (base : InodeValue) (ds es : List DeltaOp) :
    foldDeltas base (ds ++ es) = foldDeltas (foldDeltas base ds) es :=
  List.foldl_append

/-- What one delta leaves alone, a fold leaves alone. -/
theorem foldDeltas_kept {β : Type} {f : InodeValue → β} (h : ∀ b d, f (foldDelta b d) = f b) (base : InodeValue)
    (ds : List DeltaOp) : f (foldDeltas base ds) = f base := by
  induction ds generalizing base with
  | nil => rfl
  | cons d ds ih => rw [foldDeltas_cons, ih, h]

@[simp] theorem foldDeltas_mode (base : InodeValue) (ds : List DeltaOp) :
    (foldDeltas base ds).mode = base.mode :=
  foldDeltas_kept (fun _ d => by cases d <;> rfl) base ds

@[simp] theorem foldDeltas_size (base : InodeValue) (ds : List DeltaOp) :
    (foldDeltas base ds).size = base.size :=
  foldDeltas_kept (fun _ d => by cases d <;> rfl) base ds

/-! ## Order of the deltas -/

/-- What a delta adds to the link count. -/
def DeltaOp.links : DeltaOp → Int
  | .incrementNlink n => n
  | _ => 0

def linkSum (ds : List DeltaOp) : Int := (ds.map DeltaOp.links).sum

@[simp] theorem linkSum_nil : linkSum [] = 0 := rfl

theorem linkSum_cons (d : DeltaOp) (ds : List DeltaOp) : linkSum (d :: ds) = d.links + linkSum ds :=
  List.sum_cons

theorem linkSum_append (ds es : List DeltaOp) : linkSum (ds ++ es) = linkSum ds + linkSum es := by
  unfold linkSum
  rw [List.map_append, List.sum_append]

/-- Applied in this order, the deltas keep a link count `n` within a `u32`. -/
def InRange (n : Nat) (ds : List DeltaOp) : Prop :=
  ∀ pre post, ds = pre ++ post → 0 ≤ n + linkSum pre ∧ n + linkSum pre < U32_SIZE

/-- No order of the deltas takes a link count `n` out of a `u32`. -/
def InRangeAnyOrder (n : Nat) (ds : List DeltaOp) : Prop := ∀ ds', ds'.Perm ds → InRange n ds'

/-- The links that the deltas add. -/
def linksAdded (ds : List DeltaOp) : Nat := (ds.map fun d => d.links.toNat).sum

/-- The links that they take away. -/
def linksRemoved (ds : List DeltaOp) : Nat := (ds.map fun d => (-d.links).toNat).sum

theorem linksAdded_append (ds es : List DeltaOp) : linksAdded (ds ++ es) = linksAdded ds + linksAdded es := by
  simp [linksAdded]

theorem linksRemoved_append (ds es : List DeltaOp) :
    linksRemoved (ds ++ es) = linksRemoved ds + linksRemoved es := by
  simp [linksRemoved]

theorem linkSum_eq_sub (ds : List DeltaOp) : linkSum ds = linksAdded ds - linksRemoved ds := by
  induction ds with
  | nil => rfl
  | cons d ds ih =>
      have hadd : linksAdded (d :: ds) = d.links.toNat + linksAdded ds := List.sum_cons
      have hrem : linksRemoved (d :: ds) = (-d.links).toNat + linksRemoved ds := List.sum_cons
      rw [linkSum_cons, ih, hadd, hrem]
      omega

/-- **Bounds on both sums hold in every order.** -/
theorem inRangeAnyOrder_of_bounds {n : Nat} {ds : List DeltaOp} (hdown : linksRemoved ds ≤ n)
    (hup : n + linksAdded ds < U32_SIZE) : InRangeAnyOrder n ds := by
  rintro ds' hp pre post rfl
  have hadd : linksAdded pre + linksAdded post = linksAdded ds := by
    rw [← linksAdded_append]
    exact (hp.map _).sum_eq
  have hrem : linksRemoved pre + linksRemoved post = linksRemoved ds := by
    rw [← linksRemoved_append]
    exact (hp.map _).sum_eq
  rw [linkSum_eq_sub]
  omega

theorem foldDelta_nlink {base : InodeValue} {d : DeltaOp} (h₀ : 0 ≤ base.nlink + d.links)
    (h₁ : base.nlink + d.links < U32_SIZE) :
    ((foldDelta base d).nlink : Int) = base.nlink + d.links := by
  cases d with
  | incrementNlink n =>
      change 0 ≤ (base.nlink : Int) + n at h₀
      have hmax : max ((base.nlink : Int) + n) 0 = base.nlink + n := by omega
      show (((max ((base.nlink : Int) + n) 0).toNat % U32_SIZE : Nat) : Int) = base.nlink + n
      change (base.nlink : Int) + n < U32_SIZE at h₁
      rw [hmax, Nat.mod_eq_of_lt (by omega)]
      omega
  | _ => exact (add_zero _).symm

theorem foldDeltas_nlink {base : InodeValue} {ds : List DeltaOp} (h : InRange base.nlink ds) :
    ((foldDeltas base ds).nlink : Int) = base.nlink + linkSum ds := by
  induction ds generalizing base with
  | nil => exact (add_zero _).symm
  | cons d ds ih =>
      have hone := h [d] _ rfl
      rw [linkSum_cons, linkSum_nil, add_zero] at hone
      have hstep := foldDelta_nlink hone.1 hone.2
      rw [foldDeltas_cons, ih, hstep, linkSum_cons, add_assoc]
      intro pre post e
      have hcons := h (d :: pre) post (by rw [e]; rfl)
      rw [linkSum_cons, ← add_assoc, ← hstep] at hcons
      exact hcons

/-- A delta without its link count. -/
def foldTime (base : InodeValue) : DeltaOp → InodeValue
  | .incrementNlink _ => base
  | d => foldDelta base d

instance : RightCommutative foldTime where
  right_comm base d e := by
    cases d <;> cases e <;> first | rfl | (simp only [foldTime, foldDelta]; congr 1; omega)

theorem foldDelta_eq (base : InodeValue) (d : DeltaOp) :
    foldDelta base d = { foldTime base d with nlink := (foldDelta base d).nlink } := by
  cases d <;> rfl

theorem foldTime_setNlink (base : InodeValue) (n : Nat) (d : DeltaOp) :
    foldTime { base with nlink := n } d = { foldTime base d with nlink := n } := by
  cases d <;> rfl

/-- The times of the result do not depend on link counts. -/
theorem foldDeltas_eq (base : InodeValue) (ds : List DeltaOp) :
    foldDeltas base ds = { ds.foldl foldTime base with nlink := (foldDeltas base ds).nlink } := by
  have hset : ∀ (ds : List DeltaOp) (b : InodeValue) (n : Nat),
      ds.foldl foldTime { b with nlink := n } = { ds.foldl foldTime b with nlink := n } := by
    intro ds
    induction ds with
    | nil => exact fun _ _ => rfl
    | cons d ds ih =>
        intro b n
        rw [List.foldl_cons, foldTime_setNlink, ih]
        rfl
  induction ds generalizing base with
  | nil => rfl
  | cons d ds ih =>
      rw [foldDeltas_cons, ih (foldDelta base d)]
      nth_rewrite 1 [foldDelta_eq base d]
      rw [hset]
      rfl

theorem foldDeltas_perm {base : InodeValue} {ds es : List DeltaOp}
    (h : InRangeAnyOrder base.nlink ds) (hp : es.Perm ds) : foldDeltas base es = foldDeltas base ds := by
  have hsum : linkSum es = linkSum ds := (hp.map DeltaOp.links).sum_eq
  have hn : (foldDeltas base es).nlink = (foldDeltas base ds).nlink := by
    have hes := foldDeltas_nlink (h es hp)
    have hds := foldDeltas_nlink (h ds (.refl ds))
    omega
  rw [foldDeltas_eq base es, foldDeltas_eq base ds, hn, hp.foldl_eq]

/-! ## Times, and the whole fold -/

/-- **A time is the latest of the base's and of those set**, for the field `field` that the deltas `set` are for. -/
theorem isGreatest_foldDeltas (field : InodeValue → Nat) (set : Nat → DeltaOp)
    (hset : ∀ b t, field (foldDelta b (set t)) = max (field b) t)
    (hother : ∀ b d, (∀ t, d ≠ set t) → field (foldDelta b d) = field b) (base : InodeValue) (ds : List DeltaOp) :
    IsGreatest {t | t = field base ∨ set t ∈ ds} (field (foldDeltas base ds)) := by
  induction ds generalizing base with
  | nil => simp [IsGreatest, upperBounds]
  | cons d ds ih =>
      obtain ⟨hmem, hmax⟩ := ih (foldDelta base d)
      rw [foldDeltas_cons]
      by_cases hd : ∃ t, d = set t
      · obtain ⟨t, rfl⟩ := hd
        have htop : max (field base) t ≤ field (foldDeltas (foldDelta base (set t)) ds) :=
          hset base t ▸ hmax (Or.inl rfl)
        constructor
        · rcases hmem with heq | hin
          · rw [heq, hset]
            rcases max_choice (field base) t with h | h
            · exact Or.inl h
            · rw [h]
              exact Or.inr List.mem_cons_self
          · exact Or.inr (List.mem_cons_of_mem _ hin)
        · rintro u (rfl | hu)
          · exact le_trans (le_max_left _ t) htop
          · rcases List.mem_cons.1 hu with he | hu
            · have hsame : max (field base) u = max (field base) t := by rw [← hset, ← hset, he]
              exact le_trans (le_max_right _ u) (hsame.trans_le htop)
            · exact hmax (Or.inr hu)
      · have hkeep := hother base d (not_exists.1 hd)
        rw [hkeep] at hmem hmax
        constructor
        · exact hmem.imp_right (List.mem_cons_of_mem d)
        · rintro t (rfl | ht)
          · exact hmax (Or.inl rfl)
          · rcases List.mem_cons.1 ht with he | ht
            · exact absurd ⟨t, he.symm⟩ hd
            · exact hmax (Or.inr ht)

/-- **The order of the deltas does not matter, nor how they are split.**  While the links taken away do not exceed the
base's and those added keep its count within a `u32`, every order of the deltas, and every division of them into two
parts folded one after the other, gives the base with the sum added to its link count and each time at its latest. -/
theorem foldDeltas_any_order {base : InodeValue} {ds : List DeltaOp} (hdown : linksRemoved ds ≤ base.nlink)
    (hup : base.nlink + linksAdded ds < 2 ^ 32) :
    (∀ es, es.Perm ds → foldDeltas base es = foldDeltas base ds) ∧
    (∀ es fs, (es ++ fs).Perm ds → foldDeltas (foldDeltas base es) fs = foldDeltas base ds) ∧
    ((foldDeltas base ds).nlink : Int) = base.nlink + linkSum ds ∧
    IsGreatest {t | t = base.mtime ∨ .setMtime t ∈ ds} (foldDeltas base ds).mtime ∧
    IsGreatest {t | t = base.ctime ∨ .setCtime t ∈ ds} (foldDeltas base ds).ctime ∧
    IsGreatest {t | t = base.atime ∨ .setAtime t ∈ ds} (foldDeltas base ds).atime ∧
    (foldDeltas base ds).version = base.version ∧ (foldDeltas base ds).inode = base.inode ∧
    (foldDeltas base ds).size = base.size ∧ (foldDeltas base ds).mode = base.mode ∧
    (foldDeltas base ds).uid = base.uid ∧ (foldDeltas base ds).gid = base.gid := by
  have hrange : InRangeAnyOrder base.nlink ds := inRangeAnyOrder_of_bounds hdown hup
  refine ⟨fun es hp => foldDeltas_perm hrange hp, ?_, foldDeltas_nlink (hrange ds (.refl ds)), ?_, ?_, ?_,
    foldDeltas_kept (fun _ d => by cases d <;> rfl) base ds, foldDeltas_kept (fun _ d => by cases d <;> rfl) base ds,
    foldDeltas_size base ds, foldDeltas_mode base ds,
    foldDeltas_kept (fun _ d => by cases d <;> rfl) base ds, foldDeltas_kept (fun _ d => by cases d <;> rfl) base ds⟩
  · intro es fs hp
    rw [← foldDeltas_append]
    exact foldDeltas_perm hrange hp
  · apply isGreatest_foldDeltas InodeValue.mtime DeltaOp.setMtime
    · exact fun _ _ => rfl
    · intro b d hd
      cases d with
      | setMtime t => exact absurd rfl (hd t)
      | _ => rfl
  · apply isGreatest_foldDeltas InodeValue.ctime DeltaOp.setCtime
    · exact fun _ _ => rfl
    · intro b d hd
      cases d with
      | setCtime t => exact absurd rfl (hd t)
      | _ => rfl
  · apply isGreatest_foldDeltas InodeValue.atime DeltaOp.setAtime
    · exact fun _ _ => rfl
    · intro b d hd
      cases d with
      | setAtime t => exact absurd rfl (hd t)
      | _ => rfl

/-- A directory with four links: one subdirectory comes and two go. -/
theorem foldDeltas_any_order_twoGone :
    let base : InodeValue := ⟨1, 5, 0, 0o040755, 4, 0, 0, 7, 7, 7⟩
    foldDeltas base [.incrementNlink (-1), .setMtime 9, .incrementNlink 1, .incrementNlink (-1), .setMtime 8] =
      foldDeltas (foldDeltas base [.setMtime 8, .incrementNlink (-1)])
        [.incrementNlink (-1), .setMtime 9, .incrementNlink 1] :=
  ((foldDeltas_any_order (by decide) (by decide)).2.1 [.setMtime 8, .incrementNlink (-1)]
    [.incrementNlink (-1), .setMtime 9, .incrementNlink 1] (by decide)).symm

end RucksFs
