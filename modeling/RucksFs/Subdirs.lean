import RucksFs.Lib.Ledger
import RucksFs.Server.Numbers

/-!
# Subdirectories and the links that count them

The link count of a directory is spread over its base record and the deltas stored and taken for it.  A delta is
stored under a number that was taken before the commit, so that whoever folds the deltas meets sums the directory
never had as its link count.

An entry of a directory is said to have come under the number of the delta that counts it, or before all numbers.  A
view of the numbers then shows some of the entries, and some of the deltas.

* `Db.LiveDir`, `Db.DirsBacked` — the directories of the tree, and that each of them has a record.
* `Db.shown` — the number of subdirectories that a view shows.
* `Retallied` — what a commit does to the numbers of the entries, and to what every view shows.
* `Writes.retallied` — **every commit moves the subdirectories shown by no more than the deltas shown.**
-/

set_option autoImplicit false

namespace RucksFs

open Server Ledger

/-! ## Directories of the tree -/

/-- The root, or a directory that an entry names. -/
def Db.LiveDir (db : Db) (d : Inode) : Prop :=
  d = ROOT_INODE ∨ ∃ p n v, db.entry p n = some v ∧ v.inode = d ∧ isDir v.mode = true

/-- Entries of directories have records. -/
def Db.DirsBacked (db : Db) : Prop :=
  ∀ p n v, db.entry p n = some v → isDir v.mode = true → ∃ iv, db.inode v.inode = some iv

namespace Db

variable {db D : Db} {next : Nat} {d : Inode}

theorem LiveDir.isDirectory (h : db.LiveDir d) (hb : db.DirsBacked) (hw : db.Wf next) : db.IsDirectory d := by
  rcases h with rfl | ⟨p, n, v, he, rfl, hd⟩
  · exact hw.root
  · obtain ⟨iv, hi⟩ := hb p n v he hd
    exact ⟨iv, hi, by rw [hw.isDir_eq he hi, hd]⟩

theorem LiveDir.of_named (hw : db.Wf next) (hd : db.IsDirectory d) (hn : db.Named d) : db.LiveDir d := by
  obtain ⟨p, n, v, he, rfl⟩ := hn
  obtain ⟨iv, hi, hdir⟩ := hd
  exact Or.inr ⟨p, n, v, he, rfl, by rw [← hw.isDir_eq he hi, hdir]⟩

theorem LiveDir.congr (h : D.LiveDir d) (he : D.dirEntries = db.dirEntries) : db.LiveDir d := by
  have hen : ∀ p n, D.entry p n = db.entry p n := fun p n => by unfold Db.entry; rw [he]
  rcases h with rfl | ⟨p, n, v, hv, hd⟩
  · exact Or.inl rfl
  · exact Or.inr ⟨p, n, v, hen p n ▸ hv, hd⟩

theorem DirsBacked.congr (h : db.DirsBacked) (hi : D.inodes = db.inodes) (he : D.dirEntries = db.dirEntries) :
    D.DirsBacked := by
  intro p n v hv hd
  unfold Db.entry at hv
  unfold Db.inode
  rw [he] at hv
  rw [hi]
  exact h p n v hv hd

/-- The entries that say they name a directory do. -/
theorem DirsBacked.subdirs_eq (h : db.DirsBacked) (hw : db.Wf next) (d : Inode) :
    db.subdirs d = db.dirModeEntries d := by
  rw [Db.subdirs_eq]
  unfold dirModeEntries
  apply OrdMap.count_congr
  intro k v hk
  have he : db.entry (ofLex k).1 (ofLex k).2 = some v := hk
  congr 1
  cases hi : db.inode v.inode with
  | some iv => rw [isDirAt_some hi, hw.isDir_eq he hi]
  | none =>
      have hno : db.isDirAt v.inode = false := by
        unfold isDirAt
        rw [hi]
      cases hd : isDir v.mode with
      | false => exact hno
      | true =>
          obtain ⟨iv, hiv⟩ := h _ _ v he hd
          rw [hi] at hiv
          cases hiv

/-! ## Views of the subdirectories -/

/-- An entry of `d` that names a directory and came under a number of the view. -/
def shownBy (d : Inode) (came : Name → Option Nat) (U : Nat → Bool) (k : DirKey) (v : DirValue) : Bool :=
  (ofLex k).1 == d && isDir v.mode && shows U (came (ofLex k).2)

/-- The number of subdirectories of `d` that a view shows. -/
def shown (db : Db) (d : Inode) (came : Name → Option Nat) (U : Nat → Bool) : Nat :=
  db.dirEntries.count (shownBy d came U)

end Db

open Db

section

variable {d p : Inode} {n : Name} {came : Name → Option Nat} {U V : Nat → Bool} {v : DirValue}

theorem shows_all (o : Option Nat) : shows (fun _ => true) o = true := by
  cases o <;> rfl

/-- The view of all numbers shows all subdirectories. -/
theorem Db.shown_all (db : Db) (d : Inode) (came : Name → Option Nat) :
    db.shown d came (fun _ => true) = db.dirModeEntries d := by
  apply OrdMap.count_congr
  intro k v _
  unfold shownBy
  rw [shows_all, Bool.and_true]

theorem Db.shown_le (db : Db) (d : Inode) (came : Name → Option Nat)
    (h : ∀ q, U q = true → V q = true) : db.shown d came U ≤ db.shown d came V := by
  apply List.countP_mono_left
  intro x _ hx
  unfold shownBy at hx ⊢
  simp only [Bool.and_eq_true] at hx ⊢
  refine ⟨hx.1, ?_⟩
  cases ho : came (ofLex x.1).2 with
  | none => rfl
  | some q =>
      rw [ho] at hx
      exact h q hx.2

theorem hit_shownBy_ne (h : p ≠ d) (o : Option DirValue) :
    OrdMap.hit (shownBy d came U) (toLex (p, n)) o = 0 := by
  cases o with
  | none => rfl
  | some v => simp [shownBy, h]

theorem hit_shownBy_file (h : isDir v.mode = false) :
    OrdMap.hit (shownBy d came U) (toLex (p, n)) (some v) = 0 := by
  simp [shownBy, h]

theorem hit_shownBy_dir (h : isDir v.mode = true) :
    OrdMap.hit (shownBy d came U) (toLex (d, n)) (some v) = (shows U (came n)).toNat := by
  cases hs : shows U (came n) <;> simp [shownBy, h, hs]

/-- A number given to name `n` matters for the entry of that name only. -/
theorem shownBy_update {k : DirKey} (x : Option Nat) (h : k ≠ toLex (d, n)) (v : DirValue) :
    shownBy d (Function.update came n x) U k v = shownBy d came U k v := by
  unfold shownBy
  by_cases hp : (ofLex k).1 = d
  · have hn : (ofLex k).2 ≠ n := by
      rintro rfl
      exact h (by rw [← hp]; rfl)
    rw [Function.update_of_ne hn]
  · have hb : ((ofLex k).1 == d) = false := by simpa using hp
    rw [hb]
    rfl

end

section

variable {db D : Db} {d p np : Inode} {n nn : Name} {came came' : Name → Option Nat} {U : Nat → Bool}
  {v : DirValue}

theorem Db.shown_congr (h : D.dirEntries = db.dirEntries) : D.shown d came U = db.shown d came U := by
  unfold Db.shown
  rw [h]

theorem Db.shown_of_put (h : D.dirEntries = db.dirEntries.put (toLex (p, n)) v) (he : db.entry p n = none)
    (hk : ∀ k, k ≠ toLex (p, n) → ∀ w, shownBy d came' U k w = shownBy d came U k w) :
    D.shown d came' U = db.shown d came U + OrdMap.hit (shownBy d came' U) (toLex (p, n)) (some v) := by
  have hput := OrdMap.count_put (shownBy d came' U) db.dirEntries (toLex (p, n)) v
  have hcame := OrdMap.count_update db.dirEntries hk
  unfold Db.entry at he
  rw [he, OrdMap.hit_none] at hput hcame
  rw [OrdMap.hit_none] at hcame
  unfold Db.shown
  rw [h]
  omega

theorem Db.shown_of_erase (h : D.dirEntries = db.dirEntries.erase (toLex (p, n))) (he : db.entry p n = some v) :
    D.shown d came U + OrdMap.hit (shownBy d came U) (toLex (p, n)) (some v) = db.shown d came U := by
  have herase := OrdMap.count_erase (shownBy d came U) db.dirEntries (toLex (p, n))
  unfold Db.entry at he
  rw [he] at herase
  unfold Db.shown
  rw [h]
  exact herase

/-- After a rename the replaced entry and the old one are not counted any more; the new one is. -/
theorem Db.shown_renameOps (src : Inode) (srcIv : InodeValue) (vic : Victim) (ts : Nat) (he : db.entry p n = some v)
    (hne : ¬(p = np ∧ n = nn)) (d : Inode) (came came' : Name → Option Nat) (U : Nat → Bool)
    (hk : ∀ k, k ≠ toLex (np, nn) → ∀ w, shownBy d came' U k w = shownBy d came U k w) :
    (db.applyBatch (renameOps p n np nn src srcIv (db.entry np nn) vic ts)).shown d came' U +
        OrdMap.hit (shownBy d came U) (toLex (np, nn)) (db.entry np nn) +
        OrdMap.hit (shownBy d came U) (toLex (p, n)) (some v) =
      db.shown d came U + OrdMap.hit (shownBy d came' U) (toLex (np, nn)) (some ⟨src, srcIv.mode⟩) := by
  have hcount := count_renameOps src srcIv vic ts (shownBy d came' U) he hne
  have hcame := OrdMap.count_update db.dirEntries hk
  have hkey : toLex (p, n) ≠ toLex (np, nn) := by simpa using hne
  have hold : OrdMap.hit (shownBy d came' U) (toLex (p, n)) (some v) =
      OrdMap.hit (shownBy d came U) (toLex (p, n)) (some v) := by
    rw [OrdMap.hit_some, OrdMap.hit_some, hk _ hkey]
  unfold Db.shown
  unfold Db.entry at hcount ⊢
  omega

end

/-! ## The numbers of a commit -/

/-- The deltas for which a commit has taken numbers of `d` are its deltas for `d`. -/
theorem map_numbersOf {seqs : List (Inode × Nat × DeltaOp)} {dss : List (Inode × List DeltaOp)}
    (h : seqs.map (fun x => (x.1, x.2.2)) = flatDeltas dss) (d : Inode) :
    (numbersOf d seqs).map (·.2) = deltasOf dss d := by
  have hseqs : (numbersOf d seqs).map (·.2) =
      (seqs.map fun x => (x.1, x.2.2)).filterMap fun x => if x.1 = d then some x.2 else none := by
    unfold numbersOf
    rw [List.map_filterMap, List.filterMap_map]
    apply List.filterMap_congr
    intro x _
    by_cases hx : x.1 = d <;> simp [hx]
  rw [hseqs, h]
  clear h hseqs
  induction dss with
  | nil => rfl
  | cons x dss ih =>
      have hflat : flatDeltas (x :: dss) = x.2.map (Prod.mk x.1) ++ flatDeltas dss := List.flatMap_cons
      rw [hflat, List.filterMap_append, ih, deltasOf_cons, List.filterMap_map]
      congr 1
      by_cases hx : x.1 = d
      · rw [if_pos hx]
        simp [hx]
      · rw [if_neg hx]
        simp [hx]

theorem links_touchDeltas (ts : Nat) : ∀ δ ∈ touchDeltas ts, δ.links = 0 := by
  simp [touchDeltas, DeltaOp.links]

theorem sumIn_links_eq_zero {own : List (Nat × DeltaOp)} {ds : List DeltaOp} (h : own.map (·.2) = ds)
    (hz : ∀ δ ∈ ds, δ.links = 0) (U : Nat → Bool) : sumIn DeltaOp.links U own = 0 := by
  apply sumIn_eq_zero
  intro x hx _
  apply hz
  rw [← h]
  exact List.mem_map_of_mem hx

/-- The first of the numbers taken is for a change of the link count, the others are not. -/
theorem exists_number {own : List (Nat × DeltaOp)} {δ : DeltaOp} {ds : List DeltaOp} (h : own.map (·.2) = δ :: ds) :
    ∃ q rest, own = (q, δ) :: rest ∧ rest.map (·.2) = ds := by
  obtain ⟨⟨q, δ'⟩, rest, rfl, hδ, hrest⟩ := List.map_eq_cons_iff.1 h
  cases hδ
  exact ⟨q, rest, rfl, hrest⟩

/-- Every link that a transaction is about to take away from `d` is that of an entry of `d` it has read, which came
under a smaller number. -/
def Departs (d : Inode) (came : Name → Option Nat) (tx : Txn) : Prop :=
  ∀ q, (q, .incrementNlink (-1)) ∈ numbersOf d tx.seqs →
    ∃ n v, (d, n, some v) ∈ tx.dirReads ∧ isDir v.mode = true ∧ ∀ m, came n = some m → m < q

/-- With the number of a departure a view shows all smaller ones. -/
def ShowsEarlier (d : Inode) (tx : Txn) (U : Nat → Bool) : Prop :=
  ∀ q, (q, .incrementNlink (-1)) ∈ numbersOf d tx.seqs → U q = true → ∀ m < q, U m = true

/-- A commit gives the entries it has read new numbers, old ones or those of its own deltas.  No view shows more
subdirectories of `d` than its deltas account for. -/
structure Retallied (d : Inode) (db db' : Db) (tx : Txn) (came came' : Name → Option Nat) : Prop where
  kept : ∀ m, (∀ o, (d, m, o) ∉ tx.dirReads) → came' m = came m
  number : ∀ m q, came' m = some q → (∃ m₀, came m₀ = some q) ∨ ∃ δ, (q, δ) ∈ numbersOf d tx.seqs
  view : ∀ U, ShowsEarlier d tx U → (db'.shown d came' U : Int) ≤
    db.shown d came U + sumIn DeltaOp.links U (numbersOf d tx.seqs)
  total : (db'.dirModeEntries d : Int) = db.dirModeEntries d + linkSum ((numbersOf d tx.seqs).map (·.2))

namespace Retallied

variable {d : Inode} {db db' : Db} {tx : Txn} {came came' : Name → Option Nat}

/-- The total is what the view of all numbers shows. -/
theorem of_views (hkept : ∀ m, (∀ o, (d, m, o) ∉ tx.dirReads) → came' m = came m)
    (hnumber : ∀ m q, came' m = some q → (∃ m₀, came m₀ = some q) ∨ ∃ δ, (q, δ) ∈ numbersOf d tx.seqs)
    (hview : ∀ U, ShowsEarlier d tx U → (db'.shown d came' U : Int) ≤
      db.shown d came U + sumIn DeltaOp.links U (numbersOf d tx.seqs))
    (hall : (db'.shown d came' (fun _ => true) : Int) =
      db.shown d came (fun _ => true) + sumIn DeltaOp.links (fun _ => true) (numbersOf d tx.seqs)) :
    Retallied d db db' tx came came' := by
  refine ⟨hkept, hnumber, hview, ?_⟩
  rw [Db.shown_all, Db.shown_all, sumIn_all fun _ _ => rfl] at hall
  unfold linkSum
  rw [List.map_map]
  exact hall

/-- An entry that was read gets a number that another one had, or one of the commit's own. -/
theorem of_update {n : Name} {o : Option DirValue} {x : Option Nat} (hread : (d, n, o) ∈ tx.dirReads)
    (hx : ∀ q, x = some q → (∃ m₀, came m₀ = some q) ∨ ∃ δ, (q, δ) ∈ numbersOf d tx.seqs)
    (hview : ∀ U, ShowsEarlier d tx U → (db'.shown d (Function.update came n x) U : Int) ≤
      db.shown d came U + sumIn DeltaOp.links U (numbersOf d tx.seqs))
    (hall : (db'.shown d (Function.update came n x) (fun _ => true) : Int) =
      db.shown d came (fun _ => true) + sumIn DeltaOp.links (fun _ => true) (numbersOf d tx.seqs)) :
    Retallied d db db' tx came (Function.update came n x) := by
  refine of_views (fun m hm => ?_) (fun m q hq => ?_) hview hall
  · apply Function.update_of_ne
    rintro rfl
    exact hm o hread
  · by_cases hmn : m = n
    · subst hmn
      rw [Function.update_self] at hq
      exact hx q hq
    · rw [Function.update_of_ne hmn] at hq
      exact Or.inl ⟨m, hq⟩

/-- The numbers of the entries stay as they are. -/
theorem of_kept
    (hview : ∀ U, ShowsEarlier d tx U → (db'.shown d came U : Int) ≤
      db.shown d came U + sumIn DeltaOp.links U (numbersOf d tx.seqs))
    (hall : (db'.shown d came (fun _ => true) : Int) =
      db.shown d came (fun _ => true) + sumIn DeltaOp.links (fun _ => true) (numbersOf d tx.seqs)) :
    Retallied d db db' tx came came :=
  of_views (fun _ _ => rfl) (fun m _ hq => Or.inl ⟨m, hq⟩) hview hall

/-- The entries of `d` that count, and their numbers, stay as they are. -/
theorem of_same (hshown : ∀ U, db'.shown d came U = db.shown d came U)
    (hlinks : ∀ U, sumIn DeltaOp.links U (numbersOf d tx.seqs) = 0) : Retallied d db db' tx came came := by
  apply of_kept
  · intro U _
    rw [hshown, hlinks, add_zero]
  · rw [hshown, hlinks, add_zero]

end Retallied

/-- A view that shows a departure shows the entry that departs. -/
theorem toNat_le_shows {U : Nat → Bool} {o : Option Nat} {q : Nat} (ho : ∀ m, o = some m → m < q)
    (hU : U q = true → ∀ m < q, U m = true) : (U q).toNat ≤ (shows U o).toNat := by
  cases hq : U q with
  | false => exact Nat.zero_le _
  | true =>
      have hs : shows U o = true := by
        cases o with
        | none => rfl
        | some m => exact hU hq m (ho m rfl)
      rw [hs]

theorem sumIn_number {own rest : List (Nat × DeltaOp)} {q : Nat} {δ : DeltaOp} (h : own = (q, δ) :: rest)
    (U : Nat → Bool) : sumIn DeltaOp.links U own = (U q).toNat * δ.links + sumIn DeltaOp.links U rest := by
  rw [h, sumIn_cons]
  cases U q <;> simp

/-! ## Commits -/

namespace Writes

variable {db : Db} {l : Local} {c : Call} {main : List BatchOp} {dss : List (Inode × List DeltaOp)} {next : Nat}
  {d : Inode} {came : Name → Option Nat} {D : Db} {n : Name} {ts : Nat} {p : Inode} {v : DirValue}

/-- An entry comes under the number of its link. -/
theorem retallied_arrival {o : Option DirValue} (hread : (d, n, o) ∈ l.tx.dirReads)
    (hown : (numbersOf d l.tx.seqs).map (·.2) = .incrementNlink 1 :: touchDeltas ts)
    (hshown : ∀ q U, D.shown d (Function.update came n (some q)) U = db.shown d came U + (U q).toNat) :
    ∃ came', Retallied d db D l.tx came came' := by
  obtain ⟨q, rest, hq, hrest⟩ := exists_number hown
  have hview : ∀ U, (D.shown d (Function.update came n (some q)) U : Int) =
      db.shown d came U + sumIn DeltaOp.links U (numbersOf d l.tx.seqs) := by
    intro U
    have hs := hshown q U
    have hone : DeltaOp.links (.incrementNlink 1) = 1 := rfl
    rw [sumIn_number hq, sumIn_links_eq_zero hrest (links_touchDeltas ts), hone]
    omega
  refine ⟨Function.update came n (some q), .of_update hread (fun q' hq' => ?_) (fun U _ => le_of_eq (hview U))
    (hview _)⟩
  cases hq'
  exact Or.inr ⟨_, by rw [hq]; exact List.mem_cons_self⟩

/-- An entry goes under a number above `o`, the one it came under: views that show it go have shown it. -/
theorem departure_views {came' : Name → Option Nat} {o : Option Nat} {q : Nat} {rest : List (Nat × DeltaOp)}
    (hq : numbersOf d l.tx.seqs = (q, .incrementNlink (-1)) :: rest) (hrest : rest.map (·.2) = touchDeltas ts)
    (ho : ∀ m, o = some m → m < q) (hshown : ∀ U, D.shown d came' U + (shows U o).toNat = db.shown d came U) :
    (∀ U, ShowsEarlier d l.tx U → (D.shown d came' U : Int) ≤
      db.shown d came U + sumIn DeltaOp.links U (numbersOf d l.tx.seqs)) ∧
    (D.shown d came' (fun _ => true) : Int) =
      db.shown d came (fun _ => true) + sumIn DeltaOp.links (fun _ => true) (numbersOf d l.tx.seqs) := by
  have hmem : (q, .incrementNlink (-1)) ∈ numbersOf d l.tx.seqs := by
    rw [hq]
    exact List.mem_cons_self
  have hsum : ∀ U, sumIn DeltaOp.links U (numbersOf d l.tx.seqs) = -(U q).toNat := by
    intro U
    have hone : DeltaOp.links (.incrementNlink (-1)) = -1 := rfl
    rw [sumIn_number hq, sumIn_links_eq_zero hrest (links_touchDeltas ts), hone]
    omega
  constructor
  · intro U hU
    have hle := toNat_le_shows ho (hU q hmem)
    have hs := hshown U
    rw [hsum]
    omega
  · have hs := hshown fun _ => true
    rw [shows_all] at hs
    rw [hsum]
    omega

/-- A new object: the entry of a directory comes under the number of its link. -/
theorem retallied_create {w : DirValue} {ds : List DeltaOp} (hD : D.dirEntries = db.dirEntries.put (toLex (p, n)) w)
    (he : db.entry p n = none) (hr : l.tx.dirReads = [(p, n, none)])
    (hkind : isDir w.mode = false ∧ ds = touchDeltas ts ∨
      isDir w.mode = true ∧ ds = .incrementNlink 1 :: touchDeltas ts)
    (hown : (numbersOf d l.tx.seqs).map (·.2) = if p = d then ds else []) :
    ∃ came', Retallied d db D l.tx came came' := by
  by_cases hp : p = d
  · subst hp
    rw [if_pos rfl] at hown
    rcases hkind with ⟨hw, rfl⟩ | ⟨hw, rfl⟩
    · refine ⟨came, .of_same (fun U => ?_) fun U => sumIn_links_eq_zero hown (links_touchDeltas ts) U⟩
      rw [Db.shown_of_put hD he fun _ _ _ => rfl, hit_shownBy_file hw, Nat.add_zero]
    · refine retallied_arrival (n := n) (o := none) ?_ hown fun q U => ?_
      · rw [hr]
        exact List.mem_cons_self
      · rw [Db.shown_of_put hD he fun k hk w => shownBy_update (some q) hk w, hit_shownBy_dir hw,
          Function.update_self]
        rfl
  · rw [if_neg hp] at hown
    refine ⟨came, .of_same (fun U => ?_) fun U => sumIn_links_eq_zero hown (by simp) U⟩
    rw [Db.shown_of_put hD he fun _ _ _ => rfl, hit_shownBy_ne hp, Nat.add_zero]

/-- A name of a file goes. -/
theorem retallied_unlink (hD : D.dirEntries = db.dirEntries.erase (toLex (p, n))) (he : db.entry p n = some v)
    (hd : isDir v.mode = false) (hown : (numbersOf d l.tx.seqs).map (·.2) = if p = d then touchDeltas ts else []) :
    Retallied d db D l.tx came came := by
  apply Retallied.of_same
  · intro U
    rw [← Db.shown_of_erase hD he, hit_shownBy_file hd, Nat.add_zero]
  · intro U
    apply sumIn_links_eq_zero hown
    intro δ hδ
    split at hδ
    · exact links_touchDeltas ts δ hδ
    · cases hδ

/-- An entry goes under a number above the one it came under. -/
theorem retallied_departure (hown : (numbersOf d l.tx.seqs).map (·.2) = .incrementNlink (-1) :: touchDeltas ts)
    (hcame : ∀ q, (q, .incrementNlink (-1)) ∈ numbersOf d l.tx.seqs → ∀ m, came n = some m → m < q)
    (hshown : ∀ U, D.shown d came U + (shows U (came n)).toNat = db.shown d came U) :
    Retallied d db D l.tx came came := by
  obtain ⟨q, rest, hq, hrest⟩ := exists_number hown
  have hmem : (q, .incrementNlink (-1)) ∈ numbersOf d l.tx.seqs := by
    rw [hq]
    exact List.mem_cons_self
  obtain ⟨hview, hall⟩ := departure_views hq hrest (hcame q hmem) hshown
  exact .of_kept hview hall

theorem retallied_rmdir (hD : D.dirEntries = db.dirEntries.erase (toLex (p, n))) (he : db.entry p n = some v)
    (hd : isDir v.mode = true) (hr : l.tx.dirReads = [(p, n, some v)]) (hdep : Departs d came l.tx)
    (hown : (numbersOf d l.tx.seqs).map (·.2) = if p = d then .incrementNlink (-1) :: touchDeltas ts else []) :
    Retallied d db D l.tx came came := by
  by_cases hp : p = d
  · subst hp
    rw [if_pos rfl] at hown
    refine retallied_departure (n := n) hown (fun q hmem => ?_) fun U => ?_
    · obtain ⟨m, w, hm, -, hlt⟩ := hdep q hmem
      rw [hr] at hm
      cases List.mem_singleton.1 hm
      exact hlt
    · rw [← Db.shown_of_erase hD he, hit_shownBy_dir hd]
  · rw [if_neg hp] at hown
    refine .of_same (fun U => ?_) fun U => sumIn_links_eq_zero hown (by simp) U
    rw [← Db.shown_of_erase hD he, hit_shownBy_ne hp, Nat.add_zero]

theorem links_rename_file {np : Inode} : ∀ δ ∈ deltasOf (renameDeltas p np false false ts) d, δ.links = 0 := by
  have htouch : ∀ x ∈ renameDeltas p np false false ts, x.2 = touchDeltas ts := by
    intro x hx
    by_cases h : p = np
    · simp [renameDeltas, h] at hx
      rw [hx]
      rfl
    · simp [renameDeltas, h] at hx
      rcases hx with rfl | rfl <;> rfl
  intro δ hδ
  obtain ⟨x, hx, hm⟩ := List.mem_flatMap.1 hδ
  split at hm
  · rw [htouch x hx] at hm
    exact links_touchDeltas ts δ hm
  · cases hm

section Rename

variable {p np : Inode} {n nn : Name} {v : DirValue} {srcIv : InodeValue} {vic : Victim} {ts : Nat}
  {dst : Option DirValue}

/-- A file that is moved, onto nothing or a file, counts nowhere. -/
theorem retallied_rename_file (hw : db.Wf next) (he : db.entry p n = some v) (hi : db.inode v.inode = some srcIv)
    (hv : VictimOf db (isDir srcIv.mode) ts (db.entry np nn) vic) (hne : ¬(p = np ∧ n = nn))
    (hfile : isDir srcIv.mode = false)
    (hown : (numbersOf d l.tx.seqs).map (·.2) = deltasOf (renameDeltas p np (isDir srcIv.mode) vic.wasDir ts) d) :
    Retallied d db (db.applyBatch (renameOps p n np nn v.inode srcIv (db.entry np nn) vic ts)) l.tx came came := by
  have hsrc : isDir v.mode = false := by rw [← hw.isDir_eq he hi, hfile]
  have hwas : vic.wasDir = false := by
    cases hwas : vic.wasDir with
    | false => rfl
    | true =>
        obtain ⟨_, -, -, hs⟩ := hv.wasDir_eq hwas
        rw [hfile] at hs
        cases hs
  have hdst : ∀ U, OrdMap.hit (shownBy d came U) (toLex (np, nn)) (db.entry np nn) = 0 := by
    intro U
    cases hd : db.entry np nn with
    | none => rfl
    | some w =>
        rw [hd] at hv
        exact hit_shownBy_file (hv.isDir_eq.1.trans hfile)
  rw [hfile, hwas] at hown
  apply Retallied.of_same
  · intro U
    have hshown := Db.shown_renameOps v.inode srcIv vic ts he hne d came came U fun _ _ _ => rfl
    rw [hdst, hit_shownBy_file hsrc, hit_shownBy_file hfile] at hshown
    omega
  · exact fun U => sumIn_links_eq_zero hown links_rename_file U

/-- A directory leaves `p`: its entry there goes under a number above the one it came under. -/
theorem retallied_rename_left (hw : db.Wf next) (he : db.entry p n = some v) (hi : db.inode v.inode = some srcIv)
    (hdir : isDir srcIv.mode = true) (hpn : p ≠ np)
    (hr : l.tx.dirReads = [(np, nn, db.entry np nn), (p, n, some v)]) (hdep : Departs p came l.tx)
    (hown : (numbersOf p l.tx.seqs).map (·.2) = deltasOf (renameDeltas p np (isDir srcIv.mode) vic.wasDir ts) p) :
    Retallied p db (db.applyBatch (renameOps p n np nn v.inode srcIv (db.entry np nn) vic ts)) l.tx came came := by
  have hsrc : isDir v.mode = true := by rw [← hw.isDir_eq he hi, hdir]
  have hne : ¬(p = np ∧ n = nn) := fun e => hpn e.1
  have hshown : ∀ U, (db.applyBatch (renameOps p n np nn v.inode srcIv (db.entry np nn) vic ts)).shown p came U +
      (shows U (came n)).toNat = db.shown p came U := by
    intro U
    have h := Db.shown_renameOps v.inode srcIv vic ts he hne p came came U fun _ _ _ => rfl
    rw [hit_shownBy_ne (Ne.symm hpn), hit_shownBy_ne (Ne.symm hpn), hit_shownBy_dir hsrc] at h
    exact h
  rw [deltasOf_rename_left hpn, hdir, if_pos rfl] at hown
  refine retallied_departure hown (fun q hmem => ?_) hshown
  obtain ⟨m, w, hm, -, hlt⟩ := hdep q hmem
  rw [hr] at hm
  rcases List.mem_cons.1 hm with e | hm
  · exact absurd (congrArg Prod.fst e) hpn
  · cases List.mem_singleton.1 hm
    exact hlt

/-- What a rename of a directory into `np`, where it gets number `x`, does to a view of `np`. -/
theorem shown_rename_dir (vic : Victim) (ts : Nat) (he : db.entry p n = some v) (hdir : isDir srcIv.mode = true)
    (hne : ¬(p = np ∧ n = nn)) (came : Name → Option Nat) (x : Option Nat) (U : Nat → Bool) :
    (db.applyBatch (renameOps p n np nn v.inode srcIv (db.entry np nn) vic ts)).shown np
          (Function.update came nn x) U +
        OrdMap.hit (shownBy np came U) (toLex (np, nn)) (db.entry np nn) +
        OrdMap.hit (shownBy np came U) (toLex (p, n)) (some v) =
      db.shown np came U + (shows U x).toNat := by
  have h := Db.shown_renameOps v.inode srcIv vic ts he hne np came (Function.update came nn x) U
    fun k hk w => shownBy_update x hk w
  have hnew : OrdMap.hit (shownBy np (Function.update came nn x) U) (toLex (np, nn)) (some ⟨v.inode, srcIv.mode⟩) =
      (shows U x).toNat := by
    rw [hit_shownBy_dir hdir, Function.update_self]
  rw [hnew] at h
  exact h

/-- A directory that is moved replaces a directory, or nothing. -/
theorem wasDir_of_dir (hv : VictimOf db true ts dst vic) :
    vic.wasDir = dst.isSome ∧ ∀ w, dst = some w → isDir w.mode = true := by
  cases hv with
  | none => simp
  | dir hd hs => simpa using hd
  | keep hd hs => cases hs
  | drop hd hs => cases hs

/-- A directory enters `d`: its entry comes under the number of its link, and the one it replaces goes. -/
theorem retallied_entered (hread : (d, nn, dst) ∈ l.tx.dirReads)
    (hdst : ∀ w, dst = some w → isDir w.mode = true)
    (hcame : ∀ q, (q, .incrementNlink (-1)) ∈ numbersOf d l.tx.seqs → ∀ m, came nn = some m → m < q)
    (hown : (numbersOf d l.tx.seqs).map (·.2) =
      (if dst.isSome then [.incrementNlink (-1)] else []) ++ [.incrementNlink 1] ++ touchDeltas ts)
    (hshown : ∀ x U, D.shown d (Function.update came nn x) U +
      OrdMap.hit (shownBy d came U) (toLex (d, nn)) dst = db.shown d came U + (shows U x).toNat) :
    ∃ came', Retallied d db D l.tx came came' := by
  cases dst with
  | none => exact retallied_arrival hread hown fun q U => hshown (some q) U
  | some w =>
      have hplus : DeltaOp.links (.incrementNlink 1) = 1 := rfl
      have hminus : DeltaOp.links (.incrementNlink (-1)) = -1 := rfl
      obtain ⟨q', rest', hq', hrest'⟩ := exists_number hown
      obtain ⟨q, rest, hq, hrest⟩ := exists_number hrest'
      have hmem : (q', .incrementNlink (-1)) ∈ numbersOf d l.tx.seqs := by
        rw [hq']
        exact List.mem_cons_self
      have hsum : ∀ U, sumIn DeltaOp.links U (numbersOf d l.tx.seqs) = (U q).toNat - (U q').toNat := by
        intro U
        rw [sumIn_number hq', sumIn_number hq, sumIn_links_eq_zero hrest (links_touchDeltas ts), hplus, hminus]
        omega
      have hs : ∀ U, D.shown d (Function.update came nn (some q)) U + (shows U (came nn)).toNat =
          db.shown d came U + (U q).toNat := by
        intro U
        have hs := hshown (some q) U
        rw [hit_shownBy_dir (hdst w rfl)] at hs
        exact hs
      refine ⟨Function.update came nn (some q), .of_update hread (fun m hm => ?_) (fun U hU => ?_) ?_⟩
      · cases hm
        exact Or.inr ⟨_, by rw [hq', hq]; exact List.mem_cons_of_mem _ List.mem_cons_self⟩
      · have hle := toNat_le_shows (hcame q' hmem) (hU q' hmem)
        have hone := hs U
        rw [hsum]
        omega
      · have hone := hs fun _ => true
        rw [shows_all] at hone
        rw [hsum]
        omega

/-- A directory stays in `d` under another name.  Of two entries of which one goes, the one that stays has the number
of the other, if the link is taken for that. -/
theorem retallied_stayed (hread : (d, nn, dst) ∈ l.tx.dirReads)
    (hdst : ∀ w, dst = some w → isDir w.mode = true) (hcame : ∀ q, (q, .incrementNlink (-1)) ∈ numbersOf d l.tx.seqs →
      (∀ m, came nn = some m → m < q) ∨ ∀ m, came n = some m → m < q) (hown : (numbersOf d l.tx.seqs).map (·.2) =
      (if dst.isSome then [.incrementNlink (-1)] else []) ++ touchDeltas ts)
    (hshown : ∀ x U, D.shown d (Function.update came nn x) U +
      OrdMap.hit (shownBy d came U) (toLex (d, nn)) dst + (shows U (came n)).toNat =
      db.shown d came U + (shows U x).toNat) : ∃ came', Retallied d db D l.tx came came' := by
  cases dst with
  | none =>
      have hsum := sumIn_links_eq_zero hown (links_touchDeltas ts)
      have hview : ∀ U, (D.shown d (Function.update came nn (came n)) U : Int) =
          db.shown d came U + sumIn DeltaOp.links U (numbersOf d l.tx.seqs) := by
        intro U
        have hs := hshown (came n) U
        rw [OrdMap.hit_none] at hs
        rw [hsum]
        omega
      exact ⟨Function.update came nn (came n), .of_update hread (fun q hq => Or.inl ⟨n, hq⟩)
        (fun U _ => le_of_eq (hview U)) (hview _)⟩
  | some w =>
      obtain ⟨q, rest, hq, hrest⟩ := exists_number hown
      have hmem : (q, .incrementNlink (-1)) ∈ numbersOf d l.tx.seqs := by
        rw [hq]
        exact List.mem_cons_self
      have hs : ∀ x U, D.shown d (Function.update came nn x) U + (shows U (came nn)).toNat +
          (shows U (came n)).toNat = db.shown d came U + (shows U x).toNat := by
        intro x U
        have hs := hshown x U
        rw [hit_shownBy_dir (hdst w rfl)] at hs
        exact hs
      rcases hcame q hmem with hlt | hlt
      · have hone : ∀ U, D.shown d (Function.update came nn (came n)) U + (shows U (came nn)).toNat =
            db.shown d came U := by
          intro U
          have hn := hs (came n) U
          omega
        obtain ⟨hview, hall⟩ := departure_views hq hrest hlt hone
        exact ⟨_, .of_update hread (fun q hq => Or.inl ⟨n, hq⟩) hview hall⟩
      · have hone : ∀ U, D.shown d (Function.update came nn (came nn)) U + (shows U (came n)).toNat =
            db.shown d came U := by
          intro U
          have hnn := hs (came nn) U
          omega
        obtain ⟨hview, hall⟩ := departure_views hq hrest hlt hone
        exact ⟨_, .of_update hread (fun q hq => Or.inl ⟨nn, hq⟩) hview hall⟩

theorem retallied_rename (hw : db.Wf next) (he : db.entry p n = some v) (hi : db.inode v.inode = some srcIv)
    (hv : VictimOf db (isDir srcIv.mode) ts (db.entry np nn) vic) (hne : ¬(p = np ∧ n = nn))
    (hr : l.tx.dirReads = [(np, nn, db.entry np nn), (p, n, some v)]) (hdep : Departs d came l.tx)
    (hown : (numbersOf d l.tx.seqs).map (·.2) = deltasOf (renameDeltas p np (isDir srcIv.mode) vic.wasDir ts) d) :
    ∃ came', Retallied d db (db.applyBatch (renameOps p n np nn v.inode srcIv (db.entry np nn) vic ts)) l.tx
      came came' := by
  cases hdir : isDir srcIv.mode with
  | false => exact ⟨came, retallied_rename_file hw he hi hv hne hdir hown⟩
  | true =>
      have hsrc : isDir v.mode = true := by rw [← hw.isDir_eq he hi, hdir]
      have hread : (np, nn, db.entry np nn) ∈ l.tx.dirReads := by
        rw [hr]
        exact List.mem_cons_self
      obtain ⟨hwas, hdst⟩ := wasDir_of_dir (hdir ▸ hv)
      by_cases hnp : np = d
      · subst hnp
        by_cases hpn : p = np
        · subst hpn
          rw [hdir, deltasOf_rename_within, if_pos rfl, hwas] at hown
          refine retallied_stayed (n := n) hread hdst (fun q hq => ?_) hown fun x U => ?_
          · obtain ⟨m, w, hm, -, hlt⟩ := hdep q hq
            rw [hr] at hm
            rcases List.mem_cons.1 hm with e | hm
            · have hname : m = nn := congrArg (fun x => x.2.1) e
              exact Or.inl (hname ▸ hlt)
            · cases List.mem_singleton.1 hm
              exact Or.inr hlt
          · have h := shown_rename_dir vic ts he hdir hne came x U
            rw [hit_shownBy_dir hsrc] at h
            exact h
        · rw [hdir, deltasOf_rename_entered hpn, hwas, if_pos rfl] at hown
          refine retallied_entered hread hdst (fun q hq => ?_) hown fun x U => ?_
          · obtain ⟨m, w, hm, -, hlt⟩ := hdep q hq
            rw [hr] at hm
            rcases List.mem_cons.1 hm with e | hm
            · have hname : m = nn := congrArg (fun x => x.2.1) e
              exact hname ▸ hlt
            · cases List.mem_singleton.1 hm
              exact absurd rfl hpn
          · have h := shown_rename_dir vic ts he hdir hne came x U
            rw [hit_shownBy_ne hpn (some v)] at h
            exact h
      · by_cases hp : p = d
        · subst hp
          exact ⟨came, retallied_rename_left hw he hi hdir (Ne.symm hnp) hr hdep hown⟩
        · rw [deltasOf_rename_other (Ne.symm hp) (Ne.symm hnp)] at hown
          refine ⟨came, .of_same (fun U => ?_) fun U => sumIn_links_eq_zero hown (by simp) U⟩
          have h := Db.shown_renameOps v.inode srcIv vic ts he hne d came came U fun _ _ _ => rfl
          rw [hit_shownBy_ne hnp, hit_shownBy_ne hnp, hit_shownBy_ne hp] at h
          exact h

end Rename

/-- **Every commit moves the subdirectories that a view shows by no more than the deltas it shows**, and all of them by
all of its deltas. -/
theorem retallied (h : Writes db l c main dss) (hw : db.Wf next) (hdistinct : c.DistinctRead l.tx)
    (hdep : Departs d came l.tx) (hown : (numbersOf d l.tx.seqs).map (·.2) = deltasOf dss d) :
    ∃ came', Retallied d db (db.applyBatch main) l.tx came came' := by
  have hsame : dss = [] → (db.applyBatch main).dirEntries = db.dirEntries →
      Retallied d db (db.applyBatch main) l.tx came came := by
    rintro rfl hD
    exact .of_same (fun U => Db.shown_congr hD) fun U => sumIn_links_eq_zero hown (by simp [deltasOf]) U
  cases h with
  | @create c p n i iv extra ds ts hc hnl he hi hx hkind hr =>
      rw [deltasOf_singleton] at hown
      have hkind' : isDir iv.mode = false ∧ ds = touchDeltas ts ∨
          isDir iv.mode = true ∧ ds = .incrementNlink 1 :: touchDeltas ts := by
        rcases hkind with ⟨hd, -, hds⟩ | ⟨hd, -, hds⟩
        · exact Or.inl ⟨hd, hds⟩
        · exact Or.inr ⟨hd, hds⟩
      exact retallied_create (Change.dirEntries_create fun op ho => (hx op ho).side) he hr hkind' hown
  | @link p n t iv ts ts' hi hd he hp hlock hr =>
      rw [deltasOf_singleton] at hown
      exact retallied_create (w := ⟨t, iv.mode⟩) rfl he hr (Or.inl ⟨hd, rfl⟩) hown
  | @unlinkKeep p n v iv ts ts' he hd hi hr =>
      rw [deltasOf_singleton] at hown
      exact ⟨came, retallied_unlink rfl he hd hown⟩
  | @unlinkDrop p n v iv ts he hd hi hz hr =>
      rw [deltasOf_singleton] at hown
      exact ⟨came, retallied_unlink rfl he hd hown⟩
  | @rmdir p n v iv ts he hd hi hemp hne hr =>
      rw [deltasOf_singleton] at hown
      exact ⟨came, retallied_rmdir rfl he hd hr hdep hown⟩
  | @rename p n np nn v srcIv vic ts he hi hvic hemp hr =>
      refine retallied_rename hw he hi hvic ?_ hr hdep hown
      rintro ⟨rfl, rfl⟩
      have hmem : (p, n, some v) ∈ l.tx.dirReads := by
        rw [hr]
        exact List.mem_cons_of_mem _ List.mem_cons_self
      exact hdistinct v v hmem hmem rfl
  | rewrite hc hi ht hl hr => exact ⟨came, hsame rfl rfl⟩
  | drop hf hr => exact ⟨came, hsame rfl rfl⟩
  | compact hi hs hk hr => exact ⟨came, hsame rfl (folds_compaction hi (foldDeltas_mode _ _)).dirEntries⟩

/-! ### Directories that come and go -/

/-- A directory of the tree was one before, or is new and has two links. -/
theorem live_cases (h : Writes db l c main dss) (hw : db.Wf next) (hd : (db.applyBatch main).LiveDir d) :
    db.LiveDir d ∨ d ∈ l.tx.allocated ∧ ∃ iv, (db.applyBatch main).inode d = some iv ∧ iv.nlink = 2 := by
  rcases hd with rfl | ⟨p, n, v, he, rfl, hdir⟩
  · exact Or.inl (Or.inl rfl)
  rcases h.entry_cases he with hold | henters
  · exact Or.inl (Or.inr ⟨p, n, v, hold, rfl, hdir⟩)
  · cases henters with
    | created _ _ hnew hi hm hl => exact Or.inr ⟨hnew, _, hi, hl (hm ▸ hdir)⟩
    | linked _ _ _ _ hfile =>
        rw [hfile] at hdir
        cases hdir
    | @moved q m w iv _ _ hq hwi hi hm =>
        exact Or.inl (Or.inr ⟨q, m, w, hq, hwi, by rw [← hw.isDir_eq hq (hwi ▸ hi), ← hm, hdir]⟩)

/-- After the only entry of a directory is gone, the directory is not one of the tree. -/
theorem not_live_of_erase (hw : db.Wf next) (hD : D.dirEntries = db.dirEntries.erase (toLex (p, n)))
    (he : db.entry p n = some v) (hd : isDir v.mode = true) : ¬D.LiveDir v.inode := by
  rintro (hroot | ⟨q, m, w, hq, hi, -⟩)
  · exact hw.entry_ne_root he hroot
  · obtain ⟨hk, hq⟩ := Db.entry_some_of_erase hD hq
    have hkey := hw.dir_unique he hq hi.symm hd
    exact hk ⟨hkey.1.symm, hkey.2.symm⟩

/-- What is a directory by its record is none by its entry. -/
theorem ne_of_file (hw : db.Wf next) {q : Inode} {iv : InodeValue} (he : db.entry p n = some v)
    (hd : isDir v.mode = false) (hi : db.inode q = some iv) (hdir : isDir iv.mode = true) : q ≠ v.inode := by
  rintro rfl
  rw [hw.isDir_eq he hi, hd] at hdir
  cases hdir

/-- A directory keeps its links in all commits but its own compaction, as long as it stays in the tree. -/
theorem dir_links (h : Writes db l c main dss) (hv : l.tx.Valid db next) (hw : db.Wf next)
    (hfiles : ∀ i ∈ l.files, ¬db.IsDirectory i) {q : Inode} {iv : InodeValue} (hi : db.inode q = some iv)
    (hdir : isDir iv.mode = true) (hlive : (db.applyBatch main).LiveDir q) :
    ∃ iv', (db.applyBatch main).inode q = some iv' ∧ (iv'.nlink = iv.nlink ∨ c = .forceCompactInode q) := by
  have hkeep : ∀ {D : Db}, D.inode q = db.inode q →
      ∃ iv', D.inode q = some iv' ∧ (iv'.nlink = iv.nlink ∨ c = .forceCompactInode q) :=
    fun hD => ⟨iv, hD.trans hi, Or.inl rfl⟩
  cases h with
  | @create c p n i jv extra ds ts hc hnl he hnew hx hkind hr =>
      have hne : q ≠ i := by
        rintro rfl
        rw [(hv.fresh hnew).1] at hi
        cases hi
      exact hkeep (by rw [Change.inode_create fun op ho => (hx op ho).side, if_neg hne])
  | @link p n t jv ts ts' hj hd he hp hlock hr =>
      have hne : q ≠ t := by
        rintro rfl
        rw [hi] at hj
        cases hj
        rw [hdir] at hd
        cases hd
      exact hkeep (by rw [Change.inode_link, if_neg hne])
  | @unlinkKeep p n v jv ts ts' he hd hj hr =>
      exact hkeep (by rw [Change.inode_unlinkKeep, if_neg (ne_of_file hw he hd hi hdir)])
  | @unlinkDrop p n v jv ts he hd hj hz hr =>
      exact hkeep (by rw [Change.inode_unlinkDrop, if_neg (ne_of_file hw he hd hi hdir)])
  | @rmdir p n v jv ts he hd hj hemp hne hr =>
      have hother : q ≠ v.inode := by
        rintro rfl
        exact not_live_of_erase hw rfl he hd hlive
      exact hkeep (by rw [Change.inode_rmdir, if_neg hother])
  | @rename p n np nn v srcIv vic ts he hs hvic hemp hr =>
      by_cases hsrc : q = v.inode
      · subst hsrc
        rw [hs] at hi
        cases hi
        exact ⟨{ iv with ctime := ts }, by rw [inode_renameOps hvic]; exact if_pos rfl, Or.inl rfl⟩
      · refine hkeep ?_
        rw [inode_renameOps hvic]
        unfold Victim.records
        rw [if_neg hsrc, if_neg fun hdel => ?_]
        · split
          · rename_i k hk
            obtain ⟨w, wiv, hdst, hfile, -, -, -, rfl⟩ := hvic.keep_eq hk
            exact if_neg (ne_of_file hw hdst hfile hi hdir)
          · rfl
        · obtain ⟨w, wiv, hdst, rfl, hfile, -⟩ := hvic.delete_eq hdel
          exact ne_of_file hw hdst hfile hi hdir rfl
  | @rewrite c i jv jv' hc hj ht hl hr =>
      rw [Change.inode_rewrite]
      by_cases e : q = i
      · subst e
        rw [hi] at hj
        cases hj
        exact ⟨jv', if_pos rfl, Or.inl hl⟩
      · exact ⟨iv, by rw [if_neg e, hi], Or.inl rfl⟩
  | @drop i hf hr =>
      have hne : q ≠ i := by
        rintro rfl
        exact hfiles q hf ⟨iv, hi, hdir⟩
      exact hkeep (by rw [Change.inode_drop, if_neg hne])
  | @compact i base ks hb hs hk hr =>
      rw [inode_compaction]
      by_cases e : q = i
      · exact ⟨_, if_pos e, Or.inr (e ▸ rfl)⟩
      · exact ⟨iv, by rw [if_neg e, hi], Or.inl rfl⟩

/-- Entries of directories have records after the commit. -/
theorem dirsBacked (h : Writes db l c main dss) (hv : l.tx.Valid db next) (hw : db.Wf next)
    (hfiles : ∀ i ∈ l.files, ¬db.IsDirectory i) (hb : db.DirsBacked) : (db.applyBatch main).DirsBacked := by
  intro p n v he hd
  have hlive : (db.applyBatch main).LiveDir v.inode := Or.inr ⟨p, n, v, he, rfl, hd⟩
  rcases h.live_cases hw hlive with hold | ⟨-, iv, hi, -⟩
  · obtain ⟨iv, hi, hdir⟩ := hold.isDirectory hb hw
    obtain ⟨iv', hi', -⟩ := h.dir_links hv hw hfiles hi hdir hlive
    exact ⟨iv', hi'⟩
  · exact ⟨iv, hi⟩

/-- An entry that was read and whose inode the batch does not put back. -/
theorem exists_of_retiring {tx : Txn} {i : Inode} (h : i ∈ tx.retiring) :
    (∃ p n v, (p, n, some v) ∈ tx.dirReads ∧ v.inode = i) ∧
      ∀ p n v, .putDirEntry p n v ∈ tx.batch → v.inode ≠ i := by
  obtain ⟨hread, hputs⟩ := List.mem_filter.1 h
  obtain ⟨⟨p, n, o⟩, hr, ho⟩ := List.mem_filterMap.1 hread
  obtain ⟨v, rfl, hi⟩ := Option.map_eq_some_iff.1 ho
  refine ⟨⟨p, n, v, hr, hi⟩, fun q m w hw e => ?_⟩
  have hany : tx.putsName i = true := by
    unfold Txn.putsName
    rw [List.any_eq_true]
    exact ⟨_, hw, by simpa using e⟩
  rw [hany] at hputs
  cases hputs

/-- What a commit retires is no directory of the tree after it. -/
theorem not_live_retiring (h : Writes db l c main dss) (hw : db.Wf next) {rest : List BatchOp}
    (hbatch : l.tx.batch = main ++ rest) {i : Inode} (hi : i ∈ l.tx.retiring) : ¬(db.applyBatch main).LiveDir i := by
  obtain ⟨⟨p, n, v, hread, rfl⟩, hputs⟩ := exists_of_retiring hi
  -- a file has no entry that says it is a directory
  have hfile : ∀ {D : Db} {jv : InodeValue}, (∀ {q m w}, D.entry q m = some w → db.entry q m = some w ∨ w.inode ≠ v.inode) →
      v.inode ≠ ROOT_INODE → isDir v.mode = false → db.inode v.inode = some jv → db.entry p n = some v →
      ¬D.LiveDir v.inode := by
    rintro D jv hD hroot hd hj he (hr | ⟨q, m, w, hq, hwi, hwd⟩)
    · exact hroot hr
    · rcases hD hq with hq | hne
      · have hdir : isDir jv.mode = true := by rw [hw.isDir_eq hq (hwi ▸ hj), hwd]
        rw [hw.isDir_eq he hj, hd] at hdir
        cases hdir
      · exact hne hwi
  cases h with
  | create hc hnl he hi hx hkind hr =>
      rw [hr] at hread
      cases List.mem_singleton.1 hread
  | link hi hd he hp hlock hr =>
      rw [hr] at hread
      cases List.mem_singleton.1 hread
  | @unlinkKeep q m w iv ts ts' he hd hi hr =>
      rw [hr] at hread
      cases List.mem_singleton.1 hread
      exact hfile (fun hq => Or.inl (Db.entry_some_of_erase (p := p) (n := n) rfl hq).2) (hw.entry_ne_root he) hd hi he
  | @unlinkDrop q m w iv ts he hd hi hz hr =>
      rw [hr] at hread
      cases List.mem_singleton.1 hread
      exact hfile (fun hq => Or.inl (Db.entry_some_of_erase (p := p) (n := n) rfl hq).2) (hw.entry_ne_root he) hd hi he
  | @rmdir q m w iv ts he hd hi hemp hne hr =>
      rw [hr] at hread
      cases List.mem_singleton.1 hread
      exact not_live_of_erase hw rfl he hd
  | @rename q m nq nm w srcIv vic ts he hi hvic hemp hr =>
      have hput : .putDirEntry nq nm ⟨w.inode, srcIv.mode⟩ ∈ l.tx.batch := by
        rw [hbatch]
        simp [renameOps]
      have hsrc : w.inode ≠ v.inode := hputs nq nm ⟨w.inode, srcIv.mode⟩ hput
      rw [hr] at hread
      rcases List.mem_cons.1 hread with e | hread
      · obtain ⟨rfl, rfl⟩ : p = nq ∧ n = nm := ⟨congrArg (·.1) e, congrArg (·.2.1) e⟩
        have hdst : db.entry p n = some v := (congrArg (·.2.2) e).symm
        have hroot := hw.entry_ne_root hdst
        -- the other entries are as before, and the new one names the source
        have hold : ∀ {a b u}, (db.applyBatch (renameOps q m p n w.inode srcIv (db.entry p n) vic ts)).entry a b =
            some u → (¬(a = p ∧ b = n) ∧ db.entry a b = some u) ∨ u.inode ≠ v.inode := by
          intro a b u hu
          rcases entry_some_renameOps hu with ⟨-, -, rfl⟩ | ⟨hk, -, hu⟩
          · exact Or.inr hsrc
          · exact Or.inl ⟨hk, hu⟩
        cases hd : isDir v.mode with
        | true =>
            rintro (hr | ⟨a, b, u, hu, hui, -⟩)
            · exact hroot hr
            · rcases hold hu with ⟨hk, hu⟩ | hne
              · have hkey := hw.dir_unique hdst hu hui.symm hd
                exact hk ⟨hkey.1.symm, hkey.2.symm⟩
              · exact hne hui
        | false =>
            rw [hdst] at hvic
            rcases hvic.wasDir_or_file with hwas | ⟨-, jv, hj⟩
            · obtain ⟨u, hu, hud, -⟩ := hvic.wasDir_eq hwas
              cases hu
              rw [hd] at hud
              cases hud
            · exact hfile (fun hu => (hold hu).imp And.right id) hroot hd hj hdst
      · cases List.mem_singleton.1 hread
        exact absurd rfl hsrc
  | rewrite hc hi ht hl hr =>
      rw [hr] at hread
      cases hread
  | drop hf hr =>
      rw [hr] at hread
      cases hread
  | compact hi hs hk hr =>
      rw [hr] at hread
      cases hread

end Writes

end RucksFs
