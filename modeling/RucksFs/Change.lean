import RucksFs.Db

/-!
# The changes a commit can make

`Change db next fresh ops` lists the batches the operations commit, each with what the transaction
knows about the rows it has read: one constructor per kind of commit.  Every invariant of the
namespace is proved once over these constructors and then holds both for calls that run alone
and for interleaved transactions.

* `Db.Wf` — the part of the namespace's shape that no operation breaks: numbers below the
  allocator's counter, entry and record of one type, directories named at most once, an unnamed
  root.
* `Change.wf` — every change keeps it.
-/

set_option autoImplicit false

namespace RucksFs

namespace BatchOp

/-- Operations on data locations, symlink targets and deltas only. -/
def IsSide : BatchOp → Prop
  | .putInode _ _ | .deleteInode _ | .putDirEntry _ _ _ | .deleteDirEntry _ _ => False
  | _ => True

/-- Operations on deltas only. -/
def IsDelta : BatchOp → Prop
  | .putDelta _ _ _ | .deleteDelta _ _ => True
  | _ => False

theorem IsDelta.side {op : BatchOp} (h : op.IsDelta) : op.IsSide := by
  cases op <;> trivial

/-- What a creation stores besides the record and the entry. -/
def IsPayload : BatchOp → Prop
  | .putDataLocation _ _ | .putSymlink _ _ => True
  | _ => False

theorem IsPayload.side {op : BatchOp} (h : op.IsPayload) : op.IsSide := by
  cases op <;> trivial

/-- The operation takes the record or the data location of `j` away. -/
def Removes (j : Inode) : BatchOp → Prop
  | .deleteInode i | .deleteDataLocation i => i = j
  | _ => False

theorem not_removes_creation {i p j : Inode} {n : Name} {iv : InodeValue} {v : DirValue}
    {extra : List BatchOp} (hx : ∀ op ∈ extra, op.IsPayload) :
    ∀ op ∈ .putInode i iv :: .putDirEntry p n v :: extra, ¬op.Removes j := by
  intro op ho hrem
  rcases List.mem_cons.1 ho with rfl | ho
  · exact hrem
  · rcases List.mem_cons.1 ho with rfl | ho
    · exact hrem
    · have hp := hx op ho
      cases op <;> first | exact hrem | exact hp

theorem not_isDelta_creation {i p : Inode} {n : Name} {iv : InodeValue} {v : DirValue}
    {extra : List BatchOp} (hx : ∀ op ∈ extra, op.IsPayload) :
    ∀ op ∈ .putInode i iv :: .putDirEntry p n v :: extra, ¬op.IsDelta := by
  intro op ho
  rcases List.mem_cons.1 ho with rfl | ho
  · exact id
  · rcases List.mem_cons.1 ho with rfl | ho
    · exact id
    · have hop := hx op ho
      cases op <;> first | exact id | cases hop

end BatchOp

namespace Db

variable {db D : Db} {p : Inode} {n : Name} {v : DirValue} {ops : List BatchOp}

theorem dataLocations_applyBatch (db : Db) (h : ∀ op ∈ ops, op.IsDelta) :
    (db.applyBatch ops).dataLocations = db.dataLocations := by
  induction ops generalizing db with
  | nil => rfl
  | cons op ops ih =>
      have hop := h op List.mem_cons_self
      rw [applyBatch_cons, ih (db.applyOp op) fun o ho => h o (List.mem_cons_of_mem _ ho)]
      cases op <;> first | rfl | cases hop

theorem applyBatch_side (db : Db) (h : ∀ op ∈ ops, op.IsSide) :
    (db.applyBatch ops).inodes = db.inodes ∧ (db.applyBatch ops).dirEntries = db.dirEntries := by
  induction ops generalizing db with
  | nil => exact ⟨rfl, rfl⟩
  | cons op ops ih =>
      have hop := h op List.mem_cons_self
      obtain ⟨hi, he⟩ := ih (db.applyOp op) fun o ho => h o (List.mem_cons_of_mem _ ho)
      rw [applyBatch_cons, hi, he]
      cases op <;> first | exact ⟨rfl, rfl⟩ | cases hop

/-- Without a deletion the record and the data location of an inode stay. -/
theorem isSome_applyBatch (db : Db) {j : Inode} (h : ∀ op ∈ ops, ¬op.Removes j) :
    ((db.inode j).isSome = true → ((db.applyBatch ops).inode j).isSome = true) ∧
    ((db.dataLocations.get j).isSome = true →
      ((db.applyBatch ops).dataLocations.get j).isSome = true) := by
  induction ops generalizing db with
  | nil => exact ⟨id, id⟩
  | cons op ops ih =>
      have hop := h op List.mem_cons_self
      obtain ⟨hi, hl⟩ := ih (db.applyOp op) fun o ho => h o (List.mem_cons_of_mem _ ho)
      rw [applyBatch_cons]
      refine ⟨fun hs => hi ?_, fun hs => hl ?_⟩
      · rw [inode_applyOp]
        cases op with
        | putInode i v =>
            dsimp only
            split
            · rfl
            · exact hs
        | deleteInode i =>
            dsimp only
            rw [if_neg fun e => hop e.symm]
            exact hs
        | _ => exact hs
      · cases op with
        | putDataLocation i v =>
            unfold applyOp
            dsimp only
            rw [OrdMap.get_put]
            split
            · rfl
            · exact hs
        | deleteDataLocation i =>
            unfold applyOp
            dsimp only
            rw [OrdMap.get_erase, if_neg fun e => hop e.symm]
            exact hs
        | _ => exact hs

/-- Whether an optional entry names `i`. -/
def nameHit (i : Inode) : Option DirValue → Nat
  | some v => if v.inode = i then 1 else 0
  | none => 0

@[simp] theorem nameHit_none (i : Inode) : nameHit i none = 0 := rfl

@[simp] theorem nameHit_some (i : Inode) (v : DirValue) :
    nameHit i (some v) = if v.inode = i then 1 else 0 := rfl

theorem names_putDirEntry (db : Db) (p : Inode) (n : Name) (v : DirValue) (i : Inode) :
    (db.applyOp (.putDirEntry p n v)).names i + nameHit i (db.entry p n) =
      db.names i + nameHit i (some v) := by
  have h := OrdMap.count_put (fun _ w => w.inode == i) db.dirEntries (toLex (p, n)) v
  unfold names entry nameHit applyOp
  cases hk : db.dirEntries.get (toLex (p, n)) <;> simpa [hk] using h

theorem names_deleteDirEntry (db : Db) (p : Inode) (n : Name) (i : Inode) :
    (db.applyOp (.deleteDirEntry p n)).names i + nameHit i (db.entry p n) = db.names i := by
  have h := OrdMap.count_erase (fun _ w => w.inode == i) db.dirEntries (toLex (p, n))
  unfold names entry nameHit applyOp
  cases hk : db.dirEntries.get (toLex (p, n)) <;> simpa [hk] using h

theorem names_eq_of_dirEntries {a b : Db} (h : a.dirEntries = b.dirEntries) (i : Inode) :
    a.names i = b.names i := by
  unfold names
  rw [h]

theorem names_of_put (h : D.dirEntries = db.dirEntries.put (toLex (p, n)) v) (he : db.entry p n = none) (i : Inode) :
    D.names i = db.names i + nameHit i (some v) := by
  have hput := names_putDirEntry db p n v i
  rw [he, nameHit_none, Nat.add_zero] at hput
  rw [← hput]
  exact names_eq_of_dirEntries h i

theorem names_of_erase (h : D.dirEntries = db.dirEntries.erase (toLex (p, n))) (i : Inode) :
    D.names i + nameHit i (db.entry p n) = db.names i := by
  rw [← names_deleteDirEntry db p n i]
  exact congrArg (· + _) (names_eq_of_dirEntries h i)

theorem names_of_unbind (h : D.dirEntries = db.dirEntries.erase (toLex (p, n))) (he : db.entry p n = some v)
    (i : Inode) : D.names i + (if v.inode = i then 1 else 0) = db.names i := by
  have herase := names_of_erase h i
  rwa [he] at herase

theorem names_of_unbind_self (h : D.dirEntries = db.dirEntries.erase (toLex (p, n))) (he : db.entry p n = some v) :
    D.names v.inode + 1 = db.names v.inode := by
  rw [← names_of_unbind h he v.inode, if_pos rfl]

theorem names_of_unbind_ne (h : D.dirEntries = db.dirEntries.erase (toLex (p, n))) (he : db.entry p n = some v)
    {i : Inode} (hi : i ≠ v.inode) : D.names i = db.names i := by
  rw [← names_of_unbind h he i, if_neg hi.symm, Nat.add_zero]

theorem entry_of_put (h : D.dirEntries = db.dirEntries.put (toLex (p, n)) v) (a : Inode) (b : Name) :
    D.entry a b = if a = p ∧ b = n then some v else db.entry a b := by
  refine Eq.trans ?_ (entry_applyOp db (.putDirEntry p n v) a b)
  unfold entry
  rw [h]
  rfl

theorem entry_of_erase (h : D.dirEntries = db.dirEntries.erase (toLex (p, n))) (a : Inode) (b : Name) :
    D.entry a b = if a = p ∧ b = n then none else db.entry a b := by
  refine Eq.trans ?_ (entry_applyOp db (.deleteDirEntry p n) a b)
  unfold entry
  rw [h]
  rfl

/-- An entry is the one that was put, or was there. -/
theorem entry_some_of_put (h : D.dirEntries = db.dirEntries.put (toLex (p, n)) v) {a : Inode} {b : Name}
    {w : DirValue} (he : D.entry a b = some w) : (a = p ∧ b = n ∧ w = v) ∨ db.entry a b = some w := by
  rw [entry_of_put h] at he
  split at he
  · rename_i e
    exact Or.inl ⟨e.1, e.2, (Option.some.inj he).symm⟩
  · exact Or.inr he

/-- An entry that is there after a removal was there, under another key. -/
theorem entry_some_of_erase (h : D.dirEntries = db.dirEntries.erase (toLex (p, n))) {a : Inode} {b : Name}
    {w : DirValue} (he : D.entry a b = some w) : ¬(a = p ∧ b = n) ∧ db.entry a b = some w := by
  rw [entry_of_erase h] at he
  split at he
  · cases he
  · rename_i e
    exact ⟨e, he⟩

end Db

/-! ## Rename -/

/-- What `rename` does about an existing destination. -/
structure Victim where
  /-- The inode whose record goes. -/
  delete : Option Inode := none
  wasDir : Bool := false
  /-- The decremented record of a destination that has other names. -/
  keep : Option (Inode × InodeValue) := none

def Victim.ops (vic : Victim) : List BatchOp :=
  match vic.keep with
  | some k => [.putInode k.1 k.2]
  | none => []

/-- The operations that take the destination's entry, and with `delete` its record, away. -/
def removeDstOps (np : Inode) (nn : Name) (delete : Option Inode) : Option DirValue → List BatchOp
  | some d => .deleteDirEntry np nn ::
      (if delete.isSome then [.deleteInode d.inode, .deleteDataLocation d.inode] else [])
  | none => []

/-- The treatment of the destination that the rows read by `rename` lead to.  Whether a replaced
directory is still empty at the commit is not something these rows say. -/
inductive VictimOf (db : Db) (srcIsDir : Bool) (ts : Nat) : Option DirValue → Victim → Prop where
  | none : VictimOf db srcIsDir ts none {}
  | dir {d : DirValue} (hd : isDir d.mode = true) (hs : srcIsDir = true) :
      VictimOf db srcIsDir ts (some d) { wasDir := true }
  | keep {d : DirValue} {iv : InodeValue} (hd : isDir d.mode = false) (hs : srcIsDir = false)
      (hi : db.inode d.inode = some iv) (hl : 1 < iv.nlink) :
      VictimOf db srcIsDir ts (some d)
        { keep := some (d.inode, { iv with nlink := iv.nlink - 1, ctime := ts }) }
  | drop {d : DirValue} {iv : InodeValue} (hd : isDir d.mode = false) (hs : srcIsDir = false)
      (hi : db.inode d.inode = some iv) (hl : iv.nlink ≤ 1) :
      VictimOf db srcIsDir ts (some d) { delete := some d.inode }

/-- The batch of `rename` without the parent deltas. -/
def renameOps (p : Inode) (n : Name) (np : Inode) (nn : Name) (src : Inode) (srcIv : InodeValue)
    (dst : Option DirValue) (vic : Victim) (ts : Nat) : List BatchOp :=
  vic.ops ++ removeDstOps np nn vic.delete dst ++
  [.deleteDirEntry p n, .putDirEntry np nn ⟨src, srcIv.mode⟩, .putInode src { srcIv with ctime := ts }]

/-- The records after a rename: the source, a removed and a decremented destination, the rest. -/
def Victim.records (vic : Victim) (src : Inode) (srcIv : InodeValue) (db : Db) (i : Inode) :
    Option InodeValue :=
  if i = src then some srcIv
  else if vic.delete = some i then none
  else match vic.keep with
    | some k => if i = k.1 then some k.2 else db.inode i
    | none => db.inode i

section

variable {db : Db} {p : Inode} {n : Name} {np : Inode} {nn : Name} {src : Inode} {srcIv : InodeValue}
  {dst : Option DirValue} {vic : Victim} {ts : Nat} {srcIsDir : Bool} {v : DirValue}

theorem VictimOf.delete_eq (hv : VictimOf db srcIsDir ts dst vic) {i : Inode}
    (h : vic.delete = some i) :
    ∃ d iv, dst = some d ∧ d.inode = i ∧ isDir d.mode = false ∧ srcIsDir = false ∧
      db.inode i = some iv ∧ iv.nlink ≤ 1 := by
  cases hv with
  | @drop d iv hd hs hi hl =>
      cases h
      exact ⟨d, iv, rfl, rfl, hd, hs, hi, hl⟩
  | _ => cases h

theorem VictimOf.keep_eq (hv : VictimOf db srcIsDir ts dst vic) {k : Inode × InodeValue}
    (h : vic.keep = some k) :
    ∃ d iv, dst = some d ∧ isDir d.mode = false ∧ srcIsDir = false ∧ db.inode d.inode = some iv ∧
      1 < iv.nlink ∧ k = (d.inode, { iv with nlink := iv.nlink - 1, ctime := ts }) := by
  cases hv with
  | @keep d iv hd hs hi hl =>
      cases h
      exact ⟨d, iv, rfl, hd, hs, hi, hl, rfl⟩
  | _ => cases h

theorem VictimOf.wasDir_eq (hv : VictimOf db srcIsDir ts dst vic) (h : vic.wasDir = true) :
    ∃ d, dst = some d ∧ isDir d.mode = true ∧ srcIsDir = true := by
  cases hv with
  | @dir d hd hs => exact ⟨d, rfl, hd, hs⟩
  | _ => cases h

/-- `rename` replaces a directory by a directory and a file by a file. -/
theorem VictimOf.isDir_eq {d : DirValue} (hv : VictimOf db srcIsDir ts (some d) vic) :
    isDir d.mode = srcIsDir ∧ vic.wasDir = srcIsDir := by
  cases hv with
  | dir hd hs => exact ⟨hd.trans hs.symm, hs.symm⟩
  | keep hd hs => exact ⟨hd.trans hs.symm, hs.symm⟩
  | drop hd hs => exact ⟨hd.trans hs.symm, hs.symm⟩

theorem VictimOf.wasDir_or_file {d : DirValue} (hv : VictimOf db srcIsDir ts (some d) vic) :
    vic.wasDir = true ∨ (isDir d.mode = false ∧ ∃ iv, db.inode d.inode = some iv) := by
  cases hv with
  | dir => exact Or.inl rfl
  | keep hd hs hi => exact Or.inr ⟨hd, _, hi⟩
  | drop hd hs hi => exact Or.inr ⟨hd, _, hi⟩

/-- A record other than the source's and the destination's stays. -/
theorem VictimOf.records_ne (hv : VictimOf db srcIsDir ts dst vic) {i : Inode} (hs : i ≠ src)
    (hd : ∀ d, dst = some d → i ≠ d.inode) : vic.records src srcIv db i = db.inode i := by
  unfold Victim.records
  rw [if_neg hs, if_neg fun hdel => ?_]
  · split
    · rename_i k hk
      obtain ⟨d, div, hdst, -, -, -, -, rfl⟩ := hv.keep_eq hk
      exact if_neg (hd d hdst)
    · rfl
  · obtain ⟨d, div, hdst, rfl, -⟩ := hv.delete_eq hdel
    exact hd d hdst rfl

/-- A destination that is no directory has its name counted in the record that goes or shrinks. -/
theorem VictimOf.nameHit_eq (hv : VictimOf db srcIsDir ts dst vic) (hw : vic.wasDir = false)
    {j : Inode} (hdel : vic.delete ≠ some j) (hkeep : ∀ k, vic.keep = some k → k.1 ≠ j) :
    Db.nameHit j dst = 0 := by
  cases hv with
  | none => rfl
  | dir => cases hw
  | keep => exact if_neg (hkeep _ rfl)
  | drop => exact if_neg fun e => hdel (congrArg some e)

theorem inode_renameOps (hv : VictimOf db srcIsDir ts dst vic) (i : Inode) :
    (db.applyBatch (renameOps p n np nn src srcIv dst vic ts)).inode i =
      vic.records src { srcIv with ctime := ts } db i := by
  cases hv with
  | none => simp [renameOps, Victim.ops, removeDstOps, Victim.records, Db.inode_applyOp]
  | dir => simp [renameOps, Victim.ops, removeDstOps, Victim.records, Db.inode_applyOp]
  | keep => simp [renameOps, Victim.ops, removeDstOps, Victim.records, Db.inode_applyOp]
  | drop => simp [renameOps, Victim.ops, removeDstOps, Victim.records, Db.inode_applyOp, eq_comm]

/-- Only the deleted destination loses its record or data location. -/
theorem not_removes_renameOps (hv : VictimOf db srcIsDir ts dst vic) {j : Inode}
    (hj : vic.delete ≠ some j) : ∀ op ∈ renameOps p n np nn src srcIv dst vic ts, ¬op.Removes j := by
  cases hv with
  | none => simp [renameOps, Victim.ops, removeDstOps, BatchOp.Removes]
  | dir => simp [renameOps, Victim.ops, removeDstOps, BatchOp.Removes]
  | keep => simp [renameOps, Victim.ops, removeDstOps, BatchOp.Removes]
  | drop => simpa [renameOps, Victim.ops, removeDstOps, BatchOp.Removes] using hj

theorem not_isDelta_renameOps : ∀ op ∈ renameOps p n np nn src srcIv dst vic ts, ¬op.IsDelta := by
  unfold renameOps Victim.ops removeDstOps
  rcases vic with ⟨_ | _, _, _ | _⟩ <;> cases dst <;> simp [BatchOp.IsDelta]

/-- The only entry a rename puts names its source. -/
theorem putDirEntry_mem_renameOps {q : Inode} {m : Name} {w : DirValue}
    (h : .putDirEntry q m w ∈ renameOps p n np nn src srcIv dst vic ts) : w.inode = src := by
  unfold renameOps Victim.ops removeDstOps at h
  rcases vic with ⟨_ | _, _, _ | _⟩ <;> cases dst <;> simp at h <;> rw [h.2.2]

theorem dirEntries_renameOps :
    (db.applyBatch (renameOps p n np nn src srcIv dst vic ts)).dirEntries =
      ((match dst with
        | some _ => db.dirEntries.erase (toLex (np, nn))
        | none => db.dirEntries).erase (toLex (p, n))).put (toLex (np, nn)) ⟨src, srcIv.mode⟩ := by
  unfold renameOps Victim.ops removeDstOps
  rcases vic with ⟨_ | _, _, _ | _⟩ <;> cases dst <;> rfl

theorem entry_renameOps (a : Inode) (b : Name) :
    (db.applyBatch (renameOps p n np nn src srcIv dst vic ts)).entry a b =
      if a = np ∧ b = nn then some ⟨src, srcIv.mode⟩
      else if a = p ∧ b = n then none
      else db.entry a b := by
  unfold Db.entry
  rw [dirEntries_renameOps, OrdMap.get_put, OrdMap.get_erase]
  by_cases h : a = np ∧ b = nn
  · simp [h]
  · by_cases h' : a = p ∧ b = n
    · simp [h']
    · cases dst <;> simp [h, h', OrdMap.get_erase]

/-- An entry that is there after a rename is the one of its source, or was there under a third key. -/
theorem entry_some_renameOps {a : Inode} {b : Name} {w : DirValue}
    (h : (db.applyBatch (renameOps p n np nn src srcIv dst vic ts)).entry a b = some w) :
    (a = np ∧ b = nn ∧ w = ⟨src, srcIv.mode⟩) ∨
      (¬(a = np ∧ b = nn) ∧ ¬(a = p ∧ b = n) ∧ db.entry a b = some w) := by
  rw [entry_renameOps] at h
  split at h
  · rename_i e
    exact Or.inl ⟨e.1, e.2, (Option.some.inj h).symm⟩
  · rename_i e
    split at h
    · cases h
    · rename_i e'
      exact Or.inr ⟨e, e', h⟩

/-- The entries with a property `P` after a rename between two different keys. -/
theorem count_renameOps (src : Inode) (srcIv : InodeValue) (vic : Victim) (ts : Nat) (P : DirKey → DirValue → Bool)
    (he : db.entry p n = some v) (hk : ¬(p = np ∧ n = nn)) :
    (db.applyBatch (renameOps p n np nn src srcIv (db.entry np nn) vic ts)).dirEntries.count P +
        OrdMap.hit P (toLex (np, nn)) (db.entry np nn) + OrdMap.hit P (toLex (p, n)) (some v) =
      db.dirEntries.count P + OrdMap.hit P (toLex (np, nn)) (some ⟨src, srcIv.mode⟩) := by
  have hk' : toLex (p, n) ≠ toLex (np, nn) := by simpa using hk
  rw [dirEntries_renameOps]
  unfold Db.entry at he ⊢
  cases hd : db.dirEntries.get (toLex (np, nn)) with
  | none =>
      have h₁ := OrdMap.count_erase P db.dirEntries (toLex (p, n))
      have h₂ := OrdMap.count_put P (db.dirEntries.erase (toLex (p, n))) (toLex (np, nn))
        ⟨src, srcIv.mode⟩
      rw [OrdMap.get_erase_ne _ hk'.symm, hd] at h₂
      rw [he] at h₁
      rw [OrdMap.hit_none] at h₂ ⊢
      dsimp only
      omega
  | some d =>
      have h₀ := OrdMap.count_erase P db.dirEntries (toLex (np, nn))
      have h₁ := OrdMap.count_erase P (db.dirEntries.erase (toLex (np, nn))) (toLex (p, n))
      have h₂ := OrdMap.count_put P
        ((db.dirEntries.erase (toLex (np, nn))).erase (toLex (p, n))) (toLex (np, nn))
        ⟨src, srcIv.mode⟩
      rw [OrdMap.get_erase_ne _ hk'.symm, OrdMap.get_erase_self, OrdMap.hit_none] at h₂
      rw [OrdMap.get_erase_ne _ hk', he] at h₁
      rw [hd] at h₀
      dsimp only
      omega

/-- The names of every inode after a rename between two different keys: the replaced entry is
gone, the moved one counts as before. -/
theorem names_renameOps (he : db.entry p n = some v) (hk : ¬(p = np ∧ n = nn)) (i : Inode) :
    (db.applyBatch (renameOps p n np nn v.inode srcIv (db.entry np nn) vic ts)).names i +
      Db.nameHit i (db.entry np nn) = db.names i := by
  have hcount := count_renameOps v.inode srcIv vic ts (fun _ w => w.inode == i) he hk
  have hhit : OrdMap.hit (fun (_ : DirKey) (w : DirValue) => w.inode == i) (toLex (np, nn))
      (db.entry np nn) = Db.nameHit i (db.entry np nn) := by
    cases db.entry np nn <;> simp
  rw [hhit, OrdMap.hit_some, OrdMap.hit_some] at hcount
  exact Nat.add_right_cancel hcount

/-- A rename onto its own key changes no count. -/
theorem names_renameOps_self (he : db.entry p n = some v) (i : Inode) :
    (db.applyBatch (renameOps p n p n v.inode srcIv (db.entry p n) vic ts)).names i = db.names i := by
  unfold Db.names
  rw [dirEntries_renameOps]
  unfold Db.entry at he ⊢
  set P : DirKey → DirValue → Bool := fun _ w => w.inode == i with hP
  rw [he]
  have h₀ := OrdMap.count_erase P db.dirEntries (toLex (p, n))
  have h₁ := OrdMap.count_erase P (db.dirEntries.erase (toLex (p, n))) (toLex (p, n))
  have h₂ := OrdMap.count_put P
    ((db.dirEntries.erase (toLex (p, n))).erase (toLex (p, n))) (toLex (p, n)) ⟨v.inode, srcIv.mode⟩
  rw [OrdMap.get_erase_self] at h₁ h₂
  rw [he] at h₀
  simp only [hP, OrdMap.hit_some, OrdMap.hit_none] at h₀ h₁ h₂ ⊢
  omega

end

/-! ## Changes -/

/-- A commit of one of the operations, without its parent deltas.  The index is the new object. -/
inductive Change (db : Db) (next : Nat) : Option Inode → List BatchOp → Prop where
  | create {p : Inode} {n : Name} {i : Inode} {iv : InodeValue} {extra : List BatchOp}
      (he : db.entry p n = none) (hi : db.inode i = none)
      (hn : ∀ p n v, db.entry p n = some v → v.inode ≠ i) (hlt : i < next)
      (hkind : isDir iv.mode = false ∧ iv.nlink = 1 ∨ isDir iv.mode = true ∧ iv.nlink = 2)
      (hx : ∀ op ∈ extra, op.IsSide) :
      Change db next (some i) (.putInode i iv :: .putDirEntry p n ⟨i, iv.mode⟩ :: extra)
  | link {p : Inode} {n : Name} {t : Inode} {iv : InodeValue} {ts : Nat}
      (hi : db.inode t = some iv) (hd : isDir iv.mode = false) (he : db.entry p n = none)
      (hp : db.IsDirectory p) :
      Change db next none [.putInode t { iv with nlink := (iv.nlink + 1) % U32_SIZE, ctime := ts },
        .putDirEntry p n ⟨t, iv.mode⟩]
  | unlinkKeep {p : Inode} {n : Name} {v : DirValue} {iv : InodeValue} {ts : Nat}
      (he : db.entry p n = some v) (hd : isDir v.mode = false) (hi : db.inode v.inode = some iv) :
      Change db next none
        [.deleteDirEntry p n, .putInode v.inode { iv with nlink := iv.nlink - 1, ctime := ts }]
  | unlinkDrop {p : Inode} {n : Name} {v : DirValue} {iv : InodeValue}
      (he : db.entry p n = some v) (hd : isDir v.mode = false) (hi : db.inode v.inode = some iv)
      (hz : iv.nlink - 1 = 0) :
      Change db next none [.deleteDirEntry p n, .deleteInode v.inode, .deleteDataLocation v.inode]
  | rmdir {p : Inode} {n : Name} {v : DirValue} {iv : InodeValue}
      (he : db.entry p n = some v) (hd : isDir v.mode = true) (hi : db.inode v.inode = some iv) :
      Change db next none [.deleteDirEntry p n, .deleteInode v.inode]
  | rename {p : Inode} {n : Name} {np : Inode} {nn : Name} {v : DirValue} {srcIv : InodeValue}
      {vic : Victim} {ts : Nat} (he : db.entry p n = some v) (hi : db.inode v.inode = some srcIv)
      (hv : VictimOf db (isDir srcIv.mode) ts (db.entry np nn) vic) :
      Change db next none (renameOps p n np nn v.inode srcIv (db.entry np nn) vic ts)
  | rewrite {i : Inode} {iv iv' : InodeValue} (hi : db.inode i = some iv)
      (ht : fileType iv'.mode = fileType iv.mode) (hl : isDir iv.mode = false → iv'.nlink = iv.nlink) :
      Change db next none [.putInode i iv']
  | drop {i : Inode} (hr : i ≠ ROOT_INODE) :
      Change db next none [.deleteInode i, .deleteDataLocation i]

/-! ## Shape of the namespace -/

/-- What holds of entries and records whatever the order of the calls. -/
structure Db.Wf (db : Db) (next : Nat) : Prop where
  root : db.IsDirectory ROOT_INODE
  root_lt : ROOT_INODE < next
  inode_lt : ∀ {i iv}, db.inode i = some iv → i < next
  entry_lt : ∀ {p n v}, db.entry p n = some v → v.inode < next
  entry_ne_root : ∀ {p n v}, db.entry p n = some v → v.inode ≠ ROOT_INODE
  type_eq : ∀ {p n v iv}, db.entry p n = some v → db.inode v.inode = some iv →
    fileType v.mode = fileType iv.mode
  dir_unique : ∀ {p n v p' n' v'}, db.entry p n = some v → db.entry p' n' = some v' →
    v.inode = v'.inode → isDir v.mode = true → p = p' ∧ n = n'

theorem Db.Wf.mono {db : Db} {next next' : Nat} (h : db.Wf next) (hle : next ≤ next') :
    db.Wf next' :=
  { h with
    root_lt := Nat.lt_of_lt_of_le h.root_lt hle
    inode_lt := fun hi => Nat.lt_of_lt_of_le (h.inode_lt hi) hle
    entry_lt := fun he => Nat.lt_of_lt_of_le (h.entry_lt he) hle }

/-- Entry and record say the same about being a directory. -/
theorem Db.Wf.isDir_eq {db : Db} {next : Nat} (h : db.Wf next) {p : Inode} {n : Name} {v : DirValue}
    {iv : InodeValue} (he : db.entry p n = some v) (hi : db.inode v.inode = some iv) :
    isDir iv.mode = isDir v.mode := (isDir_of_fileType_eq (h.type_eq he hi)).symm

/-- A directory has exactly one name. -/
theorem Db.Wf.names_dir {db : Db} {next : Nat} (h : db.Wf next) {p : Inode} {n : Name} {v : DirValue}
    (he : db.entry p n = some v) (hd : isDir v.mode = true) : db.names v.inode = 1 := by
  have hdel := names_deleteDirEntry db p n v.inode
  rw [he, nameHit_some, if_pos rfl] at hdel
  have hz : (db.applyOp (.deleteDirEntry p n)).names v.inode = 0 := by
    rcases Nat.eq_zero_or_pos ((db.applyOp (.deleteDirEntry p n)).names v.inode) with h₀ | hpos
    · exact h₀
    · obtain ⟨p', n', v', he', hi⟩ := names_pos.1 hpos
      rw [entry_applyOp] at he'
      dsimp only at he'
      split at he'
      · cases he'
      · rename_i hk
        have hkey := h.dir_unique he he' hi.symm hd
        exact absurd ⟨hkey.1.symm, hkey.2.symm⟩ hk
  omega

/-! ### One operation at a time -/

namespace Db.Wf

variable {db : Db} {next : Nat}

theorem putInode (hw : db.Wf next) {i : Inode} {iv : InodeValue} (hlt : i < next)
    (ht : ∀ {p n v}, db.entry p n = some v → v.inode = i → fileType v.mode = fileType iv.mode)
    (hr : i = ROOT_INODE → isDir iv.mode = true) : (db.applyOp (.putInode i iv)).Wf next := by
  have hin : ∀ j, (db.applyOp (.putInode i iv)).inode j = if j = i then some iv else db.inode j :=
    fun j => inode_applyOp db _ j
  have hen : ∀ p n, (db.applyOp (.putInode i iv)).entry p n = db.entry p n :=
    fun p n => entry_applyOp db _ p n
  refine
    { root := ?_
      root_lt := hw.root_lt
      inode_lt := ?_
      entry_lt := fun he => hw.entry_lt (hen _ _ ▸ he)
      entry_ne_root := fun he => hw.entry_ne_root (hen _ _ ▸ he)
      type_eq := ?_
      dir_unique := fun he he' => hw.dir_unique (hen _ _ ▸ he) (hen _ _ ▸ he') }
  · by_cases h : ROOT_INODE = i
    · exact ⟨iv, by rw [hin, if_pos h], hr h.symm⟩
    · obtain ⟨riv, hriv, hd⟩ := hw.root
      exact ⟨riv, by rw [hin, if_neg h, hriv], hd⟩
  · intro j jv hj
    rw [hin] at hj
    split at hj
    · rename_i e; exact e ▸ hlt
    · exact hw.inode_lt hj
  · intro p n v jv he hj
    rw [hen] at he
    rw [hin] at hj
    split at hj
    · rename_i e
      cases hj
      exact ht he e
    · exact hw.type_eq he hj

theorem deleteInode (hw : db.Wf next) {i : Inode} (hne : i ≠ ROOT_INODE) :
    (db.applyOp (.deleteInode i)).Wf next := by
  have hin : ∀ {j jv}, (db.applyOp (.deleteInode i)).inode j = some jv → db.inode j = some jv := by
    intro j jv h
    rw [inode_applyOp] at h
    dsimp only at h
    split at h
    · cases h
    · exact h
  have hen : ∀ p n, (db.applyOp (.deleteInode i)).entry p n = db.entry p n :=
    fun p n => entry_applyOp db _ p n
  refine
    { root := ?_
      root_lt := hw.root_lt
      inode_lt := fun hi => hw.inode_lt (hin hi)
      entry_lt := fun he => hw.entry_lt (hen _ _ ▸ he)
      entry_ne_root := fun he => hw.entry_ne_root (hen _ _ ▸ he)
      type_eq := fun he hi => hw.type_eq (hen _ _ ▸ he) (hin hi)
      dir_unique := fun he he' => hw.dir_unique (hen _ _ ▸ he) (hen _ _ ▸ he') }
  obtain ⟨riv, hriv, hd⟩ := hw.root
  refine ⟨riv, ?_, hd⟩
  rw [inode_applyOp]
  dsimp only
  rw [if_neg (Ne.symm hne), hriv]

theorem putDirEntry (hw : db.Wf next) {p : Inode} {n : Name} {v : DirValue} (hlt : v.inode < next)
    (hne : v.inode ≠ ROOT_INODE)
    (ht : ∀ {iv}, db.inode v.inode = some iv → fileType v.mode = fileType iv.mode)
    (hu : ∀ {p' n' v'}, db.entry p' n' = some v' → v'.inode = v.inode →
      isDir v.mode = true ∨ isDir v'.mode = true → p' = p ∧ n' = n) :
    (db.applyOp (.putDirEntry p n v)).Wf next := by
  have hin : ∀ j, (db.applyOp (.putDirEntry p n v)).inode j = db.inode j :=
    fun j => inode_applyOp db _ j
  have hen : ∀ {p' n' w}, (db.applyOp (.putDirEntry p n v)).entry p' n' = some w →
      ((p' = p ∧ n' = n) ∧ w = v) ∨ (¬(p' = p ∧ n' = n) ∧ db.entry p' n' = some w) := by
    intro p' n' w h
    rw [entry_applyOp] at h
    dsimp only at h
    split at h
    · rename_i e; exact Or.inl ⟨e, (Option.some.inj h).symm⟩
    · rename_i e; exact Or.inr ⟨e, h⟩
  refine
    { root := ?_
      root_lt := hw.root_lt
      inode_lt := fun hi => hw.inode_lt (hin _ ▸ hi)
      entry_lt := ?_
      entry_ne_root := ?_
      type_eq := ?_
      dir_unique := ?_ }
  · obtain ⟨riv, hriv, hd⟩ := hw.root
    exact ⟨riv, by rw [hin, hriv], hd⟩
  · intro p' n' w h
    rcases hen h with ⟨-, rfl⟩ | ⟨-, h⟩
    · exact hlt
    · exact hw.entry_lt h
  · intro p' n' w h
    rcases hen h with ⟨-, rfl⟩ | ⟨-, h⟩
    · exact hne
    · exact hw.entry_ne_root h
  · intro p' n' w iv h hi
    rw [hin] at hi
    rcases hen h with ⟨-, rfl⟩ | ⟨-, h⟩
    · exact ht hi
    · exact hw.type_eq h hi
  · intro p₁ n₁ v₁ p₂ n₂ v₂ h₁ h₂ hi hd
    rcases hen h₁ with ⟨e₁, rfl⟩ | ⟨hk₁, o₁⟩
    · rcases hen h₂ with ⟨e₂, -⟩ | ⟨hk₂, o₂⟩
      · exact ⟨e₁.1.trans e₂.1.symm, e₁.2.trans e₂.2.symm⟩
      · exact absurd (hu o₂ hi.symm (Or.inl hd)) hk₂
    · rcases hen h₂ with ⟨-, rfl⟩ | ⟨-, o₂⟩
      · exact absurd (hu o₁ hi (Or.inr hd)) hk₁
      · exact hw.dir_unique o₁ o₂ hi hd

theorem deleteDirEntry (hw : db.Wf next) (p : Inode) (n : Name) :
    (db.applyOp (.deleteDirEntry p n)).Wf next := by
  have hin : ∀ j, (db.applyOp (.deleteDirEntry p n)).inode j = db.inode j :=
    fun j => inode_applyOp db _ j
  have hen : ∀ {p' n' w}, (db.applyOp (.deleteDirEntry p n)).entry p' n' = some w →
      db.entry p' n' = some w := by
    intro p' n' w h
    rw [entry_applyOp] at h
    dsimp only at h
    split at h
    · cases h
    · exact h
  refine
    { root := ?_
      root_lt := hw.root_lt
      inode_lt := fun hi => hw.inode_lt (hin _ ▸ hi)
      entry_lt := fun he => hw.entry_lt (hen he)
      entry_ne_root := fun he => hw.entry_ne_root (hen he)
      type_eq := fun he hi => hw.type_eq (hen he) (hin _ ▸ hi)
      dir_unique := fun he he' => hw.dir_unique (hen he) (hen he') }
  obtain ⟨riv, hriv, hd⟩ := hw.root
  exact ⟨riv, by rw [hin, hriv], hd⟩

/-- Only records and entries matter. -/
theorem congr {D : Db} (hw : db.Wf next) (hi : D.inodes = db.inodes)
    (he : D.dirEntries = db.dirEntries) : D.Wf next := by
  have hin : ∀ i, D.inode i = db.inode i := fun i => by unfold Db.inode; rw [hi]
  have hen : ∀ p n, D.entry p n = db.entry p n := fun p n => by unfold Db.entry; rw [he]
  obtain ⟨riv, hriv, hd⟩ := hw.root
  exact
    { root := ⟨riv, by rw [hin, hriv], hd⟩
      root_lt := hw.root_lt
      inode_lt := fun hi => hw.inode_lt (hin _ ▸ hi)
      entry_lt := fun he => hw.entry_lt (hen _ _ ▸ he)
      entry_ne_root := fun he => hw.entry_ne_root (hen _ _ ▸ he)
      type_eq := fun he hi => hw.type_eq (hen _ _ ▸ he) (hin _ ▸ hi)
      dir_unique := fun he he' => hw.dir_unique (hen _ _ ▸ he) (hen _ _ ▸ he') }

theorem side (hw : db.Wf next) (ops : List BatchOp) (h : ∀ op ∈ ops, op.IsSide) :
    (db.applyBatch ops).Wf next :=
  hw.congr (applyBatch_side db h).1 (applyBatch_side db h).2

/-- A record may be replaced by one of the same type. -/
theorem rewrite (hw : db.Wf next) {i : Inode} {iv iv' : InodeValue} (hi : db.inode i = some iv)
    (ht : fileType iv'.mode = fileType iv.mode) : (db.applyOp (.putInode i iv')).Wf next := by
  refine hw.putInode (hw.inode_lt hi) ?_ ?_
  · rintro p n v he rfl
    rw [hw.type_eq he hi, ht]
  · rintro rfl
    obtain ⟨riv, hriv, hd⟩ := hw.root
    rw [hi] at hriv
    cases hriv
    rw [isDir_of_fileType_eq ht, hd]

/-- Records may come to hold other data of the same mode. -/
theorem of_modes {db' : Db} (hw : db.Wf next) (hentries : db'.dirEntries = db.dirEntries)
    (hrecord : ∀ {i iv'}, db'.inode i = some iv' → ∃ iv, db.inode i = some iv ∧ iv'.mode = iv.mode)
    (hstays : ∀ {i iv}, db.inode i = some iv → ∃ iv', db'.inode i = some iv') : db'.Wf next := by
  have hentry : ∀ {p n v}, db'.entry p n = some v → db.entry p n = some v := by
    intro p n v he
    unfold Db.entry at he ⊢
    rwa [hentries] at he
  refine
    { root := ?_
      root_lt := hw.root_lt
      inode_lt := ?_
      entry_lt := fun he => hw.entry_lt (hentry he)
      entry_ne_root := fun he => hw.entry_ne_root (hentry he)
      type_eq := ?_
      dir_unique := fun he he' => hw.dir_unique (hentry he) (hentry he') }
  · obtain ⟨iv, hiv, hd⟩ := hw.root
    obtain ⟨iv', hiv'⟩ := hstays hiv
    obtain ⟨old, hold, hm⟩ := hrecord hiv'
    rw [hiv] at hold
    cases hold
    exact ⟨iv', hiv', by rw [hm, hd]⟩
  · intro i iv' hi
    obtain ⟨iv, hiv, -⟩ := hrecord hi
    exact hw.inode_lt hiv
  · intro p n v iv' he hi
    obtain ⟨iv, hiv, hm⟩ := hrecord hi
    rw [hm, hw.type_eq (hentry he) hiv]

end Db.Wf

/-! ### Records and names after each change

For every inode `j`: its record and the number of its names.  A change other than a rename, whose are
`inode_renameOps`, `names_renameOps` and `names_renameOps_self`, is about one record. -/

/-- One record is written or removed, and no other inode gains or loses a name. -/
structure Db.OneRecord (db D : Db) (t : Inode) (o : Option InodeValue) : Prop where
  inode : ∀ j, D.inode j = if j = t then o else db.inode j
  names : ∀ j, j ≠ t → D.names j = db.names j

/-- What holds of each inode's record and names still does if it does for the one. -/
theorem Db.OneRecord.forall {db D : Db} {t : Inode} {o : Option InodeValue} (h : db.OneRecord D t o)
    {P : Inode → Option InodeValue → Nat → Prop} (ht : P t o (D.names t)) (j : Inode)
    (hj : j ≠ t → P j (db.inode j) (db.names j)) : P j (D.inode j) (D.names j) := by
  rw [h.inode]
  by_cases e : j = t
  · rw [if_pos e, e]
    exact ht
  · rw [if_neg e, h.names j e]
    exact hj e

namespace Change

variable {db : Db} {next : Nat} {fresh : Option Inode} {ops : List BatchOp} {i : Inode} {iv' : InodeValue}

open Db

section

variable {p : Inode} {n : Name} {iv : InodeValue} {v : DirValue} {extra : List BatchOp}

theorem inode_create (hx : ∀ op ∈ extra, op.IsSide) (j : Inode) :
    (db.applyBatch (.putInode i iv :: .putDirEntry p n ⟨i, iv.mode⟩ :: extra)).inode j =
      if j = i then some iv else db.inode j := by
  have hside := applyBatch_side ((db.applyOp (.putInode i iv)).applyOp
    (.putDirEntry p n ⟨i, iv.mode⟩)) hx
  unfold Db.inode
  rw [applyBatch_cons, applyBatch_cons, hside.1]
  exact OrdMap.get_put _ _ _ _

theorem dirEntries_create (hx : ∀ op ∈ extra, op.IsSide) :
    (db.applyBatch (.putInode i iv :: .putDirEntry p n ⟨i, iv.mode⟩ :: extra)).dirEntries =
      db.dirEntries.put (toLex (p, n)) ⟨i, iv.mode⟩ :=
  (applyBatch_side ((db.applyOp (.putInode i iv)).applyOp (.putDirEntry p n ⟨i, iv.mode⟩)) hx).2

theorem names_create (he : db.entry p n = none) (hx : ∀ op ∈ extra, op.IsSide) (j : Inode) :
    (db.applyBatch (.putInode i iv :: .putDirEntry p n ⟨i, iv.mode⟩ :: extra)).names j =
      db.names j + if i = j then 1 else 0 :=
  names_of_put (dirEntries_create hx) he j

theorem oneRecord_create (he : db.entry p n = none) (hx : ∀ op ∈ extra, op.IsSide) :
    db.OneRecord (db.applyBatch (.putInode i iv :: .putDirEntry p n ⟨i, iv.mode⟩ :: extra)) i (some iv) :=
  ⟨inode_create hx, fun j e => by rw [names_create he hx, if_neg e.symm, Nat.add_zero]⟩

theorem inode_link (j : Inode) :
    (db.applyBatch [.putInode i iv, .putDirEntry p n v]).inode j =
      if j = i then some iv else db.inode j := by
  simp only [applyBatch_cons, applyBatch_nil, inode_applyOp]

theorem names_link (he : db.entry p n = none) (j : Inode) :
    (db.applyBatch [.putInode i iv, .putDirEntry p n v]).names j =
      db.names j + if v.inode = j then 1 else 0 :=
  names_of_put rfl he j

theorem oneRecord_link {mode : Nat} (he : db.entry p n = none) :
    db.OneRecord (db.applyBatch [.putInode i iv, .putDirEntry p n ⟨i, mode⟩]) i (some iv) :=
  ⟨inode_link, fun j e => by rw [names_link he, if_neg e.symm, Nat.add_zero]⟩

theorem inode_unlinkKeep (j : Inode) :
    (db.applyBatch [.deleteDirEntry p n, .putInode i iv]).inode j =
      if j = i then some iv else db.inode j := by
  simp only [applyBatch_cons, applyBatch_nil, inode_applyOp]

theorem oneRecord_unlinkKeep (he : db.entry p n = some v) :
    db.OneRecord (db.applyBatch [.deleteDirEntry p n, .putInode v.inode iv]) v.inode (some iv) :=
  ⟨inode_unlinkKeep, fun _ => names_of_unbind_ne rfl he⟩

theorem inode_unlinkDrop (j : Inode) :
    (db.applyBatch [.deleteDirEntry p n, .deleteInode i, .deleteDataLocation i]).inode j =
      if j = i then none else db.inode j := by
  simp only [applyBatch_cons, applyBatch_nil, inode_applyOp]

theorem oneRecord_unlinkDrop (he : db.entry p n = some v) :
    db.OneRecord (db.applyBatch [.deleteDirEntry p n, .deleteInode v.inode, .deleteDataLocation v.inode]) v.inode
      none :=
  ⟨inode_unlinkDrop, fun _ => names_of_unbind_ne rfl he⟩

theorem inode_rmdir (j : Inode) :
    (db.applyBatch [.deleteDirEntry p n, .deleteInode i]).inode j =
      if j = i then none else db.inode j := by
  simp only [applyBatch_cons, applyBatch_nil, inode_applyOp]

theorem oneRecord_rmdir (he : db.entry p n = some v) :
    db.OneRecord (db.applyBatch [.deleteDirEntry p n, .deleteInode v.inode]) v.inode none :=
  ⟨inode_rmdir, fun _ => names_of_unbind_ne rfl he⟩

theorem inode_rewrite (j : Inode) :
    (db.applyBatch [.putInode i iv]).inode j = if j = i then some iv else db.inode j := by
  simp only [applyBatch_cons, applyBatch_nil, inode_applyOp]

theorem oneRecord_rewrite : db.OneRecord (db.applyBatch [.putInode i iv]) i (some iv) :=
  ⟨inode_rewrite, fun _ _ => rfl⟩

theorem inode_drop (j : Inode) :
    (db.applyBatch [.deleteInode i, .deleteDataLocation i]).inode j =
      if j = i then none else db.inode j := by
  simp only [applyBatch_cons, applyBatch_nil, inode_applyOp]

theorem oneRecord_drop : db.OneRecord (db.applyBatch [.deleteInode i, .deleteDataLocation i]) i none :=
  ⟨inode_drop, fun _ _ => rfl⟩

end

/-! ### Types -/

/-- A record after the change was there before with the same type, or belongs to a new object. -/
def Origin (db : Db) (i : Inode) (iv' : InodeValue) : Prop :=
  ∃ iv, db.inode i = some iv ∧ fileType iv'.mode = fileType iv.mode

theorem origin_put {j : Inode} {old new : InodeValue} (hold : db.inode j = some old)
    (hi' : (if i = j then some new else db.inode i) = some iv') (ht : fileType new.mode = fileType old.mode) :
    Origin db i iv' := by
  split at hi'
  · rename_i e
    cases hi'
    exact ⟨old, e ▸ hold, ht⟩
  · exact ⟨iv', hi', rfl⟩

theorem origin_delete {j : Inode} (hi' : (if i = j then none else db.inode i) = some iv') : Origin db i iv' := by
  split at hi'
  · cases hi'
  · exact ⟨iv', hi', rfl⟩

theorem origin_rename {p : Inode} {n : Name} {np : Inode} {nn : Name} {v : DirValue} {srcIv : InodeValue}
    {vic : Victim} {ts : Nat} {dst : Option DirValue} {srcIsDir : Bool} (hs : db.inode v.inode = some srcIv)
    (hv : VictimOf db srcIsDir ts dst vic)
    (hi' : (db.applyBatch (renameOps p n np nn v.inode srcIv dst vic ts)).inode i = some iv') : Origin db i iv' := by
  rw [inode_renameOps hv] at hi'
  unfold Victim.records at hi'
  split at hi'
  · rename_i e
    cases hi'
    exact ⟨srcIv, e ▸ hs, rfl⟩
  · split at hi'
    · cases hi'
    · split at hi'
      · rename_i k hk
        obtain ⟨d, div, -, -, -, hdi, -, rfl⟩ := hv.keep_eq hk
        exact origin_put hdi hi' rfl
      · exact ⟨iv', hi', rfl⟩

theorem origin (h : Change db next fresh ops) (hi' : (db.applyBatch ops).inode i = some iv') :
    Origin db i iv' ∨ fresh = some i := by
  cases h with
  | create he hj hn hlt hkind hx =>
      rw [inode_create hx] at hi'
      split at hi'
      · rename_i e
        exact Or.inr (e ▸ rfl)
      · exact Or.inl ⟨iv', hi', rfl⟩
  | rename he hs hv => exact Or.inl (origin_rename hs hv hi')
  | link hj hd he hp =>
      rw [inode_link] at hi'
      exact Or.inl (origin_put hj hi' rfl)
  | unlinkKeep he hd hj =>
      rw [inode_unlinkKeep] at hi'
      exact Or.inl (origin_put hj hi' rfl)
  | unlinkDrop he hd hj hz =>
      rw [inode_unlinkDrop] at hi'
      exact Or.inl (origin_delete hi')
  | rmdir he hd hj =>
      rw [inode_rmdir] at hi'
      exact Or.inl (origin_delete hi')
  | rewrite hj ht hl =>
      rw [inode_rewrite] at hi'
      exact Or.inl (origin_put hj hi' ht)
  | drop hr =>
      rw [inode_drop] at hi'
      exact Or.inl (origin_delete hi')

/-! ### Shape -/

theorem wf_rename {p : Inode} {n : Name} {np : Inode} {nn : Name} {v : DirValue} {srcIv : InodeValue}
    {vic : Victim} {ts : Nat} (he : db.entry p n = some v) (hi : db.inode v.inode = some srcIv)
    (hv : VictimOf db (isDir srcIv.mode) ts (db.entry np nn) vic) (hw : db.Wf next) :
    (db.applyBatch (renameOps p n np nn v.inode srcIv (db.entry np nn) vic ts)).Wf next := by
  set D := db.applyBatch (renameOps p n np nn v.inode srcIv (db.entry np nn) vic ts) with hD
  have hen : ∀ {a b w}, D.entry a b = some w →
      (a = np ∧ b = nn ∧ w = ⟨v.inode, srcIv.mode⟩) ∨ (¬(a = p ∧ b = n) ∧ db.entry a b = some w) := by
    intro a b w h
    exact (entry_some_renameOps h).imp id And.right
  have hin : ∀ {i iv}, D.inode i = some iv → Origin db i iv := fun h => origin_rename hi hv h
  have hsrcType := hw.type_eq he hi
  refine
    { root := ?_
      root_lt := hw.root_lt
      inode_lt := ?_
      entry_lt := ?_
      entry_ne_root := ?_
      type_eq := ?_
      dir_unique := ?_ }
  · obtain ⟨riv, hriv, hrd⟩ := hw.root
    have hne : ROOT_INODE ≠ v.inode := (hw.entry_ne_root he).symm
    refine ⟨riv, ?_, hrd⟩
    rw [hD, inode_renameOps hv]
    unfold Victim.records
    rw [if_neg hne]
    split
    · rename_i hdel
      obtain ⟨d, div, hdst, hdi, -⟩ := hv.delete_eq hdel
      exact absurd hdi (hw.entry_ne_root hdst)
    · split
      · rename_i k hk
        obtain ⟨d, div, hdst, -, -, -, -, rfl⟩ := hv.keep_eq hk
        rw [if_neg (hw.entry_ne_root hdst).symm, hriv]
      · exact hriv
  · intro i iv h
    obtain ⟨old, hold, -⟩ := hin h
    exact hw.inode_lt hold
  · intro a b w h
    rcases hen h with ⟨-, -, rfl⟩ | ⟨-, o⟩
    · exact hw.entry_lt (v := v) he
    · exact hw.entry_lt o
  · intro a b w h
    rcases hen h with ⟨-, -, rfl⟩ | ⟨-, o⟩
    · exact hw.entry_ne_root (v := v) he
    · exact hw.entry_ne_root o
  · intro a b w iv h hj
    obtain ⟨old, hold, hty⟩ := hin hj
    rcases hen h with ⟨-, -, rfl⟩ | ⟨-, o⟩
    · rw [hi] at hold
      cases hold
      exact hty.symm
    · rw [hw.type_eq o hold, hty]
  · intro a b w a' b' w' h h' e hdir
    rcases hen h with ⟨rfl, rfl, rfl⟩ | ⟨hk, o⟩
    · rcases hen h' with ⟨rfl, rfl, -⟩ | ⟨hk', o'⟩
      · exact ⟨rfl, rfl⟩
      · have hkey := hw.dir_unique he o' e (by rw [isDir_of_fileType_eq hsrcType]; exact hdir)
        exact absurd ⟨hkey.1.symm, hkey.2.symm⟩ hk'
    · rcases hen h' with ⟨-, -, rfl⟩ | ⟨-, o'⟩
      · exact absurd (hw.dir_unique o he e hdir) hk
      · exact hw.dir_unique o o' e hdir

/-- **Every change keeps the shape of the namespace.** -/
theorem wf (h : Change db next fresh ops) (hw : db.Wf next) : (db.applyBatch ops).Wf next := by
  cases h with
  | @create p n i iv extra he hi hn hlt hkind hx =>
      have hroot : i ≠ ROOT_INODE := by
        rintro rfl
        obtain ⟨riv, hriv, -⟩ := hw.root
        rw [hi] at hriv
        cases hriv
      have h₁ : (db.applyOp (.putInode i iv)).Wf next :=
        hw.putInode hlt (fun he e => absurd e (hn _ _ _ he)) (fun e => absurd e hroot)
      have h₂ := h₁.putDirEntry (p := p) (n := n) (v := ⟨i, iv.mode⟩) hlt hroot ?_ ?_
      · exact h₂.side extra hx
      · intro jv hj
        simp [inode_applyOp] at hj
        rw [hj]
      · intro p' n' v' he' e _
        rw [entry_applyOp] at he'
        exact absurd e (hn _ _ _ he')
  | @link p n t iv ts hi hd he hp =>
      have h₁ : (db.applyOp (.putInode t { iv with
          nlink := (iv.nlink + 1) % U32_SIZE, ctime := ts })).Wf next := hw.rewrite hi rfl
      have hroot : t ≠ ROOT_INODE := by
        rintro rfl
        obtain ⟨riv, hriv, hrd⟩ := hw.root
        rw [hi] at hriv
        cases hriv
        rw [hd] at hrd
        cases hrd
      refine h₁.putDirEntry (hw.inode_lt hi) hroot ?_ ?_
      · intro jv hj
        simp [inode_applyOp] at hj
        rw [← hj]
      · intro p' n' v' he' e hdir
        rw [entry_applyOp] at he'
        have e : v'.inode = t := e
        have htype := isDir_of_fileType_eq (hw.type_eq he' (e ▸ hi))
        rw [htype, hd] at hdir
        simp at hdir
  | @unlinkKeep p n v iv ts he hd hi =>
      have hi' : (db.applyOp (.deleteDirEntry p n)).inode v.inode = some iv := by
        rw [inode_applyOp]
        exact hi
      exact (hw.deleteDirEntry p n).rewrite hi' rfl
  | @unlinkDrop p n v iv he hd hi hz =>
      exact ((hw.deleteDirEntry p n).deleteInode (hw.entry_ne_root he)).side
        [.deleteDataLocation v.inode] (by simp [BatchOp.IsSide])
  | @rmdir p n v iv he hd hi => exact (hw.deleteDirEntry p n).deleteInode (hw.entry_ne_root he)
  | rename he hi hv => exact wf_rename he hi hv hw
  | rewrite hi ht hl => exact hw.rewrite hi ht
  | @drop i hr =>
      exact (hw.deleteInode hr).side [.deleteDataLocation i] (by simp [BatchOp.IsSide])

end Change

end RucksFs
