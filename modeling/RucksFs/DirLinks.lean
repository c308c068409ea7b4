import RucksFs.Compaction
import RucksFs.Parents
import RucksFs.Subdirs

/-!
# Link counts of directories under any interleaving

`mkdir`, `rmdir` and `rename` change the link count of a parent by deltas, whose numbers they take before they commit;
compaction folds some of the deltas into the record while others are stored around them.  The fold clamps at zero and
wraps at 2³² after every delta, in the order of the numbers, which is not the order of the commits.

The sums it meets stay in range all the same.  A link is taken away for an entry that was read under lock, so under a
number above that of the link which counts the entry; whatever numbers a reader has come to, the subdirectories that
came under them are accounted for.

* `DirTree` — what holds of directories and of the calls that run, whatever the counts are.
* `View` — the sums that a fold goes through, now or after the compaction that is running.
* `Booked` — the invariant of one directory; one lemma for each kind of step.
* `dir_links_counted` — **in every committed state a directory of the tree has two links more than subdirectories.**
-/

set_option autoImplicit false

namespace RucksFs

open Server Prog Ledger Db

/-! ## Directories and the calls that run -/

/-- In the build that writes deltas the parents' part leaves records and entries alone. -/
theorem ParentPart.tables {cfg : Config} {seqs : List (Inode × Nat × DeltaOp)} {db : Db}
    {dss : List (Inode × List DeltaOp)} {ops : List BatchOp} (hb : cfg.build = .delta)
    (h : ParentPart cfg seqs db dss ops) :
    (db.applyBatch ops).inodes = db.inodes ∧ (db.applyBatch ops).dirEntries = db.dirEntries := by
  unfold ParentPart at h
  rw [hb] at h
  apply applyBatch_side
  intro op ho
  rw [h.1] at ho
  obtain ⟨x, -, rfl⟩ := List.mem_map.1 ho
  trivial

/-- What holds of directories whatever their link counts are: entries of directories have records and lie under
directories that were there, what has been retired is no directory of the tree, numbers are taken for parents, and
deltas are scanned by compactions. -/
structure DirTree (c : FsConf) : Prop where
  roles : Roles c
  backed : c.shared.db.DirsBacked
  born : ∀ {p n v}, c.shared.db.entry p n = some v → ¬Unborn c p
  retired : Pool (fun th => ∀ i ∈ th.loc.tx.retired, ¬Unborn c i ∧ ¬c.shared.db.LiveDir i) c.threads
  numbers : Pool (fun th => ∀ x ∈ th.loc.tx.seqs, x.1 ∈ th.tag.parents) c.threads
  scans : Pool ScansOwn c.threads

namespace DirTree

variable {cfg : Config} {c : FsConf} {n : Nat} {call : Call} {e : Eff} {k : e.Res → Prog Eff Eff.Res Reply} {r : e.Res}
  {l l' : Local} {s' : Server}

/-- Files that a call remembers are no directories. -/
theorem not_isDirectory (h : DirTree c) (hn : c.threads[n]? = some ⟨call, .call e k, l⟩) :
    ∀ i ∈ l.files, ¬c.shared.db.IsDirectory i := by
  rintro i hi ⟨iv, hiv, hd⟩
  have hfile := (h.roles.files n _ hn i hi).2 iv hiv
  rw [hd] at hfile
  cases hfile

/-- A number is taken for a directory that was there. -/
theorem born_of_number (h : DirTree c) {m : Nat} {th : FsThread} (hm : c.threads[m]? = some th) {d : Inode}
    {x : Nat × DeltaOp} (hx : x ∈ numbersOf d th.loc.tx.seqs) : ¬Unborn c d :=
  (h.roles.parents m th hm d (h.numbers m th hm _ (mem_numbersOf.1 hx))).1

/-- Numbers are taken for parents. -/
theorem numbers_act (h : DirTree c) (hn : c.threads[n]? = some ⟨call, .call e k, l⟩)
    (hpre : (contract cfg True call).pre e l) (ha : Acts cfg (c.threads.eraseIdx n) e l c.shared r l' s') :
    Pool (fun th : FsThread => ∀ x ∈ th.loc.tx.seqs, x.1 ∈ th.tag.parents) (c.threads.set n ⟨call, k r, l'⟩) := by
  refine h.numbers.set (fun x hx => ?_) fun _ _ _ _ hu => hu
  have hx : x ∈ l'.tx.seqs := hx
  rcases ha.table_cases with ⟨-, -, rfl⟩ | ⟨j, -, -, rfl⟩ | ⟨p, δ, rfl, -, rfl⟩ | ⟨-, -, hs | ⟨hs, -⟩⟩
  · cases hx
  · exact h.numbers n _ hn x hx
  · rcases List.mem_append.1 hx with hx | hx
    · exact h.numbers n _ hn x hx
    · rw [List.mem_singleton.1 hx]
      exact hpre.1
  · rw [hs] at hx
    cases hx
  · rw [hs] at hx
    exact h.numbers n _ hn x hx

/-- A step that leaves records and entries alone. -/
theorem quiet (h : DirTree c) (hi : Isolated c) (hn : c.threads[n]? = some ⟨call, .call e k, l⟩)
    (hpre : (contract cfg True call).pre e l) (ha : Acts cfg (c.threads.eraseIdx n) e l c.shared r l' s')
    (hin : s'.db.inodes = c.shared.db.inodes) (hen : s'.db.dirEntries = c.shared.db.dirEntries)
    (hret : ∀ i ∈ l'.tx.retired, i ∈ l.tx.retired) : DirTree ⟨s', c.threads.set n ⟨call, k r, l'⟩⟩ := by
  have hev := hi.evolves hn hpre ha
  have hkeep : ∀ {i}, ¬Unborn c i ∧ ¬c.shared.db.LiveDir i →
      ¬Unborn ⟨s', c.threads.set n ⟨call, k r, l'⟩⟩ i ∧ ¬s'.db.LiveDir i :=
    fun hold => ⟨fun hu => hold.1 (hev.unborn hu), fun hl => hold.2 (hl.congr hen)⟩
  refine ⟨h.roles.act hi hn hpre ha, h.backed.congr hin hen, fun {p m v} he hu => ?_, ?_, h.numbers_act hn hpre ha,
    scansOwn_act h.scans hn hpre ha⟩
  · have he : c.shared.db.entry p m = some v := by
      unfold Db.entry at he ⊢
      rw [← hen]
      exact he
    exact h.born he (hev.unborn hu)
  · exact h.retired.set (fun i hi => hkeep (h.retired n _ hn i (hret i hi))) fun _ _ _ _ hold i hi => hkeep (hold i hi)

theorem commit (h : DirTree c) (hi : Isolated c) (hb : cfg.build = .delta)
    {k : Eff.commit.Res → Prog Eff Eff.Res Reply} {r : Eff.commit.Res}
    (hn : c.threads[n]? = some ⟨call, .call .commit k, l⟩) (hpre : (contract cfg True call).pre .commit l)
    (ha : Acts cfg (c.threads.eraseIdx n) .commit l c.shared r ⟨{ retired := l.tx.retiring }, l.files⟩
      { c.shared with db := c.shared.db.applyBatch l.tx.batch }) :
    DirTree ⟨{ c.shared with db := c.shared.db.applyBatch l.tx.batch },
      c.threads.set n ⟨call, k r, ⟨{ retired := l.tx.retiring }, l.files⟩⟩⟩ := by
  have hev := hi.evolves hn hpre ha
  have hv := hi.valid n _ hn
  have hcommit : Committing cfg call l c.shared.db := hpre _ _ hv hi.wf
  obtain ⟨main, dss, rest, hbatch, hw, hp⟩ := hcommit
  obtain ⟨hin, hen⟩ := hp.tables hb
  rw [← Db.applyBatch_append, ← hbatch] at hin hen
  have hfiles := h.not_isDirectory hn
  have hnew : ∀ {i}, ¬Unborn c i → (c.shared.db.applyBatch l.tx.batch).LiveDir i → c.shared.db.LiveDir i := by
    intro i hborn hl
    rcases hw.live_cases hi.wf (hl.congr hen) with hold | ⟨hmem, -⟩
    · exact hold
    · exact absurd (Or.inr ⟨_, List.mem_of_getElem? hn, hmem⟩) hborn
  refine ⟨h.roles.act hi hn hpre ha, (hw.dirsBacked hv hi.wf hfiles h.backed).congr hin hen,
    fun {p m v} he hu => ?_, ?_, h.numbers_act hn hpre ha, scansOwn_act h.scans hn hpre ha⟩
  · rcases Committing.new_entry ⟨main, dss, rest, hbatch, hw, hp⟩ he with hold | ⟨hadds, -⟩
    · exact h.born hold (hev.unborn hu)
    · exact (h.roles.parents n _ hn p (Call.adds_parent hadds)).1 (hev.unborn hu)
  · refine h.retired.set (fun i hret => ⟨fun hu => ?_, fun hl => ?_⟩) fun m u _ _ hold i hret =>
      ⟨fun hu => (hold i hret).1 (hev.unborn hu), fun hl => (hold i hret).2 (hnew (hold i hret).1 hl)⟩
    · -- what is retired had a name
      obtain ⟨⟨p, m, v, hread, rfl⟩, -⟩ := Writes.exists_of_retiring hret
      have he : c.shared.db.entry p m = some v := hv.entry hread
      rcases hev.unborn hu with hle | ⟨th, hth, hmem⟩
      · exact absurd (hi.wf.entry_lt he) (Nat.not_lt.2 hle)
      · exact ((hi.valid.of_mem hth).fresh hmem).2.1 p m v he rfl
    · exact hw.not_live_retiring hi.wf hbatch hret (hl.congr hen)

theorem act (h : DirTree c) (hi : Isolated c) (hb : cfg.build = .delta)
    (hn : c.threads[n]? = some ⟨call, .call e k, l⟩) (hpre : (contract cfg True call).pre e l)
    (ha : Acts cfg (c.threads.eraseIdx n) e l c.shared r l' s') : DirTree ⟨s', c.threads.set n ⟨call, k r, l'⟩⟩ := by
  rcases ha.table_cases with ⟨rfl, rfl, rfl⟩ | ⟨j, rfl, rfl, rfl⟩ | ⟨p, δ, rfl, rfl, rfl⟩ | ⟨⟨hin, hen, -⟩, hret, -⟩
  · exact h.commit hi hb hn hpre ha
  · exact h.quiet hi hn hpre ha rfl rfl fun _ hi => hi
  · exact h.quiet hi hn hpre ha rfl rfl fun _ hi => hi
  · exact h.quiet hi hn hpre ha hin hen hret

theorem start (h : DirTree c) (hi : Isolated c) {admits : Server → Call → Prop} (hp : call.ParentsExist c.shared.db) :
    DirTree ⟨c.shared, c.threads ++ [(fsSystem cfg admits).spawn call]⟩ := by
  have hev : Evolves c ⟨c.shared, c.threads ++ [(fsSystem cfg admits).spawn call]⟩ := Isolated.evolves_start
  refine ⟨h.roles.start hi hp, h.backed, fun he hu => h.born he (hev.unborn hu), ?_, ?_, ?_⟩
  · refine Pool.append (h.retired.mono fun th hth i hi => ⟨fun hu => (hth i hi).1 (hev.unborn hu), (hth i hi).2⟩) ?_
    intro i hi
    cases hi
  · refine h.numbers.append fun x hx => ?_
    cases hx
  · refine h.scans.append fun j ks hs => ?_
    cases hs

end DirTree

/-- A server before its first call, on an empty database or one whose deltas have all been folded: the directories of
the tree have records, with two links more than subdirectories. -/
structure Server.Settled (s : Server) : Prop where
  starts : s.Starts
  backed : s.db.DirsBacked
  born : ∀ {p n v}, s.db.entry p n = some v → p < s.next
  deltas : ∀ i, s.db.deltas i = []
  links : ∀ {d iv}, s.db.LiveDir d → s.db.inode d = some iv → iv.nlink = 2 + s.db.subdirs d

theorem Server.settled_fresh (cfg : Config) : (Server.fresh cfg).Settled where
  starts := Server.starts_fresh cfg
  backed := fun p n v he => by cases he
  born := fun he => by cases he
  deltas := Server.deltas_fresh cfg
  links := fun {d iv} _ hi => by
    rw [Server.inode_fresh] at hi
    split at hi
    · cases hi
      rfl
    · cases hi

theorem DirTree.of_server {s : Server} (h : s.Settled) : DirTree ⟨s, []⟩ where
  roles := .of_server h.starts
  backed := h.backed
  born := fun he hu => by
    rcases hu with hle | ⟨th, hth, -⟩
    · exact absurd (h.born he) (Nat.not_lt.2 hle)
    · cases hth
  retired := fun m u hu => by simp at hu
  numbers := fun m u hu => by simp at hu
  scans := fun m u hu => by simp at hu

/-! ## Runs -/

/-- The links of `d` for which running transactions have taken numbers. -/
def linksComing (d : Inode) (c : FsConf) : Nat :=
  (c.threads.map fun th => linksAdded ((numbersOf d th.loc.tx.seqs).map (·.2))).sum

/-- The conditions on a run: renames are between different inodes, at most one compaction is running, and the
subdirectories of `d`, with those that are coming, leave its link count within a `u32`. -/
def DirLinkHyp (d : Inode) (c : FsConf) : Prop :=
  (∀ th ∈ c.threads, th.tag.DistinctRead th.loc.tx) ∧
  Apart (fun a b : FsThread => a.result = none → b.result = none →
    ¬(a.tag.isCompaction = true ∧ b.tag.isCompaction = true)) c.threads ∧
  2 + c.shared.db.subdirs d + linksComing d c < U32_SIZE

instance (d : Inode) : DecidablePred (DirLinkHyp d) := fun _ => instDecidableAnd

/-- What holds at any point of such a run. -/
theorem dirTree_of_reach {cfg : Config} {s₀ : Server} {c : FsConf} {d : Inode} (hb : cfg.build = .delta)
    (h₀ : s₀.Settled)
    (h : Reach (fsSystem cfg fun s call => call.ParentsExist s.db) (DirLinkHyp d) ⟨s₀, []⟩ c) :
    (DirTree c ∧ Isolated c) ∧
      ∀ th ∈ c.threads, wp (contract cfg True th.tag) th.prog (fun _ l => l.Idle) th.loc :=
  isolated_invariant True DirTree (fun _ _ hH => hH.1) rfl h₀.starts.wf (fun _ => .of_server h₀)
    (fun _ hi hX hadm => hX.start hi hadm) (fun _ hi hX hn hpre ha _ => hX.act hi hb hn hpre ha) h

/-! ## Views -/

/-- What a delta adds to the link count, when it adds to it. -/
def DeltaOp.gain (δ : DeltaOp) : Int := δ.links.toNat

theorem DeltaOp.gain_nonneg (δ : DeltaOp) : 0 ≤ δ.gain := Int.natCast_nonneg _

theorem DeltaOp.links_le_gain (δ : DeltaOp) : δ.links ≤ δ.gain := Int.self_le_toNat _

/-- The links of `d` that a view shows among the numbers taken. -/
def coming (d : Inode) (U : Nat → Bool) (ts : List FsThread) : Int :=
  (ts.map fun th => sumIn DeltaOp.gain U (numbersOf d th.loc.tx.seqs)).sum

section

variable {d : Inode} {U V : Nat → Bool} {ts : List FsThread}

theorem coming_set (d : Inode) (U : Nat → Bool) (t' : FsThread) {n : Nat} {t : FsThread} (hn : ts[n]? = some t) :
    coming d U (ts.set n t') + sumIn DeltaOp.gain U (numbersOf d t.loc.tx.seqs) =
      coming d U ts + sumIn DeltaOp.gain U (numbersOf d t'.loc.tx.seqs) :=
  sum_map_set (fun th : FsThread => sumIn DeltaOp.gain U (numbersOf d th.loc.tx.seqs)) t' hn

/-- A thread that has given its numbers back, or has those it had, has no more to come. -/
theorem coming_set_le {n : Nat} {t t' : FsThread} (hn : ts[n]? = some t)
    (h : numbersOf d t'.loc.tx.seqs = [] ∨ numbersOf d t'.loc.tx.seqs = numbersOf d t.loc.tx.seqs) :
    coming d U (ts.set n t') ≤ coming d U ts := by
  have hset := coming_set d U t' hn
  have hpos := sumIn_nonneg DeltaOp.gain_nonneg U (numbersOf d t.loc.tx.seqs)
  rcases h with h | h
  · rw [h, sumIn_nil] at hset
    omega
  · rw [h] at hset
    omega

theorem coming_append {t : FsThread} (ht : t.loc.tx.seqs = []) : coming d U (ts ++ [t]) = coming d U ts := by
  unfold coming
  rw [List.map_append, List.sum_append, List.map_singleton, List.sum_singleton, ht]
  exact add_zero _

theorem coming_nonneg : 0 ≤ coming d U ts := by
  apply List.sum_nonneg
  intro x hx
  obtain ⟨th, -, rfl⟩ := List.mem_map.1 hx
  exact sumIn_nonneg DeltaOp.gain_nonneg U _

theorem coming_mono (h : ∀ q, U q = true → V q = true) : coming d U ts ≤ coming d V ts := by
  unfold coming
  apply List.sum_le_sum
  intro th _
  exact sumIn_mono DeltaOp.gain_nonneg fun x _ => h x.1

/-- A view shows no more links than there are. -/
theorem sumIn_gain_le (U : Nat → Bool) (log : List (Nat × DeltaOp)) :
    sumIn DeltaOp.gain U log ≤ linksAdded (log.map (·.2)) := by
  induction log with
  | nil => exact Int.le_refl _
  | cons x log ih =>
      have hcons : linksAdded ((x :: log).map (·.2)) = x.2.links.toNat + linksAdded (log.map (·.2)) := List.sum_cons
      have hgain : x.2.gain = x.2.links.toNat := rfl
      rw [sumIn_cons, hcons, hgain]
      split <;> omega

theorem coming_le_linksComing (s : Server) : coming d U ts ≤ linksComing d ⟨s, ts⟩ := by
  induction ts with
  | nil => exact Int.le_refl _
  | cons th ts ih =>
      have hth := sumIn_gain_le U (numbersOf d th.loc.tx.seqs)
      have hcoming : coming d U (th :: ts) = sumIn DeltaOp.gain U (numbersOf d th.loc.tx.seqs) + coming d U ts :=
        List.sum_cons
      have hlinks : linksComing d ⟨s, th :: ts⟩ =
          linksAdded ((numbersOf d th.loc.tx.seqs).map (·.2)) + linksComing d ⟨s, ts⟩ := List.sum_cons
      omega

end

/-- The views through which a fold of the deltas of `d` goes: the numbers below a bound, and for a compaction that has
scanned, those it will fold and those that come after it has. -/
inductive View (d : Inode) (ts : List FsThread) : (Nat → Bool) → Prop where
  | below (s : Nat) : View d ts (below s)
  | either {m : Nat} {th : FsThread} {ks : List (Nat × DeltaOp)} (hm : ts[m]? = some th)
      (hs : th.loc.tx.scanned = some (d, ks)) (hk : ks ≠ []) (s : Nat) : View d ts (either (ks.map (·.1)) s)
  | both {m : Nat} {th : FsThread} {ks : List (Nat × DeltaOp)} (hm : ts[m]? = some th)
      (hs : th.loc.tx.scanned = some (d, ks)) (hk : ks ≠ []) (s : Nat) : View d ts (both (ks.map (·.1)) s)

namespace View

variable {d : Inode} {ts : List FsThread} {n : Nat} {t t' : FsThread} {U : Nat → Bool}

/-- No scan is new when thread `n` moves on. -/
theorem of_set (h : View d (ts.set n t') U) (hn : ts[n]? = some t)
    (hs : ∀ ks, t'.loc.tx.scanned = some (d, ks) → ks ≠ [] → t.loc.tx.scanned = some (d, ks)) : View d ts U := by
  cases h with
  | below s => exact .below s
  | either hm hscan hk s =>
      rcases getElem?_set_cases hm with ⟨-, rfl⟩ | ⟨-, hm⟩
      · exact .either hn (hs _ hscan hk) hk s
      · exact .either hm hscan hk s
  | both hm hscan hk s =>
      rcases getElem?_set_cases hm with ⟨-, rfl⟩ | ⟨-, hm⟩
      · exact .both hn (hs _ hscan hk) hk s
      · exact .both hm hscan hk s

theorem of_append (h : View d (ts ++ [t]) U) (ht : t.loc.tx.scanned = none) : View d ts U := by
  cases h with
  | below s => exact .below s
  | either hm hscan hk s =>
      rcases getElem?_append_cases hm with ⟨-, rfl⟩ | ⟨-, hm⟩
      · rw [ht] at hscan
        cases hscan
      · exact .either hm hscan hk s
  | both hm hscan hk s =>
      rcases getElem?_append_cases hm with ⟨-, rfl⟩ | ⟨-, hm⟩
      · rw [ht] at hscan
        cases hscan
      · exact .both hm hscan hk s

end View

/-! ## The invariant -/

/-- The books of directory `d`: its record, the numbers under which its entries came, and for every view that a fold
goes through, that the subdirectories it shows are accounted for and that there is room for the links that are
coming. -/
structure Booked (d : Inode) (base : InodeValue) (came : Name → Option Nat) (c : FsConf) : Prop where
  record : c.shared.db.inode d = some base
  numbered : Numbered d c
  came_lt : ∀ {m q}, came m = some q → q < c.shared.seqs d
  departs : Pool (fun th => Departs d came th.loc.tx) c.threads
  scans : Pool (fun th => ∀ ks, th.loc.tx.scanned = some (d, ks) → ks ≠ [] →
    ks.Pairwise (fun a b => a.1 < b.1) ∧ ∀ x ∈ ks, x ∈ c.shared.db.scanDeltas d) c.threads
  total : (base.nlink : Int) + linkSum (c.shared.db.deltas d) = 2 + c.shared.db.dirModeEntries d
  fits : ∀ {U}, View d c.threads U → Fits 2 U32_SIZE base.nlink
    (sumIn DeltaOp.links U (c.shared.db.scanDeltas d)) (c.shared.db.shown d came U) (coming d U c.threads)

theorem sumIn_scanDeltas {db : Db} {d : Inode} {U : Nat → Bool} (h : ∀ x ∈ db.scanDeltas d, U x.1 = true) :
    sumIn DeltaOp.links U (db.scanDeltas d) = linkSum (db.deltas d) := by
  rw [sumIn_all h]
  unfold linkSum Db.deltas
  rw [List.map_map]
  rfl

/-- A view of all that is stored fits because the total does. -/
theorem fits_of_total {c : FsConf} {d : Inode} {base : InodeValue} {came : Name → Option Nat} {U : Nat → Bool}
    (htotal : (base.nlink : Int) + linkSum (c.shared.db.deltas d) = 2 + c.shared.db.dirModeEntries d)
    (hroom : 2 + c.shared.db.dirModeEntries d + linksComing d c < U32_SIZE)
    (hall : ∀ x ∈ c.shared.db.scanDeltas d, U x.1 = true) :
    Fits 2 U32_SIZE base.nlink (sumIn DeltaOp.links U (c.shared.db.scanDeltas d)) (c.shared.db.shown d came U)
      (coming d U c.threads) := by
  have hshown : c.shared.db.shown d came U ≤ c.shared.db.dirModeEntries d := by
    rw [← Db.shown_all c.shared.db d came]
    exact Db.shown_le _ _ _ fun _ _ => rfl
  have hcoming : coming d U c.threads ≤ linksComing d c := coming_le_linksComing c.shared
  rw [sumIn_scanDeltas hall]
  constructor <;> omega

/-- A fold in the order of the numbers stays in range when the views below every number do. -/
theorem inRange_of_views {n : Nat} {log : List (Nat × DeltaOp)} (hs : log.Pairwise fun a b => a.1 < b.1)
    (h : ∀ s, 0 ≤ (n : Int) + sumIn DeltaOp.links (below s) log ∧
      n + sumIn DeltaOp.links (below s) log < U32_SIZE) : InRange n (log.map (·.2)) := by
  intro pre post e
  obtain ⟨pre', post', rfl, rfl, -⟩ := List.map_eq_append_iff.1 e
  obtain ⟨s, hpre⟩ := prefix_eq_filter hs rfl
  have hsum : linkSum (pre'.map (·.2)) = sumIn DeltaOp.links (below s) (pre' ++ post') := by
    unfold linkSum sumIn
    rw [← hpre, List.map_map]
    rfl
  rw [hsum]
  exact h s

theorem DirLinkHyp.room {c : FsConf} {d : Inode} (h : DirLinkHyp d c) (hX : DirTree c) (hi : Isolated c) :
    2 + c.shared.db.dirModeEntries d + linksComing d c < U32_SIZE := by
  rw [← hX.backed.subdirs_eq hi.wf]
  exact h.2.2

namespace Booked

variable {cfg : Config} {d : Inode} {base : InodeValue} {came : Name → Option Nat} {c : FsConf} {n : Nat} {call : Call}
  {e : Eff} {k : e.Res → Prog Eff Eff.Res Reply} {r : e.Res} {l l' : Local} {s' : Server} {U : Nat → Bool}

/-- With a number that is not stored a view shows all smaller ones. -/
theorem view_earlier (h : Booked d base came c) (hU : View d c.threads U) {q : Nat}
    (hq : c.shared.db.delta d q = none) (hshow : U q = true) : ∀ m < q, U m = true := by
  have hscan : ∀ {m : Nat} {th : FsThread} {ks : List (Nat × DeltaOp)}, c.threads[m]? = some th →
      th.loc.tx.scanned = some (d, ks) → ks ≠ [] → q ∉ ks.map (·.1) := by
    intro m th ks hm hs hk hmem
    obtain ⟨x, hx, rfl⟩ := List.mem_map.1 hmem
    have hstored := Db.mem_scanDeltas.1 ((h.scans m th hm ks hs hk).2 x hx)
    rw [hq] at hstored
    cases hstored
  intro m hm
  cases hU with
  | below s =>
      simp only [below, decide_eq_true_eq] at hshow ⊢
      omega
  | either hth hs hk s =>
      have hno := hscan hth hs hk
      simp only [either, decide_eq_true_eq] at hshow ⊢
      rcases hshow with hlt | hmem
      · exact Or.inl (by omega)
      · exact absurd hmem hno
  | both hth hs hk s =>
      simp only [both, decide_eq_true_eq] at hshow
      exact absurd hshow.2 (hscan hth hs hk)

/-- A step that leaves the record, the entries and the deltas of `d`.  The thread that takes it keeps its numbers and
what it has read, or gives the numbers up; if it scans, it scans all there is. -/
theorem quiet (h : Booked d base came c) (hn : c.threads[n]? = some ⟨call, .call e k, l⟩)
    (hroom : 2 + c.shared.db.dirModeEntries d + linksComing d c < U32_SIZE)
    (hnum : Numbered d ⟨s', c.threads.set n ⟨call, k r, l'⟩⟩) (hi : s'.db.inode d = c.shared.db.inode d)
    (he : s'.db.dirEntries = c.shared.db.dirEntries) (hd : s'.db.scanDeltas d = c.shared.db.scanDeltas d)
    (hq : s'.seqs d = c.shared.seqs d)
    (hl : numbersOf d l'.tx.seqs = [] ∨
      numbersOf d l'.tx.seqs = numbersOf d l.tx.seqs ∧ ∀ x ∈ l.tx.dirReads, x ∈ l'.tx.dirReads)
    (hs : ∀ ks, l'.tx.scanned = some (d, ks) → l.tx.scanned = some (d, ks) ∨ ks = c.shared.db.scanDeltas d) :
    Booked d base came ⟨s', c.threads.set n ⟨call, k r, l'⟩⟩ := by
  have hdeltas : s'.db.deltas d = c.shared.db.deltas d := congrArg (List.map Prod.snd) hd
  have hentries : s'.db.dirModeEntries d = c.shared.db.dirModeEntries d := by
    unfold Db.dirModeEntries
    rw [he]
  have hcoming : ∀ U, coming d U (c.threads.set n ⟨call, k r, l'⟩) ≤ coming d U c.threads :=
    fun U => coming_set_le hn (hl.imp_right And.left)
  refine ⟨hi.trans h.record, hnum, fun hm => ?_, ?_, ?_, ?_, fun {U} hU => ?_⟩
  · show _ < s'.seqs d
    rw [hq]
    exact h.came_lt hm
  · refine h.departs.set (fun q hm => ?_) fun _ _ _ _ hu => hu
    rcases hl with hl | ⟨hl, hreads⟩
    · rw [hl] at hm
      cases hm
    · rw [hl] at hm
      obtain ⟨m, v, hr, hv⟩ := h.departs n _ hn q hm
      exact ⟨m, v, hreads _ hr, hv⟩
  · show Pool (fun th : FsThread => ∀ ks, th.loc.tx.scanned = some (d, ks) → ks ≠ [] →
      ks.Pairwise (fun a b => a.1 < b.1) ∧ ∀ x ∈ ks, x ∈ s'.db.scanDeltas d) _
    rw [hd]
    refine h.scans.set (fun ks hsc hk => ?_) fun _ _ _ _ hu => hu
    rcases hs ks hsc with hold | rfl
    · exact h.scans n _ hn ks hold hk
    · exact ⟨OrdMap.sorted _, fun x hx => hx⟩
  · show (base.nlink : Int) + linkSum (s'.db.deltas d) = 2 + s'.db.dirModeEntries d
    rw [hdeltas, hentries]
    exact h.total
  · show Fits 2 U32_SIZE base.nlink (sumIn DeltaOp.links U (s'.db.scanDeltas d)) (s'.db.shown d came U) _
    rw [hd, Db.shown_congr he]
    have hold : View d c.threads U → Fits 2 U32_SIZE base.nlink
        (sumIn DeltaOp.links U (c.shared.db.scanDeltas d)) (c.shared.db.shown d came U)
        (coming d U (c.threads.set n ⟨call, k r, l'⟩)) :=
      fun hU => (h.fits hU).mono (le_refl _) (hcoming U)
    cases hU with
    | below s => exact hold (.below s)
    | either hm hsc hk s =>
        rcases getElem?_set_cases hm with ⟨-, rfl⟩ | ⟨-, hm⟩
        · rcases hs _ hsc with hsc | rfl
          · exact hold (.either hn hsc hk s)
          · -- the scan has found all there is
            exact (fits_of_total h.total hroom fun x hx => either_self hx).mono (le_refl _) (hcoming _)
        · exact hold (.either hm hsc hk s)
    | both hm hsc hk s =>
        rcases getElem?_set_cases hm with ⟨-, rfl⟩ | ⟨-, hm⟩
        · rcases hs _ hsc with hsc | rfl
          · exact hold (.both hn hsc hk s)
          · -- of what is stored it shows what lies below the bound
            rw [sumIn_both]
            refine (h.fits (.below s)).mono ?_ ((hcoming _).trans (coming_mono fun q => below_of_both))
            exact_mod_cast Db.shown_le _ _ _ fun q => below_of_both
        · exact hold (.both hm hsc hk s)

/-- The next number of `d` is taken.  A view that shows it shows all that is stored. -/
theorem nextSeq (h : Booked d base came c) {δ : DeltaOp} {k : (Eff.nextSeq d δ).Res → Prog Eff Eff.Res Reply}
    {r : (Eff.nextSeq d δ).Res} (hn : c.threads[n]? = some ⟨call, .call (.nextSeq d δ) k, l⟩)
    (hpre : NextOk call l.tx d δ) {c' : FsConf}
    (hc' : c' = ⟨{ c.shared with seqs := Function.update c.shared.seqs d (c.shared.seqs d + 1) },
      c.threads.set n ⟨call, k r, { l with tx := { l.tx with seqs := l.tx.seqs ++ [(d, c.shared.seqs d, δ)] } }⟩⟩)
    (hnum : Numbered d c') (hroom : 2 + c'.shared.db.dirModeEntries d + linksComing d c' < U32_SIZE) :
    Booked d base came c' := by
  have hown : numbersOf d (l.tx.seqs ++ [(d, c.shared.seqs d, δ)]) =
      numbersOf d l.tx.seqs ++ [(c.shared.seqs d, δ)] := by
    rw [numbersOf_append, numbersOf_singleton, if_pos rfl]
  have hnew : c.shared.db.delta d (c.shared.seqs d) = none := by
    cases hst : c.shared.db.delta d (c.shared.seqs d) with
    | none => rfl
    | some δ' => exact absurd (h.numbered.stored hst) (Nat.lt_irrefl _)
  subst hc'
  refine ⟨h.record, hnum, fun hm => ?_, ?_, ?_, h.total, fun {U} hU => ?_⟩
  · show _ < Function.update c.shared.seqs d (c.shared.seqs d + 1) d
    rw [Function.update_self]
    exact Nat.lt_succ_of_lt (h.came_lt hm)
  · refine h.departs.set (fun q hm => ?_) fun _ _ _ _ hu => hu
    have hm : (q, .incrementNlink (-1)) ∈ numbersOf d (l.tx.seqs ++ [(d, c.shared.seqs d, δ)]) := hm
    rw [hown] at hm
    rcases List.mem_append.1 hm with hm | hm
    · exact h.departs n _ hn q hm
    · -- the entry was read, and the numbers given out so far are smaller
      cases List.mem_singleton.1 hm
      rcases hpre.2 (-1) rfl with hone | ⟨-, ⟨m, v, hr, hv⟩, -⟩
      · cases hone
      · exact ⟨m, v, hr, hv, fun q hq => h.came_lt hq⟩
  · exact h.scans.set (fun ks hs hk => h.scans n _ hn ks hs hk) fun _ _ _ _ hu => hu
  · have hold : View d c.threads U := hU.of_set hn fun ks hs _ => hs
    by_cases hshow : U (c.shared.seqs d) = true
    · refine fits_of_total h.total hroom fun x hx => ?_
      exact h.view_earlier hold hnew hshow x.1 (h.numbered.stored (Db.mem_scanDeltas.1 hx))
    · refine (h.fits hold).mono (le_refl _) (le_of_eq ?_)
      have hset := coming_set d U
        ⟨call, k r, { l with tx := { l.tx with seqs := l.tx.seqs ++ [(d, c.shared.seqs d, δ)] } }⟩ hn
      dsimp only at hset ⊢
      rw [hown, sumIn_append, sumIn_cons, if_neg hshow, sumIn_nil] at hset
      omega

/-- The deltas after a commit that folds none of `d`. -/
theorem perm_commit (hX : Numbered d c) (hn : c.threads[n]? = some ⟨call, .call e k, l⟩)
    (hcommit : Committing cfg call l c.shared.db) (hcall : call ≠ .forceCompactInode d) :
    (c.shared.db.scanDeltas d ++ numbersOf d l.tx.seqs).Perm ((c.shared.db.applyBatch l.tx.batch).scanDeltas d) := by
  have hown : (numbersOf d l.tx.seqs).Nodup := (hX.own n _ hn).imp fun hne he => hne (congrArg Prod.fst he)
  have hapart : ∀ x ∈ c.shared.db.scanDeltas d, x ∉ numbersOf d l.tx.seqs := by
    intro x hx hm
    have hnone := (hX.taken n _ hn x hm).2
    rw [Db.mem_scanDeltas.1 hx] at hnone
    cases hnone
  refine (List.perm_ext_iff_of_nodup ?_ (Db.nodup_scanDeltas _ d)).2 fun x => ?_
  · exact (Db.nodup_scanDeltas _ d).append hown fun x hx hm => hapart x hx hm
  · have hfold : ¬l.FoldsNumber call d x.1 := fun hf => hcall hf.1
    rw [List.mem_append, Db.mem_scanDeltas, Db.mem_scanDeltas, (delta_commit hX hn hcommit x.1 x.2).1,
      hcommit.putDelta_iff]
    simp [hfold]

/-- A commit that does not compact `d`. -/
theorem commit (h : Booked d base came c) (hi : Isolated c) (hb : cfg.build = .delta)
    (hn : c.threads[n]? = some ⟨call, .call e k, l⟩) (hcommit : Committing cfg call l c.shared.db)
    (hdistinct : call.DistinctRead l.tx) (hcall : call ≠ .forceCompactInode d) {base' : InodeValue}
    (hbase : (c.shared.db.applyBatch l.tx.batch).inode d = some base') (hlinks : base'.nlink = base.nlink) :
    ∃ came', Booked d base' came' ⟨{ c.shared with db := c.shared.db.applyBatch l.tx.batch },
      c.threads.set n ⟨call, k r, ⟨{ retired := l.tx.retiring }, l.files⟩⟩⟩ := by
  have hperm := perm_commit h.numbered hn hcommit hcall
  have hnum : Numbered d ⟨{ c.shared with db := c.shared.db.applyBatch l.tx.batch },
      c.threads.set n ⟨call, k r, ⟨{ retired := l.tx.retiring }, l.files⟩⟩⟩ := h.numbered.commit hn hcommit rfl
  have htaken := h.numbered.taken n _ hn
  obtain ⟨main, dss, rest, hbatch, hw, hp⟩ := hcommit
  have hentries := (hp.tables hb).2
  rw [← Db.applyBatch_append, ← hbatch] at hentries
  have hown : (numbersOf d l.tx.seqs).map (·.2) = deltasOf dss d := by
    unfold ParentPart at hp
    rw [hb] at hp
    exact map_numbersOf hp.2 d
  obtain ⟨came', hret⟩ := hw.retallied hi.wf hdistinct (h.departs n _ hn) hown
  refine ⟨came', hbase, hnum, fun {m q} hm => ?_, ?_, ?_, ?_, fun {U} hU => ?_⟩
  · rcases hret.number m q hm with ⟨m₀, hold⟩ | ⟨δ, hmem⟩
    · exact h.came_lt hold
    · exact (htaken _ hmem).1
  · refine h.departs.set (fun q hm => by cases hm) fun m u hm hu hold q hq => ?_
    obtain ⟨a, v, hr, hv, hlt⟩ := hold q hq
    refine ⟨a, v, hr, hv, fun x hx => hlt x ?_⟩
    -- the entry is locked by the other transaction, so this one has not read it
    rw [← hret.kept a fun o ho => ?_]
    · exact hx
    · exact hi.locks n m _ u hm.symm hn hu _ ((hi.covered n _ hn).entry ho) ((hi.covered m u hu).entry hr)
  · refine h.scans.set (fun ks hs => by cases hs) fun m u _ _ hold ks hs hk => ?_
    obtain ⟨hsort, hstored⟩ := hold ks hs hk
    exact ⟨hsort, fun x hx => hperm.subset (List.mem_append_left _ (hstored x hx))⟩
  · have hsum : linkSum ((c.shared.db.applyBatch l.tx.batch).deltas d) =
        linkSum (c.shared.db.deltas d) + linkSum ((numbersOf d l.tx.seqs).map (·.2)) := by
      unfold Db.deltas
      rw [← linkSum_append, ← List.map_append]
      exact ((hperm.map Prod.snd).map DeltaOp.links).sum_eq.symm
    have hcount : (c.shared.db.applyBatch l.tx.batch).dirModeEntries d =
        (c.shared.db.applyBatch main).dirModeEntries d := by
      unfold Db.dirModeEntries
      rw [hentries]
    have htotal := h.total
    have hmoved := hret.total
    show (base'.nlink : Int) + linkSum ((c.shared.db.applyBatch l.tx.batch).deltas d) =
      2 + (c.shared.db.applyBatch l.tx.batch).dirModeEntries d
    rw [hsum, hcount, hlinks]
    omega
  · have hold : View d c.threads U := hU.of_set hn fun ks hs => by cases hs
    have hsum : sumIn DeltaOp.links U ((c.shared.db.applyBatch l.tx.batch).scanDeltas d) =
        sumIn DeltaOp.links U (c.shared.db.scanDeltas d) + sumIn DeltaOp.links U (numbersOf d l.tx.seqs) := by
      rw [← sumIn_append]
      exact (sumIn_perm hperm).symm
    have hview := hret.view U fun q hq hshow => h.view_earlier hold (htaken _ hq).2 hshow
    have hset := coming_set d U ⟨call, k r, ⟨{ retired := l.tx.retiring }, l.files⟩⟩ hn
    have hgain := sumIn_le DeltaOp.links_le_gain U (numbersOf d l.tx.seqs)
    have hnone : sumIn DeltaOp.gain U (numbersOf d ({ retired := l.tx.retiring } : Txn).seqs) = 0 := rfl
    dsimp only at hset
    rw [hnone] at hset
    have hasked : coming d U (c.threads.set n ⟨call, k r, ⟨{ retired := l.tx.retiring }, l.files⟩⟩) +
        sumIn DeltaOp.links U (numbersOf d l.tx.seqs) ≤ coming d U c.threads := by omega
    show Fits 2 U32_SIZE base'.nlink (sumIn DeltaOp.links U ((c.shared.db.applyBatch l.tx.batch).scanDeltas d))
      ((c.shared.db.applyBatch l.tx.batch).shown d came' U) _
    rw [hsum, hlinks, Db.shown_congr hentries]
    exact (h.fits hold).change hview hasked

section

variable (h : Booked d base came c) (hn : c.threads[n]? = some ⟨.forceCompactInode d, .call e k, l⟩)
  (hcommit : Committing cfg (.forceCompactInode d) l c.shared.db) {ks : List (Nat × DeltaOp)}

include h hn hcommit

/-- The scanned deltas and those that are left after the compaction are all that were stored. -/
theorem perm_compaction (hs : l.tx.scanned = some (d, ks)) (hk : ks ≠ []) :
    (ks ++ (c.shared.db.applyBatch l.tx.batch).scanDeltas d).Perm (c.shared.db.scanDeltas d) ∧
      ∀ x ∈ (c.shared.db.applyBatch l.tx.batch).scanDeltas d, x.1 ∉ ks.map (·.1) := by
  obtain ⟨hsort, hstored⟩ := h.scans n _ hn ks hs hk
  have hleft : ∀ x, x ∈ (c.shared.db.applyBatch l.tx.batch).scanDeltas d ↔
      x ∈ c.shared.db.scanDeltas d ∧ x.1 ∉ ks.map (·.1) := by
    intro x
    have hput : .putDelta d x.1 x.2 ∉ l.tx.batch := by
      obtain ⟨base', ks', -, -, -, hbatch⟩ := hcommit.compaction
      rw [hbatch]
      simp
    have hfold : l.FoldsNumber (.forceCompactInode d) d x.1 ↔ x.1 ∈ ks.map (·.1) := by
      constructor
      · rintro ⟨-, ks', δ, hs', hm⟩
        rw [hs] at hs'
        cases hs'
        exact List.mem_map.2 ⟨_, hm, rfl⟩
      · intro hm
        obtain ⟨y, hy, e⟩ := List.mem_map.1 hm
        exact ⟨rfl, ks, y.2, hs, e ▸ hy⟩
    rw [Db.mem_scanDeltas, Db.mem_scanDeltas, (delta_commit h.numbered hn hcommit x.1 x.2).1, or_iff_left hput, hfold]
  refine ⟨perm_scanDeltas (hsort.imp fun hlt e => ?_) (fun x => ?_) fun x hx hm => ?_, fun x hx => ((hleft x).1 hx).2⟩
  · rw [e] at hlt
    exact Nat.lt_irrefl _ hlt
  · rw [hleft]
    constructor
    · intro hx
      by_cases hm : x.1 ∈ ks.map (·.1)
      · -- under one number there is one delta
        obtain ⟨y, hy, e⟩ := List.mem_map.1 hm
        have hsame := Db.mem_scanDeltas.1 (hstored y hy)
        rw [e, Db.mem_scanDeltas.1 hx] at hsame
        have hxy : y = x := Prod.ext e (Option.some.inj hsame).symm
        exact Or.inl (hxy ▸ hy)
      · exact Or.inr ⟨hx, hm⟩
    · rintro (hx | hx)
      · exact hstored x hx
      · exact hx.1
  · exact ((hleft x).1 hx).2 (List.mem_map_of_mem hm)

/-- The links that the compaction stores are not clamped: each sum on the way through the scanned deltas is that of a
view. -/
theorem nlink_compaction (hs : l.tx.scanned = some (d, ks)) (hk : ks ≠ []) :
    ((foldDeltas base (ks.map (·.2))).nlink : Int) = base.nlink + linkSum (ks.map (·.2)) := by
  obtain ⟨hperm, hapart⟩ := h.perm_compaction hn hcommit hs hk
  obtain ⟨hsort, -⟩ := h.scans n _ hn ks hs hk
  refine foldDeltas_nlink (inRange_of_views hsort fun s => ?_)
  have hsum : sumIn DeltaOp.links (both (ks.map (·.1)) s) (c.shared.db.scanDeltas d) =
      sumIn DeltaOp.links (below s) ks := by
    rw [← sumIn_perm hperm, sumIn_append, sumIn_both, sumIn_both_apart hapart, add_zero]
  obtain ⟨hlow, hhigh⟩ := h.fits (.both hn hs hk s)
  have hpos : 0 ≤ coming d (both (ks.map (·.1)) s) c.threads := coming_nonneg
  rw [hsum] at hlow hhigh
  omega

/-- The compaction of `d`: the deltas it has scanned become part of the record, the entries that came under them came
before all that is left. -/
theorem compaction
    (hother : ∀ m u ks, m ≠ n → c.threads[m]? = some u → u.loc.tx.scanned = some (d, ks) → ks = []) :
    ∃ base' came', Booked d base' came' ⟨{ c.shared with db := c.shared.db.applyBatch l.tx.batch },
      c.threads.set n ⟨.forceCompactInode d, k r, ⟨{ retired := l.tx.retiring }, l.files⟩⟩⟩ := by
  have hnum : Numbered d ⟨{ c.shared with db := c.shared.db.applyBatch l.tx.batch },
      c.threads.set n ⟨.forceCompactInode d, k r, ⟨{ retired := l.tx.retiring }, l.files⟩⟩⟩ :=
    h.numbered.commit hn hcommit rfl
  obtain ⟨base₀, ks, hrec, hs, hk, hbatch⟩ := hcommit.compaction
  obtain ⟨hperm, hapart⟩ := h.perm_compaction hn hcommit hs hk
  obtain rfl : base₀ = base := Option.some.inj (hrec.symm.trans h.record)
  have hentries : (c.shared.db.applyBatch l.tx.batch).dirEntries = c.shared.db.dirEntries := by
    rw [hbatch]
    exact (Writes.folds_compaction hrec (foldDeltas_mode _ _)).dirEntries
  have hfold := h.nlink_compaction hn hcommit hs hk
  refine ⟨foldDeltas base₀ (ks.map (·.2)), fun m => (came m).filter fun q => decide (q ∉ ks.map (·.1)), ?_, hnum,
    fun {m q} hm => ?_, ?_, ?_, ?_, fun {U} hU => ?_⟩
  · show (c.shared.db.applyBatch l.tx.batch).inode d = _
    rw [hbatch, inode_compaction, if_pos rfl]
  · exact h.came_lt (Option.filter_eq_some_iff.1 hm).1
  · refine h.departs.set (fun q hm => by cases hm) fun m u _ _ hold q hq => ?_
    obtain ⟨a, v, hr, hv, hlt⟩ := hold q hq
    exact ⟨a, v, hr, hv, fun x hx => hlt x (Option.filter_eq_some_iff.1 hx).1⟩
  · refine h.scans.set (fun ks hs => by cases hs) fun m u hm hu _ ks hs hk => ?_
    exact absurd (hother m u ks hm hu hs) hk
  · have hsum : linkSum (c.shared.db.deltas d) =
        linkSum (ks.map (·.2)) + linkSum ((c.shared.db.applyBatch l.tx.batch).deltas d) := by
      unfold Db.deltas
      rw [← linkSum_append, ← List.map_append]
      exact ((hperm.map Prod.snd).map DeltaOp.links).sum_eq.symm
    have hcount : (c.shared.db.applyBatch l.tx.batch).dirModeEntries d = c.shared.db.dirModeEntries d := by
      unfold Db.dirModeEntries
      rw [hentries]
    have htotal := h.total
    show ((foldDeltas base₀ (ks.map (·.2))).nlink : Int) +
      linkSum ((c.shared.db.applyBatch l.tx.batch).deltas d) = 2 + (c.shared.db.applyBatch l.tx.batch).dirModeEntries d
    rw [hfold, hcount]
    omega
  · have hbelow : ∃ s, U = below s := by
      cases hU with
      | below s => exact ⟨s, rfl⟩
      | either hm hsc hk s =>
          rcases getElem?_set_cases hm with ⟨-, rfl⟩ | ⟨hne, hm⟩
          · cases hsc
          · exact absurd (hother _ _ _ hne hm hsc) hk
      | both hm hsc hk s =>
          rcases getElem?_set_cases hm with ⟨-, rfl⟩ | ⟨hne, hm⟩
          · cases hsc
          · exact absurd (hother _ _ _ hne hm hsc) hk
    obtain ⟨s, rfl⟩ := hbelow
    have hsum : sumIn DeltaOp.links (either (ks.map (·.1)) s) (c.shared.db.scanDeltas d) =
        linkSum (ks.map (·.2)) +
          sumIn DeltaOp.links (below s) ((c.shared.db.applyBatch l.tx.batch).scanDeltas d) := by
      rw [← sumIn_perm hperm, sumIn_append, sumIn_either_apart hapart, sumIn_all fun x => either_self]
      unfold linkSum
      rw [List.map_map]
      rfl
    have hshown : (c.shared.db.applyBatch l.tx.batch).shown d
        (fun m => (came m).filter fun q => decide (q ∉ ks.map (·.1))) (below s) =
        c.shared.db.shown d came (either (ks.map (·.1)) s) := by
      rw [Db.shown_congr hentries]
      apply OrdMap.count_congr
      intro key v _
      unfold shownBy
      congr 1
      exact shows_filter _ s (came (ofLex key).2)
    have hcoming : coming d (below s)
        (c.threads.set n ⟨.forceCompactInode d, k r, ⟨{ retired := l.tx.retiring }, l.files⟩⟩) ≤
        coming d (either (ks.map (·.1)) s) c.threads :=
      (coming_set_le hn (Or.inl rfl)).trans (coming_mono fun q => either_of_below)
    have hfits := h.fits (.either hn hs hk s)
    rw [hsum] at hfits
    show Fits 2 U32_SIZE ((foldDeltas base₀ (ks.map (·.2))).nlink : Int)
      (sumIn DeltaOp.links (below s) ((c.shared.db.applyBatch l.tx.batch).scanDeltas d))
      ((c.shared.db.applyBatch l.tx.batch).shown d _ (below s)) _
    rw [hfold, hshown]
    exact hfits.fold.mono (le_refl _) hcoming

end

/-- A directory that nothing is stored, taken or scanned for, with two links and without entries. -/
theorem of_empty (hrec : c.shared.db.inode d = some base) (hlinks : base.nlink = 2 + c.shared.db.dirModeEntries d)
    (hdeltas : c.shared.db.scanDeltas d = [])
    (hnum : ∀ (m : Nat) (th : FsThread), c.threads[m]? = some th → numbersOf d th.loc.tx.seqs = [])
    (hscan : ∀ (m : Nat) (th : FsThread) (ks : List (Nat × DeltaOp)), c.threads[m]? = some th →
      th.loc.tx.scanned = some (d, ks) → ks = [])
    (hroom : 2 + c.shared.db.dirModeEntries d + linksComing d c < U32_SIZE) :
    Booked d base (fun _ => none) c := by
  have hstored : ∀ {q δ}, c.shared.db.delta d q ≠ some δ := by
    intro q δ hq
    have hm : (q, δ) ∈ c.shared.db.scanDeltas d := Db.mem_scanDeltas.2 hq
    rw [hdeltas] at hm
    cases hm
  have htotal : (base.nlink : Int) + linkSum (c.shared.db.deltas d) = 2 + c.shared.db.dirModeEntries d := by
    have hnil : c.shared.db.deltas d = [] := congrArg (List.map Prod.snd) hdeltas
    rw [hnil, linkSum_nil, hlinks]
    omega
  refine ⟨hrec, ⟨fun hq => absurd hq hstored, fun m th hm x hx => ?_, fun m th hm => ?_, fun m m' u v _ hu _ x hx => ?_⟩,
    fun hm => (by cases hm), fun m th hm q hq => ?_, fun m th hm ks hs hk => absurd (hscan m th ks hm hs) hk, htotal,
    fun {U} _ => fits_of_total htotal hroom fun x hx => ?_⟩
  · rw [hnum m th hm] at hx
    cases hx
  · show DistinctNumbers (numbersOf d th.loc.tx.seqs)
    rw [hnum m th hm]
    exact .nil
  · rw [hnum m u hu] at hx
    cases hx
  · rw [hnum m th hm] at hq
    cases hq
  · rw [hdeltas] at hx
    cases hx

theorem start (h : Booked d base came c) {admits : Server → Call → Prop} :
    Booked d base came ⟨c.shared, c.threads ++ [(fsSystem cfg admits).spawn call]⟩ := by
  refine ⟨h.record, h.numbered.start, h.came_lt, h.departs.append fun q hq => ?_, h.scans.append fun ks hs => ?_,
    h.total, fun {U} hU => ?_⟩
  · cases hq
  · cases hs
  · show Fits 2 U32_SIZE base.nlink (sumIn DeltaOp.links U (c.shared.db.scanDeltas d)) (c.shared.db.shown d came U)
      (coming d U (c.threads ++ [(fsSystem cfg admits).spawn call]))
    rw [coming_append rfl]
    exact h.fits (hU.of_append rfl)

end Booked

/-- A new directory has no deltas, and nobody has taken numbers for it or scanned it. -/
theorem booked_of_birth {cfg : Config} {d : Inode} {iv : InodeValue} {c : FsConf} {n : Nat} {call : Call} {e : Eff}
    {k : e.Res → Prog Eff Eff.Res Reply} {l : Local} {r : e.Res} (hX : DirTree c)
    (hn : c.threads[n]? = some ⟨call, .call e k, l⟩) (hcommit : Committing cfg call l c.shared.db)
    (hnew : d ∈ l.tx.allocated) {c' : FsConf}
    (hc' : c' = ⟨{ c.shared with db := c.shared.db.applyBatch l.tx.batch },
      c.threads.set n ⟨call, k r, ⟨{ retired := l.tx.retiring }, l.files⟩⟩⟩)
    (hrec : c'.shared.db.inode d = some iv) (hlinks : iv.nlink = 2)
    (hroom : 2 + c'.shared.db.dirModeEntries d + linksComing d c' < U32_SIZE) :
    Booked d iv (fun _ => none) c' := by
  have hunborn : Unborn c d := Or.inr ⟨_, List.mem_of_getElem? hn, hnew⟩
  have hparent : d ∉ call.parents := fun hp => (hX.roles.parents n _ hn d hp).1 hunborn
  subst hc'
  apply Booked.of_empty hrec _ _ _ _ hroom
  · have hnone : (c.shared.db.applyBatch l.tx.batch).dirModeEntries d = 0 := by
      apply OrdMap.count_eq_zero.2
      intro key v hv
      by_cases hkey : (ofLex key).1 = d
      · -- an entry under `d` was there before, or is put by a call that has `d` as its parent
        have he : (c.shared.db.applyBatch l.tx.batch).entry d (ofLex key).2 = some v := hkey ▸ hv
        rcases hcommit.new_entry he with hold | ⟨hadds, -⟩
        · exact absurd hunborn (hX.born hold)
        · exact absurd (Call.adds_parent hadds) hparent
      · have hb : ((ofLex key).1 == d) = false := by simpa using hkey
        rw [hb]
        rfl
    show iv.nlink = 2 + (c.shared.db.applyBatch l.tx.batch).dirModeEntries d
    rw [hnone, hlinks]
  · apply List.eq_nil_iff_forall_not_mem.2
    intro x hx
    rcases Db.delta_applyBatch (Db.mem_scanDeltas.1 hx) with hold | hput
    · exact (hX.roles.deltas hold).1 hunborn
    · exact hparent (hcommit.putDelta_parent hput)
  · intro m th hm
    rcases getElem?_set_cases hm with ⟨-, rfl⟩ | ⟨-, hm⟩
    · rfl
    · apply List.eq_nil_iff_forall_not_mem.2
      exact fun x hx => hX.born_of_number hm hx hunborn
  · intro m th ks hm hs
    rcases getElem?_set_cases hm with ⟨-, rfl⟩ | ⟨-, hm⟩
    · cases hs
    · by_contra hk
      exact (hX.roles.scanned m th hm d ks hs hk).1 hunborn

/-! ## The run -/

section

variable {cfg : Config} {s₀ : Server} {c : FsConf} {d : Inode}

/-- The deltas of a directory of the tree are not cleared. -/
theorem DirTree.not_cleared {n : Nat} {call : Call} {j : Inode} {k : (Eff.clearDeltas j).Res → Prog Eff Eff.Res Reply}
    {l : Local} (h : DirTree c) (hi : Isolated c) (hn : c.threads[n]? = some ⟨call, .call (.clearDeltas j) k, l⟩)
    (hpre : (contract cfg True call).pre (.clearDeltas j) l) (hd : c.shared.db.LiveDir d) : d ≠ j := by
  rintro rfl
  rcases hpre.2 trivial with hret | hfile
  · exact (h.retired n _ hn d hret).2 hd
  · exact h.not_isDirectory hn d hfile (hd.isDirectory h.backed hi.wf)

/-- One effect of one call keeps the books of a directory of the tree, or opens them. -/
theorem booked_act {n : Nat} {call : Call} {e : Eff} {k : e.Res → Prog Eff Eff.Res Reply} {l l' : Local} {r : e.Res}
    {s' : Server} (hb : cfg.build = .delta) (hH : DirLinkHyp d c) (hX : DirTree c) (hi : Isolated c)
    (hwp : ∀ th ∈ c.threads, wp (contract cfg True th.tag) th.prog (fun _ l => l.Idle) th.loc)
    (hn : c.threads[n]? = some ⟨call, .call e k, l⟩)
    (ha : Acts cfg (c.threads.eraseIdx n) e l c.shared r l' s')
    (hroom : 2 + s'.db.dirModeEntries d + linksComing d ⟨s', c.threads.set n ⟨call, k r, l'⟩⟩ < U32_SIZE)
    (ih : c.shared.db.LiveDir d → ∃ base came, Booked d base came c) (hlive : s'.db.LiveDir d) :
    ∃ base came, Booked d base came ⟨s', c.threads.set n ⟨call, k r, l'⟩⟩ := by
  have hpre : (contract cfg True call).pre e l := (hwp _ (List.mem_of_getElem? hn)).1
  have hscan : ∀ ks, l'.tx.scanned = some (d, ks) → l.tx.scanned = some (d, ks) ∨ ks = c.shared.db.scanDeltas d :=
    fun ks hs => (ha.scanned hs).imp id And.right
  have hroom₀ := hH.room hX hi
  rcases ha.table_cases with ⟨rfl, rfl, rfl⟩ | ⟨j, rfl, rfl, rfl⟩ | ⟨p, δ, rfl, rfl, rfl⟩ | ⟨⟨hin, hen, hde, hseq⟩, -, hl⟩
  · have hv := hi.valid n _ hn
    have hcommit : Committing cfg call l c.shared.db := hpre _ _ hv hi.wf
    obtain ⟨main, dss, rest, hbatch, hw, hp⟩ := hcommit
    obtain ⟨hin, hen⟩ := hp.tables hb
    rw [← Db.applyBatch_append, ← hbatch] at hin hen
    have hinode : (c.shared.db.applyBatch l.tx.batch).inode d = (c.shared.db.applyBatch main).inode d := by
      unfold Db.inode
      rw [hin]
    rcases hw.live_cases hi.wf (hlive.congr hen) with hold | ⟨hnew, iv, hiv, hlinks⟩
    · obtain ⟨base, came, h⟩ := ih hold
      by_cases hcall : call = .forceCompactInode d
      · -- no other compaction is running
        subst hcall
        refine h.compaction hn ⟨main, dss, rest, hbatch, hw, hp⟩ fun m u ks hm hu hs => ?_
        by_contra hk
        have hrun := result_of_scanned (hwp u (List.mem_of_getElem? hu)) hs hk
        have htag : u.tag = .forceCompactInode d := hX.scans m u hu d ks hs
        exact hH.2.1 n m _ u hm.symm hn hu rfl hrun ⟨rfl, by rw [htag]; rfl⟩
      · obtain ⟨base₀, hrec, hdir⟩ := hold.isDirectory hX.backed hi.wf
        obtain rfl : base₀ = base := Option.some.inj (hrec.symm.trans h.record)
        obtain ⟨base', hrec', hlinks | hcomp⟩ :=
          hw.dir_links hv hi.wf (hX.not_isDirectory hn) hrec hdir (hlive.congr hen)
        · exact ⟨base', h.commit hi hb hn ⟨main, dss, rest, hbatch, hw, hp⟩ (hH.1 _ (List.mem_of_getElem? hn)) hcall
            (hinode.trans hrec') hlinks⟩
        · exact absurd hcomp hcall
    · exact ⟨iv, _, booked_of_birth hX hn ⟨main, dss, rest, hbatch, hw, hp⟩ hnew rfl (hinode.trans hiv) hlinks hroom⟩
  · have hne := hX.not_cleared hi hn hpre hlive
    obtain ⟨base, came, h⟩ := ih hlive
    have hnum := h.numbered.act hi hn hpre (fun e => hne (by cases e; rfl)) ha
    refine ⟨base, came, h.quiet hn hroom₀ hnum rfl rfl ?_ (Function.update_of_ne hne _ _) (Or.inr ⟨rfl, fun _ hx => hx⟩)
      hscan⟩
    apply congrArg OrdMap.toList
    apply OrdMap.ext_get
    intro q
    rw [OrdMap.get_slice, OrdMap.get_slice]
    exact (Db.delta_clearDeltas c.shared j d q).trans (if_neg hne)
  · obtain ⟨base, came, h⟩ := ih hlive
    have hnum := h.numbered.act hi hn hpre (fun e => by cases e) ha
    by_cases hp : p = d
    · subst hp
      exact ⟨base, came, h.nextSeq hn hpre rfl hnum hroom⟩
    · refine ⟨base, came, h.quiet hn hroom₀ hnum rfl rfl rfl (Function.update_of_ne (Ne.symm hp) _ _)
        (Or.inr ⟨?_, fun _ hx => hx⟩) hscan⟩
      dsimp only
      rw [numbersOf_append, numbersOf_singleton, if_neg hp, List.append_nil]
  · obtain ⟨base, came, h⟩ := ih (hlive.congr hen)
    have hne : e ≠ .clearDeltas d := by
      rintro rfl
      exact hX.not_cleared hi hn hpre (hlive.congr hen) rfl
    have hscans : s'.db.scanDeltas d = c.shared.db.scanDeltas d := by
      unfold Db.scanDeltas
      rw [hde]
    refine ⟨base, came, h.quiet hn hroom₀ (h.numbered.act hi hn hpre hne ha) (congrArg (OrdMap.get · d) hin) hen hscans
      (by rw [hseq]) ?_ hscan⟩
    rcases hl with hl | ⟨hl, hreads⟩
    · exact Or.inl (by rw [hl]; rfl)
    · exact Or.inr ⟨by rw [hl], hreads⟩

/-- The books of every directory of the tree are in order in every state of every run. -/
theorem booked_of_reach (hb : cfg.build = .delta) (h₀ : s₀.Settled)
    (h : Reach (fsSystem cfg fun s call => call.ParentsExist s.db) (DirLinkHyp d) ⟨s₀, []⟩ c) :
    c.shared.db.LiveDir d → ∃ base came, Booked d base came c := by
  induction h with
  | init hH =>
      intro hd
      have hd : s₀.db.LiveDir d := hd
      obtain ⟨base, hrec, -⟩ := hd.isDirectory h₀.backed h₀.starts.wf.db
      have hlinks := h₀.links hd hrec
      rw [h₀.backed.subdirs_eq h₀.starts.wf.db] at hlinks
      have hroom := hH.room (.of_server h₀) (.of_server h₀.starts.wf)
      exact ⟨base, _, .of_empty hrec hlinks (List.map_eq_nil_iff.1 (h₀.deltas d)) (fun m th hm => by simp at hm)
        (fun m th ks hm => by simp at hm) hroom⟩
  | @step c c' hr hs hH ih =>
      intro hd
      obtain ⟨⟨hX, hi⟩, hwp⟩ := dirTree_of_reach hb h₀ hr
      obtain ⟨⟨hX', hi'⟩, -⟩ := dirTree_of_reach hb h₀ (.step hr hs hH)
      have hroom := hH.room hX' hi'
      cases hs with
      | start hadm =>
          obtain ⟨base, came, h⟩ := ih hd
          exact ⟨base, came, h.start⟩
      | act hn ha => exact booked_act hb hr.hyp hX hi hwp hn ha hroom ih hd

/-- **In every state of every interleaving, a directory of the tree has two links more than it has subdirectories**,
counted in its record folded with all its stored deltas. -/
theorem dir_links_counted (hb : cfg.build = .delta) (h₀ : s₀.Settled)
    (h : Reach (fsSystem cfg fun s call => call.ParentsExist s.db) (DirLinkHyp d) ⟨s₀, []⟩ c)
    (hd : c.shared.db.Existing d) :
    ∃ iv, c.shared.db.effective d = some iv ∧ iv.nlink = 2 + c.shared.db.subdirs d := by
  obtain ⟨⟨hX, hi⟩, -⟩ := dirTree_of_reach hb h₀ h
  have hlive : c.shared.db.LiveDir d := by
    rcases hd.2 with hroot | hn
    · exact Or.inl hroot
    · exact .of_named hi.wf hd.1 hn
  obtain ⟨base, came, ht⟩ := booked_of_reach hb h₀ h hlive
  have hrange : InRange base.nlink (c.shared.db.deltas d) := by
    refine inRange_of_views (OrdMap.sorted _) fun s => ?_
    obtain ⟨hlow, hhigh⟩ := ht.fits (.below s)
    have hpos : 0 ≤ coming d (below s) c.threads := coming_nonneg
    omega
  refine ⟨foldDeltas base (c.shared.db.deltas d), ?_, ?_⟩
  · unfold Db.effective
    rw [ht.record]
    rfl
  · have hfold := foldDeltas_nlink hrange
    have htotal := ht.total
    rw [hX.backed.subdirs_eq hi.wf]
    omega

end

/-- `mkdir` of `1/a` has taken its numbers when `1/b` is made.  `rmdir` of `1/b` has taken its own when a compaction of
the root scans the links of `1/b`; both commit before the compaction folds them. -/
def madeAndRemovedAroundScan : List (Choice Call) :=
  .start (.mkdir ROOT_INODE [97] 0o755 0 0) :: List.replicate 12 (.run 0) ++
    .start (.mkdir ROOT_INODE [98] 0o755 0 0) :: List.replicate 18 (.run 1) ++
      .start (.rmdir ROOT_INODE [98]) :: List.replicate 13 (.run 2) ++
        .start (.forceCompactInode ROOT_INODE) :: .run 3 :: .run 0 :: .run 2 :: List.replicate 9 (.run 3) ++
          List.replicate 5 (.run 0) ++ List.replicate 5 (.run 2)

theorem dir_links_counted_aroundScan : ∃ c iv,
    Reach (fsSystem {} fun s call => call.ParentsExist s.db) (DirLinkHyp ROOT_INODE) ⟨Server.fresh {}, []⟩ c ∧
    c.threads.map (fun th => th.result.isSome) = [true, true, true, true] ∧
    (c.shared.db.scanDeltas ROOT_INODE).map (fun x => (x.1, x.2.links)) =
      [(0, 1), (1, 0), (2, 0), (6, -1), (7, 0), (8, 0)] ∧
    c.shared.db.effective ROOT_INODE = some iv ∧ iv.nlink = 2 + c.shared.db.subdirs ROOT_INODE ∧ iv.nlink = 3 := by
  have hrun : ((fsScheduler {} (fun s call => call.ParentsExist s.db) (DirLinkHyp ROOT_INODE)).run
      madeAndRemovedAroundScan ⟨Server.fresh {}, []⟩).map (fun c =>
        decide (c.threads.map (fun th => th.result.isSome) = [true, true, true, true] ∧
          (c.shared.db.scanDeltas ROOT_INODE).map (fun x => (x.1, x.2.links)) =
            [(0, 1), (1, 0), (2, 0), (6, -1), (7, 0), (8, 0)] ∧
          c.shared.db.Existing ROOT_INODE ∧ c.shared.db.subdirs ROOT_INODE = 1)) = some true := by
    decide +kernel
  obtain ⟨c, hc, hv⟩ := Option.map_eq_some_iff.1 hrun
  obtain ⟨hres, hdeltas, hroot, hsub⟩ := of_decide_eq_true hv
  have hreach := fsScheduler_reach {} _ (DirLinkHyp ROOT_INODE) madeAndRemovedAroundScan (by decide) hc
  obtain ⟨iv, heff, hlinks⟩ := dir_links_counted rfl (Server.settled_fresh {}) hreach hroot
  exact ⟨c, iv, hreach, hres, hdeltas, heff, hlinks, by rw [hlinks, hsub]⟩

end RucksFs
