import RucksFs.Client.Fuse
import RucksFs.Lib.Paging
import RucksFs.Lib.Trace

/-!
# Listing a directory page by page (`FuseClient::readdirplus`)

The kernel asks for entries from a cookie on, consumes some of them and comes back with the cookie of the last one.
The cookie is a position in the listing of its own call; the next call counts positions in a listing made anew.

* `Enumeration`, `ListingEvent.step` — pages, and requests of anybody to the metadata server between them.
* `Enumeration.cursor` — an enumeration is a `Cursor` over what the entries show.
* `listed_once` — as long as no request changes how many entries come at or before the last one consumed, every
  entry that stays is consumed exactly once.
* `entry_skipped` — a file is deleted, and another one is never listed.
-/

set_option autoImplicit false

namespace RucksFs

/-- The cookie for the next call, and what the kernel has consumed. -/
structure Enumeration where
  offset : Nat := 0
  consumed : List DirectoryEntryPlus := []
  deriving DecidableEq

/-- The cookie of the last entry is the next offset. -/
def Enumeration.consume (en : Enumeration) (entries : List DirectoryEntryPlus) : Enumeration :=
  match entries.getLast? with
  | some last => ⟨last.offset, en.consumed ++ entries⟩
  | none => en

inductive ListingEvent where
  /-- A request of anybody to the metadata server. -/
  | edit (c : Call)
  /-- A call of `readdirplus`, of which the kernel consumes the first `n` entries. -/
  | page (n : Nat)
  deriving DecidableEq

def ListingEvent.step {δ : Type} (S : VfsSetup δ) (d : Inode) (ev : ListingEvent) (st : VfsState δ × Enumeration) :
    Except Errno (List DirectoryEntryPlus) × VfsState δ × Enumeration :=
  match ev with
  | .edit c => (.ok [], { st.1 with server := (st.1.server.exec S.cfg c).2 }, st.2)
  | .page n =>
      match st.1.fuse S (FuseClient.readdirplus d st.2.offset) with
      | (.ok entries, v) => (.ok entries, v, st.2.consume (entries.take n))
      | (.error e, v) => (.error e, v, st.2)

/-! ## An enumeration is a cursor -/

/-- What an entry shows apart from its cookie. -/
def DirectoryEntryPlus.strip (x : DirectoryEntryPlus) : DirectoryEntryPlus := { x with offset := 0 }

def DirEntry.shown (e : DirEntry) : DirectoryEntryPlus := (directoryEntryPlus e 0).strip

def Enumeration.cursor (en : Enumeration) : Cursor DirectoryEntryPlus := ⟨en.offset, en.consumed.map .strip⟩

theorem sorted_listDir (db : Db) (d : Inode) :
    ((db.listDir d).map DirEntry.shown).Pairwise fun a b => a.name < b.name := by
  unfold Db.listDir
  rw [List.map_map, List.pairwise_map]
  exact (db.dirEntries.slice d).sorted

theorem getElem?_pageFrom (l : List DirEntry) (offset k : Nat) :
    (pageFrom l offset)[k]? = (l[offset + k]?).map fun e => directoryEntryPlus e (offset + k) := by
  unfold pageFrom
  simp [List.getElem?_map, List.getElem?_drop, List.getElem?_zipIdx, Option.map_map, Function.comp_def]

theorem strip_pageFrom (l : List DirEntry) (offset : Nat) :
    (pageFrom l offset).map .strip = (l.map DirEntry.shown).drop offset := by
  apply List.ext_getElem?
  intro k
  rw [List.getElem?_map, getElem?_pageFrom, List.getElem?_drop, List.getElem?_map, Option.map_map]
  rfl

/-- The cookie of the last entry consumed is the position after it. -/
theorem offset_of_getLast {l : List DirEntry} {offset n : Nat} {last : DirectoryEntryPlus}
    (h : ((pageFrom l offset).take n).getLast? = some last) :
    last.offset = offset + ((pageFrom l offset).take n).length := by
  have hpos : 0 < ((pageFrom l offset).take n).length := by
    apply List.length_pos_iff.2
    intro hnil
    rw [hnil] at h
    cases h
  rw [List.getLast?_eq_getElem?] at h
  generalize hlen : ((pageFrom l offset).take n).length = m at h hpos ⊢
  have hm : m - 1 < n := by
    have := List.length_take_le n (pageFrom l offset)
    omega
  rw [List.getElem?_take_of_lt hm, getElem?_pageFrom] at h
  obtain ⟨e, -, rfl⟩ := Option.map_eq_some_iff.1 h
  show offset + (m - 1) + 1 = offset + m
  omega

/-- **Consuming a page is a step of the cursor.** -/
theorem cursor_consume (en : Enumeration) (l : List DirEntry) (n : Nat) :
    (en.consume ((pageFrom l en.offset).take n)).cursor = en.cursor.advance (l.map DirEntry.shown) n := by
  have htaken : ((l.map DirEntry.shown).drop en.offset).take n = ((pageFrom l en.offset).take n).map .strip := by
    rw [← strip_pageFrom, List.map_take]
  unfold Cursor.advance
  show _ = (⟨en.offset + (((l.map DirEntry.shown).drop en.offset).take n).length,
    en.consumed.map .strip ++ ((l.map DirEntry.shown).drop en.offset).take n⟩ : Cursor DirectoryEntryPlus)
  rw [htaken, List.length_map, ← List.map_append]
  unfold Enumeration.consume
  cases hlast : ((pageFrom l en.offset).take n).getLast? with
  | none =>
      rw [List.getLast?_eq_none_iff.1 hlast, List.append_nil]
      rfl
  | some last =>
      rw [← offset_of_getLast hlast]
      rfl

/-! ## Runs -/

section

variable {δ : Type} {S : VfsSetup δ} {d : Inode}

/-- The cookie counts the entries at or before the last one consumed. -/
def Enumeration.InPlace (en : Enumeration) (l : List DirEntry) : Prop :=
  en.cursor.Aligned DirectoryEntryPlus.name (l.map DirEntry.shown)

instance (en : Enumeration) (l : List DirEntry) : Decidable (en.InPlace l) :=
  inferInstanceAs (Decidable (Cursor.Aligned _ _ _))

/-- Every call comes with a cookie that is in place. -/
def ListingEvent.InPlace (d : Inode) (st : VfsState δ × Enumeration) : ListingEvent → Prop
  | .edit _ => True
  | .page _ => st.2.InPlace (st.1.server.db.listDir d)

/-- One event. -/
theorem once_step {st : VfsState δ × Enumeration} {ev : ListingEvent} {e : DirEntry}
    (h : st.2.cursor.Once DirectoryEntryPlus.name e.shown) (hin : ev.InPlace d st)
    (he : e ∈ st.1.server.db.listDir d) :
    (ev.step S d st).2.2.cursor.Once DirectoryEntryPlus.name e.shown := by
  cases ev with
  | edit c => exact h
  | page n =>
      unfold ListingEvent.step VfsState.fuse
      dsimp only
      rw [run_readdirplus]
      cases hl : st.1.server.listing d with
      | error err => exact h
      | ok l =>
          have hstored := Server.listing_ok hl
          subst hstored
          show ((st.2.consume ((pageFrom (st.1.server.db.listDir d) st.2.offset).take n)).cursor).Once _ _
          rw [cursor_consume]
          exact h.advance hin (sorted_listDir _ d) (List.mem_map_of_mem he) n

/-- **An entry that stays is consumed exactly once.**  In every run of `readdirplus` calls, with any requests to the
metadata server between them, whose cookies are all in place: when a call returns no more entries, one entry with
the name of `e` has been consumed, and it is that of `e`. -/
theorem listed_once {v₀ v : VfsState δ} {en : Enumeration} {e : DirEntry}
    {es : List (ListingEvent × Except Errno (List DirectoryEntryPlus))}
    (h : Trace (ListingEvent.step S d) (fun _ st ev => ev.InPlace d st ∧ e ∈ st.1.server.db.listDir d)
      (v₀, {}) es (v, en))
    (hin : en.InPlace (v.server.db.listDir d)) (he : e ∈ v.server.db.listDir d)
    (hend : (v.fuse S (FuseClient.readdirplus d en.offset)).1 = .ok []) :
    ∃ x, en.consumed.filter (fun x => decide (x.name = e.name)) = [x] ∧ x.strip = e.shown := by
  have honce : en.cursor.Once DirectoryEntryPlus.name e.shown :=
    h.invariant (fun _ st => st.2.cursor.Once DirectoryEntryPlus.name e.shown) Cursor.once_start
      fun ih hok => once_step ih hok.1 hok.2
  have hleft : ((v.server.db.listDir d).map DirEntry.shown).drop en.offset = [] := by
    unfold VfsState.fuse at hend
    rw [run_readdirplus] at hend
    cases hl : v.server.listing d with
    | error err =>
        rw [hl] at hend
        cases hend
    | ok l =>
        rw [hl] at hend
        have hstored := Server.listing_ok hl
        subst hstored
        have hpage : pageFrom (v.server.db.listDir d) en.offset = [] := Except.ok.inj hend
        rw [← strip_pageFrom, hpage, List.map_nil]
  have htaken := honce.complete hin (sorted_listDir _ d) (List.mem_map_of_mem he) hleft
  unfold Cursor.takenAt Enumeration.cursor at htaken
  rw [List.filter_map] at htaken
  obtain ⟨x, hx, hstrip⟩ := List.map_eq_singleton_iff.1 htaken
  refine ⟨x, ?_, hstrip⟩
  rw [← hx]
  apply List.filter_congr
  intro y _
  exact decide_eq_decide.2 Iff.rfl

end

/-! ## Two runs -/

/-- The root with files `a`, `b` and `c`. -/
def threeFiles : VfsState (Nat → RawDisk) where
  server := [97, 98, 99].foldl (fun s n => (s.exec {} (.create 1 [n] 0o644 0 0)).2) (Server.fresh {})
  data _ := ⟨.empty, 1024⟩

/-- The answers of some events on the root, and the state they leave. -/
def listingRun (evs : List ListingEvent) :
    List (ListingEvent × Except Errno (List DirectoryEntryPlus)) × VfsState (Nat → RawDisk) × Enumeration :=
  evs.foldl (fun r ev => (r.1 ++ [(ev, (ev.step (.onDisks {} ⟨0, fun _ => none⟩) 1 r.2).1)],
    (ev.step (.onDisks {} ⟨0, fun _ => none⟩) 1 r.2).2)) ([], threeFiles, {})

/-- A file is made behind the last entry consumed. -/
theorem listed_once_behind :
    ∃ x, (listingRun [.page 1, .edit (.create 1 [100] 0o644 0 0), .page 9]).2.2.consumed.filter
      (fun x => decide (x.name = [98])) = [x] ∧ x.strip = DirEntry.shown ⟨[98], 3, 0o100644⟩ := by
  have h : Trace (ListingEvent.step (.onDisks {} ⟨0, fun _ => none⟩) 1)
      (fun _ st ev => ev.InPlace 1 st ∧ ⟨[98], 3, 0o100644⟩ ∈ st.1.server.db.listDir 1) (threeFiles, {})
      (listingRun [.page 1, .edit (.create 1 [100] 0o644 0 0), .page 9]).1
      (listingRun [.page 1, .edit (.create 1 [100] 0o644 0 0), .page 9]).2 :=
    .snoc (ListingEvent.page 9)
      (.snoc (ListingEvent.edit (.create 1 [100] 0o644 0 0))
        (.snoc (ListingEvent.page 1) .nil ⟨by show Enumeration.InPlace _ _; decide +kernel, by decide +kernel⟩)
        ⟨trivial, by decide +kernel⟩)
      ⟨by show Enumeration.InPlace _ _; decide +kernel, by decide +kernel⟩
  exact listed_once h (by decide +kernel) (by decide +kernel) (by decide +kernel)

/-- **Entries are skipped and repeated.**  `a` is consumed and deleted: the next cookie leaves out `b`, which is there
all the time.  A file is made before `b`, which then comes twice. -/
theorem entry_skipped :
    let skip : List ListingEvent := [.page 1, .edit (.unlink 1 [97]), .page 1]
    let twice : List ListingEvent := [.page 2, .edit (.create 1 [96] 0o644 0 0), .page 9]
    ((∀ k ≤ 3, [98] ∈ ((listingRun (skip.take k)).2.1.server.db.listDir 1).map (·.name)) ∧
      ((listingRun skip).2.1.fuse (.onDisks {} ⟨0, fun _ => none⟩)
        (FuseClient.readdirplus 1 (listingRun skip).2.2.offset)).1 = .ok [] ∧
      (listingRun skip).2.2.consumed.map (·.name) = [[97], [99]]) ∧
    (∀ k ≤ 3, [98] ∈ ((listingRun (twice.take k)).2.1.server.db.listDir 1).map (·.name)) ∧
      (listingRun twice).2.2.consumed.map (·.name) = [[97], [98], [98], [99]] := by
  decide +kernel

end RucksFs
