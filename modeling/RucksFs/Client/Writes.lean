import RucksFs.Client.Sizes
import RucksFs.Data.RawDisk

/-!
# Concurrent writes

Any number of clients write to one file at once, each to a byte range of its own.  A write stores its bytes on
the data server and reports its end to the metadata server; other calls come between any two of its steps.

* `BytesKept` — what was stored stays.
* `CacheKept` — the cached copy is the stored record, as long as no two calls are between their commit and the
  update of the cache.
* `concurrent_writes` — the size at the end and at every step, and what is read back.
* `cached_size_lags` — two reports that overlap there leave the smaller size in the cache.
-/

set_option autoImplicit false

namespace RucksFs

open Prog

/-! ## The bytes -/

/-- Two writes touch no byte in common. -/
def FileCall.DisjointRanges : FileCall → FileCall → Prop
  | .write _ _ off data _, .write _ _ off' data' _ => off + data.length ≤ off' ∨ off' + data'.length ≤ off
  | _, _ => True

/-- What writes of file `i` have stored on server `srv` is still there. -/
structure BytesKept (i srv max : Nat) (γ : Nat → Progress) (c : ClientConf (Nat → RawDisk)) : Prop where
  maxFileSize : (c.shared.data srv).maxFileSize = max
  ranges : ∀ {m : Nat} {th : ClientThread} {k off : Nat} {data : List Byte} {flags : Nat},
    c.threads[m]? = some th → th.tag = .write k i off data flags → off + data.length ≤ max
  stored : ∀ {m : Nat} {th : ClientThread} {k off : Nat} {data : List Byte} {flags n : Nat},
    c.threads[m]? = some th → th.tag = .write k i off data flags → (γ m).written = some n →
      off < max ∧ i * max + off + data.length < RawDisk.OFF_SIZE ∧
        ∀ j < data.length, (c.shared.data srv).region i (off + j) = data.getD j 0

namespace BytesKept

variable {cfg : Config} {reg : Registry} {clock : Nat → Nat} {i srv max : Nat} {γ : Nat → Progress}
  {c : ClientConf (Nat → RawDisk)} {n : Nat} {t : FileCall} {p p' : Prog ClientEff ClientEff.Res FileReply}
  {l l' : Local} {s' : Cluster (Nat → RawDisk)} {g' : Progress}

/-- A step that stores nothing. -/
theorem frame (h : BytesKept i srv max γ c) (hn : c.threads[n]? = some ⟨t, p, l⟩)
    (hdata : s'.data = c.shared.data) (hw : g'.written = (γ n).written) :
    BytesKept i srv max (Function.update γ n g')
      (⟨s', c.threads.set n ⟨t, p', l'⟩⟩ : ClientConf (Nat → RawDisk)) where
  maxFileSize := by
    rw [hdata]
    exact h.maxFileSize
  ranges := by
    intro m th k off data flags hth htag
    rcases getElem?_set_cases hth with ⟨rfl, rfl⟩ | ⟨hne, hth⟩
    · exact h.ranges hn htag
    · exact h.ranges hth htag
  stored := by
    intro m th k off data flags n' hth htag hwritten
    rw [hdata]
    rcases getElem?_set_cases hth with ⟨rfl, rfl⟩ | ⟨hne, hth⟩
    · rw [Function.update_self, hw] at hwritten
      exact h.stored hn htag hwritten
    · rw [Function.update_of_ne hne] at hwritten
      exact h.stored hth htag hwritten

/-- A write stores its bytes, and no byte of another write. -/
theorem write (h : BytesKept i srv max γ c) {k off : Nat} {data : List Byte} {flags w : Nat}
    (hn : c.threads[n]? = some ⟨.write k i off data flags, p, l⟩)
    (hapart : Apart (fun a b : ClientThread => a.tag.DisjointRanges b.tag) c.threads)
    (hw : ((c.shared.data srv).writeAt i off data).1 = .ok w)
    (hdata : s'.data = Function.update c.shared.data srv ((c.shared.data srv).writeAt i off data).2)
    (hg : g'.written = some w) :
    BytesKept i srv max (Function.update γ n g')
      (⟨s', c.threads.set n ⟨.write k i off data flags, p', l'⟩⟩ : ClientConf (Nat → RawDisk)) := by
  have hdone : (c.shared.data srv).writeAt i off data = (.ok w, ((c.shared.data srv).writeAt i off data).2) :=
    Prod.ext hw rfl
  obtain ⟨hlt, -, hmax, hregion⟩ := RawDisk.writeAt_ok hdone
  have hspace := RawDisk.writeAt_fits hdone
  have hdisk : s'.data srv = ((c.shared.data srv).writeAt i off data).2 := by
    rw [hdata, Function.update_self]
  have hfits := h.ranges hn rfl
  rw [h.maxFileSize] at hlt hspace hregion
  rw [Nat.min_eq_left (by omega)] at hspace
  refine
    { maxFileSize := by rw [hdisk, hmax, h.maxFileSize]
      ranges := fun {m th k' off' data' flags'} hth htag => ?_
      stored := fun {m th k' off' data' flags' n'} hth htag hwritten => ?_ }
  · rcases getElem?_set_cases hth with ⟨rfl, rfl⟩ | ⟨hne, hth⟩
    · exact h.ranges hn htag
    · exact h.ranges hth htag
  · rw [hdisk]
    rcases getElem?_set_cases hth with ⟨rfl, rfl⟩ | ⟨hne, hth⟩
    · cases htag
      rw [Function.update_self, hg] at hwritten
      cases hwritten
      refine ⟨hlt, hspace, fun j hj => ?_⟩
      rw [hregion i (off + j) (by omega), if_pos ⟨rfl, by omega, by omega⟩]
      congr 1
      omega
    · rw [Function.update_of_ne hne] at hwritten
      obtain ⟨hlt', hspace', hold⟩ := h.stored hth htag hwritten
      have hfits' := h.ranges hth htag
      have hdis : FileCall.DisjointRanges (.write k i off data flags) th.tag := hapart n m _ th hne.symm hn hth
      rw [htag] at hdis
      have hdis : off + data.length ≤ off' ∨ off' + data'.length ≤ off := hdis
      refine ⟨hlt', hspace', fun j hj => ?_⟩
      rw [hregion i (off' + j) (by omega), if_neg (by omega)]
      exact hold j hj

/-- One step of one call. -/
theorem act (h : BytesKept i srv max γ c) {e : ClientEff} {r : e.Res} (hn : c.threads[n]? = some ⟨t, p, l⟩)
    (ht : t.inode = i) (hapart : Apart (fun a b : ClientThread => a.tag.DisjointRanges b.tag) c.threads)
    (hpre : (t.contract srv).pre e (γ n)) (hpost : (t.contract srv).post e (γ n) r g')
    (ha : ClientActs (.onDisks cfg reg clock) (c.threads.eraseIdx n) e l c.shared r l' s') :
    BytesKept i srv max (Function.update γ n g')
      (⟨s', c.threads.set n ⟨t, p', l'⟩⟩ : ClientConf (Nat → RawDisk)) := by
  cases ha with
  | done hfree => exact h.frame hn rfl (serverContract_written hpre hpost)
  | failed hf => exact h.frame hn rfl (serverContract_written hpre hpost)
  | @client k e l s hm =>
      obtain ⟨-, -, hput, hpre⟩ := hpre
      cases e with
      | metadata m => cases hm
      | resolveData j => exact h.frame hn rfl (by rw [show g' = γ n from hpost.2])
      | nowSecs => exact h.frame hn rfl (by rw [show g' = γ n from hpost])
      | writtenInsert j => exact h.frame hn rfl (by rw [show g' = γ n from hpost])
      | data srv' dc =>
          obtain ⟨rfl, hpend, k', off, data, flags, htag, rfl⟩ := hpre
          subst ht
          have hanswer : (clientContract t.inode srv' t).post (.data srv' (.writeData t.inode off data)) (γ n)
              ((c.shared.data srv').writeAt t.inode off data).1 g' := hpost
          cases hw : ((c.shared.data srv').writeAt t.inode off data).1 with
          | error x =>
              rw [hw] at hanswer
              refine h.frame hn ?_ (by rw [show g' = γ n from hanswer])
              show Function.update c.shared.data srv' ((c.shared.data srv').writeAt t.inode off data).2 = _
              rw [RawDisk.writeAt_error hw, Function.update_eq_self]
          | ok w =>
              rw [hw] at hanswer
              have hg : g' = { γ n with written := some w } := hanswer
              rw [htag] at hn ⊢
              exact h.write hn hapart hw rfl (by rw [hg])
      | _ => cases hpre

/-- A new call. -/
theorem start (h : BytesKept i srv max γ c)
    (hfits : ∀ {k off : Nat} {data : List Byte} {flags : Nat}, t = .write k i off data flags →
      off + data.length ≤ max) :
    BytesKept i srv max (Function.update γ c.threads.length {})
      (⟨c.shared, c.threads ++ [⟨t, p, l⟩]⟩ : ClientConf (Nat → RawDisk)) where
  maxFileSize := h.maxFileSize
  ranges := by
    intro m th k off data flags hth htag
    rcases getElem?_append_cases hth with ⟨rfl, rfl⟩ | ⟨hne, hth⟩
    · exact hfits htag
    · exact h.ranges hth htag
  stored := by
    intro m th k off data flags n' hth htag hwritten
    rcases getElem?_append_cases hth with ⟨rfl, rfl⟩ | ⟨hne, hth⟩
    · rw [Function.update_self] at hwritten
      cases hwritten
    · rw [Function.update_of_ne hne] at hwritten
      exact h.stored hth htag hwritten

/-- What was stored is read back. -/
theorem readAt (h : BytesKept i srv max γ c) {th : ClientThread} {k off : Nat} {data : List Byte} {flags w : Nat}
    (hn : c.threads[n]? = some th) (htag : th.tag = .write k i off data flags) (hw : (γ n).written = some w) :
    (c.shared.data srv).readAt i off data.length = .ok data := by
  obtain ⟨hlt, hspace, hbytes⟩ := h.stored hn htag hw
  have hfits := h.ranges hn htag
  have hlen : min data.length ((c.shared.data srv).maxFileSize - off) = data.length := by
    rw [h.maxFileSize]
    omega
  rw [RawDisk.readAt_window (by rwa [h.maxFileSize]) (by rwa [hlen, h.maxFileSize]), hlen]
  exact congrArg _ (SparseFile.window_eq hbytes)

end BytesKept

/-! ## The cached copy -/

/-- The call is between the commit of its record and the update of the cache. -/
def UpdatesCache (th : ClientThread) : Bool :=
  match th.nextEff with
  | some (.server (.cachePut _ _)) => true
  | _ => false

/-- The cached copy of the record is up to date, unless somebody is about to update it. -/
structure CacheKept {δ : Type} (i : Nat) (γ : Nat → Progress) (c : ClientConf δ) : Prop where
  put : ∀ {m : Nat} {th : ClientThread} {v : InodeValue}, c.threads[m]? = some th → (γ m).put = some v →
    c.shared.server.db.inode i = some v
  cached : ∀ {v iv : InodeValue}, c.shared.server.cache.find i = some v → c.shared.server.db.inode i = some iv →
    v.size = iv.size ∨ ∃ m th, c.threads[m]? = some th ∧ (γ m).put.isSome = true

namespace CacheKept

variable {δ : Type} {S : VfsSetup δ} {i srv : Nat} {γ : Nat → Progress} {c : ClientConf δ} {n : Nat} {t : FileCall}
  {p p' : Prog ClientEff ClientEff.Res FileReply} {l l' : Local} {s' : Cluster δ} {g g' : Progress}

/-- Whoever has stored a record and not cached it is about to. -/
theorem updates_of_put {v : InodeValue} (hwp : wp (t.contract srv) p t.achieves g) (hv : g.put = some v) :
    UpdatesCache ⟨t, p, l⟩ = true := by
  have hnot : g.put ≠ none := by rw [hv]; nofun
  match p, hwp with
  | .ret a, hwp => exact absurd hwp.1 hnot
  | .call (.vfs k e) _, hwp => exact absurd hwp.1.2.2.1 hnot
  | .call (.server e) _, hwp =>
      have hpre := hwp.1
      cases e with
      | cachePut j w => rfl
      | beginWrite | dropBatch | nowSecs => exact absurd hpre hnot
      | push op | commit => exact absurd hpre.1 hnot
      | getForUpdateInode j => exact absurd hpre.2.1 hnot
      | cacheGet j | getInode j | scanDeltas j => exact absurd hpre.2 hnot
      | _ => cases hpre

/-- A step that neither stores the record nor caches it. -/
theorem frame (h : CacheKept i γ c) (hn : c.threads[n]? = some ⟨t, p, l⟩)
    (hdb : s'.server.db.inode i = c.shared.server.db.inode i)
    (hcache : ∀ {v}, s'.server.cache.find i = some v → c.shared.server.cache.find i = some v)
    (hput : g'.put = (γ n).put) :
    CacheKept i (Function.update γ n g') (⟨s', c.threads.set n ⟨t, p', l'⟩⟩ : ClientConf δ) where
  put := by
    intro m th v hth hv
    rw [hdb]
    rcases getElem?_set_cases hth with ⟨rfl, rfl⟩ | ⟨hne, hth⟩
    · rw [Function.update_self, hput] at hv
      exact h.put hn hv
    · rw [Function.update_of_ne hne] at hv
      exact h.put hth hv
  cached := by
    intro v iv hv hiv
    refine (h.cached (hcache hv) (hdb.symm.trans hiv)).imp_right fun ⟨m, th, hth, hsome⟩ => ?_
    by_cases e : m = n
    · subst e
      refine ⟨m, ⟨t, p', l'⟩, ?_, ?_⟩
      · rw [List.getElem?_set_self', hn]
        rfl
      · rw [Function.update_self, hput]
        exact hsome
    · refine ⟨m, th, ?_, ?_⟩
      · rw [List.getElem?_set_ne (Ne.symm e)]
        exact hth
      · rw [Function.update_of_ne e]
        exact hsome

/-- A record is stored while nobody else is about to update the cache. -/
theorem of_commit (hn : c.threads[n]? = some ⟨t, p, l⟩) {iv : InodeValue}
    (hg : g'.put = some iv) (hstored : s'.server.db.inode i = some iv)
    (halone : ∀ m th, m ≠ n → c.threads[m]? = some th → (γ m).put = none) :
    CacheKept i (Function.update γ n g') (⟨s', c.threads.set n ⟨t, p', l'⟩⟩ : ClientConf δ) where
  put := by
    intro m th v hth hv
    rcases getElem?_set_cases hth with ⟨rfl, rfl⟩ | ⟨hne, hth⟩
    · rw [Function.update_self, hg] at hv
      cases hv
      exact hstored
    · rw [Function.update_of_ne hne, halone m th hne hth] at hv
      cases hv
  cached := by
    intro v iv' _ _
    refine Or.inr ⟨n, ⟨t, p', l'⟩, ?_, ?_⟩
    · rw [List.getElem?_set_self', hn]
      rfl
    · rw [Function.update_self, hg]
      rfl

/-- The cache gets the stored record. -/
theorem update (h : CacheKept i γ c) (hn : c.threads[n]? = some ⟨t, p, l⟩) {v : InodeValue}
    (hv : (γ n).put = some v) (hg : g'.put = none) (hdb : s'.server.db.inode i = c.shared.server.db.inode i)
    (hcache : ∀ {w}, s'.server.cache.find i = some w → w = v) :
    CacheKept i (Function.update γ n g') (⟨s', c.threads.set n ⟨t, p', l'⟩⟩ : ClientConf δ) where
  put := by
    intro m th w hth hw
    rw [hdb]
    rcases getElem?_set_cases hth with ⟨rfl, rfl⟩ | ⟨hne, hth⟩
    · rw [Function.update_self, hg] at hw
      cases hw
    · rw [Function.update_of_ne hne] at hw
      exact h.put hth hw
  cached := by
    intro w iv hw hiv
    have hstored := h.put hn hv
    rw [hdb, hstored] at hiv
    cases hiv
    rw [hcache hw]
    exact Or.inl rfl

/-- One step of one call, in a run of writes no two of which are about to update the cache. -/
theorem act (h : CacheKept i γ c) (hok : CallOk i c.shared.server t l (γ n)) (hw : t.isWrite = true)
    {e : ClientEff} {r : e.Res} {k : e.Res → Prog ClientEff ClientEff.Res FileReply}
    (hwps : ∀ m th, c.threads[m]? = some th → wp (th.tag.contract srv) th.prog th.tag.achieves (γ m))
    (hn : c.threads[n]? = some ⟨t, .call e k, l⟩) (hpre : (t.contract srv).pre e (γ n))
    (hpost : (t.contract srv).post e (γ n) r g')
    (ha : ClientActs S (c.threads.eraseIdx n) e l c.shared r l' s')
    (hapart : Apart (fun a b => ¬(UpdatesCache a = true ∧ UpdatesCache b = true))
      (c.threads.set n ⟨t, k r, l'⟩)) :
    CacheKept i (Function.update γ n g') (⟨s', c.threads.set n ⟨t, k r, l'⟩⟩ : ClientConf δ) := by
  obtain rfl := hok.inode
  have hnext : wp (t.contract srv) (k r) t.achieves g' := (hwps n _ hn).2 r g' hpost
  have hself : ∀ u, (c.threads.set n u)[n]? = some u := fun u => by
    rw [List.getElem?_set_self', hn]
    rfl
  have hother : ∀ u m, m ≠ n → (c.threads.set n u)[m]? = c.threads[m]? :=
    fun u m hm => List.getElem?_set_ne (Ne.symm hm)
  cases ha with
  | @done e _ _ hfree =>
      have hkept : e ≠ .commit → (∀ j v, e ≠ .cachePut j v) → g'.put = (γ n).put :=
        serverContract_put (i := t.inode) (t := t) hpre hpost
      cases e with
      | commit =>
          obtain ⟨-, hsome, -⟩ := hpre
          obtain ⟨iv, hpend⟩ := Option.isSome_iff_exists.1 hsome
          have hput : g'.put = some iv := by
            rw [hpost.1]
            exact hpend
          refine of_commit hn hput ?_ fun m th hne hth => ?_
          · show (c.shared.server.db.applyBatch l.tx.batch).inode t.inode = some iv
            rw [hok.batch, hpend]
            exact (Change.inode_rewrite t.inode).trans (if_pos rfl)
          · cases hm : (γ m).put with
            | none => rfl
            | some v =>
                exact absurd ⟨updates_of_put hnext hput, updates_of_put (hwps m th hth) hm⟩
                  (hapart n m _ th hne.symm (hself _) ((hother _ m hne).trans hth))
      | cachePut j v =>
          obtain ⟨rfl, hv⟩ := hpre
          have hv : (γ n).put = some v := by
            rcases hv with hv | ⟨hnot, -, -⟩
            · exact hv
            · rw [hw] at hnot
              cases hnot
          have hg : g' = _ := hpost
          refine h.update hn hv (by rw [hg]) rfl fun {w} hfind => ?_
          rcases InodeFoldedCache.find_put hfind with ⟨-, rfl⟩ | ⟨hne, -⟩
          · rfl
          · exact absurd rfl hne
      | cacheGet j =>
          refine h.frame hn rfl (fun hv => ?_) (hkept nofun nofun)
          rw [← hv]
          exact (InodeFoldedCache.find_get _ _ _).symm
      | beginWrite | dropBatch | nowSecs | getForUpdateInode j | push op | getInode j | scanDeltas j =>
          exact h.frame hn rfl (fun hv => hv) (hkept nofun nofun)
      | _ => cases hpre
  | @failed e _ _ x _ hf =>
      refine h.frame hn rfl (fun hv => hv) ?_
      have hkept : e ≠ .commit → (∀ j v, e ≠ .cachePut j v) → g'.put = (γ n).put :=
        serverContract_put (i := t.inode) (t := t) hpre hpost
      cases e with
      | commit =>
          cases hf
          rw [show g' = _ from hpost]
      | getForUpdateInode j | getInode j | scanDeltas j =>
          exact hkept nofun nofun
      | beginWrite | dropBatch | nowSecs | push op | cachePut j v | cacheGet j => cases hf
      | _ => cases hpre
  | @client k' e _ _ hm =>
      obtain ⟨-, -, -, hpre⟩ := hpre
      cases e with
      | metadata m => cases hm
      | resolveData j => exact h.frame hn rfl (fun hv => hv) (by rw [show g' = γ n from hpost.2])
      | nowSecs => exact h.frame hn rfl (fun hv => hv) (by rw [show g' = γ n from hpost])
      | writtenInsert j => exact h.frame hn rfl (fun hv => hv) (by rw [show g' = γ n from hpost])
      | data srv' dc =>
          obtain ⟨rfl, -, k₁, off, data, flags, -, rfl⟩ := hpre
          refine h.frame hn rfl (fun hv => hv) ?_
          have hanswer : (clientContract t.inode srv' t).post (.data srv' (.writeData t.inode off data)) (γ n)
              (S.answer srv' (.writeData t.inode off data) c.shared.data).1 g' := hpost
          cases hr : (S.answer srv' (.writeData t.inode off data) c.shared.data).1 with
          | error x =>
              rw [hr] at hanswer
              rw [show g' = γ n from hanswer]
          | ok w =>
              rw [hr] at hanswer
              rw [show g' = _ from hanswer]
      | _ => cases hpre

/-- A new call. -/
theorem start (h : CacheKept i γ c) :
    CacheKept i (Function.update γ c.threads.length {}) (⟨c.shared, c.threads ++ [⟨t, p, l⟩]⟩ : ClientConf δ) where
  put := by
    intro m th v hth hv
    rcases getElem?_append_cases hth with ⟨rfl, rfl⟩ | ⟨hne, hth⟩
    · rw [Function.update_self] at hv
      cases hv
    · rw [Function.update_of_ne hne] at hv
      exact h.put hth hv
  cached := by
    intro v iv hv hiv
    refine (h.cached hv hiv).imp_right fun ⟨m, th, hth, hsome⟩ => ?_
    have hlt := (List.getElem?_eq_some_iff.1 hth).1
    refine ⟨m, th, (List.getElem?_append_left hlt).trans hth, ?_⟩
    rw [Function.update_of_ne (Nat.ne_of_lt hlt)]
    exact hsome

end CacheKept

/-! ## Runs of writes -/

/-- Writes of file `i` that lie within `max`. -/
def FileCall.WritesWithin (i max : Nat) : FileCall → Prop
  | .write _ j off data _ => j = i ∧ off + data.length ≤ max
  | .fallocate .. => False

instance (i max : Nat) : (t : FileCall) → Decidable (t.WritesWithin i max)
  | .write _ j off data _ => inferInstanceAs (Decidable (j = i ∧ off + data.length ≤ max))
  | .fallocate .. => inferInstanceAs (Decidable False)

instance : DecidableRel FileCall.DisjointRanges
  | .write _ _ off data _, .write _ _ off' data' _ =>
      inferInstanceAs (Decidable (off + data.length ≤ off' ∨ off' + data'.length ≤ off))
  | .write .., .fallocate .. | .fallocate .., .write .. | .fallocate .., .fallocate .. =>
      inferInstanceAs (Decidable True)

/-- The writes touch pairwise different bytes. -/
def RangesApart {δ : Type} (c : ClientConf δ) : Prop :=
  Apart (fun a b : ClientThread => a.tag.DisjointRanges b.tag) c.threads

instance {δ : Type} (c : ClientConf δ) : Decidable (RangesApart c) :=
  inferInstanceAs (Decidable (Apart (fun a b : ClientThread => a.tag.DisjointRanges b.tag) c.threads))

/-- No two calls are both between the commit of a record and the update of the cache, as it is when
`report_write` is one step. -/
def ReportsApart {δ : Type} (c : ClientConf δ) : Prop :=
  Apart (fun a b => ¬(UpdatesCache a = true ∧ UpdatesCache b = true)) c.threads

instance {δ : Type} (c : ClientConf δ) : Decidable (ReportsApart c) :=
  inferInstanceAs (Decidable (Apart (fun a b : ClientThread => ¬(UpdatesCache a = true ∧ UpdatesCache b = true))
    c.threads))

/-- What a run of writes of file `i` keeps. -/
structure WritesKept (reg : Registry) (i srv max z₀ : Nat) (γ : Nat → Progress) (c : ClientConf (Nat → RawDisk)) :
    Prop where
  routes : ∀ k, (c.shared.cores k).resolveData reg i = srv
  writes : ∀ (m : Nat) (th : ClientThread), c.threads[m]? = some th → th.tag.isWrite = true
  sizes : SizesKept i z₀ γ c
  bytes : BytesKept i srv max γ c

namespace WritesKept

variable {cfg : Config} {reg : Registry} {clock : Nat → Nat} {i srv max z₀ : Nat} {γ : Nat → Progress}
  {c : ClientConf (Nat → RawDisk)} {n : Nat} {t : FileCall} {p p' : Prog ClientEff ClientEff.Res FileReply}
  {l l' : Local} {s' : Cluster (Nat → RawDisk)}

theorem start (h : WritesKept reg i srv max z₀ γ c) (ht : t.WritesWithin i max) :
    WritesKept reg i srv max z₀ (Function.update γ c.threads.length {}) ⟨c.shared, c.threads ++ [⟨t, p, {}⟩]⟩ := by
  cases t with
  | fallocate => exact ht.elim
  | write k j off data flags =>
      refine ⟨h.routes, fun m th hth => ?_, h.sizes.start ht.1, h.bytes.start fun he => ?_⟩
      · rcases getElem?_append_cases hth with ⟨-, rfl⟩ | ⟨-, hth⟩
        · rfl
        · exact h.writes m th hth
      · cases he
        exact ht.2

theorem act (h : WritesKept reg i srv max z₀ γ c) {e : ClientEff} {r : e.Res}
    (hn : c.threads[n]? = some ⟨t, p, l⟩) (hapart : RangesApart c) (hpre : (t.contract srv).pre e (γ n))
    (ha : ClientActs (.onDisks cfg reg clock) (c.threads.eraseIdx n) e l c.shared r l' s') :
    ∃ g', (t.contract srv).post e (γ n) r g' ∧
      WritesKept reg i srv max z₀ (Function.update γ n g') ⟨s', c.threads.set n ⟨t, p', l'⟩⟩ := by
  have hw : t.isWrite = true := h.writes n _ hn
  have hgrow : ∀ raw : InodeValue, raw.size ≤ t.resize (γ n) raw.size := by
    intro raw
    cases t with
    | write k j off data flags => exact Nat.le_max_left _ _
    | fallocate => cases hw
  obtain ⟨g', hpost, hsizes⟩ := h.sizes.act (h.routes _) hn hpre ha fun _ raw _ => hgrow raw
  refine ⟨g', hpost, routes_act h.routes hpre ha, fun m th hth => ?_, hsizes,
    h.bytes.act hn (h.sizes.calls n _ hn).inode hapart hpre hpost ha⟩
  rcases getElem?_set_cases hth with ⟨-, rfl⟩ | ⟨-, hth⟩
  · exact hw
  · exact h.writes m th hth

/-- At the end the size is the largest end of a write, or what it was. -/
theorem size_eq (h : WritesKept reg i srv max z₀ γ c)
    (hwps : ∀ m th, c.threads[m]? = some th → wp (th.tag.contract srv) th.prog th.tag.achieves (γ m))
    (hok : ∀ th ∈ c.threads, (writtenEnd th).isSome = true) {iv : InodeValue}
    (hiv : c.shared.server.db.inode i = some iv) :
    (z₀ :: c.threads.filterMap writtenEnd).max? = some iv.size := by
  have hend : ∀ m th, c.threads[m]? = some th → ∀ e, (γ m).reported = some e ↔ writtenEnd th = some e := by
    intro m th hth e
    obtain ⟨e', he'⟩ := Option.isSome_iff_exists.1 (hok th (List.mem_of_getElem? hth))
    have hrep : (γ m).reported = some e' := (reported_of_writtenEnd (hwps m th hth) he').1
    rw [hrep, he']
  obtain ⟨hz, hor⟩ := h.sizes.size hiv
  refine List.max?_eq_some_iff.2 ⟨?_, fun e he => ?_⟩
  · rcases hor with he | ⟨m, th, hth, hrep⟩
    · exact he ▸ List.mem_cons_self
    · exact List.mem_cons_of_mem _
        (List.mem_filterMap.2 ⟨th, List.mem_of_getElem? hth, (hend m th hth _).1 hrep⟩)
  · rcases List.mem_cons.1 he with rfl | he
    · exact hz
    · obtain ⟨th, hmem, hth⟩ := List.mem_filterMap.1 he
      obtain ⟨m, hm⟩ := List.mem_iff_getElem?.1 hmem
      exact (h.sizes.calls m th hm).reported hiv ((hend m th hm e).2 hth)

end WritesKept

/-- Where a cached copy comes from: it was there before, or it is the record that was stored last. -/
theorem cached_act {δ : Type} {S : VfsSetup δ} {i srv : Nat} {t : FileCall} {g : Progress} {os : List ClientThread}
    {e : ClientEff} {l l' : Local} {s s' : Cluster δ} {r : e.Res} {v : InodeValue}
    (hw : t.isWrite = true) (hpre : (t.contract srv).pre e g) (ha : ClientActs S os e l s r l' s')
    (hv : s'.server.cache.find i = some v) : s.server.cache.find i = some v ∨ g.put = some v := by
  cases ha with
  | @done e _ _ hfree =>
      cases e with
      | cachePut j w =>
          obtain ⟨rfl, hput⟩ := hpre
          rcases hput with hput | ⟨hnot, -, -⟩
          · rcases InodeFoldedCache.find_put hv with ⟨-, rfl⟩ | ⟨-, hv⟩
            · exact Or.inr hput
            · exact Or.inl hv
          · rw [hw] at hnot
            cases hnot
      | cacheGet j => exact Or.inl ((InodeFoldedCache.find_get _ _ _).symm.trans hv)
      | beginWrite | dropBatch | nowSecs | getForUpdateInode j | push op | commit | getInode j | scanDeltas j =>
          exact Or.inl hv
      | _ => cases hpre
  | failed hf => exact Or.inl hv
  | @client k e _ _ hm =>
      cases e with
      | metadata m => cases hm
      | _ => exact Or.inl hv

section

variable {cfg : Config} {reg : Registry} {clock : Nat → Nat} {i srv max : Nat} {iv₀ : InodeValue}
  {s₀ : Cluster (Nat → RawDisk)} {Hyp : ClientConf (Nat → RawDisk) → Prop} {c : ClientConf (Nat → RawDisk)}

/-- What is given before the writes start. -/
structure WritesStart (reg : Registry) (i srv max : Nat) (iv₀ : InodeValue) (s₀ : Cluster (Nat → RawDisk)) : Prop where
  routes : ∀ k, (s₀.cores k).resolveData reg i = srv
  maxFileSize : (s₀.data srv).maxFileSize = max
  stored : s₀.server.db.inode i = some iv₀
  cached : ∀ {v}, s₀.server.cache.find i = some v → v.size = iv₀.size

theorem WritesStart.kept (h : WritesStart reg i srv max iv₀ s₀) :
    WritesKept reg i srv max iv₀.size (fun _ => {}) ⟨s₀, []⟩ where
  routes := h.routes
  writes := fun _ _ hth => by simp at hth
  sizes := .init h.stored fun hv => Nat.le_of_eq (h.cached hv)
  bytes :=
    { maxFileSize := h.maxFileSize
      ranges := fun hth => by simp at hth
      stored := fun hth => by simp at hth }

/-- A run of writes. -/
theorem WritesStart.reach (h : WritesStart reg i srv max iv₀ s₀) (hranges : ∀ c, Hyp c → RangesApart c)
    (hr : Reach (clientSystem (.onDisks cfg reg clock) fun _ t => t.WritesWithin i max) Hyp ⟨s₀, []⟩ c) :
    ∃ γ, WritesKept reg i srv max iv₀.size γ c ∧
      ∀ m th, c.threads[m]? = some th → wp (th.tag.contract srv) th.prog th.tag.achieves (γ m) :=
  hr.ghost (fun t => t.contract srv) FileCall.achieves {} (WritesKept reg i srv max iv₀.size) rfl h.kept
    (wp_body cfg) (fun _ hJ hadm _ => hJ.start hadm)
    fun hr hJ _ hn hpre ha _ => hJ.act hn (hranges _ hr.hyp) hpre ha

/-- A run of writes in which no two calls are about to update the cache. -/
theorem WritesStart.reach_cached (h : WritesStart reg i srv max iv₀ s₀)
    (hr : Reach (clientSystem (.onDisks cfg reg clock) fun _ t => t.WritesWithin i max)
      (fun c => RangesApart c ∧ ReportsApart c) ⟨s₀, []⟩ c) :
    ∃ γ, (WritesKept reg i srv max iv₀.size γ c ∧ CacheKept i γ c) ∧
      ∀ m th, c.threads[m]? = some th → wp (th.tag.contract srv) th.prog th.tag.achieves (γ m) := by
  refine hr.ghost (fun t => t.contract srv) FileCall.achieves {}
    (fun γ c => WritesKept reg i srv max iv₀.size γ c ∧ CacheKept i γ c) rfl ⟨h.kept, ?_⟩ (wp_body cfg)
    (fun _ hJ hadm _ => ⟨hJ.1.start hadm, hJ.2.start⟩) ?_
  · refine ⟨fun hth => by simp at hth, fun hv hiv => ?_⟩
    cases h.stored.symm.trans hiv
    exact Or.inl (h.cached hv)
  · intro γ c n t e k l l' r s' hr hJ hwps hn hpre ha hH
    obtain ⟨g', hpost, hkept⟩ := hJ.1.act hn hr.hyp.1 hpre ha
    exact ⟨g', hpost, hkept, hJ.2.act (hJ.1.sizes.calls n _ hn) (hJ.1.writes n _ hn) hwps hn hpre hpost ha hH.2⟩

/-- The size that `getattr` answers. -/
def Cluster.sizeSeen {δ : Type} (cfg : Config) (s : Cluster δ) (i : Nat) : FsResult Nat :=
  Except.map FileAttr.size (s.server.serve cfg (.getattr i)).1

/-- `getattr` answers the size of the cached copy, and without one the stored size. -/
theorem Cluster.sizeSeen_eq {δ : Type} (cfg : Config) (s : Cluster δ) {iv : InodeValue}
    (hiv : s.server.db.inode i = some iv) :
    s.sizeSeen cfg i = .ok ((s.server.cache.find i).getD iv).size := by
  have hserve : (s.server.serve cfg (.getattr i)).1 = (s.server.load i).1.map InodeValue.toAttr :=
    congrArg Prod.fst (exec_getattr cfg s.server i)
  unfold sizeSeen
  rw [hserve]
  exact s.server.size_load hiv

/-- All calls are writes that have returned `Ok`. -/
def AllWritten {δ : Type} (c : ClientConf δ) : Prop := ∀ th ∈ c.threads, (writtenEnd th).isSome = true

instance {δ : Type} (c : ClientConf δ) : Decidable (AllWritten c) :=
  inferInstanceAs (Decidable (∀ th ∈ c.threads, (writtenEnd th).isSome = true))

/-- The stored size never gets smaller. -/
theorem WritesStart.size_le (h : WritesStart reg i srv max iv₀ s₀) (hranges : ∀ c, Hyp c → RangesApart c)
    {c' : ClientConf (Nat → RawDisk)} {iv : InodeValue}
    (hr : Reach (clientSystem (.onDisks cfg reg clock) fun _ t => t.WritesWithin i max) Hyp ⟨s₀, []⟩ c)
    (hs : Step (clientSystem (.onDisks cfg reg clock) fun _ t => t.WritesWithin i max) c c')
    (hiv : c.shared.server.db.inode i = some iv) :
    ∃ iv', c'.shared.server.db.inode i = some iv' ∧ iv.size ≤ iv'.size := by
  obtain ⟨γ, hkept, hwps⟩ := h.reach hranges hr
  cases hs with
  | start => exact ⟨iv, hiv, Nat.le_refl _⟩
  | @act n t e k l l' r s' hn ha =>
      have hkept : WritesKept reg i srv max iv.size γ c := { hkept with sizes := hkept.sizes.restart hiv }
      obtain ⟨g', -, hnext⟩ : ∃ g', _ ∧ WritesKept reg i srv max iv.size (Function.update γ n g')
          ⟨s', c.threads.set n ⟨t, k r, l'⟩⟩ := hkept.act hn (hranges c hr.hyp) (hwps n _ hn).1 ha
      obtain ⟨iv', hiv'⟩ := hnext.sizes.record
      exact ⟨iv', hiv', (hnext.sizes.size hiv').1⟩

/-- The size that `getattr` answers never gets smaller while reports do not overlap. -/
theorem WritesStart.seen_le (h : WritesStart reg i srv max iv₀ s₀) {c' : ClientConf (Nat → RawDisk)}
    (hr : Reach (clientSystem (.onDisks cfg reg clock) fun _ t => t.WritesWithin i max)
      (fun c => RangesApart c ∧ ReportsApart c) ⟨s₀, []⟩ c)
    (hs : Step (clientSystem (.onDisks cfg reg clock) fun _ t => t.WritesWithin i max) c c') :
    ∃ z z', c.shared.sizeSeen cfg i = .ok z ∧ c'.shared.sizeSeen cfg i = .ok z' ∧ z ≤ z' := by
  obtain ⟨γ, ⟨hkept, hcache⟩, hwps⟩ := h.reach_cached hr
  obtain ⟨iv, hiv⟩ := hkept.sizes.record
  obtain ⟨iv', hiv', hle⟩ := h.size_le (fun _ hH => hH.1) hr hs hiv
  refine ⟨_, _, c.shared.sizeSeen_eq cfg hiv, c'.shared.sizeSeen_eq cfg hiv', ?_⟩
  have hbound : ((c.shared.server.cache.find i).getD iv).size ≤ iv.size := by
    cases hf : c.shared.server.cache.find i with
    | none => exact Nat.le_refl _
    | some v => exact hkept.sizes.cache hiv hf
  cases hf' : c'.shared.server.cache.find i with
  | none => exact Nat.le_trans hbound hle
  | some v =>
      show ((c.shared.server.cache.find i).getD iv).size ≤ v.size
      cases hs with
      | start =>
          have hf : c.shared.server.cache.find i = some v := hf'
          rw [hf]
          exact Nat.le_refl _
      | @act n t e k l l' r s' hn ha =>
          rcases cached_act (hkept.writes n _ hn) (hwps n _ hn).1 ha hf' with hf | hput
          · rw [hf]
            exact Nat.le_refl _
          · cases hiv.symm.trans (hcache.put hn hput)
            exact hbound

/-- When all have returned, `getattr` answers the stored size. -/
theorem WritesStart.seen_eq (h : WritesStart reg i srv max iv₀ s₀)
    (hr : Reach (clientSystem (.onDisks cfg reg clock) fun _ t => t.WritesWithin i max)
      (fun c => RangesApart c ∧ ReportsApart c) ⟨s₀, []⟩ c) (hall : AllWritten c) {iv : InodeValue}
    (hiv : c.shared.server.db.inode i = some iv) : c.shared.sizeSeen cfg i = .ok iv.size := by
  obtain ⟨γ, ⟨hkept, hcache⟩, hwps⟩ := h.reach_cached hr
  rw [c.shared.sizeSeen_eq cfg hiv]
  cases hf : c.shared.server.cache.find i with
  | none => rfl
  | some v =>
      rcases hcache.cached hf hiv with hsize | ⟨m, th, hth, hsome⟩
      · exact congrArg Except.ok hsize
      · -- a call that has returned has updated the cache
        obtain ⟨w, hput⟩ := Option.isSome_iff_exists.1 hsome
        obtain ⟨t, p, l⟩ := th
        have hupd := CacheKept.updates_of_put (l := l) (hwps m _ hth) hput
        obtain ⟨z, hz⟩ := Option.isSome_iff_exists.1 (hall _ (List.mem_of_getElem? hth))
        cases p with
        | ret a => cases hupd
        | call e k => cases t <;> cases hz

end

/-- **Concurrent writes.**  Writes of file `i` run at once, in any number and interleaved in any way, on byte ranges
that are disjoint and within `max`.  The stored size never gets smaller, and once all have returned `Ok` it is the
largest of their ends and the initial size; whoever reads the range of a write that has returned `Ok` gets what it
wrote.  If no two reports overlap, the size that `getattr` answers does the same. -/
theorem concurrent_writes (cfg : Config) (reg : Registry) (clock : Nat → Nat) {i srv max : Nat} {iv₀ : InodeValue}
    {s₀ : Cluster (Nat → RawDisk)} (h : WritesStart reg i srv max iv₀ s₀) :
    let S := VfsSetup.onDisks cfg reg clock
    let sys := clientSystem S fun _ t => t.WritesWithin i max
    (∀ c, Reach sys RangesApart ⟨s₀, []⟩ c →
      (∃ iv, c.shared.server.db.inode i = some iv ∧
        (AllWritten c → (iv₀.size :: c.threads.filterMap writtenEnd).max? = some iv.size) ∧
        ∀ c', Step sys c c' → ∃ iv', c'.shared.server.db.inode i = some iv' ∧ iv.size ≤ iv'.size) ∧
      ∀ th ∈ c.threads, ∀ k off data flags, th.tag = .write k i off data flags → (writtenEnd th).isSome = true →
        ∀ k', ((c.shared.view k').serve S (.read i off data.length)).1 = .ok data) ∧
    (∀ c, Reach sys (fun c => RangesApart c ∧ ReportsApart c) ⟨s₀, []⟩ c →
      (AllWritten c → ∃ z, (iv₀.size :: c.threads.filterMap writtenEnd).max? = some z ∧
        c.shared.sizeSeen cfg i = .ok z) ∧
      ∀ c', Step sys c c' →
        ∃ z z', c.shared.sizeSeen cfg i = .ok z ∧ c'.shared.sizeSeen cfg i = .ok z' ∧ z ≤ z') := by
  intro S sys
  refine ⟨fun c hr => ⟨?_, ?_⟩, fun c hr => ⟨fun hall => ?_, fun c' hs => h.seen_le hr hs⟩⟩
  · obtain ⟨γ, hkept, hwps⟩ := h.reach (fun _ hH => hH) hr
    obtain ⟨iv, hiv⟩ := hkept.sizes.record
    exact ⟨iv, hiv, fun hall => hkept.size_eq hwps hall hiv, fun c' hs => h.size_le (fun _ hH => hH) hr hs hiv⟩
  · intro th hth k off data flags htag hend k'
    obtain ⟨γ, hkept, hwps⟩ := h.reach (fun _ hH => hH) hr
    obtain ⟨m, hm⟩ := List.mem_iff_getElem?.1 hth
    obtain ⟨e, he⟩ := Option.isSome_iff_exists.1 hend
    obtain ⟨w, hw⟩ := Option.isSome_iff_exists.1 (reported_of_writtenEnd (hwps m th hm) he).2
    show (c.shared.data ((c.shared.cores k').resolveData reg i)).readAt i off data.length = .ok data
    rw [hkept.routes k']
    exact hkept.bytes.readAt hm htag hw
  · obtain ⟨γ, ⟨hkept, -⟩, hwps⟩ := h.reach_cached hr
    obtain ⟨iv, hiv⟩ := hkept.sizes.record
    exact ⟨iv.size, hkept.size_eq hwps hall hiv, h.seen_eq hr hall hiv⟩

theorem oneFile_start : ∃ iv₀, WritesStart oneDisk.reg 2 0 1024 iv₀ oneFile ∧ iv₀.size = 0 := by
  have hstored : (oneFile.server.db.inode 2).map (·.size) = some 0 := by decide +kernel
  have hcached : (oneFile.server.cache.find 2).map (·.size) = some 0 := by decide +kernel
  obtain ⟨iv₀, hiv, hsize⟩ := Option.map_eq_some_iff.1 hstored
  refine ⟨iv₀, ⟨fun _ => rfl, rfl, hiv, fun hv => ?_⟩, hsize⟩
  rw [hv] at hcached
  exact (Option.some.inj hcached).trans hsize.symm

/-- The second write stores its bytes and reports while the first one is at work. -/
def writtenAtOnce : List (Choice FileCall) :=
  [.start (.write 0 2 0 [65, 66, 67] 0), .start (.write 1 2 3 [68, 69] 0)] ++
    List.replicate 2 (.run 0) ++ List.replicate 3 (.run 1) ++ List.replicate 8 (.run 0) ++ List.replicate 7 (.run 1)

theorem concurrent_writes_two :
    ∃ c, Reach (clientSystem oneDisk fun _ t => t.WritesWithin 2 1024) (fun c => RangesApart c ∧ ReportsApart c)
        ⟨oneFile, []⟩ c ∧
      c.threads.map writtenEnd = [some 3, some 5] ∧ c.shared.sizeSeen {} 2 = .ok 5 := by
  obtain ⟨iv₀, hstart, hz⟩ := oneFile_start
  have hrun : ((clientScheduler oneDisk (fun _ t => t.WritesWithin 2 1024)
      (fun c => RangesApart c ∧ ReportsApart c)).run writtenAtOnce ⟨oneFile, []⟩).map
        (fun c => decide (c.threads.map writtenEnd = [some 3, some 5])) = some true := by decide +kernel
  obtain ⟨c, hc, hv⟩ := Option.map_eq_some_iff.1 hrun
  have hreach := clientScheduler_reach oneDisk _ _ writtenAtOnce (by decide) hc
  have hends : c.threads.map writtenEnd = [some 3, some 5] := of_decide_eq_true hv
  have hall : AllWritten c := by
    intro th hth
    have hmem := List.mem_map_of_mem (f := writtenEnd) hth
    rw [hends] at hmem
    rcases List.mem_cons.1 hmem with he | he
    · rw [he]
      rfl
    · rw [List.mem_singleton.1 he]
      rfl
  obtain ⟨z, hmax, hseen⟩ := ((concurrent_writes {} oneDisk.reg oneDisk.clock hstart).2 c hreach).1 hall
  have hfilter : c.threads.filterMap writtenEnd = [3, 5] := by
    have h := congrArg (List.filterMap id) hends
    rwa [List.filterMap_map] at h
  rw [hfilter, hz] at hmax
  cases hmax
  exact ⟨c, hreach, hends, hseen⟩

/-- The first write commits its record, the second one does all of its report, then the first one updates the
cache. -/
def cachedInReverse : List (Choice FileCall) :=
  [.start (.write 0 2 0 [65, 66, 67] 0), .start (.write 1 2 3 [68, 69] 0)] ++
    List.replicate 7 (.run 0) ++ List.replicate 10 (.run 1) ++ List.replicate 3 (.run 0)

/-- **The cached copy can lag.**  `report_write` updates the cache when the row lock is gone already, so that of two
overlapping reports the earlier one can have the last word: `getattr` answers 3 where 5 bytes are stored. -/
theorem cached_size_lags :
    ∃ c, Reach (clientSystem oneDisk fun _ t => t.WritesWithin 2 1024) RangesApart ⟨oneFile, []⟩ c ∧
      AllWritten c ∧ (c.shared.server.db.inode 2).map (·.size) = some 5 ∧ c.shared.sizeSeen {} 2 = .ok 3 := by
  have hrun : ((clientScheduler oneDisk (fun _ t => t.WritesWithin 2 1024) RangesApart).run cachedInReverse
      ⟨oneFile, []⟩).map (fun c => decide (AllWritten c ∧
        (c.shared.server.db.inode 2).map (·.size) = some 5 ∧ c.shared.sizeSeen {} 2 = .ok 3)) = some true := by
    decide +kernel
  obtain ⟨c, hc, hv⟩ := Option.map_eq_some_iff.1 hrun
  exact ⟨c, clientScheduler_reach oneDisk _ _ cachedInReverse (by decide) hc, of_decide_eq_true hv⟩

end RucksFs
