import RucksFs.Change
import RucksFs.Client.Progress

/-!
# The size of a file while it is written

`write` reports the end of what it has stored and `fallocate` extends the file; both read the record under its
row lock and store it again.  The invariant follows the stored size, the cached copy and what every running call
knows of them.

* `CallOk` — what one call knows: its transaction, the record that it has read, the sizes that it has seen.
* `SizesKept` — the stored size is the largest that was reported, and nobody knows a larger one.
* `SizesKept.act` — one step of one call keeps it, as long as no call stores a smaller size.
-/

set_option autoImplicit false

namespace RucksFs

open Prog

section

variable {δ : Type}

/-! ## The invariant -/

/-- Two transactions hold no row in common. -/
def RowsApart (a b : ClientThread) : Prop := ∀ r ∈ a.loc.tx.locks, r ∉ b.loc.tx.locks

theorem RowsApart.symm {a b : ClientThread} (h : RowsApart a b) : RowsApart b a :=
  fun r hb ha => h r ha hb

/-- What is known of one call on file `i` that has come as far as `g`. -/
structure CallOk (i : Nat) (s : Server) (t : FileCall) (l : Local) (g : Progress) : Prop where
  inode : t.inode = i
  batch : l.tx.batch = (g.pending.map (BatchOp.putInode i)).toList
  read : ∀ {raw}, g.read = some raw → Row.inode i ∈ l.tx.locks ∧ s.db.inode i = some raw
  pending : ∀ {iv}, g.pending = some iv → ∃ raw, g.read = some raw ∧ iv.size = t.resize g raw.size
  floor : ∀ {iv}, s.db.inode i = some iv → g.floor ≤ iv.size
  reported : ∀ {iv e}, s.db.inode i = some iv → g.reported = some e → e ≤ iv.size
  put : ∀ {iv v}, s.db.inode i = some iv → g.put = some v → v.size ≤ iv.size

/-- The size of file `i` is the largest that was reported, or what it was at the start; nobody knows a larger
one. -/
structure SizesKept (i z₀ : Nat) (γ : Nat → Progress) (c : ClientConf δ) : Prop where
  record : ∃ iv, c.shared.server.db.inode i = some iv
  size : ∀ {iv}, c.shared.server.db.inode i = some iv → z₀ ≤ iv.size ∧
    (iv.size = z₀ ∨ ∃ m th, c.threads[m]? = some th ∧ (γ m).reported = some iv.size)
  cache : ∀ {iv v}, c.shared.server.db.inode i = some iv → c.shared.server.cache.find i = some v →
    v.size ≤ iv.size
  locks : Apart RowsApart c.threads
  calls : ∀ m th, c.threads[m]? = some th → CallOk i c.shared.server th.tag th.loc (γ m)

namespace SizesKept

variable {S : VfsSetup δ} {i srv z₀ : Nat} {γ : Nat → Progress} {c : ClientConf δ} {n : Nat} {t : FileCall}
  {p p' : Prog ClientEff ClientEff.Res FileReply} {l l' : Local} {s' : Cluster δ} {g' : Progress}

/-- Thread `n` does something that leaves the record alone. -/
theorem frame (h : SizesKept i z₀ γ c) (hn : c.threads[n]? = some ⟨t, p, l⟩)
    (hdb : s'.server.db.inode i = c.shared.server.db.inode i)
    (hcache : ∀ {iv v}, s'.server.db.inode i = some iv → s'.server.cache.find i = some v → v.size ≤ iv.size)
    (hlocks : ∀ m u, m ≠ n → c.threads[m]? = some u → ∀ r ∈ l'.tx.locks, r ∉ u.loc.tx.locks)
    (hrep : g'.reported = (γ n).reported) (hok : CallOk i s'.server t l' g') :
    SizesKept i z₀ (Function.update γ n g') (⟨s', c.threads.set n ⟨t, p', l'⟩⟩ : ClientConf δ) where
  record := by
    obtain ⟨iv, hiv⟩ := h.record
    exact ⟨iv, hdb.trans hiv⟩
  size := by
    intro iv hiv
    obtain ⟨hle, hor⟩ := h.size (hdb.symm.trans hiv)
    refine ⟨hle, hor.imp_right fun ⟨m, th, hm, hr⟩ => ?_⟩
    by_cases e : m = n
    · subst e
      refine ⟨m, ⟨t, p', l'⟩, ?_, ?_⟩
      · rw [List.getElem?_set_self']
        rw [hn]
        rfl
      · rw [Function.update_self, hrep, hr]
    · refine ⟨m, th, ?_, ?_⟩
      · rw [List.getElem?_set_ne (Ne.symm e)]
        exact hm
      · rw [Function.update_of_ne e]
        exact hr
  cache := hcache
  locks := h.locks.set RowsApart.symm hlocks
  calls := by
    intro m th hth
    rcases getElem?_set_cases hth with ⟨rfl, rfl⟩ | ⟨hne, hth⟩
    · rw [Function.update_self]
      exact hok
    · rw [Function.update_of_ne hne]
      have hold := h.calls m th hth
      exact
        { inode := hold.inode
          batch := hold.batch
          read := fun hr => ⟨(hold.read hr).1, hdb.trans (hold.read hr).2⟩
          pending := hold.pending
          floor := fun hiv => hold.floor (hdb.symm.trans hiv)
          reported := fun hiv he => hold.reported (hdb.symm.trans hiv) he
          put := fun hiv hv => hold.put (hdb.symm.trans hiv) hv }

end SizesKept

namespace CallOk

variable {i : Nat} {s s' : Server} {t : FileCall} {l l' : Local} {g : Progress}

theorem congr (h : CallOk i s t l g) (hs : s'.db.inode i = s.db.inode i) (hb : l'.tx.batch = l.tx.batch)
    (hl : ∀ r ∈ l.tx.locks, r ∈ l'.tx.locks) : CallOk i s' t l' g where
  inode := h.inode
  batch := hb.trans h.batch
  read hr := ⟨hl _ (h.read hr).1, hs.trans (h.read hr).2⟩
  pending := h.pending
  floor hiv := h.floor (hs.symm.trans hiv)
  reported hiv he := h.reported (hs.symm.trans hiv) he
  put hiv hv := h.put (hs.symm.trans hiv) hv

/-- A transaction begins or ends without a change. -/
theorem reset (h : CallOk i s t l g) (hb : l'.tx.batch = []) :
    CallOk i s t l' { g with read := none, pending := none } where
  inode := h.inode
  batch := hb
  read hr := by cases hr
  pending hp := by cases hp
  floor := h.floor
  reported := h.reported
  put := h.put

/-- A size of the file was seen. -/
theorem seen (h : CallOk i s t l g) {v : InodeValue} (hv : ∀ {iv}, s.db.inode i = some iv → v.size ≤ iv.size) :
    CallOk i s t l { g with floor := max g.floor v.size } where
  inode := h.inode
  batch := h.batch
  read := h.read
  pending hp := by
    obtain ⟨raw, hr, hsize⟩ := h.pending hp
    refine ⟨raw, hr, hsize.trans ?_⟩
    cases t <;> rfl
  floor hiv := Nat.max_le.2 ⟨h.floor hiv, hv hiv⟩
  reported := h.reported
  put := h.put

/-- The record is read under its lock. -/
theorem locked (l' : Local) (h : CallOk i s t l g) (hp : g.pending = none) (hb : l'.tx.batch = l.tx.batch)
    (hl : Row.inode i ∈ l'.tx.locks) {raw : InodeValue} (hraw : s.db.inode i = some raw) :
    CallOk i s t l' { g with read := some raw } where
  inode := h.inode
  batch := hb.trans h.batch
  read hr := by
    cases hr
    exact ⟨hl, hraw⟩
  pending hp' := by
    rw [show ({ g with read := some raw } : Progress).pending = none from hp] at hp'
    cases hp'
  floor := h.floor
  reported := h.reported
  put := h.put

/-- A new record joins the batch. -/
theorem pushed (h : CallOk i s t l g) (hp : g.pending = none) {raw iv : InodeValue} (hr : g.read = some raw)
    (hsize : iv.size = t.resize g raw.size) (hb : l'.tx.batch = l.tx.batch ++ [.putInode i iv])
    (hl : ∀ r ∈ l.tx.locks, r ∈ l'.tx.locks) : CallOk i s t l' { g with pending := some iv } where
  inode := h.inode
  batch := by
    rw [hb, h.batch, hp]
    rfl
  read hr := ⟨hl _ (h.read hr).1, (h.read hr).2⟩
  pending hp' := by
    cases hp'
    refine ⟨raw, hr, hsize.trans ?_⟩
    cases t <;> rfl
  floor := h.floor
  reported := h.reported
  put := h.put

/-- The cache is up to date. -/
theorem cached (h : CallOk i s t l g) (hs : s'.db.inode i = s.db.inode i) : CallOk i s' t l { g with put := none } where
  inode := h.inode
  batch := h.batch
  read hr := ⟨(h.read hr).1, hs.trans (h.read hr).2⟩
  pending hp := by
    obtain ⟨raw, hr, hsize⟩ := h.pending hp
    refine ⟨raw, hr, hsize.trans ?_⟩
    cases t <;> rfl
  floor hiv := h.floor (hs.symm.trans hiv)
  reported hiv he := h.reported (hs.symm.trans hiv) he
  put _ hv := by cases hv

/-- Another thread has stored a record of at least the same size. -/
theorem outgrown (h : CallOk i s t l g) (hr : g.read = none) {raw iv : InodeValue} (hraw : s.db.inode i = some raw)
    (hiv : s'.db.inode i = some iv) (hle : raw.size ≤ iv.size) : CallOk i s' t l g where
  inode := h.inode
  batch := h.batch
  read hr' := by rw [hr] at hr'; cases hr'
  pending := h.pending
  floor hiv' := by
    rw [hiv] at hiv'
    cases hiv'
    exact Nat.le_trans (h.floor hraw) hle
  reported hiv' he := by
    rw [hiv] at hiv'
    cases hiv'
    exact Nat.le_trans (h.reported hraw he) hle
  put hiv' hv := by
    rw [hiv] at hiv'
    cases hiv'
    exact Nat.le_trans (h.put hraw hv) hle

end CallOk

namespace SizesKept

variable {S : VfsSetup δ} {i srv z₀ : Nat} {γ : Nat → Progress} {c : ClientConf δ} {n : Nat} {t : FileCall}
  {p p' : Prog ClientEff ClientEff.Res FileReply} {l l' : Local} {s' : Cluster δ} {g' : Progress}

/-- Thread `n` stores the record that it has prepared: it is at least as long as the one it replaces. -/
theorem commit (h : SizesKept i z₀ γ c) (hn : c.threads[n]? = some ⟨t, p, l⟩) {iv raw : InodeValue}
    (hput : (γ n).put = none) (hpend : (γ n).pending = some iv) (hread : (γ n).read = some raw)
    (hrep : (γ n).reported = none) (hgrow : raw.size ≤ t.resize (γ n) raw.size)
    (hs : s'.server.db = c.shared.server.db.applyBatch l.tx.batch)
    (hcache : s'.server.cache = c.shared.server.cache) (hb : l'.tx.batch = []) (hl : l'.tx.locks = []) :
    SizesKept i z₀ (Function.update γ n
        { γ n with read := none, pending := none, put := (γ n).pending, reported := some (t.target (γ n)) })
      (⟨s', c.threads.set n ⟨t, p', l'⟩⟩ : ClientConf δ) := by
  have hok := h.calls n _ hn
  have hstored : s'.server.db.inode i = some iv := by
    rw [hs, hok.batch, hpend]
    exact (Change.inode_rewrite i).trans (if_pos rfl)
  obtain ⟨hlock, hraw⟩ := hok.read hread
  have hsize : iv.size = t.resize (γ n) raw.size := by
    obtain ⟨raw', hr', hsize⟩ := hok.pending hpend
    rw [hread] at hr'
    cases hr'
    exact hsize
  have hle : raw.size ≤ iv.size := hsize ▸ hgrow
  have hself : (c.threads.set n ⟨t, p', l'⟩)[n]? = some ⟨t, p', l'⟩ := by
    rw [List.getElem?_set_self', hn]
    rfl
  refine
    { record := ⟨iv, hstored⟩
      size := fun {iv'} hiv' => ?_
      cache := fun {iv' v} hiv' hv => ?_
      locks := h.locks.set RowsApart.symm fun m u _ _ r hr => by rw [hl] at hr; cases hr
      calls := fun m th hth => ?_ }
  · rw [hstored] at hiv'
    cases hiv'
    obtain ⟨hz, hor⟩ := h.size hraw
    refine ⟨Nat.le_trans hz hle, ?_⟩
    -- the new size is the one that is reported, or the old one
    have hcases : iv.size = t.target (γ n) ∨ iv.size = raw.size := by
      rw [hsize]
      cases t with
      | write k j off data flags =>
          show max raw.size (off + (γ n).written.getD 0) = off + (γ n).written.getD 0 ∨ _ = raw.size
          rcases Nat.le_total raw.size (off + (γ n).written.getD 0) with hle | hle
          · exact Or.inl (Nat.max_eq_right hle)
          · exact Or.inr (Nat.max_eq_left hle)
      | fallocate k j off len mode => exact Or.inl rfl
    rcases hcases with he | he
    · exact Or.inr ⟨n, _, hself, by rw [Function.update_self, he]⟩
    · rw [he]
      refine hor.imp_right fun ⟨m, th, hm, hr⟩ => ?_
      have hne : m ≠ n := by
        rintro rfl
        rw [hrep] at hr
        cases hr
      refine ⟨m, th, ?_, ?_⟩
      · rw [List.getElem?_set_ne (Ne.symm hne)]
        exact hm
      · rw [Function.update_of_ne hne]
        exact hr
  · rw [hstored] at hiv'
    cases hiv'
    rw [hcache] at hv
    exact Nat.le_trans (h.cache hraw hv) hle
  · rcases getElem?_set_cases hth with ⟨rfl, rfl⟩ | ⟨hne, hth⟩
    · rw [Function.update_self]
      refine
        { inode := hok.inode
          batch := hb
          read := fun hr => by cases hr
          pending := fun hp => by cases hp
          floor := fun {iv'} hiv' => ?_
          reported := fun {iv' e} hiv' he => ?_
          put := fun {iv' v} hiv' hv => ?_ }
      · rw [hstored] at hiv'
        cases hiv'
        exact Nat.le_trans (hok.floor hraw) hle
      · rw [hstored] at hiv'
        cases hiv'
        cases he
        rw [hsize]
        cases t with
        | write k j off data flags => exact Nat.le_max_right _ _
        | fallocate k j off len mode => exact Nat.le_refl _
      · rw [hstored] at hiv'
        cases hiv'
        have hv : (γ m).pending = some v := hv
        rw [hpend] at hv
        cases hv
        exact Nat.le_refl _
    · rw [Function.update_of_ne hne]
      have hold := h.calls m th hth
      -- nobody else has read the record: it would hold the row as well
      have hfree : (γ m).read = none := by
        cases hr : (γ m).read with
        | none => rfl
        | some raw' => exact absurd (hold.read hr).1 (h.locks n m _ th hne.symm hn hth _ hlock)
      exact hold.outgrown hfree hraw hstored hle

/-- A row that an effect can take is nobody else's. -/
theorem row_free {e : Eff} {row : Row} (hfree : lockedBy (c.threads.eraseIdx n) e = false)
    (hrow : e.needs = some row) (m : Nat) (u : ClientThread) (hm : m ≠ n) (hu : c.threads[m]? = some u) :
    row ∉ u.loc.tx.locks := by
  unfold lockedBy at hfree
  rw [hrow] at hfree
  have hany := List.any_eq_false.1 hfree u (mem_eraseIdx_of_getElem? hm hu)
  simpa using hany

/-- A step of the server. -/
theorem server (h : SizesKept i z₀ γ c) {e : Eff} (hn : c.threads[n]? = some ⟨t, p, l⟩)
    (hpre : (serverContract t.inode t).pre e (γ n)) (hfree : lockedBy (c.threads.eraseIdx n) e = false)
    (hgrow : e = .commit → ∀ raw, c.shared.server.db.inode i = some raw → raw.size ≤ t.resize (γ n) raw.size) :
    ∃ g', (serverContract t.inode t).post e (γ n) (handle S.cfg e (l.tx, c.shared.server)).1 g' ∧
      SizesKept i z₀ (Function.update γ n g')
        (⟨{ c.shared with server := (handle S.cfg e (l.tx, c.shared.server)).2.2 },
          c.threads.set n ⟨t, p', l.after S.cfg c.shared.server e⟩⟩ : ClientConf δ) := by
  have hok : CallOk i c.shared.server t l (γ n) := h.calls n _ hn
  obtain rfl := hok.inode
  obtain ⟨raw, hraw⟩ := h.record
  have hkeep : ∀ m u, m ≠ n → c.threads[m]? = some u → ∀ r ∈ l.tx.locks, r ∉ u.loc.tx.locks :=
    fun m u hm hu => h.locks n m _ u hm.symm hn hu
  cases e with
  | beginWrite => exact ⟨_, rfl, h.frame hn rfl h.cache (fun _ _ _ _ r hr => by cases hr) rfl (hok.reset rfl)⟩
  | dropBatch => exact ⟨_, rfl, h.frame hn rfl h.cache (fun _ _ _ _ r hr => by cases hr) rfl (hok.reset rfl)⟩
  | nowSecs => exact ⟨_, rfl, h.frame hn rfl h.cache hkeep rfl (hok.congr rfl rfl fun _ hr => hr)⟩
  | getForUpdateInode j =>
      obtain ⟨rfl, hput, hpend⟩ := hpre
      have hread : (c.shared.server.db.applyBatch l.tx.batch).inode t.inode = some raw := by
        rw [hok.batch, hpend]
        exact hraw
      have hlocked := hok.locked (l.after S.cfg c.shared.server (.getForUpdateInode t.inode)) hpend rfl
        List.mem_cons_self hraw
      refine ⟨{ γ n with read := some raw }, ?_, h.frame hn rfl h.cache (fun m u hm hu r hr => ?_) rfl hlocked⟩
      · show (serverContract t.inode t).post (.getForUpdateInode t.inode) (γ n)
          (.ok ((c.shared.server.db.applyBatch l.tx.batch).inode t.inode)) _
        rw [hread]
        rfl
      · rcases List.mem_cons.1 hr with rfl | hr
        · exact row_free hfree rfl m u hm hu
        · exact hkeep m u hm hu r hr
  | push op =>
      obtain ⟨hput, hpend, raw', iv, rfl, hread, hsize⟩ := hpre
      refine ⟨{ γ n with pending := some iv }, rfl, h.frame hn rfl h.cache (fun m u hm hu r hr => ?_) rfl
        (hok.pushed hpend hread hsize rfl fun r hr => List.mem_cons_of_mem _ hr)⟩
      rcases List.mem_cons.1 hr with rfl | hr
      · exact row_free hfree rfl m u hm hu
      · exact hkeep m u hm hu r hr
  | commit =>
      obtain ⟨hput, hsome, hrep⟩ := hpre
      obtain ⟨iv, hpend⟩ := Option.isSome_iff_exists.1 hsome
      obtain ⟨raw', hread, -⟩ := hok.pending hpend
      have hstored := (hok.read hread).2
      refine ⟨_, ⟨rfl, fun raw'' hr => ?_⟩,
        h.commit hn hput hpend hread hrep (hgrow rfl raw' hstored) rfl rfl rfl rfl⟩
      rw [hread] at hr
      cases hr
      exact hgrow rfl raw' hstored
  | cachePut j v =>
      obtain ⟨rfl, hv⟩ := hpre
      have hle : v.size ≤ raw.size := by
        rcases hv with hv | ⟨-, -, hv⟩
        · exact hok.put hraw hv
        · exact Nat.le_trans hv (hok.floor hraw)
      refine ⟨_, rfl, h.frame hn rfl (fun {iv w} hiv hw => ?_) hkeep rfl (hok.cached rfl)⟩
      rcases InodeFoldedCache.find_put hw with ⟨-, rfl⟩ | ⟨hne, -⟩
      · cases hraw.symm.trans hiv
        exact hle
      · exact absurd rfl hne
  | cacheGet j =>
      obtain ⟨rfl, hput⟩ := hpre
      have hcache : ∀ {iv v}, c.shared.server.db.inode t.inode = some iv →
          (c.shared.server.cache.get t.inode).2.find t.inode = some v → v.size ≤ iv.size := by
        intro iv v hiv hv
        rw [InodeFoldedCache.find_get] at hv
        exact h.cache hiv hv
      have hpost : ∀ o g', (c.shared.server.cache.get t.inode).1 = o →
          (serverContract t.inode t).post (.cacheGet t.inode) (γ n) o g' →
          (serverContract t.inode t).post (.cacheGet t.inode) (γ n)
            (handle S.cfg (.cacheGet t.inode) (l.tx, c.shared.server)).1 g' := fun o g' ho hp => ho ▸ hp
      cases hf : c.shared.server.cache.find t.inode with
      | none =>
          refine ⟨γ n, hpost none _ (by rw [InodeFoldedCache.get_fst, hf]) rfl, ?_⟩
          exact h.frame hn rfl hcache hkeep rfl (hok.congr rfl rfl fun _ hr => hr)
      | some v =>
          refine ⟨_, hpost (some v) _ (by rw [InodeFoldedCache.get_fst, hf]) rfl, ?_⟩
          exact h.frame hn rfl hcache hkeep rfl ((hok.seen fun hiv => h.cache hiv hf).congr rfl rfl fun _ hr => hr)
  | getInode j =>
      obtain ⟨rfl, hput⟩ := hpre
      refine ⟨{ γ n with floor := max (γ n).floor raw.size }, ?_, h.frame hn rfl h.cache hkeep rfl
        ((hok.seen fun hiv => ?_).congr rfl rfl fun _ hr => hr)⟩
      · show (serverContract t.inode t).post (.getInode t.inode) (γ n) (.ok (c.shared.server.db.inode t.inode)) _
        rw [hraw]
        rfl
      · rw [hraw] at hiv
        cases hiv
        exact Nat.le_refl _
  | scanDeltas j => exact ⟨_, rfl, h.frame hn rfl h.cache hkeep rfl (hok.congr rfl rfl fun _ hr => hr)⟩
  | _ => cases hpre

/-- A storage call that fails changes nothing. -/
theorem failed (h : SizesKept i z₀ γ c) {e : Eff} {x : FsError} {r : e.Res}
    (hn : c.threads[n]? = some ⟨t, p, l⟩) (hpre : (serverContract t.inode t).pre e (γ n))
    (hf : e.failure x = some r) :
    ∃ g', (serverContract t.inode t).post e (γ n) r g' ∧ SizesKept i z₀ (Function.update γ n g')
      (⟨c.shared, c.threads.set n ⟨t, p', l.afterFailure e⟩⟩ : ClientConf δ) := by
  have hok : CallOk i c.shared.server t l (γ n) := h.calls n _ hn
  have hkeep : ∀ m u, m ≠ n → c.threads[m]? = some u → ∀ r ∈ l.tx.locks, r ∉ u.loc.tx.locks :=
    fun m u hm hu => h.locks n m _ u hm.symm hn hu
  cases e with
  | commit =>
      cases hf
      exact ⟨_, rfl, h.frame hn rfl h.cache (fun _ _ _ _ r hr => by cases hr) rfl (hok.reset rfl)⟩
  | getForUpdateInode j =>
      cases hf
      exact ⟨_, rfl, h.frame hn rfl h.cache hkeep rfl (hok.congr rfl rfl fun _ hr => hr)⟩
  | getInode j =>
      cases hf
      exact ⟨_, rfl, h.frame hn rfl h.cache hkeep rfl (hok.congr rfl rfl fun _ hr => hr)⟩
  | scanDeltas j =>
      cases hf
      exact ⟨_, rfl, h.frame hn rfl h.cache hkeep rfl (hok.congr rfl rfl fun _ hr => hr)⟩
  | beginWrite | dropBatch | nowSecs | push op | cachePut j v | cacheGet j => cases hf
  | _ => cases hpre

/-- A step of a client. -/
theorem client (h : SizesKept i z₀ γ c) {k : Nat} {e : VfsEff} (hn : c.threads[n]? = some ⟨t, p, l⟩)
    (hroute : (c.shared.cores k).resolveData S.reg i = srv) (hm : e.isMetadata = false)
    (hpre : (clientContract t.inode srv t).pre e (γ n)) :
    ∃ g', (clientContract t.inode srv t).post e (γ n) (VfsState.handle S e (c.shared.view k)).1 g' ∧
      SizesKept i z₀ (Function.update γ n g')
        (⟨c.shared.absorb k (VfsState.handle S e (c.shared.view k)).2,
          c.threads.set n ⟨t, p', l⟩⟩ : ClientConf δ) := by
  have hok : CallOk i c.shared.server t l (γ n) := h.calls n _ hn
  obtain rfl := hok.inode
  have hkeep : ∀ m u, m ≠ n → c.threads[m]? = some u → ∀ r ∈ l.tx.locks, r ∉ u.loc.tx.locks :=
    fun m u hm hu => h.locks n m _ u hm.symm hn hu
  obtain ⟨hput, hpre⟩ := hpre
  cases e with
  | metadata m => cases hm
  | resolveData j =>
      obtain rfl := hpre
      exact ⟨_, ⟨hroute, rfl⟩, h.frame hn rfl h.cache hkeep rfl (hok.congr rfl rfl fun _ hr => hr)⟩
  | nowSecs => exact ⟨_, rfl, h.frame hn rfl h.cache hkeep rfl (hok.congr rfl rfl fun _ hr => hr)⟩
  | writtenInsert j => exact ⟨_, rfl, h.frame hn rfl h.cache hkeep rfl (hok.congr rfl rfl fun _ hr => hr)⟩
  | data srv' dc =>
      obtain ⟨rfl, hpend, k', off, data, flags, ht, rfl⟩ := hpre
      have hwritten : ∀ n', CallOk t.inode c.shared.server t l { γ n with written := some n' } := fun n' =>
        { inode := rfl
          batch := hok.batch
          read := hok.read
          pending := fun {iv} hp => by
            have hp : (γ n).pending = some iv := hp
            rw [hpend] at hp
            cases hp
          floor := hok.floor
          reported := hok.reported
          put := hok.put }
      show ∃ g', (clientContract t.inode srv' t).post (.data srv' (.writeData t.inode off data)) (γ n)
        (S.answer srv' (.writeData t.inode off data) c.shared.data).1 g' ∧ _
      cases hr : (S.answer srv' (.writeData t.inode off data) c.shared.data).1 with
      | error x => exact ⟨_, rfl, h.frame hn rfl h.cache hkeep rfl (hok.congr rfl rfl fun _ hr => hr)⟩
      | ok n' => exact ⟨_, rfl, h.frame hn rfl h.cache hkeep rfl ((hwritten n').congr rfl rfl fun _ hr => hr)⟩
  | _ => cases hpre

/-- A new call. -/
theorem start (h : SizesKept i z₀ γ c) (ht : t.inode = i) :
    SizesKept i z₀ (Function.update γ c.threads.length {})
      (⟨c.shared, c.threads ++ [⟨t, p, {}⟩]⟩ : ClientConf δ) where
  record := h.record
  size := by
    intro iv hiv
    obtain ⟨hle, hor⟩ := h.size hiv
    refine ⟨hle, hor.imp_right fun ⟨m, th, hm, hr⟩ => ⟨m, th, ?_, ?_⟩⟩
    · exact List.getElem?_append_left (List.getElem?_eq_some_iff.1 hm).1 ▸ hm
    · rw [Function.update_of_ne (Nat.ne_of_lt (List.getElem?_eq_some_iff.1 hm).1)]
      exact hr
  cache := h.cache
  locks := h.locks.append RowsApart.symm fun _ _ _ r hr => by cases hr
  calls := by
    intro m th hth
    rcases getElem?_append_cases hth with ⟨rfl, rfl⟩ | ⟨hne, hth⟩
    · rw [Function.update_self]
      exact
        { inode := ht
          batch := rfl
          read := fun hr => by cases hr
          pending := fun hp => by cases hp
          floor := fun _ => Nat.zero_le _
          reported := fun _ he => by cases he
          put := fun _ hv => by cases hv }
    · rw [Function.update_of_ne hne]
      exact h.calls m th hth

/-- One step of one call. -/
theorem act (h : SizesKept i z₀ γ c) (hroute : (c.shared.cores t.client).resolveData S.reg i = srv)
    {e : ClientEff} {r : e.Res} (hn : c.threads[n]? = some ⟨t, p, l⟩) (hpre : (t.contract srv).pre e (γ n))
    (ha : ClientActs S (c.threads.eraseIdx n) e l c.shared r l' s')
    (hgrow : e = .server .commit → ∀ raw, c.shared.server.db.inode i = some raw →
      raw.size ≤ t.resize (γ n) raw.size) :
    ∃ g', (t.contract srv).post e (γ n) r g' ∧
      SizesKept i z₀ (Function.update γ n g') (⟨s', c.threads.set n ⟨t, p', l'⟩⟩ : ClientConf δ) := by
  cases ha with
  | done hfree => exact h.server hn hpre hfree fun he => hgrow (congrArg _ he)
  | failed hf => exact h.failed hn hpre hf
  | client hm =>
      obtain ⟨rfl, -, hpre⟩ := hpre
      exact h.client hn hroute hm hpre

/-- Before the first call. -/
theorem init {s₀ : Cluster δ} {iv₀ : InodeValue} (hstored : s₀.server.db.inode i = some iv₀)
    (hcached : ∀ {v}, s₀.server.cache.find i = some v → v.size ≤ iv₀.size) :
    SizesKept i iv₀.size (fun _ => {}) (⟨s₀, []⟩ : ClientConf δ) where
  record := ⟨iv₀, hstored⟩
  size hiv := by
    cases hstored.symm.trans hiv
    exact ⟨Nat.le_refl _, Or.inl rfl⟩
  cache hiv hv := by
    cases hstored.symm.trans hiv
    exact hcached hv
  locks := fun _ _ _ _ _ hu => by simp at hu
  calls := fun _ _ hth => by simp at hth

/-- The present size can be taken for the initial one. -/
theorem restart (h : SizesKept i z₀ γ c) {iv : InodeValue} (hiv : c.shared.server.db.inode i = some iv) :
    SizesKept i iv.size γ c :=
  { h with
    size := fun hiv' => by
      cases hiv.symm.trans hiv'
      exact ⟨Nat.le_refl _, Or.inl rfl⟩ }

end SizesKept

/-! ## Routing -/

/-- No step of these calls changes where the data of a file is sent. -/
theorem routes_act {S : VfsSetup δ} {i srv : Nat} {route : Nat → Nat} {t : FileCall} {g : Progress} {os : List ClientThread}
    {e : ClientEff} {l l' : Local} {s s' : Cluster δ} {r : e.Res}
    (h : ∀ k, (s.cores k).resolveData S.reg i = route k) (hpre : (t.contract srv).pre e g)
    (ha : ClientActs S os e l s r l' s') (k : Nat) : (s'.cores k).resolveData S.reg i = route k := by
  cases ha with
  | done hfree => exact h k
  | failed hf => exact h k
  | @client k' e l s hm =>
      have hsame : (VfsState.handle S e (s.view k')).2.core.handleMap = (s.cores k').handleMap := by
        cases e with
        | metadata m => cases hm
        | handleInsert j id => cases hpre.2.2.2
        | handleRemove j => cases hpre.2.2.2
        | _ => rfl
      show ((Function.update s.cores k' (VfsState.handle S e (s.view k')).2.core) k).resolveData S.reg i = route k
      by_cases hk : k = k'
      · subst hk
        rw [Function.update_self]
        unfold VfsCore.resolveData
        rw [hsame]
        exact h k
      · rw [Function.update_of_ne hk]
        exact h k

end

/-! ## Results of writes -/

/-- The end of a write that has returned `Ok`. -/
def writtenEnd (th : ClientThread) : Option Nat :=
  match th.tag, th.result with
  | .write _ _ off _ _, some (.written (.ok n)) => some (off + n)
  | _, _ => none

/-- A write that has returned `Ok` has stored its bytes and reported their end. -/
theorem reported_of_writtenEnd {srv e : Nat} {th : ClientThread} {g : Progress}
    (hwp : wp (th.tag.contract srv) th.prog th.tag.achieves g) (he : writtenEnd th = some e) :
    g.reported = some e ∧ g.written.isSome = true := by
  obtain ⟨t, p, l⟩ := th
  cases p with
  | call e k => cases t <;> cases he
  | ret a =>
      cases t with
      | fallocate => cases he
      | write k i off data flags =>
          match a, hwp, he with
          | .written (.ok n), hwp, he =>
              cases he
              exact ⟨hwp.2.2, by rw [hwp.2.1]; rfl⟩

end RucksFs
