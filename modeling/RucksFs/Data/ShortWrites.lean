import RucksFs.Client.Core

/-!
# Short writes (`storage/src/rawdisk.rs` over a `pwrite` that may stop early)

POSIX lets `pwrite` store a prefix of its buffer and return the length of that prefix.  `write_at` and `truncate`
do not look at what it returns.  `FlakyDisk` is the store of `RucksFs.Data.RawDisk` with the outcomes of the next
`pwrite` calls given in advance.

* `writeAt_stored` — which bytes a write stores and what it answers.
* `region_truncate` — which bytes a truncation clears: each chunk up to the outcome of its own `pwrite`.
* `short_writes_iff` — the answers are right exactly when the outcomes leave nothing behind that matters.
-/

set_option autoImplicit false

namespace RucksFs

open RawDisk

/-- A store, and how many bytes the next `pwrite` calls will store; later ones store all of their buffer. -/
structure FlakyDisk where
  disk : RawDisk
  outcomes : List Nat

namespace FlakyDisk

/-- What the next `pwrite` stores of a buffer of `n` bytes. -/
def accepts (d : FlakyDisk) (n : Nat) : Nat := min n (d.outcomes.headD n)

/-- `pwrite` stores a prefix and returns its length. -/
def pwriteFile (d : FlakyDisk) (abs : Nat) (data : List Byte) : FsResult Nat × FlakyDisk :=
  if abs + data.length < OFF_SIZE then
    (.ok (d.accepts data.length),
      ⟨{ d.disk with file := d.disk.file.pwrite abs (data.take (d.accepts data.length)) }, d.outcomes.tail⟩)
  else (.error invalidArgument, d)

def readAt (d : FlakyDisk) (inode offset size : Nat) : FsResult (List Byte) := d.disk.readAt inode offset size

/-- The length that `pwrite` returns is not used. -/
def writeAt (d : FlakyDisk) (inode offset : Nat) (data : List Byte) : FsResult Nat × FlakyDisk :=
  match d.disk.absoluteOffset inode offset with
  | .error e => (.error e, d)
  | .ok abs =>
      let actualLen := min data.length (d.disk.maxFileSize - offset)
      match d.pwriteFile abs (data.take actualLen) with
      | (.error e, d') => (.error e, d')
      | (.ok _, d') => (.ok (actualLen % U32_SIZE), d')

/-- The loop of `truncate`; the length that `pwrite` returns is not used. -/
def zeroLoop (absStart zeroLen written : Nat) (d : FlakyDisk) : FsResult Unit × FlakyDisk :=
  if written < zeroLen then
    let chunk := min (zeroLen - written) CHUNK
    match d.pwriteFile (absStart + written) (List.replicate chunk 0) with
    | (.error e, d') => (.error e, d')
    | (.ok _, d') => zeroLoop absStart zeroLen (written + chunk) d'
  else (.ok (), d)
termination_by zeroLen - written
decreasing_by
  have : 0 < CHUNK := by decide
  omega

def truncate (d : FlakyDisk) (inode size : Nat) : FsResult Unit × FlakyDisk :=
  if size > d.disk.maxFileSize then
    (.error (.invalidInput
      ("truncate size " ++ toString size ++ " exceeds max_file_size " ++ toString d.disk.maxFileSize)), d)
  else
    match d.disk.absoluteOffset inode size with
    | .error e => (.error e, d)
    | .ok absStart =>
        let zeroLen := d.disk.maxFileSize - size
        if zeroLen = 0 then (.ok (), d) else zeroLoop absStart zeroLen 0 d

/-- `DataServer` on such a store. -/
def serve : (c : DataCall) → FlakyDisk → c.Res × FlakyDisk
  | .readData i off n, d => (d.readAt i off n, d)
  | .writeData i off data, d => d.writeAt i off data
  | .truncate i size, d => d.truncate i size
  | .flush i, d => ((d.disk.flush i).1, d)
  | .deleteData i, d => ((d.disk.delete i).1, d)

variable {d d' : FlakyDisk} {i : Nat}

/-! ## Writes -/

/-- How many bytes a write stores. -/
def stores (d : FlakyDisk) (off : Nat) (data : List Byte) : Nat :=
  d.accepts (min data.length (d.disk.maxFileSize - off))

theorem accepts_le (d : FlakyDisk) (n : Nat) : d.accepts n ≤ n := Nat.min_le_left _ _

theorem pwriteFile_ok {abs n : Nat} {data : List Byte} (h : d.pwriteFile abs data = (.ok n, d')) :
    abs + data.length < OFF_SIZE ∧ n = d.accepts data.length ∧
      d' = ⟨{ d.disk with file := d.disk.file.pwrite abs (data.take n) }, d.outcomes.tail⟩ := by
  unfold pwriteFile at h
  split at h
  · rename_i hfit
    cases h
    exact ⟨hfit, rfl, rfl⟩
  · cases h

/-- **A write stores a prefix of its data and answers the length of all of it.** -/
theorem writeAt_stored {off w : Nat} {data : List Byte} (h : d.writeAt i off data = (.ok w, d')) :
    w = min data.length (d.disk.maxFileSize - off) % U32_SIZE ∧ d'.disk.maxFileSize = d.disk.maxFileSize ∧
      ∀ j k, k < d.disk.maxFileSize → d'.disk.region j k =
        if j = i ∧ off ≤ k ∧ k < off + d.stores off data then data.getD (k - off) 0 else d.disk.region j k := by
  unfold writeAt at h
  cases habs : d.disk.absoluteOffset i off with
  | error e => rw [habs] at h; cases h
  | ok abs =>
      obtain ⟨hlt, rfl⟩ := absoluteOffset_ok habs
      rw [habs] at h
      dsimp only at h
      split at h
      · cases h
      · rename_i n d₁ hw
        cases h
        obtain ⟨hfit, rfl, rfl⟩ := pwriteFile_ok hw
        have hlen : (data.take (min data.length (d.disk.maxFileSize - off))).length =
            min data.length (d.disk.maxFileSize - off) := by simp
        rw [hlen] at hfit
        have hle := d.accepts_le (min data.length (d.disk.maxFileSize - off))
        refine ⟨rfl, rfl, fun j k hk => ?_⟩
        rw [hlen, List.take_take, Nat.min_eq_left hle]
        have hcut : (data.take (d.stores off data)).length = d.stores off data := by
          rw [List.length_take]
          unfold stores
          omega
        show SparseFile.splice d.disk.file.byte _ (data.take (d.stores off data)) (j * d.disk.maxFileSize + k) = _
        by_cases hin : j = i ∧ off ≤ k ∧ k < off + d.stores off data
        · rw [if_pos hin]
          obtain ⟨rfl, hlo, hhi⟩ := hin
          rw [SparseFile.splice_inside (by omega) (by rw [hcut]; omega),
            show j * d.disk.maxFileSize + k - (j * d.disk.maxFileSize + off) = k - off by omega,
            List.getD_eq_getElem?_getD, List.getD_eq_getElem?_getD, List.getElem?_take_of_lt (by omega)]
        · rw [if_neg hin, RawDisk.region]
          apply SparseFile.splice_outside
          rw [hcut]
          by_contra hrange
          have hroom : off + d.stores off data ≤ d.disk.maxFileSize := by
            unfold stores
            omega
          exact hin (Tiles.mem_range j i off (d.stores off data) hk hroom (by omega) (by omega))

/-! ## Truncations -/

/-- Position `k` of the tail lies in the prefix that the `pwrite` of its chunk stores. -/
def clears (d : FlakyDisk) (k : Nat) : Bool := k % CHUNK < (d.outcomes[k / CHUNK]?).getD CHUNK

theorem CHUNK_pos : 0 < CHUNK := by decide

/-- The first chunk is cleared by the next `pwrite`. -/
theorem clears_first (d : FlakyDisk) {k n : Nat} (hk : k < n) (hn : n ≤ CHUNK) :
    d.clears k = true ↔ k < d.accepts n := by
  have hdiv : k / CHUNK = 0 := Nat.div_eq_of_lt (by omega)
  unfold clears accepts
  rw [hdiv, Nat.mod_eq_of_lt (by omega)]
  cases d.outcomes with
  | nil => simp; omega
  | cons o os => simp [hk]

/-- The others are cleared by the `pwrite` calls after it. -/
theorem clears_next (d : FlakyDisk) (disk : RawDisk) (k : Nat) :
    clears ⟨disk, d.outcomes.tail⟩ k = d.clears (k + CHUNK) := by
  unfold clears
  rw [Nat.add_mod_right, Nat.add_div_right k CHUNK_pos, List.getElem?_tail]

/-- What one `pwrite` of zeros leaves. -/
theorem byte_zeros (d : FlakyDisk) (pos n p : Nat) :
    (d.disk.file.pwrite pos ((List.replicate n (0 : Byte)).take (d.accepts n))).byte p =
      if pos ≤ p ∧ p < pos + d.accepts n then 0 else d.disk.file.byte p := by
  have hlen : ((List.replicate n (0 : Byte)).take (d.accepts n)).length = d.accepts n := by
    rw [List.length_take, List.length_replicate, Nat.min_eq_left (d.accepts_le n)]
  rw [SparseFile.byte_pwrite]
  split
  · rename_i hin
    rw [SparseFile.splice_inside hin.1 (by omega), List.take_replicate, List.getD_eq_getElem?_getD,
      List.getElem?_getD_replicate_default_eq]
  · exact SparseFile.splice_outside (by omega)

theorem zeroLoop_ok {abs len : Nat} {u : Unit} (written : Nat) (d : FlakyDisk)
    (h : zeroLoop abs len written d = (.ok u, d')) :
    d'.disk.maxFileSize = d.disk.maxFileSize ∧ ∀ p, d'.disk.file.byte p =
      if abs + written ≤ p ∧ p < abs + len ∧ d.clears (p - (abs + written)) = true then 0
      else d.disk.file.byte p := by
  fun_induction zeroLoop abs len written d with
  | case1 written d hlt chunk e d₁ hw => cases h
  | case2 written d hlt chunk n d₁ hw ih =>
      obtain ⟨hm, hbytes⟩ := ih h
      obtain ⟨-, rfl, rfl⟩ := pwriteFile_ok hw
      have hchunk : chunk = min (len - written) CHUNK := rfl
      refine ⟨hm, fun p => ?_⟩
      rw [hbytes, clears_next]
      dsimp only
      rw [List.length_replicate, byte_zeros]
      have hle := d.accepts_le chunk
      by_cases hin : abs + written ≤ p ∧ p < abs + len
      · by_cases hfirst : p - (abs + written) < chunk
        · -- in the chunk of this iteration
          have hiff := d.clears_first hfirst (by omega)
          rw [if_neg (by omega)]
          by_cases hacc : p - (abs + written) < d.accepts chunk
          · rw [if_pos (by omega), if_pos ⟨hin.1, hin.2, hiff.2 hacc⟩]
          · rw [if_neg (by omega), if_neg fun hc => hacc (hiff.1 hc.2.2)]
        · -- in a later one, so this chunk is a full one
          have hfull : chunk = CHUNK := by omega
          have hshift : p - (abs + (written + chunk)) + CHUNK = p - (abs + written) := by omega
          rw [hshift, if_neg (by omega : ¬(abs + written ≤ p ∧ p < abs + written + d.accepts chunk))]
          by_cases hc : d.clears (p - (abs + written)) = true
          · rw [if_pos ⟨by omega, hin.2, hc⟩, if_pos ⟨hin.1, hin.2, hc⟩]
          · rw [if_neg fun h => hc h.2.2, if_neg fun h => hc h.2.2]
      · rw [if_neg (by omega), if_neg (by omega), if_neg (by omega)]
  | case3 written d hge =>
      cases h
      refine ⟨rfl, fun p => ?_⟩
      rw [if_neg (by omega)]

/-- **A truncation clears what its `pwrite` calls store**, and leaves the rest as it was. -/
theorem region_truncate {size : Nat} {u : Unit} (h : d.truncate i size = (.ok u, d')) :
    d'.disk.maxFileSize = d.disk.maxFileSize ∧ ∀ j k, k < d.disk.maxFileSize → d'.disk.region j k =
      if j = i ∧ size ≤ k ∧ d.clears (k - size) = true then 0 else d.disk.region j k := by
  unfold truncate at h
  split at h
  · cases h
  · rename_i hle
    cases habs : d.disk.absoluteOffset i size with
    | error e => rw [habs] at h; cases h
    | ok abs =>
        obtain ⟨hlt, rfl⟩ := absoluteOffset_ok habs
        rw [habs] at h
        dsimp only at h
        rw [if_neg (by omega)] at h
        obtain ⟨hm, hbytes⟩ := zeroLoop_ok 0 d h
        refine ⟨hm, fun j k hk => ?_⟩
        rw [RawDisk.region, hbytes, hm, RawDisk.region]
        by_cases hin : j = i ∧ size ≤ k
        · obtain ⟨rfl, hsize⟩ := hin
          have hpos : j * d.disk.maxFileSize + k - (j * d.disk.maxFileSize + size + 0) = k - size := by omega
          rw [hpos]
          by_cases hc : d.clears (k - size) = true
          · rw [if_pos ⟨by omega, by omega, hc⟩, if_pos ⟨rfl, hsize, hc⟩]
          · rw [if_neg fun h => hc h.2.2, if_neg fun h => hc h.2.2]
        · rw [if_neg, if_neg fun h => hin ⟨h.1, h.2.1⟩]
          rintro ⟨hlo, hhi, -⟩
          obtain ⟨rfl, hsize, -⟩ := Tiles.mem_range j i size (d.disk.maxFileSize - size) hk (by omega) (by omega)
            (by omega)
          exact hin ⟨rfl, hsize⟩

/-! ## Whole writes -/

theorem pwriteFile_whole (disk : RawDisk) (abs : Nat) (data : List Byte) :
    pwriteFile ⟨disk, []⟩ abs data = ((disk.pwriteFile abs data).1.map fun _ => data.length,
      ⟨(disk.pwriteFile abs data).2, []⟩) := by
  have hall : accepts ⟨disk, []⟩ data.length = data.length := Nat.min_self _
  unfold pwriteFile RawDisk.pwriteFile
  by_cases hfit : abs + data.length < OFF_SIZE
  · simp only [hfit, if_true, hall, List.take_length]
    rfl
  · simp only [hfit, if_false]
    rfl

/-- When every `pwrite` stores its whole buffer, `write_at` does what `RawDisk.writeAt` does. -/
theorem writeAt_whole (disk : RawDisk) (off : Nat) (data : List Byte) :
    writeAt ⟨disk, []⟩ i off data = ((disk.writeAt i off data).1, ⟨(disk.writeAt i off data).2, []⟩) := by
  unfold writeAt RawDisk.writeAt
  cases disk.absoluteOffset i off with
  | error e => rfl
  | ok abs =>
      dsimp only
      rw [pwriteFile_whole]
      cases disk.pwriteFile abs (data.take (min data.length (disk.maxFileSize - off))) with
      | mk r disk' =>
          cases r with
          | error e => rfl
          | ok u => rfl

theorem zeroLoop_whole (abs len written : Nat) (disk : RawDisk) :
    zeroLoop abs len written ⟨disk, []⟩ =
      ((RawDisk.zeroLoop abs len written disk).1, ⟨(RawDisk.zeroLoop abs len written disk).2, []⟩) := by
  fun_induction RawDisk.zeroLoop abs len written disk with
  | case1 written disk hlt chunk e disk₁ hw =>
      rw [zeroLoop, if_pos hlt]
      dsimp only
      rw [pwriteFile_whole, hw]
      rfl
  | case2 written disk hlt chunk u disk₁ hw ih =>
      rw [zeroLoop, if_pos hlt]
      dsimp only
      rw [pwriteFile_whole, hw]
      exact ih
  | case3 written disk hge => rw [zeroLoop, if_neg hge]

/-- And `truncate` what `RawDisk.truncate` does. -/
theorem truncate_whole (disk : RawDisk) (size : Nat) :
    truncate ⟨disk, []⟩ i size = ((disk.truncate i size).1, ⟨(disk.truncate i size).2, []⟩) := by
  unfold truncate RawDisk.truncate
  split
  · rfl
  · cases disk.absoluteOffset i size with
    | error e => rfl
    | ok abs =>
        dsimp only
        split
        · rfl
        · exact zeroLoop_whole abs _ 0 disk

end FlakyDisk

/-! ## What the client reports -/

/-- Data servers on such stores. -/
def VfsSetup.onFlakyDisks (cfg : Config) (reg : Registry) (clock : Nat → Nat := fun _ => 0) :
    VfsSetup (Nat → FlakyDisk) where
  cfg := cfg
  reg := reg
  clock := clock
  answer srv c disks :=
    ((FlakyDisk.serve c (disks srv)).1, Function.update disks srv (FlakyDisk.serve c (disks srv)).2)

namespace VfsState

variable {δ : Type}

/-- The end that an effect reports to the metadata server. -/
def reportedEnd : ((e : VfsEff) × e.Res) → Option (Nat × Nat)
  | ⟨.metadata (.reportWrite i newEnd _), _⟩ => some (i, newEnd)
  | _ => none

/-- The ends that an operation of the client reports. -/
def reports {α : Type} (S : VfsSetup δ) (x : VfsOp α) (v : VfsState δ) : List (Nat × Nat) :=
  (Prog.performed (handle S) x.run v).filterMap reportedEnd

theorem reports_bind {α β : Type} (S : VfsSetup δ) (v : VfsState δ) (x : VfsOp α) (f : α → VfsOp β) :
    v.reports S (x >>= f) = v.reports S x ++
      match v.run S x with
      | (.ok a, v') => v'.reports S (f a)
      | (.error _, _) => [] := by
  unfold reports run
  rw [Prog.performed_except_bind, List.filterMap_append]
  rcases Prog.run (handle S) x.run v with ⟨r, v'⟩
  cases r <;> rfl

/-- The end of a write: one report, whatever the metadata server answers. -/
theorem reports_report (S : VfsSetup δ) (v : VfsState δ) (i newEnd w : Nat) :
    v.reports S (do
      let ts ← VfsOp.eff .nowSecs
      let _ ← VfsOp.metadata (.reportWrite i newEnd ts)
      VfsOp.eff (.writtenInsert i)
      return w) = [(i, newEnd)] := by
  have hreport : ∀ (ts : Nat) (u : VfsState δ), u.reports S (do
      let _ ← VfsOp.metadata (.reportWrite i newEnd ts)
      VfsOp.eff (.writtenInsert i)
      return w) = [(i, newEnd)] := by
    intro ts u
    apply (reports_bind S u (VfsOp.metadata (.reportWrite i newEnd ts)) _).trans
    cases u.run S (VfsOp.metadata (.reportWrite i newEnd ts)) with
    | mk r u' =>
        cases r with
        | error e => rfl
        | ok _ => rfl
  apply (reports_bind S v (VfsOp.eff .nowSecs) _).trans
  exact hreport _ _

/-- `write` reports the end of what the data server says it has stored. -/
theorem reports_write (S : VfsSetup δ) (v : VfsState δ) (i off flags : Nat) (data : List Byte) :
    v.reports S (VfsCore.write i off data flags) =
      match (S.answer (v.core.resolveData S.reg i) (.writeData i off data) v.data).1 with
      | .ok w => [(i, off + w)]
      | .error _ => [] := by
  apply (reports_bind S v (VfsOp.resolveData i) _).trans
  apply (reports_bind S v (VfsOp.writeData (v.core.resolveData S.reg i) i off data) _).trans
  have hrun : v.run S (VfsOp.writeData (v.core.resolveData S.reg i) i off data) =
      ((S.answer (v.core.resolveData S.reg i) (.writeData i off data) v.data).1,
        { v with data := (S.answer (v.core.resolveData S.reg i) (.writeData i off data) v.data).2 }) := rfl
  rw [hrun]
  cases (S.answer (v.core.resolveData S.reg i) (.writeData i off data) v.data).1 with
  | error e => rfl
  | ok w => exact reports_report S _ i (off + w) w

end VfsState

open FlakyDisk in
/-- **Short writes.**  For every pattern of outcomes of `pwrite`: what `write_at` answers is what it has stored exactly
when all of the buffer was stored (with the count kept in 32 bits); a truncation that answers `Ok` has cleared the
tail exactly when the bytes that its `pwrite` calls left out were zero before; and the end that `VfsCore::write` reports
is not beyond what was stored exactly when the buffer, counted in 32 bits, was. -/
theorem short_writes_iff (cfg : Config) (reg : Registry) (clock : Nat → Nat) (d : FlakyDisk) (i : Nat) :
    (∀ off data w d', d.writeAt i off data = (.ok w, d') →
      (w = d.stores off data ↔ d.stores off data = min data.length (d.disk.maxFileSize - off) % U32_SIZE)) ∧
    (∀ size d', d.truncate i size = (.ok (), d') →
      ((∀ k, size ≤ k → k < d.disk.maxFileSize → d'.disk.region i k = 0) ↔
        ∀ k, size ≤ k → k < d.disk.maxFileSize → d.clears (k - size) = false → d.disk.region i k = 0)) ∧
    (∀ (v : VfsState (Nat → FlakyDisk)) off data flags newEnd, v.data (v.core.resolveData reg i) = d →
      (i, newEnd) ∈ v.reports (.onFlakyDisks cfg reg clock) (VfsCore.write i off data flags) →
      (newEnd ≤ off + d.stores off data ↔
        min data.length (d.disk.maxFileSize - off) % U32_SIZE ≤ d.stores off data)) := by
  refine ⟨fun off data w d' h => ?_, fun size d' h => ?_, fun v off data flags newEnd hd hmem => ?_⟩
  · rw [(writeAt_stored h).1]
    exact eq_comm
  · obtain ⟨-, hregion⟩ := region_truncate h
    constructor
    · intro hzero k hk hlt hleft
      have hkept := hregion i k hlt
      rw [if_neg (by simp [hleft]), hzero k hk hlt] at hkept
      exact hkept.symm
    · intro hleft k hk hlt
      rw [hregion i k hlt]
      cases hc : d.clears (k - size) with
      | true => rw [if_pos ⟨rfl, hk, rfl⟩]
      | false => simpa using hleft k hk hlt hc
  · rw [VfsState.reports_write] at hmem
    have hanswer : ((VfsSetup.onFlakyDisks cfg reg clock).answer (v.core.resolveData reg i) (.writeData i off data)
        v.data).1 = (d.writeAt i off data).1 := by
      rw [← hd]
      rfl
    rw [show (VfsSetup.onFlakyDisks cfg reg clock).reg = reg from rfl, hanswer] at hmem
    cases hw : (d.writeAt i off data).1 with
    | error e =>
        rw [hw] at hmem
        cases hmem
    | ok w =>
        rw [hw] at hmem
        have hend : newEnd = off + w := by simpa using hmem
        have hcount := (writeAt_stored (d := d) (Prod.ext hw rfl)).1
        omega

/-- Three bytes in a store of eight bytes per file; the next `pwrite` stores one byte. -/
def shortDisk : FlakyDisk := ⟨((RawDisk.mk .empty 8).writeAt 2 0 [65, 66, 67]).2, [1]⟩

theorem short_writes_iff_whole :
    ∃ d', FlakyDisk.writeAt ⟨⟨.empty, 8⟩, [4]⟩ 2 0 [65, 66, 67] = (.ok 3, d') ∧
      3 = FlakyDisk.stores ⟨⟨.empty, 8⟩, [4]⟩ 0 [65, 66, 67] := by
  refine ⟨_, rfl, ?_⟩
  exact ((short_writes_iff {} ⟨0, fun _ => none⟩ (fun _ => 0) ⟨⟨.empty, 8⟩, [4]⟩ 2).1 0 [65, 66, 67] 3 _ rfl).2 rfl

/-- **One byte is stored**, and `write_at` answers three; `VfsCore::write` reports the end of three; a truncation to one
byte answers `Ok` and leaves the third byte. -/
theorem short_write_overreported :
    (shortDisk.writeAt 2 3 [68, 69, 70]).1 = .ok 3 ∧
      (shortDisk.writeAt 2 3 [68, 69, 70]).2.readAt 2 0 8 = .ok [65, 66, 67, 68, 0, 0, 0, 0] ∧
      VfsState.reports (.onFlakyDisks {} ⟨0, fun _ => none⟩) (VfsCore.write 2 3 [68, 69, 70] 0)
        ⟨Server.fresh {}, fun _ => shortDisk, {}, 0⟩ = [(2, 6)] ∧
      (shortDisk.truncate 2 1).1 = .ok () ∧
      (shortDisk.truncate 2 1).2.readAt 2 0 8 = .ok [65, 0, 67, 0, 0, 0, 0, 0] := by
  decide +kernel

end RucksFs
