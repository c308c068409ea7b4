import Mathlib.Data.List.GetD
import Mathlib.Data.ZMod.Defs
import RucksFs.Core
import RucksFs.Lib.SparseFile
import RucksFs.Lib.Trace

/-!
# The raw-disk data store (`storage/src/rawdisk.rs`)

All files live in one flat file: inode `i` owns the positions from `i * maxFileSize` on, `maxFileSize` of them.

* `RawDisk.readAt`, `writeAt`, `truncate`, `flush`, `delete` — the functions of `RawDiskDataStore`.  `pread` and
  `pwrite` transfer all bytes, and are refused when the range does not fit in the kernel's signed offsets.
* `RawDisk.region` — what the store means: one map from positions to bytes for each inode.
* `region_writeAt`, `region_truncate` — each function changes the region of its inode as an array would, and
  no other.
* `rawdisk_refines_arrays` — after any run, a read returns what the last writes and truncations have left.
* `truncate_iff` — `truncate` does what it should for every size but one.
-/

set_option autoImplicit false

namespace RucksFs

/-- `RawDiskDataStore`. -/
structure RawDisk where
  file : SparseFile Byte
  maxFileSize : Nat

namespace RawDisk

variable {off abs len : Nat} {data : List Byte} {u : Unit}

/-- Values of a `u64`. -/
def U64_SIZE : Nat := 2 ^ 64

/-- Positions of the kernel's `off_t`. -/
def OFF_SIZE : Nat := 2 ^ 63

/-- The chunks in which `truncate` writes zeros. -/
def CHUNK : Nat := 4096

/-- `RawDiskDataStore::open` on an empty backing file. -/
def openStore (maxFileSize : Nat) : FsResult RawDisk :=
  if maxFileSize = 0 then .error (.invalidInput "max_file_size must be > 0")
  else .ok ⟨.empty, maxFileSize⟩

/-- `absolute_offset`, with the checked arithmetic of `u64`. -/
def absoluteOffset (d : RawDisk) (inode : Nat) (offset : Nat) : FsResult Nat :=
  if offset ≥ d.maxFileSize then
    .error (.invalidInput ("offset " ++ toString offset ++ " exceeds max_file_size " ++ toString d.maxFileSize))
  else if inode * d.maxFileSize + offset < U64_SIZE then .ok (inode * d.maxFileSize + offset)
  else .error (.invalidInput "offset overflow in absolute_offset")

/-- What `pread` and `pwrite` answer when the range goes past the last `off_t`. -/
def invalidArgument : FsError := .io "Invalid argument (os error 22)"

def preadFile (d : RawDisk) (abs n : Nat) : FsResult (List Byte) :=
  if abs + n < OFF_SIZE then .ok (d.file.pread abs n) else .error invalidArgument

def pwriteFile (d : RawDisk) (abs : Nat) (data : List Byte) : FsResult Unit × RawDisk :=
  if abs + data.length < OFF_SIZE then (.ok (), { d with file := d.file.pwrite abs data })
  else (.error invalidArgument, d)

def readAt (d : RawDisk) (inode : Nat) (offset size : Nat) : FsResult (List Byte) := do
  let abs ← d.absoluteOffset inode offset
  let actualSize := min size (d.maxFileSize - offset)
  let bytes ← d.preadFile abs actualSize
  -- the buffer was zero before
  return bytes ++ List.replicate (actualSize - bytes.length) 0

def writeAt (d : RawDisk) (inode : Nat) (offset : Nat) (data : List Byte) : FsResult Nat × RawDisk :=
  match d.absoluteOffset inode offset with
  | .error e => (.error e, d)
  | .ok abs =>
      let actualLen := min data.length (d.maxFileSize - offset)
      match d.pwriteFile abs (data.take actualLen) with
      | (.error e, d') => (.error e, d')
      | (.ok _, d') => (.ok (actualLen % U32_SIZE), d')

/-- The loop of `truncate`. -/
def zeroLoop (absStart zeroLen written : Nat) (d : RawDisk) : FsResult Unit × RawDisk :=
  if written < zeroLen then
    let chunk := min (zeroLen - written) CHUNK
    match d.pwriteFile (absStart + written) (List.replicate chunk 0) with
    | (.error e, d') => (.error e, d')
    | (.ok _, d') => zeroLoop absStart zeroLen (written + chunk) d'
  else (.ok (), d)
termination_by zeroLen - written
decreasing_by
  simp only [CHUNK]
  omega

def truncate (d : RawDisk) (inode : Nat) (size : Nat) : FsResult Unit × RawDisk :=
  if size > d.maxFileSize then
    (.error (.invalidInput
      ("truncate size " ++ toString size ++ " exceeds max_file_size " ++ toString d.maxFileSize)), d)
  else
    match d.absoluteOffset inode size with
    | .error e => (.error e, d)
    | .ok absStart =>
        let zeroLen := d.maxFileSize - size
        if zeroLen = 0 then (.ok (), d) else zeroLoop absStart zeroLen 0 d

/-- `sync_data` succeeds. -/
def flush (d : RawDisk) (_inode : Nat) : FsResult Unit × RawDisk := (.ok (), d)

/-- Nothing is done: inode numbers are not used again. -/
def delete (d : RawDisk) (_inode : Nat) : FsResult Unit × RawDisk := (.ok (), d)

/-! ## Regions -/

/-- The bytes of one inode. -/
def region (d : RawDisk) (i k : Nat) : Byte := d.file.byte (i * d.maxFileSize + k)

variable {d d' : RawDisk} {i : Nat}

theorem absoluteOffset_ok (h : d.absoluteOffset i off = .ok abs) :
    off < d.maxFileSize ∧ abs = i * d.maxFileSize + off := by
  unfold absoluteOffset at h
  split at h
  · cases h
  · split at h
    · cases h
      exact ⟨by omega, rfl⟩
    · cases h

theorem pwriteFile_ok (h : d.pwriteFile abs data = (.ok u, d')) : d' = { d with file := d.file.pwrite abs data } := by
  unfold pwriteFile at h
  split at h <;> cases h
  rfl

/-- **A read is a window of the region.** -/
theorem readAt_ok {n : Nat} {bytes : List Byte} (h : d.readAt i off n = .ok bytes) :
    bytes = SparseFile.window (d.region i) off (min n (d.maxFileSize - off)) := by
  unfold readAt at h
  cases habs : d.absoluteOffset i off with
  | error e => rw [habs] at h; cases h
  | ok abs =>
      obtain ⟨-, rfl⟩ := absoluteOffset_ok habs
      rw [habs] at h
      simp only [preadFile, bind, Except.bind, pure, Except.pure] at h
      split at h
      · cases h
      · rename_i v hv
        split at hv <;> cases hv
        cases h
        rw [SparseFile.pread_padded]
        exact List.map_congr_left fun j _ => by rw [region, Nat.add_assoc]

/-- What a read returns depends on the region alone. -/
theorem readAt_congr (hm : d'.maxFileSize = d.maxFileSize)
    (h : ∀ k, k < d.maxFileSize → d'.region i k = d.region i k) (off n : Nat) :
    d'.readAt i off n = d.readAt i off n := by
  have habs : d'.absoluteOffset i off = d.absoluteOffset i off := by
    unfold absoluteOffset
    rw [hm]
  have hread : ∀ abs m, abs = i * d.maxFileSize + off → off + m ≤ d.maxFileSize →
      d'.file.pread abs m ++ List.replicate (m - (d'.file.pread abs m).length) 0 =
        d.file.pread abs m ++ List.replicate (m - (d.file.pread abs m).length) 0 := by
    intro abs m habs hle
    rw [SparseFile.pread_padded, SparseFile.pread_padded]
    refine SparseFile.window_congr fun j hj => ?_
    have hk := h (off + j) (by omega)
    rw [region, region, hm, ← Nat.add_assoc, ← habs] at hk
    exact hk
  unfold readAt
  rw [habs]
  cases ho : d.absoluteOffset i off with
  | error e => rfl
  | ok abs =>
      obtain ⟨hlt, habs'⟩ := absoluteOffset_ok ho
      simp only [preadFile, bind, Except.bind, pure, Except.pure, hm]
      by_cases hfit : abs + min n (d.maxFileSize - off) < OFF_SIZE
      · simp only [if_pos hfit]
        rw [hread abs _ habs' (by omega)]
      · simp only [if_neg hfit]

/-- **A write changes its range of its own region.** -/
theorem writeAt_ok {w : Nat} (h : d.writeAt i off data = (.ok w, d')) :
    off < d.maxFileSize ∧ w = min data.length (d.maxFileSize - off) % U32_SIZE ∧
      d'.maxFileSize = d.maxFileSize ∧ ∀ j k, k < d.maxFileSize → d'.region j k =
        if j = i ∧ off ≤ k ∧ k < off + data.length then data.getD (k - off) 0 else d.region j k := by
  unfold writeAt at h
  split at h
  · cases h
  · rename_i abs habs
    obtain ⟨hlt, rfl⟩ := absoluteOffset_ok habs
    dsimp only at h
    split at h
    · cases h
    · rename_i u d₁ hw
      cases h
      have hd := pwriteFile_ok hw
      subst hd
      refine ⟨hlt, rfl, rfl, fun j k hk => ?_⟩
      show SparseFile.splice d.file.byte _ _ (j * d.maxFileSize + k) = _
      rw [region]
      have hlen : (data.take (min data.length (d.maxFileSize - off))).length =
          min data.length (d.maxFileSize - off) := by simp
      split
      · rename_i hin
        obtain ⟨rfl, hlo, hhi⟩ := hin
        rw [SparseFile.splice_inside (by omega) (by rw [hlen]; omega),
          show j * d.maxFileSize + k - (j * d.maxFileSize + off) = k - off by omega]
        rw [List.getD_eq_getElem?_getD, List.getD_eq_getElem?_getD, List.getElem?_take_of_lt (by omega)]
      · rename_i hout
        refine SparseFile.splice_outside ?_
        rw [hlen]
        by_contra hin
        obtain ⟨rfl, hlo, hhi⟩ := Tiles.mem_range j i off (min data.length (d.maxFileSize - off)) hk
          (by omega) (by omega) (by omega)
        exact hout ⟨rfl, hlo, by omega⟩

/-- Inside the address space every offset of a file has a position. -/
theorem absoluteOffset_fits (hoff : off < d.maxFileSize) (hfit : (i + 1) * d.maxFileSize < OFF_SIZE) :
    d.absoluteOffset i off = .ok (i * d.maxFileSize + off) ∧ i * d.maxFileSize + d.maxFileSize < OFF_SIZE := by
  have hend : i * d.maxFileSize + d.maxFileSize < OFF_SIZE := by rwa [← Nat.succ_mul]
  refine ⟨?_, hend⟩
  unfold absoluteOffset
  rw [if_neg (by omega), if_pos]
  unfold OFF_SIZE at hend
  unfold U64_SIZE
  omega

/-- A read inside the address space is a window of the region. -/
theorem readAt_window {n : Nat} (hoff : off < d.maxFileSize)
    (hfit : i * d.maxFileSize + off + min n (d.maxFileSize - off) < OFF_SIZE) :
    d.readAt i off n = .ok (SparseFile.window (d.region i) off (min n (d.maxFileSize - off))) := by
  have habs : d.absoluteOffset i off = .ok (i * d.maxFileSize + off) := by
    unfold absoluteOffset
    rw [if_neg (by omega), if_pos]
    unfold OFF_SIZE at hfit
    unfold U64_SIZE
    omega
  have hok : ∃ bytes, d.readAt i off n = .ok bytes := by
    unfold readAt
    rw [habs]
    simp only [preadFile, bind, Except.bind, pure, Except.pure]
    rw [if_pos hfit]
    exact ⟨_, rfl⟩
  obtain ⟨bytes, h⟩ := hok
  rw [h, readAt_ok h]

theorem readAt_succeeds (hoff : off < d.maxFileSize) (hfit : (i + 1) * d.maxFileSize < OFF_SIZE) (n : Nat) :
    ∃ bytes, d.readAt i off n = .ok bytes := by
  have hend := (absoluteOffset_fits hoff hfit).2
  exact ⟨_, readAt_window hoff (by omega)⟩

/-- A write that succeeds lies inside the address space. -/
theorem writeAt_fits {w : Nat} (h : d.writeAt i off data = (.ok w, d')) :
    i * d.maxFileSize + off + min data.length (d.maxFileSize - off) < OFF_SIZE := by
  unfold writeAt at h
  split at h
  · cases h
  · rename_i abs habs
    obtain ⟨-, rfl⟩ := absoluteOffset_ok habs
    unfold pwriteFile at h
    by_cases hfit : i * d.maxFileSize + off + (data.take (min data.length (d.maxFileSize - off))).length < OFF_SIZE
    · rwa [List.length_take, Nat.min_eq_left (Nat.min_le_left _ _)] at hfit
    · dsimp only at h
      rw [if_neg hfit] at h
      cases h

/-- A write that fails leaves the disk as it was. -/
theorem writeAt_error {e : FsError} (h : (d.writeAt i off data).1 = .error e) : (d.writeAt i off data).2 = d := by
  unfold writeAt at h ⊢
  split
  · rfl
  · rename_i abs habs
    rw [habs] at h
    unfold pwriteFile at h ⊢
    dsimp only at h ⊢
    by_cases hfit : abs + (data.take (min data.length (d.maxFileSize - off))).length < OFF_SIZE
    · rw [if_pos hfit] at h
      cases h
    · rw [if_neg hfit]

/-- A write that fits is done. -/
theorem writeAt_succeeds (hoff : off < d.maxFileSize) (hfit : (i + 1) * d.maxFileSize < OFF_SIZE) :
    ∃ d', d.writeAt i off data =
      (.ok (min data.length (d.maxFileSize - off) % U32_SIZE), d') := by
  obtain ⟨habs, hend⟩ := absoluteOffset_fits hoff hfit
  unfold writeAt
  rw [habs]
  dsimp only
  unfold pwriteFile
  rw [if_pos]
  · exact ⟨_, rfl⟩
  · simp only [List.length_take]
    omega

/-! ## Truncation -/

/-- The loop writes zeros from where it stands to the end of the region. -/
theorem zeroLoop_ok (written : Nat) (d : RawDisk) (h : zeroLoop abs len written d = (.ok u, d')) :
    d'.maxFileSize = d.maxFileSize ∧
      ∀ p, d'.file.byte p = if abs + written ≤ p ∧ p < abs + len then 0 else d.file.byte p := by
  fun_induction zeroLoop abs len written d with
  | case1 written d hlt chunk e d₁ hw => cases h
  | case2 written d hlt chunk u' d₁ hw ih =>
      obtain ⟨hm, hbytes⟩ := ih h
      have hd := pwriteFile_ok hw
      subst hd
      have hchunk : chunk ≤ len - written := Nat.min_le_left _ _
      refine ⟨hm, fun p => ?_⟩
      rw [hbytes, SparseFile.byte_pwrite]
      by_cases hin : abs + written ≤ p ∧ p < abs + len
      · rw [if_pos hin]
        split
        · rfl
        · rw [SparseFile.splice_inside hin.1 (by rw [List.length_replicate]; omega)]
          rw [List.getD_eq_getElem?_getD, List.getElem?_getD_replicate_default_eq]
      · rw [if_neg hin, if_neg (by omega), SparseFile.splice_outside]
        rw [List.length_replicate]
        omega
  | case3 written d hge =>
      cases h
      exact ⟨rfl, fun p => by rw [if_neg (by omega)]⟩

theorem zeroLoop_succeeds (hfit : abs + len < OFF_SIZE) (written : Nat) (d : RawDisk) :
    ∃ d', zeroLoop abs len written d = (.ok (), d') := by
  fun_induction zeroLoop abs len written d with
  | case1 written d hlt chunk e d₁ hw =>
      have hchunk : chunk ≤ len - written := Nat.min_le_left _ _
      unfold pwriteFile at hw
      rw [if_pos (by rw [List.length_replicate]; omega)] at hw
      cases hw
  | case2 written d hlt chunk u d₁ hw ih => exact ih
  | case3 written d hge => exact ⟨d, rfl⟩

/-- The loop ends well only when it stays inside the address space. -/
theorem zeroLoop_fits (written : Nat) (d : RawDisk) (h : zeroLoop abs len written d = (.ok u, d'))
    (hlt : written < len) : abs + len < OFF_SIZE := by
  fun_induction zeroLoop abs len written d with
  | case1 written d hlt' chunk e d₁ hw => cases h
  | case2 written d hlt' chunk u' d₁ hw ih =>
      by_cases hmore : written + chunk < len
      · exact ih h hmore
      · have hchunk : chunk ≤ len - written := Nat.min_le_left _ _
        unfold pwriteFile at hw
        split at hw
        · rename_i hfit
          rw [List.length_replicate] at hfit
          omega
        · cases hw
  | case3 written d hge => exact absurd hlt hge

/-- **A truncation clears the rest of its own region.** -/
theorem truncate_ok {size : Nat} (h : d.truncate i size = (.ok u, d')) :
    size < d.maxFileSize ∧ d'.maxFileSize = d.maxFileSize ∧ ∀ j k, k < d.maxFileSize → d'.region j k =
      if j = i ∧ size ≤ k then 0 else d.region j k := by
  unfold truncate at h
  split at h
  · cases h
  · rename_i hle
    split at h
    · cases h
    · rename_i abs habs
      obtain ⟨hlt, rfl⟩ := absoluteOffset_ok habs
      dsimp only at h
      rw [if_neg (by omega)] at h
      obtain ⟨hm, hbytes⟩ := zeroLoop_ok 0 d h
      refine ⟨hlt, hm, fun j k hk => ?_⟩
      rw [region, hbytes, hm, region]
      by_cases hin : j = i ∧ size ≤ k
      · obtain ⟨rfl, hsize⟩ := hin
        rw [if_pos (by omega), if_pos ⟨rfl, hsize⟩]
      · rw [if_neg hin, if_neg]
        rintro ⟨hlo, hhi⟩
        obtain ⟨rfl, hsize, -⟩ := Tiles.mem_range j i size (d.maxFileSize - size) hk (by omega) (by omega)
          (by omega)
        exact hin ⟨rfl, hsize⟩

/-- A truncation succeeds for every size below the limit, when the region lies inside the address space. -/
theorem truncate_isOk_iff (d : RawDisk) (i size : Nat) :
    (d.truncate i size).1 = .ok () ↔ size < d.maxFileSize ∧ (i + 1) * d.maxFileSize < OFF_SIZE := by
  rw [Nat.succ_mul]
  constructor
  · intro h
    have hdone : d.truncate i size = (.ok (), (d.truncate i size).2) := Prod.ext h rfl
    have hlt := (truncate_ok hdone).1
    have habs : d.absoluteOffset i size = .ok (i * d.maxFileSize + size) := by
      unfold truncate at hdone
      rw [if_neg (by omega)] at hdone
      cases habs : d.absoluteOffset i size with
      | error e => rw [habs] at hdone; cases hdone
      | ok abs => rw [(absoluteOffset_ok habs).2]
    unfold truncate at hdone
    rw [if_neg (by omega), habs] at hdone
    dsimp only at hdone
    rw [if_neg (by omega)] at hdone
    have hfit := zeroLoop_fits 0 d hdone (by omega)
    omega
  · rintro ⟨hlt, hfit⟩
    obtain ⟨habs, hend⟩ := absoluteOffset_fits hlt (by rwa [Nat.succ_mul])
    unfold truncate
    rw [if_neg (by omega), habs]
    dsimp only
    rw [if_neg (by omega)]
    have hspace : i * d.maxFileSize + size + (d.maxFileSize - size) < OFF_SIZE := by omega
    obtain ⟨d', hd'⟩ := zeroLoop_succeeds hspace 0 d
    rw [hd']

/-- What `truncate` should do: accept every size that a file can have, clear what is beyond it, and leave
everything else. -/
structure TruncatesTo (d : RawDisk) (i size : Nat) : Prop where
  accepts : (d.truncate i size).1 = .ok () ↔ size ≤ d.maxFileSize
  clears : (d.truncate i size).1 = .ok () →
    ∀ k, size ≤ k → k < d.maxFileSize → (d.truncate i size).2.region i k = 0
  keeps : (d.truncate i size).1 = .ok () → ∀ j k, k < d.maxFileSize → (j ≠ i ∨ k < size) →
    (d.truncate i size).2.region j k = d.region j k

/-- **Truncation.**  The loop ends and does its work for every size but `maxFileSize` itself, which is a size
that files have and that `absolute_offset` refuses as an offset. -/
theorem truncate_iff (d : RawDisk) (i size : Nat) (hfit : (i + 1) * d.maxFileSize < OFF_SIZE) :
    d.TruncatesTo i size ↔ size ≠ d.maxFileSize := by
  have hok : (d.truncate i size).1 = .ok () ↔ size < d.maxFileSize := by
    rw [truncate_isOk_iff]
    exact and_iff_left hfit
  constructor
  · intro h hsize
    have := h.accepts.2 (le_of_eq hsize)
    rw [hok, hsize] at this
    exact lt_irrefl _ this
  · intro hne
    have hdone : (d.truncate i size).1 = .ok () → d.truncate i size = (.ok (), (d.truncate i size).2) :=
      fun h => Prod.ext h rfl
    refine ⟨by rw [hok]; omega, fun h k hk hlt => ?_, fun h j k hlt hout => ?_⟩
    · obtain ⟨-, -, hregion⟩ := truncate_ok (hdone h)
      rw [hregion i k hlt, if_pos ⟨rfl, hk⟩]
    · obtain ⟨-, -, hregion⟩ := truncate_ok (hdone h)
      rw [hregion j k hlt, if_neg (by rintro ⟨rfl, hk⟩; omega)]

/-- A file that fills its region, truncated to the first half. -/
theorem truncate_half :
    let d := (RawDisk.writeAt ⟨.empty, 8⟩ 2 0 [1, 2, 3, 4, 5, 6, 7, 8]).2
    d.TruncatesTo 2 4 ∧ d.region 2 5 = 6 ∧ (d.truncate 2 4).2.region 2 5 = 0 ∧ (d.truncate 2 4).2.region 2 3 = 4 := by
  intro d
  have h : d.TruncatesTo 2 4 := (truncate_iff d 2 4 (by decide)).2 (by decide)
  have hok := h.accepts.2 (by decide)
  exact ⟨h, by decide, h.clears hok 5 (by decide) (by decide),
    (h.keeps hok 2 3 (by decide) (Or.inr (by decide))).trans (by decide)⟩

/-- A file of eight bytes that fills its region cannot be truncated to its own size. -/
theorem truncate_full_refused : ¬RawDisk.TruncatesTo ⟨.empty, 8⟩ 2 8 := by
  intro h
  have hok := h.accepts.2 (le_refl 8)
  have hrefused : (RawDisk.truncate ⟨.empty, 8⟩ 2 8).1 =
      .error (.invalidInput "offset 8 exceeds max_file_size 8") := by decide
  rw [hrefused] at hok
  cases hok

end RawDisk

/-! ## Runs -/

/-- A request of the trait `DataOps`. -/
inductive DataCall where
  | readData (inode offset size : Nat)
  | writeData (inode offset : Nat) (data : List Byte)
  | truncate (inode size : Nat)
  | flush (inode : Nat)
  | deleteData (inode : Nat)
  deriving DecidableEq

/-- What it answers. -/
def DataCall.Res : DataCall → Type
  | .readData .. => FsResult (List Byte)
  | .writeData .. => FsResult Nat
  | .truncate .. | .flush .. | .deleteData .. => FsResult Unit

def DataCall.isOk : (c : DataCall) → c.Res → Bool
  | .readData .., r => Except.isOk r
  | .writeData .., r => Except.isOk r
  | .truncate .., r | .flush .., r | .deleteData .., r => Except.isOk r

/-- A request with its answer. -/
abbrev DataAnswer := (c : DataCall) × c.Res

namespace RawDisk

/-- `DataServer`: every request goes to the store as it is. -/
def serve : (c : DataCall) → RawDisk → c.Res × RawDisk
  | .readData i off n, d => (d.readAt i off n, d)
  | .writeData i off data, d => d.writeAt i off data
  | .truncate i size, d => d.truncate i size
  | .flush i, d => d.flush i
  | .deleteData i, d => d.delete i

/-- Serve one request of a run. -/
def step (c : DataCall) (d : RawDisk) : DataAnswer × RawDisk := (⟨c, (serve c d).1⟩, (serve c d).2)

/-- Every request is answered with `Ok`. -/
def answersOk (_ : List (DataCall × DataAnswer)) (d : RawDisk) (c : DataCall) : Prop :=
  c.isOk (serve c d).1 = true

end RawDisk

/-- The byte that a request leaves at position `k` of inode `i`, when it was `b` before. -/
def DataCall.leaves (i k : Nat) (b : Byte) : DataCall → Byte
  | .writeData j off data => if i = j ∧ off ≤ k ∧ k < off + data.length then data.getD (k - off) 0 else b
  | .truncate j size => if i = j ∧ size ≤ k then 0 else b
  | _ => b

/-- An array of bytes for each inode: position `k` holds what the last write over it has stored, and zero when
there is none or a truncation came after it. -/
def lastStored (es : List (DataCall × DataAnswer)) (i k : Nat) : Byte :=
  es.foldl (fun b e => e.1.leaves i k b) 0

theorem lastStored_snoc (es : List (DataCall × DataAnswer)) (e : DataCall × DataAnswer) (i k : Nat) :
    lastStored (es ++ [e]) i k = e.1.leaves i k (lastStored es i k) := by
  simp [lastStored]

namespace RawDisk

variable {d₀ d : RawDisk} {es : List (DataCall × DataAnswer)} {maxFileSize : Nat}

/-- One request does to the regions what it does to the arrays. -/
theorem region_serve {c : DataCall} (hok : c.isOk (serve c d).1 = true) :
    (serve c d).2.maxFileSize = d.maxFileSize ∧ ∀ i k, k < d.maxFileSize →
      (serve c d).2.region i k = c.leaves i k (d.region i k) := by
  cases c with
  | writeData j off data =>
      have hw : (d.writeAt j off data).1.isOk = true := hok
      cases hr : (d.writeAt j off data).1 with
      | error e => rw [hr] at hw; cases hw
      | ok w =>
          have hdone : d.writeAt j off data = (.ok w, (d.writeAt j off data).2) := Prod.ext hr rfl
          obtain ⟨-, -, hm, hregion⟩ := writeAt_ok hdone
          exact ⟨hm, hregion⟩
  | truncate j size =>
      have ht : (d.truncate j size).1.isOk = true := hok
      cases hr : (d.truncate j size).1 with
      | error e => rw [hr] at ht; cases ht
      | ok u =>
          have hdone : d.truncate j size = (.ok u, (d.truncate j size).2) := Prod.ext hr rfl
          obtain ⟨-, hm, hregion⟩ := truncate_ok hdone
          exact ⟨hm, hregion⟩
  | readData j off n => exact ⟨rfl, fun _ _ _ => rfl⟩
  | flush j => exact ⟨rfl, fun _ _ _ => rfl⟩
  | deleteData j => exact ⟨rfl, fun _ _ _ => rfl⟩

/-- The regions of a store are the arrays of its history. -/
theorem region_of_trace (h₀ : openStore maxFileSize = .ok d₀) (h : Trace step answersOk d₀ es d) :
    d.maxFileSize = maxFileSize ∧ ∀ i k, k < maxFileSize → d.region i k = lastStored es i k := by
  have hd₀ : d₀ = ⟨.empty, maxFileSize⟩ := by
    unfold openStore at h₀
    split at h₀ <;> cases h₀
    rfl
  subst hd₀
  refine h.invariant (fun es d => d.maxFileSize = maxFileSize ∧
    ∀ i k, k < maxFileSize → d.region i k = lastStored es i k) ⟨rfl, fun i k _ => rfl⟩ ?_
  rintro es d c ⟨hm, hregion⟩ hok
  obtain ⟨hm', hregion'⟩ := region_serve hok
  refine ⟨hm'.trans hm, fun i k hk => ?_⟩
  rw [lastStored_snoc, ← hregion i k hk]
  exact hregion' i k (hm ▸ hk)

/-- **The store is a family of independent arrays.**  After any run of requests that were answered with `Ok`,
a read returns the last stored bytes, as many as fit before `maxFileSize`; a write stores as many bytes as fit
and leaves every read of every other inode as it was. -/
theorem rawdisk_refines_arrays (h₀ : openStore maxFileSize = .ok d₀) (h : Trace step answersOk d₀ es d) :
    (∀ i off n bytes, d.readAt i off n = .ok bytes →
      bytes = SparseFile.window (lastStored es i) off (min n (maxFileSize - off))) ∧
    ∀ i off data w d', d.writeAt i off data = (.ok w, d') → data.length < 2 ^ 32 →
      w = min data.length (maxFileSize - off) ∧
        ∀ j, j ≠ i → ∀ off' n, d'.readAt j off' n = d.readAt j off' n := by
  obtain ⟨hm, hregion⟩ := region_of_trace h₀ h
  constructor
  · intro i off n bytes hread
    rw [readAt_ok hread, hm]
    exact SparseFile.window_congr fun j hj => hregion i (off + j) (by omega)
  · intro i off data w d' hwrite hlen
    obtain ⟨hoff, hw, hm', hregion'⟩ := writeAt_ok hwrite
    constructor
    · rw [hw, hm, Nat.mod_eq_of_lt]
      unfold U32_SIZE
      omega
    · intro j hj off' n
      refine readAt_congr hm' (fun k hk => ?_) off' n
      rw [hregion' j k hk, if_neg fun h => hj h.1]

/-- Two neighbouring files of eight bytes: a write that is cut off at the end of the first, one at the start of
the second, and a truncation of the first. -/
theorem rawdisk_refines_neighbours :
    ∃ es d, Trace step answersOk ⟨.empty, 8⟩ es d ∧
      es.map Prod.fst = [.writeData 2 5 [1, 2, 3, 4], .writeData 3 0 [9], .truncate 2 6] ∧
      d.readAt 2 4 10 = .ok [0, 1, 0, 0] := by
  have hopen : openStore 8 = .ok ⟨.empty, 8⟩ := rfl
  let d₂ := (step (.writeData 3 0 [9]) (step (.writeData 2 5 [1, 2, 3, 4]) ⟨.empty, 8⟩).2).2
  have h₁ : Trace step answersOk ⟨.empty, 8⟩ _ _ := Trace.snoc (DataCall.writeData 2 5 [1, 2, 3, 4]) .nil rfl
  have h₂ : Trace step answersOk ⟨.empty, 8⟩ _ d₂ := Trace.snoc (DataCall.writeData 3 0 [9]) h₁ rfl
  have hok : (d₂.truncate 2 6).1.isOk = true := by
    rw [(truncate_isOk_iff d₂ 2 6).2 ⟨by decide, by decide⟩]
    rfl
  have h₃ := Trace.snoc (DataCall.truncate 2 6) h₂ hok
  have hm := (region_of_trace hopen h₃).1
  obtain ⟨bytes, hread⟩ := readAt_succeeds (i := 2) (by rw [hm]; decide : 4 < _) (by rw [hm]; decide) 10
  refine ⟨_, _, h₃, rfl, ?_⟩
  rw [hread, (rawdisk_refines_arrays hopen h₃).1 2 4 10 bytes hread]
  rfl

end RawDisk

end RucksFs
