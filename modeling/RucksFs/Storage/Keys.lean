import RucksFs.Core
import RucksFs.Lib.Bytes
import RucksFs.Lib.PrefixScan
import RucksFs.Lib.Utf8

/-!
# Keys and values on disk (`storage/src/encoding.rs`)

Keys of the column families `dir_entries` and `delta_entries`, and the value of a directory entry, as bytes.  Numbers
have the width that the code gives them; a `&str` carries the proof that it is UTF-8.

* `encodeDirEntryKey`, `encodeDeltaKey` — a byte for the kind of key, a number of eight bytes, then a name or a second
  number.  Both are strictly increasing (`strictMono_dirKey`, `strictMono_deltaKey`), so that a column family is an
  `OrdMap.image`.
* `dirEntryPrefix_iff`, `deltaPrefix_iff` — the string of a scan marks the first number.
* `decodeDirValue_encode`, `extractChildName_encode`, `decodeDeltaKey_encode` — what is written is read back.
-/

set_option autoImplicit false

namespace RucksFs

open Bytes

abbrev U32 := Fin (2 ^ 32)

abbrev U64 := Fin (2 ^ 64)

instance neZero_u32 : NeZero (2 ^ 32) := ⟨by decide⟩

instance neZero_u64 : NeZero (2 ^ 64) := ⟨by decide⟩

/-- `&str`. -/
abbrev Str := { s : List Byte // Utf8.valid s = true }

def beBytes64 (n : U64) : List Byte := beBytes 8 n.val

def beBytes32 (n : U32) : List Byte := beBytes 4 n.val

/-- `u64::from_be_bytes`. -/
def fromBe64 (bytes : List Byte) : U64 := Fin.ofNat (2 ^ 64) (beValue bytes)

def fromBe32 (bytes : List Byte) : U32 := Fin.ofNat (2 ^ 32) (beValue bytes)

@[simp] theorem length_beBytes64 (n : U64) : (beBytes64 n).length = 8 := length_beBytes 8 n.val

@[simp] theorem length_beBytes32 (n : U32) : (beBytes32 n).length = 4 := length_beBytes 4 n.val

@[simp] theorem fromBe64_beBytes64 (n : U64) : fromBe64 (beBytes64 n) = n := by
  apply Fin.ext
  show beValue (beBytes 8 n.val) % 2 ^ 64 = n.val
  rw [beValue_of_lt n.isLt, Nat.mod_eq_of_lt n.isLt]

@[simp] theorem fromBe32_beBytes32 (n : U32) : fromBe32 (beBytes32 n) = n := by
  apply Fin.ext
  show beValue (beBytes 4 n.val) % 2 ^ 32 = n.val
  rw [beValue_of_lt n.isLt, Nat.mod_eq_of_lt n.isLt]

theorem beBytes64_lt_iff (m n : U64) : beBytes64 m < beBytes64 n ↔ m < n :=
  beBytes_lt_iff (w := 8) m.isLt n.isLt

theorem beBytes64_inj {m n : U64} (h : beBytes64 m = beBytes64 n) : m = n := by
  rw [← fromBe64_beBytes64 m, h, fromBe64_beBytes64]

/-! ## Directory entries -/

/-- `b'D'`. -/
def DIR_ENTRY_KEY_PREFIX : Byte := 68

def encodeDirEntryKey (parent : U64) (name : Str) : List Byte :=
  DIR_ENTRY_KEY_PREFIX :: (beBytes64 parent ++ name.val)

def dirEntryPrefix (parent : U64) : List Byte := DIR_ENTRY_KEY_PREFIX :: beBytes64 parent

def extractChildName (key : List Byte) : FsResult Str :=
  if key.length < 9 ∨ key.head? ≠ some DIR_ENTRY_KEY_PREFIX then .error (.invalidInput "invalid dir entry key")
  else if h : Utf8.valid (key.drop 9) = true then .ok ⟨key.drop 9, h⟩
  else .error (.invalidInput ("invalid UTF-8 in dir key: " ++ Utf8.errorText (key.drop 9)))

/-- `encode_dir_value`. -/
def encodeDirValue (inode : U64) (mode : U32) : List Byte := beBytes64 inode ++ beBytes32 mode

def decodeDirValue (data : List Byte) : FsResult (U64 × U32) :=
  if data.length < 12 then .error (.invalidInput ("dir entry value too short: " ++ toString data.length ++ " bytes"))
  else .ok (fromBe64 (data.take 8), fromBe32 ((data.drop 8).take 4))

theorem decodeDirValue_encode (inode : U64) (mode : U32) :
    decodeDirValue (encodeDirValue inode mode) = .ok (inode, mode) := by
  have hlen : (encodeDirValue inode mode).length = 12 := by simp [encodeDirValue]
  have htake : (encodeDirValue inode mode).take 8 = beBytes64 inode := List.take_left' (length_beBytes64 inode)
  have hdrop : (encodeDirValue inode mode).drop 8 = beBytes32 mode := List.drop_left' (length_beBytes64 inode)
  unfold decodeDirValue
  rw [if_neg (by omega), htake, hdrop, List.take_of_length_le (length_beBytes32 mode).le, fromBe64_beBytes64,
    fromBe32_beBytes32]

theorem drop_encodeDirEntryKey (parent : U64) (name : Str) : (encodeDirEntryKey parent name).drop 9 = name.val := by
  unfold encodeDirEntryKey
  rw [List.drop_succ_cons, List.drop_left' (length_beBytes64 parent)]

theorem extractChildName_encode (parent : U64) (name : Str) :
    extractChildName (encodeDirEntryKey parent name) = .ok name := by
  have hvalid : Utf8.valid ((encodeDirEntryKey parent name).drop 9) = true := by
    rw [drop_encodeDirEntryKey]
    exact name.property
  unfold extractChildName
  rw [if_neg (by simp [encodeDirEntryKey]), dif_pos hvalid]
  exact congrArg Except.ok (Subtype.ext (drop_encodeDirEntryKey parent name))

/-- The key of a pair. -/
def dirKey (k : U64 ×ₗ Str) : List Byte := encodeDirEntryKey (ofLex k).1 (ofLex k).2

/-- Byte order is the order of parents, then of names. -/
theorem strictMono_dirKey : StrictMono dirKey := by
  intro k k' hlt
  unfold dirKey encodeDirEntryKey
  rw [List.cons_lt_cons_iff, append_lt_append_iff (by simp), beBytes64_lt_iff]
  rcases Prod.Lex.lt_iff.1 hlt with h | ⟨h, h'⟩
  · exact Or.inr ⟨rfl, Or.inl h⟩
  · exact Or.inr ⟨rfl, Or.inr ⟨congrArg beBytes64 h, h'⟩⟩

/-- A string of nine bytes in front of a key is its first nine bytes. -/
theorem isPrefix_iff_of_length {s a b : List Byte} (h : s.length = a.length) : s <+: a ++ b ↔ s = a := by
  constructor
  · intro hp
    exact (List.prefix_of_prefix_length_le hp (List.prefix_append a b) h.le).eq_of_length h
  · rintro rfl
    exact List.prefix_append s b

/-- The string of a scan marks the parent. -/
theorem dirEntryPrefix_iff (parent : U64) (k : U64 ×ₗ Str) : dirEntryPrefix parent <+: dirKey k ↔ (ofLex k).1 = parent := by
  unfold dirEntryPrefix dirKey encodeDirEntryKey
  rw [List.cons_prefix_cons, isPrefix_iff_of_length (by simp)]
  constructor
  · rintro ⟨-, h⟩
    exact (beBytes64_inj h).symm
  · rintro rfl
    exact ⟨rfl, rfl⟩

/-! ## Deltas -/

/-- `b'X'`. -/
def DELTA_KEY_PREFIX : Byte := 88

def encodeDeltaKey (inode seq : U64) : List Byte := DELTA_KEY_PREFIX :: (beBytes64 inode ++ beBytes64 seq)

def decodeDeltaKey (key : List Byte) : FsResult (U64 × U64) :=
  if key.length < 17 ∨ key.head? ≠ some DELTA_KEY_PREFIX then .error (.invalidInput "invalid delta key")
  else .ok (fromBe64 ((key.drop 1).take 8), fromBe64 ((key.drop 9).take 8))

def deltaPrefix (inode : U64) : List Byte := DELTA_KEY_PREFIX :: beBytes64 inode

theorem length_encodeDeltaKey (inode seq : U64) : (encodeDeltaKey inode seq).length = 17 := by
  simp [encodeDeltaKey]

theorem decodeDeltaKey_encode (inode seq : U64) : decodeDeltaKey (encodeDeltaKey inode seq) = .ok (inode, seq) := by
  have hfirst : ((encodeDeltaKey inode seq).drop 1).take 8 = beBytes64 inode := List.take_left' (length_beBytes64 inode)
  have hsecond : (encodeDeltaKey inode seq).drop 9 = beBytes64 seq := List.drop_left' (length_beBytes64 inode)
  unfold decodeDeltaKey
  rw [if_neg (by simp [encodeDeltaKey]), hfirst, hsecond, List.take_of_length_le (length_beBytes64 seq).le,
    fromBe64_beBytes64, fromBe64_beBytes64]

def deltaKey (k : U64 ×ₗ U64) : List Byte := encodeDeltaKey (ofLex k).1 (ofLex k).2

/-- Byte order is the order of inodes, then of sequence numbers. -/
theorem strictMono_deltaKey : StrictMono deltaKey := by
  intro k k' hlt
  unfold deltaKey encodeDeltaKey
  rw [List.cons_lt_cons_iff, append_lt_append_iff (by simp), beBytes64_lt_iff, beBytes64_lt_iff]
  rcases Prod.Lex.lt_iff.1 hlt with h | ⟨h, h'⟩
  · exact Or.inr ⟨rfl, Or.inl h⟩
  · exact Or.inr ⟨rfl, Or.inr ⟨congrArg beBytes64 h, h'⟩⟩

/-- The string of a scan marks the inode. -/
theorem deltaPrefix_iff (inode : U64) (k : U64 ×ₗ U64) : deltaPrefix inode <+: deltaKey k ↔ (ofLex k).1 = inode := by
  unfold deltaPrefix deltaKey encodeDeltaKey
  rw [List.cons_prefix_cons, isPrefix_iff_of_length (by simp)]
  constructor
  · rintro ⟨-, h⟩
    exact (beBytes64_inj h).symm
  · rintro rfl
    exact ⟨rfl, rfl⟩

end RucksFs
