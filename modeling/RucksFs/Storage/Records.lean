import RucksFs.Db
import RucksFs.Storage.DeltaStore

/-!
# Inode records and deltas on disk (`storage/src/encoding.rs`, `server/src/delta.rs`)

The values of the column families `inodes` and `delta_entries` as bytes.  An inode record has 57 bytes, the format's
version first; a delta has a byte for its kind and a number of four or eight bytes.  Both readers ignore what follows.

* `inode_record_codec` — a record of version 1 is read back with all its fields, exactly the strings of at least 57
  bytes that begin with 1 are accepted, and an accepted string is the encoding of what was read.
* `delta_codec` — the same for deltas; `load_inode` and `force_compact_inode` skip what they cannot read, and in every
  run of the store in which the server wrote the deltas they skip nothing.
* `deltas_eq_db` — the deltas that both fold are those of `Db`, where keys and values are decoded.
-/

set_option autoImplicit false

namespace RucksFs

open Bytes

/-- `bytes[i..j]`. -/
def slice (bytes : List Byte) (i j : Nat) : List Byte := (bytes.drop i).take (j - i)

/-! ## Inode records -/

def FORMAT_VERSION : Nat := 1

def SERIALIZED_SIZE : Nat := 57

namespace InodeValue

/-- `from_attr`. -/
def fromAttr (attr : FileAttr) : InodeValue where
  version := FORMAT_VERSION
  inode := attr.inode
  size := attr.size
  mode := attr.mode
  nlink := attr.nlink
  uid := attr.uid
  gid := attr.gid
  atime := attr.atime
  mtime := attr.mtime
  ctime := attr.ctime

/-- The fields have the widths of their types. -/
def Fits (v : InodeValue) : Prop :=
  v.version < 2 ^ 8 ∧ v.inode < 2 ^ 64 ∧ v.size < 2 ^ 64 ∧ v.mode < 2 ^ 32 ∧ v.nlink < 2 ^ 32 ∧ v.uid < 2 ^ 32 ∧
    v.gid < 2 ^ 32 ∧ v.atime < 2 ^ 64 ∧ v.mtime < 2 ^ 64 ∧ v.ctime < 2 ^ 64

instance : DecidablePred Fits := fun _ => instDecidableAnd

def serialize (v : InodeValue) : List Byte :=
  [Fin.ofNat 256 v.version] ++ beBytes 8 v.inode ++ beBytes 8 v.size ++ beBytes 4 v.mode ++ beBytes 4 v.nlink ++
    beBytes 4 v.uid ++ beBytes 4 v.gid ++ beBytes 8 v.atime ++ beBytes 8 v.mtime ++ beBytes 8 v.ctime

def deserialize (data : List Byte) : FsResult InodeValue :=
  if data.length < SERIALIZED_SIZE then
    .error (.invalidInput ("InodeValue: expected " ++ toString SERIALIZED_SIZE ++ " bytes, got " ++
      toString data.length))
  else
    let version := (data.headD 0).val
    if version ≠ FORMAT_VERSION then
      .error (.invalidInput ("InodeValue: unsupported version " ++ toString version))
    else
      .ok {
        version := version
        inode := beValue (slice data 1 9)
        size := beValue (slice data 9 17)
        mode := beValue (slice data 17 21)
        nlink := beValue (slice data 21 25)
        uid := beValue (slice data 25 29)
        gid := beValue (slice data 29 33)
        atime := beValue (slice data 33 41)
        mtime := beValue (slice data 41 49)
        ctime := beValue (slice data 49 57) }

/-- The widths of the fields in bytes. -/
def layout : List Nat := [1, 8, 8, 4, 4, 4, 4, 8, 8, 8]

def fields (v : InodeValue) : List Nat :=
  [v.version, v.inode, v.size, v.mode, v.nlink, v.uid, v.gid, v.atime, v.mtime, v.ctime]

theorem fields_injective : Function.Injective fields := by
  intro v w h
  cases v
  cases w
  simpa [fields] using h

theorem fits_iff (v : InodeValue) : v.Fits ↔ FieldsFit layout v.fields := by
  simp [Fits, layout, fields]

theorem serialize_eq (v : InodeValue) : v.serialize = encodeFields layout v.fields := by
  simp [serialize, layout, fields, encodeFields, beBytes]

theorem length_serialize (v : InodeValue) : v.serialize.length = 57 := by
  simp [serialize]

theorem beValue_take_one (data : List Byte) : beValue (data.take 1) = (data.headD 0).val := by
  cases data with
  | nil => rfl
  | cons b data => simp [beValue]

theorem decodeFields_layout (data : List Byte) : decodeFields layout data =
    [(data.headD 0).val, beValue (slice data 1 9), beValue (slice data 9 17), beValue (slice data 17 21),
      beValue (slice data 21 25), beValue (slice data 25 29), beValue (slice data 29 33), beValue (slice data 33 41),
      beValue (slice data 41 49), beValue (slice data 49 57)] := by
  simp [decodeFields, layout, slice, beValue_take_one]

/-- What is accepted, and what is read. -/
theorem deserialize_eq_ok_iff {data : List Byte} {v : InodeValue} : deserialize data = .ok v ↔
    57 ≤ data.length ∧ v.version = 1 ∧ v.fields = decodeFields layout data := by
  rw [decodeFields_layout]
  unfold deserialize SERIALIZED_SIZE FORMAT_VERSION
  by_cases hlen : data.length < 57
  · rw [if_pos hlen]
    constructor
    · intro h
      cases h
    · rintro ⟨h, -⟩
      omega
  rw [if_neg hlen]
  dsimp only
  by_cases hver : (data.headD 0).val = 1
  · rw [if_neg (not_not.2 hver)]
    constructor
    · intro h
      cases h
      exact ⟨by omega, hver, rfl⟩
    · rintro ⟨-, -, h⟩
      exact congrArg Except.ok (fields_injective h.symm)
  · rw [if_pos hver]
    constructor
    · intro h
      cases h
    · rintro ⟨-, h, hf⟩
      exact absurd ((List.cons.inj hf).1.symm.trans h) hver

theorem deserialize_serialize {v : InodeValue} (hfits : v.Fits) (hver : v.version = 1) (rest : List Byte) :
    deserialize (v.serialize ++ rest) = .ok v := by
  apply deserialize_eq_ok_iff.2
  refine ⟨?_, hver, ?_⟩
  · rw [List.length_append, length_serialize]
    omega
  · rw [serialize_eq, ((fits_iff v).1 hfits).decode_encode]

theorem serialize_of_deserialize {data : List Byte} {v : InodeValue} (h : deserialize data = .ok v) :
    v.Fits ∧ v.serialize = data.take 57 := by
  obtain ⟨hlen, -, hfields⟩ := deserialize_eq_ok_iff.1 h
  constructor
  · rw [fits_iff, hfields]
    exact fieldsFit_decode layout data
  · rw [serialize_eq, hfields]
    exact encode_decodeFields layout hlen

theorem deserialize_succeeds_iff (data : List Byte) :
    (∃ v, deserialize data = .ok v) ↔ 57 ≤ data.length ∧ data.head? = some 1 := by
  constructor
  · rintro ⟨v, h⟩
    obtain ⟨hlen, hver, hfields⟩ := deserialize_eq_ok_iff.1 h
    rw [decodeFields_layout] at hfields
    have hhead : (data.headD 0).val = 1 := (List.cons.inj hfields).1.symm.trans hver
    refine ⟨hlen, ?_⟩
    cases data with
    | nil => cases hhead
    | cons b data => exact congrArg some (Fin.ext hhead)
  · rintro ⟨hlen, hhead⟩
    cases data with
    | nil => cases hhead
    | cons b data =>
        cases hhead
        unfold deserialize SERIALIZED_SIZE
        rw [if_neg (by omega)]
        exact ⟨_, rfl⟩

theorem fromAttr_toAttr {v : InodeValue} (h : v.version = 1) : fromAttr v.toAttr = v := by
  cases v
  cases h
  rfl

/-- The whole record takes part in the encoding. -/
theorem serialize_inj {v w : InodeValue} (hv : v.Fits) (hw : w.Fits) (h : v.serialize = w.serialize) : v = w := by
  apply fields_injective
  have hread := ((fits_iff v).1 hv).decode_encode []
  rw [← serialize_eq, h, serialize_eq, ((fits_iff w).1 hw).decode_encode] at hread
  exact hread.symm

end InodeValue

/-- **Inode records lose nothing.**  A record of version 1 takes 57 bytes and is read back whatever follows it; a string
is accepted exactly if it has 57 bytes and begins with 1, and the record that was read encodes to its first 57 bytes;
attributes and records of version 1 are the same data; and different records have different encodings. -/
theorem inode_record_codec :
    (∀ v : InodeValue, v.Fits → v.version = 1 →
      v.serialize.length = 57 ∧ ∀ rest, InodeValue.deserialize (v.serialize ++ rest) = .ok v) ∧
    (∀ b, (∃ v, InodeValue.deserialize b = .ok v) ↔ 57 ≤ b.length ∧ b.head? = some 1) ∧
    (∀ b v, InodeValue.deserialize b = .ok v → v.Fits ∧ v.version = 1 ∧ v.serialize = b.take 57) ∧
    (∀ v, v.version = 1 → InodeValue.fromAttr v.toAttr = v) ∧
    (∀ a, (InodeValue.fromAttr a).version = 1 ∧ (InodeValue.fromAttr a).toAttr = a) ∧
    ∀ v w : InodeValue, v.Fits → w.Fits → v.serialize = w.serialize → v = w := by
  refine ⟨fun v hfits hver => ?_, InodeValue.deserialize_succeeds_iff, fun b v h => ?_,
    fun v h => InodeValue.fromAttr_toAttr h, fun a => ⟨rfl, rfl⟩, fun v w => InodeValue.serialize_inj⟩
  · exact ⟨v.length_serialize, InodeValue.deserialize_serialize hfits hver⟩
  · obtain ⟨hfits, htake⟩ := InodeValue.serialize_of_deserialize h
    exact ⟨hfits, (InodeValue.deserialize_eq_ok_iff.1 h).2.1, htake⟩

/-- The record of a file, followed by a byte of something else, and one that differs in its size. -/
theorem inode_record_codec_file : ∃ v : InodeValue, v.Fits ∧ v.version = 1 ∧
    InodeValue.deserialize (v.serialize ++ [255]) = .ok v ∧ v.serialize = (v.serialize ++ [255]).take 57 ∧
    v.serialize ≠ { v with size := 301 }.serialize := by
  let v : InodeValue := { version := 1, inode := 2, size := 300, mode := S_IFREG ||| 0o644, nlink := 1, uid := 7,
                          gid := 8, atime := 9, mtime := 10, ctime := 11 }
  have hfits : v.Fits := by decide
  obtain ⟨hwritten, -, hread, -, -, hinj⟩ := inode_record_codec
  have hok := (hwritten v hfits rfl).2 [255]
  exact ⟨v, hfits, rfl, hok, (hread _ v hok).2.2, fun h => absurd (hinj v _ hfits (by decide) h) (by decide)⟩

/-! ## Deltas -/

/-- `i32::to_be_bytes`: two's complement. -/
def i32ToBytes (n : Int) : List Byte := beBytes 4 (n % 2 ^ 32).toNat

/-- `i32::from_be_bytes`. -/
def i32FromBytes (bytes : List Byte) : Int := (beValue bytes : Int).bmod (2 ^ 32)

theorem i32FromBytes_append {n : Int} (hlow : -2 ^ 31 ≤ n) (hhigh : n < 2 ^ 31) (rest : List Byte) :
    i32FromBytes ((i32ToBytes n ++ rest).take 4) = n := by
  unfold i32FromBytes i32ToBytes
  rw [beValue_take_append (by omega), Int.bmod]
  omega

theorem i32ToBytes_take {bytes : List Byte} (h : 4 ≤ bytes.length) :
    i32ToBytes (i32FromBytes (bytes.take 4)) = bytes.take 4 := by
  have hlt : beValue (bytes.take 4) < 256 ^ (bytes.take 4).length := beValue_lt _
  rw [List.length_take_of_le h] at hlt
  have hsame : ((beValue (bytes.take 4) : Int).bmod (2 ^ 32) % 2 ^ 32).toNat = beValue (bytes.take 4) := by
    rw [Int.bmod]
    omega
  unfold i32ToBytes i32FromBytes
  rw [hsame, beBytes_take h]

theorem i32FromBytes_range (bytes : List Byte) : -2 ^ 31 ≤ i32FromBytes bytes ∧ i32FromBytes bytes < 2 ^ 31 := by
  unfold i32FromBytes
  rw [Int.bmod]
  omega

namespace DeltaOp

def OP_INCREMENT_NLINK : Byte := 1

def OP_SET_MTIME : Byte := 2

def OP_SET_CTIME : Byte := 3

def OP_SET_ATIME : Byte := 4

/-- The payload has the width of its type. -/
def Fits : DeltaOp → Prop
  | .incrementNlink n => -2 ^ 31 ≤ n ∧ n < 2 ^ 31
  | .setMtime t | .setCtime t | .setAtime t => t < 2 ^ 64

instance : DecidablePred Fits := fun d => by
  cases d <;> first | exact instDecidableAnd | exact Nat.decLt ..

def serialize : DeltaOp → List Byte
  | .incrementNlink n => OP_INCREMENT_NLINK :: i32ToBytes n
  | .setMtime t => OP_SET_MTIME :: beBytes 8 t
  | .setCtime t => OP_SET_CTIME :: beBytes 8 t
  | .setAtime t => OP_SET_ATIME :: beBytes 8 t

/-- The payload of `Set{M,C,A}time`. -/
def readTime (kind : String) (set : Nat → DeltaOp) (payload : List Byte) : FsResult DeltaOp :=
  if payload.length < 8 then
    .error (.invalidInput ("DeltaOp::" ++ kind ++ ": expected 8 payload bytes, got " ++ toString payload.length))
  else .ok (set (beValue (payload.take 8)))

def deserialize : List Byte → FsResult DeltaOp
  | [] => .error (.invalidInput "DeltaOp: empty data")
  | opType :: payload =>
      if opType = OP_INCREMENT_NLINK then
        if payload.length < 4 then
          .error (.invalidInput ("DeltaOp::IncrementNlink: expected 4 payload bytes, got " ++ toString payload.length))
        else .ok (.incrementNlink (i32FromBytes (payload.take 4)))
      else if opType = OP_SET_MTIME then readTime "SetMtime" .setMtime payload
      else if opType = OP_SET_CTIME then readTime "SetCtime" .setCtime payload
      else if opType = OP_SET_ATIME then readTime "SetAtime" .setAtime payload
      else .error (.invalidInput ("DeltaOp: unknown op_type " ++ toString opType.val))

theorem readTime_append {t : Nat} (h : t < 2 ^ 64) (kind : String) (set : Nat → DeltaOp) (rest : List Byte) :
    readTime kind set (beBytes 8 t ++ rest) = .ok (set t) := by
  unfold readTime
  rw [if_neg (by simp), beValue_take_append h]

theorem readTime_eq_ok_iff {kind : String} {set : Nat → DeltaOp} {payload : List Byte} {d : DeltaOp} :
    readTime kind set payload = .ok d ↔ 8 ≤ payload.length ∧ d = set (beValue (payload.take 8)) := by
  unfold readTime
  split
  · simp
    omega
  · simp [eq_comm]
    omega

/-- What is accepted, and what is read. -/
theorem deserialize_eq_ok_iff {opType : Byte} {payload : List Byte} {d : DeltaOp} :
    deserialize (opType :: payload) = .ok d ↔
      (opType = 1 ∧ 4 ≤ payload.length ∧ d = .incrementNlink (i32FromBytes (payload.take 4))) ∨
      (opType = 2 ∧ 8 ≤ payload.length ∧ d = .setMtime (beValue (payload.take 8))) ∨
      (opType = 3 ∧ 8 ≤ payload.length ∧ d = .setCtime (beValue (payload.take 8))) ∨
      (opType = 4 ∧ 8 ≤ payload.length ∧ d = .setAtime (beValue (payload.take 8))) := by
  unfold deserialize OP_INCREMENT_NLINK OP_SET_MTIME OP_SET_CTIME OP_SET_ATIME
  dsimp only
  by_cases h₁ : opType = 1
  · subst h₁
    rw [if_pos rfl]
    split
    · simp
      omega
    · simp [eq_comm]
      omega
  rw [if_neg h₁]
  by_cases h₂ : opType = 2
  · subst h₂
    simp [readTime_eq_ok_iff]
  rw [if_neg h₂]
  by_cases h₃ : opType = 3
  · subst h₃
    simp [readTime_eq_ok_iff]
  rw [if_neg h₃]
  by_cases h₄ : opType = 4
  · subst h₄
    simp [readTime_eq_ok_iff]
  simp [h₁, h₂, h₃, h₄]

theorem deserialize_serialize {d : DeltaOp} (h : d.Fits) (rest : List Byte) :
    deserialize (d.serialize ++ rest) = .ok d := by
  cases d with
  | incrementNlink n =>
      have hlen : 4 ≤ (i32ToBytes n ++ rest).length := by simp [i32ToBytes]
      have hread := i32FromBytes_append h.1 h.2 rest
      exact deserialize_eq_ok_iff.2 (Or.inl ⟨rfl, hlen, congrArg incrementNlink hread.symm⟩)
  | setMtime t => exact readTime_append h "SetMtime" .setMtime rest
  | setCtime t => exact readTime_append h "SetCtime" .setCtime rest
  | setAtime t => exact readTime_append h "SetAtime" .setAtime rest

example : (DeltaOp.incrementNlink (-2)).serialize = [1, 255, 255, 255, 254] := by decide

/-- **What is accepted is an encoding**, and perhaps more bytes. -/
theorem serialize_of_deserialize {data : List Byte} {d : DeltaOp} (h : deserialize data = .ok d) :
    d.Fits ∧ d.serialize = data.take (if data.head? = some 1 then 5 else 9) := by
  have htime : ∀ {payload : List Byte}, 8 ≤ payload.length → beValue (payload.take 8) < 2 ^ 64 ∧
      beBytes 8 (beValue (payload.take 8)) = payload.take 8 := by
    intro payload hlen
    have hlt := beValue_lt (payload.take 8)
    rw [List.length_take_of_le hlen] at hlt
    exact ⟨hlt, beBytes_take hlen⟩
  cases data with
  | nil => cases h
  | cons opType payload =>
      rcases deserialize_eq_ok_iff.1 h with ⟨rfl, hlen, rfl⟩ | ⟨rfl, hlen, rfl⟩ | ⟨rfl, hlen, rfl⟩ | ⟨rfl, hlen, rfl⟩
      · exact ⟨i32FromBytes_range _, congrArg (1 :: ·) (i32ToBytes_take hlen)⟩
      · exact ⟨(htime hlen).1, congrArg (2 :: ·) (htime hlen).2⟩
      · exact ⟨(htime hlen).1, congrArg (3 :: ·) (htime hlen).2⟩
      · exact ⟨(htime hlen).1, congrArg (4 :: ·) (htime hlen).2⟩

theorem deserialize_succeeds_iff (data : List Byte) : (∃ d, deserialize data = .ok d) ↔
    (∃ payload, data = 1 :: payload ∧ 4 ≤ payload.length) ∨
      ∃ tag payload, data = tag :: payload ∧ (tag = 2 ∨ tag = 3 ∨ tag = 4) ∧ 8 ≤ payload.length := by
  cases data with
  | nil => simp [deserialize]
  | cons opType payload =>
      simp only [deserialize_eq_ok_iff, List.cons.injEq]
      constructor
      · rintro ⟨d, ⟨h, hlen, -⟩ | ⟨h, hlen, -⟩ | ⟨h, hlen, -⟩ | ⟨h, hlen, -⟩⟩
        · exact Or.inl ⟨payload, ⟨h, rfl⟩, hlen⟩
        · exact Or.inr ⟨opType, payload, ⟨rfl, rfl⟩, Or.inl h, hlen⟩
        · exact Or.inr ⟨opType, payload, ⟨rfl, rfl⟩, Or.inr (Or.inl h), hlen⟩
        · exact Or.inr ⟨opType, payload, ⟨rfl, rfl⟩, Or.inr (Or.inr h), hlen⟩
      · rintro (⟨_, ⟨h, rfl⟩, hlen⟩ | ⟨_, _, ⟨rfl, rfl⟩, h | h | h, hlen⟩)
        · exact ⟨_, Or.inl ⟨h, hlen, rfl⟩⟩
        · exact ⟨_, Or.inr (Or.inl ⟨h, hlen, rfl⟩)⟩
        · exact ⟨_, Or.inr (Or.inr (Or.inl ⟨h, hlen, rfl⟩))⟩
        · exact ⟨_, Or.inr (Or.inr (Or.inr ⟨h, hlen, rfl⟩))⟩

end DeltaOp

/-! ## Deltas that the server wrote -/

open RocksDeltaStore

/-- The operations that `load_inode` folds into the base. -/
def loadedOps (rawDeltas : List (List Byte)) : List DeltaOp :=
  rawDeltas.filterMap fun bytes => (DeltaOp.deserialize bytes).toOption

/-- The operations that `force_compact_inode` folds into the base. -/
def compactedOps (kvPairs : List (List Byte × List Byte)) : List DeltaOp :=
  kvPairs.filterMap fun kv => (DeltaOp.deserialize kv.2).toOption

/-- Both read the same values. -/
theorem compactedOps_eq (i : U64) (st : RocksDeltaStore) :
    compactedOps (scanDeltasWithKeys i st) = loadedOps (scanDeltas i st) := by
  unfold loadedOps scanDeltas
  rw [List.filterMap_map]
  rfl

/-- The value of a delta. -/
def IsDelta (value : List Byte) : Prop := ∃ d : DeltaOp, d.Fits ∧ value = d.serialize

theorem loadedOps_serialize {ds : List DeltaOp} (h : ∀ d ∈ ds, d.Fits) :
    loadedOps (ds.map DeltaOp.serialize) = ds := by
  induction ds with
  | nil => rfl
  | cons d ds ih =>
      have hread : DeltaOp.deserialize d.serialize = .ok d := by
        simpa using DeltaOp.deserialize_serialize (h d List.mem_cons_self) []
      have hrest := ih fun d' hd' => h d' (List.mem_cons_of_mem d hd')
      unfold loadedOps at hrest ⊢
      rw [List.map_cons, List.filterMap_cons_some (by rw [hread]; rfl), hrest]

/-- Values of deltas are the encodings of what is read. -/
theorem exists_of_isDelta {values : List (List Byte)} (h : ∀ v ∈ values, IsDelta v) :
    ∃ ds : List DeltaOp, (∀ d ∈ ds, d.Fits) ∧ values = ds.map DeltaOp.serialize := by
  induction values with
  | nil => exact ⟨[], by simp, rfl⟩
  | cons v values ih =>
      obtain ⟨d, hd, rfl⟩ := h v List.mem_cons_self
      obtain ⟨ds, hds, rfl⟩ := ih fun v' hv' => h v' (List.mem_cons_of_mem _ hv')
      refine ⟨d :: ds, ?_, rfl⟩
      simpa using ⟨hd, hds⟩

/-- The values that an operation writes. -/
def DeltaEvent.values : DeltaEvent → List (List Byte)
  | .append _ values => values
  | .putDelta _ value _ => [value]
  | _ => []

/-- The server writes encodings of deltas only. -/
def serverWrites (_ : List (DeltaEvent × List U64)) (_ : RocksDeltaStore) (ev : DeltaEvent) : Prop :=
  ∀ v ∈ ev.values, IsDelta v

/-- Every stored value is that of a delta. -/
def RocksDeltaStore.AllDeltas (st : RocksDeltaStore) : Prop := ∀ key value, st.cf.get key = some value → IsDelta value

namespace RocksDeltaStore.AllDeltas

variable {st : RocksDeltaStore}

theorem put (h : st.AllDeltas) {v : List Byte} (hv : IsDelta v) (key : List Byte) (seqs : U64 → Option U64) :
    AllDeltas ⟨st.cf.put key v, seqs⟩ := by
  intro key' w hw
  rw [OrdMap.get_put] at hw
  split at hw
  · cases hw
    exact hv
  · exact h key' w hw

theorem append (i : U64) (vs : List (List Byte)) : ∀ {st : RocksDeltaStore}, st.AllDeltas → (∀ v ∈ vs, IsDelta v) →
    (appendDeltas i vs st).2.AllDeltas := by
  induction vs with
  | nil => exact fun h _ => h
  | cons v vs ih =>
      intro st h hvs
      rw [appendDeltas_cons]
      apply ih
      · exact h.put (hvs v List.mem_cons_self) _ _
      · exact fun w hw => hvs w (List.mem_cons_of_mem v hw)

theorem deleteKeys (keys : List (List Byte)) : ∀ {st : RocksDeltaStore}, st.AllDeltas →
    (RocksDeltaStore.deleteKeys keys st).AllDeltas := by
  induction keys with
  | nil => exact fun h => h
  | cons key keys ih =>
      intro st h
      have herase : AllDeltas ⟨st.cf.erase key, st.seqs⟩ := by
        intro key' w hw
        rw [OrdMap.get_erase] at hw
        split at hw
        · cases hw
        · exact h key' w hw
      exact ih herase

theorem step (h : st.AllDeltas) (ev : DeltaEvent) (hev : ∀ v ∈ ev.values, IsDelta v) : (ev.step st).2.AllDeltas := by
  cases ev with
  | append i vs => exact append i vs h hev
  | putDelta i v committed =>
      cases committed with
      | false => exact h
      | true => exact h.put (hev v List.mem_cons_self) _ _
  | delete keys => exact deleteKeys keys h
  | clear i => exact deleteKeys ((st.cf.scanPrefix (deltaPrefix i)).map Prod.fst) h
  | restart => exact h

theorem of_trace {es : List (DeltaEvent × List U64)} (h : Trace DeltaEvent.step serverWrites {} es st) :
    st.AllDeltas := by
  refine h.invariant (fun _ st => st.AllDeltas) ?_ ?_
  · intro key v hv
    cases hv
  · exact fun hst hok => hst.step _ hok

/-- Both readers see all values of a scan. -/
theorem scan (h : st.AllDeltas) (i : U64) : ∃ ds : List DeltaOp, (∀ d ∈ ds, d.Fits) ∧
    scanDeltas i st = ds.map DeltaOp.serialize ∧ loadedOps (scanDeltas i st) = ds ∧
    compactedOps (scanDeltasWithKeys i st) = ds := by
  have hall : ∀ v ∈ scanDeltas i st, IsDelta v := by
    intro v hv
    obtain ⟨e, he, rfl⟩ := List.mem_map.1 hv
    rw [OrdMap.scanPrefix_eq_filter] at he
    exact h e.1 e.2 (OrdMap.mem_toList.1 (List.mem_filter.1 he).1)
  obtain ⟨ds, hds, hscan⟩ := exists_of_isDelta hall
  have hloaded : loadedOps (scanDeltas i st) = ds := by rw [hscan, loadedOps_serialize hds]
  exact ⟨ds, hds, hscan, hloaded, (compactedOps_eq i st).trans hloaded⟩

end RocksDeltaStore.AllDeltas

/-- **Deltas lose nothing.**  A delta is read back whatever follows it; a string is accepted exactly if it begins with
the tag 1 and four bytes or one of the tags 2, 3, 4 and eight bytes, and what was read encodes to that part of it.  In
every run in which the server wrote the stored values, `load_inode` and `force_compact_inode` fold all of them. -/
theorem delta_codec :
    (∀ (d : DeltaOp) rest, d.Fits → DeltaOp.deserialize (d.serialize ++ rest) = .ok d) ∧
    (∀ b, (∃ d, DeltaOp.deserialize b = .ok d) ↔ (∃ payload, b = 1 :: payload ∧ 4 ≤ payload.length) ∨
      ∃ tag payload, b = tag :: payload ∧ (tag = 2 ∨ tag = 3 ∨ tag = 4) ∧ 8 ≤ payload.length) ∧
    (∀ b d, DeltaOp.deserialize b = .ok d → d.Fits ∧ d.serialize = b.take (if b.head? = some 1 then 5 else 9)) ∧
    ∀ es st, Trace DeltaEvent.step serverWrites {} es st → ∀ i, ∃ ds : List DeltaOp, (∀ d ∈ ds, d.Fits) ∧
      scanDeltas i st = ds.map DeltaOp.serialize ∧ loadedOps (scanDeltas i st) = ds ∧
      compactedOps (scanDeltasWithKeys i st) = ds := by
  refine ⟨fun d rest h => DeltaOp.deserialize_serialize h rest, DeltaOp.deserialize_succeeds_iff,
    fun b d => DeltaOp.serialize_of_deserialize, fun es st h i => ?_⟩
  exact (RocksDeltaStore.AllDeltas.of_trace h).scan i

/-- A link taken away, followed by a byte of something else; the deltas of an `rmdir`, scanned after a restart. -/
theorem delta_codec_scanned : ∃ es st ds, Trace DeltaEvent.step serverWrites {} es st ∧
    DeltaOp.deserialize ((DeltaOp.incrementNlink (-1)).serialize ++ [255]) = .ok (.incrementNlink (-1)) ∧
    ds = [.incrementNlink (-1), .setMtime 300] ∧ scanDeltas 1 st = ds.map DeltaOp.serialize ∧
    loadedOps (scanDeltas 1 st) = ds ∧ compactedOps (scanDeltasWithKeys 1 st) = ds := by
  have hdeltas : serverWrites [] {} (.append 1 [(DeltaOp.incrementNlink (-1)).serialize, (DeltaOp.setMtime 300).serialize]) := by
    intro v hv
    simp only [DeltaEvent.values, List.mem_cons, List.not_mem_nil, or_false] at hv
    rcases hv with rfl | rfl
    · exact ⟨_, by decide, rfl⟩
    · exact ⟨_, by decide, rfl⟩
  have htrace : Trace DeltaEvent.step serverWrites {} _ _ :=
    .snoc .restart (.snoc _ .nil hdeltas) fun v hv => absurd hv List.not_mem_nil
  obtain ⟨hwritten, -, -, hscan⟩ := delta_codec
  obtain ⟨ds, -, hbytes, hloaded, hcompacted⟩ := hscan _ _ htrace 1
  exact ⟨_, _, ds, htrace, hwritten _ _ (by decide), hloaded.symm.trans (by decide +kernel), hbytes, hloaded, hcompacted⟩

/-! ## The decoded database -/

def decodedDeltaKey (k : U64 ×ₗ U64) : DeltaKey := toLex ((ofLex k).1.val, (ofLex k).2.val)

theorem strictMono_decodedDeltaKey : StrictMono decodedDeltaKey := by
  intro k k' hlt
  rw [decodedDeltaKey, decodedDeltaKey, Prod.Lex.toLex_lt_toLex]
  rcases Prod.Lex.lt_iff.1 hlt with h | ⟨h, h'⟩
  · exact Or.inl h
  · exact Or.inr ⟨congrArg Fin.val h, h'⟩

/-- A store and a database that hold the deltas `m`. -/
structure SameDeltas (m : OrdMap (U64 ×ₗ U64) DeltaOp) (st : RocksDeltaStore) (db : Db) : Prop where
  fits : ∀ k d, m.get k = some d → d.Fits
  bytes : st.cf = m.image deltaKey strictMono_deltaKey DeltaOp.serialize
  decoded : db.deltaEntries = m.image decodedDeltaKey strictMono_decodedDeltaKey id

/-- **Both readers fold the deltas of `Db`.** -/
theorem deltas_eq_db {m : OrdMap (U64 ×ₗ U64) DeltaOp} {st : RocksDeltaStore} {db : Db} (h : SameDeltas m st db)
    (i : U64) : loadedOps (scanDeltas i st) = db.deltas i.val ∧
      compactedOps (scanDeltasWithKeys i st) = db.deltas i.val := by
  have hscan : scanDeltasWithKeys i st = (m.slice i).toList.map fun e => (encodeDeltaKey i e.1, e.2.serialize) := by
    unfold scanDeltasWithKeys
    rw [h.bytes]
    exact m.scanPrefix_image (deltaPrefix_iff i)
  have hvalues : scanDeltas i st = ((m.slice i).toList.map Prod.snd).map DeltaOp.serialize := by
    show (scanDeltasWithKeys i st).map Prod.snd = _
    rw [hscan, List.map_map, List.map_map]
    rfl
  have hdeltas : db.deltas i.val = (m.slice i).toList.map Prod.snd := by
    have hslice : (db.deltaEntries.slice i.val).toList = (m.slice i).toList.map fun e => (e.1.val, id e.2) := by
      rw [h.decoded]
      exact m.slice_image Fin.val Fin.val Fin.val_injective (fun _ => rfl) i
    unfold Db.deltas Db.scanDeltas
    rw [hslice, List.map_map]
    rfl
  have hfits : ∀ d ∈ (m.slice i).toList.map Prod.snd, d.Fits := by
    intro d hd
    obtain ⟨⟨q, d'⟩, he, rfl⟩ := List.mem_map.1 hd
    have hget := OrdMap.mem_toList.1 he
    rw [OrdMap.get_slice] at hget
    exact h.fits _ _ hget
  have hloaded : loadedOps (scanDeltas i st) = db.deltas i.val := by
    rw [hvalues, loadedOps_serialize hfits, hdeltas]
  exact ⟨hloaded, (compactedOps_eq i st).trans hloaded⟩

end RucksFs
