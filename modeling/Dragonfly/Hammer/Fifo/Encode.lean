import Dragonfly.Hammer.Fifo.Generate

/-!
# Records as they lie on the media

`Laid` says that a record lies at some place inside one aligned block such that
both scanners read it.  It depends on the bytes of the record only, and each kind
of record the code lays down satisfies it.
-/

namespace Dragonfly.Hammer.Fifo

open Dragonfly.Lib

/-- A record has room for the media structure of its type. -/
def Record.Wide (record : Record) : Prop :=
  match record.body with
  | .undo .. => 40 ≤ record.size
  | .redo .. => 64 ≤ record.size
  | _ => True

/-- The record lies at `place`, inside one aligned block. -/
structure Laid (crc32 : List UInt8 → UInt32) (mem : Mem) (place : Nat) (this : Record) : Prop where
  block : place % undoAlign + this.size ≤ undoAlign
  wide : this.Wide
  decoded : record mem place = this
  checked : checkSignature crc32 mem place (place + this.size - 8) = 0

section Check

variable {crc32 : List UInt8 → UInt32} {mem : Mem} {place : Nat}

/-- A check in front of others. -/
theorem check_eq_zero_iff {fails : Prop} [Decidable fails] {code rest : Nat} (nonzero : code ≠ 0) :
    (if fails then code else rest) = 0 ↔ ¬fails ∧ rest = 0 := by
  by_cases holds : fails
  · rw [if_pos holds]
    exact ⟨fun zero => absurd zero nonzero, fun both => absurd holds both.1⟩
  · rw [if_neg holds]
    exact ⟨fun zero => ⟨holds, zero⟩, fun both => both.2⟩

/-- A record that passes `_hammer_check_signature`. -/
theorem checkSignature_eq_zero_iff {tail : Nat} :
    checkSignature crc32 mem place tail = 0 ↔
      hdrSignature mem place = headSignature ∧ 8 ≤ hdrSize mem place ∧ hdrSize mem place % 8 = 0 ∧
      ((hdrType mem place = typePad ∧ hdrSize mem place = 8) ∨
        (hdrType mem tail = hdrType mem place ∧ hdrSize mem tail = hdrSize mem place ∧
          hdrSignature mem tail = tailSignature)) ∧
      (hdrType mem place = typePad ∨
        (hdrCrc mem place = recordCrc crc32 mem place (hdrSize mem place) ∧
          24 ≤ hdrSize mem place)) ∧
      hdrSize mem (place + hdrSize mem place - 8) = hdrSize mem place ∧
      hdrType mem (place + hdrSize mem place - 8) = hdrType mem place := by
  unfold checkSignature
  dsimp only
  iterate 9 rw [check_eq_zero_iff (by decide)]
  grind

theorem record_size (mem : Mem) (place : Nat) : (record mem place).size = hdrSize mem place := by
  unfold record
  dsimp only
  split <;> rfl

theorem record_pad_iff (mem : Mem) (place : Nat) :
    (record mem place).body = .pad ↔ hdrType mem place = typePad := by
  unfold record
  dsimp only
  split_ifs <;> simp_all

theorem record_of_pad (type : hdrType mem place = typePad) :
    record mem place = { size := hdrSize mem place, seq := 0, body := .pad } := by
  simp [record, type]

theorem record_of_dummy (type : hdrType mem place = typeDummy) :
    record mem place =
      { size := hdrSize mem place, seq := hdrSeq mem place, body := .dummy } := by
  simp [record, type, typeDummy, typePad]

theorem record_of_undo (type : hdrType mem place = typeUndo) :
    record mem place =
      { size := hdrSize mem place, seq := hdrSeq mem place
        body := .undo (undoOffset mem place) (undoDataBytes mem place)
          (mem.slice (place + 32) (hdrSize mem place - 40)) } := by
  simp [record, type, typeUndo, typeDummy, typePad]

theorem record_of_redo (type : hdrType mem place = typeRedo) :
    record mem place =
      { size := hdrSize mem place, seq := hdrSeq mem place
        body := .redo (redoObjid mem place) (redoOffset mem place) (redoDataBytes mem place)
          (redoFlags mem place) (redoLocalization mem place) (redoMtime mem place)
          (mem.slice (place + 56) (hdrSize mem place - 64)) } := by
  simp [record, type, typeRedo, typeUndo, typeDummy, typePad]

end Check

namespace Laid

variable {crc32 : List UInt8 → UInt32} {mem other : Mem} {place : Nat} {this : Record}

theorem hdrSize_eq (laid : Laid crc32 mem place this) : hdrSize mem place = this.size := by
  rw [← laid.decoded, record_size]

theorem size_bounds (laid : Laid crc32 mem place this) : 8 ≤ this.size ∧ this.size % 8 = 0 := by
  obtain ⟨_, lower, aligned, _⟩ := (checkSignature_eq_zero_iff).mp laid.checked
  rw [laid.hdrSize_eq] at lower aligned
  exact ⟨lower, aligned⟩

theorem size_of_noPad (laid : Laid crc32 mem place this) (noPad : this.body ≠ .pad) :
    24 ≤ this.size := by
  obtain ⟨_, _, _, _, large, _⟩ := (checkSignature_eq_zero_iff).mp laid.checked
  rw [laid.hdrSize_eq] at large
  rcases large with pad | ⟨_, large⟩
  · rw [← laid.decoded] at noPad
    exact absurd ((record_pad_iff mem place).mpr pad) noPad
  · exact large

theorem undo_wide {offset : Nat} {dataBytes : Int} {data : List UInt8}
    (laid : Laid crc32 mem place this) (body : this.body = .undo offset dataBytes data) :
    40 ≤ this.size := by
  have wide := laid.wide
  rwa [Record.Wide, body] at wide

theorem redo_wide {objid offset flags localization mtime : Nat} {dataBytes : Int}
    {data : List UInt8} (laid : Laid crc32 mem place this)
    (body : this.body = .redo objid offset dataBytes flags localization mtime data) :
    64 ≤ this.size := by
  have wide := laid.wide
  rwa [Record.Wide, body] at wide

/-- The fields of a record agree where its bytes do. -/
theorem record_congr (laid : Laid crc32 mem place this)
    (agree : Mem.AgreeOn other mem place (place + this.size)) :
    record other place = record mem place := by
  obtain ⟨lower, _⟩ := laid.size_bounds
  have type : hdrType other place = hdrType mem place :=
    Mem.peek_congr (agree.mono (by omega) (by omega))
  have size : hdrSize other place = hdrSize mem place :=
    Mem.peek_congr (agree.mono (by omega) (by omega))
  have decoded := laid.decoded
  have sizeEq := laid.hdrSize_eq
  by_cases pad : hdrType mem place = typePad
  · rw [record_of_pad pad, record_of_pad (type.trans pad), size]
  have large := laid.size_of_noPad (by rwa [← decoded, ne_eq, record_pad_iff])
  have seq : hdrSeq other place = hdrSeq mem place :=
    Mem.peek_congr (agree.mono (by omega) (by omega))
  by_cases dummy : hdrType mem place = typeDummy
  · rw [record_of_dummy dummy, record_of_dummy (type.trans dummy), size, seq]
  by_cases undo : hdrType mem place = typeUndo
  · have wide : 40 ≤ this.size := by
      rw [record_of_undo undo] at decoded
      exact laid.undo_wide (congrArg Record.body decoded).symm
    have offset : undoOffset other place = undoOffset mem place :=
      Mem.peek_congr (agree.mono (by omega) (by omega))
    have dataBytes : undoDataBytes other place = undoDataBytes mem place := by
      have raw : other.peek (place + 24) 4 = mem.peek (place + 24) 4 :=
        Mem.peek_congr (agree.mono (by omega) (by omega))
      simp only [undoDataBytes, raw]
    have data : other.slice (place + 32) (hdrSize mem place - 40) =
        mem.slice (place + 32) (hdrSize mem place - 40) :=
      Mem.slice_congr (agree.mono (by omega) (by omega))
    rw [record_of_undo undo, record_of_undo (type.trans undo), size, seq, offset, dataBytes, data]
  by_cases redo : hdrType mem place = typeRedo
  · have wide : 64 ≤ this.size := by
      rw [record_of_redo redo] at decoded
      exact laid.redo_wide (congrArg Record.body decoded).symm
    have objid : redoObjid other place = redoObjid mem place :=
      Mem.peek_congr (agree.mono (by omega) (by omega))
    have offset : redoOffset other place = redoOffset mem place :=
      Mem.peek_congr (agree.mono (by omega) (by omega))
    have dataBytes : redoDataBytes other place = redoDataBytes mem place := by
      have raw : other.peek (place + 32) 4 = mem.peek (place + 32) 4 :=
        Mem.peek_congr (agree.mono (by omega) (by omega))
      simp only [redoDataBytes, raw]
    have flags : redoFlags other place = redoFlags mem place :=
      Mem.peek_congr (agree.mono (by omega) (by omega))
    have localization : redoLocalization other place = redoLocalization mem place :=
      Mem.peek_congr (agree.mono (by omega) (by omega))
    have mtime : redoMtime other place = redoMtime mem place :=
      Mem.peek_congr (agree.mono (by omega) (by omega))
    have data : other.slice (place + 56) (hdrSize mem place - 64) =
        mem.slice (place + 56) (hdrSize mem place - 64) :=
      Mem.slice_congr (agree.mono (by omega) (by omega))
    rw [record_of_redo redo, record_of_redo (type.trans redo), size, seq, objid, offset, dataBytes,
      flags, localization, mtime, data]
  · simp only [record, type, size, seq, if_neg pad, if_neg dummy, if_neg undo, if_neg redo]

/-- Whether a record is laid down depends on its bytes only. -/
theorem congr (laid : Laid crc32 mem place this)
    (agree : Mem.AgreeOn other mem place (place + this.size)) : Laid crc32 other place this := by
  obtain ⟨lower, aligned⟩ := laid.size_bounds
  have sizeEq := laid.hdrSize_eq
  have decoded := (laid.record_congr agree).trans laid.decoded
  have signature : hdrSignature other place = hdrSignature mem place :=
    Mem.peek_congr (agree.mono (by omega) (by omega))
  have type : hdrType other place = hdrType mem place :=
    Mem.peek_congr (agree.mono (by omega) (by omega))
  have size : hdrSize other place = hdrSize mem place :=
    Mem.peek_congr (agree.mono (by omega) (by omega))
  have tailSignature : hdrSignature other (place + this.size - 8) =
      hdrSignature mem (place + this.size - 8) :=
    Mem.peek_congr (agree.mono (by omega) (by omega))
  have tailType : hdrType other (place + this.size - 8) = hdrType mem (place + this.size - 8) :=
    Mem.peek_congr (agree.mono (by omega) (by omega))
  have tailSize : hdrSize other (place + this.size - 8) = hdrSize mem (place + this.size - 8) :=
    Mem.peek_congr (agree.mono (by omega) (by omega))
  refine ⟨laid.block, laid.wide, decoded, ?_⟩
  have checked := (checkSignature_eq_zero_iff).mp laid.checked
  rw [sizeEq] at checked
  rw [checkSignature_eq_zero_iff, size, sizeEq, signature, type, tailSignature, tailType, tailSize]
  refine ⟨checked.1, checked.2.1, checked.2.2.1, checked.2.2.2.1, ?_, checked.2.2.2.2.2⟩
  rcases checked.2.2.2.2.1 with pad | ⟨crc, large⟩
  · exact .inl pad
  · have sum : hdrCrc other place = hdrCrc mem place :=
      Mem.peek_congr (agree.mono (by omega) (by omega))
    have head : other.slice place 12 = mem.slice place 12 :=
      Mem.slice_congr (agree.mono (by omega) (by omega))
    have rest : other.slice (place + 16) (this.size - 16) =
        mem.slice (place + 16) (this.size - 16) :=
      Mem.slice_congr (agree.mono (by omega) (by omega))
    refine .inr ⟨?_, large⟩
    unfold recordCrc at crc ⊢
    rw [sum, crc, head, rest]

/-- The forward scanner reads a laid record. -/
theorem scanFwd (laid : Laid crc32 mem place this) {allocOffset : Nat}
    (inside : place ≠ allocOffset) :
    Fifo.scanFwd crc32 mem allocOffset place =
      .ok (this, if place + this.size = allocOffset then undoBase else place + this.size) := by
  obtain ⟨lower, _⟩ := laid.size_bounds
  have block := laid.block
  have sizeEq := laid.hdrSize_eq
  have checked : checkHeadSignature crc32 mem place = 0 := by
    unfold checkHeadSignature
    dsimp only
    simp only [undoAlign] at block
    rw [sizeEq, if_neg (by simp only [bufsize]; omega), if_neg (by simp only [bufsize]; omega)]
    exact laid.checked
  unfold Fifo.scanFwd
  dsimp only
  rw [if_neg inside, if_neg (by simp [checked]), laid.decoded, sizeEq]

/-- The reverse scanner reads a laid record. -/
theorem scanRev (laid : Laid crc32 mem place this) {allocOffset scanOffset : Nat}
    (inside : undoBase ≤ place)
    (reached : (if scanOffset = undoBase then allocOffset else scanOffset) = place + this.size) :
    Fifo.scanRev crc32 mem allocOffset scanOffset = .ok (this, place) := by
  obtain ⟨lower, _⟩ := laid.size_bounds
  have block := laid.block
  have sizeEq := laid.hdrSize_eq
  have checkedAll := (checkSignature_eq_zero_iff).mp laid.checked
  have tailSize : hdrSize mem (place + this.size - 8) = this.size := by
    have same := checkedAll.2.2.2.2.2.1
    rwa [sizeEq] at same
  have begins : place + this.size - this.size = place := Nat.add_sub_cancel _ _
  have checked : checkTailSignature crc32 mem (place + this.size) = 0 := by
    unfold checkTailSignature
    dsimp only
    simp only [undoAlign] at block
    rw [tailSize, begins, if_neg (by simp only [bufsize]; omega),
      if_neg (by simp only [bufsize]; omega)]
    exact laid.checked
  unfold Fifo.scanRev
  dsimp only
  rw [reached, if_neg (by omega), if_neg (by simp [checked]), tailSize, begins, laid.decoded,
    sizeEq, begins]

end Laid

/-! ## Head, tail and checksum -/

section Put

variable {crc32 : List UInt8 → UInt32} {mem : Mem} {place type bytes seqno lo hi : Nat}

theorem putHead_agree (apart : hi ≤ place ∨ place + 16 ≤ lo) :
    Mem.AgreeOn (putHead mem place type bytes seqno) mem lo hi := by
  unfold putHead
  refine (Mem.poke_agree (by omega)).trans <| (Mem.poke_agree (by omega)).trans <|
    (Mem.poke_agree (by omega)).trans <| (Mem.poke_agree (by omega)).trans <|
    Mem.poke_agree (by omega)

theorem putTail_agree (apart : hi ≤ place + bytes - 8 ∨ place + bytes - 8 + 8 ≤ lo) :
    Mem.AgreeOn (putTail mem place type bytes) mem lo hi := by
  unfold putTail
  refine (Mem.poke_agree (by omega)).trans <| (Mem.poke_agree (by omega)).trans <|
    Mem.poke_agree (by omega)

theorem putCrc_agree (apart : hi ≤ place + 12 ∨ place + 16 ≤ lo) :
    Mem.AgreeOn (putCrc crc32 mem place bytes) mem lo hi :=
  Mem.poke_agree (by omega)

theorem putHead_fields (small : bytes < 4294967296) (smallType : type < 65536) :
    hdrSignature (putHead mem place type bytes seqno) place = headSignature ∧
      hdrType (putHead mem place type bytes seqno) place = type ∧
      hdrSize (putHead mem place type bytes seqno) place = bytes ∧
      hdrSeq (putHead mem place type bytes seqno) place = seqno % 4294967296 := by
  unfold putHead hdrSignature hdrType hdrSize hdrSeq
  refine ⟨?_, ?_, ?_, ?_⟩
  · simp (disch := omega) only [Mem.peek_poke_of_apart, Mem.peek_poke_same]
    rfl
  · simp (disch := omega) only [Mem.peek_poke_of_apart, Mem.peek_poke_same]
    omega
  · simp (disch := omega) only [Mem.peek_poke_of_apart, Mem.peek_poke_same]
    omega
  · simp (disch := omega) only [Mem.peek_poke_of_apart, Mem.peek_poke_same]
    rfl

theorem putTail_fields (small : bytes < 4294967296) (smallType : type < 65536) :
    hdrSignature (putTail mem place type bytes) (place + bytes - 8) = tailSignature ∧
      hdrType (putTail mem place type bytes) (place + bytes - 8) = type ∧
      hdrSize (putTail mem place type bytes) (place + bytes - 8) = bytes := by
  unfold putTail hdrSignature hdrType hdrSize
  refine ⟨?_, ?_, ?_⟩
  · simp (disch := omega) only [Mem.peek_poke_of_apart, Mem.peek_poke_same]
    rfl
  · simp (disch := omega) only [Mem.peek_poke_of_apart, Mem.peek_poke_same]
    omega
  · simp only [Mem.peek_poke_same]
    omega

/-- The checksum stored is the one the scanners compute. -/
theorem putCrc_crc : hdrCrc (putCrc crc32 mem place bytes) place =
    recordCrc crc32 (putCrc crc32 mem place bytes) place bytes := by
  have head : (putCrc crc32 mem place bytes).slice place 12 = mem.slice place 12 :=
    Mem.slice_congr (putCrc_agree (by omega))
  have rest : (putCrc crc32 mem place bytes).slice (place + 16) (bytes - 16) =
      mem.slice (place + 16) (bytes - 16) :=
    Mem.slice_congr (putCrc_agree (by omega))
  have stored : hdrCrc (putCrc crc32 mem place bytes) place = recordCrc crc32 mem place bytes := by
    unfold hdrCrc putCrc
    rw [Mem.peek_poke_same]
    exact Nat.mod_eq_of_lt (UInt32.toNat_lt _)
  rw [stored]
  unfold recordCrc
  rw [head, rest]

/-- A record whose head and body are written, completed with tail and checksum. -/
def complete (crc32 : List UInt8 → UInt32) (mem : Mem) (place type bytes : Nat) : Mem :=
  putCrc crc32 (putTail mem place type bytes) place bytes

/-- The body of the record survives its completion. -/
theorem complete_agree (apart : hi ≤ place + 12 ∨
      (place + 16 ≤ lo ∧ (hi ≤ place + bytes - 8 ∨ place + bytes - 8 + 8 ≤ lo)))
    (large : 24 ≤ bytes) :
    Mem.AgreeOn (complete crc32 mem place type bytes) mem lo hi :=
  (putCrc_agree (by omega)).trans (putTail_agree (by omega))

/-- A completed record passes the signature check. -/
theorem complete_checked (signature : hdrSignature mem place = headSignature)
    (typeEq : hdrType mem place = type) (sizeEq : hdrSize mem place = bytes)
    (smallType : type < 65536) (large : 24 ≤ bytes)
    (aligned : bytes % 8 = 0) (small : bytes < 4294967296) :
    let final := complete crc32 mem place type bytes
    checkSignature crc32 final place (place + bytes - 8) = 0 ∧ hdrType final place = type ∧
      hdrSize final place = bytes ∧ hdrSeq final place = hdrSeq mem place := by
  intro final
  have headAgree : Mem.AgreeOn final mem place (place + 12) := complete_agree (by omega) large
  have tailAgree : Mem.AgreeOn final (putTail mem place type bytes) (place + bytes - 8)
      (place + bytes) := putCrc_agree (by omega)
  have finalSignature : hdrSignature final place = headSignature :=
    (Mem.peek_congr (headAgree.mono (by omega) (by omega))).trans signature
  have finalType : hdrType final place = type :=
    (Mem.peek_congr (headAgree.mono (by omega) (by omega))).trans typeEq
  have finalSize : hdrSize final place = bytes :=
    (Mem.peek_congr (headAgree.mono (by omega) (by omega))).trans sizeEq
  have finalSeq : hdrSeq final place = hdrSeq mem place :=
    Mem.peek_congr (headAgree.mono (by omega) (by omega))
  obtain ⟨tailSig, tailType, tailSize⟩ :=
    @putTail_fields mem place type bytes small smallType
  have finalTailSig : hdrSignature final (place + bytes - 8) = tailSignature :=
    (Mem.peek_congr (tailAgree.mono (by omega) (by omega))).trans tailSig
  have finalTailType : hdrType final (place + bytes - 8) = type :=
    (Mem.peek_congr (tailAgree.mono (by omega) (by omega))).trans tailType
  have finalTailSize : hdrSize final (place + bytes - 8) = bytes :=
    (Mem.peek_congr (tailAgree.mono (by omega) (by omega))).trans tailSize
  refine ⟨?_, finalType, finalSize, finalSeq⟩
  rw [checkSignature_eq_zero_iff, finalSize, finalType, finalSignature, finalTailSig,
    finalTailType, finalTailSize]
  exact ⟨rfl, by omega, aligned, .inr ⟨rfl, rfl, rfl⟩, .inr ⟨putCrc_crc, large⟩, rfl, rfl⟩

/-- The dummy record at the start of an aligned block. -/
theorem putDummy_laid (start : place % undoAlign = 0) :
    Laid crc32 (putDummy crc32 mem place seqno) place
      { size := undoAlign, seq := seqno % 4294967296, body := .dummy } := by
  obtain ⟨signature, typeEq, sizeEq, seqEq⟩ :=
    @putHead_fields mem place typeDummy undoAlign seqno (by decide) (by decide)
  obtain ⟨checked, finalType, finalSize, finalSeq⟩ :=
    @complete_checked crc32 _ place typeDummy undoAlign signature typeEq sizeEq (by decide)
      (by decide) (by decide) (by decide)
  refine ⟨by dsimp only; omega, trivial, ?_, checked⟩
  refine (record_of_dummy finalType).trans ?_
  rw [finalSize, finalSeq, seqEq]

theorem putDummy_agree (apart : hi ≤ place ∨ place + undoAlign ≤ lo) :
    Mem.AgreeOn (putDummy crc32 mem place seqno) mem lo hi := by
  simp only [undoAlign] at apart
  unfold putDummy
  refine (putCrc_agree (by omega)).trans <| (putTail_agree ?_).trans (putHead_agree (by omega))
  simp only [undoAlign]
  omega

/-- An UNDO record with its payload. -/
theorem putUndo_laid {zoneOff : Nat} {data : List UInt8}
    (block : place % undoAlign + bytes ≤ undoAlign) (room : data.length + 40 ≤ bytes)
    (aligned : bytes % 8 = 0) :
    ∃ rest, rest.take data.length = data ∧ rest.length = bytes - 40 ∧
      Laid crc32 (putUndo crc32 mem place bytes seqno zoneOff data) place
        { size := bytes, seq := seqno % 4294967296
          body := .undo (zoneOff % 2 ^ 64) data.length rest } := by
  simp only [undoAlign] at block
  obtain ⟨signature, typeEq, sizeEq, seqEq⟩ :=
    @putHead_fields mem place typeUndo bytes seqno (by omega) (by decide)
  -- the memory with head and body, before the record is completed
  obtain ⟨body, bodyEq⟩ : ∃ body, body = (((putHead mem place typeUndo bytes seqno).poke
    (place + 16) 8 zoneOff).poke (place + 24) 4 data.length).blit (place + 32) data := ⟨_, rfl⟩
  have headAgree : Mem.AgreeOn body (putHead mem place typeUndo bytes seqno) place
      (place + 16) := by
    rw [bodyEq]
    exact (Mem.blit_agree (by omega)).trans <| (Mem.poke_agree (by omega)).trans <|
      Mem.poke_agree (by omega)
  obtain ⟨checked, finalType, finalSize, finalSeq⟩ :=
    @complete_checked crc32 body place typeUndo bytes
      ((Mem.peek_congr (headAgree.mono (by omega) (by omega))).trans signature)
      ((Mem.peek_congr (headAgree.mono (by omega) (by omega))).trans typeEq)
      ((Mem.peek_congr (headAgree.mono (by omega) (by omega))).trans sizeEq)
      (by decide) (by omega) aligned (by omega)
  have bodySeq : hdrSeq body place = seqno % 4294967296 :=
    (Mem.peek_congr (headAgree.mono (by omega) (by omega))).trans seqEq
  have final : putUndo crc32 mem place bytes seqno zoneOff data =
      complete crc32 body place typeUndo bytes := by
    rw [bodyEq]
    rfl
  have bodyAgree : Mem.AgreeOn (complete crc32 body place typeUndo bytes) body (place + 16)
      (place + bytes - 8) := complete_agree (by omega) (by omega)
  have payload : ((complete crc32 body place typeUndo bytes).slice (place + 32)
      (bytes - 40)).take data.length = data := by
    rw [Mem.take_slice _ _ (by omega),
      Mem.slice_congr (bodyAgree.mono (by omega) (by omega)), bodyEq, Mem.slice_blit_same]
  have wide : 40 ≤ bytes := by omega
  have offset : undoOffset (complete crc32 body place typeUndo bytes) place = zoneOff % 2 ^ 64 := by
    unfold undoOffset
    rw [Mem.peek_congr (bodyAgree.mono (by omega) (by omega)), bodyEq,
      Mem.peek_blit_of_apart (by omega), Mem.peek_poke_of_apart (by omega), Mem.peek_poke_same]
    rfl
  have dataBytes : undoDataBytes (complete crc32 body place typeUndo bytes) place =
      data.length := by
    unfold undoDataBytes
    rw [Mem.peek_congr (bodyAgree.mono (by omega) (by omega)), bodyEq,
      Mem.peek_blit_of_apart (by omega), Mem.peek_poke_same, Nat.mod_eq_of_lt (by omega)]
    exact int32_of_range (by omega) (by omega)
  rw [final]
  refine ⟨_, payload, Mem.length_slice _ _ _, block, wide, ?_, checked⟩
  rw [record_of_undo finalType, finalSize, finalSeq, bodySeq, offset, dataBytes]

theorem putUndo_agree {zoneOff : Nat} {data : List UInt8} (room : data.length + 40 ≤ bytes)
    (apart : hi ≤ place ∨ place + bytes ≤ lo) :
    Mem.AgreeOn (putUndo crc32 mem place bytes seqno zoneOff data) mem lo hi := by
  unfold putUndo
  exact (putCrc_agree (by omega)).trans <| (putTail_agree (by omega)).trans <|
    (Mem.blit_agree (by omega)).trans <| (Mem.poke_agree (by omega)).trans <|
    (Mem.poke_agree (by omega)).trans <| putHead_agree (by omega)

/-- The head of a REDO record as it comes back from the media. -/
def RedoHead.stored (head : RedoHead) (fileOff : Nat) (dataBytes : Int) (data : List UInt8) : Body :=
  .redo (head.objid % 2 ^ 64) (fileOff % 2 ^ 64) dataBytes (head.flags % 2 ^ 32)
    (head.localization % 2 ^ 32) (head.mtime % 2 ^ 64) data

/-- A REDO record with its payload. -/
theorem putRedo_laid {head : RedoHead} {fileOff dataBytes : Nat} {data : List UInt8}
    (block : place % undoAlign + bytes ≤ undoAlign) (room : data.length + 64 ≤ bytes)
    (aligned : bytes % 8 = 0) (countFits : dataBytes < 2147483648) :
    ∃ rest, rest.take data.length = data ∧ rest.length = bytes - 64 ∧
      Laid crc32 (putRedo crc32 mem place bytes seqno head fileOff dataBytes data) place
        { size := bytes, seq := seqno % 4294967296, body := head.stored fileOff dataBytes rest } := by
  simp only [undoAlign] at block
  -- the memory with head and body, before the record is completed
  obtain ⟨early, earlyEq⟩ : ∃ early : Mem, early = (mem.poke (place + 16) 8 head.objid).poke
    (place + 40) 4 head.localization := ⟨_, rfl⟩
  obtain ⟨signature, typeEq, sizeEq, seqEq⟩ :=
    @putHead_fields early place typeRedo bytes seqno (by omega) (by decide)
  obtain ⟨body, bodyEq⟩ : ∃ body, body = (((((putHead early place typeRedo bytes seqno).poke
    (place + 48) 8 head.mtime).poke (place + 24) 8 fileOff).poke (place + 36) 4 head.flags).poke
    (place + 32) 4 dataBytes).blit (place + 56) data := ⟨_, rfl⟩
  have headAgree : Mem.AgreeOn body (putHead early place typeRedo bytes seqno) place
      (place + 16) := by
    rw [bodyEq]
    exact (Mem.blit_agree (by omega)).trans <| (Mem.poke_agree (by omega)).trans <|
      (Mem.poke_agree (by omega)).trans <| (Mem.poke_agree (by omega)).trans <|
      Mem.poke_agree (by omega)
  obtain ⟨checked, finalType, finalSize, finalSeq⟩ :=
    @complete_checked crc32 body place typeRedo bytes
      ((Mem.peek_congr (headAgree.mono (by omega) (by omega))).trans signature)
      ((Mem.peek_congr (headAgree.mono (by omega) (by omega))).trans typeEq)
      ((Mem.peek_congr (headAgree.mono (by omega) (by omega))).trans sizeEq)
      (by decide) (by omega) aligned (by omega)
  have bodySeq : hdrSeq body place = seqno % 4294967296 :=
    (Mem.peek_congr (headAgree.mono (by omega) (by omega))).trans seqEq
  have final : putRedo crc32 mem place bytes seqno head fileOff dataBytes data =
      complete crc32 body place typeRedo bytes := by
    rw [bodyEq, earlyEq]
    rfl
  have bodyAgree : Mem.AgreeOn (complete crc32 body place typeRedo bytes) body (place + 16)
      (place + bytes - 8) := complete_agree (by omega) (by omega)
  have payload : ((complete crc32 body place typeRedo bytes).slice (place + 56)
      (bytes - 64)).take data.length = data := by
    rw [Mem.take_slice _ _ (by omega),
      Mem.slice_congr (bodyAgree.mono (by omega) (by omega)), bodyEq, Mem.slice_blit_same]
  have wide : 64 ≤ bytes := by omega
  have objid : redoObjid (complete crc32 body place typeRedo bytes) place =
      head.objid % 256 ^ 8 := by
    unfold redoObjid
    rw [Mem.peek_congr (bodyAgree.mono (by omega) (by omega)), bodyEq,
      Mem.peek_blit_of_apart (by omega), Mem.peek_poke_of_apart (by omega),
      Mem.peek_poke_of_apart (by omega), Mem.peek_poke_of_apart (by omega),
      Mem.peek_poke_of_apart (by omega), Mem.peek_congr (putHead_agree (by omega)), earlyEq,
      Mem.peek_poke_of_apart (by omega), Mem.peek_poke_same]
  have localization : redoLocalization (complete crc32 body place typeRedo bytes) place =
      head.localization % 256 ^ 4 := by
    unfold redoLocalization
    rw [Mem.peek_congr (bodyAgree.mono (by omega) (by omega)), bodyEq,
      Mem.peek_blit_of_apart (by omega), Mem.peek_poke_of_apart (by omega),
      Mem.peek_poke_of_apart (by omega), Mem.peek_poke_of_apart (by omega),
      Mem.peek_poke_of_apart (by omega), Mem.peek_congr (putHead_agree (by omega)), earlyEq,
      Mem.peek_poke_same]
  have mtime : redoMtime (complete crc32 body place typeRedo bytes) place =
      head.mtime % 256 ^ 8 := by
    unfold redoMtime
    rw [Mem.peek_congr (bodyAgree.mono (by omega) (by omega)), bodyEq,
      Mem.peek_blit_of_apart (by omega), Mem.peek_poke_of_apart (by omega),
      Mem.peek_poke_of_apart (by omega), Mem.peek_poke_of_apart (by omega), Mem.peek_poke_same]
  have offset : redoOffset (complete crc32 body place typeRedo bytes) place =
      fileOff % 256 ^ 8 := by
    unfold redoOffset
    rw [Mem.peek_congr (bodyAgree.mono (by omega) (by omega)), bodyEq,
      Mem.peek_blit_of_apart (by omega), Mem.peek_poke_of_apart (by omega),
      Mem.peek_poke_of_apart (by omega), Mem.peek_poke_same]
  have flags : redoFlags (complete crc32 body place typeRedo bytes) place =
      head.flags % 256 ^ 4 := by
    unfold redoFlags
    rw [Mem.peek_congr (bodyAgree.mono (by omega) (by omega)), bodyEq,
      Mem.peek_blit_of_apart (by omega), Mem.peek_poke_of_apart (by omega), Mem.peek_poke_same]
  have count : redoDataBytes (complete crc32 body place typeRedo bytes) place = dataBytes := by
    unfold redoDataBytes
    rw [Mem.peek_congr (bodyAgree.mono (by omega) (by omega)), bodyEq,
      Mem.peek_blit_of_apart (by omega), Mem.peek_poke_same, Nat.mod_eq_of_lt (by omega)]
    exact int32_of_range (by omega) (by omega)
  rw [final]
  refine ⟨_, payload, Mem.length_slice _ _ _, block, wide, ?_, checked⟩
  rw [record_of_redo finalType, finalSize, finalSeq, bodySeq, objid, offset, count, flags,
    localization, mtime]
  rfl

theorem putRedo_agree {head : RedoHead} {fileOff dataBytes : Nat} {data : List UInt8}
    (room : data.length + 64 ≤ bytes) (apart : hi ≤ place ∨ place + bytes ≤ lo) :
    Mem.AgreeOn (putRedo crc32 mem place bytes seqno head fileOff dataBytes data) mem lo hi := by
  unfold putRedo
  exact (putCrc_agree (by omega)).trans <| (putTail_agree (by omega)).trans <|
    (Mem.blit_agree (by omega)).trans <| (Mem.poke_agree (by omega)).trans <|
    (Mem.poke_agree (by omega)).trans <| (Mem.poke_agree (by omega)).trans <|
    (Mem.poke_agree (by omega)).trans <| (putHead_agree (by omega)).trans <|
    (Mem.poke_agree (by omega)).trans <| Mem.poke_agree (by omega)

theorem putPad_agree (large : 8 ≤ bytes) (apart : hi ≤ place ∨ place + bytes ≤ lo) :
    Mem.AgreeOn (putPad mem place bytes) mem lo hi := by
  unfold putPad
  refine (Mem.poke_agree (by omega)).trans <| (Mem.poke_agree (by omega)).trans <|
    (Mem.poke_agree (by omega)).trans ?_
  split
  · exact putTail_agree (by omega)
  · exact fun _ _ _ => rfl

/-- A PAD. -/
theorem putPad_laid (block : place % undoAlign + bytes ≤ undoAlign) (large : 8 ≤ bytes)
    (aligned : bytes % 8 = 0) :
    Laid crc32 (putPad mem place bytes) place { size := bytes, seq := 0, body := .pad } := by
  simp only [undoAlign] at block
  obtain ⟨early, earlyEq⟩ : ∃ early : Mem,
    early = if place ≠ place + bytes - 8 then putTail mem place typePad bytes else mem := ⟨_, rfl⟩
  have final : putPad mem place bytes = ((early.poke place 2 headSignature).poke (place + 2) 2
    typePad).poke (place + 4) 4 bytes := by
    rw [earlyEq]
    rfl
  have signature : hdrSignature (putPad mem place bytes) place = headSignature := by
    rw [final]
    unfold hdrSignature
    simp (disch := omega) only [Mem.peek_poke_of_apart, Mem.peek_poke_same]
    rfl
  have typeEq : hdrType (putPad mem place bytes) place = typePad := by
    rw [final]
    unfold hdrType
    simp (disch := omega) only [Mem.peek_poke_of_apart, Mem.peek_poke_same]
    rfl
  have sizeEq : hdrSize (putPad mem place bytes) place = bytes := by
    rw [final]
    unfold hdrSize
    simp only [Mem.peek_poke_same]
    omega
  -- the tail is the head in the smallest PAD, and written separately in all others
  have tail : (bytes = 8 ∧ place + bytes - 8 = place) ∨
      (hdrType (putPad mem place bytes) (place + bytes - 8) = typePad ∧
        hdrSize (putPad mem place bytes) (place + bytes - 8) = bytes ∧
        hdrSignature (putPad mem place bytes) (place + bytes - 8) = tailSignature) := by
    by_cases smallest : bytes = 8
    · exact .inl ⟨smallest, by omega⟩
    · right
      have apart : early = putTail mem place typePad bytes := by
        rw [earlyEq, if_pos (by omega)]
      obtain ⟨tailSig, tailType, tailSize⟩ :=
        @putTail_fields mem place typePad bytes (by omega) (by decide)
      have agree : Mem.AgreeOn (putPad mem place bytes) (putTail mem place typePad bytes)
          (place + bytes - 8) (place + bytes) := by
        rw [final, apart]
        exact (Mem.poke_agree (by omega)).trans <| (Mem.poke_agree (by omega)).trans <|
          Mem.poke_agree (by omega)
      exact ⟨(Mem.peek_congr (agree.mono (by omega) (by omega))).trans tailType,
        (Mem.peek_congr (agree.mono (by omega) (by omega))).trans tailSize,
        (Mem.peek_congr (agree.mono (by omega) (by omega))).trans tailSig⟩
  refine ⟨block, trivial, ?_, ?_⟩
  · rw [record_of_pad typeEq, sizeEq]
  · rw [checkSignature_eq_zero_iff, sizeEq, typeEq, signature]
    rcases tail with ⟨smallest, same⟩ | ⟨tailType, tailSize, tailSig⟩
    · dsimp only
      rw [same, sizeEq, typeEq]
      exact ⟨rfl, large, aligned, .inl ⟨rfl, smallest⟩, .inl rfl, rfl, rfl⟩
    · exact ⟨rfl, large, aligned, .inr ⟨tailType, tailSize, tailSig⟩, .inl rfl, tailSize,
        tailType⟩

end Put

end Dragonfly.Hammer.Fifo
