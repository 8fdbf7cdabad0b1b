import Dragonfly.Hammer.Fifo.Place
import Dragonfly.Hammer.Fifo.Stage1

/-!
# What the encoder keeps up

While records are being laid down, everything from the first of them up to
`next_offset` can be read back, a dummy PAD fills the block, and every block ahead
begins with a record whose sequence number does not continue the run.  There are
three steps: entering a buffer, laying down a PAD and laying down a record.
-/

namespace Dragonfly.Hammer.Fifo

open Dragonfly.Lib

/-! ## Formatted buffers -/

/-- The preformatted sequence numbers are a quarter of the range away. -/
theorem xor_seqno {seqno : Nat} (small : seqno < 4294967296) :
    seqno ^^^ 0x40000000 = seqno + 1073741824 ∨ (seqno ^^^ 0x40000000) + 1073741824 = seqno := by
  have low : (seqno ^^^ 2 ^ 30) % 2 ^ 30 = seqno % 2 ^ 30 := by
    rw [Nat.xor_mod_two_pow]
    simp
  have high : (seqno ^^^ 2 ^ 30) / 2 ^ 30 = seqno / 2 ^ 30 ^^^ 1 := by
    rw [Nat.xor_div_two_pow]
    simp
  have flips : ∀ top < 4, top ^^^ 1 = top + 1 ∨ (top ^^^ 1) + 1 = top := by decide
  have constant : (0x40000000 : Nat) = 2 ^ 30 := by decide
  rw [constant]
  rcases flips (seqno / 2 ^ 30) (by omega) with up | down
  · rw [up] at high
    omega
  · rw [← high] at down
    omega

section Format

variable {crc32 : List UInt8 → UInt32}

theorem formatLoop_agree (blocks : Nat) {mem : Mem} {place seqno lo hi : Nat}
    (apart : hi ≤ place ∨ place + blocks * undoAlign ≤ lo) :
    Mem.AgreeOn (formatLoop crc32 blocks mem place seqno) mem lo hi := by
  induction blocks generalizing mem place seqno with
  | zero => exact fun _ _ _ => rfl
  | succ blocks ih =>
      simp only [undoAlign] at apart
      refine (ih ?_).trans (putDummy_agree ?_)
      · simp only [undoAlign]
        omega
      · simp only [undoAlign]
        omega

theorem formatLoop_laid {blocks index : Nat} (mem : Mem) {place seqno : Nat}
    (start : place % undoAlign = 0) (inside : index < blocks) :
    Laid crc32 (formatLoop crc32 blocks mem place seqno) (place + index * undoAlign)
      { size := undoAlign, seq := (seqno + index) % 4294967296, body := .dummy } := by
  induction blocks generalizing mem place seqno index with
  | zero => omega
  | succ blocks ih =>
      cases index with
      | zero =>
          rw [Nat.zero_mul, Nat.add_zero]
          refine (putDummy_laid start).congr (formatLoop_agree blocks ?_)
          exact .inl le_rfl
      | succ index =>
          have next := @ih index (putDummy crc32 mem place seqno) (place + undoAlign)
            (seqSucc seqno) (by rw [Nat.add_mod_right]; exact start) (by omega)
          have place' : place + undoAlign + index * undoAlign = place + (index + 1) * undoAlign := by
            rw [Nat.add_mul, Nat.one_mul]
            omega
          have seq' : (seqSucc seqno + index) % 4294967296 =
              (seqno + (index + 1)) % 4294967296 := by
            unfold seqSucc
            omega
          rw [place', seq'] at next
          exact next

theorem formatUndo_agree {mem : Mem} {base seqno lo hi : Nat}
    (apart : hi ≤ base ∨ base + bufsize ≤ lo) :
    Mem.AgreeOn (formatUndo crc32 mem base seqno) mem lo hi := by
  unfold formatUndo
  refine (formatLoop_agree 32 ?_).trans (Mem.blit_agree ?_)
  · simp only [undoAlign, bufsize] at *
    omega
  · rw [List.length_replicate]
    exact apart

end Format

/-! ## The invariant -/

/-- Every block from `pos` on begins with a record that does not continue a run
whose next sequence number at `pos` is `seqno`, however many records are laid down
on the way to it. -/
def Ahead (area : Area) (seqno pos limit : Nat) : Prop :=
  ∀ block, pos ≤ block → block < limit → block % undoAlign = 0 →
    ∃ record, Laid area.crc32 area.mem (area.spot block) record ∧ record.body ≠ .pad ∧
      ∀ count, 40 * count ≤ block - pos → record.seq ≠ (seqno + count) % 4294967296

/-- The end of the free space for a run that begins at `start`: the buffer `start`
lies in must not be entered again. -/
def Area.limitOf (area : Area) (start : Nat) : Nat :=
  start / bufsize * bufsize + (area.allocOffset - undoBase)

/-- `records` have been laid down from position `start` on. -/
structure Laying (first mount : Mount) (start : Nat) (records : List Record) : Prop where
  crc : mount.area.crc32 = first.area.crc32
  alloc : mount.area.allocOffset = first.area.allocOffset
  buffered : mount.area.Buffered
  names : mount.area.Names mount.nextOffset (mount.area.spot (start + total records))
  stats : mount.stats = first.stats + total records
  laid : mount.area.LaidFrom start records
  order : seqAfter records first.undoSeqno = some mount.undoSeqno
  small : mount.undoSeqno < 4294967296
  aligned : (start + total records) % 8 = 0
  padded : records ≠ [] → (start + total records) % undoAlign ≠ 0 →
    Laid mount.area.crc32 mount.area.mem (mount.area.spot (start + total records))
      { size := Mount.toBoundary (start + total records), seq := 0, body := .pad }
  ahead : Ahead mount.area mount.undoSeqno (start + total records) (mount.area.limitOf start)

theorem seqAfter_append (first second : List Record) (seqno : Nat) :
    seqAfter (first ++ second) seqno = (seqAfter first seqno).bind (seqAfter second) := by
  induction first generalizing seqno with
  | nil => rfl
  | cons record records ih =>
      simp only [List.cons_append, seqAfter]
      split
      · split
        · rfl
        · exact ih _
      · exact ih _

/-- Adding to a place inside its block, which may reach the end of the area. -/
theorem Area.names_add {area : Area} (buffered : area.Buffered) {pos size : Nat}
    (positive : 0 < size) (block : pos % undoAlign + size ≤ undoAlign) :
    area.Names (area.spot pos + size) (area.spot (pos + size)) := by
  have lastByte := Area.spot_add buffered (show undoAlign ∣ bufsize by decide)
    (show pos % undoAlign + (size - 1) < undoAlign by omega)
  have lastInside := Area.spot_inside buffered.sane (pos + (size - 1))
  have inside := Area.spot_inside buffered.sane pos
  unfold Area.Inside at inside lastInside
  rw [← Area.walk_spot]
  rcases Area.walk_cases inside (show size ≤ area.allocOffset - undoBase by omega) with
    ⟨below, same⟩ | ⟨above, same⟩
  · exact .inl same.symm
  · exact .inr ⟨by omega, by omega⟩

namespace Laying

variable {first mount : Mount} {start : Nat} {records : List Record}

/-- The blocks of a freshly formatted buffer do not continue the run. -/
theorem ahead_format (laying : Laying first mount start records) {pos : Nat}
    (enters : pos % bufsize = 0) {block : Nat} (lower : pos ≤ block)
    (upper : block < pos + bufsize) (begins : block % undoAlign = 0) :
    ∃ record, Laid mount.area.crc32
        (formatUndo mount.area.crc32 mount.area.mem (mount.area.spot pos)
          (mount.undoSeqno ^^^ 0x40000000)) (mount.area.spot block) record ∧
      record.body ≠ .pad ∧
      ∀ count, 40 * count ≤ block - pos →
        record.seq ≠ (mount.undoSeqno + count) % 4294967296 := by
  obtain ⟨index, rfl⟩ : ∃ index, block = pos + index * undoAlign := by
    refine ⟨(block - pos) / undoAlign, ?_⟩
    simp only [undoAlign, bufsize] at *
    omega
  have few : index < 32 := by
    simp only [undoAlign, bufsize] at upper
    omega
  have place := Area.spot_add laying.buffered (dvd_refl bufsize)
    (show pos % bufsize + index * undoAlign < bufsize by omega)
  have startAligned : mount.area.spot pos % undoAlign = 0 := by
    rw [Area.spot_mod_undoAlign laying.buffered]
    simp only [undoAlign, bufsize] at *
    omega
  rw [place]
  refine ⟨_, formatLoop_laid _ startAligned few, by simp, ?_⟩
  intro count bound
  have small := laying.small
  simp only [undoAlign] at bound
  dsimp only
  rcases xor_seqno small with up | down
  · rw [up]
    omega
  · omega

theorem wrapped_eq (laying : Laying first mount start records) :
    (if mount.nextOffset = mount.area.allocOffset then undoBase else mount.nextOffset) =
      mount.area.spot (start + total records) := by
  have inside := Area.spot_inside laying.buffered.sane (start + total records)
  rcases laying.names with same | ⟨same, atBase⟩
  · rw [if_neg (by rw [same]; exact inside.2.ne), same]
  · rw [if_pos same, atBase]

/-- Entering a buffer. -/
theorem openBuffer (laying : Laying first mount start records)
    (room : start + total records < mount.area.limitOf start) :
    Laying first mount.openBuffer start records ∧
      mount.openBuffer.nextOffset = mount.openBuffer.area.spot (start + total records) := by
  have wrapped := laying.wrapped_eq
  unfold Mount.openBuffer
  dsimp only
  rw [wrapped]
  by_cases enters : mount.area.spot (start + total records) % bufsize = 0
  · rw [if_pos enters]
    rw [Area.spot_mod_bufsize laying.buffered] at enters
    unfold Area.limitOf at room
    have buffers := laying.buffered.buffers
    have before := Nat.div_mul_le_self start bufsize
    -- the buffer entered ends in front of the limit, which is a buffer boundary
    have fits : start + total records + bufsize ≤ mount.area.limitOf start := by
      unfold Area.limitOf
      simp only [bufsize] at *
      omega
    unfold Area.limitOf at fits
    have keeps : ∀ lo hi, start ≤ lo → hi ≤ mount.area.limitOf start →
        hi ≤ start + total records ∨ start + total records + bufsize ≤ lo →
        mount.area.Keeps (formatUndo mount.area.crc32 mount.area.mem
          (mount.area.spot (start + total records)) (mount.undoSeqno ^^^ 0x40000000))
          mount.area.mem lo hi := by
      intro lo hi lower upper apart
      unfold Area.limitOf at upper
      refine Area.Keeps.of_agree laying.buffered (dvd_refl bufsize) (by omega)
        (fun lo hi apart => formatUndo_agree apart) apart (by omega) (by omega)
    refine ⟨⟨laying.crc, laying.alloc, laying.buffered.withMem _, .inl rfl, laying.stats, ?_,
      laying.order, laying.small, laying.aligned, ?_, ?_⟩, rfl⟩
    · exact laying.laid.keeps laying.buffered
        (keeps start (start + total records) le_rfl (by unfold Area.limitOf; omega) (.inl le_rfl))
        le_rfl le_rfl
    · intro _ unaligned
      simp only [undoAlign, bufsize] at *
      omega
    · intro block lower upper begins
      by_cases inBuffer : block < start + total records + bufsize
      · exact laying.ahead_format enters lower inBuffer begins
      · obtain ⟨record, laid, noPad, differs⟩ := laying.ahead block lower upper begins
        have blockFits := laid.block
        rw [Area.spot_mod_undoAlign laying.buffered] at blockFits
        refine ⟨record, laid.congr ?_, noPad, differs⟩
        refine (keeps (start + total records + bufsize) (mount.area.limitOf start) (by omega) le_rfl
          (.inr le_rfl)).agreeOn laying.buffered blockFits (by omega) ?_
        -- a block that begins in front of the limit ends in front of it
        change block < mount.area.limitOf start at upper
        unfold Area.limitOf at upper ⊢
        simp only [undoAlign, bufsize] at *
        omega
  · rw [if_neg enters]
    exact ⟨⟨laying.crc, laying.alloc, laying.buffered, .inl rfl, laying.stats, laying.laid,
      laying.order, laying.small, laying.aligned, laying.padded, laying.ahead⟩, rfl⟩

/-- One more record inside the current block. -/
theorem extend (laying : Laying first mount start records)
    (atNext : mount.nextOffset = mount.area.spot (start + total records))
    {mem : Mem} {this : Record} {seqno : Nat}
    (laid : Laid mount.area.crc32 mem mount.nextOffset this)
    (begins : (start + total records) % undoAlign = 0 → this.body ≠ .pad)
    (agree : ∀ lo hi, hi ≤ mount.nextOffset ∨
      mount.nextOffset + Mount.toBoundary mount.nextOffset ≤ lo →
      Mem.AgreeOn mem mount.area.mem lo hi)
    (order : seqAfter [this] mount.undoSeqno = some seqno)
    (counts : seqno = mount.undoSeqno ∨ (seqno = seqSucc mount.undoSeqno ∧ 40 ≤ this.size))
    (padded : (start + total records + this.size) % undoAlign ≠ 0 →
      Laid mount.area.crc32 mem (mount.nextOffset + this.size)
        { size := Mount.toBoundary (start + total records + this.size), seq := 0, body := .pad })
    (room : start + total records < mount.area.limitOf start) :
    Laying first { mount with
      area := { mount.area with mem }
      nextOffset := mount.nextOffset + this.size
      undoSeqno := seqno
      stats := mount.stats + this.size } start (records ++ [this]) := by
  have buffered := laying.buffered
  have fits := laid.block
  obtain ⟨large, aligned⟩ := laid.size_bounds
  have toEnd : Mount.toBoundary mount.nextOffset = Mount.toBoundary (start + total records) := by
    unfold Mount.toBoundary
    rw [atNext, Area.spot_mod_undoAlign buffered]
  rw [atNext, Area.spot_mod_undoAlign buffered] at fits
  rw [toEnd] at agree
  have before := Nat.div_mul_le_self start bufsize
  have buffers := buffered.buffers
  have totalEq : start + total (records ++ [this]) = start + total records + this.size := by
    rw [total_append, total_cons, total_nil, Nat.add_zero, Nat.add_assoc]
  -- the block ends in front of the limit, which is a block boundary
  have blockEnd : start + total records + Mount.toBoundary (start + total records) ≤
      mount.area.limitOf start := by
    unfold Area.limitOf at room ⊢
    unfold Mount.toBoundary
    simp only [bufsize, undoAlign] at *
    omega
  have keeps : ∀ lo hi, start ≤ lo → hi ≤ mount.area.limitOf start →
      hi ≤ start + total records ∨
        start + total records + Mount.toBoundary (start + total records) ≤ lo →
      mount.area.Keeps mem mount.area.mem lo hi := by
    intro lo hi lower upper apart
    unfold Area.limitOf at upper blockEnd
    refine Area.Keeps.of_agree buffered (show undoAlign ∣ bufsize by decide)
      (by unfold Mount.toBoundary; simp only [undoAlign]; omega)
      (fun lo hi apart => agree lo hi (by rwa [atNext])) apart (by omega) (by omega)
  refine ⟨laying.crc, laying.alloc, buffered.withMem mem, ?_, ?_, ?_, ?_, ?_, ?_, ?_, ?_⟩
  · rw [totalEq]
    dsimp only
    rw [atNext]
    exact Area.names_add buffered (by omega) fits
  · rw [total_append, total_cons, total_nil, Nat.add_zero, ← Nat.add_assoc, ← laying.stats]
  · refine (laying.laid.keeps buffered (keeps start (start + total records) le_rfl
      (by omega) (.inl le_rfl)) le_rfl le_rfl).append ⟨?_, begins, trivial⟩
    rw [atNext] at laid
    exact laid
  · rw [seqAfter_append, laying.order]
    exact order
  · have small := laying.small
    rcases counts with rfl | ⟨rfl, _⟩
    · exact small
    · exact Nat.mod_lt _ (by decide)
  · have start8 := laying.aligned
    rw [totalEq]
    omega
  · intro _ unaligned
    rw [totalEq] at unaligned ⊢
    have padLaid := padded unaligned
    have inBlock : (start + total records) % undoAlign + this.size < undoAlign := by
      simp only [undoAlign] at *
      omega
    have place : mount.nextOffset + this.size =
        mount.area.spot (start + total records + this.size) := by
      rw [atNext, Area.spot_add buffered (show undoAlign ∣ bufsize by decide) inBlock]
    rw [place] at padLaid
    exact padLaid
  · intro block lower upper start0
    rw [totalEq] at lower ⊢
    change block < mount.area.limitOf start at upper
    obtain ⟨record, blockLaid, noPad, differs⟩ := laying.ahead block (by omega) upper start0
    have blockFits := blockLaid.block
    rw [Area.spot_mod_undoAlign buffered] at blockFits
    refine ⟨record, blockLaid.congr ?_, noPad, ?_⟩
    · refine (keeps (start + total records + Mount.toBoundary (start + total records))
        (mount.area.limitOf start) (by omega) le_rfl (.inr le_rfl)).agreeOn buffered blockFits ?_ ?_
      · unfold Mount.toBoundary
        simp only [undoAlign] at *
        omega
      · unfold Area.limitOf at upper ⊢
        simp only [undoAlign, bufsize] at *
        omega
    · intro count bound
      dsimp only
      rcases counts with rfl | ⟨rfl, wide⟩
      · exact differs count (by omega)
      · have next := differs (count + 1) (by omega)
        unfold seqSucc
        rw [Nat.mod_add_mod]
        rwa [← Nat.add_assoc, Nat.add_right_comm] at next

/-- The PAD that fills a block. -/
def padTo (bytes : Nat) : Record := { size := bytes, seq := 0, body := .pad }

/-- Laying down a PAD. -/
theorem layPad (laying : Laying first mount start records)
    (atNext : mount.nextOffset = mount.area.spot (start + total records))
    (inBlock : (start + total records) % undoAlign ≠ 0)
    (room : start + total records < mount.area.limitOf start) :
    Laying first mount.layPad start
      (records ++ [padTo (Mount.toBoundary mount.nextOffset)]) := by
  have aligned := laying.aligned
  have residue : mount.nextOffset % undoAlign = (start + total records) % undoAlign := by
    rw [atNext, Area.spot_mod_undoAlign laying.buffered]
  have toEnd : Mount.toBoundary mount.nextOffset = Mount.toBoundary (start + total records) := by
    unfold Mount.toBoundary
    rw [residue]
  have laid : Laid mount.area.crc32 (putPad mount.area.mem mount.nextOffset
      (Mount.toBoundary mount.nextOffset)) mount.nextOffset
      (padTo (Mount.toBoundary mount.nextOffset)) := by
    refine putPad_laid ?_ ?_ ?_
    all_goals
      unfold Mount.toBoundary
      rw [residue]
      simp only [undoAlign] at *
      omega
  refine laying.extend atNext laid (fun begins => absurd begins inBlock) ?_ rfl (.inl rfl) ?_ room
  · intro lo hi apart
    exact putPad_agree laid.size_bounds.1 apart
  · intro unaligned
    refine absurd ?_ unaligned
    show (start + total records + Mount.toBoundary mount.nextOffset) % undoAlign = 0
    rw [toEnd]
    unfold Mount.toBoundary
    simp only [undoAlign] at *
    omega

/-- Laying down a record and the dummy PAD behind it. -/
theorem finish (laying : Laying first mount start records)
    (atNext : mount.nextOffset = mount.area.spot (start + total records))
    {mem : Mem} {this : Record} (laid : Laid mount.area.crc32 mem mount.nextOffset this)
    (noPad : this.body ≠ .pad) (seqEq : this.seq = mount.undoSeqno) (wide : 40 ≤ this.size)
    (agree : ∀ lo hi, hi ≤ mount.nextOffset ∨ mount.nextOffset + this.size ≤ lo →
      Mem.AgreeOn mem mount.area.mem lo hi)
    (room : start + total records < mount.area.limitOf start) :
    Laying first (mount.finish mem this.size) start (records ++ [this]) := by
  have fits := laid.block
  obtain ⟨large, sizeAligned⟩ := laid.size_bounds
  have aligned := laying.aligned
  have residue : mount.nextOffset % undoAlign = (start + total records) % undoAlign := by
    rw [atNext, Area.spot_mod_undoAlign laying.buffered]
  have residueNext : (mount.nextOffset + this.size) % undoAlign =
      (start + total records + this.size) % undoAlign := by
    rw [Nat.add_mod, residue, ← Nat.add_mod]
  have toEnd : Mount.toBoundary (mount.nextOffset + this.size) =
      Mount.toBoundary (start + total records + this.size) := by
    unfold Mount.toBoundary
    rw [residueNext]
  -- the dummy PAD, if any, lies between the record and the end of the block
  obtain ⟨filled, filledEq⟩ : ∃ filled, filled =
    if Mount.toBoundary (mount.nextOffset + this.size) ≠ undoAlign then
      putPad mem (mount.nextOffset + this.size) (Mount.toBoundary (mount.nextOffset + this.size))
    else mem := ⟨_, rfl⟩
  have padLarge : 8 ≤ Mount.toBoundary (mount.nextOffset + this.size) := by
    unfold Mount.toBoundary
    rw [residueNext]
    simp only [undoAlign] at *
    omega
  have padAgree : ∀ lo hi, hi ≤ mount.nextOffset + this.size ∨
      mount.nextOffset + Mount.toBoundary mount.nextOffset ≤ lo →
      Mem.AgreeOn filled mem lo hi := by
    intro lo hi apart
    rw [filledEq]
    split
    · next isPad =>
        refine putPad_agree padLarge ?_
        unfold Mount.toBoundary at isPad apart ⊢
        simp only [undoAlign] at *
        omega
    · exact fun _ _ _ => rfl
  have laidFilled : Laid mount.area.crc32 filled mount.nextOffset this :=
    laid.congr (padAgree _ _ (.inl le_rfl))
  have order : seqAfter [this] mount.undoSeqno = some (seqSucc mount.undoSeqno) := by
    simp [seqAfter, noPad, seqEq]
  have result := laying.extend atNext laidFilled (fun _ => noPad) (fun lo hi apart =>
      (padAgree lo hi (by omega)).trans (agree lo hi (by
        unfold Mount.toBoundary at apart
        simp only [undoAlign] at *
        omega))) order (.inr ⟨rfl, wide⟩) ?_ room
  · unfold Mount.finish
    dsimp only
    rw [← filledEq]
    exact result
  · intro unaligned
    have isPad : Mount.toBoundary (mount.nextOffset + this.size) ≠ undoAlign := by
      unfold Mount.toBoundary
      rw [residueNext]
      simp only [undoAlign] at *
      omega
    rw [filledEq, if_pos isPad, ← toEnd]
    refine putPad_laid ?_ padLarge ?_
    all_goals
      unfold Mount.toBoundary
      rw [residueNext]
      simp only [undoAlign] at *
      omega

end Laying

end Dragonfly.Hammer.Fifo
