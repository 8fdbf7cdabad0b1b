import Dragonfly.Hammer.Fifo.Encode
import Dragonfly.Hammer.Fifo.Fold

/-!
# Positions in the FIFO

A position counts bytes from the beginning of the area and goes on counting where
the FIFO wraps.  Positions that are less than the length of the area apart lie at
different places, so records laid down behind one another do not meet.
-/

namespace Dragonfly.Hammer.Fifo

open Dragonfly.Lib

/-- The area consists of whole buffers. -/
structure Area.Buffered (area : Area) : Prop where
  sane : area.Sane
  buffers : (area.allocOffset - undoBase) % bufsize = 0

/-- Writing to the area does not change its shape. -/
theorem Area.Buffered.withMem {area : Area} (buffered : area.Buffered) (mem : Mem) :
    Area.Buffered { area with mem } :=
  ⟨⟨buffered.sane.lower, buffered.sane.upper⟩, buffered.buffers⟩

/-- The place of a position. -/
def Area.spot (area : Area) (pos : Nat) : Nat := undoBase + pos % (area.allocOffset - undoBase)

namespace Area

variable {area : Area} {pos : Nat}

theorem walk_spot (pos distance : Nat) :
    area.walk (area.spot pos) distance = area.spot (pos + distance) := by
  unfold walk spot
  rw [Nat.add_sub_cancel_left, Nat.mod_add_mod]

theorem spot_inside (sane : area.Sane) (pos : Nat) : area.Inside (area.spot pos) := by
  have positive : 0 < area.allocOffset - undoBase := Nat.sub_pos_of_lt sane.lower
  have bound := Nat.mod_lt pos positive
  have lower := sane.lower
  unfold Inside spot
  omega

theorem undoBase_mod_bufsize : undoBase % bufsize = 0 := by decide

theorem spot_mod_bufsize (buffered : area.Buffered) (pos : Nat) :
    area.spot pos % bufsize = pos % bufsize := by
  unfold spot
  rw [Nat.add_mod, undoBase_mod_bufsize, Nat.zero_add, Nat.mod_mod,
    Nat.mod_mod_of_dvd _ (Nat.dvd_of_mod_eq_zero buffered.buffers)]

theorem spot_mod_undoAlign (buffered : area.Buffered) (pos : Nat) :
    area.spot pos % undoAlign = pos % undoAlign := by
  have divides : undoAlign ∣ bufsize := by decide
  rw [← Nat.mod_mod_of_dvd (area.spot pos) divides, spot_mod_bufsize buffered,
    Nat.mod_mod_of_dvd _ divides]

/-- Inside an aligned block, or a whole buffer, places follow positions. -/
theorem spot_add (buffered : area.Buffered) {unit index : Nat} (divides : unit ∣ bufsize)
    (inside : pos % unit + index < unit) : area.spot (pos + index) = area.spot pos + index := by
  have unitDvd : unit ∣ area.allocOffset - undoBase :=
    divides.trans (Nat.dvd_of_mod_eq_zero buffered.buffers)
  obtain ⟨count, length⟩ := unitDvd
  unfold spot
  rw [length]
  have positive : 0 < unit := by omega
  have inner : pos % (unit * count) % unit = pos % unit := Nat.mod_mul_right_mod _ _ _
  have lengthPositive : 0 < unit * count := by
    have lower := buffered.sane.lower
    omega
  have bound := Nat.mod_lt pos lengthPositive
  -- the residue lies in one unit of the area, which does not reach over its end
  have quotient := Nat.div_add_mod (pos % (unit * count)) unit
  have below : pos % (unit * count) / unit + 1 ≤ count := by
    rw [Nat.succ_le_iff, Nat.div_lt_iff_lt_mul positive, Nat.mul_comm count]
    exact bound
  have reach := Nat.mul_le_mul_left unit below
  rw [Nat.mul_add, Nat.mul_one] at reach
  have fits : pos % (unit * count) + index < unit * count := by omega
  rw [Nat.add_assoc, ← Nat.mod_add_mod, Nat.mod_eq_of_lt fits]

/-- Positions less than the area apart lie at different places. -/
theorem spot_injective {first second : Nat}
    (near : first < second + (area.allocOffset - undoBase))
    (near' : second < first + (area.allocOffset - undoBase))
    (same : area.spot first = area.spot second) : first = second := by
  unfold spot at same
  have residues : first % (area.allocOffset - undoBase) =
      second % (area.allocOffset - undoBase) := by omega
  rcases Nat.le_total first second with order | order
  · have gap := Nat.dvd_of_mod_eq_zero (Nat.sub_mod_eq_zero_of_mod_eq residues.symm)
    have zero := Nat.eq_zero_of_dvd_of_lt gap (by omega)
    omega
  · have gap := Nat.dvd_of_mod_eq_zero (Nat.sub_mod_eq_zero_of_mod_eq residues)
    have zero := Nat.eq_zero_of_dvd_of_lt gap (by omega)
    omega

end Area

/-- The two memories agree at the positions `lo, …, hi - 1`. -/
def Area.Keeps (area : Area) (after before : Mem) (lo hi : Nat) : Prop :=
  ∀ pos, lo ≤ pos → pos < hi → after (area.spot pos) = before (area.spot pos)

namespace Area.Keeps

variable {area : Area} {after middle before : Mem} {lo hi : Nat}

/-- What is kept inside one block is kept as a range of places. -/
theorem agreeOn (buffered : area.Buffered) {pos size : Nat}
    (keeps : area.Keeps after before lo hi) (block : pos % undoAlign + size ≤ undoAlign)
    (lower : lo ≤ pos) (upper : pos + size ≤ hi) :
    Mem.AgreeOn after before (area.spot pos) (area.spot pos + size) := by
  intro address above below
  obtain ⟨index, rfl⟩ : ∃ index, address = area.spot pos + index :=
    ⟨address - area.spot pos, by omega⟩
  rw [← Area.spot_add buffered (show undoAlign ∣ bufsize by decide) (by omega)]
  exact keeps _ (by omega) (by omega)

/-- A write inside a block or buffer keeps all other positions of one lap. -/
theorem of_agree (buffered : area.Buffered) {unit pos size : Nat} (divides : unit ∣ bufsize)
    (block : pos % unit + size ≤ unit)
    (agree : ∀ lo hi, hi ≤ area.spot pos ∨ area.spot pos + size ≤ lo →
      Mem.AgreeOn after before lo hi)
    (apart : hi ≤ pos ∨ pos + size ≤ lo)
    (lap : pos + size ≤ lo + (area.allocOffset - undoBase))
    (lap' : hi ≤ pos + (area.allocOffset - undoBase)) : area.Keeps after before lo hi := by
  intro other above below
  by_cases outside : area.spot other < area.spot pos ∨ area.spot pos + size ≤ area.spot other
  · exact agree (area.spot other) (area.spot other + 1) (by omega) _ le_rfl (Nat.lt_succ_self _)
  · exfalso
    obtain ⟨index, reached⟩ : ∃ index, area.spot other = area.spot pos + index :=
      ⟨area.spot other - area.spot pos, by omega⟩
    have indexLt : index < size := by omega
    rw [← Area.spot_add buffered divides (by omega)] at reached
    have same := Area.spot_injective (by omega) (by omega) reached
    omega

end Area.Keeps

/-! ## Records behind one another -/

/-- From a position on the records lie behind one another; none that begins a block
is a PAD. -/
def Area.LaidFrom (area : Area) : Nat → List Record → Prop
  | _, [] => True
  | pos, record :: records =>
      Laid area.crc32 area.mem (area.spot pos) record ∧
        (pos % undoAlign = 0 → record.body ≠ .pad) ∧ area.LaidFrom (pos + record.size) records

namespace Area.LaidFrom

variable {area : Area} {pos : Nat} {records : List Record}

theorem append {more : List Record} (first : area.LaidFrom pos records)
    (second : area.LaidFrom (pos + total records) more) : area.LaidFrom pos (records ++ more) := by
  induction records generalizing pos with
  | nil => exact second
  | cons record records ih =>
      obtain ⟨laid, begins, rest⟩ := first
      rw [total_cons, ← Nat.add_assoc] at second
      exact ⟨laid, begins, ih rest second⟩

/-- Records survive a write that keeps their positions. -/
theorem keeps (buffered : area.Buffered) {mem : Mem} (laidFrom : area.LaidFrom pos records)
    {lo hi : Nat} (keeps : area.Keeps mem area.mem lo hi) (lower : lo ≤ pos)
    (upper : pos + total records ≤ hi) : Area.LaidFrom { area with mem } pos records := by
  induction records generalizing pos with
  | nil => trivial
  | cons record records ih =>
      obtain ⟨laid, begins, rest⟩ := laidFrom
      rw [total_cons] at upper
      have block := laid.block
      rw [Area.spot_mod_undoAlign buffered] at block
      exact ⟨laid.congr (keeps.agreeOn buffered block lower (by omega)), begins,
        ih rest (by omega) (by omega)⟩

/-- Every block the records reach begins with one that is no PAD. -/
theorem begins {block : Nat} (buffered : area.Buffered) (laidFrom : area.LaidFrom pos records)
    (lower : pos ≤ block) (upper : block < pos + total records) (start : block % undoAlign = 0) :
    ∃ record, (area.spot block, record) ∈ area.place (area.spot pos) records ∧
      record.body ≠ .pad := by
  induction records generalizing pos with
  | nil =>
      rw [total_nil] at upper
      omega
  | cons record records ih =>
      obtain ⟨laid, begins, rest⟩ := laidFrom
      rw [total_cons] at upper
      by_cases here : block = pos
      · subst here
        exact ⟨record, List.mem_cons_self .., begins start⟩
      · have fits := laid.block
        rw [Area.spot_mod_undoAlign buffered] at fits
        simp only [undoAlign] at fits start
        obtain ⟨found, member, noPad⟩ := ih rest (by omega) (by omega)
        refine ⟨found, ?_, noPad⟩
        rw [Area.place, Area.walk_spot]
        exact List.mem_cons_of_mem _ member

/-- No record crosses a block boundary. -/
theorem inBlock (laidFrom : area.LaidFrom pos records) :
    ∀ entry ∈ area.place (area.spot pos) records,
      entry.1 % undoAlign + entry.2.size ≤ undoAlign := by
  induction records generalizing pos with
  | nil => simp [Area.place]
  | cons record records ih =>
      obtain ⟨laid, _, rest⟩ := laidFrom
      intro entry member
      rw [Area.place, Area.walk_spot] at member
      rcases List.mem_cons.mp member with rfl | member
      · exact laid.block
      · exact ih rest entry member

/-- Both scanners read the records. -/
theorem chain (sane : area.Sane) (buffered : area.Buffered)
    (laidFrom : area.LaidFrom pos records) :
    Chain area (area.spot pos) records (area.spot (pos + total records)) := by
  induction records generalizing pos with
  | nil => exact .nil _
  | cons record records ih =>
      obtain ⟨laid, _, rest⟩ := laidFrom
      obtain ⟨lower, _⟩ := laid.size_bounds
      have inside := Area.spot_inside sane pos
      have block := laid.block
      rw [Area.spot_mod_undoAlign buffered] at block
      -- the last byte of the record is still inside the area
      have lastByte := Area.spot_add buffered (show undoAlign ∣ bufsize by decide)
        (show pos % undoAlign + (record.size - 1) < undoAlign by omega)
      have lastInside := Area.spot_inside sane (pos + (record.size - 1))
      have walkEq := @Area.walk_spot area pos record.size
      have next : area.walk (area.spot pos) record.size =
          if area.spot pos + record.size = area.allocOffset then undoBase
          else area.spot pos + record.size := by
        rcases Area.walk_cases inside (show record.size ≤ area.allocOffset - undoBase by
          unfold Area.Inside at inside lastInside
          omega) with ⟨below, same⟩ | ⟨above, same⟩
        · rw [if_neg (by omega), same]
        · unfold Area.Inside at inside lastInside
          rw [if_pos (by omega)]
          omega
      have ends := ih rest
      rw [total_cons, ← Nat.add_assoc]
      rw [← walkEq] at ends
      refine .cons inside (by omega) ?_ ?_ ?_ ends
      · unfold Area.Inside at lastInside
        omega
      · rw [next]
        exact laid.scanFwd inside.2.ne
      · refine laid.scanRev inside.1 ?_
        rw [next]
        unfold Area.Inside at inside
        split
        · next wraps => rw [if_pos rfl, wraps]
        · rw [if_neg (by omega)]

end Area.LaidFrom

end Dragonfly.Hammer.Fifo
