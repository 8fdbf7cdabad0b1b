import Mathlib
import Dragonfly.Net.Reass.Stream
import Dragonfly.Net.Sack.Model

/-!
# The blocks that are reported

While a segment is queued, `tcp_reass` notes what it will report: the segment or the part of it
that was there before, and the block that encloses it.  The notes are changed at five places,
beside the changes of the queue.
-/

namespace Dragonfly.Net.Reass

open Dragonfly.Lib.Seq Dragonfly.Net.Sack

variable {β : Type}

/-- The notes in `struct tcpcb`: `reportblk`, `encloseblk`, `TF_DUPSEG` and `TF_ENCLOSESEG`. -/
structure Report where
  reportblk : RawSackblock
  encloseblk : RawSackblock
  dupseg : Bool
  encloseseg : Bool

/-- The loop over the succeeding entries. -/
def trimNextReport (stop : BitVec 32) : List (TsegQent β) → Report → Report
  | [], report => report
  | q :: rest, report =>
      if (stop - q.seq).toInt ≤ 0 then report
      else
        let report :=
          if report.dupseg then report
          else
            { report with
              dupseg := true
              encloseseg := true
              encloseblk := report.reportblk
              reportblk.start := q.seq }
        let report :=
          if report.encloseseg && seqGt q.stop report.encloseblk.stop then { report with encloseblk.stop := q.stop }
          else report
        if (stop - q.seq).toInt < q.len then report else trimNextReport stop rest report

/-- The new entry is joined with the following one: `tend` is computed first. -/
def joinNextReport (te : TsegQent β) : List (TsegQent β) → Report → Report
  | [], report => report
  | q :: _, report =>
      if te.stop = q.seq then
        { report with
          encloseblk.stop := te.stop
          reportblk.stop := if report.dupseg then report.reportblk.stop else te.stop }
      else report

/-- The new entry is joined with the preceding one. -/
def joinPrevReport (p th : TsegQent β) (report : Report) : Report :=
  if p.stop = th.seq then
    { report with
      encloseblk.start := p.seq
      reportblk.start := if report.dupseg then report.reportblk.start else p.seq }
  else report

/-- Beside `place`. -/
def placeReport (front back : List (TsegQent β)) (th : TsegQent β) (report : Report) : Report :=
  let report := joinNextReport th (trimNext th.stop back 0).1 (trimNextReport th.stop back report)
  match front.getLast? with
  | none => report
  | some p => joinPrevReport p th report

/-- Beside `enqueue`. -/
def enqueueReport (segq : List (TsegQent β)) (th : TsegQent β) (report : Report) : Report :=
  let front := segq.takeWhile fun q => !seqGt q.seq th.seq
  let back := segq.dropWhile fun q => !seqGt q.seq th.seq
  match front.getLast? with
  | none => placeReport front back th report
  | some p =>
      let i := (p.stop - th.seq).toInt
      if 0 < i then
        let report := { report with dupseg := true, encloseseg := true, encloseblk.start := p.seq }
        if th.len ≤ i then { report with encloseblk.stop := p.stop }
        else
          let th := th.adj i.toNat
          placeReport front back th
            { report with
              encloseblk.stop := th.stop + BitVec.ofNat 32 th.fin.toNat
              reportblk.stop := th.seq }
      else placeReport front back th report

/-- Beside `present`. -/
def presentReport (tp : Tcpcb β) (report : Report) : Report :=
  if tcpsHaveestablished tp.state = false then report
  else
    match tp.segq with
    | [] => report
    | q :: _ =>
        if q.seq = tp.rcvNxt then
          { report with
            reportblk.start := if report.dupseg then report.reportblk.start else report.reportblk.stop
            encloseseg := false }
        else report

/-- Beside `tcp_reass` for a segment. -/
def tcpReassReport (maxseg : Int) (memory : Bool) (tp : Tcpcb β) (th : TsegQent β) (report : Report) : Report :=
  if refused maxseg memory tp th then { report with reportblk.start := report.reportblk.stop }
  else presentReport (enqueue tp th) (enqueueReport tp.segq th report)

/-- What `tcp_input` notes in front of `tcp_reass`, when no duplicate has been noted. -/
def reportOf (th : TsegQent β) (old : Report) : Report :=
  { old with reportblk := ⟨th.seq, th.stop + BitVec.ofNat 32 th.fin.toNat⟩ }

/-! ## The notes on pieces -/

/-- The notes as positions of the stream.  The enclosing block is noted for duplicates only. -/
structure Blocks where
  dup : Bool
  report : Nat × Nat
  enclose : Nat × Nat

/-- The notes for a segment that begins behind the pieces in front: `start` is where the block of
the segment begins. -/
def openBlocks (start hi : Nat) (back : List Piece) : Blocks :=
  match back.head? with
  | none => ⟨false, (start, hi), (start, hi)⟩
  | some q => if q.lo < hi then ⟨true, (q.lo, hi), (start, hi)⟩ else ⟨false, (start, hi), (start, hi)⟩

/-- The notes for a segment. -/
def blocksP (pieces : List Piece) (lo hi : Nat) : Blocks :=
  let front := pieces.takeWhile fun q => decide (q.lo ≤ lo)
  let back := pieces.dropWhile fun q => decide (q.lo ≤ lo)
  match front.getLast? with
  | none => openBlocks lo hi back
  | some p =>
      if lo < p.hi then
        if hi ≤ p.hi then ⟨true, (lo, hi), (p.lo, p.hi)⟩ else ⟨true, (lo, p.hi), (p.lo, hi)⟩
      else openBlocks (if p.hi = lo then p.lo else lo) hi back

/-- A block of positions as sequence numbers. -/
def rawBlock (iss : BitVec 32) (block : Nat × Nat) : RawSackblock := ⟨point iss block.1, point iss block.2⟩

/-- The notes are the blocks. -/
structure Shows (iss : BitVec 32) (blocks : Blocks) (report : Report) : Prop where
  dupseg : report.dupseg = blocks.dup
  reportblk : report.reportblk = rawBlock iss blocks.report
  encloseseg : blocks.dup = true → report.encloseseg = true
  encloseblk : blocks.dup = true → report.encloseblk = rawBlock iss blocks.enclose

variable {iss : BitVec 32} {str : List β} {piece p q te : Piece} {front back rest pieces : List Piece} {n x lo hi start : Nat}
  {report : Report}

theorem joinNextReport_same {te : TsegQent β} (enclose : report.encloseblk.stop = te.stop)
    (plain : report.dupseg = false → report.reportblk.stop = te.stop) (back : List (TsegQent β)) :
    joinNextReport te back report = report := by
  obtain ⟨⟨start, stop⟩, ⟨start', stop'⟩, dup, encloses⟩ := report
  cases back with
  | nil => rfl
  | cons q rest =>
      obtain rfl : stop' = te.stop := enclose
      rw [joinNextReport]
      cases dup with
      | false =>
          obtain rfl : stop = te.stop := plain rfl
          split
          · rfl
          · rfl
      | true =>
          split
          · rfl
          · rfl

/-- The entries that overlap a segment leave the notes of a duplicate alone, once they have been
joined with it: the end of the enclosing block is set back to the end of the segment. -/
theorem nextReport_of_dup (near : ∀ q ∈ back, Near n q) (mine : Near n piece) (dup : report.dupseg = true)
    (enclose : report.encloseseg = true) (stop : report.encloseblk.stop = point iss piece.hi) :
    joinNextReport (slice iss str piece) ((trimP piece.hi back).map (slice iss str))
      (trimNextReport (point iss piece.hi) (back.map (slice iss str)) report) = report := by
  obtain ⟨start, wide, ends⟩ := mine
  have stop' : report.encloseblk.stop = (slice iss str piece).stop := by rw [slice_stop wide, stop]
  have same := fun back => @joinNextReport_same β report _ stop' (fun plain => absurd dup (by rw [plain]; decide)) back
  induction back with
  | nil => rfl
  | cons q rest ih =>
      obtain ⟨qStart, qWide, qEnds⟩ := near q List.mem_cons_self
      have diff : (point iss piece.hi - (slice iss str q).seq).toInt = (piece.hi : Int) - q.lo :=
        toInt_point_sub (by omega) (by omega)
      have length : ((slice iss str q).len : Int) = q.hi - q.lo := by
        show ((q.hi - q.lo : Nat) : Int) = _
        omega
      have longer : seqGt (slice iss str q).stop report.encloseblk.stop = true ↔ piece.hi < q.hi := by
        rw [slice_stop qWide, stop]
        exact seqGt_point (by omega) (by omega)
      rw [List.map_cons, trimNextReport, trimP, diff]
      by_cases beyond : piece.hi ≤ q.lo
      · rw [if_pos (by omega : (piece.hi : Int) - q.lo ≤ 0), if_pos beyond]
        exact same _
      · rw [if_neg (by omega : ¬(piece.hi : Int) - q.lo ≤ 0), if_neg beyond]
        simp only [dup, enclose, if_true, Bool.true_and, longer, length]
        by_cases partly : piece.hi < q.hi
        · have cut : (piece.hi : Int) - q.lo < q.hi - q.lo := by omega
          have meets : (slice iss str piece).stop = (slice iss str { q with lo := piece.hi }).seq := slice_stop wide
          have reset := same (slice iss str { q with lo := piece.hi } :: rest.map (slice iss str))
          rw [joinNextReport, if_pos meets] at reset
          rw [if_pos partly, if_pos partly, if_pos cut, List.map_cons, joinNextReport, if_pos meets]
          simp only [dup, enclose, if_true] at reset ⊢
          exact reset
        · have gone : ¬(piece.hi : Int) - q.lo < q.hi - q.lo := by omega
          rw [if_neg partly, if_neg partly, if_neg gone]
          exact ih fun p member => near p (List.mem_cons_of_mem _ member)

/-- The first entry that overlaps makes the segment a duplicate. -/
theorem trimNextReport_first {stop : BitVec 32} {q : TsegQent β} {rest : List (TsegQent β)}
    (overlaps : ¬(stop - q.seq).toInt ≤ 0) (plain : report.dupseg = false) :
    trimNextReport stop (q :: rest) report =
      trimNextReport stop (q :: rest) ⟨⟨q.seq, report.reportblk.stop⟩, report.reportblk, true, true⟩ := by
  rw [trimNextReport, trimNextReport, if_neg overlaps, if_neg overlaps]
  simp only [plain, Bool.false_eq_true, if_false, if_true]

/-- The notes of a segment that begins behind the pieces in front, once it is joined with what
follows. -/
theorem nextReport_open (near : ∀ q ∈ back, Near n q) (mine : Near n piece) (plain : report.dupseg = false)
    (block : report.reportblk = rawBlock iss (piece.lo, piece.hi)) :
    Shows iss (openBlocks piece.lo piece.hi back)
      (joinNextReport (slice iss str piece) ((trimP piece.hi back).map (slice iss str))
        (trimNextReport (point iss piece.hi) (back.map (slice iss str)) report)) := by
  obtain ⟨start, wide, ends⟩ := mine
  have stop : report.reportblk.stop = point iss piece.hi := by rw [block]; rfl
  cases back with
  | nil => exact ⟨plain, block, (by rintro ⟨⟩), (by rintro ⟨⟩)⟩
  | cons q rest =>
      obtain ⟨qStart, qWide, qEnds⟩ := near q List.mem_cons_self
      have diff : (point iss piece.hi - (slice iss str q).seq).toInt = (piece.hi : Int) - q.lo :=
        toInt_point_sub (by omega) (by omega)
      rw [openBlocks, List.head?_cons]
      by_cases overlaps : q.lo < piece.hi
      · have first := @trimNextReport_first β report _ (slice iss str q) (rest.map (slice iss str))
          (by rw [diff]; omega) plain
        rw [List.map_cons, first, ← List.map_cons, nextReport_of_dup near ⟨start, wide, ends⟩ rfl rfl stop]
        simp only [if_pos overlaps]
        refine ⟨rfl, ?_, fun _ => rfl, fun _ => block⟩
        rw [stop]
        rfl
      · simp only [if_neg overlaps]
        rw [List.map_cons, trimNextReport, diff, if_pos (by omega), trimP, if_pos (by omega), List.map_cons, joinNextReport]
        split
        · refine ⟨plain, ?_, (by rintro ⟨⟩), (by rintro ⟨⟩)⟩
          simp only [plain, Bool.false_eq_true, if_false, slice_stop wide, block]
          rfl
        · exact ⟨plain, block, (by rintro ⟨⟩), (by rintro ⟨⟩)⟩

/-- The join with the preceding entry moves the start. -/
theorem joinPrevReport_open {start' : Nat} (shows' : Shows iss (openBlocks start hi back) report)
    (wide : p.lo ≤ p.hi) (meets : p.hi = te.lo) (moved : start' = p.lo) :
    Shows iss (openBlocks start' hi back) (joinPrevReport (slice iss str p) (slice iss str te) report) := by
  have meet : (slice iss str p).stop = (slice iss str te).seq := by
    rw [slice_stop wide, meets]
    rfl
  rw [joinPrevReport, if_pos meet, moved]
  cases back with
  | nil =>
      obtain ⟨dup, block, -, -⟩ := shows'
      have plain : report.dupseg = false := dup
      refine ⟨dup, ?_, nofun, nofun⟩
      simp only [plain, Bool.false_eq_true, if_false, block]
      rfl
  | cons q rest =>
      by_cases overlaps : q.lo < hi
      · simp only [openBlocks, List.head?_cons, if_pos overlaps] at shows' ⊢
        obtain ⟨dup, block, enclose, outer⟩ := shows'
        refine ⟨dup, ?_, enclose, fun is => ?_⟩
        · simp only [dup, if_true]
          exact block
        · rw [outer is]
          rfl
      · simp only [openBlocks, List.head?_cons, if_neg overlaps] at shows' ⊢
        obtain ⟨dup, block, -, -⟩ := shows'
        refine ⟨dup, ?_, nofun, nofun⟩
        simp only [dup, Bool.false_eq_true, if_false, block]
        rfl

/-- Where the block of a segment begins that no entry in front overlaps. -/
def startOf (front : List Piece) (lo : Nat) : Nat :=
  match front.getLast? with
  | none => lo
  | some p => if p.hi = lo then p.lo else lo

theorem placeReport_open (nearFront : ∀ q ∈ front, Near n q) (nearBack : ∀ q ∈ back, Near n q) (mine : Near n piece)
    (plain : report.dupseg = false) (block : report.reportblk = rawBlock iss (piece.lo, piece.hi)) :
    Shows iss (openBlocks (startOf front piece.lo) piece.hi back)
      (placeReport (front.map (slice iss str)) (back.map (slice iss str)) (slice iss str piece) report) := by
  obtain ⟨start, wide, ends⟩ := mine
  have next := @nextReport_open β iss str piece back n report nearBack ⟨start, wide, ends⟩ plain block
  rw [placeReport, slice_stop wide, trimNext_slice nearBack (by omega) ends, startOf, List.getLast?_map]
  cases last : front.getLast? with
  | none => exact next
  | some p =>
      obtain ⟨pStart, pWide, pEnds⟩ := nearFront p (List.mem_of_getLast? last)
      simp only [Option.map_some]
      by_cases meets : p.hi = piece.lo
      · exact joinPrevReport_open next pWide meets (if_pos meets)
      · have apart : ¬(slice iss str p).stop = (slice iss str piece).seq := by
          rw [slice_stop pWide]
          exact (point_inj (by omega) (by omega)).not.mpr meets
        rw [if_neg meets, joinPrevReport, if_neg apart]
        exact next

/-- The notes of a duplicate whose front has been trimmed stay. -/
theorem placeReport_dup (nearBack : ∀ q ∈ back, Near n q) (mine : Near n piece) (last : front.getLast? = some p)
    (wide : p.lo ≤ p.hi) (meets : p.hi = piece.lo) (dup : report.dupseg = true) (enclose : report.encloseseg = true)
    (start : report.encloseblk.start = point iss p.lo) (stop : report.encloseblk.stop = point iss piece.hi) :
    placeReport (front.map (slice iss str)) (back.map (slice iss str)) (slice iss str piece) report = report := by
  have low := mine.1
  have proper := mine.2.1
  have high := mine.2.2
  have meet : (slice iss str p).stop = (slice iss str piece).seq := by
    rw [slice_stop wide, meets]
    rfl
  rw [placeReport, slice_stop proper, trimNext_slice nearBack (by omega) high, List.getLast?_map, last]
  simp only [Option.map_some]
  rw [nextReport_of_dup nearBack mine dup enclose stop, joinPrevReport, if_pos meet, dup, if_pos rfl]
  obtain ⟨block, ⟨a, b⟩, isDup, isEnclose⟩ := report
  obtain rfl : a = point iss p.lo := start
  obtain rfl : isDup = true := dup
  rfl

/-- The notes are the blocks of the positions. -/
theorem enqueueReport_blocks (near : ∀ q ∈ pieces, Near n q) (mine : Near n piece) (fin : piece.fin = false)
    (plain : report.dupseg = false) (block : report.reportblk = rawBlock iss (piece.lo, piece.hi)) :
    Shows iss (blocksP pieces piece.lo piece.hi)
      (enqueueReport (pieces.map (slice iss str)) (slice iss str piece) report) := by
  obtain ⟨start, wide, ends⟩ := mine
  have same : ∀ q ∈ pieces, (!seqGt (slice iss str q).seq (slice iss str piece).seq) = decide (q.lo ≤ piece.lo) := by
    intro q member
    obtain ⟨qStart, qWide, qEnds⟩ := near q member
    rw [Bool.eq_iff_iff, Bool.not_eq_true', ← Bool.not_eq_true, decide_eq_true_iff]
    rw [show seqGt (slice iss str q).seq (slice iss str piece).seq = true ↔ piece.lo < q.lo from
      seqGt_point (by omega) (by omega)]
    omega
  obtain ⟨taken, dropped⟩ := span_congr same
  have nearFront : ∀ q ∈ pieces.takeWhile fun q => decide (q.lo ≤ piece.lo), Near n q :=
    fun q member => near q ((List.takeWhile_sublist _).subset member)
  have nearBack : ∀ q ∈ pieces.dropWhile fun q => decide (q.lo ≤ piece.lo), Near n q :=
    fun q member => near q ((List.dropWhile_sublist _).subset member)
  rw [enqueueReport, blocksP]
  simp only [List.takeWhile_map, List.dropWhile_map, Function.comp_def, taken, dropped, List.getLast?_map]
  generalize pieces.takeWhile (fun q => decide (q.lo ≤ piece.lo)) = front at *
  generalize pieces.dropWhile (fun q => decide (q.lo ≤ piece.lo)) = back at *
  have opened := @placeReport_open β iss str piece front back n report nearFront nearBack ⟨start, wide, ends⟩ plain block
  rw [startOf] at opened
  cases last : front.getLast? with
  | none =>
      rw [last] at opened
      exact opened
  | some p =>
      rw [last] at opened
      obtain ⟨pStart, pWide, pEnds⟩ := nearFront p (List.mem_of_getLast? last)
      have diff : ((slice iss str p).stop - (slice iss str piece).seq).toInt = (p.hi : Int) - piece.lo := by
        rw [slice_stop pWide]
        exact toInt_point_sub (by omega) (by omega)
      have length : ((slice iss str piece).len : Int) = piece.hi - piece.lo := by
        show ((piece.hi - piece.lo : Nat) : Int) = _
        omega
      simp only [Option.map_some, diff, length]
      by_cases overlap : piece.lo < p.hi
      · have positive : 0 < (p.hi : Int) - piece.lo := by omega
        rw [if_pos overlap, if_pos positive]
        by_cases enclosed : piece.hi ≤ p.hi
        · have short : (piece.hi : Int) - piece.lo ≤ p.hi - piece.lo := by omega
          rw [if_pos enclosed, if_pos short, slice_stop pWide]
          exact ⟨rfl, block, fun _ => rfl, fun _ => rfl⟩
        · have long : ¬(piece.hi : Int) - piece.lo ≤ p.hi - piece.lo := by omega
          have cut : piece.lo + ((p.hi : Int) - piece.lo).toNat = p.hi := by omega
          have shorter : Near n { piece with lo := p.hi } :=
            ⟨show n ≤ p.hi by omega, show p.hi ≤ piece.hi by omega, ends⟩
          have stop : (slice iss str { piece with lo := p.hi }).stop = point iss piece.hi := slice_stop shorter.2.1
          have stopFin : (slice iss str { piece with lo := p.hi }).stop +
              BitVec.ofNat 32 (slice iss str { piece with lo := p.hi }).fin.toNat = point iss piece.hi := by
            rw [stop, show (slice iss str { piece with lo := p.hi }).fin = false from fin]
            exact BitVec.add_zero _
          rw [if_neg enclosed, if_neg long, slice_adj, cut, stopFin,
            placeReport_dup nearBack shorter last pWide rfl rfl rfl rfl rfl]
          refine ⟨rfl, ?_, fun _ => rfl, fun _ => rfl⟩
          rw [block]
          rfl
      · have negative : ¬0 < (p.hi : Int) - piece.lo := by omega
        rw [if_neg overlap, if_neg negative]
        exact opened

end Dragonfly.Net.Reass
