import Mathlib
import Dragonfly.Net.Reass.Report

/-!
# What is reported

The block that should be reported is a maximal block of queued data, or a range that was there
before.  The notes of `tcp_reass` show it exactly if the segment is inside one entry, or if no
entry has the byte behind the segment and the overlapped part is not cut short.
-/

namespace Dragonfly.Net.Reass

open Dragonfly.Lib.Seq Dragonfly.Net.Sack

variable {β : Type}

/-! ## The data of a queue do not matter -/

/-- An entry without its data. -/
def TsegQent.bare (q : TsegQent β) : TsegQent β := { q with m := [] }

@[simp]
theorem bare_seq (q : TsegQent β) : q.bare.seq = q.seq := rfl

@[simp]
theorem bare_len (q : TsegQent β) : q.bare.len = q.len := rfl

@[simp]
theorem bare_stop (q : TsegQent β) : q.bare.stop = q.stop := rfl

@[simp]
theorem bare_fin (q : TsegQent β) : q.bare.fin = q.fin := rfl

theorem bare_adj (q : TsegQent β) (i : Nat) : (q.adj i).bare = q.bare.adj i := by
  simp [TsegQent.bare, TsegQent.adj]

theorem bare_trimNext (stop : BitVec 32) (back : List (TsegQent β)) (qsize : Int) :
    trimNext stop (back.map TsegQent.bare) qsize =
      ((trimNext stop back qsize).1.map TsegQent.bare, (trimNext stop back qsize).2) := by
  induction back generalizing qsize with
  | nil => rfl
  | cons q rest ih =>
      rw [List.map_cons, trimNext, trimNext, bare_seq, bare_len]
      split
      · rfl
      · split
        · rw [← bare_adj]
          rfl
        · exact ih (qsize - 1)

theorem bare_joinNext (te : TsegQent β) (back : List (TsegQent β)) (qsize : Int) :
    joinNext te.bare (back.map TsegQent.bare) qsize =
      ((joinNext te back qsize).1.bare, (joinNext te back qsize).2.1.map TsegQent.bare, (joinNext te back qsize).2.2) := by
  cases back with
  | nil => rfl
  | cons q rest =>
      rw [List.map_cons, joinNext, joinNext, bare_stop, bare_seq]
      split
      · rfl
      · rfl

/-- The queue of a connection without the data. -/
def Tcpcb.bare (tp : Tcpcb β) : Tcpcb β := { tp with segq := tp.segq.map TsegQent.bare }

@[simp]
theorem bare_segq (tp : Tcpcb β) : tp.bare.segq = tp.segq.map TsegQent.bare := rfl

theorem bare_place (tp : Tcpcb β) (front back : List (TsegQent β)) (th : TsegQent β) :
    place tp.bare (front.map TsegQent.bare) (back.map TsegQent.bare) th.bare = (place tp front back th).bare := by
  rw [place, place, bare_stop, show tp.bare.qsize = tp.qsize from rfl, bare_trimNext]
  simp only
  rw [bare_joinNext, List.getLast?_map]
  cases front.getLast? with
  | none => rfl
  | some p =>
      simp only [Option.map_some]
      by_cases meet : p.stop = th.seq
      · rw [if_pos meet, if_pos (show p.bare.stop = th.bare.seq from meet)]
        simp only [Tcpcb.bare, List.map_append, List.map_cons, List.map_dropLast]
        rfl
      · rw [if_neg meet, if_neg (show ¬p.bare.stop = th.bare.seq from meet)]
        simp only [Tcpcb.bare, List.map_append, List.map_cons]

theorem bare_enqueue (tp : Tcpcb β) (th : TsegQent β) : enqueue tp.bare th.bare = (enqueue tp th).bare := by
  rw [enqueue, enqueue]
  simp only [bare_segq, List.takeWhile_map, List.dropWhile_map, Function.comp_def, bare_seq, List.getLast?_map]
  generalize tp.segq.takeWhile (fun q => !seqGt q.seq th.seq) = front
  generalize tp.segq.dropWhile (fun q => !seqGt q.seq th.seq) = back
  have placed := bare_place { tp with qsize := tp.qsize + 1 } front back
  cases front.getLast? with
  | none => exact placed th
  | some p =>
      simp only [Option.map_some]
      by_cases overlap : 0 < (p.stop - th.seq).toInt
      · rw [if_pos overlap, if_pos (show 0 < (p.bare.stop - th.seq).toInt from overlap)]
        by_cases enclosed : th.len ≤ (p.stop - th.seq).toInt
        · rw [if_pos enclosed, if_pos (show th.bare.len ≤ (p.bare.stop - th.seq).toInt from enclosed)]
          rfl
        · rw [if_neg enclosed, if_neg (show ¬th.bare.len ≤ (p.bare.stop - th.seq).toInt from enclosed), ← bare_adj]
          exact placed _
      · rw [if_neg overlap, if_neg (show ¬0 < (p.bare.stop - th.seq).toInt from overlap)]
        exact placed th

theorem bare_trimNextReport (stop : BitVec 32) (back : List (TsegQent β)) (report : Report) :
    trimNextReport stop (back.map TsegQent.bare) report = trimNextReport stop back report := by
  induction back generalizing report with
  | nil => rfl
  | cons q rest ih =>
      rw [List.map_cons, trimNextReport, trimNextReport]
      simp only [ih]
      rfl

theorem bare_joinNextReport (te : TsegQent β) (back : List (TsegQent β)) (report : Report) :
    joinNextReport te.bare (back.map TsegQent.bare) report = joinNextReport te back report := by
  cases back with
  | nil => rfl
  | cons q rest => rfl

theorem bare_placeReport (front back : List (TsegQent β)) (th : TsegQent β) (report : Report) :
    placeReport (front.map TsegQent.bare) (back.map TsegQent.bare) th.bare report = placeReport front back th report := by
  rw [placeReport, placeReport, bare_stop, bare_trimNext, bare_trimNextReport, List.getLast?_map]
  simp only [bare_joinNextReport]
  cases front.getLast? with
  | none => rfl
  | some p => rfl

theorem bare_enqueueReport (segq : List (TsegQent β)) (th : TsegQent β) (report : Report) :
    enqueueReport (segq.map TsegQent.bare) th.bare report = enqueueReport segq th report := by
  rw [enqueueReport, enqueueReport]
  simp only [List.takeWhile_map, List.dropWhile_map, Function.comp_def, bare_seq, List.getLast?_map]
  generalize segq.takeWhile (fun q => !seqGt q.seq th.seq) = front
  generalize segq.dropWhile (fun q => !seqGt q.seq th.seq) = back
  cases front.getLast? with
  | none => exact bare_placeReport front back th report
  | some p =>
      simp only [Option.map_some, bare_stop, bare_seq, bare_len, ← bare_adj, bare_placeReport, bare_fin]

/-! ## The blocks of a queue -/

/-- A block of a queue that contains a segment, with nothing queued on either side of it. -/
structure Maximal (pieces : List Piece) (lo hi : Nat) (block : Nat × Nat) : Prop where
  low : block.1 ≤ lo
  high : hi ≤ block.2
  covered : ∀ x, block.1 ≤ x → x < block.2 → Covered pieces x
  ends : ¬Covered pieces block.2
  starts : ∀ x, x + 1 = block.1 → ¬Covered pieces x

/-- What should be reported for a segment: the queue was `pieces` and is `pieces'` with it. -/
structure Right (iss : BitVec 32) (pieces pieces' : List Piece) (lo hi : Nat) (report : Report) : Prop where
  alone : (∀ x, lo ≤ x → x < hi → ¬Covered pieces x) →
    ∃ block, report.reportblk = rawBlock iss block ∧ Maximal pieces' lo hi block
  again : (∃ x, lo ≤ x ∧ x < hi ∧ Covered pieces x) →
    report.dupseg = true ∧ report.encloseseg = true ∧
      (∃ block, report.reportblk = rawBlock iss block ∧ block.1 < block.2 ∧
        ∀ x, block.1 ≤ x → x < block.2 → lo ≤ x ∧ x < hi ∧ Covered pieces x) ∧
      ∃ block, report.encloseblk = rawBlock iss block ∧ Maximal pieces' lo hi block

/-- The segment is inside one entry; or no entry has the byte behind the segment, and either the
first byte of the segment was there before or no entry ends inside the segment. -/
def Good (pieces : List Piece) (lo hi : Nat) : Prop :=
  (∃ q ∈ pieces, q.lo ≤ lo ∧ hi ≤ q.hi) ∨
    ¬Covered pieces hi ∧ (Covered pieces lo ∨ ∀ q ∈ pieces, lo < q.lo → q.lo < hi → hi ≤ q.hi)

variable {iss : BitVec 32} {piece p q : Piece} {pieces pieces' front back : List Piece} {n x lo hi start : Nat}
  {block block' : Nat × Nat} {report : Report}

/-- Two entries that touch are one. -/
theorem Separate.same (separate : Separate pieces) (pMem : p ∈ pieces) (qMem : q ∈ pieces) (left : p.lo ≤ q.hi)
    (right : q.lo ≤ p.hi) : p = q := by
  by_contra other
  have apart : pieces.Pairwise fun p q => p.hi < q.lo ∨ q.hi < p.lo := separate.order.imp Or.inl
  have symm : Std.Symm fun p q : Piece => p.hi < q.lo ∨ q.hi < p.lo := ⟨fun _ _ => Or.symm⟩
  obtain before | behind := apart.forall pMem qMem other
  · omega
  · omega

/-- The queue with the segment. -/
def Union (pieces pieces' : List Piece) (lo hi : Nat) : Prop :=
  ∀ x, Covered pieces' x ↔ Covered pieces x ∨ (lo ≤ x ∧ x < hi)

/-- What is queued in front of the segment, from the start of its block on. -/
structure Before (pieces : List Piece) (lo start : Nat) : Prop where
  low : start ≤ lo
  covered : ∀ x, start ≤ x → x < lo → Covered pieces x
  starts : ∀ x, x + 1 = start → ¬Covered pieces x

/-- Nothing touches an entry from the left. -/
theorem Separate.starts (separate : Separate pieces) (pMem : p ∈ pieces) : ∀ x, x + 1 = p.lo → ¬Covered pieces x := by
  rintro x next ⟨q, member, low, high⟩
  have wide := separate.proper p pMem
  have same := separate.same pMem member (by omega) (by omega)
  subst same
  omega

/-- Nothing touches an entry from the right. -/
theorem Separate.ends (separate : Separate pieces) (pMem : p ∈ pieces) : ¬Covered pieces p.hi := by
  rintro ⟨q, member, low, high⟩
  have wide := separate.proper p pMem
  have same := separate.same pMem member (by omega) (by omega)
  subst same
  omega

/-- The block from the start to the end of the segment is maximal unless an entry has the byte
behind it. -/
theorem Before.maximal_iff (before : Before pieces lo start) (union : Union pieces pieces' lo hi) :
    Maximal pieces' lo hi (start, hi) ↔ ¬Covered pieces hi := by
  obtain ⟨low, covered, starts⟩ := before
  constructor
  · intro maximal behind
    exact maximal.ends ((union hi).mpr (.inl behind))
  · intro clear
    constructor
    · exact low
    · exact le_refl hi
    · intro x left right
      have left : start ≤ x := left
      have right : x < hi := right
      apply (union x).mpr
      by_cases inside : lo ≤ x
      · exact .inr ⟨inside, right⟩
      · exact .inl (covered x left (by omega))
    · intro behind
      obtain old | new := (union hi).mp behind
      · exact clear old
      · omega
    · intro x next behind
      have next : x + 1 = start := next
      obtain old | new := (union x).mp behind
      · exact starts x next old
      · omega

/-- The block of an entry is maximal. -/
theorem Separate.maximal (separate : Separate pieces) (pMem : p ∈ pieces) (low : p.lo ≤ lo) (high : hi ≤ p.hi)
    (union : Union pieces pieces' lo hi) : Maximal pieces' lo hi (p.lo, p.hi) where
  low := low
  high := high
  covered x left right := (union x).mpr (.inl ⟨p, pMem, left, right⟩)
  ends behind := by
    obtain old | new := (union p.hi).mp behind
    · exact separate.ends pMem old
    · omega
  starts x next behind := by
    have next : x + 1 = p.lo := next
    obtain old | new := (union x).mp behind
    · exact separate.starts pMem x next old
    · omega

theorem rawBlock_inj (low : n ≤ block.1) (wide : block.1 ≤ block.2) (high : block.2 < n + 2 ^ 31)
    (low' : n ≤ block'.1) (wide' : block'.1 ≤ block'.2) (high' : block'.2 < n + 2 ^ 31)
    (same : rawBlock iss block = rawBlock iss block') : block = block' := by
  have left := (point_inj (by omega) (by omega)).mp (congrArg RawSackblock.start same)
  have right := (point_inj (by omega) (by omega)).mp (congrArg RawSackblock.stop same)
  exact Prod.ext left right

/-- The queue is ahead of a position. -/
def Within (n : Nat) (pieces : List Piece) : Prop := ∀ x, Covered pieces x → n ≤ x ∧ x + 1 < n + 2 ^ 31

theorem Maximal.within (maximal : Maximal pieces lo hi block) (wide : lo < hi) (within : Within n pieces) :
    n ≤ block.1 ∧ block.1 ≤ block.2 ∧ block.2 < n + 2 ^ 31 := by
  have low := maximal.low
  have high := maximal.high
  have first := within _ (maximal.covered block.1 (le_refl _) (by omega))
  have last := within _ (maximal.covered (block.2 - 1) (by omega) (by omega))
  omega

/-- What is noted in front of every case: the queue, the segment and the queue with it. -/
structure Setting (n : Nat) (pieces pieces' : List Piece) (lo hi : Nat) : Prop where
  separate : Separate pieces
  within : Within n pieces
  low : n ≤ lo
  wide : lo < hi
  high : hi < n + 2 ^ 31
  union : Union pieces pieces' lo hi

theorem Setting.within' (setting : Setting n pieces pieces' lo hi) : Within n pieces' := by
  intro x covered
  have low := setting.low
  have high := setting.high
  obtain old | new := (setting.union x).mp covered
  · exact setting.within x old
  · omega

/-- A block that is shown is the maximal one if and only if it is maximal. -/
theorem Setting.shown_iff (setting : Setting n pieces pieces' lo hi) (low : n ≤ block.1) (wide : block.1 ≤ block.2)
    (high : block.2 < n + 2 ^ 31) :
    (∃ block', rawBlock iss block = rawBlock iss block' ∧ Maximal pieces' lo hi block') ↔ Maximal pieces' lo hi block := by
  constructor
  · rintro ⟨block', same, maximal⟩
    obtain ⟨low', wide', high'⟩ := maximal.within setting.wide setting.within'
    rw [rawBlock_inj low wide high low' wide' high' same]
    exact maximal
  · intro maximal
    exact ⟨block, rfl, maximal⟩

/-- The start of a block in front of the segment is ahead of the position. -/
theorem Before.start_le (before : Before pieces lo start) (within : Within n pieces) (low : n ≤ lo) : n ≤ start := by
  by_cases same : start = lo
  · omega
  · have first := before.low
    exact (within start (before.covered start (le_refl _) (by omega))).1

/-- The segment is inside an entry. -/
theorem Setting.right_inside (setting : Setting n pieces pieces' lo hi) (pMem : p ∈ pieces) (low : p.lo ≤ lo)
    (high : hi ≤ p.hi) (shows' : Shows iss ⟨true, (lo, hi), (p.lo, p.hi)⟩ report) : Right iss pieces pieces' lo hi report := by
  have wide := setting.wide
  constructor
  · intro alone
    exact absurd ⟨p, pMem, low, by omega⟩ (alone lo (le_refl lo) wide)
  · intro _
    refine ⟨shows'.dupseg, shows'.encloseseg rfl, ⟨(lo, hi), shows'.reportblk, wide, ?_⟩,
      (p.lo, p.hi), shows'.encloseblk rfl, setting.separate.maximal pMem low high setting.union⟩
    intro x left right
    have left : lo ≤ x := left
    have right : x < hi := right
    exact ⟨left, right, p, pMem, by omega, by omega⟩

/-- The segment begins in an entry and goes on behind it. -/
theorem Setting.right_partly (setting : Setting n pieces pieces' lo hi) (pMem : p ∈ pieces) (low : p.lo ≤ lo)
    (overlap : lo < p.hi) (ends : p.hi < hi) (shows' : Shows iss ⟨true, (lo, p.hi), (p.lo, hi)⟩ report) :
    Right iss pieces pieces' lo hi report ↔ ¬Covered pieces hi := by
  have before : Before pieces lo p.lo :=
    ⟨low, fun x left right => ⟨p, pMem, left, by omega⟩, setting.separate.starts pMem⟩
  have first := before.start_le setting.within setting.low
  have shown := @Setting.shown_iff iss _ _ _ _ _ (p.lo, hi) setting first (show p.lo ≤ hi by omega) setting.high
  have maximal := before.maximal_iff setting.union
  have enclose : report.encloseblk = rawBlock iss (p.lo, hi) := shows'.encloseblk rfl
  constructor
  · intro right
    obtain ⟨-, -, -, outer⟩ := right.again ⟨lo, le_refl lo, setting.wide, p, pMem, low, overlap⟩
    rw [enclose] at outer
    exact maximal.mp (shown.mp outer)
  · intro clear
    constructor
    · intro alone
      exact absurd ⟨p, pMem, low, overlap⟩ (alone lo (le_refl lo) setting.wide)
    · intro _
      refine ⟨shows'.dupseg, shows'.encloseseg rfl, ⟨(lo, p.hi), shows'.reportblk, overlap, ?_⟩,
        (p.lo, hi), enclose, maximal.mpr clear⟩
      intro x left right
      have left : lo ≤ x := left
      have right : x < p.hi := right
      exact ⟨left, by omega, p, pMem, by omega, right⟩

/-- No entry has the first byte of the segment, and none begins in it. -/
theorem Setting.right_apart (setting : Setting n pieces pieces' lo hi) (before : Before pieces lo start)
    (clear : ∀ x, lo ≤ x → x < hi → ¬Covered pieces x) (block : report.reportblk = rawBlock iss (start, hi)) :
    Right iss pieces pieces' lo hi report ↔ ¬Covered pieces hi := by
  have first := before.start_le setting.within setting.low
  have low := before.low
  have wide := setting.wide
  have shown := @Setting.shown_iff iss _ _ _ _ _ (start, hi) setting first (show start ≤ hi by omega) setting.high
  have maximal := before.maximal_iff setting.union
  constructor
  · intro right
    have whole := right.alone clear
    rw [block] at whole
    exact maximal.mp (shown.mp whole)
  · intro behind
    constructor
    · intro _
      exact ⟨_, block, maximal.mpr behind⟩
    · rintro ⟨x, left, right, covered⟩
      exact absurd covered (clear x left right)

/-- An entry begins in the segment: what is reported goes from its start to the end of the
segment. -/
theorem Setting.right_next (setting : Setting n pieces pieces' lo hi) (before : Before pieces lo start) (qMem : q ∈ pieces)
    (begins : lo < q.lo) (inside : q.lo < hi) (least : ∀ p ∈ pieces, lo < p.lo → q.lo ≤ p.lo)
    (shows' : Shows iss ⟨true, (q.lo, hi), (start, hi)⟩ report) :
    Right iss pieces pieces' lo hi report ↔
      ¬Covered pieces hi ∧ ∀ p ∈ pieces, lo < p.lo → p.lo < hi → hi ≤ p.hi := by
  have first := before.start_le setting.within setting.low
  have low := before.low
  have lowest := setting.low
  have wide := setting.wide
  have high := setting.high
  have shown := @Setting.shown_iff iss _ _ _ _ _ (start, hi) setting first (show start ≤ hi by omega) high
  have maximal := before.maximal_iff setting.union
  have enclose : report.encloseblk = rawBlock iss (start, hi) := shows'.encloseblk rfl
  have noted : report.reportblk = rawBlock iss (q.lo, hi) := shows'.reportblk
  constructor
  · intro right
    by_cases overlap : ∃ x, lo ≤ x ∧ x < hi ∧ Covered pieces x
    · obtain ⟨-, -, ⟨⟨a, b⟩, same, proper, twice⟩, outer⟩ := right.again overlap
      rw [enclose] at outer
      refine ⟨maximal.mp (shown.mp outer), ?_⟩
      have proper : a < b := proper
      obtain ⟨aLow, aHigh, -⟩ := twice a (le_refl a) proper
      obtain ⟨bLow, bHigh, -⟩ := twice (b - 1) (show a ≤ b - 1 by omega) (show b - 1 < b by omega)
      rw [noted] at same
      have equal := @rawBlock_inj iss n (q.lo, hi) (a, b) (show n ≤ q.lo by omega) (show q.lo ≤ hi by omega) high
        (show n ≤ a by omega) (show a ≤ b by omega) (show b < n + 2 ^ 31 by omega) same
      obtain ⟨rfl, rfl⟩ := Prod.ext_iff.mp equal
      intro p pMem behind starts
      by_contra short
      have reach := least p pMem behind
      have proper := setting.separate.proper p pMem
      exact setting.separate.ends pMem (twice p.hi (show q.lo ≤ p.hi by omega) (show p.hi < hi by omega)).2.2
    · obtain ⟨⟨a, b⟩, same, max⟩ := right.alone fun x left right covered => overlap ⟨x, left, right, covered⟩
      rw [noted] at same
      obtain ⟨aLow, ab, bHigh⟩ := max.within wide setting.within'
      have equal := @rawBlock_inj iss n (q.lo, hi) (a, b) (show n ≤ q.lo by omega) (show q.lo ≤ hi by omega) high
        aLow ab bHigh same
      obtain ⟨rfl, rfl⟩ := Prod.ext_iff.mp equal
      have reach : q.lo ≤ lo := max.low
      omega
  · rintro ⟨clear, reach⟩
    have far := reach q qMem begins inside
    constructor
    · intro alone
      exact absurd ⟨q, qMem, le_refl _, by omega⟩ (alone q.lo (by omega) inside)
    · intro _
      refine ⟨shows'.dupseg, shows'.encloseseg rfl, ⟨(q.lo, hi), noted, inside, ?_⟩, (start, hi), enclose, maximal.mpr clear⟩
      intro x left right
      have left : q.lo ≤ x := left
      have right : x < hi := right
      exact ⟨by omega, right, q, qMem, left, by omega⟩

/-- No entry has the first byte of the segment. -/
theorem Setting.right_open (setting : Setting n (front ++ back) pieces' lo hi) (before : Before (front ++ back) lo start)
    (fresh : ∀ p ∈ front, p.hi ≤ lo) (after : ∀ q ∈ back, lo < q.lo) (shows' : Shows iss (openBlocks start hi back) report) :
    Right iss (front ++ back) pieces' lo hi report ↔
      ¬Covered (front ++ back) hi ∧ ∀ q ∈ front ++ back, lo < q.lo → q.lo < hi → hi ≤ q.hi := by
  have separate := setting.separate
  have passed : ∀ p ∈ front, ¬lo < p.lo := by
    intro p member begins
    have proper := separate.proper p (List.mem_append_left _ member)
    have ends := fresh p member
    omega
  have apart (beyond : ∀ q ∈ back, hi ≤ q.lo) (block : report.reportblk = rawBlock iss (start, hi)) :
      Right iss (front ++ back) pieces' lo hi report ↔
        ¬Covered (front ++ back) hi ∧ ∀ q ∈ front ++ back, lo < q.lo → q.lo < hi → hi ≤ q.hi := by
    rw [setting.right_apart before ?_ block]
    · constructor
      · intro clear
        refine ⟨clear, fun q member begins inside => ?_⟩
        obtain old | new := List.mem_append.mp member
        · exact absurd begins (passed q old)
        · have far := beyond q new
          omega
      · intro both
        exact both.1
    · rintro x left right ⟨q, member, low, high⟩
      obtain old | new := List.mem_append.mp member
      · have ends := fresh q old
        omega
      · have far := beyond q new
        omega
  cases back with
  | nil => exact apart nofun shows'.reportblk
  | cons q rest =>
      have behind := separate.append_right.behind
      have proper := separate.proper q (List.mem_append_right _ List.mem_cons_self)
      by_cases inside : q.lo < hi
      · rw [openBlocks, List.head?_cons] at shows'
        simp only [if_pos inside] at shows'
        refine setting.right_next before (List.mem_append_right _ List.mem_cons_self) (after q List.mem_cons_self) inside ?_ shows'
        intro p member begins
        obtain old | new := List.mem_append.mp member
        · exact absurd begins (passed p old)
        · obtain rfl | later := List.mem_cons.mp new
          · exact le_refl _
          · have order := behind p later
            omega
      · rw [openBlocks, List.head?_cons] at shows'
        simp only [if_neg inside] at shows'
        refine apart ?_ shows'.reportblk
        intro p member
        obtain rfl | later := List.mem_cons.mp member
        · omega
        · have order := behind p later
          omega

/-- The notes are right exactly for the good segments. -/
theorem Setting.right_iff (setting : Setting n pieces pieces' lo hi) (shows' : Shows iss (blocksP pieces lo hi) report) :
    Right iss pieces pieces' lo hi report ↔ Good pieces lo hi := by
  obtain ⟨before, after⟩ := split_spec setting.separate lo
  have whole : pieces.takeWhile (fun q => decide (q.lo ≤ lo)) ++ pieces.dropWhile (fun q => decide (q.lo ≤ lo)) =
      pieces := List.takeWhile_append_dropWhile
  rw [blocksP] at shows'
  generalize pieces.takeWhile (fun q => decide (q.lo ≤ lo)) = front at *
  generalize pieces.dropWhile (fun q => decide (q.lo ≤ lo)) = back at *
  subst whole
  have separate := setting.separate
  have wide := setting.wide
  have unopened (fresh : ∀ p ∈ front, p.hi ≤ lo) : ¬Covered (front ++ back) lo := by
    rintro ⟨q, member, low, high⟩
    obtain old | new := List.mem_append.mp member
    · have ends := fresh q old
      omega
    · have begins := after q new
      omega
  have opened (fresh : ∀ p ∈ front, p.hi ≤ lo) (start : Nat) (start' : Before (front ++ back) lo start)
      (shows' : Shows iss (openBlocks start hi back) report) :
      Right iss (front ++ back) pieces' lo hi report ↔ Good (front ++ back) lo hi := by
    rw [setting.right_open start' fresh after shows']
    have clear := unopened fresh
    constructor
    · rintro ⟨behind, reach⟩
      exact .inr ⟨behind, .inr reach⟩
    · rintro (⟨q, member, low, high⟩ | ⟨behind, covered | reach⟩)
      · exact absurd ⟨q, member, low, by omega⟩ clear
      · exact absurd covered clear
      · exact ⟨behind, reach⟩
  have alone (clear : ∀ x, x + 1 = lo → ¬Covered (front ++ back) x) : Before (front ++ back) lo lo :=
    ⟨le_refl lo, fun x left right => absurd left (by omega), clear⟩
  obtain rfl | ⟨others, p, rfl⟩ := List.eq_nil_or_concat front
  · refine opened (fun _ absent => absurd absent List.not_mem_nil) lo (alone ?_) shows'
    rintro x next ⟨q, member, low, high⟩
    have begins := after q member
    omega
  · rw [List.concat_eq_append] at *
    rw [List.getLast?_concat] at shows'
    simp only at shows'
    have pMem : p ∈ others ++ [p] ++ back := by simp
    have start := before p (by simp)
    have ends : ∀ q ∈ others ++ [p], q.hi ≤ p.hi := by
      intro q member
      obtain old | new := List.mem_append.mp member
      · have order : q.hi < p.lo := (List.pairwise_append.mp separate.append_left.order).2.2 q old p List.mem_cons_self
        have proper := separate.proper p pMem
        omega
      · rw [List.mem_singleton.mp new]
    by_cases overlap : lo < p.hi
    · rw [if_pos overlap] at shows'
      by_cases enclosed : hi ≤ p.hi
      · rw [if_pos enclosed] at shows'
        have right := setting.right_inside pMem start enclosed shows'
        exact iff_of_true right (.inl ⟨p, pMem, start, enclosed⟩)
      · rw [if_neg enclosed] at shows'
        rw [setting.right_partly pMem start overlap (by omega) shows']
        constructor
        · intro clear
          exact .inr ⟨clear, .inl ⟨p, pMem, start, overlap⟩⟩
        · rintro (⟨q, member, low, high⟩ | ⟨clear, -⟩)
          · obtain rfl := separate.same pMem member (by omega) (by omega)
            omega
          · exact clear
    · rw [if_neg overlap] at shows'
      have fresh : ∀ q ∈ others ++ [p], q.hi ≤ lo := fun q member => (ends q member).trans (by omega)
      by_cases meets : p.hi = lo
      · rw [if_pos meets] at shows'
        refine opened fresh p.lo ⟨start, ?_, separate.starts pMem⟩ shows'
        intro x left right
        exact ⟨p, pMem, left, by omega⟩
      · rw [if_neg meets] at shows'
        refine opened fresh lo (alone ?_) shows'
        rintro x next ⟨q, member, low, high⟩
        obtain old | new := List.mem_append.mp member
        · have reach := ends q old
          omega
        · have begins := after q new
          omega

/-! ## The notes of a segment -/

/-- The entries of a queue stand for pieces that are sorted and apart, in the half of the sequence
space ahead of `rcv_nxt`; what is next is not left in the queue of an established connection. -/
structure Canonical (iss : BitVec 32) (n : Nat) (tp : Tcpcb β) (pieces : List Piece) : Prop where
  queue : tp.segq.map TsegQent.bare = pieces.map (slice iss [])
  next : tp.rcvNxt = point iss n
  separate : Separate pieces
  near : ∀ q ∈ pieces, Near n q
  waits : tcpsHaveestablished tp.state = true → ∀ q ∈ pieces, n < q.lo

/-- A segment with data and without FIN, ahead of `rcv_nxt`. -/
structure Segment (iss : BitVec 32) (n lo hi : Nat) (th : TsegQent β) : Prop where
  seq : th.seq = point iss lo
  len : th.len = hi - lo
  fin : th.fin = false
  low : n < lo
  wide : lo < hi
  high : hi < n + 2 ^ 31

variable {tp : Tcpcb β} {th : TsegQent β}

theorem Segment.bare (segment : Segment iss n lo hi th) : th.bare = slice iss [] ⟨lo, hi, false⟩ := by
  obtain ⟨seq, len, fin⟩ := segment
  rw [TsegQent.bare, seq, len, fin, slice]
  simp only [List.take_nil, List.drop_nil]

theorem Canonical.setting (canonical : Canonical iss n tp pieces) (segment : Segment iss n lo hi th)
    (union : Union pieces pieces' lo hi) : Setting n pieces pieces' lo hi where
  separate := canonical.separate
  within := by
    rintro x ⟨q, member, low, high⟩
    obtain ⟨start, -, ends⟩ := canonical.near q member
    omega
  low := Nat.le_of_lt segment.low
  wide := segment.wide
  high := segment.high
  union := union

/-- What is queued is not what is next. -/
theorem Canonical.present (canonical : Canonical iss n tp pieces) (report : Report) :
    Reass.present tp = some (tp, false) ∧ presentReport tp report = report := by
  rw [Reass.present, presentReport]
  by_cases closed : tcpsHaveestablished tp.state = false
  · rw [if_pos closed, if_pos closed]
    exact ⟨rfl, rfl⟩
  · rw [if_neg closed, if_neg closed]
    have queue := canonical.queue
    cases segq : tp.segq with
    | nil => exact ⟨rfl, rfl⟩
    | cons q rest =>
        cases pieces with
        | nil =>
            rw [segq] at queue
            cases queue
        | cons first others =>
            rw [segq, List.map_cons, List.map_cons] at queue
            have seq : q.seq = point iss first.lo := congrArg TsegQent.seq (List.cons.inj queue).1
            have later := canonical.waits (by simpa using closed) first List.mem_cons_self
            obtain ⟨start, wide, ends⟩ := canonical.near first List.mem_cons_self
            have apart : ¬q.seq = tp.rcvNxt := by
              rw [seq, canonical.next]
              exact (point_inj (by omega) (by omega)).not.mpr (by omega)
            simp only [if_neg apart]
            exact ⟨trivial, trivial⟩

/-- The queue with the segment is canonical. -/
theorem Canonical.enqueue (canonical : Canonical iss n tp pieces) (segment : Segment iss n lo hi th) :
    Canonical iss n (Reass.enqueue tp th) (enqueueP pieces ⟨lo, hi, false⟩) := by
  obtain ⟨low, wide, high⟩ := And.intro segment.low (And.intro segment.wide segment.high)
  have mine : Near n ⟨lo, hi, false⟩ := ⟨Nat.le_of_lt low, Nat.le_of_lt wide, high⟩
  have queued := @enqueue_slice β iss [] ⟨lo, hi, false⟩ pieces n tp.bare canonical.separate canonical.near mine canonical.queue
  rw [← segment.bare, bare_enqueue] at queued
  obtain ⟨separate, -⟩ := @enqueueP_spec _ ⟨lo, hi, false⟩ canonical.separate (Nat.le_of_lt wide)
  have bounded : ∀ m, (∀ q ∈ pieces, m ≤ q.lo) → m ≤ lo → Bounded m (n + 2 ^ 31 - 1) (enqueueP pieces ⟨lo, hi, false⟩) := by
    intro m above start
    refine enqueueP_bounded canonical.separate ?_ start (show hi ≤ _ by omega)
    intro q member
    have ends := (canonical.near q member).2.2
    exact ⟨above q member, by omega⟩
  have same : (Reass.enqueue tp th).bare.rcvNxt = tp.bare.rcvNxt := by rw [queued]
  have state : (Reass.enqueue tp th).bare.state = tp.bare.state := by rw [queued]
  constructor
  · exact congrArg Tcpcb.segq queued
  · exact same.trans canonical.next
  · exact separate
  · intro q member
    obtain ⟨start, ends⟩ := bounded n (fun q member => (canonical.near q member).1) (Nat.le_of_lt low) q member
    exact ⟨start, separate.proper q member, by omega⟩
  · intro established q member
    have held : tcpsHaveestablished tp.state = true := state ▸ established
    exact (bounded (n + 1) (canonical.waits held) low q member).1

/-- A segment that waits in the queue is reported right if and only if it is not refused and is a
good one. -/
theorem tcpReass_reports_iff (canonical : Canonical iss n tp pieces) (segment : Segment iss n lo hi th)
    (plain : report.dupseg = false) (maxseg : Int) (memory : Bool) :
    ∃ tp' pieces', tcpReass maxseg memory tp (some th) = some (tp', false) ∧ Canonical iss n tp' pieces' ∧
      (Right iss pieces pieces' lo hi (tcpReassReport maxseg memory tp th (reportOf th report)) ↔
        refused maxseg memory tp th = false ∧ Good pieces lo hi) := by
  rw [tcpReass, tcpReassReport]
  cases refusal : refused maxseg memory tp th with
  | true =>
      refine ⟨tp, pieces, rfl, canonical, iff_of_false ?_ (fun both => absurd both.1 (by decide))⟩
      intro right
      by_cases overlap : ∃ x, lo ≤ x ∧ x < hi ∧ Covered pieces x
      · have dup : report.dupseg = true := (right.again overlap).1
        rw [plain] at dup
        cases dup
      · obtain ⟨block, -, maximal⟩ := right.alone fun x left right covered => overlap ⟨x, left, right, covered⟩
        have wide := segment.wide
        have high := maximal.high
        exact overlap ⟨lo, le_refl lo, wide, maximal.covered lo maximal.low (by omega)⟩
  | false =>
      have queued := canonical.enqueue segment
      have low := segment.low
      have wide := segment.wide
      have stop : th.stop + BitVec.ofNat 32 th.fin.toNat = point iss hi := by
        rw [segment.fin, TsegQent.stop, segment.seq, segment.len, point_add, Nat.add_sub_cancel' (Nat.le_of_lt wide)]
        exact BitVec.add_zero _
      have block : (reportOf th report).reportblk = rawBlock iss (lo, hi) := by
        rw [reportOf, stop, segment.seq]
        rfl
      have shown := @enqueueReport_blocks β iss [] ⟨lo, hi, false⟩ pieces n (reportOf th report) canonical.near
        ⟨Nat.le_of_lt low, Nat.le_of_lt wide, segment.high⟩ rfl plain block
      rw [← segment.bare, ← canonical.queue, bare_enqueueReport] at shown
      obtain ⟨-, union⟩ := @enqueueP_spec _ ⟨lo, hi, false⟩ canonical.separate (Nat.le_of_lt wide)
      obtain ⟨presented, noted⟩ := queued.present (enqueueReport tp.segq th (reportOf th report))
      refine ⟨enqueue tp th, enqueueP pieces ⟨lo, hi, false⟩, presented, queued, ?_⟩
      simp only [Bool.false_eq_true, if_false, noted, true_and]
      exact (canonical.setting segment union).right_iff shown

theorem bare_slice (iss : BitVec 32) (str : List β) (piece : Piece) : (slice iss str piece).bare = slice iss [] piece := by
  rw [TsegQent.bare, slice, slice]
  simp only [List.take_nil, List.drop_nil]

/-- A connection whose queue has one entry. -/
def oneEntry (lo hi : Nat) : Tcpcb Nat :=
  { rcvNxt := 5, state := .established, segq := [slice 0 (List.range hi) ⟨lo, hi, false⟩], qsize := 1, rcv := List.range 5 }

theorem oneEntry_canonical (low : 5 < lo) (wide : lo ≤ hi) (high : hi < 5 + 2 ^ 31) :
    Canonical 0 5 (oneEntry lo hi) [⟨lo, hi, false⟩] where
  queue := congrArg (fun q => [q]) (bare_slice 0 (List.range hi) ⟨lo, hi, false⟩)
  next := rfl
  separate := ⟨List.pairwise_singleton _ _, by simpa using wide⟩
  near := by simpa [Near] using ⟨Nat.le_of_lt low, wide, high⟩
  waits _ := by simpa using low

/-- The segment overlaps the entry and ends behind it. -/
theorem tcpReass_reports_iff_overlap :
    ∃ tp' pieces', tcpReass 100 true (oneEntry 20 30) (some (slice 0 (List.range 40) ⟨25, 40, false⟩)) = some (tp', false) ∧
      Canonical 0 5 tp' pieces' ∧
      (Right 0 [⟨20, 30, false⟩] pieces' 25 40
        (tcpReassReport 100 true (oneEntry 20 30) (slice 0 (List.range 40) ⟨25, 40, false⟩)
          (reportOf (slice 0 (List.range 40) ⟨25, 40, false⟩) ⟨⟨0, 0⟩, ⟨0, 0⟩, false, false⟩)) ↔
        refused 100 true (oneEntry 20 30) (slice 0 (List.range 40) ⟨25, 40, false⟩) = false ∧ Good [⟨20, 30, false⟩] 25 40) :=
  tcpReass_reports_iff (oneEntry_canonical (by decide) (by decide) (by decide))
    ⟨rfl, rfl, rfl, by decide, by decide, by decide⟩ rfl 100 true

/-- A segment that an entry follows is joined with it, and what is reported ends with the segment. -/
theorem following_entry_left_out :
    ∃ tp', tcpReass 100 true (oneEntry 20 30) (some (slice 0 (List.range 40) ⟨10, 20, false⟩)) = some (tp', false) ∧
      Canonical 0 5 tp' [⟨10, 30, false⟩] ∧
      ¬Right 0 [⟨20, 30, false⟩] [⟨10, 30, false⟩] 10 20
        (tcpReassReport 100 true (oneEntry 20 30) (slice 0 (List.range 40) ⟨10, 20, false⟩)
          (reportOf (slice 0 (List.range 40) ⟨10, 20, false⟩) ⟨⟨0, 0⟩, ⟨0, 0⟩, false, false⟩)) := by
  have canonical := oneEntry_canonical (show 5 < 20 by decide) (show 20 ≤ 30 by decide) (by decide)
  have segment : Segment 0 5 10 20 (slice 0 (List.range 40) ⟨10, 20, false⟩) := ⟨rfl, rfl, rfl, by decide, by decide, by decide⟩
  have queued : Canonical 0 5 _ [⟨10, 30, false⟩] := canonical.enqueue segment
  refine ⟨_, (queued.present ⟨⟨0, 0⟩, ⟨0, 0⟩, false, false⟩).1, queued, ?_⟩
  intro right
  have clear : ∀ x, 10 ≤ x → x < 20 → ¬Covered [⟨20, 30, false⟩] x := by
    intro x left below
    rw [covered_cons]
    rintro (⟨low, -⟩ | rest)
    · have low : 20 ≤ x := low
      omega
    · exact covered_nil rest
  obtain ⟨⟨a, b⟩, same, maximal⟩ := right.alone clear
  have union : Union [⟨20, 30, false⟩] [⟨10, 30, false⟩] 10 20 :=
    (@enqueueP_spec _ ⟨10, 20, false⟩ canonical.separate (by decide)).2
  have setting := canonical.setting segment union
  obtain ⟨low, wide, high⟩ := maximal.within (by decide) setting.within'
  have stop : point 0 20 = point 0 b := congrArg RawSackblock.stop same
  obtain rfl := (point_inj (by omega) (by omega)).mp stop
  exact maximal.ends (by simp)

end Dragonfly.Net.Reass
