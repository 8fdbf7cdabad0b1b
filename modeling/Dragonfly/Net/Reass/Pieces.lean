import Dragonfly.Net.Reass.Model
import Mathlib.Data.List.TakeWhile
import Mathlib.Order.Basic

/-!
# The queue as pieces of a stream

Every entry of the queue is a piece of the stream.  On the positions of the stream, queueing a
segment is a union of intervals that keeps them sorted and apart.
-/

namespace Dragonfly.Net.Reass

open Dragonfly.Lib.Seq

/-- The positions `lo, …, hi - 1` of a stream, with or without the FIN. -/
structure Piece where
  lo : Nat
  hi : Nat
  fin : Bool

/-- The position is one of the pieces. -/
def Covered (pieces : List Piece) (x : Nat) : Prop := ∃ piece ∈ pieces, piece.lo ≤ x ∧ x < piece.hi

/-- The first piece ends in front of the second one, and does not meet it. -/
def Ahead (first second : Piece) : Prop := first.hi < second.lo

/-- Pieces that are sorted and apart. -/
structure Separate (pieces : List Piece) : Prop where
  order : pieces.Pairwise Ahead
  proper : ∀ piece ∈ pieces, piece.lo ≤ piece.hi

/-- What is left of pieces behind a position. -/
def trimP (hi : Nat) : List Piece → List Piece
  | [] => []
  | q :: rest => if hi ≤ q.lo then q :: rest else if hi < q.hi then { q with lo := hi } :: rest else trimP hi rest

/-- The piece is joined with the following one if they meet. -/
def joinP (te : Piece) : List Piece → Piece × List Piece
  | [] => (te, [])
  | q :: rest =>
      if te.hi = q.lo then ({ te with hi := q.hi, fin := te.fin || q.fin }, rest) else (te, q :: rest)

/-- The piece is put between the pieces in front and those behind. -/
def placeP (front back : List Piece) (piece : Piece) : List Piece :=
  match front.getLast? with
  | none => (joinP piece (trimP piece.hi back)).1 :: (joinP piece (trimP piece.hi back)).2
  | some p =>
      if p.hi = piece.lo then
        front.dropLast ++ { p with hi := (joinP piece (trimP piece.hi back)).1.hi } :: (joinP piece (trimP piece.hi back)).2
      else front ++ (joinP piece (trimP piece.hi back)).1 :: (joinP piece (trimP piece.hi back)).2

/-- A piece is queued. -/
def enqueueP (pieces : List Piece) (piece : Piece) : List Piece :=
  let front := pieces.takeWhile fun q => decide (q.lo ≤ piece.lo)
  let back := pieces.dropWhile fun q => decide (q.lo ≤ piece.lo)
  match front.getLast? with
  | none => placeP front back piece
  | some p =>
      if piece.lo < p.hi then
        if piece.hi ≤ p.hi then pieces else placeP front back { piece with lo := p.hi }
      else placeP front back piece

variable {front back rest pieces : List Piece} {piece p q te : Piece} {x n hi : Nat}

/-! ## Unions of intervals -/

@[simp]
theorem covered_nil : ¬Covered [] x := by
  rintro ⟨piece, member, -⟩
  cases member

@[simp]
theorem covered_cons : Covered (piece :: rest) x ↔ (piece.lo ≤ x ∧ x < piece.hi) ∨ Covered rest x := by
  simp [Covered]

@[simp]
theorem covered_append : Covered (front ++ back) x ↔ Covered front x ∨ Covered back x := by
  simp [Covered, or_and_right, exists_or]

theorem Separate.tail (separate : Separate (piece :: rest)) : Separate rest where
  order := (List.pairwise_cons.mp separate.order).2
  proper p member := separate.proper p (List.mem_cons_of_mem _ member)

theorem Separate.cons (separate : Separate rest) (proper : piece.lo ≤ piece.hi)
    (behind : ∀ q ∈ rest, piece.hi < q.lo) : Separate (piece :: rest) where
  order := List.pairwise_cons.mpr ⟨behind, separate.order⟩
  proper := List.forall_mem_cons.mpr ⟨proper, separate.proper⟩

theorem Separate.append_left (separate : Separate (front ++ back)) : Separate front where
  order := (List.pairwise_append.mp separate.order).1
  proper p member := separate.proper p (List.mem_append_left _ member)

theorem Separate.append_right (separate : Separate (front ++ back)) : Separate back where
  order := (List.pairwise_append.mp separate.order).2.1
  proper p member := separate.proper p (List.mem_append_right _ member)

theorem Separate.append (left : Separate front) (right : Separate back)
    (across : ∀ p ∈ front, ∀ q ∈ back, p.hi < q.lo) : Separate (front ++ back) where
  order := List.pairwise_append.mpr ⟨left.order, right.order, across⟩
  proper p member := by
    obtain old | new := List.mem_append.mp member
    · exact left.proper p old
    · exact right.proper p new

/-- Later pieces are behind the first one. -/
theorem Separate.behind (separate : Separate (piece :: rest)) : ∀ q ∈ rest, piece.hi < q.lo :=
  (List.pairwise_cons.mp separate.order).1

/-- What is trimmed off: the positions in front of `hi`. -/
theorem trimP_spec (separate : Separate pieces) :
    Separate (trimP hi pieces) ∧ (∀ q ∈ trimP hi pieces, hi ≤ q.lo) ∧
      (∀ q ∈ trimP hi pieces, ∃ old ∈ pieces, q.hi = old.hi ∧ q.fin = old.fin ∧ old.lo ≤ q.lo) ∧
      ∀ x, Covered (trimP hi pieces) x ↔ Covered pieces x ∧ hi ≤ x := by
  induction pieces with
  | nil => exact ⟨separate, nofun, nofun, fun x => by simp [trimP]⟩
  | cons q rest ih =>
      have behind := separate.behind
      have proper := separate.proper q List.mem_cons_self
      rw [trimP]
      by_cases beyond : hi ≤ q.lo
      · rw [if_pos beyond]
        refine ⟨separate, ?_, fun p member => ⟨p, member, rfl, rfl, le_refl _⟩, ?_⟩
        · intro p member
          obtain rfl | later := List.mem_cons.mp member
          · exact beyond
          · have := behind p later
            omega
        · intro x
          refine ⟨fun covered => ⟨covered, ?_⟩, fun both => both.1⟩
          obtain ⟨p, member, low, -⟩ := covered
          obtain rfl | later := List.mem_cons.mp member
          · omega
          · have := behind p later
            omega
      · rw [if_neg beyond]
        by_cases partly : hi < q.hi
        · rw [if_pos partly]
          refine ⟨separate.tail.cons (Nat.le_of_lt partly) behind, ?_, ?_, ?_⟩
          · intro p member
            obtain rfl | later := List.mem_cons.mp member
            · exact le_refl hi
            · have := behind p later
              omega
          · intro p member
            obtain rfl | later := List.mem_cons.mp member
            · exact ⟨q, List.mem_cons_self, rfl, rfl, by show q.lo ≤ hi; omega⟩
            · exact ⟨p, List.mem_cons_of_mem _ later, rfl, rfl, le_refl _⟩
          · intro x
            rw [covered_cons, covered_cons]
            constructor
            · rintro (⟨low, high⟩ | later)
              · have low : hi ≤ x := low
                exact ⟨.inl ⟨by omega, high⟩, low⟩
              · refine ⟨.inr later, ?_⟩
                obtain ⟨p, member, low, -⟩ := later
                have := behind p member
                omega
            · rintro ⟨⟨low, high⟩ | later, reach⟩
              · exact .inl ⟨reach, high⟩
              · exact .inr later
        · rw [if_neg partly]
          obtain ⟨separate', low, origin, cover⟩ := ih separate.tail
          refine ⟨separate', low, ?_, ?_⟩
          · intro p member
            obtain ⟨old, oldMem, facts⟩ := origin p member
            exact ⟨old, List.mem_cons_of_mem _ oldMem, facts⟩
          · intro x
            rw [cover, covered_cons]
            constructor
            · rintro ⟨covered, low⟩
              exact ⟨.inr covered, low⟩
            · rintro ⟨inside | covered, low⟩
              · omega
              · exact ⟨covered, low⟩

/-- Two pieces that meet are made one. -/
theorem joinP_spec (separate : Separate back) (proper : te.lo ≤ te.hi) (low : ∀ q ∈ back, te.hi ≤ q.lo) :
    Separate ((joinP te back).1 :: (joinP te back).2) ∧ (joinP te back).1.lo = te.lo ∧ te.hi ≤ (joinP te back).1.hi ∧
      ∀ x, Covered ((joinP te back).1 :: (joinP te back).2) x ↔ (te.lo ≤ x ∧ x < te.hi) ∨ Covered back x := by
  cases back with
  | nil => exact ⟨separate.cons proper nofun, rfl, le_refl _, fun x => covered_cons⟩
  | cons q rest =>
      have first := low q List.mem_cons_self
      have wide := separate.proper q List.mem_cons_self
      rw [joinP]
      by_cases meet : te.hi = q.lo
      · rw [if_pos meet]
        refine ⟨separate.tail.cons ?_ separate.behind, rfl, ?_, ?_⟩
        · show te.lo ≤ q.hi
          omega
        · show te.hi ≤ q.hi
          omega
        · intro x
          rw [covered_cons, covered_cons, ← or_assoc]
          refine or_congr_left ?_
          show te.lo ≤ x ∧ x < q.hi ↔ _
          omega
      · rw [if_neg meet]
        refine ⟨separate.cons proper ?_, rfl, le_refl _, fun x => covered_cons⟩
        intro p member
        show te.hi < p.lo
        obtain rfl | later := List.mem_cons.mp member
        · omega
        · have := separate.behind p later
          omega

/-- The pieces in front end in front of the new one, and those behind begin behind it. -/
theorem placeP_spec (left : Separate front) (right : Separate back) (proper : piece.lo ≤ piece.hi)
    (before : ∀ p ∈ front, p.hi ≤ piece.lo) (after : ∀ q ∈ back, piece.lo < q.lo) :
    Separate (placeP front back piece) ∧
      ∀ x, Covered (placeP front back piece) x ↔ Covered front x ∨ (piece.lo ≤ x ∧ x < piece.hi) ∨ Covered back x := by
  obtain ⟨trimmed, low, -, cover⟩ := @trimP_spec _ piece.hi right
  obtain ⟨joined, start, reach, union⟩ := joinP_spec trimmed proper low
  have whole : ∀ x, Covered ((joinP piece (trimP piece.hi back)).1 :: (joinP piece (trimP piece.hi back)).2) x ↔
      (piece.lo ≤ x ∧ x < piece.hi) ∨ Covered back x := by
    intro x
    rw [union, cover]
    constructor
    · rintro (inside | ⟨covered, -⟩)
      · exact .inl inside
      · exact .inr covered
    · rintro (inside | covered)
      · exact .inl inside
      · by_cases beyond : piece.hi ≤ x
        · exact .inr ⟨covered, beyond⟩
        · obtain ⟨q, member, lower, -⟩ := covered
          have := after q member
          exact .inl ⟨by omega, by omega⟩
  rw [placeP]
  obtain rfl | ⟨others, p, rfl⟩ := List.eq_nil_or_concat front
  · refine ⟨joined, fun x => ?_⟩
    rw [List.getLast?_nil]
    simp only [whole, covered_nil, false_or]
  · rw [List.concat_eq_append] at *
    rw [List.getLast?_concat]
    have last := before p (by simp)
    have wide := left.proper p (by simp)
    simp only
    by_cases meet : p.hi = piece.lo
    · rw [if_pos meet, List.dropLast_concat]
      have behind := joined.behind
      have merged : Separate ({ p with hi := (joinP piece (trimP piece.hi back)).1.hi } :: (joinP piece (trimP piece.hi back)).2) := by
        refine joined.tail.cons ?_ behind
        show p.lo ≤ (joinP piece (trimP piece.hi back)).1.hi
        omega
      refine ⟨left.append_left.append merged ?_, ?_⟩
      · intro q member other otherMem
        have order : q.hi < p.lo := (List.pairwise_append.mp left.order).2.2 q member p List.mem_cons_self
        obtain rfl | later := List.mem_cons.mp otherMem
        · exact order
        · have := behind other later
          omega
      · intro x
        have single := whole x
        rw [covered_cons, start] at single
        rw [covered_append, covered_cons, covered_append, covered_cons]
        have cut : (p.lo ≤ x ∧ x < (joinP piece (trimP piece.hi back)).1.hi) ↔
            (p.lo ≤ x ∧ x < p.hi) ∨ (piece.lo ≤ x ∧ x < (joinP piece (trimP piece.hi back)).1.hi) := by omega
        rw [cut, or_assoc, single]
        simp only [covered_nil, or_false, or_assoc]
    · rw [if_neg meet]
      refine ⟨left.append joined ?_, ?_⟩
      · intro q member other otherMem
        have lower : piece.lo ≤ other.lo := by
          obtain rfl | later := List.mem_cons.mp otherMem
          · exact Nat.le_of_eq start.symm
          · have := joined.behind other later
            omega
        obtain old | new := List.mem_append.mp member
        · have order : q.hi < p.lo := (List.pairwise_append.mp left.order).2.2 q old p List.mem_cons_self
          omega
        · rw [List.mem_singleton.mp new]
          omega
      · intro x
        rw [covered_append, whole]

/-- The list is cut where the pieces begin behind a position. -/
theorem split_spec (separate : Separate pieces) (lo : Nat) :
    (∀ p ∈ pieces.takeWhile (fun q => decide (q.lo ≤ lo)), p.lo ≤ lo) ∧
      ∀ q ∈ pieces.dropWhile (fun q => decide (q.lo ≤ lo)), lo < q.lo := by
  constructor
  · intro p member
    simpa using List.mem_takeWhile_imp member
  · induction pieces with
    | nil => nofun
    | cons first rest ih =>
        by_cases below : first.lo ≤ lo
        · rw [List.dropWhile_cons_of_pos (by simpa using below)]
          exact ih separate.tail
        · rw [List.dropWhile_cons_of_neg (by simpa using below)]
          intro q member
          obtain rfl | later := List.mem_cons.mp member
          · omega
          · have := separate.behind q later
            have := separate.proper first List.mem_cons_self
            omega

/-- Queueing is the union with the new piece. -/
theorem enqueueP_spec (separate : Separate pieces) (proper : piece.lo ≤ piece.hi) :
    Separate (enqueueP pieces piece) ∧
      ∀ x, Covered (enqueueP pieces piece) x ↔ Covered pieces x ∨ (piece.lo ≤ x ∧ x < piece.hi) := by
  obtain ⟨before, after⟩ := split_spec separate piece.lo
  have whole : pieces.takeWhile (fun q => decide (q.lo ≤ piece.lo)) ++ pieces.dropWhile (fun q => decide (q.lo ≤ piece.lo)) =
      pieces := List.takeWhile_append_dropWhile
  rw [enqueueP]
  generalize pieces.takeWhile (fun q => decide (q.lo ≤ piece.lo)) = front at *
  generalize pieces.dropWhile (fun q => decide (q.lo ≤ piece.lo)) = back at *
  subst whole
  have left := separate.append_left
  have right := separate.append_right
  have across := (List.pairwise_append.mp separate.order).2.2
  obtain rfl | ⟨others, p, rfl⟩ := List.eq_nil_or_concat front
  · obtain ⟨result, cover⟩ := placeP_spec left right proper nofun after
    refine ⟨result, fun x => (cover x).trans ?_⟩
    rw [List.nil_append]
    simp only [covered_nil, false_or]
    exact or_comm
  · rw [List.concat_eq_append] at *
    rw [List.getLast?_concat]
    simp only
    have wide := left.proper p (by simp)
    have start := before p (by simp)
    have ends : ∀ q ∈ others ++ [p], q.hi ≤ p.hi := by
      intro q member
      obtain old | new := List.mem_append.mp member
      · have order : q.hi < p.lo := (List.pairwise_append.mp left.order).2.2 q old p List.mem_cons_self
        omega
      · rw [List.mem_singleton.mp new]
    by_cases overlap : piece.lo < p.hi
    · rw [if_pos overlap]
      by_cases enclosed : piece.hi ≤ p.hi
      · rw [if_pos enclosed]
        refine ⟨separate, fun x => ⟨.inl, ?_⟩⟩
        rintro (covered | ⟨low, high⟩)
        · exact covered
        · exact ⟨p, by simp, by omega, by omega⟩
      · rw [if_neg enclosed]
        have behind : ∀ q ∈ back, p.hi < q.lo := fun q member => across p (by simp) q member
        obtain ⟨result, cover⟩ := @placeP_spec _ back { piece with lo := p.hi } left right (by show p.hi ≤ piece.hi; omega) ends behind
        refine ⟨result, fun x => (cover x).trans ?_⟩
        rw [@covered_append (others ++ [p]) back]
        show _ ∨ (p.hi ≤ x ∧ x < piece.hi) ∨ _ ↔ _
        constructor
        · rintro (covered | ⟨low, high⟩ | covered)
          · exact .inl (.inl covered)
          · exact .inr ⟨by omega, high⟩
          · exact .inl (.inr covered)
        · rintro ((covered | covered) | ⟨low, high⟩)
          · exact .inl covered
          · exact .inr (.inr covered)
          · by_cases inside : x < p.hi
            · exact .inl ⟨p, by simp, by omega, inside⟩
            · exact .inr (.inl ⟨by omega, high⟩)
    · rw [if_neg overlap]
      have bound : ∀ q ∈ others ++ [p], q.hi ≤ piece.lo := fun q member => (ends q member).trans (by omega)
      obtain ⟨result, cover⟩ := placeP_spec left right proper bound after
      refine ⟨result, fun x => (cover x).trans ?_⟩
      rw [@covered_append (others ++ [p]) back, or_assoc]
      exact or_congr_right or_comm

/-! ## Bounds -/

/-- The pieces are between two positions. -/
def Bounded (n m : Nat) (pieces : List Piece) : Prop := ∀ piece ∈ pieces, n ≤ piece.lo ∧ piece.hi ≤ m

variable {m : Nat}

theorem trimP_bounded (separate : Separate back) (bounded : Bounded n m back) : Bounded n m (trimP hi back) := by
  obtain ⟨-, -, origin, -⟩ := @trimP_spec _ hi separate
  intro q member
  obtain ⟨old, oldMem, same, -, low⟩ := origin q member
  have := bounded old oldMem
  omega

theorem joinP_bounded (bounded : Bounded n m back) (low : n ≤ te.lo) (high : te.hi ≤ m) :
    n ≤ (joinP te back).1.lo ∧ (joinP te back).1.hi ≤ m ∧ Bounded n m (joinP te back).2 := by
  cases back with
  | nil => exact ⟨low, high, nofun⟩
  | cons q rest =>
      rw [joinP]
      split
      · exact ⟨low, (bounded q List.mem_cons_self).2, fun p member => bounded p (List.mem_cons_of_mem _ member)⟩
      · exact ⟨low, high, bounded⟩

theorem placeP_bounded (right : Separate back) (front' : Bounded n m front) (back' : Bounded n m back)
    (low : n ≤ piece.lo) (high : piece.hi ≤ m) : Bounded n m (placeP front back piece) := by
  obtain ⟨start, ends, rest⟩ := joinP_bounded (@trimP_bounded _ _ piece.hi _ right back') low high
  have all : Bounded n m ((joinP piece (trimP piece.hi back)).1 :: (joinP piece (trimP piece.hi back)).2) :=
    List.forall_mem_cons.mpr ⟨⟨start, ends⟩, rest⟩
  rw [placeP]
  split
  · exact all
  · rename_i p last
    have pMem := List.mem_of_getLast? last
    split
    · intro q member
      obtain old | new := List.mem_append.mp member
      · exact front' q ((List.dropLast_sublist _).subset old)
      · obtain rfl | later := List.mem_cons.mp new
        · exact ⟨(front' p pMem).1, ends⟩
        · exact rest q later
    · intro q member
      obtain old | new := List.mem_append.mp member
      · exact front' q old
      · exact all q new

theorem enqueueP_bounded (separate : Separate pieces) (bounded : Bounded n m pieces) (low : n ≤ piece.lo)
    (high : piece.hi ≤ m) : Bounded n m (enqueueP pieces piece) := by
  have front' : Bounded n m (pieces.takeWhile fun q => decide (q.lo ≤ piece.lo)) :=
    fun q member => bounded q ((List.takeWhile_sublist _).subset member)
  have back' : Bounded n m (pieces.dropWhile fun q => decide (q.lo ≤ piece.lo)) :=
    fun q member => bounded q ((List.dropWhile_sublist _).subset member)
  have right : Separate (pieces.dropWhile fun q => decide (q.lo ≤ piece.lo)) := by
    refine @Separate.append_right (pieces.takeWhile fun q => decide (q.lo ≤ piece.lo)) _ ?_
    rw [List.takeWhile_append_dropWhile]
    exact separate
  rw [enqueueP]
  split
  · exact placeP_bounded right front' back' low high
  · rename_i p last
    have pMem := List.mem_of_getLast? last
    split
    · rename_i overlap
      split
      · exact bounded
      · refine placeP_bounded right front' back' ?_ high
        show n ≤ p.hi
        omega
    · exact placeP_bounded right front' back' low high

end Dragonfly.Net.Reass
