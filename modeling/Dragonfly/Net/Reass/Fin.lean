import Dragonfly.Net.Reass.Stream

/-!
# The end of the stream

The FIN of a segment is looked at in three places: a local flag that is cleared when the end of
the segment is cut off, the header, which is not changed then, and the headers of the entries of
the queue, where the flag is lost when an entry is put behind the one in front of it.  Without
these cases the connection sees the FIN exactly at the end of the stream.
-/

namespace Dragonfly.Net.Reass

open Dragonfly.Lib Dragonfly.Lib.Seq

variable {β : Type} {iss : BitVec 32} {str : List β} {piece p q te : Piece} {front back rest pieces : List Piece}
  {n x hi lo e : Nat} {tp : Tcpcb β}

/-! ## The flags of pieces -/

/-- A piece has the FIN if it reaches the end of the stream. -/
def Marked (e : Nat) (piece : Piece) : Prop := piece.fin = decide (piece.hi = e)

/-- The piece is joined with one in front of it that does not reach the end, and the joined
piece would. -/
def Loses (pieces : List Piece) (piece : Piece) : Prop :=
  ∃ p ∈ pieces, p.lo ≤ piece.lo ∧ piece.lo ≤ p.hi ∧ p.hi < piece.hi ∧
    (piece.fin = true ∨ ∃ q ∈ pieces, q.fin = true ∧ q.lo ≤ piece.hi)

theorem trimP_marked (separate : Separate back) (marked : ∀ q ∈ back, Marked e q) : ∀ q ∈ trimP hi back, Marked e q := by
  obtain ⟨-, -, origin, -⟩ := @trimP_spec _ hi separate
  intro q member
  obtain ⟨old, oldMem, same, flag, -⟩ := origin q member
  rw [Marked, flag, same]
  exact marked old oldMem

theorem joinP_marked (marked : ∀ q ∈ back, Marked e q) (proper : ∀ q ∈ back, q.lo ≤ q.hi ∧ q.hi ≤ e) (mine : Marked e te) :
    Marked e (joinP te back).1 ∧ ∀ q ∈ (joinP te back).2, Marked e q := by
  cases back with
  | nil => exact ⟨mine, nofun⟩
  | cons q rest =>
      rw [joinP]
      split
      · rename_i meet
        refine ⟨?_, fun p member => marked p (List.mem_cons_of_mem _ member)⟩
        obtain ⟨wide, bound⟩ := proper q List.mem_cons_self
        have theirs := marked q List.mem_cons_self
        rw [Marked] at mine theirs ⊢
        show (te.fin || q.fin) = decide (q.hi = e)
        rw [mine, theirs, ← Bool.decide_or]
        exact decide_eq_decide.mpr (by omega)
      · exact ⟨mine, marked⟩

/-- Where the joined piece ends. -/
theorem joinP_end (separate : Separate back) :
    (joinP te (trimP te.hi back)).1.hi = te.hi ∨
      ∃ q ∈ back, q.lo ≤ te.hi ∧ (joinP te (trimP te.hi back)).1.hi = q.hi := by
  obtain ⟨-, -, origin, -⟩ := @trimP_spec _ te.hi separate
  cases trimmed : trimP te.hi back with
  | nil => exact .inl rfl
  | cons q rest =>
      rw [joinP]
      split
      · rename_i meet
        obtain ⟨old, oldMem, same, -, low⟩ := origin q (by rw [trimmed]; exact List.mem_cons_self)
        exact .inr ⟨old, oldMem, by omega, same⟩
      · exact .inl rfl

theorem placeP_marked (right : Separate back) (bounded : ∀ q ∈ back, q.hi ≤ e) (proper : piece.lo ≤ piece.hi)
    (bound : piece.hi ≤ e) (frontMarked : ∀ q ∈ front, Marked e q) (backMarked : ∀ q ∈ back, Marked e q)
    (mine : Marked e piece)
    (safe : ∀ p ∈ front, p.hi = piece.lo → p.hi ≠ e → (joinP piece (trimP piece.hi back)).1.hi ≠ e) :
    ∀ q ∈ placeP front back piece, Marked e q := by
  obtain ⟨trimmed, low, origin, -⟩ := @trimP_spec _ piece.hi right
  obtain ⟨joined, -, reach, -⟩ := joinP_spec trimmed proper low
  have inside : ∀ q ∈ trimP piece.hi back, q.lo ≤ q.hi ∧ q.hi ≤ e := by
    intro q member
    obtain ⟨old, oldMem, same, -⟩ := origin q member
    exact ⟨trimmed.proper q member, same ▸ bounded old oldMem⟩
  obtain ⟨teMarked, restMarked⟩ := joinP_marked (trimP_marked right backMarked) inside mine
  have ends : (joinP piece (trimP piece.hi back)).1.hi ≤ e := by
    obtain same | ⟨q, member, -, same⟩ := @joinP_end piece _ right
    · omega
    · have := bounded q member
      omega
  rw [placeP]
  split
  · exact List.forall_mem_cons.mpr ⟨teMarked, restMarked⟩
  · rename_i p last
    have pMem := List.mem_of_getLast? last
    split
    · rename_i meet
      intro q member
      obtain old | new := List.mem_append.mp member
      · exact frontMarked q ((List.dropLast_sublist _).subset old)
      · obtain rfl | later := List.mem_cons.mp new
        · have theirs := frontMarked p pMem
          rw [Marked] at theirs ⊢
          show p.fin = decide ((joinP piece (trimP piece.hi back)).1.hi = e)
          rw [theirs]
          refine decide_eq_decide.mpr ⟨fun same => by omega, fun same => ?_⟩
          by_contra short
          exact safe p pMem meet short same
        · exact restMarked q later
    · intro q member
      obtain old | new := List.mem_append.mp member
      · exact frontMarked q old
      · exact List.forall_mem_cons.mpr ⟨teMarked, restMarked⟩ q new

/-- Queueing keeps the flags, unless one is lost. -/
theorem enqueueP_marked (separate : Separate pieces) (bounded : ∀ q ∈ pieces, q.hi ≤ e) (proper : piece.lo ≤ piece.hi)
    (bound : piece.hi ≤ e) (marked : ∀ q ∈ pieces, Marked e q) (mine : Marked e piece) (keeps : ¬Loses pieces piece) :
    ∀ q ∈ enqueueP pieces piece, Marked e q := by
  obtain ⟨before, after⟩ := split_spec separate piece.lo
  have whole : pieces.takeWhile (fun q => decide (q.lo ≤ piece.lo)) ++ pieces.dropWhile (fun q => decide (q.lo ≤ piece.lo)) =
      pieces := List.takeWhile_append_dropWhile
  rw [enqueueP]
  generalize pieces.takeWhile (fun q => decide (q.lo ≤ piece.lo)) = front at *
  generalize pieces.dropWhile (fun q => decide (q.lo ≤ piece.lo)) = back at *
  subst whole
  have across := (List.pairwise_append.mp separate.order).2.2
  have frontMarked : ∀ q ∈ front, Marked e q := fun q member => marked q (List.mem_append_left _ member)
  have backMarked : ∀ q ∈ back, Marked e q := fun q member => marked q (List.mem_append_right _ member)
  have backBound : ∀ q ∈ back, q.hi ≤ e := fun q member => bounded q (List.mem_append_right _ member)
  -- a piece in front that the new one begins at or in, and the end of the stream
  have safe : ∀ lo', piece.lo ≤ lo' → lo' ≤ piece.hi → ∀ p ∈ front, p.hi = lo' → p.hi ≠ e →
      (joinP { piece with lo := lo' } (trimP piece.hi back)).1.hi ≠ e := by
    intro lo' low high p member meet short same
    have pMem : p ∈ front ++ back := List.mem_append_left _ member
    obtain ends | ⟨q, qMem, qLow, qEnds⟩ := @joinP_end { piece with lo := lo' } _ separate.append_right
    · have ends : (joinP { piece with lo := lo' } (trimP piece.hi back)).1.hi = piece.hi := ends
      have last : piece.hi = e := by omega
      refine keeps ⟨p, pMem, before p member, by omega, by omega, .inl ?_⟩
      rw [mine, decide_eq_true_iff]
      exact last
    · have qEnds : (joinP { piece with lo := lo' } (trimP piece.hi back)).1.hi = q.hi := qEnds
      have qLow : q.lo ≤ piece.hi := qLow
      have gap : p.hi < q.lo := across p member q qMem
      refine keeps ⟨p, pMem, before p member, by omega, by omega, .inr ⟨q, List.mem_append_right _ qMem, ?_, qLow⟩⟩
      rw [marked q (List.mem_append_right _ qMem), decide_eq_true_iff]
      omega
  cases last : front.getLast? with
  | none => exact placeP_marked separate.append_right backBound proper bound frontMarked backMarked mine (safe piece.lo (le_refl _) proper)
  | some p =>
      simp only
      split
      · split
        · exact marked
        · rename_i overlap beyond
          have shorter : Marked e { piece with lo := p.hi } := mine
          exact placeP_marked separate.append_right backBound (show p.hi ≤ piece.hi by omega) bound frontMarked backMarked
            shorter (safe p.hi (by omega) (by omega))
      · exact placeP_marked separate.append_right backBound proper bound frontMarked backMarked mine
          (safe piece.lo (le_refl _) proper)

/-! ## The last piece -/

/-- Some piece reaches a position. -/
def Reaches (pieces : List Piece) (x : Nat) : Prop := ∃ q ∈ pieces, x ≤ q.hi

theorem trimP_reaches (reaches : Reaches back x) : x ≤ hi ∨ Reaches (trimP hi back) x := by
  obtain ⟨q, member, far⟩ := reaches
  induction back with
  | nil => cases member
  | cons first rest ih =>
      rw [trimP]
      split
      · exact .inr ⟨q, member, far⟩
      · split
        · obtain rfl | later := List.mem_cons.mp member
          · exact .inr ⟨_, List.mem_cons_self, far⟩
          · exact .inr ⟨q, List.mem_cons_of_mem _ later, far⟩
        · rename_i short
          obtain rfl | later := List.mem_cons.mp member
          · exact .inl (by omega)
          · exact ih later

theorem joinP_reaches (proper : ∀ q ∈ back, q.lo ≤ q.hi) (reaches : x ≤ te.hi ∨ Reaches back x) :
    Reaches ((joinP te back).1 :: (joinP te back).2) x := by
  cases back with
  | nil =>
      obtain far | ⟨q, member, -⟩ := reaches
      · exact ⟨te, List.mem_cons_self, far⟩
      · cases member
  | cons first rest =>
      have wide := proper first List.mem_cons_self
      rw [joinP]
      split
      · rename_i meet
        obtain far | ⟨q, member, far⟩ := reaches
        · exact ⟨_, List.mem_cons_self, show x ≤ first.hi by omega⟩
        · obtain rfl | later := List.mem_cons.mp member
          · exact ⟨_, List.mem_cons_self, far⟩
          · exact ⟨q, List.mem_cons_of_mem _ later, far⟩
      · obtain far | ⟨q, member, far⟩ := reaches
        · exact ⟨te, List.mem_cons_self, far⟩
        · exact ⟨q, List.mem_cons_of_mem _ member, far⟩

theorem placeP_reaches (right : Separate back) (proper : piece.lo ≤ piece.hi)
    (reaches : Reaches front x ∨ x ≤ piece.hi ∨ Reaches back x) : Reaches (placeP front back piece) x := by
  obtain ⟨trimmed, low, -, -⟩ := @trimP_spec _ piece.hi right
  obtain ⟨-, -, reach, -⟩ := joinP_spec trimmed proper low
  have behind : x ≤ piece.hi ∨ Reaches back x →
      Reaches ((joinP piece (trimP piece.hi back)).1 :: (joinP piece (trimP piece.hi back)).2) x := by
    rintro (far | far)
    · exact joinP_reaches trimmed.proper (.inl far)
    · exact joinP_reaches trimmed.proper (trimP_reaches far)
  rw [placeP]
  split
  · rename_i none
    obtain ⟨q, member, -⟩ | far := reaches
    · rw [List.getLast?_eq_none_iff.mp none] at member
      cases member
    · exact behind far
  · rename_i p last
    obtain ⟨others, rfl⟩ := List.getLast?_eq_some_iff.mp last
    split
    · rename_i meet
      rw [List.dropLast_concat]
      obtain ⟨q, member, far⟩ | far := reaches
      · obtain old | new := List.mem_append.mp member
        · exact ⟨q, List.mem_append_left _ old, far⟩
        · rw [List.mem_singleton.mp new] at far
          refine ⟨_, List.mem_append_right _ List.mem_cons_self, ?_⟩
          show x ≤ (joinP piece (trimP piece.hi back)).1.hi
          omega
      · obtain ⟨q, member, far⟩ := behind far
        obtain rfl | later := List.mem_cons.mp member
        · exact ⟨_, List.mem_append_right _ List.mem_cons_self, far⟩
        · exact ⟨q, List.mem_append_right _ (List.mem_cons_of_mem _ later), far⟩
    · obtain ⟨q, member, far⟩ | far := reaches
      · exact ⟨q, List.mem_append_left _ member, far⟩
      · obtain ⟨q, member, far⟩ := behind far
        exact ⟨q, List.mem_append_right _ member, far⟩

/-- Queueing keeps how far the pieces reach. -/
theorem enqueueP_reaches (separate : Separate pieces) (proper : piece.lo ≤ piece.hi)
    (reaches : Reaches pieces x ∨ x ≤ piece.hi) : Reaches (enqueueP pieces piece) x := by
  have whole : pieces.takeWhile (fun q => decide (q.lo ≤ piece.lo)) ++ pieces.dropWhile (fun q => decide (q.lo ≤ piece.lo)) =
      pieces := List.takeWhile_append_dropWhile
  rw [enqueueP]
  generalize pieces.takeWhile (fun q => decide (q.lo ≤ piece.lo)) = front at *
  generalize pieces.dropWhile (fun q => decide (q.lo ≤ piece.lo)) = back at *
  subst whole
  have parts : Reaches front x ∨ x ≤ piece.hi ∨ Reaches back x := by
    obtain ⟨q, member, far⟩ | far := reaches
    · obtain inFront | inBack := List.mem_append.mp member
      · exact .inl ⟨q, inFront, far⟩
      · exact .inr (.inr ⟨q, inBack, far⟩)
    · exact .inr (.inl far)
  split
  · exact placeP_reaches separate.append_right proper parts
  · rename_i p last
    split
    · split
      · rename_i enclosed
        obtain far | far := reaches
        · exact far
        · exact ⟨p, List.mem_append_left _ (List.mem_of_getLast? last), far.trans enclosed⟩
      · exact placeP_reaches separate.append_right (show p.hi ≤ piece.hi by omega) parts
    · exact placeP_reaches separate.append_right proper parts

end Dragonfly.Net.Reass
