import Mathlib.Algebra.Order.Ring.Int
import Mathlib.Data.List.Basic
import Mathlib.Data.List.Induction
import Mathlib.Data.Nat.Basic
import Mathlib.Logic.Function.Basic
import Mathlib.Order.Lattice

/-!
# Page tables

A tree of tables with 512 entries each.  An entry is empty, points to a table of the next
level, or is the leaf of a page, which can be at any level.  A leaf is stored at the end of a
path that is made as it is needed; a leaf in the middle of the path ends the attempt.

Leaves that are stored one after the other succeed exactly if none of them is strictly inside
an earlier one, and then a walk ends at the latest one that covers the address.
-/

namespace Dragonfly.Lib.PageTable

universe u

inductive Entry (α : Type u) where
  | empty
  | page (leaf : α)
  | table (entries : Nat → Entry α)

variable {α : Type u}

/-- The table without entries. -/
def blank : Nat → Entry α := fun _ => .empty

/-- The address bits below the index of a level. -/
def shift (level : Nat) : Nat := 12 + 9 * level

/-- The size of a page of a level. -/
def size (level : Nat) : Nat := 2 ^ shift level

/-- The index of an address in a table of a level. -/
def index (x level : Nat) : Nat := x / size level % 512

/-- Store a leaf at the level `leafLevel`, or at the top level if that is lower.  Tables that
are missing on the path are made. -/
def store (x leafLevel : Nat) (leaf : α) : Nat → (Nat → Entry α) → Option (Nat → Entry α)
  | 0, entries => some (Function.update entries (index x 0) (.page leaf))
  | level + 1, entries =>
      if level + 1 ≤ leafLevel then some (Function.update entries (index x (level + 1)) (.page leaf))
      else
        match entries (index x (level + 1)) with
        | .page _ => none
        | .empty =>
            (store x leafLevel leaf level blank).map fun sub =>
              Function.update entries (index x (level + 1)) (.table sub)
        | .table sub =>
            (store x leafLevel leaf level sub).map fun sub =>
              Function.update entries (index x (level + 1)) (.table sub)

/-- The leaf at the end of the path of an address, and its level. -/
def walk (x : Nat) : Nat → (Nat → Entry α) → Option (α × Nat)
  | 0, entries =>
      match entries (index x 0) with
      | .page leaf => some (leaf, 0)
      | _ => none
  | level + 1, entries =>
      match entries (index x (level + 1)) with
      | .empty => none
      | .page leaf => some (leaf, level + 1)
      | .table sub => walk x level sub

/-- Two addresses have the same path from the level `top` down to the level `low`. -/
def SamePath (low top x y : Nat) : Prop := ∀ level, low ≤ level → level ≤ top → index x level = index y level

variable {x y low top level leafLevel : Nat} {entries next : Nat → Entry α} {leaf : α}

@[simp]
theorem walk_blank : walk x top (blank : Nat → Entry α) = none := by
  cases top with
  | zero => rfl
  | succ level => rfl

/-! ## Addresses -/

theorem size_pos (level : Nat) : 0 < size level := Nat.two_pow_pos _

theorem size_succ (level : Nat) : size (level + 1) = 512 * size level := by
  rw [size, size, shift, shift, show 12 + 9 * (level + 1) = (12 + 9 * level) + 9 by omega, Nat.pow_add]
  omega

theorem size_dvd_size (le : low ≤ top) : size low ∣ size top :=
  Nat.pow_dvd_pow 2 (by rw [shift, shift]; omega)

theorem size_le_size (le : low ≤ top) : size low ≤ size top := Nat.le_of_dvd (size_pos top) (size_dvd_size le)

/-- The number of a page, from the number of the page around it. -/
theorem div_size (x level : Nat) : x / size level = 512 * (x / size (level + 1)) + index x level := by
  have inner : x / size (level + 1) = x / size level / 512 := by
    rw [size_succ, Nat.mul_comm, Nat.div_div_eq_div_mul]
  rw [inner, index, Nat.div_add_mod]

theorem samePath_self : SamePath top top x y ↔ index x top = index y top := by
  constructor
  · intro same
    exact same top (le_refl top) (le_refl top)
  · intro same level low high
    rw [le_antisymm high low]
    exact same

theorem samePath_succ (le : low ≤ top) :
    SamePath low (top + 1) x y ↔ index x (top + 1) = index y (top + 1) ∧ SamePath low top x y := by
  constructor
  · intro same
    exact ⟨same _ (by omega) (le_refl _), fun level low high => same level low (by omega)⟩
  · rintro ⟨first, rest⟩ level low high
    obtain rfl | less := Nat.eq_or_lt_of_le high
    · exact first
    · exact rest level low (by omega)

/-- Below the reach of the top level, addresses with the same path are in the same page. -/
theorem samePath_iff (le : low ≤ top) (boundX : x < size (top + 1)) (boundY : y < size (top + 1)) :
    SamePath low top x y ↔ x / size low = y / size low := by
  constructor
  · intro same
    -- from the top level down, where both numbers are zero
    have down : ∀ steps, steps ≤ top + 1 - low → x / size (top + 1 - steps) = y / size (top + 1 - steps) := by
      intro steps
      induction steps with
      | zero =>
          intro _
          rw [Nat.sub_zero, Nat.div_eq_of_lt boundX, Nat.div_eq_of_lt boundY]
      | succ steps ih =>
          intro bound
          have above := ih (by omega)
          rw [show top + 1 - steps = (top + 1 - (steps + 1)) + 1 by omega] at above
          rw [div_size x, div_size y, above, same _ (by omega) (by omega)]
    have last := down (top + 1 - low) (le_refl _)
    rwa [show top + 1 - (top + 1 - low) = low by omega] at last
  · intro same level lower _
    have part : ∀ z, index z level = z / size low / 2 ^ (9 * (level - low)) % 512 := by
      intro z
      rw [index, Nat.div_div_eq_div_mul, size, size, ← Nat.pow_add, shift, shift,
        show 12 + 9 * low + 9 * (level - low) = 12 + 9 * level by omega]
    rw [part x, part y, same]

/-! ## One leaf -/

theorem walk_level_le {other : α} (ends : walk x top entries = some (other, level)) : level ≤ top := by
  induction top generalizing entries with
  | zero =>
      rw [walk] at ends
      split at ends
      · exact (Prod.mk.inj (Option.some.inj ends)).2.symm.le
      · cases ends
  | succ top ih =>
      rw [walk] at ends
      split at ends
      · cases ends
      · exact (Prod.mk.inj (Option.some.inj ends)).2.symm.le
      · exact Nat.le_succ_of_le (ih ends)

/-- A leaf is stored unless the path of its address ends above it. -/
theorem store_isSome_iff : (store x leafLevel leaf top entries).isSome ↔
    ∀ other level, walk x top entries = some (other, level) → level ≤ leafLevel := by
  induction top generalizing entries with
  | zero =>
      simp only [store, Option.isSome_some, true_iff]
      intro other level ends
      exact (walk_level_le ends).trans (Nat.zero_le _)
  | succ top ih =>
      rw [store]
      by_cases deep : top + 1 ≤ leafLevel
      · rw [if_pos deep]
        simp only [Option.isSome_some, true_iff]
        intro other level ends
        exact (walk_level_le ends).trans deep
      · rw [if_neg deep, walk]
        cases entries (index x (top + 1)) with
        | empty =>
            have missing := @ih blank
            simp only [walk_blank] at missing
            simpa using missing
        | page other =>
            simp only [Option.isSome_none, Bool.false_eq_true, false_iff]
            intro bound
            exact deep (bound other (top + 1) rfl)
        | table sub =>
            simp only [Option.isSome_map]
            exact ih

theorem walk_update_page :
    walk y top (Function.update entries (index x top) (.page leaf)) =
      if index x top = index y top then some (leaf, top) else walk y top entries := by
  by_cases same : index x top = index y top
  · rw [if_pos same]
    cases top with
    | zero => rw [walk, same, Function.update_self]
    | succ top => rw [walk, same, Function.update_self]
  · rw [if_neg same]
    cases top with
    | zero => rw [walk, walk, Function.update_of_ne (Ne.symm same)]
    | succ top => rw [walk, walk, Function.update_of_ne (Ne.symm same)]

theorem walk_update_table {sub : Nat → Entry α} :
    walk y (top + 1) (Function.update entries (index x (top + 1)) (.table sub)) =
      if index x (top + 1) = index y (top + 1) then walk y top sub else walk y (top + 1) entries := by
  by_cases same : index x (top + 1) = index y (top + 1)
  · rw [if_pos same, walk, same, Function.update_self]
  · rw [if_neg same, walk, walk, Function.update_of_ne (Ne.symm same)]

/-- The table under an entry of the path. -/
theorem walk_of_table {sub : Nat → Entry α} (found : entries (index x (top + 1)) = .table sub)
    (same : index x (top + 1) = index y (top + 1)) : walk y (top + 1) entries = walk y top sub := by
  rw [walk, ← same, found]

theorem walk_of_empty (found : entries (index x (top + 1)) = .empty)
    (same : index x (top + 1) = index y (top + 1)) : walk y (top + 1) entries = walk y top (blank : Nat → Entry α) := by
  rw [walk, ← same, found, walk_blank]

/-- A leaf was stored: the addresses of its page end there, and all others where they did. -/
theorem walk_store (stored : store x leafLevel leaf top entries = some next) :
    (SamePath (min leafLevel top) top x y → walk y top next = some (leaf, min leafLevel top)) ∧
      (¬SamePath (min leafLevel top) top x y → walk y top next = walk y top entries) := by
  induction top generalizing entries next with
  | zero =>
      rw [store, Option.some.injEq] at stored
      rw [← stored, Nat.min_zero, samePath_self, walk_update_page]
      exact ⟨fun same => if_pos same, fun other => if_neg other⟩
  | succ top ih =>
      rw [store] at stored
      by_cases deep : top + 1 ≤ leafLevel
      · rw [if_pos deep, Option.some.injEq] at stored
        rw [← stored, min_eq_right deep, samePath_self, walk_update_page]
        exact ⟨fun same => if_pos same, fun other => if_neg other⟩
      · rw [if_neg deep] at stored
        have below : leafLevel ≤ top := by omega
        rw [min_eq_left (by omega)]
        rw [min_eq_left below] at ih
        -- the leaf goes into `old`, which becomes `sub`
        have inner : ∀ old sub : Nat → Entry α, store x leafLevel leaf top old = some sub →
            (index x (top + 1) = index y (top + 1) → walk y (top + 1) entries = walk y top old) →
            Function.update entries (index x (top + 1)) (.table sub) = next →
            (SamePath leafLevel (top + 1) x y → walk y (top + 1) next = some (leaf, leafLevel)) ∧
              (¬SamePath leafLevel (top + 1) x y → walk y (top + 1) next = walk y (top + 1) entries) := by
          intro old sub stored before result
          obtain ⟨inside, outside⟩ := ih stored
          rw [← result, walk_update_table, samePath_succ below]
          by_cases same : index x (top + 1) = index y (top + 1)
          · rw [if_pos same, before same]
            exact ⟨fun path => inside path.2, fun other => outside fun path => other ⟨same, path⟩⟩
          · rw [if_neg same]
            exact ⟨fun path => absurd path.1 same, fun _ => rfl⟩
        cases found : entries (index x (top + 1)) with
        | empty =>
            rw [found] at stored
            obtain ⟨sub, stored, result⟩ := Option.map_eq_some_iff.mp stored
            exact inner blank sub stored (walk_of_empty found) result
        | page other =>
            rw [found] at stored
            cases stored
        | table old =>
            rw [found] at stored
            obtain ⟨sub, stored, result⟩ := Option.map_eq_some_iff.mp stored
            exact inner old sub stored (walk_of_table found) result

/-! ## Leaves one after the other -/

/-- A page with its leaf. -/
structure Page (α : Type u) where
  base : Nat
  level : Nat
  leaf : α

/-- The address is one of the page. -/
def Page.Covers (page : Page α) (y : Nat) : Prop := page.base ≤ y ∧ y < page.base + size page.level

instance (page : Page α) (y : Nat) : Decidable (page.Covers y) := inferInstanceAs (Decidable (_ ∧ _))

/-- The page is a page of a tree with the given top level. -/
structure Page.Fits (top : Nat) (page : Page α) : Prop where
  level : page.level ≤ top
  aligned : size page.level ∣ page.base
  bound : page.base < size (top + 1)

/-- The second page is strictly inside the first one. -/
def Within (outer inner : Page α) : Prop := inner.level < outer.level ∧ outer.Covers inner.base

instance (outer inner : Page α) : Decidable (Within outer inner) := inferInstanceAs (Decidable (_ ∧ _))

/-- The leaves are stored one after the other. -/
def storeAll (top : Nat) (pages : List (Page α)) (entries : Nat → Entry α) : Option (Nat → Entry α) :=
  pages.foldlM (fun entries page => store page.base page.level page.leaf top entries) entries

/-- The last page that covers an address. -/
def latest (pages : List (Page α)) (y : Nat) : Option (Page α) :=
  pages.foldl (fun old page => if page.Covers y then some page else old) none

variable {page outer inner : Page α} {pages : List (Page α)}

theorem Page.covers_iff (aligned : size page.level ∣ page.base) :
    page.Covers y ↔ page.base / size page.level = y / size page.level := by
  obtain ⟨number, same⟩ := aligned
  have positive := size_pos page.level
  rw [Page.Covers, same, Nat.mul_div_cancel_left _ positive, eq_comm, Nat.div_eq_iff positive, Nat.mul_comm number]
  omega

theorem Page.Fits.samePath_iff (fits : page.Fits top) (bound : y < size (top + 1)) :
    SamePath (min page.level top) top page.base y ↔ page.Covers y := by
  rw [min_eq_left fits.level, PageTable.samePath_iff fits.level fits.bound bound, Page.covers_iff fits.aligned]

/-- A page with an address in common with a larger one is inside it. -/
theorem Page.Fits.covers_base (outerFits : outer.Fits top) (innerFits : inner.Fits top)
    (smaller : inner.level < outer.level) (first : outer.Covers y) (second : inner.Covers y) :
    outer.Covers inner.base := by
  rw [Page.covers_iff outerFits.aligned] at first ⊢
  rw [Page.covers_iff innerFits.aligned] at second
  obtain ⟨factor, same⟩ := size_dvd_size smaller.le
  rw [first, same, ← Nat.div_div_eq_div_mul, ← Nat.div_div_eq_div_mul, second]

theorem latest_concat (pages : List (Page α)) (page : Page α) (y : Nat) :
    latest (pages ++ [page]) y = if page.Covers y then some page else latest pages y := by
  rw [latest, List.foldl_append]
  rfl

theorem latest_mem (found : latest pages y = some page) : page ∈ pages ∧ page.Covers y := by
  induction pages using List.reverseRecOn with
  | nil => cases found
  | append_singleton pages last ih =>
      rw [latest_concat] at found
      split at found
      · rename_i covers
        obtain rfl := Option.some.inj found
        exact ⟨List.mem_append_right _ List.mem_cons_self, covers⟩
      · exact ⟨List.mem_append_left _ (ih found).1, (ih found).2⟩

/-- A page of the second list is later than those of the first. -/
theorem latest_append (front back : List (Page α)) (y : Nat) :
    latest (front ++ back) y = (latest back y).or (latest front y) := by
  induction back using List.reverseRecOn with
  | nil =>
      rw [List.append_nil]
      rfl
  | append_singleton back last ih =>
      rw [← List.append_assoc, latest_concat, latest_concat, ih]
      split
      · rfl
      · rfl

theorem latest_eq_none (none : ∀ page ∈ pages, ¬page.Covers y) : latest pages y = .none := by
  cases found : latest pages y with
  | none => rfl
  | some page => exact absurd (latest_mem found).2 (none page (latest_mem found).1)

theorem latest_isSome (member : page ∈ pages) (covers : page.Covers y) : ∃ last, latest pages y = some last := by
  induction pages using List.reverseRecOn with
  | nil => cases member
  | append_singleton pages last ih =>
      rw [latest_concat]
      split
      · exact ⟨last, rfl⟩
      · rename_i other
        obtain old | new := List.mem_append.mp member
        · exact ih old
        · exact absurd (List.mem_singleton.mp new ▸ covers) other

theorem storeAll_concat (pages : List (Page α)) (page : Page α) :
    storeAll top (pages ++ [page]) entries =
      (storeAll top pages entries).bind (store page.base page.level page.leaf top) := by
  rw [storeAll, List.foldlM_append, storeAll]
  refine Option.bind_congr fun table _ => ?_
  rw [List.foldlM_cons]
  simp

theorem storeAll_append (front back : List (Page α)) :
    storeAll top (front ++ back) entries = (storeAll top front entries).bind (storeAll top back) := by
  rw [storeAll, List.foldlM_append]
  rfl

/-- The last page of a list of ranges is one of the last range that covers the address. -/
theorem latest_flatMap {ι : Type} {β : Type} {ranges : List ι} {pages : ι → List (Page α)} {covers : ι → Bool}
    {read : Page α → Option β} {value : ι → Option β}
    (cover : ∀ range ∈ ranges, (∃ page ∈ pages range, page.Covers y) ↔ covers range = true)
    (same : ∀ range ∈ ranges, ∀ page ∈ pages range, page.Covers y → read page = value range) :
    (latest (ranges.flatMap pages) y).bind read = (ranges.reverse.find? covers).bind value := by
  induction ranges using List.reverseRecOn with
  | nil => rfl
  | append_singleton ranges range ih =>
      have member : range ∈ ranges ++ [range] := List.mem_append_right _ List.mem_cons_self
      rw [List.flatMap_append, List.flatMap_singleton, latest_append, List.reverse_append, List.reverse_singleton,
        List.singleton_append]
      by_cases covered : covers range = true
      · rw [List.find?_cons_of_pos covered, Option.bind_some]
        obtain ⟨page, pageMem, pageCovers⟩ := (cover range member).mpr covered
        obtain ⟨last, found⟩ := latest_isSome pageMem pageCovers
        obtain ⟨lastMem, lastCovers⟩ := latest_mem found
        rw [found, Option.some_or, Option.bind_some, same range member last lastMem lastCovers]
      · rw [List.find?_cons_of_neg covered]
        have missed : latest (pages range) y = none :=
          latest_eq_none fun page pageMem pageCovers => covered ((cover range member).mp ⟨page, pageMem, pageCovers⟩)
        rw [missed, Option.none_or]
        exact ih (fun range member => cover range (List.mem_append_left _ member))
          fun range member => same range (List.mem_append_left _ member)

/-- What has been stored: a walk ends at the latest page. -/
theorem walk_storeAll (fits : ∀ page ∈ pages, page.Fits top) (stored : storeAll top pages blank = some next)
    (bound : y < size (top + 1)) : walk y top next = (latest pages y).map fun page => (page.leaf, page.level) := by
  induction pages using List.reverseRecOn generalizing next with
  | nil =>
      obtain rfl := Option.some.inj stored
      exact walk_blank
  | append_singleton pages page ih =>
      rw [storeAll_concat, Option.bind_eq_some_iff] at stored
      obtain ⟨middle, before, last⟩ := stored
      have fitsPage := fits page (List.mem_append_right _ List.mem_cons_self)
      obtain ⟨inside, outside⟩ := @walk_store _ _ y _ _ _ _ _ last
      rw [fitsPage.samePath_iff bound] at inside outside
      rw [latest_concat]
      by_cases covers : page.Covers y
      · rw [if_pos covers, inside covers, min_eq_left fitsPage.level]
        rfl
      · rw [if_neg covers, outside covers]
        exact ih (fun page member => fits page (List.mem_append_left _ member)) before

/-- Pages none of which is strictly inside an earlier one can be stored. -/
theorem storeAll_isSome (fits : ∀ page ∈ pages, page.Fits top)
    (apart : pages.Pairwise fun first second => ¬Within first second) : ∃ next, storeAll top pages blank = some next := by
  induction pages using List.reverseRecOn with
  | nil => exact ⟨blank, rfl⟩
  | append_singleton pages page ih =>
      rw [List.pairwise_append] at apart
      have fitsFront : ∀ page ∈ pages, page.Fits top := fun page member => fits page (List.mem_append_left _ member)
      have fitsPage := fits page (List.mem_append_right _ List.mem_cons_self)
      obtain ⟨middle, before⟩ := ih fitsFront apart.1
      rw [storeAll_concat, before]
      refine Option.isSome_iff_exists.mp ((store_isSome_iff).mpr ?_)
      intro other level ends
      rw [walk_storeAll fitsFront before fitsPage.bound, Option.map_eq_some_iff] at ends
      obtain ⟨last, found, same⟩ := ends
      obtain ⟨member, covers⟩ := latest_mem found
      obtain rfl := (Prod.mk.inj same).2
      by_contra larger
      exact apart.2.2 last member page List.mem_cons_self ⟨by omega, covers⟩

/-- A walk of an address of a page that has been stored ends at a page at least as large. -/
theorem walk_level_ge (fits : ∀ page ∈ pages, page.Fits top) (stored : storeAll top pages blank = some next)
    (member : page ∈ pages) (covers : page.Covers y) (bound : y < size (top + 1)) :
    ∃ leaf level, walk y top next = some (leaf, level) ∧ page.level ≤ level := by
  induction pages using List.reverseRecOn generalizing next y with
  | nil => cases member
  | append_singleton pages last ih =>
      rw [storeAll_concat, Option.bind_eq_some_iff] at stored
      obtain ⟨middle, before, stored⟩ := stored
      have fitsFront : ∀ page ∈ pages, page.Fits top := fun page member => fits page (List.mem_append_left _ member)
      have fitsLast := fits last (List.mem_append_right _ List.mem_cons_self)
      obtain ⟨inside, outside⟩ := @walk_store _ _ y _ _ _ _ _ stored
      rw [fitsLast.samePath_iff bound] at inside outside
      by_cases covered : last.Covers y
      · refine ⟨last.leaf, last.level, min_eq_left fitsLast.level ▸ inside covered, ?_⟩
        obtain old | new := List.mem_append.mp member
        · by_contra smaller
          -- the last page would be strictly inside the earlier one
          have around := (fitsFront page old).covers_base fitsLast (by omega) covers covered
          obtain ⟨leaf, level, ends, larger⟩ := ih fitsFront before old around fitsLast.bound
          have small := (store_isSome_iff).mp (Option.isSome_iff_exists.mpr ⟨next, stored⟩) leaf level ends
          omega
        · rw [List.mem_singleton.mp new]
      · rw [outside covered]
        obtain old | new := List.mem_append.mp member
        · exact ih fitsFront before old covers bound
        · exact absurd (List.mem_singleton.mp new ▸ covers) covered

/-- A page is not strictly inside one that it has no address in common with. -/
theorem not_within_of_apart (apart : ∀ y, outer.Covers y → ¬inner.Covers y) : ¬Within outer inner := by
  rintro ⟨-, covers⟩
  exact apart inner.base covers ⟨le_refl _, Nat.lt_add_of_pos_right (size_pos _)⟩

/-- Pages can be stored one after the other exactly if none is strictly inside an earlier
one. -/
theorem storeAll_isSome_iff (fits : ∀ page ∈ pages, page.Fits top) :
    (storeAll top pages blank).isSome ↔ pages.Pairwise fun first second => ¬Within first second := by
  rw [Option.isSome_iff_exists]
  refine ⟨?_, storeAll_isSome fits⟩
  rintro ⟨next, stored⟩
  induction pages using List.reverseRecOn generalizing next with
  | nil => exact List.Pairwise.nil
  | append_singleton pages last ih =>
      rw [storeAll_concat, Option.bind_eq_some_iff] at stored
      obtain ⟨middle, before, stored⟩ := stored
      have fitsFront : ∀ page ∈ pages, page.Fits top := fun page member => fits page (List.mem_append_left _ member)
      have fitsLast := fits last (List.mem_append_right _ List.mem_cons_self)
      refine List.pairwise_append.mpr ⟨ih fitsFront middle before, List.pairwise_singleton _ _, ?_⟩
      rintro page member other single ⟨smaller, covers⟩
      rw [List.mem_singleton.mp single] at smaller covers
      obtain ⟨leaf, level, ends, larger⟩ := walk_level_ge fitsFront before member covers fitsLast.bound
      have small := (store_isSome_iff).mp (Option.isSome_iff_exists.mpr ⟨next, stored⟩) leaf level ends
      omega

/-- A range is added whose pages have no address in common with each other and with those of
the earlier ranges. -/
theorem storeAll_add {ι : Type} {ranges : List ι} {range : ι} {pages : ι → List (Page α)}
    (fits : ∀ range' ∈ ranges ++ [range], ∀ page ∈ pages range', page.Fits top)
    (inner : ∀ range' ∈ ranges ++ [range], (pages range').Pairwise fun first second => ∀ y, first.Covers y → ¬second.Covers y)
    (outer : (ranges ++ [range]).Pairwise fun first second =>
      ∀ page ∈ pages first, ∀ other ∈ pages second, ∀ y, page.Covers y → ¬other.Covers y)
    (stored : storeAll top (ranges.flatMap pages) blank = some entries) :
    ∃ next, storeAll top (pages range) entries = some next ∧
      storeAll top ((ranges ++ [range]).flatMap pages) blank = some next := by
  have fitsAll : ∀ page ∈ (ranges ++ [range]).flatMap pages, page.Fits top := by
    intro page member
    obtain ⟨range', rangeMem, inside⟩ := List.mem_flatMap.mp member
    exact fits range' rangeMem page inside
  have apart : ((ranges ++ [range]).flatMap pages).Pairwise fun first second => ¬Within first second := by
    rw [List.pairwise_flatMap]
    refine ⟨fun range' member => (inner range' member).imp not_within_of_apart, ?_⟩
    exact outer.imp fun apart page member other otherMem => not_within_of_apart (apart page member other otherMem)
  obtain ⟨next, whole⟩ := storeAll_isSome fitsAll apart
  have last := whole
  rw [List.flatMap_append, List.flatMap_singleton, storeAll_append, stored, Option.bind_some] at last
  exact ⟨next, last, whole⟩

end Dragonfly.Lib.PageTable
