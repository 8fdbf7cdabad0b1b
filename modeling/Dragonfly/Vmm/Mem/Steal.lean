import Dragonfly.Vmm.Mem.Pool

/-!
# Memory that the host does not use

The base of an entry of the memory map is rounded up and its length is rounded down, each on
its own.  What is recorded is inside the entry only if the two roundings fit together.
-/

namespace Dragonfly.Vmm.Mem

open Dragonfly.Lib

/-- The next multiple of the size of a large page. -/
def up (x : Nat) : Nat := (x + (nbpdr - 1)) / nbpdr * nbpdr

/-- Entries that follow each other without overlap in the 64-bit address space. -/
structure Wellformed (map : List Smap) : Prop where
  bound : ∀ entry ∈ map, entry.base + entry.length ≤ 2 ^ 64
  increasing : map.Pairwise fun first second => first.base + first.length ≤ second.base

/-- The memory entries that are looked at, up to the first empty one. -/
def entries (map : List Smap) : List Smap :=
  (map.takeWhile fun entry => !(entry.memory && decide (entry.length = 0))).filter (·.memory)

/-- Something is recorded of an entry. -/
def Usable (maxmem : Nat) (entry : Smap) : Prop :=
  up maxmem < up entry.base + rounddown entry.length ∧ 0 < rounddown entry.length ∧
    up entry.base + rounddown entry.length < 2 ^ 64

instance (maxmem : Nat) (entry : Smap) : Decidable (Usable maxmem entry) :=
  inferInstanceAs (Decidable (_ ∧ _ ∧ _))

/-- The map is harmless: what the base of a usable entry moves up is at most what the length
loses, no two usable entries meet after the rounding, and nothing is recorded at address
zero. -/
structure Clean (maxmem : Nat) (map : List Smap) : Prop where
  fits : ∀ entry ∈ entries map, Usable maxmem entry →
    up entry.base - entry.base ≤ entry.length - rounddown entry.length
  apart : (entries map).Pairwise fun first second => Usable maxmem first → Usable maxmem second →
    up first.base + rounddown first.length ≠ up second.base
  nonzero : ∀ entry ∈ entries map, Usable maxmem entry → maxmem = 0 → entry.base ≠ 0

variable {maxmem : Nat} {map : List Smap} {entry : Smap} {segs : List Span}

/-! ## Rounding -/

theorem up_spec (x : Nat) : x ≤ up x ∧ up x < x + nbpdr := by
  unfold up nbpdr
  omega

theorem nbpdr_dvd_up (x : Nat) : nbpdr ∣ up x := Dvd.intro_left _ rfl

theorem rounddown_le (x : Nat) : rounddown x ≤ x := Nat.div_mul_le_self ..

theorem nbpdr_dvd_rounddown (x : Nat) : nbpdr ∣ rounddown x := Dvd.intro_left _ rfl

theorem nbpdr_dvd_two_pow : nbpdr ∣ 2 ^ 64 := by
  unfold nbpdr
  decide

/-- The next multiple is the least one. -/
theorem up_le {x multiple : Nat} (dvd : nbpdr ∣ multiple) (le : x ≤ multiple) : up x ≤ multiple := by
  obtain ⟨k, rfl⟩ := dvd
  unfold up nbpdr at *
  omega

theorem le_of_dvd {x y : Nat} (one : nbpdr ∣ x) (two : nbpdr ∣ y) (less : x < y) : x + nbpdr ≤ y := by
  obtain ⟨i, rfl⟩ := one
  obtain ⟨j, rfl⟩ := two
  unfold nbpdr at *
  omega

theorem add64_of_lt {x y : Nat} (small : x + y < 2 ^ 64) : add64 x y = x + y := Nat.mod_eq_of_lt small

theorem sub64_of_le {x y : Nat} (le : y ≤ x) (small : x < 2 ^ 64) : sub64 x y = x - y := by
  unfold sub64
  omega

theorem roundup_eq {x : Nat} (small : up x < 2 ^ 64) : roundup x = up x := by
  have below := (up_spec x).1
  have room := le_of_dvd (nbpdr_dvd_up x) nbpdr_dvd_two_pow small
  unfold roundup
  rw [add64_of_lt (by unfold nbpdr at *; omega)]
  rfl

theorem add64_lt (x y : Nat) : add64 x y < 2 ^ 64 := by
  rw [add64]
  exact Nat.mod_lt _ (by decide)

theorem roundup_lt (x : Nat) : roundup x < 2 ^ 64 := by
  have small := add64_lt x (nbpdr - 1)
  have below := Nat.div_mul_le_self (add64 x (nbpdr - 1)) nbpdr
  rw [roundup]
  omega

/-! ## What is recorded of an entry -/

/-- The segment of a usable entry. -/
def segment (maxmem : Nat) (entry : Smap) : Span :=
  ⟨max (up entry.base) (up maxmem),
    up entry.base + rounddown entry.length - max (up entry.base) (up maxmem)⟩

theorem record_usable (usable : Usable maxmem entry) :
    record maxmem entry = some (segment maxmem entry) := by
  obtain ⟨above, some, small⟩ := usable
  have host := (up_spec maxmem).1
  have sum : add64 (up entry.base) (rounddown entry.length) = up entry.base + rounddown entry.length :=
    add64_of_lt small
  rw [record, roundup_eq (by omega), recordPart, sum, if_neg (by omega), segment]
  by_cases below : up entry.base < maxmem
  · -- the host uses the first part of the entry
    have order : up entry.base ≤ up maxmem := by omega
    have first : used maxmem (up entry.base) = up maxmem - up entry.base := by
      rw [used, if_pos below, roundup_eq (by omega), sub64_of_le order (by omega)]
    have left : sub64 (rounddown entry.length) (up maxmem - up entry.base) =
        up entry.base + rounddown entry.length - up maxmem := by
      rw [sub64_of_le (by omega) (by omega)]
      omega
    rw [first, left, if_neg (by omega), add64_of_lt (by omega), Nat.max_eq_right order,
      Nat.add_sub_cancel' order]
  · have order : up maxmem ≤ up entry.base := up_le (nbpdr_dvd_up _) (by omega)
    have first : used maxmem (up entry.base) = 0 := if_neg below
    rw [first, sub64_of_le (Nat.zero_le _) (by omega), Nat.sub_zero, if_neg (by omega),
      add64_of_lt (by omega), Nat.max_eq_left order, Nat.add_zero, Nat.add_sub_cancel_left]

theorem record_unusable (not : ¬Usable maxmem entry) (bound : entry.base + entry.length ≤ 2 ^ 64) :
    record maxmem entry = none := by
  have inside := rounddown_le entry.length
  have near := up_spec entry.base
  have host := (up_spec maxmem).1
  have multiple := Nat.dvd_add (nbpdr_dvd_up entry.base) (nbpdr_dvd_rounddown entry.length)
  rw [record, recordPart]
  by_cases empty : rounddown entry.length = 0
  · -- nothing is left after the rounding
    have same : add64 (roundup entry.base) 0 = roundup entry.base := by
      rw [add64, Nat.add_zero]
      exact Nat.mod_eq_of_lt (roundup_lt _)
    rw [empty, same]
    split
    · rfl
    · rename_i beyond
      have none : used maxmem (roundup entry.base) = 0 := if_neg fun below => beyond below.le
      rw [none, sub64_of_le (le_refl 0) (by decide), if_pos (Nat.sub_self 0)]
  · have sumLe : up entry.base + rounddown entry.length ≤ 2 ^ 64 := by
      by_contra large
      have room := le_of_dvd nbpdr_dvd_two_pow multiple (by omega)
      omega
    rw [roundup_eq (by omega)]
    by_cases full : up entry.base + rounddown entry.length = 2 ^ 64
    · -- the sum is zero in 64 bits
      rw [show add64 (up entry.base) (rounddown entry.length) = 0 by rw [add64, full, Nat.mod_self],
        if_pos (Nat.zero_le _)]
    · have notAbove : up entry.base + rounddown entry.length ≤ up maxmem := by
        by_contra above
        exact not ⟨by omega, by omega, by omega⟩
      rw [add64_of_lt (by omega)]
      split
      · rfl
      · rename_i beyond
        -- the host uses all whole pages
        have all : up maxmem = up entry.base + rounddown entry.length :=
          le_antisymm (up_le multiple (by omega)) notAbove
        have below : up entry.base < maxmem := by
          by_contra outside
          have order := up_le (nbpdr_dvd_up entry.base) (show maxmem ≤ up entry.base by omega)
          omega
        have first : used maxmem (up entry.base) = rounddown entry.length := by
          rw [used, if_pos below, roundup_eq (by omega), all, sub64_of_le (by omega) (by omega),
            Nat.add_sub_cancel_left]
        rw [first, sub64_of_le (le_refl _) (by omega), if_pos (Nat.sub_self _)]

/-- What is recorded of a usable entry starts in it, above the memory of the host. -/
theorem segment_spec (usable : Usable maxmem entry) :
    entry.base ≤ (segment maxmem entry).lo ∧ maxmem ≤ (segment maxmem entry).lo ∧
      (segment maxmem entry).lo < entry.base + entry.length ∧
      (segment maxmem entry).hi = up entry.base + rounddown entry.length ∧
      nbpdr ≤ (segment maxmem entry).len := by
  obtain ⟨above, some, -⟩ := usable
  have near := up_spec entry.base
  have host := (up_spec maxmem).1
  have inside := rounddown_le entry.length
  have multiple := Nat.dvd_add (nbpdr_dvd_up entry.base) (nbpdr_dvd_rounddown entry.length)
  have one := le_of_dvd (nbpdr_dvd_up entry.base) multiple (by omega)
  have two := le_of_dvd (nbpdr_dvd_up maxmem) multiple above
  unfold segment Span.hi
  refine ⟨?_, ?_, ?_, ?_, ?_⟩ <;> simp only <;> omega

/-! ## What is recorded of a map -/

theorem entries_cons_other (other : entry.memory = false) (map : List Smap) :
    entries (entry :: map) = entries map := by
  rw [entries, entries, List.takeWhile_cons_of_pos (by simp [other]), List.filter_cons_of_neg (by simp [other])]

theorem entries_cons_empty (memory : entry.memory = true) (empty : entry.length = 0) (map : List Smap) :
    entries (entry :: map) = [] := by
  rw [entries, List.takeWhile_cons_of_neg (by simp [memory, empty]), List.filter_nil]

theorem entries_cons (memory : entry.memory = true) (some : entry.length ≠ 0) (map : List Smap) :
    entries (entry :: map) = entry :: entries map := by
  rw [entries, entries, List.takeWhile_cons_of_pos (by simp [some]), List.filter_cons_of_pos (by simp [memory])]

theorem entries_sublist (map : List Smap) : (entries map).Sublist map :=
  List.filter_sublist.trans (List.takeWhile_sublist _)

theorem memory_of_mem_entries (member : entry ∈ entries map) : entry.memory = true := by
  simpa using (List.mem_filter.mp member).2

/-- The loop records what is recorded of the entries, in their order. -/
theorem stealLoop_eq {take : Smap → Option Span} {front : List Span}
    (done : stealLoop take map front = some segs) : segs = front ++ (entries map).filterMap take := by
  induction map generalizing front with
  | nil =>
      obtain rfl := Option.some.inj done
      exact (List.append_nil _).symm
  | cons entry map ih =>
      rw [stealLoop] at done
      cases memory : entry.memory with
      | false =>
          rw [if_pos memory] at done
          rw [entries_cons_other memory]
          exact ih done
      | true =>
          rw [if_neg (by rw [memory]; decide)] at done
          by_cases empty : entry.length = 0
          · rw [if_pos empty] at done
            obtain rfl := Option.some.inj done
            rw [entries_cons_empty memory empty, List.filterMap_nil, List.append_nil]
          · rw [if_neg empty] at done
            rw [entries_cons memory empty]
            cases found : take entry with
            | none =>
                rw [found] at done
                rw [List.filterMap_cons_none found]
                exact ih done
            | some seg =>
                simp only [found] at done
                by_cases full : vmmMemMaxsegs ≤ front.length + 1
                · rw [if_pos full] at done
                  cases done
                · rw [if_neg full] at done
                  rw [List.filterMap_cons_some found, ih done, List.append_assoc, List.singleton_append]

/-- The segments are those of the usable entries. -/
theorem mem_filterMap_record (wellformed : Wellformed map) {seg : Span} :
    seg ∈ (entries map).filterMap (record maxmem) ↔
      ∃ entry ∈ entries map, Usable maxmem entry ∧ segment maxmem entry = seg := by
  rw [List.mem_filterMap]
  refine exists_congr fun entry => and_congr_right fun member => ?_
  by_cases usable : Usable maxmem entry
  · rw [record_usable usable, Option.some.injEq]
    exact (and_iff_right usable).symm
  · rw [record_unusable usable (wellformed.bound entry ((entries_sublist map).subset member))]
    exact iff_of_false nofun fun both => usable both.1

/-- The rounding keeps the order of the entries. -/
theorem up_le_of_before {first second : Smap} (before : first.base + first.length ≤ second.base) :
    up first.base + rounddown first.length ≤ up second.base := by
  have inside := rounddown_le first.length
  have beyond := (up_spec second.base).1
  have multiple := Nat.dvd_sub (nbpdr_dvd_up second.base) (nbpdr_dvd_rounddown first.length)
  have least : up first.base ≤ up second.base - rounddown first.length := up_le multiple (by omega)
  omega

/-- Two usable entries meet after the rounding, or their segments do not. -/
theorem segment_lt_iff {first second : Smap} (before : first.base + first.length ≤ second.base)
    (usable : Usable maxmem first) : (segment maxmem first).hi < (segment maxmem second).lo ↔
      up first.base + rounddown first.length ≠ up second.base := by
  have order := up_le_of_before before
  have above := usable.1
  rw [(segment_spec usable).2.2.2.1]
  show _ < max (up second.base) (up maxmem) ↔ _
  omega

theorem separate_iff (wellformed : Wellformed map) :
    Separate ((entries map).filterMap (record maxmem)) ↔
      (entries map).Pairwise fun first second => Usable maxmem first → Usable maxmem second →
        up first.base + rounddown first.length ≠ up second.base := by
  have increasing := wellformed.increasing.sublist (entries_sublist map)
  have bound : ∀ entry ∈ entries map, entry.base + entry.length ≤ 2 ^ 64 := fun entry member =>
    wellformed.bound entry ((entries_sublist map).subset member)
  have recorded : ∀ entry ∈ entries map, ∀ seg, record maxmem entry = some seg →
      Usable maxmem entry ∧ segment maxmem entry = seg := by
    intro entry member seg found
    by_cases usable : Usable maxmem entry
    · exact ⟨usable, Option.some.inj ((record_usable usable).symm.trans found)⟩
    · rw [record_unusable usable (bound entry member)] at found
      cases found
  rw [Separate, List.pairwise_filterMap]
  constructor
  · intro separate
    refine (increasing.and separate).imp fun both one two => ?_
    exact (segment_lt_iff both.1 one).mp (both.2 _ (record_usable one) _ (record_usable two))
  · intro apart
    refine (increasing.and apart).imp_of_mem ?_
    intro first second one two both seg found seg' found'
    obtain ⟨usable, rfl⟩ := recorded first one seg found
    obtain ⟨usable', rfl⟩ := recorded second two seg' found'
    exact (segment_lt_iff both.1 usable).mpr (both.2 usable usable')

/-- The entries of a map do not overlap. -/
theorem eq_of_overlap (wellformed : Wellformed map) {first second : Smap} (one : first ∈ map) (two : second ∈ map)
    {address : Nat} (inside : first.base ≤ address ∧ address < first.base + first.length)
    (inside' : second.base ≤ address ∧ address < second.base + second.length) : first = second := by
  obtain ⟨-, increasing⟩ := wellformed
  induction map with
  | nil => cases one
  | cons entry rest ih =>
      obtain ⟨after, increasing⟩ := List.pairwise_cons.mp increasing
      obtain rfl | first' := List.mem_cons.mp one
      · obtain rfl | second' := List.mem_cons.mp two
        · rfl
        · have beyond := after second second'
          omega
      · obtain rfl | second' := List.mem_cons.mp two
        · have beyond := after first first'
          omega
        · exact ih first' second' increasing

/-! ## The whole -/

/-- Guest memory is taken from unused memory only, and all that is promised of it holds
whatever calls follow, exactly if the memory map is clean. -/
theorem stolen_memory_iff (wellformed : Wellformed map) (stolen : vmmMemStealMemory maxmem map = some segs) :
    ((∀ seg ∈ segs, maxmem ≤ seg.lo ∧ ∃ entry ∈ map, entry.memory = true ∧ entry.base ≤ seg.lo ∧
        seg.hi ≤ entry.base + entry.length) ∧
      ∀ pool, Reaches segs pool → pool.Promised (size segs)) ↔ Clean maxmem map := by
  obtain rfl : segs = (entries map).filterMap (record maxmem) := stealLoop_eq stolen
  have recorded {entry : Smap} (member : entry ∈ entries map) (usable : Usable maxmem entry) :
      segment maxmem entry ∈ (entries map).filterMap (record maxmem) :=
    (mem_filterMap_record wellformed).mpr ⟨entry, member, usable, rfl⟩
  have inMap {entry : Smap} (member : entry ∈ entries map) : entry ∈ map := (entries_sublist map).subset member
  constructor
  · rintro ⟨unused, promised⟩
    have start := promised _ ⟨[], .nil _⟩
    refine ⟨fun entry member usable => ?_, (separate_iff wellformed).mp start.separate,
      fun entry member usable none zero => ?_⟩
    · obtain ⟨low, -, inside, hi, large⟩ := segment_spec usable
      obtain ⟨-, other, member', -, low', high'⟩ := unused _ (recorded member usable)
      have positive : 0 < (segment maxmem entry).len := Nat.lt_of_lt_of_le (by decide) large
      have nonempty : (segment maxmem entry).lo < (segment maxmem entry).hi := Nat.lt_add_of_pos_right positive
      obtain rfl := eq_of_overlap wellformed (inMap member) member' ⟨low, inside⟩
        ⟨low', Nat.lt_of_lt_of_le nonempty high'⟩
      rw [hi] at high'
      omega
    · -- the segment at address zero looks like a failure to the caller
      have zeroLo : (segment maxmem entry).lo = 0 := by
        show max (up entry.base) (up maxmem) = 0
        rw [none, zero]
        rfl
      have first : ∀ seg ∈ (entries map).filterMap (record maxmem), nbpdr ≤ seg.len := by
        intro seg inside
        obtain ⟨other, -, usable', rfl⟩ := (mem_filterMap_record wellformed).mp inside
        exact (segment_spec usable').2.2.2.2
      obtain ⟨-, all⟩ | ⟨front, seg, back, is, -, before, found⟩ :=
        allocLoop_cases ((entries map).filterMap (record maxmem)) nbpdr
      · have less := all _ (recorded member usable)
        have large := first _ (recorded member usable)
        omega
      · obtain rfl : front = [] := by
          cases front with
          | nil => rfl
          | cons other front =>
              have less := before other List.mem_cons_self
              have large := first other (by rw [is]; exact List.mem_cons_self)
              omega
        have order := start.separate
        have here := recorded member usable
        rw [show (⟨(entries map).filterMap (record maxmem), []⟩ : Pool).avail =
          (entries map).filterMap (record maxmem) from rfl] at order
        rw [is] at here order
        have low : seg.lo = 0 := by
          obtain same | later := List.mem_cons.mp here
          · rw [← same]
            exact zeroLo
          · have after := (List.pairwise_cons.mp order).1 _ later
            omega
        rw [low] at found
        have less := start.fails nbpdr _ (by decide) (by
          rw [vmmMemAlloc, if_neg (by decide)]
          exact congrArg some found) _ (recorded member usable)
        have large := first _ (recorded member usable)
        omega
  · intro clean
    refine ⟨fun seg inside => ?_, fun pool reaches => ?_⟩
    · obtain ⟨entry, member, usable, rfl⟩ := (mem_filterMap_record wellformed).mp inside
      obtain ⟨low, above, -, hi, -⟩ := segment_spec usable
      have fits := clean.fits entry member usable
      have near := (up_spec entry.base).1
      have shorter := rounddown_le entry.length
      refine ⟨above, entry, inMap member, memory_of_mem_entries member, low, ?_⟩
      rw [hi]
      omega
    · refine (Reaches.inv ((separate_iff wellformed).mpr clean.apart) ?_ reaches).promised
      intro seg inside
      obtain ⟨entry, member, usable, rfl⟩ := (mem_filterMap_record wellformed).mp inside
      obtain ⟨low, above, -, -, large⟩ := segment_spec usable
      refine ⟨Nat.lt_of_lt_of_le (by decide) large, ?_⟩
      have nonzero := clean.nonzero entry member usable
      omega

/-- A map with one entry at 4 GB, of which nothing is used by the host. -/
theorem stolen_memory_aligned : (∀ seg ∈ [(⟨0x100000000, 0x40000000⟩ : Span)],
      0x40000000 ≤ seg.lo ∧ ∃ entry ∈ [(⟨0x100000000, 0x40000000, true⟩ : Smap)], entry.memory = true ∧
        entry.base ≤ seg.lo ∧ seg.hi ≤ entry.base + entry.length) ∧
    ∀ pool, Reaches [⟨0x100000000, 0x40000000⟩] pool → pool.Promised (size [⟨0x100000000, 0x40000000⟩]) := by
  have wellformed : Wellformed [⟨0x100000000, 0x40000000, true⟩] :=
    ⟨by decide, List.pairwise_singleton ..⟩
  refine (@stolen_memory_iff 0x40000000 [⟨0x100000000, 0x40000000, true⟩] _ wellformed
    (by rfl)).mpr ⟨by decide, ?_, by decide⟩
  exact List.pairwise_singleton ..

/-- An entry from 4 GB + 1 MB to 4 GB + 3 MB is recorded as the memory from 4 GB + 2 MB to
4 GB + 4 MB. -/
theorem stolen_memory_outside :
    vmmMemStealMemory 0x40000000 [⟨0x100100000, 0x200000, true⟩] = some [⟨0x100200000, 0x200000⟩] ∧
      ¬(⟨0x100200000, 0x200000⟩ : Span).hi ≤ 0x100100000 + 0x200000 := by
  decide

end Dragonfly.Vmm.Mem
