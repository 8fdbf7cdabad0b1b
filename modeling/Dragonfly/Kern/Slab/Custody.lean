import Mathlib.Data.List.Basic
import Mathlib.Data.List.Perm.Basic
import Dragonfly.Lib.Chain
import Dragonfly.Kern.Slab.Remote

/-!
# No chunk is lost between two cpus

At every step each chunk of the zone is in one place: never used, on `z_LChunks`,
in the owner's hands between the two lists, on `z_RChunks`, live, or in the hands
of a `kfree` on another cpu.
-/

namespace Dragonfly.Kern.Slab.Remote

open Lib

variable {s s' : State} {r : RemoteFree} {front back : List RemoteFree} {label : Label} {a b c : Nat}
  {near taken far : List Nat}

/-- The chunk a `kfree` has not linked yet. -/
def RemoteFree.holds (r : RemoteFree) : Option Nat :=
  match r.pc with
  | .tell _ _ => none
  | _ => some r.chunk

/-- The `kfree` has bumped `z_RCount` and will drop it or send a message. -/
def RemoteFree.counted (r : RemoteFree) : Bool :=
  match r.pc with
  | .load | .count _ => false
  | .head rsignal | .link rsignal _ | .push rsignal _ | .tell rsignal _ => rsignal

/-- Its share of `z_RCount`. -/
def RemoteFree.share (r : RemoteFree) : Nat := if r.counted then 1 else 0

/-- The owner has counted a chunk out that it has not taken yet. -/
def Owner.owes : Owner → Nat
  | .look | .signal | .take => 1
  | .fetch .kmalloc | .swap .kmalloc _ | .append .kmalloc _ | .walk .kmalloc _ | .drained .kmalloc => 1
  | _ => 0

/-- The owner has no chunk between the two lists in its hands. -/
def Owner.Quiet : Owner → Prop
  | .append _ _ | .walk _ _ => False
  | _ => True

/-- What is on `z_LChunks` (`near`) and in the owner's hands (`taken`). -/
def Drains (s : State) (near taken : List Nat) : Prop :=
  match s.owner with
  | .append _ bchunk => Chain s.cNext near s.lChunks ∧ Chain s.cNext taken bchunk ∧ taken ≠ []
  | .walk _ bchunk =>
      Chain s.cNext (near ++ taken) s.lChunks ∧ Chain s.cNext taken bchunk ∧ 0 < s.nfree + taken.length
  | _ => Chain s.cNext near s.lChunks ∧ taken = []

/-- Every chunk is in exactly one place. -/
def Parted (s : State) (near taken far : List Nat) : Prop :=
  ∀ a, s.fresh.count a + near.count a + taken.count a + far.count a + s.live.count a +
    (s.remotes.filterMap RemoteFree.holds).count a = s.chunks.count a

/-- The zone is on its list when it has a free chunk, seen from where the owner is. -/
def Listed (s : State) : Prop :=
  match s.owner with
  | .look | .signal | .fetch .kmalloc | .swap .kmalloc _ | .append .kmalloc _ | .walk .kmalloc _
  | .drained .kmalloc => s.onList = true
  | .seen nfree | .clear nfree | .fetch (.kfreeRemote nfree) | .swap (.kfreeRemote nfree) _
  | .append (.kfreeRemote nfree) _ | .walk (.kfreeRemote nfree) _ | .drained (.kfreeRemote nfree) =>
      (s.onList = true ↔ nfree ≠ 0) ∧ 0 ≤ nfree ∧ nfree ≤ s.nfree
  | .retire => s.onList = true ∧ s.nfree = s.chunks.length ∧ s.rCount = 0
  | .idle | .take | .check => s.retired = false → (s.onList = true ↔ s.nfree ≠ 0)

/-- The invariant. -/
structure Ok (s : State) : Prop where
  distinct : s.chunks.Nodup
  nonnull : ∀ c ∈ s.chunks, c ≠ 0
  many : 1 < s.chunks.length
  lists : ∃ near taken far, Drains s near taken ∧ Tail near s.lChunksp ∧ Chain s.cNext far s.rChunks ∧
    Parted s near taken far ∧ s.nfree + s.owner.owes = (near.length + s.fresh.length : Nat)
  nonneg : 0 ≤ s.nfree
  fetched : ∀ call bchunk, s.owner = .swap call bchunk → bchunk ≠ 0
  linked : ∀ r ∈ s.remotes, ∀ rsignal bchunk, r.pc = .push rsignal bchunk → s.cNext r.chunk = bchunk
  rCount : s.rCount = (s.messages + s.remotes.countP (·.counted) : Nat)
  listed : Listed s
  retired : s.retired = true → s.owner = .idle ∧ s.onList = false ∧ s.nfree = s.chunks.length ∧ s.rCount = 0

/-! ## Where the chunks are -/

namespace Parted

theorem perm (parted : Parted s near taken far) :
    (s.fresh ++ near ++ taken ++ far ++ s.live ++ s.remotes.filterMap RemoteFree.holds).Perm s.chunks := by
  rw [List.perm_iff_count]
  intro a
  simp only [List.count_append]
  exact parted a

theorem length (parted : Parted s near taken far) :
    s.fresh.length + near.length + taken.length + far.length + s.live.length +
      (s.remotes.filterMap RemoteFree.holds).length = s.chunks.length := by
  have same := parted.perm.length_eq
  simpa only [List.length_append] using same

/-- A chunk of the zone is counted once in all. -/
theorem once (parted : Parted s near taken far) (distinct : s.chunks.Nodup) (a : Nat) :
    s.fresh.count a + near.count a + taken.count a + far.count a + s.live.count a +
      (s.remotes.filterMap RemoteFree.holds).count a ≤ 1 := by
  rw [parted a]
  exact List.nodup_iff_count_le_one.mp distinct a

theorem mem (parted : Parted s near taken far) (some : 0 < s.fresh.count a + near.count a + taken.count a +
    far.count a + s.live.count a + (s.remotes.filterMap RemoteFree.holds).count a) : a ∈ s.chunks := by
  rw [parted a] at some
  exact List.count_pos_iff.mp some

end Parted

/-- Where the chunk of a free in progress is. -/
theorem count_holds (here : s.remotes = front ++ r :: back) (a : Nat) :
    (s.remotes.filterMap RemoteFree.holds).count a =
      ((front ++ back).filterMap RemoteFree.holds).count a + (r.holds.toList).count a := by
  rw [here]
  simp only [List.filterMap_append, List.filterMap_cons, List.count_append]
  cases r.holds with
  | none => simp
  | some chunk =>
      simp only [List.count_cons, Option.toList_some, List.count_nil]
      omega

theorem count_held (here : s.remotes = front ++ r :: back) (held : r.holds = some c) :
    0 < (s.remotes.filterMap RemoteFree.holds).count c := by
  rw [count_holds here, held]
  simp

/-! ## Steps of the owner -/

/-- Outside the draining of `z_RChunks` nothing is in the owner's hands. -/
theorem Drains.quiet (drains : Drains s near taken) (quiet : s.owner.Quiet) :
    Chain s.cNext near s.lChunks ∧ taken = [] := by
  unfold Drains at drains
  cases same : s.owner with
  | append call bchunk =>
      rw [same] at quiet
      exact quiet.elim
  | walk call bchunk =>
      rw [same] at quiet
      exact quiet.elim
  | _ => rwa [same] at drains

theorem Ok.active (ok : Ok s) (busy : s.owner ≠ .idle ∨ s.onList = true) : s.retired = false := by
  by_contra retired
  obtain ⟨idle, off, -⟩ := ok.retired (Bool.eq_true_of_not_eq_false retired)
  rcases busy with busy | on
  · exact busy idle
  · rw [off] at on
    cases on

theorem Ok.kmalloc (ok : Ok s) (idle : s.owner = .idle) (listed : s.onList = true) :
    ∃ s', Remote.kmalloc s = .ok s' ∧ Ok s' := by
  have active := ok.active (.inr listed)
  have some : s.nfree ≠ 0 := by
    have same := ok.listed
    unfold Listed at same
    rw [idle] at same
    exact (same active).mp listed
  have nonneg := ok.nonneg
  obtain ⟨near, taken, far, drains, tail, chain, parted, count⟩ := ok.lists
  rw [idle] at count
  obtain ⟨list, none⟩ := drains.quiet (by rw [idle]; trivial)
  have count : s.nfree + 0 = (near.length + s.fresh.length : Nat) := count
  have lists : s.nfree - 1 + 1 = (near.length + s.fresh.length : Nat) := by omega
  unfold Remote.kmalloc
  simp only
  by_cases last : s.nfree - 1 ≤ 0
  · rw [if_pos last, if_neg (by omega)]
    exact ⟨_, rfl,
      { ok with
        lists := ⟨near, taken, far, ⟨list, none⟩, tail, chain, parted, lists⟩
        nonneg := by show 0 ≤ s.nfree - 1; omega
        fetched := nofun
        listed := listed
        retired := fun retired => absurd (active.symm.trans retired) (by decide) }⟩
  · rw [if_neg last]
    exact ⟨_, rfl,
      { ok with
        lists := ⟨near, taken, far, ⟨list, none⟩, tail, chain, parted, lists⟩
        nonneg := by show 0 ≤ s.nfree - 1; omega
        fetched := nofun
        listed := fun _ => ⟨fun _ => by show s.nfree - 1 ≠ 0; omega, fun _ => listed⟩
        retired := fun retired => absurd (active.symm.trans retired) (by decide) }⟩

/-- The link fields of a list do not change when another chunk's does. -/
theorem chain_update {next : Nat → Nat} {nodes : List Nat} {head : Nat} (chain : Chain next nodes head)
    (missing : c ∉ nodes) : Chain (Function.update next c b) nodes head := by
  apply chain.congr
  intro node member
  apply Function.update_of_ne
  rintro rfl
  exact missing member

theorem Ok.kfree (ok : Ok s) (idle : s.owner = .idle) (held : c ∈ s.live) : Ok (Remote.kfree c s) := by
  obtain ⟨near, taken, far, drains, tail, chain, parted, count⟩ := ok.lists
  obtain ⟨list, rfl⟩ := drains.quiet (by rw [idle]; trivial)
  have once := parted.once ok.distinct
  have here := List.count_pos_iff.mpr held
  have nonnull := ok.nonnull c (parted.mem (a := c) (by omega))
  have apart : ∀ {xs : List Nat}, (xs = near ∨ xs = far) → c ∉ xs := by
    rintro xs either member
    have there := List.count_pos_iff.mpr member
    have bound := once c
    rcases either with rfl | rfl <;> omega
  rw [idle] at count
  have count : s.nfree + 0 = (near.length + s.fresh.length : Nat) := count
  have active : s.retired = false := by
    by_contra retired
    obtain ⟨-, -, full, -⟩ := ok.retired (Bool.eq_true_of_not_eq_false retired)
    have length := parted.length
    have positive := List.length_pos_of_mem held
    omega
  have listed : s.onList = true ↔ s.nfree ≠ 0 := by
    have same := ok.listed
    unfold Listed at same
    rw [idle] at same
    exact same active
  have nonneg := ok.nonneg
  unfold Remote.kfree
  exact {
    distinct := ok.distinct
    nonnull := ok.nonnull
    many := ok.many
    lists := by
      refine ⟨c :: near, [], far, ⟨⟨rfl, nonnull, ?_⟩, rfl⟩, ?_, chain_update chain (apart (.inr rfl)), ?_, ?_⟩
      · show Chain (Function.update s.cNext c s.lChunks) near (Function.update s.cNext c s.lChunks c)
        rw [Function.update_self]
        exact chain_update list (apart (.inl rfl))
      · have cons := @Tail.cons _ _ c tail
        show Tail (c :: near) (if s.lChunks = 0 then some c else s.lChunksp)
        by_cases empty : near = []
        · have zero : s.lChunks = 0 := by
            rw [empty] at list
            exact list
          rw [if_pos zero]
          rwa [if_pos empty] at cons
        · have more : s.lChunks ≠ 0 := by
            intro zero
            rw [zero] at list
            exact empty list.eq_nil
          rw [if_neg more]
          rwa [if_neg empty] at cons
      · intro a
        have before := parted a
        show s.fresh.count a + (c :: near).count a + [].count a + far.count a + (s.live.erase c).count a +
          (s.remotes.filterMap RemoteFree.holds).count a = s.chunks.count a
        rcases eq_or_ne a c with rfl | other
        · rw [List.count_cons_self, List.count_erase_self]
          omega
        · rw [List.count_cons_of_ne other.symm, List.count_erase_of_ne other]
          exact before
      · show s.nfree + 1 + 0 = ((c :: near).length + s.fresh.length : Nat)
        rw [List.length_cons]
        omega
    nonneg := by show 0 ≤ s.nfree + 1; omega
    fetched := nofun
    linked := by
      intro r member rsignal bchunk pc
      have member : r ∈ s.remotes := member
      have stored := ok.linked r member rsignal bchunk pc
      obtain ⟨front, back, split⟩ := List.append_of_mem member
      have holds : r.holds = some r.chunk := by
        unfold RemoteFree.holds
        rw [pc]
      have there := count_held split holds
      have other : r.chunk ≠ c := by
        intro same
        have bound := once c
        rw [same] at there
        omega
      exact (Function.update_of_ne other ..).trans stored
    rCount := ok.rCount
    listed := by
      intro _
      show (if s.nfree = 0 then true else s.onList) = true ↔ s.nfree + 1 ≠ 0
      split
      case isTrue zero => exact ⟨fun _ => by omega, fun _ => rfl⟩
      case isFalse some => exact ⟨fun _ => by omega, fun _ => listed.mpr some⟩
    retired := fun retired => absurd (active.symm.trans retired) (by decide) }

theorem Ok.deliver (ok : Ok s) (idle : s.owner = .idle) (sent : 0 < s.messages) : Ok (Remote.deliver s) := by
  obtain ⟨near, taken, far, drains, tail, chain, parted, count⟩ := ok.lists
  obtain ⟨list, rfl⟩ := drains.quiet (by rw [idle]; trivial)
  rw [idle] at count
  have total := ok.rCount
  have active : s.retired = false := by
    by_contra retired
    obtain ⟨-, -, -, zero⟩ := ok.retired (Bool.eq_true_of_not_eq_false retired)
    omega
  have listed := ok.listed
  unfold Listed at listed
  rw [idle] at listed
  exact {
    distinct := ok.distinct
    nonnull := ok.nonnull
    many := ok.many
    lists := ⟨near, [], far, ⟨list, rfl⟩, tail, chain, parted, count⟩
    nonneg := ok.nonneg
    fetched := nofun
    linked := ok.linked
    rCount := by
      show s.rCount - 1 = ((s.messages - 1 + s.remotes.countP (·.counted) : Nat) : Int)
      omega
    listed := ⟨listed active, ok.nonneg, Int.le_refl _⟩
    retired := fun retired => absurd (active.symm.trans retired) (by decide) }

theorem Drains.of_quiet {owner : Owner} {rSignal onList : Bool} (quiet : owner.Quiet)
    (list : Chain s.cNext near s.lChunks ∧ taken = []) : Drains { s with owner, rSignal, onList } near taken := by
  unfold Drains
  cases owner with
  | append call bchunk => exact quiet.elim
  | walk call bchunk => exact quiet.elim
  | _ => exact list

/-- The owner goes on without touching a list of chunks. -/
theorem Ok.move (ok : Ok s) (busy : s.owner ≠ .idle) {owner : Owner} {rSignal onList : Bool} (first : s.owner.Quiet)
    (second : owner.Quiet) (owes : owner.owes = s.owner.owes)
    (fetched : ∀ call bchunk, owner = .swap call bchunk → bchunk ≠ 0) (listed : Listed { s with owner, rSignal, onList }) :
    Ok { s with owner, rSignal, onList } := by
  have active := ok.active (.inl busy)
  obtain ⟨near, taken, far, drains, tail, chain, parted, count⟩ := ok.lists
  exact {
    distinct := ok.distinct
    nonnull := ok.nonnull
    many := ok.many
    lists := ⟨near, taken, far, Drains.of_quiet second (drains.quiet first), tail, chain, parted, by
      show s.nfree + owner.owes = _
      rw [owes]
      exact count⟩
    nonneg := ok.nonneg
    fetched := fetched
    linked := ok.linked
    rCount := ok.rCount
    listed := listed
    retired := fun retired => absurd (active.symm.trans retired) (by decide) }

/-- The owner takes everything off `z_RChunks`. -/
theorem Ok.swapped (ok : Ok s) {call : Call} {bchunk : Nat} (here : s.owner = .swap call bchunk)
    (same : s.rChunks = bchunk) (some : bchunk ≠ 0) :
    Ok { s with rChunks := 0, owner := .append call bchunk } := by
  have active := ok.active (.inl (by rw [here]; nofun))
  obtain ⟨near, taken, far, drains, tail, chain, parted, count⟩ := ok.lists
  obtain ⟨list, rfl⟩ := drains.quiet (by rw [here]; trivial)
  rw [same] at chain
  have listed := ok.listed
  unfold Listed at listed
  rw [here] at listed count
  exact {
    distinct := ok.distinct
    nonnull := ok.nonnull
    many := ok.many
    lists := by
      refine ⟨near, far, [], ⟨list, chain, chain.ne_nil some⟩, tail, rfl, fun a => ?_, ?_⟩
      · have before := parted a
        show s.fresh.count a + near.count a + far.count a + [].count a + s.live.count a +
          (s.remotes.filterMap RemoteFree.holds).count a = s.chunks.count a
        omega
      · cases call <;> exact count
    nonneg := ok.nonneg
    fetched := nofun
    linked := ok.linked
    rCount := ok.rCount
    listed := by cases call <;> exact listed
    retired := fun retired => absurd (active.symm.trans retired) (by decide) }

/-- The chunks in the owner's hands are linked behind the last one of `z_LChunks`. -/
theorem Ok.appended (ok : Ok s) {call : Call} {bchunk : Nat} (here : s.owner = .append call bchunk) :
    ∃ s', Remote.ownerStep true s = .ok s' ∧ Remote.ownerStep false s = .ok s' ∧ Ok s' := by
  have active := ok.active (.inl (by rw [here]; nofun))
  obtain ⟨near, taken, far, drains, tail, chain, parted, count⟩ := ok.lists
  unfold Drains at drains
  rw [here] at drains
  obtain ⟨list, mine, some⟩ := drains
  have once := parted.once ok.distinct
  have listed := ok.listed
  unfold Listed at listed
  rw [here] at listed count
  have nonneg := ok.nonneg
  have positive := List.length_pos_iff.mpr some
  unfold Remote.ownerStep
  simp only [here]
  cases last : s.lChunksp with
  | none =>
      have empty : near = [] := by
        rw [← tail.none_iff]
        exact last
      subst empty
      refine ⟨_, rfl, rfl, ?_⟩
      exact {
        distinct := ok.distinct
        nonnull := ok.nonnull
        many := ok.many
        lists := by
          refine ⟨[], taken, far, ⟨mine, mine, ?_⟩, rfl, chain, parted, ?_⟩
          · show 0 < s.nfree + (taken.length : Int)
            omega
          · cases call <;> exact count
        nonneg := ok.nonneg
        fetched := nofun
        linked := ok.linked
        rCount := ok.rCount
        listed := by cases call <;> exact listed
        retired := fun retired => absurd (active.symm.trans retired) (by decide) }
  | some c =>
      have final : near.getLast? = Option.some c := tail.symm.trans last
      have member : c ∈ near := List.mem_of_getLast? final
      have there := List.count_pos_iff.mpr member
      have apart : ∀ {xs : List Nat}, (xs = taken ∨ xs = far) → c ∉ xs := by
        rintro xs either also
        have count := List.count_pos_iff.mpr also
        have bound := once c
        rcases either with rfl | rfl <;> omega
      refine ⟨_, rfl, rfl, ?_⟩
      exact {
        distinct := ok.distinct
        nonnull := ok.nonnull
        many := ok.many
        lists := by
          refine ⟨near, taken, far, ⟨?_, chain_update mine (apart (.inl rfl)), ?_⟩, ?_,
            chain_update chain (apart (.inr rfl)), parted, ?_⟩
          · apply list.append final
            · rw [List.nodup_iff_count_le_one]
              intro a
              have bound := once a
              omega
            · show Chain _ taken (Function.update s.cNext c bchunk c)
              rw [Function.update_self]
              exact chain_update mine (apart (.inl rfl))
            · exact fun node _ other => Function.update_of_ne other ..
          · show 0 < s.nfree + (taken.length : Int)
            omega
          · exact final.symm
          · cases call <;> exact count
        nonneg := ok.nonneg
        fetched := nofun
        linked := by
          intro r member rsignal bchunk pc
          have member : r ∈ s.remotes := member
          have stored := ok.linked r member rsignal bchunk pc
          obtain ⟨front, back, split⟩ := List.append_of_mem member
          have holds : r.holds = Option.some r.chunk := by
            unfold RemoteFree.holds
            rw [pc]
          have held := count_held split holds
          have other : r.chunk ≠ c := by
            intro same
            have bound := once c
            rw [same] at held
            omega
          exact (Function.update_of_ne other ..).trans stored
        rCount := ok.rCount
        listed := by cases call <;> exact listed
        retired := fun retired => absurd (active.symm.trans retired) (by decide) }

/-- The loop over the chunks that were fetched. -/
theorem Ok.walked (ok : Ok s) {call : Call} {bchunk : Nat} (here : s.owner = .walk call bchunk) :
    ∃ s', Remote.ownerStep true s = .ok s' ∧ Remote.ownerStep false s = .ok s' ∧ Ok s' := by
  have active := ok.active (.inl (by rw [here]; nofun))
  obtain ⟨near, taken, far, drains, tail, chain, parted, count⟩ := ok.lists
  unfold Drains at drains
  rw [here] at drains
  obtain ⟨list, mine, some⟩ := drains
  have listed := ok.listed
  unfold Listed at listed
  rw [here] at listed count
  have nonneg := ok.nonneg
  unfold Remote.ownerStep
  simp only [here]
  by_cases stop : bchunk = 0
  · rw [if_pos stop]
    obtain rfl : taken = [] := by
      rw [stop] at mine
      exact mine.eq_nil
    rw [List.append_nil] at list
    refine ⟨_, rfl, rfl, ?_⟩
    exact {
      distinct := ok.distinct
      nonnull := ok.nonnull
      many := ok.many
      lists := by
        refine ⟨near, [], far, ⟨list, rfl⟩, tail, chain, parted, ?_⟩
        cases call <;> exact count
      nonneg := ok.nonneg
      fetched := nofun
      linked := ok.linked
      rCount := ok.rCount
      listed := by cases call <;> exact listed
      retired := fun retired => absurd (active.symm.trans retired) (by decide) }
  · rw [if_neg stop]
    obtain ⟨rest, rfl, onwards⟩ := mine.uncons stop
    refine ⟨_, rfl, rfl, ?_⟩
    exact {
      distinct := ok.distinct
      nonnull := ok.nonnull
      many := ok.many
      lists := by
        refine ⟨near ++ [bchunk], rest, far, ⟨?_, onwards, ?_⟩, ?_, chain, fun a => ?_, ?_⟩
        · rw [List.append_assoc]
          exact list
        · show 0 < s.nfree + 1 + (rest.length : Int)
          omega
        · unfold Tail
          rw [List.getLast?_concat]
        · have before := parted a
          show s.fresh.count a + (near ++ [bchunk]).count a + rest.count a + far.count a + s.live.count a +
            (s.remotes.filterMap RemoteFree.holds).count a = s.chunks.count a
          rw [← before, List.count_append, List.count_cons, List.count_cons, List.count_nil]
          omega
        · have step : s.nfree + 1 + ((Owner.walk call bchunk).owes : Int) =
              ((near ++ [bchunk]).length + s.fresh.length : Nat) := by
            rw [List.length_append, List.length_singleton]
            omega
          cases call <;> exact step
      nonneg := by show 0 ≤ s.nfree + 1; omega
      fetched := nofun
      linked := ok.linked
      rCount := ok.rCount
      listed := by
        cases call with
        | kmalloc => exact listed
        | kfreeRemote nfree =>
            obtain ⟨same, lower, upper⟩ := listed
            exact ⟨same, lower, by show nfree ≤ s.nfree + 1; omega⟩
      retired := fun retired => absurd (active.symm.trans retired) (by decide) }

/-- `kmalloc` takes a chunk; there is one. -/
theorem Ok.took (ok : Ok s) (here : s.owner = .take) :
    ∃ s', Remote.ownerStep true s = .ok s' ∧ Remote.ownerStep false s = .ok s' ∧ Ok s' := by
  have active := ok.active (.inl (by rw [here]; nofun))
  obtain ⟨near, taken, far, drains, tail, chain, parted, count⟩ := ok.lists
  obtain ⟨list, rfl⟩ := drains.quiet (by rw [here]; trivial)
  have listed := ok.listed
  unfold Listed at listed
  rw [here] at listed count
  have count : s.nfree + 1 = (near.length + s.fresh.length : Nat) := count
  have nonneg := ok.nonneg
  have build : ∀ {lChunks lChunksp fresh c near'}, Chain s.cNext near' lChunks → Tail near' lChunksp →
      (∀ a, fresh.count a + near'.count a + [c].count a = s.fresh.count a + near.count a) →
      fresh.length + near'.length + 1 = s.fresh.length + near.length →
      Ok { s with lChunks, lChunksp, fresh, live := c :: s.live, owner := .idle } := by
    intro lChunks lChunksp fresh c near' list' tail' moved fewer
    exact {
      distinct := ok.distinct
      nonnull := ok.nonnull
      many := ok.many
      lists := by
        refine ⟨near', [], far, ⟨list', rfl⟩, tail', chain, fun a => ?_, ?_⟩
        · have before := parted a
          have same := moved a
          show fresh.count a + near'.count a + [].count a + far.count a + (c :: s.live).count a +
            (s.remotes.filterMap RemoteFree.holds).count a = s.chunks.count a
          rw [List.count_cons] at same ⊢
          rw [List.count_nil] at *
          omega
        · show s.nfree + 0 = (near'.length + fresh.length : Nat)
          omega
      nonneg := ok.nonneg
      fetched := nofun
      linked := ok.linked
      rCount := ok.rCount
      listed := listed
      retired := fun retired => absurd (active.symm.trans retired) (by decide) }
  unfold Remote.ownerStep
  simp only [here]
  by_cases empty : s.lChunks = 0
  · rw [if_neg (fun some => some empty)]
    obtain rfl : near = [] := by
      rw [empty] at list
      exact list.eq_nil
    cases unused : s.fresh with
    | nil =>
        rw [unused] at count
        simp only [List.length_nil] at count
        omega
    | cons c fresh =>
        refine ⟨_, rfl, rfl, build list tail (fun a => ?_) ?_⟩
        · rw [unused, List.count_cons, List.count_cons, List.count_nil]
          omega
        · rw [unused, List.length_cons, List.length_nil]
  · rw [if_pos empty]
    obtain ⟨rest, rfl, onwards⟩ := list.uncons empty
    have shorter := tail.uncons
    refine ⟨_, rfl, rfl, build onwards ?_ (fun a => ?_) ?_⟩
    · by_cases last : rest = []
      · have zero : s.cNext s.lChunks = 0 := by
          rw [last] at onwards
          exact onwards
        rw [if_pos zero]
        rwa [if_pos last] at shorter
      · have more : s.cNext s.lChunks ≠ 0 := by
          intro zero
          rw [zero] at onwards
          exact last onwards.eq_nil
        rw [if_neg more]
        rwa [if_neg last] at shorter
    · rw [List.count_cons, List.count_cons, List.count_nil]
      omega
    · rw [List.length_cons]
      omega

/-- The zone moves to `FreeZones`. -/
theorem Ok.retire (ok : Ok s) (here : s.owner = .retire) :
    Ok { s with onList := false, retired := true, owner := .idle } := by
  obtain ⟨near, taken, far, drains, tail, chain, parted, count⟩ := ok.lists
  obtain ⟨list, rfl⟩ := drains.quiet (by rw [here]; trivial)
  have listed := ok.listed
  unfold Listed at listed
  rw [here] at listed count
  exact {
    distinct := ok.distinct
    nonnull := ok.nonnull
    many := ok.many
    lists := ⟨near, [], far, ⟨list, rfl⟩, tail, chain, parted, count⟩
    nonneg := ok.nonneg
    fetched := nofun
    linked := ok.linked
    rCount := ok.rCount
    listed := fun active => nomatch active
    retired := fun _ => ⟨rfl, rfl, listed.2.1, listed.2.2⟩ }

/-- Every step of the owner succeeds and keeps the invariant. -/
theorem Ok.ownerStep (ok : Ok s) (busy : s.owner ≠ .idle) (others : Bool) :
    ∃ s', Remote.ownerStep others s = .ok s' ∧ Ok s' := by
  have listed := ok.listed
  unfold Listed at listed
  have either : ∀ {P : State → Prop}, (∃ s', Remote.ownerStep true s = .ok s' ∧ Remote.ownerStep false s = .ok s' ∧ P s') →
      ∃ s', Remote.ownerStep others s = .ok s' ∧ P s' := by
    rintro P ⟨s', first, second, holds⟩
    cases others with
    | true => exact ⟨s', first, holds⟩
    | false => exact ⟨s', second, holds⟩
  have move : ∀ {owner rSignal onList}, s.owner.Quiet → owner.Quiet → owner.owes = s.owner.owes →
      (∀ call bchunk, owner = .swap call bchunk → bchunk ≠ 0) → Listed { s with owner, rSignal, onList } →
      Ok { s with owner, rSignal, onList } := ok.move busy
  cases here : s.owner with
  | idle => exact absurd here busy
  | look =>
      rw [here] at listed move
      unfold Remote.ownerStep
      simp only [here]
      refine ⟨_, rfl, ?_⟩
      split
      · exact move trivial trivial rfl nofun listed
      · exact move trivial trivial rfl nofun listed
  | signal =>
      rw [here] at listed move
      unfold Remote.ownerStep
      simp only [here]
      exact ⟨_, rfl, move trivial trivial rfl nofun listed⟩
  | seen nfree =>
      rw [here] at listed move
      unfold Remote.ownerStep
      simp only [here]
      refine ⟨_, rfl, ?_⟩
      split
      · exact move trivial trivial rfl nofun listed
      · exact move trivial trivial rfl nofun listed
  | clear nfree =>
      rw [here] at listed move
      unfold Remote.ownerStep
      simp only [here]
      exact ⟨_, rfl, move trivial trivial rfl nofun listed⟩
  | fetch call =>
      rw [here] at listed move
      unfold Remote.ownerStep
      simp only [here]
      refine ⟨_, rfl, ?_⟩
      split
      case isTrue some =>
        refine move trivial trivial (by cases call <;> rfl) ?_ (by cases call <;> exact listed)
        rintro _ _ same
        obtain ⟨rfl, rfl⟩ := Owner.swap.inj same
        exact some
      case isFalse => exact move trivial trivial (by cases call <;> rfl) nofun (by cases call <;> exact listed)
  | swap call bchunk =>
      have some := ok.fetched call bchunk here
      have swapped := @Ok.swapped s ok call bchunk here
      rw [here] at listed move
      unfold Remote.ownerStep
      simp only [here]
      split
      case isTrue same => exact ⟨_, rfl, swapped same some⟩
      case isFalse =>
        exact ⟨_, rfl, move trivial trivial (by cases call <;> rfl) nofun (by cases call <;> exact listed)⟩
  | append call bchunk => exact either (ok.appended here)
  | walk call bchunk => exact either (ok.walked here)
  | drained call =>
      have nonneg := ok.nonneg
      rw [here] at listed move
      unfold Remote.ownerStep
      simp only [here]
      cases call with
      | kmalloc =>
          simp only
          have listed : s.onList = true := listed
          split
          case isTrue zero =>
            exact ⟨_, rfl, move trivial trivial rfl nofun fun _ => ⟨nofun, fun some => absurd zero some⟩⟩
          case isFalse some => exact ⟨_, rfl, move trivial trivial rfl nofun fun _ => ⟨fun _ => some, fun _ => listed⟩⟩
      | kfreeRemote nfree =>
          obtain ⟨same, lower, upper⟩ := listed
          refine ⟨_, rfl, move trivial trivial rfl nofun fun _ => ?_⟩
          show (if s.nfree ≠ 0 ∧ nfree = 0 then true else s.onList) = true ↔ s.nfree ≠ 0
          split
          case isTrue first => exact ⟨fun _ => first.1, fun _ => rfl⟩
          case isFalse other =>
            rw [same]
            constructor
            · intro some
              omega
            · exact fun some zero => other ⟨some, zero⟩
  | take => exact either (ok.took here)
  | check =>
      rw [here] at listed move
      unfold Remote.ownerStep
      simp only [here]
      refine ⟨_, rfl, ?_⟩
      split
      case isTrue free =>
        have many := ok.many
        exact move trivial trivial rfl nofun ⟨(listed (ok.active (.inl busy))).mpr (by omega), free.1, free.2.2⟩
      case isFalse => exact move trivial trivial rfl nofun listed
  | retire =>
      unfold Remote.ownerStep
      simp only [here]
      exact ⟨_, rfl, ok.retire here⟩

/-! ## Steps of other cpus -/

/-- When all chunks are counted and `z_RCount` is zero nobody else has business with the zone. -/
theorem Ok.alone (ok : Ok s) (full : s.nfree = s.chunks.length) (zero : s.rCount = 0) :
    s.messages = 0 ∧ s.live = [] ∧ s.rChunks = 0 ∧ ∀ r ∈ s.remotes, ∃ bchunk, r.pc = .tell false bchunk := by
  obtain ⟨near, taken, far, drains, tail, chain, parted, count⟩ := ok.lists
  have length := parted.length
  have total := ok.rCount
  have none : far = [] := List.eq_nil_of_length_eq_zero (by omega)
  rw [none] at chain
  refine ⟨by omega, List.eq_nil_of_length_eq_zero (by omega), chain, fun r member => ?_⟩
  have holds : s.remotes.filterMap RemoteFree.holds = [] := List.eq_nil_of_length_eq_zero (by omega)
  have free := List.filterMap_eq_nil_iff.mp holds r member
  have counted : s.remotes.countP (·.counted) = 0 := by omega
  have uncounted := List.countP_eq_zero.mp counted r member
  unfold RemoteFree.holds at free
  unfold RemoteFree.counted at uncounted
  cases here : r.pc with
  | tell rsignal bchunk =>
      rw [here] at uncounted
      cases rsignal with
      | true => exact absurd rfl uncounted
      | false => exact ⟨bchunk, rfl⟩
  | _ =>
      rw [here] at free
      cases free

/-- The link fields of the chunks in the owner's care are as before. -/
theorem Drains.congr {cNext : Nat → Nat} {rChunks messages : Nat} {rCount : Int} {remotes : List RemoteFree}
    (drains : Drains s near taken)
    (same : ∀ a, a ∈ near ∨ a ∈ taken → cNext a = s.cNext a) :
    Drains { s with cNext, rChunks, messages, rCount, remotes } near taken := by
  have first : ∀ {head}, Chain s.cNext near head → Chain cNext near head :=
    fun chain => chain.congr fun a member => same a (.inl member)
  have second : ∀ {head}, Chain s.cNext taken head → Chain cNext taken head :=
    fun chain => chain.congr fun a member => same a (.inr member)
  have both : ∀ {head}, Chain s.cNext (near ++ taken) head → Chain cNext (near ++ taken) head :=
    fun chain => chain.congr fun a member => same a (List.mem_append.mp member)
  unfold Drains at *
  cases here : s.owner with
  | append call bchunk =>
      rw [here] at drains
      exact ⟨first drains.1, second drains.2.1, drains.2.2⟩
  | walk call bchunk =>
      rw [here] at drains
      exact ⟨both drains.1, second drains.2.1, drains.2.2⟩
  | _ =>
      rw [here] at drains
      exact ⟨first drains.1, drains.2⟩

theorem Ok.kfreeOther (ok : Ok s) (held : c ∈ s.live) :
    Ok { s with live := s.live.erase c, remotes := ⟨c, .load⟩ :: s.remotes } := by
  obtain ⟨near, taken, far, drains, tail, chain, parted, count⟩ := ok.lists
  exact {
    distinct := ok.distinct
    nonnull := ok.nonnull
    many := ok.many
    lists := by
      refine ⟨near, taken, far, drains, tail, chain, fun a => ?_, count⟩
      have before := parted a
      have positive := List.count_pos_iff.mpr held
      show s.fresh.count a + near.count a + taken.count a + far.count a + (s.live.erase c).count a +
        (c :: s.remotes.filterMap RemoteFree.holds).count a = s.chunks.count a
      rcases eq_or_ne a c with rfl | other
      · rw [List.count_cons_self, List.count_erase_self]
        omega
      · rw [List.count_cons_of_ne other.symm, List.count_erase_of_ne other]
        exact before
    nonneg := ok.nonneg
    fetched := ok.fetched
    linked := by
      intro r member rsignal bchunk pc
      rcases List.mem_cons.mp member with rfl | old
      · cases pc
      · exact ok.linked r old rsignal bchunk pc
    rCount := by
      rw [List.countP_cons]
      exact ok.rCount
    listed := ok.listed
    retired := ok.retired }

/-- A step of another cpu touches its own chunk, `z_RChunks`, `z_RCount` and the messages only. -/
theorem Ok.advance (ok : Ok s) (here : s.remotes = front ++ r :: back) {o : Option RemoteFree} {cNext : Nat → Nat}
    {rChunks messages : Nat} {rCount : Int}
    (own : ∀ a, r.holds ≠ some a → cNext a = s.cNext a)
    (moved : ∀ far, Chain s.cNext far s.rChunks → (∀ a ∈ far, cNext a = s.cNext a) →
      ∃ far', Chain cNext far' rChunks ∧ ∀ a, far'.count a + (o.bind RemoteFree.holds).toList.count a =
        far.count a + r.holds.toList.count a)
    (pushes : ∀ r', o = some r' → r'.chunk = r.chunk ∧
      ∀ rsignal bchunk, r'.pc = .push rsignal bchunk → cNext r'.chunk = bchunk)
    (counts : rCount + s.messages + r.share = s.rCount + messages + (o.elim 0 RemoteFree.share : Nat))
    (idle : ∀ bchunk, r.pc = .tell false bchunk → rCount = s.rCount) :
    Ok { s with cNext, rChunks, messages, rCount, remotes := front ++ o.toList ++ back } := by
  obtain ⟨near, taken, far, drains, tail, chain, parted, count⟩ := ok.lists
  have once := parted.once ok.distinct
  have holds := count_holds here
  have away : ∀ a, a ∈ near ∨ a ∈ taken ∨ a ∈ far → cNext a = s.cNext a := by
    intro a either
    apply own
    intro held
    have positive := count_held here held
    have bound := once a
    rcases either with member | member | member
    all_goals
      have there := List.count_pos_iff.mpr member
      omega
  have still : s.nfree = s.chunks.length → s.rCount = 0 → rCount = 0 := by
    intro full zero
    obtain ⟨-, -, -, gone⟩ := ok.alone full zero
    obtain ⟨bchunk, pc⟩ := gone r (by rw [here]; simp)
    rw [idle bchunk pc, zero]
  obtain ⟨far', chain', same⟩ := moved far chain fun a member => away a (.inr (.inr member))
  exact {
    distinct := ok.distinct
    nonnull := ok.nonnull
    many := ok.many
    lists := by
      refine ⟨near, taken, far', drains.congr fun a either => away a (by tauto), tail, chain', fun a => ?_, count⟩
      have before := parted a
      have here := same a
      have split := holds a
      show s.fresh.count a + near.count a + taken.count a + far'.count a + s.live.count a +
        ((front ++ o.toList ++ back).filterMap RemoteFree.holds).count a = s.chunks.count a
      have parts : ((front ++ o.toList ++ back).filterMap RemoteFree.holds).count a =
          ((front ++ back).filterMap RemoteFree.holds).count a + (o.bind RemoteFree.holds).toList.count a := by
        simp only [List.filterMap_append, List.count_append]
        cases o with
        | none => simp
        | some r' =>
            cases there : r'.holds with
            | none => simp [there]
            | some chunk =>
                simp only [Option.toList_some, List.filterMap_cons, there, List.filterMap_nil, Option.bind_some]
                omega
      omega
    nonneg := ok.nonneg
    fetched := ok.fetched
    linked := by
      intro r' member rsignal bchunk pc
      have member : r' ∈ front ++ o.toList ++ back := member
      rw [List.mem_append, List.mem_append, Option.mem_toList] at member
      have either : o = some r' ∨ r' ∈ front ++ back := by
        rw [List.mem_append]
        rcases member with (first | new) | last
        · exact .inr (.inl first)
        · exact .inl new
        · exact .inr (.inr last)
      rcases either with new | old
      · exact (pushes r' new).2 rsignal bchunk pc
      · have stored := ok.linked r' (by
          rw [here]
          rcases List.mem_append.mp old with first | last
          · exact List.mem_append_left _ first
          · exact List.mem_append_right _ (List.mem_cons_of_mem _ last)) rsignal bchunk pc
        refine Eq.trans (own _ fun held => ?_) stored
        have holds' : r'.holds = some r'.chunk := by
          unfold RemoteFree.holds
          rw [pc]
        have positive : 0 < ((front ++ back).filterMap RemoteFree.holds).count r'.chunk :=
          List.count_pos_iff.mpr (List.mem_filterMap.mpr ⟨r', old, holds'⟩)
        have bound := once r'.chunk
        rw [holds r'.chunk, held, Option.toList_some, List.count_singleton_self] at bound
        omega
    rCount := by
      show rCount = ((messages + (front ++ o.toList ++ back).countP (·.counted) : Nat) : Int)
      have total := ok.rCount
      have alone : o.toList.countP (·.counted) = o.elim 0 RemoteFree.share := by
        cases o with
        | none => rfl
        | some r' => exact List.countP_singleton
      have mine : (r :: back).countP (·.counted) = back.countP (·.counted) + r.share := List.countP_cons
      rw [here, List.countP_append, mine] at total
      rw [List.countP_append, List.countP_append, alone]
      omega
    listed := by
      have listed := ok.listed
      unfold Listed at *
      cases owner : s.owner with
      | retire =>
          rw [owner] at listed
          exact ⟨listed.1, listed.2.1, still listed.2.1 listed.2.2⟩
      | fetch call =>
          rw [owner] at listed
          cases call <;> exact listed
      | swap call bchunk =>
          rw [owner] at listed
          cases call <;> exact listed
      | append call bchunk =>
          rw [owner] at listed
          cases call <;> exact listed
      | walk call bchunk =>
          rw [owner] at listed
          cases call <;> exact listed
      | drained call =>
          rw [owner] at listed
          cases call <;> exact listed
      | _ =>
          rw [owner] at listed
          exact listed
    retired := by
      intro retired
      obtain ⟨owner, off, full, zero⟩ := ok.retired retired
      exact ⟨owner, off, full, still full zero⟩ }

theorem Ok.remote (ok : Ok s) (here : s.remotes = front ++ r :: back) :
    Ok { (remoteStep r s).1 with remotes := front ++ (remoteStep r s).2.toList ++ back } := by
  have same : ∀ {o : Option RemoteFree}, o.bind RemoteFree.holds = r.holds →
      ∀ far, Chain s.cNext far s.rChunks → (∀ a ∈ far, s.cNext a = s.cNext a) →
        ∃ far', Chain s.cNext far' s.rChunks ∧ ∀ a, far'.count a + (o.bind RemoteFree.holds).toList.count a =
          far.count a + r.holds.toList.count a :=
    fun holds far chain _ => ⟨far, chain, fun a => by rw [holds]⟩
  obtain ⟨chunk, pc⟩ := r
  have stays : ∀ {pc' : Pc} {cNext : Nat → Nat}, (∀ rsignal bchunk, pc' = .push rsignal bchunk → cNext chunk = bchunk) →
      ∀ r', some (RemoteFree.mk chunk pc') = some r' → r'.chunk = chunk ∧
        ∀ rsignal bchunk, r'.pc = .push rsignal bchunk → cNext r'.chunk = bchunk := by
    rintro pc' cNext pushes r' same
    obtain rfl := Option.some.inj same
    exact ⟨rfl, pushes⟩
  cases pc with
  | load => exact ok.advance here (fun _ _ => rfl) (same rfl) (stays nofun) rfl (fun _ => nofun)
  | count rsignal =>
      refine ok.advance here (fun _ _ => rfl) (same rfl) (stays nofun) ?_ (fun _ => nofun)
      cases rsignal with
      | true =>
          show s.rCount + 1 + s.messages + (0 : Nat) = s.rCount + s.messages + (1 : Nat)
          omega
      | false => rfl
  | head rsignal => exact ok.advance here (fun _ _ => rfl) (same rfl) (stays nofun) rfl (fun _ => nofun)
  | link rsignal bchunk =>
      refine ok.advance here ?_ (fun far chain same => ⟨far, chain.congr same, fun a => rfl⟩) (stays ?_) rfl
        (fun _ => nofun)
      · intro a other
        apply Function.update_of_ne
        rintro rfl
        exact other rfl
      · intro rsignal' bchunk' pc
        obtain ⟨-, rfl⟩ := Pc.push.inj pc
        exact Function.update_self ..
  | push rsignal bchunk =>
      have linked := ok.linked ⟨chunk, .push rsignal bchunk⟩ (by rw [here]; simp) rsignal bchunk rfl
      have nonnull : chunk ≠ 0 := by
        obtain ⟨near, taken, far, -, -, -, parted, -⟩ := ok.lists
        have positive := @count_held _ _ _ _ chunk here rfl
        exact ok.nonnull chunk (@Parted.mem _ chunk _ _ _ parted (by omega))
      unfold remoteStep
      simp only
      split
      case isTrue first =>
        refine ok.advance here (fun _ _ => rfl) ?_ (stays nofun) rfl (fun _ => nofun)
        intro far chain _
        refine ⟨chunk :: far, ⟨rfl, nonnull, ?_⟩, fun a => ?_⟩
        · rw [linked, ← first]
          exact chain
        · show (chunk :: far).count a + [].count a = far.count a + [chunk].count a
          rw [List.count_cons, List.count_cons, List.count_nil]
          omega
      case isFalse => exact ok.advance here (fun _ _ => rfl) (same rfl) (stays nofun) rfl (fun _ => nofun)
  | tell rsignal bchunk =>
      unfold remoteStep
      simp only
      cases rsignal with
      | false =>
          rw [if_neg (fun both => Bool.false_ne_true both.2), if_neg Bool.false_ne_true]
          exact ok.advance here (fun _ _ => rfl) (same rfl) nofun rfl (fun _ _ => rfl)
      | true =>
          split
          case isTrue =>
            refine ok.advance here (fun _ _ => rfl) (same rfl) nofun ?_ (fun _ => nofun)
            show s.rCount + s.messages + (1 : Nat) = s.rCount + (s.messages + 1 : Nat) + (0 : Nat)
            omega
          case isFalse =>
            rw [if_pos rfl]
            refine ok.advance here (fun _ _ => rfl) (same rfl) nofun ?_ (fun _ => nofun)
            show s.rCount - 1 + s.messages + (1 : Nat) = s.rCount + s.messages + (0 : Nat)
            omega

/-- A zone of which only the first chunk is in use. -/
theorem Ok.begin {first : Nat} {others : List Nat} (some : others ≠ []) (distinct : (first :: others).Nodup)
    (nonnull : ∀ chunk ∈ first :: others, chunk ≠ 0) (quiet : s.messages = 0)
    (gone : ∀ r ∈ s.remotes, ∃ bchunk, r.pc = .tell false bchunk) : Ok (s.begin first others) := by
  have holds : s.remotes.filterMap RemoteFree.holds = [] := by
    rw [List.filterMap_eq_nil_iff]
    intro r member
    obtain ⟨bchunk, pc⟩ := gone r member
    unfold RemoteFree.holds
    rw [pc]
  have counted : s.remotes.countP (·.counted) = 0 := by
    rw [List.countP_eq_zero]
    intro r member
    obtain ⟨bchunk, pc⟩ := gone r member
    unfold RemoteFree.counted
    rw [pc]
    exact Bool.false_ne_true
  have positive := List.length_pos_iff.mpr some
  unfold State.begin
  exact {
    distinct := distinct
    nonnull := nonnull
    many := by show 1 < others.length + 1; omega
    lists := by
      refine ⟨[], [], [], ⟨rfl, rfl⟩, rfl, rfl, fun a => ?_, ?_⟩
      · show others.count a + 0 + 0 + 0 + [first].count a + (s.remotes.filterMap RemoteFree.holds).count a =
          (first :: others).count a
        rw [holds, List.count_cons, List.count_cons, List.count_nil]
        omega
      · show (others.length : Int) + 0 = (0 + others.length : Nat)
        omega
    nonneg := by show 0 ≤ (others.length : Int); omega
    fetched := nofun
    linked := by
      intro r member rsignal bchunk pc
      obtain ⟨bchunk', told⟩ := gone r member
      exact nomatch told.symm.trans pc
    rCount := by
      show (0 : Int) = ((s.messages + s.remotes.countP (·.counted) : Nat) : Int)
      rw [quiet, counted]
      rfl
    listed := by
      intro _
      exact ⟨fun _ => by show (others.length : Int) ≠ 0; omega, fun _ => rfl⟩
    retired := nofun }

/-- Every step keeps the invariant. -/
theorem Ok.step (ok : Ok s) (step : Step s label s') : Ok s' := by
  cases step with
  | kmalloc idle listed call =>
      obtain ⟨s₁, same, kept⟩ := ok.kmalloc idle listed
      obtain rfl := Except.ok.inj (same.symm.trans call)
      exact kept
  | kfree idle held => exact ok.kfree idle held
  | deliver idle sent => exact ok.deliver idle sent
  | owner busy call =>
      obtain ⟨s₁, same, kept⟩ := ok.ownerStep busy _
      obtain rfl := Except.ok.inj (same.symm.trans call)
      exact kept
  | kfreeOther held => exact ok.kfreeOther held
  | remote here => exact ok.remote here
  | recycle retired some distinct nonnull =>
      obtain ⟨-, -, full, zero⟩ := ok.retired retired
      obtain ⟨quiet, -, -, gone⟩ := ok.alone full zero
      exact Ok.begin some distinct nonnull quiet gone

end Dragonfly.Kern.Slab.Remote
