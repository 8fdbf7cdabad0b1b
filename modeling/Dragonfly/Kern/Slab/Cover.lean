import Dragonfly.Lib.Run
import Dragonfly.Kern.Slab.Custody

/-!
# Who looks at the chunks of an exhausted zone

A zone leaves its `ZoneAry` list when `kmalloc` finds nothing on `z_RChunks`.  From
then on chunks on `z_RChunks` come back only through `kfree_remote`, which is sent
for by the `kfree` that finds `z_RChunks` empty, if it has read `z_RSignal` set.
-/

namespace Dragonfly.Kern.Slab.Remote

open Lib

variable {s s' : State} {r : RemoteFree} {front back : List RemoteFree} {label : Label}

/-- The owner handles a message and will put the zone back on its list. -/
def Owner.Attends (nfree : Int) : Owner → Prop
  | .seen _ | .clear _ => True
  | .fetch (.kfreeRemote _) | .swap (.kfreeRemote _) _ | .append (.kfreeRemote _) _ | .walk (.kfreeRemote _) _ => True
  | .drained (.kfreeRemote _) => nfree ≠ 0
  | _ => False

/-- A message is on its way, is being handled, or is about to be sent. -/
def Covered (s : State) : Prop :=
  0 < s.messages ∨ (∃ r ∈ s.remotes, r.pc = .tell true 0) ∨ s.owner.Attends s.nfree

/-- The zone is off its list, or `kmalloc` has looked at `z_RChunks` for the last time. -/
def Leaves (s : State) : Prop :=
  s.onList = false ∨ s.owner = .drained .kmalloc ∧ s.nfree = 0

/-- Chunks on `z_RChunks` of a zone off its list are covered. -/
def Settled (s : State) : Prop :=
  Leaves s → s.rChunks ≠ 0 → Covered s

/-- No `kfree` that has read `z_RSignal` clear links its chunk on the empty `z_RChunks`
of a zone off its list, unless a message is under way anyhow. -/
def SignalSeen (s : State) : Label → Prop
  | .remote r => r.pc = .push false 0 → s.rChunks = 0 → Leaves s → Covered s
  | _ => True

theorem Settled.empty (none : s.rChunks = 0) : Settled s := fun _ some => absurd none some

theorem Settled.listed (on : s.onList = true) (stays : s.owner ≠ .drained .kmalloc) : Settled s := by
  rintro (off | ⟨leaves, -⟩)
  · rw [on] at off
    cases off
  · exact absurd leaves stays

theorem Settled.covered (covered : Covered s) : Settled s := fun _ _ => covered

/-- Nothing that matters has changed. -/
theorem Settled.keep (settled : Settled s) (leaves : Leaves s' → Leaves s) (rChunks : s'.rChunks = s.rChunks)
    (covered : Covered s → Covered s') : Settled s' := by
  intro off some
  rw [rChunks] at some
  exact covered (settled (leaves off) some)

/-! ## Steps of the owner -/

theorem Settled.kfree {chunk : Nat} (ok : Ok s) (after : Ok (Remote.kfree chunk s)) :
    Settled (Remote.kfree chunk s) := by
  apply Settled.listed ?_ (by unfold Remote.kfree; nofun)
  have listed : (Remote.kfree chunk s).onList = true ↔ s.nfree + 1 ≠ 0 := after.listed (after.active (.inl nofun))
  have nonneg := ok.nonneg
  rw [listed]
  omega

/-- Where the owner has nothing to do with the list, the next state is settled as this one. -/
theorem Settled.pass (settled : Settled s) {owner : Owner} (before : ¬s.owner.Attends s.nfree)
    (stays : owner ≠ .drained .kmalloc) : Settled { s with owner } := by
  refine @Settled.keep s { s with owner } settled ?_ rfl ?_
  · rintro (off | ⟨leaves, -⟩)
    · exact .inl off
    · exact absurd leaves stays
  · rintro (sent | sends | attends)
    · exact .inl sent
    · exact .inr (.inl sends)
    · exact absurd attends before

theorem Settled.ownerStep (settled : Settled s) (ok : Ok s) (after : Ok s') (busy : s.owner ≠ .idle) {others : Bool}
    (call : Remote.ownerStep others s = .ok s') : Settled s' := by
  have listed := ok.listed
  unfold Listed at listed
  unfold Remote.ownerStep at call
  have pass := @Settled.pass s settled
  have before : Covered s → ¬s.owner.Attends s.nfree → 0 < s.messages ∨ ∃ r ∈ s.remotes, r.pc = .tell true 0 := by
    rintro (sent | sends | attends) idle
    · exact .inl sent
    · exact .inr sends
    · exact absurd attends idle
  cases here : s.owner with
  | idle => exact absurd here busy
  | look =>
      rw [here] at listed
      simp only [here, Except.ok.injEq] at call
      subst call
      exact Settled.listed listed (by dsimp only; split <;> nofun)
  | signal =>
      rw [here] at listed
      simp only [here, Except.ok.injEq] at call
      subst call
      exact Settled.listed listed nofun
  | seen nfree =>
      simp only [here, Except.ok.injEq] at call
      subst call
      apply Settled.covered
      right; right
      dsimp only
      split <;> trivial
  | clear nfree =>
      simp only [here, Except.ok.injEq] at call
      subst call
      exact Settled.covered (.inr (.inr trivial))
  | fetch next =>
      rw [here] at listed
      simp only [here, Except.ok.injEq] at call
      subst call
      by_cases none : s.rChunks = 0
      · exact Settled.empty none
      · rw [if_pos none]
        cases next with
        | kmalloc => exact Settled.listed listed nofun
        | kfreeRemote nfree => exact Settled.covered (.inr (.inr trivial))
  | swap next bchunk =>
      rw [here] at listed
      simp only [here] at call
      split at call
      · cases call
        exact Settled.empty rfl
      · cases call
        cases next with
        | kmalloc => exact Settled.listed listed nofun
        | kfreeRemote nfree => exact Settled.covered (.inr (.inr trivial))
  | append next bchunk =>
      rw [here] at listed
      simp only [here] at call
      split at call <;>
      · cases call
        cases next with
        | kmalloc => exact Settled.listed listed nofun
        | kfreeRemote nfree => exact Settled.covered (.inr (.inr trivial))
  | walk next bchunk =>
      have drains := ok.lists
      rw [here] at listed
      simp only [here] at call
      split at call
      case isTrue stop =>
        cases call
        -- the loop has counted at least one chunk
        have some : s.nfree ≠ 0 := by
          obtain ⟨near, taken, far, drains, -⟩ := ok.lists
          unfold Drains at drains
          rw [here] at drains
          obtain ⟨-, mine, positive⟩ := drains
          rw [stop] at mine
          rw [mine.eq_nil, List.length_nil] at positive
          omega
        cases next with
        | kmalloc =>
            rintro (off | ⟨-, zero⟩)
            · exact absurd (listed.symm.trans off) nofun
            · exact absurd zero some
        | kfreeRemote nfree => exact Settled.covered (.inr (.inr some))
      case isFalse =>
        cases call
        cases next with
        | kmalloc => exact Settled.listed listed nofun
        | kfreeRemote nfree => exact Settled.covered (.inr (.inr trivial))
  | drained next =>
      rw [here] at listed
      simp only [here] at call
      cases next with
      | kmalloc =>
          simp only at call
          split at call
          case isTrue zero =>
            cases call
            refine settled.keep (fun _ => .inr ⟨here, zero⟩) rfl ?_
            intro covered
            rcases before covered (by rw [here]; exact id) with sent | sends
            · exact .inl sent
            · exact .inr (.inl sends)
          case isFalse =>
            cases call
            exact Settled.listed listed nofun
      | kfreeRemote nfree =>
          simp only [Except.ok.injEq] at call
          obtain ⟨same, lower, upper⟩ := listed
          subst call
          split
          case isTrue => exact Settled.listed rfl nofun
          case isFalse other =>
            by_cases on : s.onList = true
            · exact Settled.listed on nofun
            · have zero : s.nfree = 0 := by
                rw [same] at on
                by_contra some
                exact other ⟨some, not_not.mp on⟩
              refine settled.keep ?_ rfl ?_
              · rintro (off | ⟨leaves, -⟩)
                · exact .inl off
                · cases leaves
              · intro covered
                rcases before covered (by rw [here]; exact not_not.mpr zero) with sent | sends
                · exact .inl sent
                · exact .inr (.inl sends)
  | take =>
      have idle : ¬s.owner.Attends s.nfree := by rw [here]; exact id
      have build : ∀ {lChunks lChunksp fresh live},
          Settled { s with lChunks, lChunksp, fresh, live, owner := .idle } := by
        intro lChunks lChunksp fresh live
        exact (@pass .idle idle nofun).keep id rfl id
      simp only [here] at call
      split at call
      · cases call
        exact build
      · split at call
        · cases call
        · cases call
          exact build
  | check =>
      have idle : ¬s.owner.Attends s.nfree := by rw [here]; exact id
      simp only [here, Except.ok.injEq] at call
      subst call
      split
      · exact pass idle nofun
      · exact pass idle nofun
  | retire =>
      simp only [here, Except.ok.injEq] at call
      subst call
      obtain ⟨-, -, full, zero⟩ := after.retired rfl
      exact Settled.empty (after.alone full zero).2.2.1

/-! ## Steps of other cpus -/

/-- Unless a `kfree` is about to send a message, it covers nothing. -/
theorem Covered.others (here : s.remotes = front ++ r :: back) (silent : r.pc ≠ .tell true 0) {messages : Nat}
    (fewer : s.messages ≤ messages) {cNext : Nat → Nat} {rChunks : Nat} {rCount : Int} (o : Option RemoteFree)
    (covered : Covered s) :
    Covered { s with messages, cNext, rChunks, rCount, remotes := front ++ o.toList ++ back } := by
  rcases covered with sent | ⟨r', member, sends⟩ | attends
  · exact .inl (Nat.lt_of_lt_of_le sent fewer)
  · right; left
    rw [here, List.mem_append, List.mem_cons] at member
    rcases member with member | rfl | member
    · exact ⟨r', List.mem_append_left _ (List.mem_append_left _ member), sends⟩
    · exact absurd sends silent
    · exact ⟨r', List.mem_append_right _ member, sends⟩
  · exact .inr (.inr attends)

/-- A `kfree` that has linked its chunk without a signal leaves the coverage as it was. -/
theorem Covered.of_push (here : s.remotes = front ++ r :: back) {bchunk : Nat} {rChunks : Nat}
    (covered : Covered { s with rChunks, remotes := front ++ [{ r with pc := .tell false bchunk }] ++ back }) :
    Covered s := by
  rcases covered with sent | ⟨r', member, sends⟩ | attends
  · exact .inl sent
  · right; left
    rw [List.mem_append, List.mem_append, List.mem_singleton] at member
    rcases member with (member | rfl) | member
    · exact ⟨r', by rw [here]; exact List.mem_append_left _ member, sends⟩
    · cases sends
    · exact ⟨r', by rw [here]; exact List.mem_append_right _ (List.mem_cons_of_mem _ member), sends⟩
  · exact .inr (.inr attends)

theorem Settled.remote (settled : Settled s) (ok : Ok s) (here : s.remotes = front ++ r :: back) :
    Settled { (remoteStep r s).1 with remotes := front ++ (remoteStep r s).2.toList ++ back } ↔
      SignalSeen s (.remote r) := by
  have free : r.pc ≠ .push false 0 → SignalSeen s (.remote r) := fun other same => absurd same other
  cases pc : r.pc with
  | load =>
      unfold remoteStep
      simp only [pc]
      exact iff_of_true (settled.keep id rfl (Covered.others here (by rw [pc]; nofun) (Nat.le_refl _) _))
        (free (by rw [pc]; nofun))
  | count rsignal =>
      unfold remoteStep
      simp only [pc]
      exact iff_of_true (settled.keep id rfl (Covered.others here (by rw [pc]; nofun) (Nat.le_refl _) _))
        (free (by rw [pc]; nofun))
  | head rsignal =>
      unfold remoteStep
      simp only [pc]
      exact iff_of_true (settled.keep id rfl (Covered.others here (by rw [pc]; nofun) (Nat.le_refl _) _))
        (free (by rw [pc]; nofun))
  | link rsignal bchunk =>
      unfold remoteStep
      simp only [pc]
      exact iff_of_true (settled.keep id rfl (Covered.others here (by rw [pc]; nofun) (Nat.le_refl _) _))
        (free (by rw [pc]; nofun))
  | push rsignal bchunk =>
      have silent : r.pc ≠ .tell true 0 := by rw [pc]; nofun
      unfold remoteStep SignalSeen
      simp only [pc]
      by_cases same : s.rChunks = bchunk
      · simp only [if_pos same, Pc.push.injEq]
        by_cases some : bchunk = 0
        · subst some
          cases rsignal with
          | true =>
              apply iff_of_true
              · refine Settled.covered (.inr (.inl ⟨⟨r.chunk, .tell true 0⟩, ?_, rfl⟩))
                exact List.mem_append_left _ (List.mem_append_right _ (List.mem_singleton_self _))
              · exact fun clear => nomatch clear.1
          | false =>
              -- the chunk is linked and nobody is told
              have linked : r.chunk ≠ 0 := by
                obtain ⟨near, taken, far, drains, tail, chain, parted, count⟩ := ok.lists
                have held : r.holds = Option.some r.chunk := by
                  unfold RemoteFree.holds
                  rw [pc]
                apply ok.nonnull
                apply parted.mem
                have positive := count_held here held
                omega
              constructor
              · intro after _ _ leaves
                exact Covered.of_push here (after leaves linked)
              · intro seen leaves _
                exact Covered.others here silent (Nat.le_refl _) _ (seen ⟨rfl, rfl⟩ same leaves)
        · apply iff_of_true
          · intro leaves _
            have filled : s.rChunks ≠ 0 := by rwa [same]
            exact Covered.others here silent (Nat.le_refl _) _ (settled leaves filled)
          · exact fun clear => absurd clear.2 some
      · simp only [if_neg same, Pc.push.injEq]
        apply iff_of_true
        · exact settled.keep id rfl (Covered.others here silent (Nat.le_refl _) _)
        · intro clear none
          exact absurd (none.trans clear.2.symm) same
  | tell rsignal bchunk =>
      refine iff_of_true ?_ (free (by rw [pc]; nofun))
      unfold remoteStep
      simp only [pc]
      by_cases both : bchunk = 0 ∧ rsignal
      · simp only [if_pos both]
        exact Settled.covered (.inl (Nat.succ_pos _))
      · have silent : r.pc ≠ .tell true 0 := by
          rw [pc]
          intro same
          obtain ⟨rfl, rfl⟩ := Pc.tell.inj same
          exact both ⟨rfl, rfl⟩
        rw [if_neg both]
        split
        · exact settled.keep id rfl (Covered.others here silent (Nat.le_refl _) none)
        · exact settled.keep id rfl (Covered.others here silent (Nat.le_refl _) none)

/-- A step keeps the chunks covered exactly when the signal has been seen. -/
theorem Settled.step (settled : Settled s) (ok : Ok s) (step : Step s label s') : Settled s' ↔ SignalSeen s label := by
  have after := ok.step step
  cases step with
  | kmalloc idle listed call =>
      apply iff_of_true ?_ trivial
      unfold Remote.kmalloc at call
      simp only at call
      split at call
      · split at call
        · cases call
        · cases call
          exact Settled.listed listed nofun
      · cases call
        exact Settled.listed listed nofun
  | kfree idle held => exact iff_of_true (Settled.kfree ok after) trivial
  | deliver idle sent => exact iff_of_true (Settled.covered (.inr (.inr trivial))) trivial
  | owner busy call => exact iff_of_true (settled.ownerStep ok after busy call) trivial
  | kfreeOther held =>
      apply iff_of_true ?_ trivial
      refine settled.keep id rfl ?_
      rintro (sent | ⟨r, member, sends⟩ | attends)
      · exact .inl sent
      · exact .inr (.inl ⟨r, List.mem_cons_of_mem _ member, sends⟩)
      · exact .inr (.inr attends)
  | remote here => exact settled.remote ok here
  | recycle retired some distinct nonnull => exact iff_of_true (Settled.empty rfl) trivial

/-! ## Whole runs -/

/-- The steps in which `SignalSeen` holds. -/
def Seen (s : State) (label : Label) (s' : State) : Prop := SignalSeen s label ∧ Step s label s'

variable {first : Nat} {others : List Nat} {cNext : Nat → Nat} {labels : List Label}

theorem Ok.init (some : others ≠ []) (distinct : (first :: others).Nodup) (nonnull : ∀ c ∈ first :: others, c ≠ 0) :
    Ok (.init first others cNext) := Ok.begin some distinct nonnull rfl nofun

/-- Where the chunks are after any run. -/
theorem Ok.conserved (ok : Ok s) : s.chunks.Nodup ∧ ∃ near taken far, Drains s near taken ∧ Chain s.cNext far s.rChunks ∧
    (s.fresh ++ near ++ taken ++ far ++ s.live ++ s.remotes.filterMap RemoteFree.holds).Perm s.chunks := by
  obtain ⟨near, taken, far, drains, -, chain, parted, -⟩ := ok.lists
  exact ⟨ok.distinct, near, taken, far, drains, chain, parted.perm⟩

/-- A `kfree` on another cpu that is past its last access to the zone header. -/
def RemoteFree.Away (r : RemoteFree) : Prop := ∃ bchunk, r.pc = .tell false bchunk

/-- In every run in which the signal is seen, chunks freed on other cpus come back, none
is lost or doubled, and a zone retires only when nobody else will touch it. -/
theorem remote_frees_return (some : others ≠ []) (distinct : (first :: others).Nodup)
    (nonnull : ∀ c ∈ first :: others, c ≠ 0) (run : Run Seen (.init first others cNext) labels s) :
    (s.onList = false → s.rChunks ≠ 0 → Covered s) ∧
    (s.chunks.Nodup ∧ ∃ near taken far, Drains s near taken ∧ Chain s.cNext far s.rChunks ∧
      (s.fresh ++ near ++ taken ++ far ++ s.live ++ s.remotes.filterMap RemoteFree.holds).Perm s.chunks) ∧
    (s.retired = true → s.messages = 0 ∧ ∀ r ∈ s.remotes, r.Away) := by
  have both : Ok s ∧ Settled s := by
    refine @Run.invariant _ _ Seen (fun s => Ok s ∧ Settled s) ?_ _ _ _ run ⟨Ok.init some distinct nonnull, Settled.empty rfl⟩
    rintro s s' label ⟨ok, settled⟩ ⟨seen, step⟩
    exact ⟨ok.step step, (settled.step ok step).mpr seen⟩
  obtain ⟨ok, settled⟩ := both
  refine ⟨fun off => settled (.inl off), ok.conserved, fun retired => ?_⟩
  obtain ⟨-, -, full, zero⟩ := ok.retired retired
  obtain ⟨quiet, -, -, gone⟩ := ok.alone full zero
  exact ⟨quiet, gone⟩

/-- Two chunks; the zone is exhausted before the other cpu reads `z_RSignal`. -/
def exchange : List Label :=
  [.kmalloc, .owner false, .owner false, .owner false, .owner false, .owner false, .kfreeOther 8,
    .remote ⟨8, .load⟩, .remote ⟨8, .count true⟩, .remote ⟨8, .head true⟩, .remote ⟨8, .link true 0⟩,
    .remote ⟨8, .push true 0⟩]

theorem remote_frees_return_exchange : ∃ s : State, Run Seen (.init 8 [16] fun _ => 0) exchange s ∧
    s.onList = false ∧ s.rChunks = 8 ∧ ((s.onList = false → s.rChunks ≠ 0 → Covered s) ∧
    (s.chunks.Nodup ∧ ∃ near taken far, Drains s near taken ∧ Chain s.cNext far s.rChunks ∧
      (s.fresh ++ near ++ taken ++ far ++ s.live ++ s.remotes.filterMap RemoteFree.holds).Perm s.chunks) ∧
    (s.retired = true → s.messages = 0 ∧ ∀ r ∈ s.remotes, r.Away)) := by
  have run : ∃ s : State, Run Seen (.init 8 [16] fun _ => 0) exchange s ∧ s.onList = false ∧ s.rChunks = 8 := by
    exact ⟨_,
      .cons ⟨trivial, .kmalloc rfl rfl rfl⟩ <|
      .cons ⟨trivial, .owner nofun rfl⟩ <|
      .cons ⟨trivial, .owner nofun rfl⟩ <|
      .cons ⟨trivial, .owner nofun rfl⟩ <|
      .cons ⟨trivial, .owner nofun rfl⟩ <|
      .cons ⟨trivial, .owner nofun rfl⟩ <|
      .cons ⟨trivial, .kfreeOther (by decide)⟩ <|
      .cons ⟨nofun, @Step.remote _ [] [] ⟨8, .load⟩ rfl⟩ <|
      .cons ⟨nofun, @Step.remote _ [] [] ⟨8, .count true⟩ rfl⟩ <|
      .cons ⟨nofun, @Step.remote _ [] [] ⟨8, .head true⟩ rfl⟩ <|
      .cons ⟨nofun, @Step.remote _ [] [] ⟨8, .link true 0⟩ rfl⟩ <|
      .cons ⟨nofun, @Step.remote _ [] [] ⟨8, .push true 0⟩ rfl⟩ (.nil _), rfl, rfl⟩
  obtain ⟨s, run, off, filled⟩ := run
  exact ⟨s, run, off, filled, remote_frees_return (by decide) (by decide) (by decide) run⟩

/-- Two chunks; one is freed elsewhere.  The other cpu reads `z_RSignal` before `kmalloc`
sets it, and links the chunk after `kmalloc` has looked for the last time. -/
def late : List Label :=
  [.kfreeOther 8, .remote ⟨8, .load⟩, .kmalloc, .owner false, .owner false, .owner false, .owner false, .owner false,
    .remote ⟨8, .count false⟩, .remote ⟨8, .head false⟩, .remote ⟨8, .link false 0⟩, .remote ⟨8, .push false 0⟩,
    .remote ⟨8, .tell false 0⟩]

theorem remote_free_stranded : ∃ s : State, Run Step (.init 8 [16] fun _ => 0) late s ∧
    s.onList = false ∧ s.rChunks = 8 ∧ s.messages = 0 ∧ s.remotes = [] ∧ s.owner = .idle ∧ ¬Covered s := by
  refine ⟨_,
    .cons (.kfreeOther (by decide)) <|
    .cons (@Step.remote _ [] [] ⟨8, .load⟩ rfl) <|
    .cons (.kmalloc rfl rfl rfl) <|
    .cons (.owner nofun rfl) <|
    .cons (.owner nofun rfl) <|
    .cons (.owner nofun rfl) <|
    .cons (.owner nofun rfl) <|
    .cons (.owner nofun rfl) <|
    .cons (@Step.remote _ [] [] ⟨8, .count false⟩ rfl) <|
    .cons (@Step.remote _ [] [] ⟨8, .head false⟩ rfl) <|
    .cons (@Step.remote _ [] [] ⟨8, .link false 0⟩ rfl) <|
    .cons (@Step.remote _ [] [] ⟨8, .push false 0⟩ rfl) <|
    .cons (@Step.remote _ [] [] ⟨8, .tell false 0⟩ rfl) (.nil _), rfl, rfl, rfl, rfl, rfl, ?_⟩
  rintro (sent | ⟨r, member, -⟩ | attends)
  · cases sent
  · cases member
  · exact attends

end Dragonfly.Kern.Slab.Remote
