import Mathlib.Algebra.Order.BigOperators.Group.List
import Mathlib.Data.List.Basic
import Dragonfly.Lib.Span
import Dragonfly.Kern.Slab.Realloc

/-!
# Runs of `kmalloc`, `krealloc` and `kfree`

The size of a block comes back out of the page count as long as it fits an `int`.
Until `kmem_slab_alloc` satisfies a request of `2 ^ 31` bytes or more, the
statistics are exact and `krealloc` keeps contents.
-/

namespace Dragonfly.Kern.Slab.Stats

open Lib

variable {k : Kernel} {sys sys' : System} {ncpus gd type bytes size : Nat} {a old : Account} {r : Resize} {s : State}
  {b : Block} {answer : Answer} {outcome : Outcome} {resize : Option Resize} {label : Label} {flags : Flags}

/-! ## `krealloc` -/

/-- What `krealloc` finds out about its block. -/
def Next.Fits (s : State) (b : Block) (bytes : Nat) : Next → Prop
  | .keep => 0 < bytes ∧ bytes ≤ b.len
  | .kfree => bytes = 0
  | .kmalloc size osize => 0 < bytes ∧ bytes ≤ size ∧ size ≤ max bytes 16384 ∧
      match osize with
      | some osize => osize = b.len
      | none => ¬0 < s.kup (b.ptr / pageSize)

theorem next_fits (use : Use k s) (held : b ∈ s.live) (small : b.len < 2 ^ 31) (below : bytes ≤ 2 ^ 40) {next : Next}
    (call : Stats.next k b.ptr bytes s = .ok next) : next.Fits s b bytes := by
  unfold Stats.next at call
  split at call
  · cases call
    assumption
  rename_i some
  have some := Nat.pos_of_ne_zero some
  have found := (blockSize_eq_iff use held).mpr small
  unfold blockSize at found
  split at call
  · rename_i big
    rw [if_pos big] at found
    rw [found] at call
    simp only at call
    split at call
    · rename_i same
      cases call
      refine ⟨some, ?_⟩
      rw [same, roundPage_eq (by omega)]
      exact le_roundUp (by decide)
    · cases call
      exact ⟨some, Nat.le_refl _, Nat.le_max_left _ _, rfl⟩
  · rename_i notBig
    rw [if_neg notBig] at found
    simp only at call
    split at call
    · cases call
    split at call
    · cases call
    rename_i h zone
    rw [zone] at found
    have found : h.chunkSize = b.len := found
    split at call
    · cases call
    split at call
    · rename_i less
      obtain ⟨rounded, zi, classified, long, chunk⟩ := zoneindex_spec some less
      rw [classified] at call
      simp only at call
      have upper := chunk.upper
      split at call
      · rename_i same
        cases call
        exact ⟨some, by omega⟩
      · cases call
        exact ⟨some, long, by omega, notBig⟩
    · cases call
      exact ⟨some, Nat.le_refl _, Nat.le_max_left _ _, notBig⟩

/-- What `krealloc` of a block has come to. -/
def Resized (sys sys' : System) (old : Account) (bytes : Nat) : Outcome → Prop
  | .returns ptr => Kept sys' old bytes (sys.held old) ptr
  | .asleep => ∃ caller r, sys'.callers = sys.callers ++ [caller] ∧ caller.resize = some r ∧ r.old = old ∧
      r.bytes = bytes ∧ r.data = sys.held old

theorem Came.small (came : Came sys sys' gd type resize answer outcome) (before : ∀ a ∈ sys.accounts, a.block.len < 2 ^ 31)
    (new : ∀ ptr len, answer = .chunk ptr len → len < 2 ^ 31) : ∀ a ∈ sys'.accounts, a.block.len < 2 ^ 31 := by
  intro a member
  rcases came.accounts a member with held | ⟨ptr, len, same, rfl⟩
  · exact before a held
  · exact new ptr len same

theorem Core.krealloc (core : Core k ncpus sys) (here : gd < ncpus) (below : bytes ≤ 2 ^ 40) (held : old ∈ sys.accounts)
    (idle : sys.Idle old) (small : ∀ a ∈ sys.accounts, a.block.len < 2 ^ 31) {intr limited : Bool}
    (call : Stats.krealloc k gd intr old bytes flags limited sys = .ok (outcome, sys')) :
    Core k ncpus sys' ∧ (∀ a ∈ sys'.accounts, a.block.len < 2 ^ 31) ∧ Resized sys sys' old bytes outcome := by
  have live := core.live_of held
  have use := core.use old.cpu
  have pointer := use.live_ptr live
  unfold Stats.krealloc at call
  simp only at call
  split at call
  · cases call
  rw [if_neg (not_or.mpr pointer)] at call
  split at call
  · cases call
  · rename_i kept
    obtain ⟨-, enough⟩ := next_fits use live (small old held) below kept
    obtain ⟨rfl, rfl⟩ := Prod.mk.inj (Except.ok.inj call)
    refine ⟨core, small, ?_⟩
    show Kept sys old bytes (sys.held old) old.block.ptr
    unfold Kept
    rw [if_neg pointer.1]
    exact ⟨old, held, rfl, rfl, enough, rfl⟩
  · rename_i freed
    have none := next_fits use live (small old held) below freed
    split at call
    · cases call
    rename_i sys₁ done
    obtain ⟨rfl, rfl⟩ := Prod.mk.inj (Except.ok.inj call)
    obtain ⟨core', -, accounts, -⟩ := core.kfree here held idle (small old held) done
    refine ⟨core', fun a stays => small a ((accounts a).mp stays).1, ?_⟩
    show Kept sys₁ old bytes (sys.held old) 0
    unfold Kept
    rw [if_pos rfl]
    exact fun some => absurd none some
  · rename_i size found asked
    obtain ⟨nonempty, long, bound, osize⟩ := next_fits use live (small old held) below asked
    have asking : ∀ r, some { old, intr, bytes, size, osize := found, data := sys.held old : Resize } = some r →
        Asking sys old.type size r := by
      intro r same
      obtain rfl := Option.some.inj same
      exact ⟨⟨held, rfl, nonempty, long, osize⟩, rfl, rfl, idle⟩
    obtain ⟨core', answer, came, fits⟩ := core.kmalloc here (by omega) asking small call
    refine ⟨core', came.small small fits, ?_⟩
    cases outcome with
    | returns ptr => exact came.kept fits _ rfl ptr rfl
    | asleep =>
        obtain ⟨request, callers⟩ := came.asleep rfl
        exact ⟨_, _, callers, rfl, rfl, rfl, rfl⟩

/-! ## Runs -/

/-- No request of `2 ^ 31` bytes or more, rounded up, is satisfied. -/
def Label.Small : Label → Prop
  | .resume caller (some _) _ => caller.request.length < 2 ^ 31
  | _ => True

/-- A `krealloc` that returns has kept contents, and one that waits remembers them. -/
def Label.Honest (sys sys' : System) : Label → Prop
  | .krealloc _ _ old bytes _ _ outcome => old ∈ sys.accounts → Resized sys sys' old bytes outcome
  | .resume caller _ (.returns ptr) => ∀ r, caller.resize = some r → Kept sys' r.old r.bytes r.data ptr
  | _ => True

/-- The statistics are exact, and every size comes back. -/
structure Exact (k : Kernel) (ncpus : Nat) (sys : System) : Prop where
  memuse : ∀ type, (total (sys.memuse type) ncpus).toNat = Stats.bytes sys.accounts type
  inuse : ∀ type, (total (sys.inuse type) ncpus).toNat = count sys.accounts type
  size : ∀ a ∈ sys.accounts, blockSize k a.block.ptr (sys.cpu a.cpu) = a.block.len

/-- The live blocks of all cpus fit into the kernel's memory together. -/
theorem Core.sum_len_le (core : Core k ncpus sys) : (sys.accounts.map (·.block.len)).sum ≤ k.kvaEnd - k.kvaStart := by
  have apart : (sys.accounts.map fun a => Span.mk a.block.ptr a.block.len).Pairwise Span.Apart := by
    refine List.pairwise_map.mpr (core.balanced.distinct.imp_of_mem fun {a b} first second other => ?_)
    by_cases cpu : a.cpu = b.cpu
    · exact core.apart first second (fun same => other (same ▸ ⟨rfl, rfl⟩)) cpu
    · obtain ⟨home, mapped, covers, -⟩ := (core.use a.cpu).live_home (core.live_of first)
      obtain ⟨home', mapped', covers', -⟩ := (core.use b.cpu).live_home (core.live_of second)
      exact (core.maps a.cpu b.cpu cpu home mapped home' mapped').mono covers covers'
  have inside : ∀ span ∈ sys.accounts.map (fun a => Span.mk a.block.ptr a.block.len),
      k.kvaStart ≤ span.lo ∧ span.hi ≤ k.kvaStart + (k.kvaEnd - k.kvaStart) := by
    intro span member
    obtain ⟨a, held, rfl⟩ := List.mem_map.mp member
    obtain ⟨home, mapped, covers, -⟩ := (core.use a.cpu).live_home (core.live_of held)
    have bounds := (core.use a.cpu).mapped home mapped
    have lower : k.kvaStart ≤ home.ptr := bounds.2.2.1
    have upper : home.stop ≤ k.kvaEnd := bounds.2.2.2
    have last : a.block.ptr + a.block.len ≤ home.stop := covers.2
    have first := covers.1
    unfold Span.hi
    show k.kvaStart ≤ a.block.ptr ∧ a.block.ptr + a.block.len ≤ _
    omega
  have sum := Span.sum_len_le apart inside
  rwa [List.map_map] at sum

theorem Core.exact (core : Core k ncpus sys) (small : ∀ a ∈ sys.accounts, a.block.len < 2 ^ 31) : Exact k ncpus sys := by
  have kva := k.kva
  have all := core.sum_len_le
  have bytes_le : ∀ type, Stats.bytes sys.accounts type ≤ (sys.accounts.map (·.block.len)).sum := by
    intro type
    exact (List.filter_sublist.map _).sum_le_sum fun _ _ => Nat.zero_le _
  have count_le : ∀ type, count sys.accounts type ≤ Stats.bytes sys.accounts type := by
    intro type
    unfold count Stats.bytes
    rw [← List.length_map (·.block.len)]
    apply List.length_le_sum_of_one_le
    intro len member
    obtain ⟨a, held, rfl⟩ := List.mem_map.mp member
    exact (core.use a.cpu).live_len (core.live_of (List.mem_of_mem_filter held))
  constructor
  · intro type
    rw [core.balanced.memuse, BitVec.toNat_ofNat]
    have few := bytes_le type
    omega
  · intro type
    rw [core.balanced.inuse, BitVec.toNat_ofNat]
    have few := bytes_le type
    have fewer := count_le type
    omega
  · intro a member
    exact (blockSize_eq_iff (core.use a.cpu) (core.live_of member)).mpr (small a member)

theorem Core.init (k : Kernel) (ncpus : Nat) (mem : Nat → Mem) (zoneRelsThresh : Int) :
    Core k ncpus (System.init mem zoneRelsThresh) where
  use c := Use.init (on k c) (mem c) zoneRelsThresh
  live c b := ⟨nofun, nofun⟩
  maps _ _ _ b member := nomatch member
  pending c := List.Perm.refl []
  balanced := by
    have zero : total (fun _ => 0) ncpus = 0 := by
      induction ncpus with
      | zero => rfl
      | succ n ih =>
          unfold total
          rw [ih]
          rfl
    exact ⟨List.Pairwise.nil, fun _ => zero, fun _ => zero⟩
  callers _ member := nomatch member
  exclusive := List.Pairwise.nil

/-- The blocks and the books after a step that touches no block. -/
theorem Core.other (core : Core k ncpus sys) (spares : Spares (sys.cpu gd) s) (use : Use (on k gd) s) :
    Core k ncpus (sys.withCpu gd s) := by
  refine core.quiet use spares.live ?_ spares.pending ?_
  · apply core.maps_of_covered
    rw [spares.kernelMap]
    exact fun b member => ⟨b, member, Nat.le_refl _, Nat.le_refl _⟩
  · intro caller waits r resize same
    have live := core.live_of ((core.callers caller waits).moving r resize).1.held
    rw [same] at live
    exact ⟨spares.bytes _ live, spares.kup _⟩

/-- Memory goes back to the kernel. -/
theorem Core.shrink (core : Core k ncpus sys) (use : Use (on k gd) s) (live : s.live = (sys.cpu gd).live)
    (mem : s.mem = (sys.cpu gd).mem) (pending : s.pending = (sys.cpu gd).pending)
    (kernelMap : s.kernelMap ⊆ (sys.cpu gd).kernelMap) (kup : ∀ page, 0 < s.kup page → 0 < (sys.cpu gd).kup page) :
    Core k ncpus (sys.withCpu gd s) := by
  refine core.quiet use live ?_ pending ?_
  · exact core.maps_of_covered fun b member => ⟨b, kernelMap member, Nat.le_refl _, Nat.le_refl _⟩
  · exact fun caller _ r _ _ => ⟨fun a _ _ => congrFun mem a, kup _⟩

theorem Core.releaseZone (core : Core k ncpus sys) (gd : Nat) :
    Core k ncpus (sys.withCpu gd (Slab.releaseZone (on k gd) (sys.cpu gd))) := by
  have use := (core.use gd).releaseZone
  revert use
  unfold Slab.releaseZone
  split
  · exact fun use => core.shrink use rfl rfl rfl (fun _ => id) fun _ => id
  · split
    · exact fun use => core.shrink use rfl rfl rfl (List.erase_subset ..) fun _ => kup_cleared (Int.lt_irrefl 0)
    · exact fun use => core.shrink use rfl rfl rfl (fun _ => id) fun _ => id

theorem Core.releaseOvZone (core : Core k ncpus sys) (call : Slab.releaseOvZone (sys.cpu gd) = .ok s) :
    Core k ncpus (sys.withCpu gd s) := by
  obtain ⟨s', same, use, live⟩ := (core.use gd).releaseOvZone
  obtain rfl := Except.ok.inj (same.symm.trans call)
  unfold Slab.releaseOvZone at call
  split at call
  · obtain rfl := Except.ok.inj call
    exact core.shrink use rfl rfl rfl (fun _ => id) fun _ => id
  · split at call
    · cases call
    · obtain rfl := Except.ok.inj call
      exact core.shrink use rfl rfl rfl (List.erase_subset ..) fun _ => id

/-- A step keeps the invariant; with a small request also that all blocks are small. -/
theorem Core.step (core : Core k ncpus sys) (small : ∀ a ∈ sys.accounts, a.block.len < 2 ^ 31)
    (step : Step k ncpus sys label sys') :
    Core k ncpus sys' ∧ (label.Small → (∀ a ∈ sys'.accounts, a.block.len < 2 ^ 31) ∧ label.Honest sys sys') ∧
      (¬label.Small → ∃ a ∈ sys'.accounts, 2 ^ 31 ≤ a.block.len) := by
  cases step with
  | kmalloc here below call =>
      obtain ⟨core', answer, came, fits⟩ := core.kmalloc here (by omega) (fun r (same : none = some r) => nomatch same) small call
      exact ⟨core', fun _ => ⟨came.small small fits, trivial⟩, fun big => absurd trivial big⟩
  | @krealloc _ _ _ old _ _ _ _ here below held call =>
      rcases held with ⟨held, idle⟩ | empty
      · obtain ⟨core', fits, resized⟩ := core.krealloc here below held idle small call
        exact ⟨core', fun _ => ⟨fits, fun _ => resized⟩, fun big => absurd trivial big⟩
      · unfold Stats.krealloc at call
        split at call
        · cases call
        rw [if_pos empty] at call
        obtain ⟨core', answer, came, fits⟩ := core.kmalloc here (by omega) (fun r (same : none = some r) => nomatch same) small call
        refine ⟨core', fun _ => ⟨came.small small fits, fun held => ?_⟩, fun big => absurd trivial big⟩
        have pointer := (core.use old.cpu).live_ptr (core.live_of held)
        exact absurd empty (not_or.mpr pointer)
  | @granted _ _ _ caller _ _ outcome waiting grant unused call =>
      obtain ⟨core', ptr, came⟩ := core.granted waiting small grant unused call
      refine ⟨core', fun below => ?_, fun big => ⟨_, came.new _ _ rfl, Nat.le_of_not_lt big⟩⟩
      have fits : ∀ p len, Answer.chunk ptr caller.request.length = .chunk p len → len < 2 ^ 31 := by
        intro p len same
        obtain ⟨-, rfl⟩ := Answer.chunk.inj same
        exact below
      refine ⟨came.small small fits, ?_⟩
      cases outcome with
      | returns ptr' => exact fun r resize => came.kept fits r resize ptr' rfl
      | asleep => trivial
  | @refused _ _ _ caller outcome waiting call =>
      obtain ⟨core', came⟩ := core.refused waiting small call
      refine ⟨core', fun _ => ⟨came.small small nofun, ?_⟩, fun big => absurd trivial big⟩
      cases outcome with
      | returns ptr' => exact fun r resize => came.kept nofun r resize ptr' rfl
      | asleep => trivial
  | kfree here held idle call =>
      obtain ⟨core', -, accounts, -⟩ := core.kfree here held idle (small _ held) call
      exact ⟨core', fun _ => ⟨fun a stays => small a ((accounts a).mp stays).1, trivial⟩, fun big => absurd trivial big⟩
  | write held idle inside =>
      exact ⟨core.write held idle inside, fun _ => ⟨small, trivial⟩, fun big => absurd trivial big⟩
  | releaseZone => exact ⟨core.releaseZone _, fun _ => ⟨small, trivial⟩, fun big => absurd trivial big⟩
  | releaseOvZone call => exact ⟨core.releaseOvZone call, fun _ => ⟨small, trivial⟩, fun big => absurd trivial big⟩
  | @kfreeRemote gd _ _ sent call =>
      obtain ⟨s', same, use⟩ := (core.use gd).kfreeRemote sent
      obtain rfl := Except.ok.inj (same.symm.trans call)
      have spares := (core.use gd).kfreeRemote_spares sent call
      exact ⟨core.other spares use, fun _ => ⟨small, trivial⟩, fun big => absurd trivial big⟩
  | @sysctl gd zoneRelsThresh useMallocPattern =>
      have use : Use (on k gd) { sys.cpu gd with zoneRelsThresh, useMallocPattern } := { core.use gd with }
      have spares : Spares (sys.cpu gd) { sys.cpu gd with zoneRelsThresh, useMallocPattern } :=
        .of_mem rfl rfl rfl rfl fun _ => id
      have core' := core.other spares use
      exact ⟨core', fun _ => ⟨small, trivial⟩, fun big => absurd trivial big⟩

/-- A run in which the requests that are satisfied are small. -/
theorem Core.run {mem : Nat → Mem} {zoneRelsThresh : Int} {labels : List Label}
    (run : Run (fun sys label sys' => Step k ncpus sys label sys' ∧ label.Small) (System.init mem zoneRelsThresh) labels sys) :
    Core k ncpus sys ∧ ∀ a ∈ sys.accounts, a.block.len < 2 ^ 31 := by
  refine @Run.invariant _ _ _ (fun sys => Core k ncpus sys ∧ ∀ a ∈ sys.accounts, a.block.len < 2 ^ 31) ?_ _ _ _ run
    ⟨Core.init k ncpus mem zoneRelsThresh, fun _ member => nomatch member⟩
  rintro sys sys' label ⟨core, small⟩ ⟨step, below⟩
  obtain ⟨core', fits, -⟩ := core.step small step
  exact ⟨core', (fits below).1⟩

/-- As long as the requests that are satisfied are below `2 ^ 31` bytes the statistics of every malloc
type are exact, sizes come back and `krealloc` keeps contents; the first one that is not breaks this. -/
theorem accounts_exact {mem : Nat → Mem} {zoneRelsThresh : Int} {labels : List Label}
    (run : Run (fun sys label sys' => Step k ncpus sys label sys' ∧ label.Small) (System.init mem zoneRelsThresh) labels sys) :
    Exact k ncpus sys ∧ ∀ label sys', Step k ncpus sys label sys' →
      (Exact k ncpus sys' ↔ label.Small) ∧ (label.Small → label.Honest sys sys') := by
  obtain ⟨core, small⟩ := Core.run run
  refine ⟨core.exact small, fun label sys' step => ?_⟩
  obtain ⟨core', fits, breaks⟩ := core.step small step
  refine ⟨⟨fun exact => ?_, fun below => core'.exact (fits below).1⟩, fun below => (fits below).2⟩
  by_contra big
  obtain ⟨a, held, large⟩ := breaks big
  have less := (blockSize_eq_iff (core'.use a.cpu) (core'.live_of held)).mp (exact.size a held)
  omega

/-- A machine with eight gigabytes of kernel memory. -/
def eight : Kernel where
  usesize := 2 ^ 23
  invariants := false
  slabDebug := false
  cpuid := 0
  kvaStart := 2 ^ 40
  kvaEnd := 2 ^ 40 + 2 ^ 33
  kva := by decide

/-- A request on cpu `gd` waits, and nothing else has happened. -/
def waiting (gd type : Nat) (request : Request) : System :=
  { System.withCpu (System.init (fun _ _ => 0) 32) gd { State.init (fun _ => 0) 32 with pending := [request] } with
    callers := [⟨gd, type, request, none⟩] }

theorem waiting_unused (gd type : Nat) (request : Request) (piece : Block) (c : Nat) :
    ∀ b ∈ ((waiting gd type request).cpu c).kernelMap, b.Apart piece := by
  have empty : ((waiting gd type request).cpu c).kernelMap = [] :=
    withCpu_forall (fun _ s => s.kernelMap = []) rfl (fun _ _ => rfl) c
  rw [empty]
  exact nofun

/-- A chunk of 104 bytes is charged to its type. -/
theorem accounts_exact_chunk : ∃ labels sys, labels.length = 2 ∧
    Run (fun sys label sys' => Step eight 2 sys label sys' ∧ label.Small) (System.init (fun _ _ => 0) 32) labels sys ∧
    sys.accounts.length = 1 ∧ Exact eight 2 sys := by
  have first : Step eight 2 (System.init (fun _ _ => 0) 32) (.kmalloc 1 5 100 ⟨true, false, false⟩ false .asleep)
      (waiting 1 5 (.zone 100 12 104 ⟨true, false, false⟩)) := .kmalloc (by decide) (by decide) rfl
  have grant : Granted (on eight 1) ((waiting 1 5 (.zone 100 12 104 ⟨true, false, false⟩)).cpu 1)
      (2 ^ 40) eight.zoneSize eight.zoneSize true (fun _ => 0) := by
    refine ⟨Nat.le_refl _, by decide, by decide, waiting_unused _ _ _ _ _, fun _ _ => rfl, fun _ _ _ _ => rfl⟩
  have second := @Step.granted eight 2 (waiting 1 5 (.zone 100 12 104 ⟨true, false, false⟩)) _ [] []
    ⟨1, 5, .zone 100 12 104 ⟨true, false, false⟩, none⟩ (2 ^ 40) (fun _ => 0) _ rfl grant (waiting_unused _ _ _ _) rfl
  have run : Run (fun sys label sys' => Step eight 2 sys label sys' ∧ label.Small) _ _ _ :=
    .cons ⟨first, trivial⟩ (.cons ⟨second, show 104 < 2 ^ 31 by decide⟩ (.nil _))
  exact ⟨_, _, rfl, run, rfl, (accounts_exact run).1⟩

/-- Two gigabytes come and go, and four are left on the books. -/
theorem large_block_miscounted : ¬∀ labels sys, Run (Step eight 1) (System.init (fun _ _ => 0) 32) labels sys →
    Exact eight 1 sys := by
  intro claim
  have first : Step eight 1 (System.init (fun _ _ => 0) 32) (.kmalloc 0 5 (2 ^ 31) ⟨false, false, false⟩ false .asleep)
      (waiting 0 5 (.oversized (2 ^ 31) (2 ^ 31) ⟨false, false, false⟩)) := .kmalloc (by decide) (by decide) rfl
  have grant : Granted (on eight 0) ((waiting 0 5 (.oversized (2 ^ 31) (2 ^ 31) ⟨false, false, false⟩)).cpu 0)
      (2 ^ 40) (2 ^ 31) pageSize false (fun _ => 0) := by
    refine ⟨Nat.le_refl _, by decide, by decide, waiting_unused _ _ _ _ _, fun _ _ => rfl, nofun⟩
  have second := @Step.granted eight 1 (waiting 0 5 (.oversized (2 ^ 31) (2 ^ 31) ⟨false, false, false⟩)) _ [] []
    ⟨0, 5, .oversized (2 ^ 31) (2 ^ 31) ⟨false, false, false⟩, none⟩ (2 ^ 40) (fun _ => 0) _ rfl grant (waiting_unused _ _ _ _) rfl
  have counted : ∃ labels sys, Run (Step eight 1) (System.init (fun _ _ => 0) 32) labels sys ∧
      (total (sys.memuse 5) 1).toNat = 2 ^ 32 ∧ Stats.bytes sys.accounts 5 = 0 := by
    refine ⟨_, _, .cons first (.cons second (.cons (@Step.kfree eight 1 _ _ 0 false ⟨0, 5, ⟨2 ^ 40, 2 ^ 31⟩⟩ (by decide)
      List.mem_cons_self (fun _ waits => ?_) rfl) (.nil _))), ?_, ?_⟩
    · cases waits
    · rfl
    · rfl
  obtain ⟨labels, sys, run, left, none⟩ := counted
  have exact := (claim labels sys run).memuse 5
  rw [left, none] at exact
  cases exact

end Dragonfly.Kern.Slab.Stats
