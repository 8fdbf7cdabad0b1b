import Dragonfly.Lib.Run
import Dragonfly.Kern.Rb.Whole

/-!
# Scans with modifications

The code outside of the tree inserts and removes elements, reuses the memory of the others and
starts scans, also while callbacks run.  The scans that are active are nested, and only the
innermost one goes on when its callback answers.  Every scan notes the calls of its callback, the
elements that were in the tree at each of them, and the elements that have stayed in the tree.
-/

namespace Dragonfly.Kern.Rb

open Dragonfly.Lib Dragonfly.Lib.Redblack

variable {α κ : Type} [LinearOrder κ] {ord : Order α κ}

/-- A call of a callback, with the elements in the tree. -/
structure Call (α : Type) where
  elm : α
  members : List α

/-- A call of `RB_SCAN` with `info` at `addr`. -/
structure Scan (ord : Order α κ) where
  addr : Nat
  range : Range ord
  count : Int
  calls : List (Call α)
  stayed : List α

namespace Scan

/-- The keys increase, and every element is in the tree and in the range. -/
def Sound (scan : Scan ord) : Prop :=
  (scan.calls.Pairwise fun call later => ord.key call.elm < ord.key later.elm) ∧
    ∀ call ∈ scan.calls, call.elm ∈ call.members ∧ scan.range.scancmp call.elm = 0

variable [DecidableEq α]

/-- Every element of the range that has stayed was called for exactly once. -/
def Complete (scan : Scan ord) : Prop :=
  ∀ elm ∈ scan.stayed, scan.range.scancmp elm = 0 → (scan.calls.map (·.elm)).count elm = 1

/-- An element is removed. -/
def lose (elm : α) (scan : Scan ord) : Scan ord :=
  { scan with stayed := scan.stayed.filter fun other => other ≠ elm }

end Scan

/-- The active scans, the innermost first, and those that have returned, with what they returned. -/
structure State (ord : Order α κ) where
  head : Head α
  members : List α
  active : List (Scan ord)
  returned : List (Scan ord × Int)

namespace State

/-- The scan above `outer` calls its callback, or it returns. -/
def turned (s : State ord) (head : Head α) (scan : Scan ord) (outer : List (Scan ord)) : Turn α → State ord
  | .call best count =>
      { s with
        head
        active := { scan with count, calls := scan.calls ++ [⟨best, s.members⟩] } :: outer }
  | .ret count => { s with head, active := outer, returned := (scan, count) :: s.returned }

end State

/-- What happens to the tree: `answer` is the return of the innermost callback. -/
inductive Action (ord : Order α κ) where
  | insert (elm : α)
  | remove (elm : α)
  | write (elm : α) (entry : Entry α)
  | scan (addr : Nat) (range : Range ord)
  | answer (comp : Int)

variable [DecidableEq α]

inductive Move : State ord → Action ord → State ord → Prop where
  | found {s : State ord} {elm other : α} {head : Head α}
      (runs : Gives (fun fuel => insert ord.cmp fuel s.head elm) (head, some other)) :
      Move s (.insert elm) { s with head }
  | inserted {s : State ord} {elm : α} {head : Head α}
      (runs : Gives (fun fuel => insert ord.cmp fuel s.head elm) (head, none)) :
      Move s (.insert elm) { s with head, members := elm :: s.members }
  | removed {s : State ord} {elm : α} {head : Head α} (member : elm ∈ s.members)
      (runs : Gives (fun fuel => remove fuel s.head elm) head) :
      Move s (.remove elm)
        { s with
          head
          members := s.members.filter fun other => other ≠ elm
          active := s.active.map (Scan.lose elm) }
  | written {s : State ord} {elm : α} {entry : Entry α} (outside : elm ∉ s.members) :
      Move s (.write elm entry) { s with head := s.head.modify elm fun _ => entry }
  | started {s : State ord} {addr : Nat} {range : Range ord} {head : Head α} {turn : Turn α}
      (free : ∀ scan ∈ s.active, scan.addr ≠ addr)
      (runs : Gives (fun fuel => scanStart range.scancmp fuel s.head addr) (head, turn)) :
      Move s (.scan addr range) (s.turned head ⟨addr, range, 0, [], s.members⟩ s.active turn)
  | answered {s : State ord} {scan : Scan ord} {outer : List (Scan ord)} {comp : Int} {head : Head α} {turn : Turn α}
      (top : s.active = scan :: outer)
      (runs : Gives (fun fuel => scanTurn scan.range.scancmp fuel s.head scan.addr scan.count comp) (head, turn)) :
      Move s (.answer comp) (s.turned head scan outer turn)

/-- What the code outside may do: it removes what is in the tree, writes to what is not, has `info`
of a new scan in memory of its own, and callbacks answer that have been called. -/
def State.Allows (s : State ord) : Action ord → Prop
  | .insert _ => True
  | .remove elm => elm ∈ s.members
  | .write elm _ => elm ∉ s.members
  | .scan addr _ => ∀ scan ∈ s.active, scan.addr ≠ addr
  | .answer _ => s.active ≠ []

/-- An empty tree; the entries are whatever is in memory. -/
def start (ord : Order α κ) (entry : α → Entry α) : State ord := ⟨init entry, [], [], []⟩

/-! ## The invariant -/

/-- An active scan waits at the next element: whatever has stayed in the tree has been called for,
or it is not in front of that element. -/
structure Waits (members : List α) (scan : Scan ord) (info : ScanInfo α) : Prop where
  addr : info.addr = scan.addr
  called : scan.calls ≠ []
  sound : scan.Sound
  count : 0 ≤ scan.count
  node : ∀ node, info.node = some node → node ∈ members ∧ ∀ call ∈ scan.calls, ord.key call.elm < ord.key node
  stayed : ∀ elm ∈ scan.stayed, elm ∈ members
  missing : ∀ elm ∈ scan.stayed, scan.range.scancmp elm = 0 → (∃ call ∈ scan.calls, call.elm = elm) ∨
    ∃ node, info.node = some node ∧ ord.key node ≤ ord.key elm

/-- Each active scan has its `info` in the list of scans in progress. -/
structure Inv (s : State ord) : Prop where
  built : ∃ elms, Built ord s.head s.head.inprog elms ∧ ∀ elm, elm ∈ s.members ↔ elm ∈ elms
  waits : List.Forall₂ (Waits s.members) s.active s.head.inprog
  apart : (s.active.map (·.addr)).Nodup
  returned : ∀ scan result, (scan, result) ∈ s.returned → scan.Sound ∧ (0 ≤ result → scan.Complete)

theorem start_inv (entry : α → Entry α) : Inv (start ord entry) :=
  ⟨⟨[], Built.init entry, fun _ => Iff.rfl⟩, .nil, List.nodup_nil, fun _ _ member => absurd member List.not_mem_nil⟩

/-! ## Scans that wait -/

namespace Waits

variable {members members' front back elms : List α} {scan : Scan ord} {info : ScanInfo α} {elm best : α} {count : Int}

omit [DecidableEq α] in
theorem mono (waits : Waits members scan info) (grown : ∀ elm ∈ members, elm ∈ members') : Waits members' scan info where
  addr := waits.addr
  called := waits.called
  sound := waits.sound
  count := waits.count
  node node next := ⟨grown node (waits.node node next).1, (waits.node node next).2⟩
  stayed elm member := grown elm (waits.stayed elm member)
  missing := waits.missing

omit [DecidableEq α] in
/-- No element is in front of the first one. -/
theorem head_le (sorted : Sorted ord back) (member : elm ∈ back) :
    ∃ node, back.head? = some node ∧ ord.key node ≤ ord.key elm := by
  cases back with
  | nil => simp at member
  | cons node back =>
      refine ⟨node, rfl, ?_⟩
      rcases List.mem_cons.mp member with rfl | member
      · exact le_rfl
      · exact (List.rel_of_pairwise_cons sorted member).le

/-- The element of a removal is not waited at any more. -/
theorem lose (waits : Waits members scan info) (elems : ∀ other, other ∈ members ↔ other ∈ front ++ elm :: back)
    (sorted : Sorted ord (front ++ elm :: back)) :
    Waits (members.filter fun other => other ≠ elm) (scan.lose elm) (info.moved elm back.head?) := by
  obtain ⟨rest, before, after⟩ := sorted_split.mp sorted
  have sortedBack : Sorted ord back := (List.pairwise_append.mp rest).2.1
  have kept : ∀ other, other ∈ members.filter (fun other => other ≠ elm) ↔ other ∈ members ∧ other ≠ elm := by
    simp
  have keptStayed : ∀ other, other ∈ (scan.lose elm).stayed ↔ other ∈ scan.stayed ∧ other ≠ elm := by
    simp [Scan.lose]
  rw [ScanInfo.moved]
  by_cases here : info.node = some elm
  · rw [if_pos here]
    refine ⟨waits.addr, waits.called, waits.sound, waits.count, ?_, ?_, ?_⟩
    · intro node next
      have member : node ∈ back := List.mem_of_head? next
      have less := after node member
      refine ⟨(kept node).mpr ⟨(elems node).mpr (by simp [member]), fun same => less.ne (by rw [same])⟩, ?_⟩
      exact fun call called => ((waits.node elm here).2 call called).trans less
    · intro other member
      obtain ⟨stayed, differ⟩ := (keptStayed other).mp member
      exact (kept other).mpr ⟨waits.stayed other stayed, differ⟩
    · intro other member inRange
      obtain ⟨stayed, differ⟩ := (keptStayed other).mp member
      rcases waits.missing other stayed inRange with called | ⟨node, next, notAfter⟩
      · exact .inl called
      · right
        obtain rfl : elm = node := Option.some.inj (here.symm.trans next)
        have inside := (elems other).mp (waits.stayed other stayed)
        rw [List.mem_append, List.mem_cons] at inside
        rcases inside with first | same | last
        · exact absurd notAfter (not_le.mpr (before other first))
        · exact absurd same differ
        · exact head_le sortedBack last
  · rw [if_neg here]
    refine ⟨waits.addr, waits.called, waits.sound, waits.count, ?_, ?_, ?_⟩
    · intro node next
      obtain ⟨member, later⟩ := waits.node node next
      exact ⟨(kept node).mpr ⟨member, fun same => here (same ▸ next)⟩, later⟩
    · intro other member
      obtain ⟨stayed, differ⟩ := (keptStayed other).mp member
      exact (kept other).mpr ⟨waits.stayed other stayed, differ⟩
    · intro other member inRange
      exact waits.missing other ((keptStayed other).mp member).1 inRange

omit [DecidableEq α] in
/-- The callback is called for the next element, and the scan waits at the one behind it. -/
theorem call (elems : ∀ other, other ∈ members ↔ other ∈ front ++ best :: back)
    (sorted : Sorted ord (front ++ best :: back)) (sound : scan.Sound)
    (later : ∀ call ∈ scan.calls, ord.key call.elm < ord.key best) (inRange : scan.range.scancmp best = 0)
    (nonneg : 0 ≤ count) (stayed : ∀ elm ∈ scan.stayed, elm ∈ members)
    (missing : ∀ elm ∈ scan.stayed, scan.range.scancmp elm = 0 → (∃ call ∈ scan.calls, call.elm = elm) ∨
      ord.key best ≤ ord.key elm) :
    Waits members { scan with count, calls := scan.calls ++ [⟨best, members⟩] } ⟨scan.addr, back.head?⟩ := by
  obtain ⟨rest, before, after⟩ := sorted_split.mp sorted
  have sortedBack : Sorted ord back := (List.pairwise_append.mp rest).2.1
  have present : best ∈ members := (elems best).mpr (by simp)
  refine ⟨rfl, by simp, ⟨?_, ?_⟩, nonneg, ?_, stayed, ?_⟩
  · apply List.pairwise_append.mpr
    refine ⟨sound.1, List.pairwise_singleton _ _, ?_⟩
    intro call member next final
    rw [List.mem_singleton.mp final]
    exact later call member
  · intro call member
    rcases List.mem_append.mp member with member | final
    · exact sound.2 call member
    · rw [List.mem_singleton.mp final]
      exact ⟨present, inRange⟩
  · intro node next
    have member : node ∈ back := List.mem_of_head? next
    have less := after node member
    refine ⟨(elems node).mpr (by simp [member]), ?_⟩
    intro call called
    rcases List.mem_append.mp called with called | final
    · exact (later call called).trans less
    · rw [List.mem_singleton.mp final]
      exact less
  · intro elm member within
    rcases missing elm member within with ⟨call, called, same⟩ | notBefore
    · exact .inl ⟨call, List.mem_append_left _ called, same⟩
    · have inside := (elems elm).mp (stayed elm member)
      rw [List.mem_append, List.mem_cons] at inside
      rcases inside with first | same | last
      · exact absurd notBefore (not_le.mpr (before elm first))
      · exact .inl ⟨⟨best, members⟩, by simp, same.symm⟩
      · exact .inr (head_le sortedBack last)

/-- A scan that ends at the end of the range has been everywhere. -/
theorem complete (waits : Waits members scan info) (elems : ∀ other, other ∈ members ↔ other ∈ elms)
    (sorted : Sorted ord elms) (ends : ∀ node, info.node = some node → scan.range.scancmp node ≠ 0) :
    scan.Complete := by
  intro elm member inRange
  have nodup : (scan.calls.map (·.elm)).Nodup := by
    apply List.pairwise_map.mpr
    exact waits.sound.1.imp fun less same => less.ne (by rw [same])
  apply List.count_eq_one_of_mem nodup
  rcases waits.missing elm member inRange with ⟨call, called, same⟩ | ⟨node, next, notAfter⟩
  · exact List.mem_map.mpr ⟨call, called, same⟩
  · exfalso
    obtain ⟨call, called⟩ := List.exists_mem_of_ne_nil _ waits.called
    obtain ⟨present, later⟩ := waits.node node next
    rcases lt_or_gt_of_ne (ends node next) with neg | pos
    · have first := scan.range.below call.elm node (later call called) neg
      exact first.ne (waits.sound.2 call called).2
    · rcases notAfter.lt_or_eq with less | same
      · have last := scan.range.above node elm less pos
        exact last.ne' inRange
      · have here := sorted.eq_of_key ((elems node).mp present) ((elems elm).mp (waits.stayed elm member)) same
        exact ends node next (here ▸ inRange)

end Waits

/-! ## The list of scans in progress -/

section InProgress

variable {head : Head α} {infos : List (ScanInfo α)} {info : ScanInfo α} {scans : List (Scan ord)}
  {members elms : List α} {addr : Nat}

omit [DecidableEq α]

theorem infoNode_top (inprog : head.inprog = info :: infos) (here : info.addr = addr) :
    infoNode head addr = info.node := by
  rw [infoNode, inprog, List.find?_cons_of_pos (by simpa using here)]
  rfl

theorem scanInfoDone_top (inprog : head.inprog = info :: infos) (here : info.addr = addr) :
    scanInfoDone head addr = .done { head with inprog := infos } := by
  rw [scanInfoDone, inprog, takeOff, if_pos here]
  rfl

theorem setInfoNode_top (inprog : head.inprog = info :: infos) (here : info.addr = addr)
    (apart : ∀ info ∈ infos, info.addr ≠ addr) (node : Option α) :
    setInfoNode head addr node = { head with inprog := ⟨addr, node⟩ :: infos } := by
  have others : (infos.map fun info => if info.addr = addr then { info with node } else info) = infos := by
    rw [List.map_congr_left fun info member => if_neg (apart info member), List.map_id']
  rw [setInfoNode, inprog, List.map_cons, others, if_pos here, here]

/-- The scans around another one are at other addresses. -/
theorem addr_apart (waits : List.Forall₂ (Waits members) scans infos) (apart : addr ∉ scans.map (·.addr)) :
    ∀ info ∈ infos, info.addr ≠ addr := by
  induction waits with
  | nil => simp
  | @cons scan info scans infos first rest ih =>
      rw [List.map_cons, List.mem_cons, not_or] at apart
      intro other member
      rcases List.mem_cons.mp member with rfl | member
      · rw [first.addr]
        exact fun same => apart.1 same.symm
      · exact ih apart.2 other member

theorem active_sound (waits : List.Forall₂ (Waits members) scans infos) : ∀ scan ∈ scans, scan.Sound := by
  induction waits with
  | nil => simp
  | @cons scan info scans infos first rest ih =>
      intro other member
      rcases List.mem_cons.mp member with rfl | member
      · exact first.sound
      · exact ih other member

end InProgress

/-! ## Steps -/

namespace Inv

variable {s : State ord} {scan : Scan ord} {outer : List (Scan ord)} {elm : α} {addr : Nat} {comp : Int}

theorem insert_gives (inv : Inv s) (elm : α) :
    (∃ other, Gives (fun fuel => insert ord.cmp fuel s.head elm) (s.head, some other)) ∨
    ∃ head, Gives (fun fuel => insert ord.cmp fuel s.head elm) (head, none) ∧
      Inv { s with head, members := elm :: s.members } := by
  obtain ⟨elms, built, elems⟩ := inv.built
  rcases built.insert elm with ⟨other, -, runs⟩ | ⟨head, front, back, runs, split, final⟩
  · exact .inl ⟨other, runs⟩
  · refine .inr ⟨head, runs, ⟨front ++ elm :: back, ?_, ?_⟩, ?_, inv.apart, inv.returned⟩
    · rw [final.inprog_eq]
      exact final
    · intro other
      rw [List.mem_cons, elems, split]
      simp only [List.mem_append, List.mem_cons]
      exact or_left_comm
    · rw [final.inprog_eq]
      exact inv.waits.imp fun scan info waits => waits.mono fun elm member => List.mem_cons_of_mem _ member

theorem remove_gives (inv : Inv s) (member : elm ∈ s.members) :
    ∃ head, Gives (fun fuel => remove fuel s.head elm) head ∧
      Inv { s with
        head
        members := s.members.filter fun other => other ≠ elm
        active := s.active.map (Scan.lose elm) } := by
  obtain ⟨elms, built, elems⟩ := inv.built
  obtain ⟨head, front, back, rfl, runs, final⟩ := built.remove ((elems elm).mp member)
  obtain ⟨-, before, after⟩ := sorted_split.mp built.sorted
  refine ⟨head, runs, ⟨front ++ back, ?_, ?_⟩, ?_, ?_, inv.returned⟩
  · rw [final.inprog_eq]
    exact final
  · intro other
    have differ : other ∈ front ++ back → other ≠ elm := by
      rintro inside rfl
      rcases List.mem_append.mp inside with first | last
      · exact (before other first).false
      · exact (after other last).false
    rw [List.mem_filter, elems, decide_eq_true_iff]
    simp only [List.mem_append, List.mem_cons] at differ ⊢
    tauto
  · rw [final.inprog_eq, List.forall₂_map_left_iff, List.forall₂_map_right_iff]
    exact inv.waits.imp fun scan info waits => waits.lose elems built.sorted
  · rw [List.map_map]
    exact inv.apart

theorem write (inv : Inv s) (outside : elm ∉ s.members) (entry : Entry α) :
    Inv { s with head := s.head.modify elm fun _ => entry } := by
  obtain ⟨elms, built, elems⟩ := inv.built
  exact ⟨⟨elms, built.write (fun member => outside ((elems elm).mpr member)) fun _ => entry, elems⟩, inv.waits, inv.apart,
    inv.returned⟩

theorem started_gives (inv : Inv s) (free : ∀ scan ∈ s.active, scan.addr ≠ addr) (range : Range ord) :
    ∃ head turn, Gives (fun fuel => scanStart range.scancmp fuel s.head addr) (head, turn) ∧
      Inv (s.turned head ⟨addr, range, 0, [], s.members⟩ s.active turn) := by
  obtain ⟨elms, built, elems⟩ := inv.built
  have located : Gives (fun fuel => locate range.scancmp s.head fuel s.head.root none) _ := built.locate
  cases found : elms.find? fun elm => decide (range.scancmp elm = 0) with
  | none =>
      rw [found] at located
      refine ⟨s.head, .ret 0, located.bind (.pure _), ⟨elms, built, elems⟩, inv.waits, inv.apart, ?_⟩
      intro scan result member
      rcases List.mem_cons.mp member with same | member
      · cases same
        refine ⟨⟨List.Pairwise.nil, by simp⟩, fun _ elm member inRange => ?_⟩
        have outside := List.find?_eq_none.mp found elm ((elems elm).mp member)
        exact absurd (decide_eq_true inRange) outside
      · exact inv.returned scan result member
  | some best =>
      rw [found] at located
      obtain ⟨inRange, first, rest, rfl, skipped⟩ := List.find?_eq_some_iff_append.mp found
      obtain ⟨-, -, after⟩ := sorted_split.mp built.sorted
      obtain ⟨front, back, split, next⟩ := built.next (List.mem_of_find?_eq_some found)
      refine ⟨scanInfoLink s.head ⟨addr, back.head?⟩, .call best 0, located.bind (next.bind (.pure _)),
        ⟨_, built.setInprog _, elems⟩, .cons ?_ inv.waits, ?_, inv.returned⟩
      · rw [split] at elems
        apply Waits.call elems (split ▸ built.sorted) ⟨List.Pairwise.nil, by simp⟩ (by simp) (of_decide_eq_true inRange)
          le_rfl fun elm member => member
        intro elm member within
        right
        have inside := (elems elm).mp member
        rw [← split, List.mem_append, List.mem_cons] at inside
        rcases inside with before | same | behind
        · exact absurd within (by simpa using skipped elm before)
        · rw [same]
        · exact (after elm behind).le
      · exact List.nodup_cons.mpr ⟨by simpa using free, inv.apart⟩

/-- The innermost scan returns. -/
theorem ended (inv : Inv s) (top : s.active = scan :: outer) (result : Int)
    (complete : 0 ≤ result → scan.Complete) :
    ∃ head, scanInfoDone s.head scan.addr = .done head ∧ Inv (s.turned head scan outer (.ret result)) := by
  obtain ⟨elms, built, elems⟩ := inv.built
  have waits := inv.waits
  have apart := inv.apart
  rw [top] at waits apart
  rw [List.map_cons, List.nodup_cons] at apart
  cases inprog : s.head.inprog with
  | nil =>
      rw [inprog] at waits
      cases waits
  | cons info infos =>
      rw [inprog] at waits
      obtain ⟨here, rest⟩ := List.forall₂_cons.mp waits
      refine ⟨{ s.head with inprog := infos }, scanInfoDone_top inprog here.addr, ⟨elms, built.setInprog infos, elems⟩,
        rest, apart.2, ?_⟩
      intro scan' result' member
      rcases List.mem_cons.mp member with same | member
      · cases same
        exact ⟨here.sound, complete⟩
      · exact inv.returned scan' result' member

theorem answered_gives (inv : Inv s) (top : s.active = scan :: outer) (comp : Int) :
    ∃ head turn,
      Gives (fun fuel => scanTurn scan.range.scancmp fuel s.head scan.addr scan.count comp) (head, turn) ∧
        Inv (s.turned head scan outer turn) := by
  obtain ⟨elms, built, elems⟩ := inv.built
  have waits := inv.waits
  have apart := inv.apart
  rw [top] at waits apart
  rw [List.map_cons, List.nodup_cons] at apart
  cases inprog : s.head.inprog with
  | nil =>
      rw [inprog] at waits
      cases waits
  | cons info infos =>
      rw [inprog] at waits
      obtain ⟨here, rest⟩ := List.forall₂_cons.mp waits
      have node := infoNode_top inprog here.addr
      by_cases goes : 0 ≤ comp
      · by_cases inside : ∃ best, info.node = some best ∧ scan.range.scancmp best = 0
        · obtain ⟨best, waiting, inRange⟩ := inside
          obtain ⟨present, later⟩ := here.node best waiting
          obtain ⟨front, back, split, next⟩ := built.next ((elems best).mp present)
          have set := setInfoNode_top inprog here.addr (addr_apart rest apart.1) back.head?
          refine ⟨setInfoNode s.head scan.addr back.head?, .call best (scan.count + comp), ?_, ?_⟩
          · simp only [scanTurn, if_pos goes, node, waiting, inRange, ne_eq, not_true, if_false]
            exact next.bind (.pure _)
          · rw [set]
            rw [split] at elems
            refine ⟨⟨elms, built.setInprog _, split ▸ elems⟩, .cons ?_ rest, List.nodup_cons.mpr apart, inv.returned⟩
            apply Waits.call elems (split ▸ built.sorted) here.sound later inRange (Int.add_nonneg here.count goes)
              here.stayed
            intro elm member within
            rcases here.missing elm member within with called | ⟨node, next, notAfter⟩
            · exact .inl called
            · obtain rfl : best = node := Option.some.inj (waiting.symm.trans next)
              exact .inr notAfter
        · have ends : ∀ node, info.node = some node → scan.range.scancmp node ≠ 0 :=
            fun node next inRange => inside ⟨node, next, inRange⟩
          obtain ⟨head, done, final⟩ := inv.ended top (scan.count + comp)
            fun _ => here.complete elems built.sorted ends
          refine ⟨head, .ret (scan.count + comp), ?_, final⟩
          cases waiting : info.node with
          | none =>
              simp only [scanTurn, if_pos goes, node, waiting, done]
              exact .pure _
          | some best =>
              simp only [scanTurn, if_pos goes, node, waiting, ends best waiting, ne_eq, not_false_iff, if_true, done]
              exact .pure _
      · obtain ⟨head, done, final⟩ := inv.ended top comp fun nonneg => absurd nonneg goes
        refine ⟨head, .ret comp, ?_, final⟩
        simp only [scanTurn, if_neg goes, done]
        exact .pure _

/-- One step. -/
theorem move (inv : Inv s) {action : Action ord} {next : State ord} (move : Move s action next) : Inv next := by
  cases move with
  | found runs =>
      rcases inv.insert_gives _ with ⟨other, runs'⟩ | ⟨head, runs', -⟩
      · cases runs.unique runs'
        exact inv
      · cases runs.unique runs'
  | inserted runs =>
      rcases inv.insert_gives _ with ⟨other, runs'⟩ | ⟨head, runs', final⟩
      · cases runs.unique runs'
      · cases runs.unique runs'
        exact final
  | removed member runs =>
      obtain ⟨head, runs', final⟩ := inv.remove_gives member
      cases runs.unique runs'
      exact final
  | written outside => exact inv.write outside _
  | started free runs =>
      obtain ⟨head, turn, runs', final⟩ := inv.started_gives free _
      cases runs.unique runs'
      exact final
  | answered top runs =>
      obtain ⟨head, turn, runs', final⟩ := inv.answered_gives top _
      cases runs.unique runs'
      exact final

/-- Nothing that the code outside may do fails. -/
theorem possible (inv : Inv s) {action : Action ord} (allowed : s.Allows action) : ∃ next, Move s action next := by
  cases action with
  | insert elm =>
      rcases inv.insert_gives elm with ⟨other, runs⟩ | ⟨head, runs, -⟩
      · exact ⟨_, .found runs⟩
      · exact ⟨_, .inserted runs⟩
  | remove elm =>
      obtain ⟨head, runs, -⟩ := inv.remove_gives allowed
      exact ⟨_, .removed allowed runs⟩
  | write elm entry => exact ⟨_, .written allowed⟩
  | scan addr range =>
      obtain ⟨head, turn, runs, -⟩ := inv.started_gives allowed range
      exact ⟨_, .started allowed runs⟩
  | answer comp =>
      obtain ⟨scan, outer, top⟩ := List.exists_cons_of_ne_nil allowed
      obtain ⟨head, turn, runs, -⟩ := inv.answered_gives top comp
      exact ⟨_, .answered top runs⟩

end Inv

/-- Whatever the callbacks of nested scans do to the tree, each scan calls for elements that are in
the tree, with increasing keys, and exactly once for those of its range that stay in the tree when
no callback ends it; nothing is left in the list of scans in progress, and nothing fails. -/
theorem scan_tolerates {entry : α → Entry α} {actions : List (Action ord)} {s : State ord}
    (run : Run Move (start ord entry) actions s) :
    (∀ scan ∈ s.active, scan.Sound) ∧
      (∀ scan result, (scan, result) ∈ s.returned → scan.Sound ∧ (0 ≤ result → scan.Complete)) ∧
      (s.active = [] → s.head.inprog = []) ∧
      ∀ action, s.Allows action → ∃ next, Move s action next := by
  have inv : Inv s := run.invariant (fun inv move => inv.move move) (start_inv entry)
  refine ⟨?_, inv.returned, ?_, fun action allowed => inv.possible allowed⟩
  · intro scan member
    exact active_sound inv.waits scan member
  · intro idle
    have waits := inv.waits
    rw [idle, List.forall₂_nil_left_iff] at waits
    exact waits

/-- The natural numbers as elements. -/
def natural : Order Nat Nat where
  key elm := elm
  cmp elm other := (elm : Int) - other
  neg_iff elm other := by omega
  pos_iff elm other := by omega

/-- Two scans of three elements: the first callback removes the next element, overwrites it and
starts a scan that its callback ends. -/
theorem run_three : ∃ s : State natural,
    Run Move (start natural fun _ => ⟨none, none, none, .red⟩)
        [.insert 2, .insert 1, .insert 3, .scan 0 (scancmpAll natural), .remove 2,
          .write 2 ⟨none, none, some 2, .black⟩, .scan 1 (scancmpAll natural), .answer (-1), .answer 0, .answer 0] s ∧
      s.active = [] ∧
      s.returned.map (fun report => (report.1.calls.map (·.elm), report.2)) = [([1, 3], 0), ([1], -1)] := by
  refine ⟨?last, ?run, ?after⟩
  case run =>
    refine .cons (.inserted (.evaluated 9 fun _ => rfl)) ?_
    refine .cons (.inserted (.evaluated 9 fun _ => rfl)) ?_
    refine .cons (.inserted (.evaluated 9 fun _ => rfl)) ?_
    refine .cons (.started (by simp [start]) (.evaluated 9 fun _ => rfl)) ?_
    refine .cons (.removed (by simp [State.turned]) (.evaluated 9 fun _ => rfl)) ?_
    refine .cons (.written (by simp)) ?_
    refine .cons (.started (by simp [State.turned, Scan.lose, start]) (.evaluated 9 fun _ => rfl)) ?_
    refine .cons (.answered rfl (.evaluated 9 fun _ => rfl)) ?_
    refine .cons (.answered rfl (.evaluated 9 fun _ => rfl)) ?_
    refine .cons (.answered rfl (.evaluated 9 fun _ => rfl)) ?_
    exact .nil _
  case after => exact ⟨rfl, rfl⟩

theorem scan_tolerates_three : ∃ s : State natural,
    s.returned.map (fun report => (report.1.calls.map (·.elm), report.2)) = [([1, 3], 0), ([1], -1)] ∧
      (∀ scan result, (scan, result) ∈ s.returned → scan.Sound ∧ (0 ≤ result → scan.Complete)) ∧
      s.head.inprog = [] := by
  obtain ⟨s, run, idle, calls⟩ := run_three
  exact ⟨s, calls, (scan_tolerates run).2.1, (scan_tolerates run).2.2.1 idle⟩

end Dragonfly.Kern.Rb
