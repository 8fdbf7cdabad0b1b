import Dragonfly.Hammer.Snapshot

/-!
# Links to a pseudo file system

The link to a pseudo file system is stored with its number.  Reading it makes a name out of the
transaction that it can be seen at and of that number, and the lookup of the name has to lead to
the same file system and transaction.
-/

namespace Dragonfly.Hammer.Snapshot

open Dragonfly.Kern.Number

/-! ## Printing -/

/-- `hex2ascii` -/
def hex2ascii (value : Nat) : UInt8 := UInt8.ofNat (if value < 10 then 0x30 + value else 0x61 + (value - 10))

/-- `ksprintn`, in the order in which its buffer is printed; the buffer has 64 characters. -/
def ksprintn (base : Nat) : Nat → Nat → List UInt8 → List UInt8
  | 0, _, nbuf => nbuf
  | room + 1, num, nbuf =>
      if num / base = 0 then hex2ascii (num % base) :: nbuf
      else ksprintn base room (num / base) (hex2ascii (num % base) :: nbuf)

/-- `kvcprintf` for a number that is not negative, with the flag `0` and a width. -/
def printNumber (width base num : Nat) : List UInt8 :=
  let digits := ksprintn base 64 num []
  List.replicate (width - digits.length) 0x30 ++ digits

theorem digit_hex2ascii : ∀ value < 16, digit (hex2ascii value) = some value := by decide

variable {base num width room : Nat} {digits nbuf : List UInt8}

theorem number_append_singleton (base : Nat) (digits : List UInt8) (c : UInt8) :
    number base 0 (digits ++ [c]) = number base 0 digits * base + (digit c).getD 0 := by
  simp [number, List.foldl_append]

/-- The digits of a number, the most significant first: how many they are, and what they denote. -/
structure Digits (base num : Nat) (digits : List UInt8) : Prop where
  all : ∀ c ∈ digits, isDigitOf base c = true
  value : number base 0 digits = num
  short : ∀ width, num < base ^ (width + 1) → digits.length ≤ width + 1

theorem isDigitOf_hex2ascii (two : 2 ≤ base) (sixteen : base ≤ 16) (value : Nat) :
    isDigitOf base (hex2ascii (value % base)) = true := by
  have small := Nat.mod_lt value (by omega : 0 < base)
  exact isDigitOf_iff.mpr ⟨_, digit_hex2ascii _ (small.trans_le sixteen), small⟩

theorem ksprintn_digits (two : 2 ≤ base) (sixteen : base ≤ 16) (fits : num < base ^ (room + 1)) :
    ∃ digits, ksprintn base (room + 1) num nbuf = digits ++ nbuf ∧ Digits base num digits := by
  have last := digit_hex2ascii (num % base) ((Nat.mod_lt num (by omega)).trans_le sixteen)
  have here := isDigitOf_hex2ascii two sixteen num
  induction room generalizing num nbuf with
  | zero =>
      rw [zero_add, pow_one] at fits
      rw [Nat.mod_eq_of_lt fits] at last here
      refine ⟨[hex2ascii num], ?_, ?_, ?_, fun width _ => Nat.le_add_left 1 width⟩
      · simp [ksprintn, Nat.div_eq_of_lt fits, Nat.mod_eq_of_lt fits]
      · simpa using here
      · simp [number, last]
  | succ room ih =>
      rw [ksprintn]
      by_cases least : num / base = 0
      · have small : num < base := (Nat.div_eq_zero_iff_lt (by omega)).mp least
        rw [Nat.mod_eq_of_lt small] at last here
        refine ⟨[hex2ascii num], ?_, ?_, ?_, fun width _ => Nat.le_add_left 1 width⟩
        · rw [if_pos least, Nat.mod_eq_of_lt small, List.singleton_append]
        · simpa using here
        · simp [number, last]
      · have rest : num / base < base ^ (room + 1) := by
          rw [Nat.div_lt_iff_lt_mul (by omega), ← pow_succ]
          exact fits
        obtain ⟨digits, printed, all, value, short⟩ := @ih (num / base) (hex2ascii (num % base) :: nbuf) rest
          (digit_hex2ascii _ ((Nat.mod_lt _ (by omega)).trans_le sixteen)) (isDigitOf_hex2ascii two sixteen _)
        refine ⟨digits ++ [hex2ascii (num % base)], ?_, ?_, ?_, ?_⟩
        · rw [if_neg least, printed, List.append_assoc, List.singleton_append]
        · intro c member
          rcases List.mem_append.mp member with member | member
          · exact all c member
          · rw [List.mem_singleton.mp member]
            exact here
        · rw [number_append_singleton, value, last, Option.getD_some]
          exact Nat.div_add_mod' num base
        · intro width less
          rw [List.length_append, List.length_singleton]
          cases width with
          | zero => exact absurd (Nat.div_eq_of_lt (by simpa using less)) least
          | succ width =>
              have fewer : num / base < base ^ (width + 1) := by
                rw [Nat.div_lt_iff_lt_mul (by omega), ← pow_succ]
                exact less
              exact Nat.succ_le_succ (short width fewer)

/-- A number that has room is printed with as many digits as the width. -/
theorem printNumber_digits (two : 2 ≤ base) (sixteen : base ≤ 16) (fits : num < base ^ (width + 1))
    (word : num < 2 ^ 64) :
    (printNumber (width + 1) base num).length = width + 1 ∧
      (∀ c ∈ printNumber (width + 1) base num, isDigitOf base c = true) ∧
      number base 0 (printNumber (width + 1) base num) = num := by
  obtain ⟨digits, printed, all, value, short⟩ := @ksprintn_digits base num 63 [] two sixteen
    (word.trans_le (Nat.pow_le_pow_left two 64))
  rw [List.append_nil] at printed
  have zeros : ∀ count, number base 0 (List.replicate count 0x30 ++ digits) = number base 0 digits := by
    intro count
    induction count with
    | zero => rfl
    | succ count ih =>
        rw [← ih, List.replicate_succ, List.cons_append]
        simp [number, digit, isascii, isdigit]
  rw [printNumber, printed]
  refine ⟨?_, ?_, (zeros _).trans value⟩
  · rw [List.length_append, List.length_replicate]
    exact Nat.sub_add_cancel (short width fits)
  · intro c member
    rcases List.mem_append.mp member with member | member
    · rw [List.eq_of_mem_replicate member]
      exact isDigitOf_iff.mpr ⟨0, rfl, by omega⟩
    · exact all c member

/-! ## Links and names -/

/-- `HAMMER_MAX_TID` -/
def maxTid : BitVec 64 := BitVec.allOnes 64

/-- What `hammer_vop_readlink` uses of the data of a pseudo file system: whether
`HAMMER_PFSD_SLAVE` is set in `mirror_flags`, and `sync_end_tid`. -/
structure Pfsd where
  slave : Bool
  syncEndTid : BitVec 64

/-- The inode of a link that is short enough to be kept in it. -/
structure Softlink where
  symlink : List UInt8
  objAsof : BitVec 64
  objLocalization : BitVec 32

/-- The link is `@@PFS` and five more characters, seen in the primary file system as it is now. -/
def Softlink.Expands (ip : Softlink) : Prop :=
  ip.symlink.length = 10 ∧ ip.objAsof = maxTid ∧ ip.objLocalization = 0 ∧
    ip.symlink.take 5 = [0x40, 0x40, 0x50, 0x46, 0x53]

instance (ip : Softlink) : Decidable ip.Expands := inferInstanceAs (Decidable (_ ∧ _))

/-- The `localization` that is read from the link. -/
def Softlink.localization (ip : Softlink) : BitVec 32 :=
  BitVec.ofNat 32 ((strtoul (ip.symlink.drop 5) 10).1 <<< 16)

/-- `0x%016llx` of a slave, or `-1` -/
def Pfsd.tidText (pfsd : Pfsd) : List UInt8 :=
  if pfsd.slave then 0x30 :: 0x78 :: printNumber 16 16 pfsd.syncEndTid.toNat else [0x2d, 0x31]

/-- `@@0x%016llx:%05d` or `@@-1:%05d` -/
def expansion (pfsd : Pfsd) (localization : BitVec 32) : List UInt8 :=
  0x40 :: 0x40 :: (pfsd.tidText ++ 0x3a :: printNumber 5 10 (localization >>> 16).toNat)

/-- `hammer_vop_readlink` for a short link; `load` is `hammer_load_pseudofs`. -/
def hammerVopReadlink (load : BitVec 32 → Option Pfsd) (ip : Softlink) : List UInt8 :=
  if ip.Expands then
    match load ip.localization with
    | none => ip.symlink
    | some pfsd => expansion pfsd ip.localization
  else ip.symlink

/-- The loop of `hammer_vop_nresolve`: the length of the name without the extension, and what the
extension says. -/
def nresolveLoop (nlen : Nat) (result : Result) : Nat → List UInt8 → Nat × Result
  | i, [] => (i, result)
  | i, c :: rest =>
      if c = 0x40 ∧ charAt rest = 0x40 then
        let (error, found) := hammerStrToTid rest.tail result
        if error ≠ 0 then (nlen, found) else (i, found)
      else nresolveLoop nlen result (i + 1) rest

/-- The extension of a name that is looked up. -/
def nresolve (name : List UInt8) (result : Result) : Nat × Result :=
  nresolveLoop name.length result 0 name

/-- The transaction that a pseudo file system is seen at: the end of the last transfer of a slave,
or the present. -/
def Pfsd.seenAt (pfsd : Pfsd) : BitVec 64 := if pfsd.slave then pfsd.syncEndTid else maxTid

theorem ne_zero_of_isDigitOf {c : UInt8} (is : isDigitOf base c = true) : c ≠ 0 := by
  rintro rfl
  obtain ⟨value, none, -⟩ := isDigitOf_iff.mp is
  cases none

theorem tidText_spec (pfsd : Pfsd) :
    TidText pfsd.tidText pfsd.seenAt ∧ (∀ c ∈ pfsd.tidText, c ≠ 0) ∧
      pfsd.tidText.length = if pfsd.slave then 18 else 2 := by
  rw [Pfsd.tidText, Pfsd.seenAt]
  by_cases slave : pfsd.slave = true
  · have word := pfsd.syncEndTid.isLt
    obtain ⟨sixteen, hex, value⟩ :=
      @printNumber_digits 16 pfsd.syncEndTid.toNat 15 (by decide) (by decide) word word
    simp only [if_pos slave]
    refine ⟨?_, ?_, by rw [List.length_cons, List.length_cons, sixteen]⟩
    · have text := TidText.hex (.inl rfl) sixteen fun c member =>
        (@isDigitOf_sixteen c).symm.trans (hex c member)
      rw [value, BitVec.ofNat_toNat, BitVec.setWidth_eq] at text
      exact text
    · intro c member
      rcases List.mem_cons.mp member with rfl | member
      · decide
      · rcases List.mem_cons.mp member with rfl | member
        · decide
        · exact ne_zero_of_isDigitOf (hex c member)
  · simp only [if_neg slave]
    exact ⟨.minusOne, by simp, rfl⟩

theorem pfsText_printed (localization : BitVec 32) :
    PfsText (printNumber 5 10 (localization >>> 16).toNat) (localization >>> 16).toNat := by
  have id : (localization >>> 16).toNat < 65536 := by
    rw [BitVec.toNat_ushiftRight, Nat.shiftRight_eq_div_pow]
    have small := localization.isLt
    omega
  obtain ⟨five, decimal, value⟩ := @printNumber_digits 10 (localization >>> 16).toNat 4 (by decide) (by decide)
    (by omega) (by omega)
  exact ⟨five, fun c member => isDigitOf_ten.symm.trans (decimal c member), value, id⟩

/-- What is behind the `@@` of an expansion is accepted. -/
theorem hammerStrToTid_expansion (pfsd : Pfsd) (localization : BitVec 32) (result : Result) :
    hammerStrToTid (expansion pfsd localization).tail.tail result =
      (0, ⟨true, pfsd.seenAt, BitVec.ofNat 32 ((localization >>> 16).toNat * 65536)⟩) := by
  obtain ⟨front, nonzero, -⟩ := tidText_spec pfsd
  have back := pfsText_printed localization
  refine (Denotes.pfs front back).accepted ?_ result
  intro c member
  rcases List.mem_append.mp member with member | member
  · exact nonzero c member
  · rcases List.mem_cons.mp member with rfl | member
    · decide
    · exact ne_zero_of_isDigitOf (isDigitOf_ten.trans (back.2.1 c member))

/-- The number of a pseudo file system is all that its localization holds. -/
theorem localization_eq (ip : Softlink) :
    BitVec.ofNat 32 ((ip.localization >>> 16).toNat * 65536) = ip.localization := by
  apply BitVec.eq_of_toNat_eq
  rw [BitVec.toNat_ofNat, BitVec.toNat_ushiftRight, Softlink.localization, BitVec.toNat_ofNat, Nat.shiftLeft_eq,
    Nat.shiftRight_eq_div_pow]
  omega

/-- The name that a link to a pseudo file system is read as is found to have no component in front
of the extension, and the extension leads to that file system, at the end of the last transfer of
a slave and to the present of a master, whatever the lookup starts with. -/
theorem nresolve_readlink {load : BitVec 32 → Option Pfsd} {ip : Softlink} {pfsd : Pfsd} (expands : ip.Expands)
    (loaded : load ip.localization = some pfsd) (result : Result) :
    nresolve (hammerVopReadlink load ip) result = (0, ⟨true, pfsd.seenAt, ip.localization⟩) ∧
      (hammerVopReadlink load ip).length = if pfsd.slave then 26 else 10 := by
  have read : hammerVopReadlink load ip = expansion pfsd ip.localization := by
    rw [hammerVopReadlink, if_pos expands, loaded]
  have accepted := hammerStrToTid_expansion pfsd ip.localization result
  rw [localization_eq] at accepted
  rw [read]
  constructor
  · rw [nresolve, expansion, nresolveLoop, if_pos ⟨rfl, rfl⟩]
    change (let (error, found) := hammerStrToTid (expansion pfsd ip.localization).tail.tail result
      if error ≠ 0 then _ else (0, found)) = _
    rw [accepted]
    rfl
  · have five := (pfsText_printed ip.localization).1
    rw [expansion, List.length_cons, List.length_cons, List.length_append, List.length_cons,
      (tidText_spec pfsd).2.2, five]
    split <;> rfl

/-- `@@PFS00002` -/
def linkTwo : Softlink := ⟨[0x40, 0x40, 0x50, 0x46, 0x53, 0x30, 0x30, 0x30, 0x30, 0x32], maxTid, 0⟩

/-- One slave, the file system 2, which was transferred up to 0x123. -/
def loadTwo (localization : BitVec 32) : Option Pfsd :=
  if localization = 0x20000 then some ⟨true, 0x123⟩ else none

theorem nresolve_readlink_two :
    nresolve (hammerVopReadlink loadTwo linkTwo) ⟨false, maxTid, 0⟩ = (0, ⟨true, 0x123, 0x20000⟩) := by
  have here : linkTwo.localization = 0x20000 := by decide
  have loaded : loadTwo linkTwo.localization = some ⟨true, 0x123⟩ := by
    rw [here]
    rfl
  have resolved := (nresolve_readlink (by decide) loaded ⟨false, maxTid, 0⟩).1
  rw [here] at resolved
  exact resolved

end Dragonfly.Hammer.Snapshot
