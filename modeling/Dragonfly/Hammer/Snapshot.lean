import Mathlib
import Dragonfly.Kern.Number

/-!
# The suffix of a snapshot

A name can end in the transaction of a snapshot and the number of a pseudo file system.  What
stands behind the `@@` is accepted by how far two conversions of numbers go.
-/

namespace Dragonfly.Hammer.Snapshot

open Dragonfly.Kern.Number

/-- `EINVAL` -/
def einval : Nat := 22

/-- What `hammer_str_to_tid` returns through its pointers: `*ispfsp`, `*tidp` and
`*localizationp`. -/
structure Result where
  ispfs : Bool
  tid : BitVec 64
  localization : BitVec 32

/-- The character at a pointer. -/
def charAt (str : List UInt8) : UInt8 := str.headD 0

/-- A difference of pointers as an `int`. -/
def toInt (difference : Nat) : Int := (BitVec.ofNat 32 difference).toInt

/-- The check for trailing junk at the end of `hammer_str_to_tid`. -/
def checkEnd (str : List UInt8) (new old : Result) : Nat × Result :=
  if charAt str ≠ 0 then (einval, old) else (0, new)

/-- `hammer_str_to_tid` -/
def hammerStrToTid (str : List UInt8) (result : Result) : Nat × Result :=
  let (tid, ptr) := strtouq str 0
  let n := toInt (str.length - ptr.length)
  if n = 2 ∧ charAt str = 0x2d ∧ charAt str.tail = 0x31 ∨
      n = 18 ∧ charAt str = 0x30 ∧ charAt str.tail ||| 0x20 = 0x78 then
    if charAt ptr = 0x3a then
      let (pfs, rest) := strtoul ptr.tail 10
      if ptr.length - rest.length ≠ 6 then (einval, result)
      else checkEnd rest ⟨true, BitVec.ofNat 64 tid, BitVec.ofNat 32 (pfs <<< 16)⟩ result
    else checkEnd ptr ⟨false, BitVec.ofNat 64 tid, result.localization⟩ result
  else (einval, result)

/-! ## The grammar -/

/-- The text of a transaction: minus one, or 16 digits in base 16. -/
inductive TidText : List UInt8 → BitVec 64 → Prop where
  | minusOne : TidText [0x2d, 0x31] (BitVec.allOnes 64)
  | hex {x : UInt8} {digits : List UInt8} (is : x = 0x78 ∨ x = 0x58) (count : digits.length = 16)
      (all : ∀ c ∈ digits, isxdigit c = true) :
      TidText (0x30 :: x :: digits) (BitVec.ofNat 64 (number 16 0 digits))

/-- The text of a pseudo file system: five digits in base ten, for a number of 16 bits. -/
def PfsText (text : List UInt8) (pfs : Nat) : Prop :=
  text.length = 5 ∧ (∀ c ∈ text, isdigit c = true) ∧ number 10 0 text = pfs ∧ pfs < 65536

/-- The string denotes a transaction and, if there is a colon, a pseudo file system. -/
inductive Denotes : List UInt8 → BitVec 64 → Option Nat → Prop where
  | plain {str : List UInt8} {tid : BitVec 64} (text : TidText str tid) : Denotes str tid none
  | pfs {front back : List UInt8} {tid : BitVec 64} {pfs : Nat} (text : TidText front tid) (id : PfsText back pfs) :
      Denotes (front ++ 0x3a :: back) tid (some pfs)

/-- What a string denotes, with what the caller had. -/
def Result.denoted (result : Result) (tid : BitVec 64) : Option Nat → Result
  | none => ⟨false, tid, result.localization⟩
  | some pfs => ⟨true, tid, BitVec.ofNat 32 (pfs * 65536)⟩

/-- Five other characters that are converted stand behind the colon: blanks, a sign, or a number
that does not fit in 16 bits. -/
def Loose (str : List UInt8) : Prop :=
  ∃ front tid back, str = front ++ 0x3a :: back ∧ TidText front tid ∧ back.length = 5 ∧ Lenient back ∧
    ¬∃ pfs, PfsText back pfs

variable {str front back rest : List UInt8} {tid : BitVec 64} {result : Result} {pfs : Nat} {c : UInt8}

theorem toInt_eq {difference : Nat} (small : difference < 2 ^ 31) : toInt difference = difference := by
  rw [toInt, BitVec.toInt_eq_toNat_cond, BitVec.toNat_ofNat]
  split
  · omega
  · omega

theorem charAt_ne_zero (text : ∀ c ∈ str, c ≠ 0) : charAt str ≠ 0 ↔ str ≠ [] := by
  cases str with
  | nil => simp [charAt]
  | cons c rest => simpa [charAt] using text c List.mem_cons_self

set_option maxRecDepth 4096 in
theorem or_eq_x_of_lt : ∀ n < 256, n ||| 0x20 = 0x78 ↔ n = 0x78 ∨ n = 0x58 := by
  decide

/-- The letter `x` in either case. -/
theorem or_eq_x (c : UInt8) : c ||| 0x20 = 0x78 ↔ c = 0x78 ∨ c = 0x58 := by
  have small := or_eq_x_of_lt c.toNat c.toNat_lt
  simpa only [← UInt8.toNat_inj, UInt8.toNat_or, UInt8.reduceToNat] using small

/-- No digit follows the text of a transaction where the string ends or goes on with a colon. -/
theorem not_digit (follows : rest = [] ∨ ∃ back, rest = 0x3a :: back) :
    rest.takeWhile isdigit = [] ∧ rest.dropWhile isdigit = rest ∧
      rest.takeWhile isxdigit = [] ∧ rest.dropWhile isxdigit = rest := by
  rcases follows with rfl | ⟨back, rfl⟩
  · exact ⟨rfl, rfl, rfl, rfl⟩
  · exact ⟨rfl, rfl, rfl, rfl⟩

/-- The check of the transaction accepts each text of one, and goes on behind it. -/
theorem TidText.strtouq (text : TidText front tid) (follows : rest = [] ∨ ∃ back, rest = 0x3a :: back) :
    Kern.Number.strtouq (front ++ rest) 0 = (tid.toNat, rest) := by
  obtain ⟨noDigit, allDigit, noHex, allHex⟩ := not_digit follows
  cases text with
  | minusOne =>
      have spec := strtouq_minus_one rest
      rw [allDigit] at spec
      exact Prod.ext (spec.2 noDigit) spec.1
  | @hex x digits is count all =>
      have spec := strtouq_hex is (digits ++ rest)
      rw [List.takeWhile_append_of_pos all, noHex, List.append_nil, List.dropWhile_append_of_pos all, allHex,
        if_neg (List.ne_nil_of_length_pos (by omega))] at spec
      have small : number 16 0 digits < 2 ^ 64 := by
        have bound := @number_lt 16 0 digits fun c member => (isDigitOf_sixteen).trans (all c member)
        rw [count] at bound
        exact bound
      refine Prod.ext ?_ spec.1
      rw [BitVec.toNat_ofNat, Nat.mod_eq_of_lt small]
      exact spec.2 small

/-- What the check of the transaction accepts begins with the text of one. -/
theorem tidText_of_accepted (short : str.length < 2 ^ 31)
    (accepted : toInt (str.length - (strtouq str 0).2.length) = 2 ∧ charAt str = 0x2d ∧ charAt str.tail = 0x31 ∨
      toInt (str.length - (strtouq str 0).2.length) = 18 ∧ charAt str = 0x30 ∧ charAt str.tail ||| 0x20 = 0x78) :
    ∃ front tid, TidText front tid ∧ str = front ++ (strtouq str 0).2 := by
  rw [toInt_eq (by omega)] at accepted
  rcases accepted with ⟨count, first, second⟩ | ⟨count, first, second⟩
  · match str with
    | [] => cases first
    | [_] => cases second
    | a :: b :: rest =>
        obtain rfl : a = 0x2d := first
        obtain rfl : b = 0x31 := second
        have left := (strtouq_minus_one rest).1
        have bound := (List.dropWhile_suffix isdigit (l := rest)).length_le
        rw [left, List.length_cons, List.length_cons] at count
        have whole : rest.dropWhile isdigit = rest := (List.dropWhile_suffix isdigit).eq_of_length (by omega)
        rw [left, whole]
        exact ⟨_, _, .minusOne, rfl⟩
  · match str with
    | [] => cases first
    | [_] =>
        have none : (0 : UInt8) ||| 0x20 = 0x78 := second
        exact absurd none (by decide)
    | a :: b :: rest =>
        obtain rfl : a = 0x30 := first
        have is := (or_eq_x b).mp second
        have left := (strtouq_hex is rest).1
        split at left
        · rw [left, Nat.sub_self] at count
          cases count
        · have parts := List.takeWhile_append_dropWhile (p := isxdigit) (l := rest)
          have lengths := congrArg List.length parts
          rw [List.length_append] at lengths
          rw [left, List.length_cons, List.length_cons] at count
          rw [left]
          refine ⟨0x30 :: b :: rest.takeWhile isxdigit, _, .hex is (by omega) ?_, ?_⟩
          · exact fun c member => List.mem_takeWhile_imp member
          · simp [parts]

/-! ## What is accepted -/

theorem TidText.accepted (text : TidText front tid) (rest : List UInt8) :
    toInt ((front ++ rest).length - rest.length) = 2 ∧ charAt (front ++ rest) = 0x2d ∧
        charAt (front ++ rest).tail = 0x31 ∨
      toInt ((front ++ rest).length - rest.length) = 18 ∧ charAt (front ++ rest) = 0x30 ∧
        charAt (front ++ rest).tail ||| 0x20 = 0x78 := by
  rw [List.length_append, Nat.add_sub_cancel]
  cases text with
  | minusOne => exact .inl ⟨rfl, rfl, rfl⟩
  | @hex x digits is count all =>
      rw [List.length_cons, List.length_cons, count]
      exact .inr ⟨rfl, rfl, (or_eq_x x).mpr is⟩

/-- A transaction alone. -/
theorem hammerStrToTid_plain (text : TidText str tid) (result : Result) :
    hammerStrToTid str result = (0, ⟨false, tid, result.localization⟩) := by
  have parsed := text.strtouq (.inl rfl)
  have accepted := text.accepted []
  rw [List.append_nil] at parsed accepted
  rw [hammerStrToTid, parsed]
  simp only [if_pos accepted]
  rw [BitVec.ofNat_toNat, BitVec.setWidth_eq]
  rfl

/-- A transaction and a colon: the rest has to be five characters that are converted. -/
theorem hammerStrToTid_colon (text : TidText front tid) (ends : ∀ c ∈ back, c ≠ 0) (result : Result) :
    (back.length = 5 ∧ Lenient back ∧ hammerStrToTid (front ++ 0x3a :: back) result =
        (0, ⟨true, tid, BitVec.ofNat 32 ((strtoul back 10).1 <<< 16)⟩)) ∨
      ¬(back.length = 5 ∧ Lenient back) ∧ hammerStrToTid (front ++ 0x3a :: back) result = (einval, result) := by
  have parsed := text.strtouq (.inr ⟨back, rfl⟩)
  have accepted := text.accepted (0x3a :: back)
  have suffix := strtoul_ten_suffix back
  have bound := suffix.length_le
  have ended := @charAt_ne_zero (strtoul back 10).2 fun c member => ends c (suffix.subset member)
  have colon : charAt (0x3a :: back) = 0x3a := rfl
  have body : hammerStrToTid (front ++ 0x3a :: back) result =
      if back.length + 1 - (strtoul back 10).2.length ≠ 6 then (einval, result)
      else checkEnd (strtoul back 10).2 ⟨true, tid, BitVec.ofNat 32 ((strtoul back 10).1 <<< 16)⟩ result := by
    rw [hammerStrToTid, parsed]
    simp only [if_pos accepted, if_pos colon, BitVec.ofNat_toNat, BitVec.setWidth_eq]
    rfl
  rw [body]
  by_cases all : (strtoul back 10).2 = []
  · by_cases five : back.length = 5
    · have some : back ≠ [] := List.ne_nil_of_length_pos (by omega)
      refine .inl ⟨five, (strtoul_ten_all some).mp all, ?_⟩
      rw [all, five, if_neg (by decide), checkEnd, if_neg (by decide)]
    · refine .inr ⟨fun both => five both.1, ?_⟩
      rw [all, List.length_nil, if_pos (by omega)]
  · refine .inr ⟨?_, ?_⟩
    · rintro ⟨five, lenient⟩
      exact all ((strtoul_ten_all (List.ne_nil_of_length_pos (by omega))).mpr lenient)
    · split
      · rfl
      · rw [checkEnd, if_pos (ended.mpr all)]

theorem PfsText.lenient (text : PfsText back pfs) : Lenient back :=
  ⟨[], [], back, rfl, nofun, .inl rfl, List.ne_nil_of_length_pos (by rw [text.1]; decide), text.2.1⟩

/-- What denotes something is accepted as what it denotes. -/
theorem Denotes.accepted {id : Option Nat} (denotes : Denotes str tid id) (ends : ∀ c ∈ str, c ≠ 0) (result : Result) :
    hammerStrToTid str result = (0, result.denoted tid id) := by
  cases denotes with
  | plain text => exact hammerStrToTid_plain text result
  | @pfs front back _ pfs text id =>
      have inside : ∀ c ∈ back, c ≠ 0 := fun c member =>
        ends c (List.mem_append_right _ (List.mem_cons_of_mem _ member))
      rcases hammerStrToTid_colon text inside result with ⟨-, -, done⟩ | ⟨failed, -⟩
      · have some : back ≠ [] := List.ne_nil_of_length_pos (by rw [id.1]; decide)
        have value : (strtoul back 10).1 = pfs := by
          rw [strtoul_ten_value some id.2.1 (by rw [id.2.2.1]; exact id.2.2.2.trans (by decide)), id.2.2.1]
        rw [done, value, Nat.shiftLeft_eq]
        rfl
      · exact absurd ⟨id.1, id.lenient⟩ failed

/-- A string is refused without a change, or denotes something, or has other characters behind the
colon that are converted. -/
theorem hammerStrToTid_cases (short : str.length < 2 ^ 31) (ends : ∀ c ∈ str, c ≠ 0) (result : Result) :
    hammerStrToTid str result = (einval, result) ∨ (∃ tid id, Denotes str tid id) ∨ Loose str := by
  by_cases accepted : toInt (str.length - (strtouq str 0).2.length) = 2 ∧ charAt str = 0x2d ∧ charAt str.tail = 0x31 ∨
      toInt (str.length - (strtouq str 0).2.length) = 18 ∧ charAt str = 0x30 ∧ charAt str.tail ||| 0x20 = 0x78
  · obtain ⟨front, tid, text, split⟩ := tidText_of_accepted short accepted
    by_cases colon : charAt (strtouq str 0).2 = 0x3a
    · cases rest : (strtouq str 0).2 with
      | nil =>
          rw [rest] at colon
          cases colon
      | cons c back =>
          rw [rest] at colon split
          obtain rfl : c = 0x3a := colon
          have inside : ∀ c ∈ back, c ≠ 0 := fun c member =>
            ends c (by rw [split]; exact List.mem_append_right _ (List.mem_cons_of_mem _ member))
          rcases hammerStrToTid_colon text inside result with ⟨five, lenient, -⟩ | ⟨-, failed⟩
          · by_cases exact : ∃ pfs, PfsText back pfs
            · obtain ⟨pfs, id⟩ := exact
              exact .inr (.inl ⟨tid, some pfs, split ▸ .pfs text id⟩)
            · exact .inr (.inr ⟨front, tid, back, split, text, five, lenient, exact⟩)
          · rw [split]
            exact .inl failed
    · by_cases junk : charAt (strtouq str 0).2 = 0
      · have nothing : (strtouq str 0).2 = [] := by
          by_contra some
          refine (charAt_ne_zero fun c member => ends c ?_).mpr some junk
          rw [split]
          exact List.mem_append_right _ member
        rw [nothing, List.append_nil] at split
        exact .inr (.inl ⟨tid, none, split ▸ .plain text⟩)
      · refine .inl ?_
        simp only [hammerStrToTid, if_pos accepted, if_neg colon, checkEnd, ne_eq, junk, not_false_eq_true, if_true]
  · exact .inl (by simp only [hammerStrToTid, if_neg accepted])

/-- Apart from other characters behind the colon that are converted, the conversion succeeds exactly
for the strings that denote something, with what they denote; and a failure changes nothing. -/
theorem hammerStrToTid_spec (short : str.length < 2 ^ 31) (ends : ∀ c ∈ str, c ≠ 0) (result : Result) :
    (¬Loose str → ((hammerStrToTid str result).1 = 0 ↔ ∃ tid id, Denotes str tid id)) ∧
      (∀ tid id, Denotes str tid id → hammerStrToTid str result = (0, result.denoted tid id)) ∧
      ((hammerStrToTid str result).1 ≠ 0 → hammerStrToTid str result = (einval, result)) := by
  refine ⟨fun strict => ⟨fun done => ?_, ?_⟩, fun tid id denotes => denotes.accepted ends result, fun failed => ?_⟩
  · rcases hammerStrToTid_cases short ends result with refused | denotes | loose
    · rw [refused] at done
      cases done
    · exact denotes
    · exact absurd loose strict
  · rintro ⟨tid, id, denotes⟩
    rw [denotes.accepted ends result]
  · rcases hammerStrToTid_cases short ends result with refused | ⟨tid, id, denotes⟩ | loose
    · exact refused
    · exact absurd (by rw [denotes.accepted ends result]) failed
    · obtain ⟨front, tid, back, rfl, text, five, lenient, -⟩ := loose
      have inside : ∀ c ∈ back, c ≠ 0 := fun c member =>
        ends c (List.mem_append_right _ (List.mem_cons_of_mem _ member))
      rcases hammerStrToTid_colon text inside result with ⟨-, -, done⟩ | ⟨refused, -⟩
      · exact absurd (by rw [done]) failed
      · exact absurd ⟨five, lenient⟩ refused

set_option maxRecDepth 2000 in
/-- `0xFFFFFFFFFFFFFFFF:00001` -/
theorem hammerStrToTid_spec_pfs :
    hammerStrToTid ([0x30, 0x78] ++ List.replicate 16 0x46 ++ [0x3a, 0x30, 0x30, 0x30, 0x30, 0x31]) ⟨false, 0, 0⟩ =
      (0, ⟨true, 0xffffffffffffffff, 0x10000⟩) := by
  have text : TidText (0x30 :: 0x78 :: List.replicate 16 0x46) _ := .hex (.inl rfl) rfl (by decide)
  have id : PfsText [0x30, 0x30, 0x30, 0x30, 0x31] 1 := ⟨rfl, by decide, rfl, by decide⟩
  exact (hammerStrToTid_spec (by decide) (by decide) ⟨false, 0, 0⟩).2.1 _ _ (.pfs text id)

set_option maxRecDepth 2000 in
/-- The letter `x` is accepted in upper case. -/
theorem upper_case_accepted :
    ¬∀ str result, (∀ c ∈ str, c ≠ 0) →
      ((hammerStrToTid str result).1 = 0 ↔ (∃ tid id, Denotes str tid id) ∧ str.tail.head? ≠ some 0x58) := by
  intro claim
  have text : TidText (0x30 :: 0x58 :: List.replicate 16 0x30) _ := .hex (.inr rfl) rfl (by decide)
  have done := hammerStrToTid_plain text ⟨false, 0, 0⟩
  have strict := (claim (0x30 :: 0x58 :: List.replicate 16 0x30) ⟨false, 0, 0⟩ (by decide)).mp (by rw [done])
  exact strict.2 rfl

end Dragonfly.Hammer.Snapshot
