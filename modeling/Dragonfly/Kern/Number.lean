import Mathlib.Algebra.Order.Ring.Int
import Mathlib.Data.Nat.Basic
import Mathlib.Data.List.TakeWhile
import Mathlib.Tactic.SplitIfs

/-!
# Numbers in strings

The conversions of the kernel library from a string to an unsigned number of 64 bits.  A
string is the list of its bytes without the one that ends it, and a pointer into the string is
what is left of it from there.
-/

namespace Dragonfly.Kern.Number

/-- `isspace` -/
def isspace (c : UInt8) : Bool := c == 0x20 || (0x09 ≤ c && c ≤ 0x0d)

/-- `isascii` -/
def isascii (c : UInt8) : Bool := c < 0x80

/-- `isupper` -/
def isupper (c : UInt8) : Bool := 0x41 ≤ c && c ≤ 0x5a

/-- `islower` -/
def islower (c : UInt8) : Bool := 0x61 ≤ c && c ≤ 0x7a

/-- `isalpha` -/
def isalpha (c : UInt8) : Bool := isupper c || islower c

/-- `isdigit` -/
def isdigit (c : UInt8) : Bool := 0x30 ≤ c && c ≤ 0x39

/-- The value of a character as a digit, if it is one in some base. -/
def digit (c : UInt8) : Option Nat :=
  if isascii c = false then none
  else if isdigit c then some (c.toNat - 0x30)
  else if isalpha c then some (c.toNat - (if isupper c then 0x41 - 10 else 0x61 - 10))
  else none

/-- `UQUAD_MAX` and `ULONG_MAX` -/
def ulongMax : Nat := 2 ^ 64 - 1

/-- The loop over the digits, with what is left where it breaks.  It goes on after an overflow,
with `any` negative. -/
def digitLoop (base : Nat) : List UInt8 → Nat → Int → Nat × Int × List UInt8
  | [], acc, any => (acc, any, [])
  | c :: s, acc, any =>
      match digit c with
      | none => (acc, any, c :: s)
      | some value =>
          if base ≤ value then (acc, any, c :: s)
          else if any < 0 ∨ ulongMax / base < acc ∨ acc = ulongMax / base ∧ ulongMax % base < value then
            digitLoop base s acc (-1)
          else digitLoop base s ((acc * base + value) % 2 ^ 64) 1

/-- The string goes on with the prefix of a number in base 16. -/
def hexNext (s : List UInt8) : Bool :=
  s.head? == some 0x30 && (s.tail.head? == some 0x78 || s.tail.head? == some 0x58)

/-- `strtouq`: the number, and the end of what has been converted. -/
def strtouq (nptr : List UInt8) (base : Nat) : Nat × List UInt8 :=
  let s := nptr.dropWhile isspace
  let neg := s.head? == some 0x2d
  let s := if s.head? == some 0x2d || s.head? == some 0x2b then s.tail else s
  let hex := (base == 0 || base == 16) && hexNext s
  let base := if hex then 16 else if base = 0 then (if s.head? == some 0x30 then 8 else 10) else base
  let s := if hex then s.drop 2 else s
  let (acc, any, rest) := digitLoop base s 0 0
  (if any < 0 then ulongMax else if neg then (2 ^ 64 - acc) % 2 ^ 64 else acc, if any = 0 then nptr else rest)

/-- `strtoul`, which is the same code. -/
def strtoul (nptr : List UInt8) (base : Nat) : Nat × List UInt8 := strtouq nptr base

/-- The character is a digit of the base. -/
def isDigitOf (base : Nat) (c : UInt8) : Bool := (digit c).any (· < base)

/-- The number that digits denote, behind the digits of another number. -/
def number (base : Nat) (acc : Nat) (digits : List UInt8) : Nat :=
  digits.foldl (fun acc c => acc * base + (digit c).getD 0) acc

variable {base acc : Nat} {any : Int} {c : UInt8} {s digits rest : List UInt8}

theorem isDigitOf_iff : isDigitOf base c = true ↔ ∃ value, digit c = some value ∧ value < base := by
  rw [isDigitOf]
  cases digit c with
  | none => simp
  | some value => simp

theorem le_number (positive : 0 < base) (acc : Nat) (digits : List UInt8) : acc ≤ number base acc digits := by
  induction digits generalizing acc with
  | nil => exact le_rfl
  | cons c digits ih =>
      have step := ih (acc * base + (digit c).getD 0)
      have grows : acc ≤ acc * base := Nat.le_mul_of_pos_right acc positive
      rw [number, List.foldl_cons]
      rw [number] at step
      omega

/-- The number is bounded by its digits. -/
theorem number_lt (all : ∀ c ∈ digits, isDigitOf base c = true) :
    number base acc digits < (acc + 1) * base ^ digits.length := by
  induction digits generalizing acc with
  | nil =>
      rw [number, List.foldl_nil, List.length_nil, Nat.pow_zero, Nat.mul_one]
      exact Nat.lt_succ_self acc
  | cons c digits ih =>
      obtain ⟨value, is, small⟩ := (isDigitOf_iff).mp (all c List.mem_cons_self)
      have step := @ih (acc * base + value) fun c member => all c (List.mem_cons_of_mem _ member)
      have room : acc * base + value + 1 ≤ (acc + 1) * base := by
        rw [Nat.add_mul, Nat.one_mul]
        omega
      have scaled := Nat.mul_le_mul_right (base ^ digits.length) room
      rw [number, List.foldl_cons, is, Option.getD_some, List.length_cons, Nat.pow_succ', ← Nat.mul_assoc]
      rw [number] at step
      exact step.trans_le scaled

/-- The loop breaks behind the digits. -/
theorem digitLoop_rest (base : Nat) (s : List UInt8) (acc : Nat) (any : Int) :
    (digitLoop base s acc any).2.2 = s.dropWhile (isDigitOf base) := by
  induction s generalizing acc any with
  | nil => rfl
  | cons c s ih =>
      rw [digitLoop]
      cases is : digit c with
      | none =>
          have other : ¬isDigitOf base c = true := by simp [isDigitOf, is]
          rw [List.dropWhile_cons_of_neg other]
      | some value =>
          by_cases large : base ≤ value
          · have other : ¬isDigitOf base c = true := by simp [isDigitOf, is, large]
            rw [List.dropWhile_cons_of_neg other]
            simp only [if_pos large]
          · have here : isDigitOf base c = true := by simpa [isDigitOf, is] using large
            rw [List.dropWhile_cons_of_pos here]
            simp only [if_neg large]
            split
            · exact ih _ _
            · exact ih _ _

/-- Something has been converted if there is a digit. -/
theorem digitLoop_any (base : Nat) (s : List UInt8) (acc : Nat) (any : Int) :
    (digitLoop base s acc any).2.1 = 0 ↔ any = 0 ∧ s.takeWhile (isDigitOf base) = [] := by
  have later : ∀ (s : List UInt8) (acc : Nat) (any : Int), any ≠ 0 → (digitLoop base s acc any).2.1 ≠ 0 := by
    intro s
    induction s with
    | nil => exact fun _ _ nonzero => nonzero
    | cons c s ih =>
        intro acc any nonzero
        rw [digitLoop]
        split
        · exact nonzero
        split
        · exact nonzero
        split
        · exact ih _ _ (by decide)
        · exact ih _ _ (by decide)
  cases s with
  | nil => simp [digitLoop]
  | cons c s =>
      rw [digitLoop]
      cases is : digit c with
      | none => simp [isDigitOf, is]
      | some value =>
          by_cases large : base ≤ value
          · simp [isDigitOf, is, large]
          · have here : isDigitOf base c = true := by simpa [isDigitOf, is] using large
            rw [List.takeWhile_cons_of_pos here]
            simp only [if_neg large, List.cons_ne_nil, and_false, iff_false]
            split
            · exact later _ _ _ (by decide)
            · exact later _ _ _ (by decide)

/-- Without an overflow the loop computes the number. -/
theorem digitLoop_number (positive : 0 < base) (sound : 0 ≤ any)
    (small : number base acc (s.takeWhile (isDigitOf base)) < 2 ^ 64) :
    (digitLoop base s acc any).1 = number base acc (s.takeWhile (isDigitOf base)) ∧
      0 ≤ (digitLoop base s acc any).2.1 := by
  induction s generalizing acc any with
  | nil => exact ⟨rfl, sound⟩
  | cons c s ih =>
      rw [digitLoop]
      cases is : digit c with
      | none =>
          have other : ¬isDigitOf base c = true := by simp [isDigitOf, is]
          rw [List.takeWhile_cons_of_neg other]
          exact ⟨rfl, sound⟩
      | some value =>
          by_cases large : base ≤ value
          · have other : ¬isDigitOf base c = true := by simp [isDigitOf, is, large]
            rw [List.takeWhile_cons_of_neg other]
            simp only [if_pos large]
            exact ⟨rfl, sound⟩
          · have here : isDigitOf base c = true := by simpa [isDigitOf, is] using large
            rw [List.takeWhile_cons_of_pos here] at small ⊢
            rw [number, List.foldl_cons, is, Option.getD_some, ← number] at small ⊢
            have bound := (le_number positive _ _).trans_lt small
            have fits : ¬(any < 0 ∨ ulongMax / base < acc ∨ acc = ulongMax / base ∧ ulongMax % base < value) := by
              have whole := Nat.div_add_mod ulongMax base
              have max : ulongMax = 2 ^ 64 - 1 := rfl
              rintro (negative | above | ⟨same, behind⟩)
              · omega
              · have scaled := Nat.mul_le_mul_left base (Nat.succ_le_of_lt above)
                have rest := Nat.mod_lt ulongMax positive
                rw [Nat.mul_succ, Nat.mul_comm base acc] at scaled
                omega
              · rw [← same, Nat.mul_comm base acc] at whole
                omega
            simp only [if_neg large, if_neg fits, Nat.mod_eq_of_lt bound]
            exact ih (by decide) small

/-! ## The digits of two bases -/

/-- `isxdigit` -/
def isxdigit (c : UInt8) : Bool := isdigit c || (0x41 ≤ c && c ≤ 0x46) || (0x61 ≤ c && c ≤ 0x66)

theorem isDigitOf_ten : isDigitOf 10 c = isdigit c := by
  rw [Bool.eq_iff_iff]
  simp only [isDigitOf, digit, isascii, isdigit, isalpha, isupper, islower, Bool.and_eq_true, Bool.or_eq_true,
    decide_eq_true_eq, decide_eq_false_iff_not, UInt8.le_iff_toNat_le, UInt8.lt_iff_toNat_lt, UInt8.reduceToNat]
  split_ifs
  all_goals simp only [Option.any_some, Option.any_none, decide_eq_true_eq, Bool.false_eq_true, false_iff]
  all_goals omega

theorem isDigitOf_sixteen : isDigitOf 16 c = isxdigit c := by
  rw [Bool.eq_iff_iff]
  simp only [isDigitOf, digit, isxdigit, isascii, isdigit, isalpha, isupper, islower, Bool.and_eq_true,
    Bool.or_eq_true, decide_eq_true_eq, decide_eq_false_iff_not, UInt8.le_iff_toNat_le, UInt8.lt_iff_toNat_lt,
    UInt8.reduceToNat]
  split_ifs
  all_goals simp only [Option.any_some, Option.any_none, decide_eq_true_eq, Bool.false_eq_true, false_iff]
  all_goals omega

/-! ## Conversions -/

/-- What is left behind blanks and a sign. -/
def unsigned (nptr : List UInt8) : List UInt8 :=
  let s := nptr.dropWhile isspace
  if s.head? == some 0x2d || s.head? == some 0x2b then s.tail else s

/-- Blanks, a sign and digits, with at least one digit. -/
def Lenient (text : List UInt8) : Prop :=
  ∃ blanks sign digits : List UInt8, text = blanks ++ sign ++ digits ∧ (∀ c ∈ blanks, isspace c = true) ∧
    (sign = [] ∨ sign = [0x2d] ∨ sign = [0x2b]) ∧ digits ≠ [] ∧ ∀ c ∈ digits, isdigit c = true

theorem strtoul_ten_end (nptr : List UInt8) :
    (strtoul nptr 10).2 =
      if (unsigned nptr).takeWhile isdigit = [] then nptr else (unsigned nptr).dropWhile isdigit := by
  have ten : isDigitOf 10 = isdigit := funext fun _ => isDigitOf_ten
  have converted := digitLoop_any 10 (unsigned nptr) 0 0
  have left := digitLoop_rest 10 (unsigned nptr) 0 0
  rw [ten] at converted left
  rw [← left]
  simp only [true_and] at converted
  simp only [← converted]
  rfl

theorem strtoul_ten_suffix (nptr : List UInt8) : (strtoul nptr 10).2 <:+ nptr := by
  have body : unsigned nptr <:+ nptr := by
    rw [unsigned]
    split
    · exact (List.tail_suffix _).trans (List.dropWhile_suffix _)
    · exact List.dropWhile_suffix _
  rw [strtoul_ten_end]
  split
  · exact List.suffix_rfl
  · exact (List.dropWhile_suffix _).trans body

/-- A digit is neither a blank nor a sign. -/
theorem not_isspace_of_isdigit (here : isdigit c = true) : isspace c = false ∧ c ≠ 0x2d ∧ c ≠ 0x2b := by
  simp only [isdigit, isspace, Bool.and_eq_true, decide_eq_true_eq, UInt8.le_iff_toNat_le, UInt8.reduceToNat,
    Bool.or_eq_false_iff, Bool.and_eq_false_iff, beq_eq_false_iff_ne, decide_eq_false_iff_not, ne_eq,
    ← UInt8.toNat_inj] at *
  omega

theorem unsigned_of_isdigit (here : isdigit c = true) : unsigned (c :: s) = c :: s := by
  obtain ⟨plain, minus, plus⟩ := not_isspace_of_isdigit here
  have start : (c :: s).dropWhile isspace = c :: s := List.dropWhile_cons_of_neg (by rw [plain]; decide)
  simp [unsigned, start, minus, plus]

/-- A number in base ten without blanks and a sign. -/
theorem strtoul_ten_value (nonempty : s ≠ []) (all : ∀ c ∈ s, isdigit c = true) (small : number 10 0 s < 2 ^ 64) :
    (strtoul s 10).1 = number 10 0 s := by
  have ten : isDigitOf 10 = isdigit := funext fun _ => isDigitOf_ten
  have whole : s.takeWhile (isDigitOf 10) = s := by
    rw [ten, List.takeWhile_eq_self_iff]
    exact all
  have fits : number 10 0 (s.takeWhile (isDigitOf 10)) < 2 ^ 64 := whole.symm ▸ small
  obtain ⟨value, sound⟩ := @digitLoop_number 10 0 0 s (by decide) (by decide) fits
  rw [whole] at value
  cases s with
  | nil => exact absurd rfl nonempty
  | cons c s =>
      have here := all c List.mem_cons_self
      obtain ⟨plain, minus, plus⟩ := not_isspace_of_isdigit here
      have start : (c :: s).dropWhile isspace = c :: s := List.dropWhile_cons_of_neg (by rw [plain]; decide)
      have body : (strtoul (c :: s) 10).1 =
          if (digitLoop 10 (unsigned (c :: s)) 0 0).2.1 < 0 then ulongMax
          else if ((c :: s).dropWhile isspace).head? == some 0x2d then
            (2 ^ 64 - (digitLoop 10 (unsigned (c :: s)) 0 0).1) % 2 ^ 64
          else (digitLoop 10 (unsigned (c :: s)) 0 0).1 := rfl
      rw [body, unsigned_of_isdigit here, if_neg (by omega), start, value, if_neg (by simpa using minus)]

/-- All of a string is converted in base ten exactly if it consists of blanks, a sign and
digits. -/
theorem strtoul_ten_all (nonempty : s ≠ []) : (strtoul s 10).2 = [] ↔ Lenient s := by
  rw [strtoul_ten_end]
  constructor
  · intro done
    split at done
    · exact absurd done nonempty
    · rename_i digits
      have all := List.dropWhile_eq_nil_iff.mp done
      refine ⟨s.takeWhile isspace, ?_⟩
      have split := (List.takeWhile_append_dropWhile (p := isspace) (l := s)).symm
      have blanks : ∀ c ∈ s.takeWhile isspace, isspace c = true := fun c member => List.mem_takeWhile_imp member
      have some : unsigned s ≠ [] := fun none => digits (by rw [none]; rfl)
      cases start : s.dropWhile isspace with
      | nil => exact absurd (by simp [unsigned, start]) some
      | cons c rest =>
          rw [start] at split
          by_cases sign : c = 0x2d ∨ c = 0x2b
          · have body : unsigned s = rest := by
              rcases sign with rfl | rfl
              · simp [unsigned, start]
              · simp [unsigned, start]
            rw [body] at all some
            exact ⟨[c], rest, by simpa using split, blanks, by simpa using sign, some, all⟩
          · have body : unsigned s = c :: rest := by
              simp only [not_or] at sign
              simp [unsigned, start, sign.1, sign.2]
            rw [body] at all some
            exact ⟨[], c :: rest, by simpa using split, blanks, .inl rfl, some, all⟩
  · rintro ⟨blanks, sign, digits, rfl, blank, signed, some, all⟩
    obtain ⟨c, rest, rfl⟩ := List.exists_cons_of_ne_nil some
    obtain ⟨plain, minus, plus⟩ := not_isspace_of_isdigit (all c List.mem_cons_self)
    have body : unsigned (blanks ++ sign ++ c :: rest) = c :: rest := by
      rw [unsigned, List.append_assoc, List.dropWhile_append_of_pos blank]
      rcases signed with rfl | rfl | rfl
      · rw [List.nil_append, List.dropWhile_cons_of_neg (by rw [plain]; decide)]
        simp [minus, plus]
      · rfl
      · rfl
    rw [body, List.takeWhile_eq_self_iff.mpr all, if_neg (List.cons_ne_nil c rest), List.dropWhile_eq_nil_iff]
    exact all

/-- The number minus one. -/
theorem strtouq_minus_one (rest : List UInt8) :
    (strtouq (0x2d :: 0x31 :: rest) 0).2 = rest.dropWhile isdigit ∧
      (rest.takeWhile isdigit = [] → (strtouq (0x2d :: 0x31 :: rest) 0).1 = 2 ^ 64 - 1) := by
  have ten : isDigitOf 10 = isdigit := funext fun _ => isDigitOf_ten
  have left := digitLoop_rest 10 (0x31 :: rest) 0 0
  have converted := digitLoop_any 10 (0x31 :: rest) 0 0
  rw [ten, List.dropWhile_cons_of_pos (by decide)] at left
  rw [ten, List.takeWhile_cons_of_pos (by decide)] at converted
  have nonzero : (digitLoop 10 (0x31 :: rest) 0 0).2.1 ≠ 0 := fun zero => by simpa using converted.mp zero
  have whole : strtouq (0x2d :: 0x31 :: rest) 0 =
      (if (digitLoop 10 (0x31 :: rest) 0 0).2.1 < 0 then ulongMax
        else (2 ^ 64 - (digitLoop 10 (0x31 :: rest) 0 0).1) % 2 ^ 64,
        if (digitLoop 10 (0x31 :: rest) 0 0).2.1 = 0 then 0x2d :: 0x31 :: rest
        else (digitLoop 10 (0x31 :: rest) 0 0).2.2) := rfl
  rw [whole]
  constructor
  · simp only [if_neg nonzero, left]
  · intro single
    have fits : number 10 0 ((0x31 :: rest).takeWhile (isDigitOf 10)) < 2 ^ 64 := by
      rw [ten, List.takeWhile_cons_of_pos (by decide), single]
      decide
    obtain ⟨value, sound⟩ := @digitLoop_number 10 0 0 (0x31 :: rest) (by decide) (by decide) fits
    rw [ten, List.takeWhile_cons_of_pos (by decide), single] at value
    have one : number 10 0 [0x31] = 1 := by decide
    have wraps : (2 ^ 64 - 1) % 2 ^ 64 = 2 ^ 64 - 1 := Nat.mod_eq_of_lt (Nat.sub_lt (Nat.two_pow_pos 64) Nat.one_pos)
    simp only [if_neg (Int.not_lt.mpr sound), value, one, wraps]

/-- A number in base sixteen. -/
theorem strtouq_hex {x : UInt8} (is : x = 0x78 ∨ x = 0x58) (rest : List UInt8) :
    (strtouq (0x30 :: x :: rest) 0).2 =
        (if rest.takeWhile isxdigit = [] then 0x30 :: x :: rest else rest.dropWhile isxdigit) ∧
      (number 16 0 (rest.takeWhile isxdigit) < 2 ^ 64 →
        (strtouq (0x30 :: x :: rest) 0).1 = number 16 0 (rest.takeWhile isxdigit)) := by
  have sixteen : isDigitOf 16 = isxdigit := funext fun _ => isDigitOf_sixteen
  have left := digitLoop_rest 16 rest 0 0
  have converted := digitLoop_any 16 rest 0 0
  rw [sixteen] at left converted
  simp only [true_and] at converted
  have whole : strtouq (0x30 :: x :: rest) 0 =
      (if (digitLoop 16 rest 0 0).2.1 < 0 then ulongMax else (digitLoop 16 rest 0 0).1,
        if (digitLoop 16 rest 0 0).2.1 = 0 then 0x30 :: x :: rest else (digitLoop 16 rest 0 0).2.2) := by
    rcases is with rfl | rfl
    · rfl
    · rfl
  rw [whole]
  constructor
  · simp only [converted, left]
  · intro small
    rw [← sixteen] at small
    obtain ⟨value, sound⟩ := @digitLoop_number 16 0 0 rest (by decide) (by decide) small
    rw [sixteen] at value
    simp only [if_neg (Int.not_lt.mpr sound), value]

end Dragonfly.Kern.Number
