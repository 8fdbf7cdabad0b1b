import Mathlib.Data.List.Basic
import Mathlib.Data.Nat.Basic
import Mathlib.Tactic.Ring

/-!
# Byte-addressed memory

Memory is a function from addresses to bytes.  `peek` reads a little-endian
field, `blit` copies a string of bytes in, `slice` copies one out.  A read sees a
write at the same place and is not affected by a write elsewhere.
-/

namespace Dragonfly.Lib

/-- Byte-addressed memory. -/
abbrev Mem := Nat → UInt8

/-- The `width` little-endian bytes of `value`; higher bytes are dropped. -/
def leBytes : Nat → Nat → List UInt8
  | 0, _ => []
  | width + 1, value => UInt8.ofNat (value % 256) :: leBytes width (value / 256)

@[simp]
theorem length_leBytes (width value : Nat) : (leBytes width value).length = width := by
  induction width generalizing value with
  | zero => rfl
  | succ width ih => simp [leBytes, ih]

namespace Mem

/-- The little-endian field of `width` bytes at `address`. -/
def peek (mem : Mem) : Nat → Nat → Nat
  | _, 0 => 0
  | address, width + 1 => (mem address).toNat + 256 * peek mem (address + 1) width

/-- Copy `data` to `address`. -/
def blit (mem : Mem) (address : Nat) (data : List UInt8) : Mem := fun place =>
  if address ≤ place ∧ place < address + data.length then data.getD (place - address) 0
  else mem place

/-- Store a little-endian field. -/
def poke (mem : Mem) (address width value : Nat) : Mem := mem.blit address (leBytes width value)

/-- Copy `length` bytes out. -/
def slice (mem : Mem) (address : Nat) : Nat → List UInt8
  | 0 => []
  | length + 1 => mem address :: slice mem (address + 1) length

/-- The two memories agree on `lo, …, hi - 1`. -/
def AgreeOn (first second : Mem) (lo hi : Nat) : Prop :=
  ∀ address, lo ≤ address → address < hi → first address = second address

variable {mem other : Mem} {address width : Nat}

theorem AgreeOn.trans {third : Mem} {lo hi : Nat} (first : AgreeOn mem other lo hi)
    (second : AgreeOn other third lo hi) : AgreeOn mem third lo hi :=
  fun address lower upper => (first address lower upper).trans (second address lower upper)

theorem AgreeOn.mono {lo hi lo' hi' : Nat} (agree : AgreeOn mem other lo hi) (lower : lo ≤ lo')
    (upper : hi' ≤ hi) : AgreeOn mem other lo' hi' :=
  fun address above below => agree address (by omega) (by omega)

/-! ## Reads depend on the bytes read -/

theorem peek_congr (agree : AgreeOn mem other address (address + width)) :
    mem.peek address width = other.peek address width := by
  induction width generalizing address with
  | zero => rfl
  | succ width ih =>
      simp only [peek]
      rw [agree address (by omega) (by omega), ih (agree.mono (by omega) (by omega))]

theorem slice_congr (agree : AgreeOn mem other address (address + width)) :
    mem.slice address width = other.slice address width := by
  induction width generalizing address with
  | zero => rfl
  | succ width ih =>
      simp only [slice]
      rw [agree address (by omega) (by omega), ih (agree.mono (by omega) (by omega))]

@[simp]
theorem length_slice (mem : Mem) (address length : Nat) :
    (mem.slice address length).length = length := by
  induction length generalizing address with
  | zero => rfl
  | succ length ih => simp [slice, ih]

theorem take_slice (mem : Mem) (address : Nat) {count length : Nat} (bound : count ≤ length) :
    (mem.slice address length).take count = mem.slice address count := by
  induction count generalizing address length with
  | zero => rfl
  | succ count ih =>
      cases length with
      | zero => omega
      | succ length =>
          simp only [slice, List.take_succ_cons]
          rw [ih (address + 1) (by omega)]

/-! ## Writes -/

theorem blit_outside {data : List UInt8} {place : Nat}
    (outside : place < address ∨ address + data.length ≤ place) :
    mem.blit address data place = mem place := by
  unfold blit
  rw [if_neg (by omega)]

theorem blit_inside {data : List UInt8} {index : Nat} (inside : index < data.length) :
    mem.blit address data (address + index) = data.getD index 0 := by
  unfold blit
  rw [if_pos (by omega), Nat.add_sub_cancel_left]

/-- A write leaves everything else alone. -/
theorem blit_agree {data : List UInt8} {lo hi : Nat}
    (apart : hi ≤ address ∨ address + data.length ≤ lo) :
    AgreeOn (mem.blit address data) mem lo hi := by
  intro place lower upper
  exact blit_outside (by omega)

theorem poke_agree {value lo hi : Nat} (apart : hi ≤ address ∨ address + width ≤ lo) :
    AgreeOn (mem.poke address width value) mem lo hi :=
  blit_agree (by simpa using apart)

theorem peek_blit_of_apart {place : Nat} {data : List UInt8}
    (apart : address + width ≤ place ∨ place + data.length ≤ address) :
    (mem.blit place data).peek address width = mem.peek address width :=
  peek_congr (blit_agree apart)

theorem peek_poke_of_apart {place size value : Nat}
    (apart : address + width ≤ place ∨ place + size ≤ address) :
    (mem.poke place size value).peek address width = mem.peek address width :=
  peek_congr (poke_agree apart)

/-- A field read back where it was stored. -/
theorem peek_poke_same (mem : Mem) (address width value : Nat) :
    (mem.poke address width value).peek address width = value % 256 ^ width := by
  induction width generalizing mem address value with
  | zero => simp [peek, Nat.mod_one]
  | succ width ih =>
      have here : (mem.poke address (width + 1) value) address = UInt8.ofNat (value % 256) := by
        simp [poke, blit, leBytes]
      have rest : AgreeOn (mem.poke address (width + 1) value)
          (mem.poke (address + 1) width (value / 256)) (address + 1) (address + 1 + width) := by
        intro place lower upper
        obtain ⟨index, rfl⟩ : ∃ index, place = address + 1 + index := ⟨place - (address + 1), by omega⟩
        have left : (mem.poke address (width + 1) value) (address + 1 + index) =
            (leBytes (width + 1) value).getD (index + 1) 0 := by
          rw [Nat.add_right_comm, poke, Nat.add_assoc]
          exact blit_inside (by simp; omega)
        have right : (mem.poke (address + 1) width (value / 256)) (address + 1 + index) =
            (leBytes width (value / 256)).getD index 0 := blit_inside (by simp; omega)
        rw [left, right]
        rfl
      simp only [peek]
      rw [here, peek_congr rest, ih, pow_succ', Nat.mod_mul]
      simp

theorem slice_blit_same (mem : Mem) (address : Nat) (data : List UInt8) :
    (mem.blit address data).slice address data.length = data := by
  induction data generalizing mem address with
  | nil => rfl
  | cons byte data ih =>
      have here : mem.blit address (byte :: data) address = byte := by simp [blit]
      have rest : AgreeOn (mem.blit address (byte :: data)) (mem.blit (address + 1) data)
          (address + 1) (address + 1 + data.length) := by
        intro place lower upper
        obtain ⟨index, rfl⟩ : ∃ index, place = address + 1 + index := ⟨place - (address + 1), by omega⟩
        have left : (mem.blit address (byte :: data)) (address + 1 + index) =
            (byte :: data).getD (index + 1) 0 := by
          rw [Nat.add_right_comm, Nat.add_assoc]
          exact blit_inside (by simp; omega)
        have right : (mem.blit (address + 1) data) (address + 1 + index) = data.getD index 0 :=
          blit_inside (by omega)
        rw [left, right]
        rfl
      simp only [List.length_cons, slice]
      rw [here, slice_congr rest, ih]

end Mem

end Dragonfly.Lib
