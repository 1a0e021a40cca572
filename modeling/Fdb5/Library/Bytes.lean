import Mathlib.Algebra.Group.Nat.Defs
import Mathlib.Data.Nat.Basic
import Mathlib.Data.Vector.Defs
import Fdb5.Library.Effect

/-! Values of fixed width in a stream of bytes. -/
namespace Bytes

open Effect

/-- The low `width` bytes of a number, the least significant first. -/
def le : (width n : Nat) → List UInt8
  | 0, _ => []
  | width + 1, n => UInt8.ofNat n :: le width (n / 256)

/-- The number that bytes stand for, the least significant first. -/
def ofLe : List UInt8 → Nat
  | [] => 0
  | b :: bytes => b.toNat + 256 * ofLe bytes

variable {width n : Nat}

@[simp] theorem length_le : (le width n).length = width := by
  induction width generalizing n with
  | zero => rfl
  | succ width ih => simp [le, ih]

theorem ofLe_le : ofLe (le width n) = n % 256 ^ width := by
  induction width generalizing n with
  | zero => simp [le, ofLe, Nat.mod_one]
  | succ width ih =>
    have hbyte : (UInt8.ofNat n).toNat = n % 256 := by simp
    rw [le, ofLe, ih, hbyte, Nat.pow_succ, Nat.mul_comm (256 ^ width), Nat.mod_mul]

theorem ofLe_le_of_lt (h : n < 256 ^ width) : ofLe (le width n) = n := by
  rw [ofLe_le, Nat.mod_eq_of_lt h]

/-- How a type is laid out in a fixed number of bytes. -/
structure Layout (α : Type) where
  width : Nat
  encode : α → List UInt8
  decode : List UInt8 → α
  length_encode : ∀ a, (encode a).length = width
  decode_encode : ∀ a rest, decode (encode a ++ rest) = a

namespace Layout

variable {α β : Type}

attribute [simp] length_encode decode_encode

@[simp] theorem decode_encode_self (l : Layout α) (a : α) : l.decode (l.encode a) = a := by
  have h := l.decode_encode a []
  rwa [List.append_nil] at h

/-- Unsigned integers of a width, as numbers. -/
def unsigned (width : Nat) (ofNat : Nat → α) (toNat : α → Nat) (hlt : ∀ a, toNat a < 256 ^ width)
    (hinv : ∀ a, ofNat (toNat a) = a) : Layout α where
  width
  encode a := le width (toNat a)
  decode bytes := ofNat (ofLe (bytes.take width))
  length_encode a := length_le
  decode_encode a rest := by
    have htake : (le width (toNat a) ++ rest).take width = le width (toNat a) := List.take_left' length_le
    rw [htake, ofLe_le_of_lt (hlt a), hinv]

def uint8 : Layout UInt8 := unsigned 1 UInt8.ofNat UInt8.toNat UInt8.toNat_lt fun _ => UInt8.ofNat_toNat

def uint16 : Layout UInt16 := unsigned 2 UInt16.ofNat UInt16.toNat UInt16.toNat_lt fun _ => UInt16.ofNat_toNat

def uint32 : Layout UInt32 := unsigned 4 UInt32.ofNat UInt32.toNat UInt32.toNat_lt fun _ => UInt32.ofNat_toNat

def uint64 : Layout UInt64 := unsigned 8 UInt64.ofNat UInt64.toNat UInt64.toNat_lt fun _ => UInt64.ofNat_toNat

/-- An array of bytes; where too few are there, zeros stand for the rest. -/
def array (n : Nat) : Layout (Vector UInt8 n) where
  width := n
  encode v := v.toList
  decode bytes := Vector.ofFn fun i => bytes.getD i 0
  length_encode v := by simp
  decode_encode v rest := by
    apply Vector.ext
    intro i hi
    have hlt : i < v.toList.length := by simpa using hi
    simp [List.getElem?_append_left hlt, hi]

/-- Two values after each other. -/
def pair (l : Layout α) (l' : Layout β) : Layout (α × β) where
  width := l.width + l'.width
  encode a := l.encode a.1 ++ l'.encode a.2
  decode bytes := (l.decode bytes, l'.decode (bytes.drop l.width))
  length_encode a := by simp
  decode_encode a rest := by
    have hdrop : (l.encode a.1 ++ (l'.encode a.2 ++ rest)).drop l.width = l'.encode a.2 ++ rest :=
      List.drop_left' (l.length_encode _)
    rw [List.append_assoc, hdrop, decode_encode, decode_encode]

/-- The same bytes for another type with the same values. -/
def map (l : Layout α) (into : α → β) (out : β → α) (h : ∀ b, into (out b) = b) : Layout β where
  width := l.width
  encode b := l.encode (out b)
  decode bytes := into (l.decode bytes)
  length_encode b := l.length_encode _
  decode_encode b rest := by rw [decode_encode, h]

end Layout

section Read

variable {ε α : Type} {e : ε} {bytes rest : List UInt8} {E : ε → List UInt8 → Prop}

/-- The next bytes of a stream; fewer than asked for are an error. -/
def read (n : Nat) (e : ε) : EStateM ε (List UInt8) (List UInt8) := fun s =>
  if n ≤ s.length then .ok (s.take n) (s.drop n) else .error e []

theorem ends_read {Q : List UInt8 → List UInt8 → Prop} {s : List UInt8} : Ends (read n e) s Q E ↔
    (n ≤ s.length → Q (s.take n) (s.drop n)) ∧ (s.length < n → E e []) := by
  unfold Ends read EStateM.run
  by_cases h : n ≤ s.length
  · simp [h, Nat.not_lt.mpr h]
  · simp [h, Nat.not_le.mp h]

theorem ends_read_append {Q : List UInt8 → List UInt8 → Prop} (h : bytes.length = n) :
    Ends (read n e) (bytes ++ rest) Q E ↔ Q bytes rest := by
  rw [ends_read, List.take_left' h, List.drop_left' h, List.length_append]
  constructor
  · intro hr
    exact hr.1 (by omega)
  · intro hq
    exact ⟨fun _ => hq, fun hlt => by omega⟩

/-- The next value of a stream. -/
def readValue (l : Layout α) (e : ε) : EStateM ε (List UInt8) α := l.decode <$> read l.width e

theorem ends_readValue_append {l : Layout α} {a : α} {Q : α → List UInt8 → Prop} :
    Ends (readValue l e) (l.encode a ++ rest) Q E ↔ Q a rest := by
  rw [readValue, ends_map, ends_read_append (l.length_encode a), Layout.decode_encode_self]

end Read

end Bytes
