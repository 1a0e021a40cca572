import Mathlib.Data.List.Basic

/-! Buffered streams that append to a file, and the ranges of what is written through them. -/
namespace AppendStream

/-- An open stream: the bytes that wait in its buffer, and whether a write has failed that had taken some. -/
structure FileStream where
  buffered : List UInt8 := []
  short : Bool := false
deriving DecidableEq

/-- The bytes of a file, with those that wait. -/
def contents (disk : Option (List UInt8)) (file : Option FileStream) : List UInt8 :=
  disk.getD [] ++ (file.map FileStream.buffered).getD []

/-- The stream writes bytes from the front of its buffer. -/
def drain (n : Nat) (disk : Option (List UInt8)) (s : FileStream) : Option (List UInt8) × FileStream :=
  (some (disk.getD [] ++ s.buffered.take n), { s with buffered := s.buffered.drop n })

/-- `fwrite`, which takes so many of the bytes, and writes so many of those that wait. -/
def fwrite (taken drained : Nat) (data : List UInt8) (disk : Option (List UInt8)) (s : FileStream) : Option (List UInt8) × FileStream :=
  drain drained disk { buffered := s.buffered ++ data.take taken, short := s.short || (0 < taken && taken < data.length) }

/-- `ftello`. -/
def ftello (disk : Option (List UInt8)) (s : FileStream) : Nat := (disk.getD []).length + s.buffered.length

/-- The bytes stand there. -/
def ReadsAt (bytes : List UInt8) (offset : Nat) (data : List UInt8) : Prop :=
  offset + data.length ≤ bytes.length ∧ (bytes.drop offset).take data.length = data

instance (bytes : List UInt8) (offset : Nat) (data : List UInt8) : Decidable (ReadsAt bytes offset data) :=
  inferInstanceAs (Decidable (_ ∧ _))

variable {disk : Option (List UInt8)} {s : FileStream} {bytes more data : List UInt8} {n taken drained offset : Nat}

@[simp] theorem contents_none : contents disk none = disk.getD [] := by simp [contents]

@[simp] theorem contents_opened : contents (some (disk.getD [])) (some {}) = disk.getD [] := by simp [contents]

@[simp] theorem contents_drain : contents (drain n disk s).1 (some (drain n disk s).2) = contents disk (some s) := by
  simp [contents, drain]

@[simp] theorem contents_fwrite : contents (fwrite taken drained data disk s).1 (some (fwrite taken drained data disk s).2) =
    contents disk (some s) ++ data.take taken := by
  rw [fwrite, contents_drain]
  simp [contents]

/-- A buffer that is written whole leaves nothing behind. -/
theorem drain_all (h : s.buffered.length ≤ n) : (drain n disk s).1 = some (contents disk (some s)) ∧
    (drain n disk s).2.buffered = [] := by
  simp [drain, contents, List.take_of_length_le h, h]

theorem disk_drain : disk.getD [] <+: ((drain n disk s).1).getD [] := by
  simp [drain]

theorem disk_fwrite : disk.getD [] <+: ((fwrite taken drained data disk s).1).getD [] := disk_drain

theorem ReadsAt.append (h : ReadsAt bytes offset data) : ReadsAt (bytes ++ more) offset data := by
  obtain ⟨hle, htake⟩ := h
  refine ⟨by simp; omega, ?_⟩
  rw [List.drop_append_of_le_length (by omega), List.take_append_of_le_length (by simp; omega)]
  exact htake

theorem ReadsAt.extend (h : ReadsAt bytes offset data) (hmore : bytes <+: more) : ReadsAt more offset data := by
  obtain ⟨rest, rfl⟩ := hmore
  exact h.append

/-- What is appended stands at the end. -/
theorem readsAt_end : ReadsAt (bytes ++ data) bytes.length data := by
  simp [ReadsAt]

end AppendStream
