import Fdb5.Library.StoredForm
import Fdb5.Toc.Segment

/-! What the two backends of an index give a visitor: the keys they were given, or others. -/
namespace Fdb5

open LastWins StoredForm

/-- A Parallax database, which is a map in the order of the bytes of its keys. -/
abbrev ParallaxDb := Std.ExtTreeMap (List UInt8) FieldRef

namespace ParallaxDb

/-- The `par_key` of a key: `strlen(key.c_str()) + 1` bytes of it. -/
def parKey (key : List UInt8) : List UInt8 := key.takeWhile (· ≠ 0) ++ [0]

/-- `LSMIndex::get(key, data)`. -/
def get (db : ParallaxDb) (key : List UInt8) : Option FieldRef := db[parKey key]?

/-- `LSMIndex::set(key, data)`. -/
def set (db : ParallaxDb) (key : List UInt8) (ref : FieldRef) : ParallaxDb := db.insert (parKey key) ref

/-- What `LSMIndex::visit(visitor)` passes to the visitor: the keys from a single zero on, with the
size that Parallax has for them. -/
def visit (db : ParallaxDb) : List (List UInt8 × FieldRef) := db.toList.filter fun e => [0] ≤ e.1

def setAll (sets : List (List UInt8 × FieldRef)) : ParallaxDb := sets.foldl (fun db e => set db e.1 e.2) ∅

def form : Form (List UInt8) (List UInt8) where
  store := parKey
  visits x := [0] ≤ x
  name x := x

variable {sets : List (List UInt8 × FieldRef)} {key : List UInt8}

theorem visit_form (db : ParallaxDb) : visit db = form.visit db := by
  simp [visit, Form.visit, form]

theorem takeWhile_zeros {n : Nat} (h : (0 : UInt8) ∉ key) :
    (key ++ List.replicate n 0).takeWhile (· ≠ 0) = key := by
  have hkey : ∀ b ∈ key, decide (b ≠ 0) = true := by
    intro b hb
    exact decide_eq_true fun he => h (he ▸ hb)
  rw [List.takeWhile_append_of_pos hkey]
  cases n <;> simp [List.replicate_succ]

theorem zero_notMem_takeWhile : (0 : UInt8) ∉ key.takeWhile (· ≠ 0) := by
  intro h
  have hne := List.all_eq_true.mp List.all_takeWhile 0 h
  simp at hne

theorem parKey_eq_self : parKey key = key ↔ ∃ init, key = init ++ [0] ∧ (0 : UInt8) ∉ init := by
  constructor
  · intro h
    exact ⟨_, h.symm, zero_notMem_takeWhile⟩
  · rintro ⟨init, rfl, hinit⟩
    rw [parKey]
    exact congrArg (· ++ [0]) (takeWhile_zeros (n := 1) hinit)

theorem parKey_parKey : parKey (parKey key) = parKey key := by
  rw [parKey_eq_self]
  exact ⟨_, rfl, zero_notMem_takeWhile⟩

theorem zero_le_parKey : [0] ≤ parKey key := by
  rw [parKey]
  cases key.takeWhile (· ≠ 0) with
  | nil => exact List.le_refl _
  | cons b rest =>
    rw [List.cons_append, List.cons_le_cons_iff]
    rcases UInt8.lt_or_eq_of_le (UInt8.zero_le : 0 ≤ b) with h | h
    · exact .inl h
    · exact .inr ⟨h, List.nil_le _⟩

/-- Visiting is exact only for keys that end in a zero byte and have no other. -/
theorem lsm_visit_exact : StoredForm.Exact sets (visit (setAll sets)) ↔
    ∀ e ∈ sets, ∃ key, e.1 = key ++ [0] ∧ (0 : UInt8) ∉ key := by
  have hall : setAll sets = mapOf (fun e => form.store e.1) Prod.snd sets := rfl
  rw [visit_form, hall, visit_exact_iff fun e _ => parKey_parKey]
  apply forall₂_congr
  intro e _
  rw [← parKey_eq_self]
  have hstart : [0] ≤ parKey e.1 := zero_le_parKey
  exact ⟨fun h => h.2, fun h => ⟨decide_eq_true hstart, h⟩⟩

/-- A key without a zero byte is given out with one. -/
theorem visit_terminated : ¬ StoredForm.Exact [([97], ⟨0, 0, 1⟩)] (visit (setAll [([97], ⟨0, 0, 1⟩)])) := by
  intro h
  have hvisit : visit (setAll [([97], ⟨0, 0, 1⟩)]) = [([97, 0], ⟨0, 0, 1⟩)] := rfl
  have hmem := (h.entry [97] ⟨0, 0, 1⟩).mpr rfl
  rw [hvisit] at hmem
  simp at hmem

end ParallaxDb

/-- `eckit::FixedString<size>` of a key, the rest of whose bytes are zero. -/
def FixedString (size : Nat) (key : List UInt8) : List UInt8 := key ++ List.replicate (size - key.length) 0

/-- `eckit::BTree` with keys of fixed length, a map in the order of their bytes. -/
abbrev BTreeStore := Std.ExtTreeMap (List UInt8) FieldRef

namespace BTreeStore

variable (size : Nat) (asString : List UInt8 → List UInt8)

/-- `TBTreeIndex::set(key, data)`. -/
def set (btree : BTreeStore) (key : List UInt8) (ref : FieldRef) : Except Failure BTreeStore := do
  assert (key.length ≤ size) "s.length() <= SIZE"
  return btree.insert (FixedString size key) ref

/-- `BTree::range(lo, hi, visitor)`. -/
def range (btree : BTreeStore) (lo hi : List UInt8) : List (List UInt8 × FieldRef) :=
  btree.toList.filter fun e => FixedString size lo ≤ e.1 ∧ e.1 ≤ FixedString size hi

/-- `TBTreeIndex::visit(visitor)`: the upper end is the byte that is 255 in octal. -/
def visit (btree : BTreeStore) : List (List UInt8 × FieldRef) :=
  (range size btree [] [0o255]).map fun e => (asString e.1, e.2)

def setAll (sets : List (List UInt8 × FieldRef)) : Except Failure BTreeStore :=
  sets.foldlM (fun btree e => set size btree e.1 e.2) ∅

def form : Form (List UInt8) (List UInt8) where
  store := FixedString size
  visits x := FixedString size [] ≤ x ∧ x ≤ FixedString size [0o255]
  name := asString

variable {size asString} {sets : List (List UInt8 × FieldRef)} {key : List UInt8}

theorem setAll_ok (h : ∀ e ∈ sets, e.1.length ≤ size) :
    setAll size sets = .ok (mapOf (fun e => (form size asString).store e.1) Prod.snd sets) := by
  induction sets using List.reverseRecOn with
  | nil => rfl
  | append_singleton sets e ih =>
    have hlength : e.1.length ≤ size := h e (by simp)
    have hsets : setAll size sets = _ := ih fun a ha => h a (List.mem_append_left _ ha)
    rw [mapOf_concat]
    rw [setAll] at hsets ⊢
    rw [List.foldlM_append, hsets]
    simp [bind, Except.bind, set, assert, hlength, form, pure, Except.pure]

theorem visit_form (btree : BTreeStore) : visit size asString btree = (form size asString).visit btree := by
  simp [visit, range, Form.visit, form]

theorem zeros_le : ∀ l : List UInt8, List.replicate l.length 0 ≤ l
  | [] => List.le_refl _
  | b :: l => by
    rw [List.length_cons, List.replicate_succ, List.cons_le_cons_iff]
    rcases UInt8.lt_or_eq_of_le (UInt8.zero_le : 0 ≤ b) with h | h
    · exact .inl h
    · exact .inr ⟨h, zeros_le l⟩

theorem le_zeros : ∀ l : List UInt8, l ≤ List.replicate l.length 0 ↔ ∀ b ∈ l, b = 0
  | [] => by simp
  | b :: l => by
    rw [List.length_cons, List.replicate_succ, List.cons_le_cons_iff, le_zeros l, List.forall_mem_cons]
    have hlt : ¬ b < 0 := UInt8.not_lt_zero
    simp [hlt]

/-- The key is not after the sentinel: bytes from 174 on lead a key past it. -/
def BeforeSentinel : List UInt8 → Prop
  | [] => True
  | b :: rest => b < 0o255 ∨ b = 0o255 ∧ ∀ c ∈ rest, c = 0

theorem length_fixedString (h : key.length ≤ size) : (FixedString size key).length = size := by
  rw [FixedString, List.length_append, List.length_replicate]
  omega

theorem le_fixedString (h : key.length ≤ size) : FixedString size [] ≤ FixedString size key := by
  have hzeros := zeros_le (FixedString size key)
  rwa [length_fixedString h] at hzeros

theorem fixedString_le_iff (hsize : 0 < size) (h : key.length ≤ size) :
    FixedString size key ≤ FixedString size [0o255] ↔ BeforeSentinel key := by
  obtain ⟨n, rfl⟩ : ∃ n, size = n + 1 := ⟨size - 1, by omega⟩
  have hsentinel : FixedString (n + 1) [0o255] = 0o255 :: List.replicate n 0 := rfl
  rw [hsentinel]
  cases key with
  | nil =>
    have hnil : FixedString (n + 1) [] = 0 :: List.replicate n 0 := rfl
    rw [hnil, List.cons_le_cons_iff]
    exact ⟨fun _ => trivial, fun _ => .inl (by decide)⟩
  | cons b rest =>
    have hcons : FixedString (n + 1) (b :: rest) = b :: FixedString n rest := by
      simp [FixedString]
    have hrest := le_zeros (FixedString n rest)
    rw [length_fixedString (by simpa using h)] at hrest
    rw [hcons, List.cons_le_cons_iff, hrest, BeforeSentinel, FixedString, List.forall_mem_append]
    simp

/-- Visiting is exact only for keys that a `FixedString` keeps and that do not come after the sentinel. -/
theorem btree_visit_exact (hsize : 0 < size) (hsets : ∀ e ∈ sets, e.1.length ≤ size)
    (hstring : ∀ key : List UInt8, key.length ≤ size →
      asString (FixedString size (asString (FixedString size key))) = asString (FixedString size key)) :
    ∃ btree, setAll size sets = .ok btree ∧ (StoredForm.Exact sets (visit size asString btree) ↔
      ∀ e ∈ sets, BeforeSentinel e.1 ∧ asString (FixedString size e.1) = e.1) := by
  have hall : setAll size sets = .ok (mapOf (fun e => (form size asString).store e.1) Prod.snd sets) := setAll_ok hsets
  refine ⟨_, hall, ?_⟩
  rw [visit_form, visit_exact_iff fun e he => hstring e.1 (hsets e he)]
  apply forall₂_congr
  intro e he
  have hrange : (form size asString).visits ((form size asString).store e.1) = true ↔ BeforeSentinel e.1 := by
    rw [← fixedString_le_iff hsize (hsets e he)]
    have hlow := le_fixedString (hsets e he)
    simp [form, hlow]
  rw [hrange]
  exact Iff.rfl

def repeatedSets : List (List UInt8 × FieldRef) := [([49], ⟨0, 0, 1⟩), ([50], ⟨1, 0, 1⟩), ([49], ⟨2, 0, 1⟩)]

theorem btree_visit_exact_plain : ∃ btree, setAll 32 repeatedSets = .ok btree ∧
    StoredForm.Exact repeatedSets (visit 32 (·.takeWhile (· ≠ 0)) btree) := by
  refine (btree_visit_exact (by decide) (by decide) fun _ _ => ParallaxDb.takeWhile_zeros
    ParallaxDb.zero_notMem_takeWhile).imp fun btree h => ⟨h.1, h.2.mpr ?_⟩
  have hplain : ∀ e ∈ repeatedSets, e.1 = [49] ∨ e.1 = [50] := by decide
  intro e he
  rcases hplain e he with h | h <;> rw [h] <;> exact ⟨.inl (by decide), by decide⟩

/-- A key that begins outside ASCII is not given out. -/
theorem visit_skipped : ∃ btree, setAll 32 [([0xC3, 0xA9], ⟨0, 0, 1⟩)] = .ok btree ∧
    ¬ StoredForm.Exact [([0xC3, 0xA9], ⟨0, 0, 1⟩)] (visit 32 (·.takeWhile (· ≠ 0)) btree) := by
  refine ⟨_, rfl, fun h => ?_⟩
  have hmem := (h.entry [0xC3, 0xA9] ⟨0, 0, 1⟩).mpr rfl
  exact absurd hmem (List.not_mem_nil)

end BTreeStore

namespace BTreeKey

/-- The bytes of a key. -/
def bytes (key : String) : List UInt8 := key.toByteArray.data.toList

def zeros (n : Nat) : String := String.ofList (List.replicate n (Char.ofNat 0))

variable {key key' : String} {size n : Nat}

theorem bytes_append (key key' : String) : bytes (key ++ key') = bytes key ++ bytes key' := by
  simp [bytes, String.toByteArray_append]

theorem bytes_injective (h : bytes key = bytes key') : key = key' := by
  rw [← String.toByteArray_inj]
  exact ByteArray.ext (Array.ext' h)

theorem zeros_succ (n : Nat) : zeros (n + 1) = zeros n ++ zeros 1 := by
  rw [zeros, List.replicate_succ', String.ofList_append]
  rfl

theorem bytes_zeros (n : Nat) : bytes (zeros n) = List.replicate n 0 := by
  induction n with
  | zero => rfl
  | succ n ih =>
    rw [zeros_succ, bytes_append, ih, List.replicate_succ']
    rfl

theorem text_append_zeros (key : String) (n : Nat) : text (key ++ zeros n) = text key := by
  induction n with
  | zero => simp [zeros]
  | succ n ih =>
    have hlist : (key ++ zeros (n + 1)).toList = (key ++ zeros n).toList ++ [Char.ofNat 0] := by
      rw [zeros_succ, ← String.append_assoc, String.toList_append]
      rfl
    rw [← ih, text, text, hlist, List.rdropWhile_concat_pos _ _ _ (by decide)]

theorem exists_zeros (key : String) : ∃ n, key = text key ++ zeros n := by
  obtain ⟨n, hn⟩ : ∃ n, key.toList.rtakeWhile (· = Char.ofNat 0) = List.replicate n (Char.ofNat 0) :=
    ⟨_, List.eq_replicate_of_mem fun c hc => by simpa using List.mem_rtakeWhile_imp hc⟩
  refine ⟨n, String.toList_injective ?_⟩
  rw [text, zeros, ← hn, ← String.ofList_append, String.toList_ofList, List.rdropWhile_append_rtakeWhile]

theorem fixedString_bytes : FixedString size (bytes key) = bytes (key ++ zeros (size - (bytes key).length)) := by
  rw [bytes_append, bytes_zeros, FixedString]

/-- A `FixedString` has room for the text alone: keys with one text, and no others, are one key of the B-tree. -/
theorem fixedString_iff (h : (bytes key).length ≤ size) (h' : (bytes key').length ≤ size) :
    FixedString size (bytes key) = FixedString size (bytes key') ↔ text key = text key' := by
  constructor
  · intro heq
    rw [fixedString_bytes, fixedString_bytes] at heq
    rw [← text_append_zeros key, bytes_injective heq, text_append_zeros]
  · intro heq
    have hpad {k : String} (hk : (bytes k).length ≤ size) :
        FixedString size (bytes k) = bytes (text k) ++ List.replicate (size - (bytes (text k)).length) 0 := by
      obtain ⟨n, hn⟩ := exists_zeros k
      have hbytes : bytes k = bytes (text k) ++ List.replicate n 0 := by
        conv_lhs => rw [hn, bytes_append, bytes_zeros]
      rw [hbytes, List.length_append, List.length_replicate] at hk
      rw [FixedString, hbytes, List.append_assoc, List.replicate_append_replicate, List.length_append, List.length_replicate]
      congr 2
      omega
    rw [hpad h, hpad h', heq]

/-- The keys of `TBTreeIndex` are those that the bytes of `eckit::FixedString<32>` tell apart. -/
theorem ofString_iff {k k' : String} (h : ofString key = .ok k) (h' : ofString key' = .ok k') :
    k = k' ↔ FixedString 32 (bytes key) = FixedString 32 (bytes key') := by
  have htext {key k : String} (h : ofString key = .ok k) : key.utf8ByteSize ≤ 32 ∧ text key = k := by
    by_cases hsize : key.utf8ByteSize ≤ 32
    · exact ⟨hsize, Except.ok.inj ((ofString_ok hsize).symm.trans h)⟩
    · exact absurd ((ofString_error hsize).symm.trans h) (by simp)
  obtain ⟨hsize, rfl⟩ := htext h
  obtain ⟨hsize', rfl⟩ := htext h'
  exact (fixedString_iff hsize hsize').symm

end BTreeKey
end Fdb5
