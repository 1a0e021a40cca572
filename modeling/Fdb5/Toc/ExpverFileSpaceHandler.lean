import Fdb5.Key
import Fdb5.Library.Follows
import Fdb5.Library.TextFile

/-! `ExpverFileSpaceHandler`: the map file that gives each expver its file system. -/
namespace Fdb5

namespace ExpverFileSpaceHandler

abbrev Text := List Char

/-- What a line of the map file is to the loops that read it. -/
inductive Line where
  | skip
  | bad
  | entry (expver path : Text)
deriving DecidableEq

def parseLine (line : Text) : Line :=
  match TextFile.words line with
  | [] => .skip
  | s :: rest =>
    if s.head? = some '#' then .skip
    else
      match rest with
      | [path] => .entry s path
      | _ => .bad

/-- `table_`; the last assignment of an expver comes first. -/
abbrev PathTable := List (Text × Text)

/-- The loop of `load`, which leaves what it has assigned where it throws. -/
def loadLines : List Text → PathTable → PathTable × Except Failure Unit
  | [], table => (table, .ok ())
  | line :: rest, table =>
    match parseLine line with
    | .skip => loadLines rest table
    | .bad => (table, .error (.exception "Bad line in configuration file"))
    | .entry expver path => loadLines rest ((expver, path) :: table)

/-- `load()` of what there is of the file. -/
def load (file : Text) (table : PathTable) : PathTable × Except Failure Unit :=
  loadLines (TextFile.getlines 1024 file) table

/-- The loop of `append`, under the lock: the path of the expver, where it has one. -/
def findExpver (expver : Text) : List Text → Except Failure (Option Text)
  | [] => .ok none
  | line :: rest =>
    match parseLine line with
    | .skip => findExpver expver rest
    | .bad => .error (.exception "Bad line in configuration file")
    | .entry s path => if s = expver then .ok (some path) else findExpver expver rest

def expverIsValid (str : Text) : Bool := str.length = 4 && str.all Char.isAlphanum

/-- What `append` writes, before the end of the line. -/
def mapLine (expver path : Text) : Text := expver ++ ' ' :: path

end ExpverFileSpaceHandler

open ExpverFileSpaceHandler

/-- An `append` that is writing: the process, and what it writes. -/
structure MapWrite where
  process : Nat
  expver : Text
  path : Text

/-- The map file without the line that is being written, the processes' tables, their calls that wait for the lock with
the path each may assign, and what calls have returned. -/
structure ExpverSystem where
  file : Text
  writing : Option MapWrite := none
  table : Nat → PathTable := fun _ => []
  pending : Nat → Option (Text × Text) := fun _ => none
  returned : List (Text × Text) := []

/-- A call up to `append`, which sees so many characters of the line that is being written; the locked section of
`append` up to the write; and the write. `maybe` is the path that `select` or `FDB5_ROOT` offers. -/
inductive ExpverStep where
  | call (process : Nat) (expver : Text) (maybe : Option Text) (seen : Nat)
  | lock (process : Nat)
  | written

namespace ExpverSystem

/-- What a reader without the lock finds in the file. -/
def view (s : ExpverSystem) (seen : Nat) : Text :=
  s.file ++ match s.writing with
    | none => []
    | some w => (mapLine w.expver w.path ++ ['\n']).take seen

def setTable (s : ExpverSystem) (process : Nat) (table : PathTable) : ExpverSystem :=
  { s with table := Function.update s.table process table }

def setPending (s : ExpverSystem) (process : Nat) (call : Option (Text × Text)) : ExpverSystem :=
  { s with pending := Function.update s.pending process call }

def return_ (s : ExpverSystem) (expver path : Text) : ExpverSystem := { s with returned := s.returned ++ [(expver, path)] }

/-- The process is in no call. -/
def idle (s : ExpverSystem) (process : Nat) : Bool :=
  (s.pending process).isNone && s.writing.all fun w => w.process != process

/-- `if(table_.empty()) load();`. -/
def loaded (s : ExpverSystem) (process seen : Nat) : PathTable × Except Failure Unit :=
  if (s.table process).isEmpty then load (s.view seen) [] else (s.table process, .ok ())

/-- The rest of a call once the table is loaded, up to `append`. -/
def lookup (s : ExpverSystem) (process : Nat) (expver : Text) (maybe : Option Text) : ExpverSystem :=
  if expverIsValid expver then
    match (s.table process).lookup expver, maybe with
    | some path, _ => s.return_ expver path
    | none, none => s
    | none, some path => s.setPending process (some (expver, path))
  else s

/-- The locked section of `append`. It finds the expver, or throws, or is about to write. -/
def append (s : ExpverSystem) (process : Nat) (expver path : Text) : ExpverSystem :=
  match findExpver expver (TextFile.getlines 4096 s.file) with
  | .error _ => s
  | .ok (some selected) => (s.setTable process ((expver, selected) :: s.table process)).return_ expver selected
  | .ok none => { s with writing := some ⟨process, expver, path⟩ }

def step (s : ExpverSystem) : ExpverStep → ExpverSystem
  | .call process expver maybe seen =>
    if s.idle process then
      let s' := s.setTable process (s.loaded process seen).1
      match (s.loaded process seen).2 with
      | .error _ => s'
      | .ok _ => s'.lookup process expver maybe
    else s
  | .lock process =>
    match s.pending process, s.writing with
    | some (expver, path), none => (s.setPending process none).append process expver path
    | _, _ => s
  | .written =>
    match s.writing with
    | none => s
    | some w =>
      let s := s.setTable w.process ((w.expver, w.path) :: s.table w.process)
      { s with file := s.file ++ mapLine w.expver w.path ++ ['\n'], writing := none }.return_ w.expver w.path

/-- The expver that a line gives a path. -/
def entryKey (line : Text) : Option Text :=
  match parseLine line with
  | .entry expver _ => some expver
  | _ => none

/-- No expver has two entries in the file. -/
def SingleEntries (file : Text) : Prop := ((file.splitOn '\n').filterMap entryKey).Nodup

/-- All calls that have returned for an expver returned one path, and the file has one entry for each. -/
structure Agreed (s : ExpverSystem) : Prop where
  one : ∀ expver p q, (expver, p) ∈ s.returned → (expver, q) ∈ s.returned → p = q
  single : SingleEntries s.file

/-- A new line is as the readers take it: it is one line that fits, and its path is read back unless it is a bad line. -/
def Writable (expver path : Text) : Prop :=
  '\n' ∉ path ∧ (mapLine expver path).length < 4096 ∧
    (parseLine (mapLine expver path) = .entry expver path ∨ parseLine (mapLine expver path) = .bad)

/-- A `load` finds no cut path for the expver that is being written, and what is written is as the readers take it. -/
def Safe (s : ExpverSystem) : ExpverStep → Prop
  | .call process _ _ seen => (s.table process).isEmpty = true → ∀ w ∈ s.writing,
    ∀ line ∈ TextFile.getlines 1024 (s.view seen), ∀ path, parseLine line = .entry w.expver path → path = w.path
  | .lock process => ∀ call ∈ s.pending process,
    findExpver call.1 (TextFile.getlines 4096 s.file) = .ok none → Writable call.1 call.2
  | .written => True

instance (line expver path : Text) : Decidable (∀ p, parseLine line = .entry expver p → p = path) :=
  match h : parseLine line with
  | .skip => .isTrue (by simp)
  | .bad => .isTrue (by simp)
  | .entry s q => decidable_of_iff (s = expver → q = path) (by simp)

instance (expver path : Text) : Decidable (Writable expver path) :=
  inferInstanceAs (Decidable (_ ∧ _ ∧ _))

instance (s : ExpverSystem) : ∀ a, Decidable (Safe s a)
  | .call process _ _ seen => inferInstanceAs (Decidable ((s.table process).isEmpty = true → ∀ w ∈ s.writing,
      ∀ line ∈ TextFile.getlines 1024 (s.view seen), ∀ path, parseLine line = .entry w.expver path → path = w.path))
  | .lock process => inferInstanceAs (Decidable (∀ call ∈ s.pending process,
      findExpver call.1 (TextFile.getlines 4096 s.file) = .ok none → Writable call.1 call.2))
  | .written => .isTrue trivial

end ExpverSystem

/-- A map file that `append` reads to its end: whole lines that fit, and one entry for each expver. -/
structure MapFile where
  lines : List Text
  plain : ∀ line ∈ lines, '\n' ∉ line ∧ line.length < 4096
  single : (lines.filterMap ExpverSystem.entryKey).Nodup

/-- Before the first call. -/
def MapFile.start (m : MapFile) : ExpverSystem := { file := TextFile.content m.lines [] }

namespace ExpverFileSpaceHandler

variable {expver path : Text} {lines lines' : List Text} {line : Text} {table : PathTable}

theorem findExpver_append : findExpver expver (lines ++ lines') =
    match findExpver expver lines with
    | .ok none => findExpver expver lines'
    | r => r := by
  induction lines with
  | nil => rfl
  | cons l lines ih =>
    rw [List.cons_append, findExpver, findExpver]
    cases parseLine l with
    | skip => exact ih
    | bad => rfl
    | entry s p =>
      by_cases h : s = expver
      · simp [h]
      · simpa [h] using ih

theorem findExpver_none : findExpver expver lines = .ok none ↔
    ∀ line ∈ lines, parseLine line ≠ .bad ∧ ExpverSystem.entryKey line ≠ some expver := by
  induction lines with
  | nil => simp [findExpver]
  | cons l lines ih =>
    rw [findExpver, List.forall_mem_cons]
    cases hl : parseLine l with
    | skip => simp [ih, ExpverSystem.entryKey, hl]
    | bad => simp
    | entry s p =>
      by_cases h : s = expver
      · simp [h, ExpverSystem.entryKey, hl]
      · simp [h, ih, ExpverSystem.entryKey, hl]

theorem bad_of_findExpver {e : Failure} (h : findExpver expver lines = .error e) : ∃ line ∈ lines, parseLine line = .bad := by
  induction lines with
  | nil => cases h
  | cons l lines ih =>
    rw [findExpver] at h
    cases hl : parseLine l with
    | bad => exact ⟨l, .head _, hl⟩
    | skip =>
      rw [hl] at h
      obtain ⟨line, hmem, hbad⟩ := ih h
      exact ⟨line, .tail _ hmem, hbad⟩
    | entry s p =>
      rw [hl] at h
      by_cases hs : s = expver
      · simp [hs] at h
      · obtain ⟨line, hmem, hbad⟩ := ih (by simpa [hs] using h)
        exact ⟨line, .tail _ hmem, hbad⟩

/-- What `load` assigns stands in a line that it reads, with no bad line before it. -/
theorem mem_loadLines (h : (expver, path) ∈ (loadLines lines table).1) : (expver, path) ∈ table ∨
    ∃ pre line post, lines = pre ++ line :: post ∧ parseLine line = .entry expver path ∧ ∀ l ∈ pre, parseLine l ≠ .bad := by
  induction lines generalizing table with
  | nil => exact .inl h
  | cons l lines ih =>
    have hlater : ∀ table, parseLine l ≠ .bad → (expver, path) ∈ (loadLines lines table).1 → (expver, path) ∈ table ∨
        ∃ pre line post, l :: lines = pre ++ line :: post ∧ parseLine line = .entry expver path ∧
          ∀ l ∈ pre, parseLine l ≠ .bad := by
      intro table hl h
      obtain h | ⟨pre, line, post, rfl, hline, hpre⟩ := ih h
      · exact .inl h
      · exact .inr ⟨l :: pre, line, post, rfl, hline, List.forall_mem_cons.mpr ⟨hl, hpre⟩⟩
    rw [loadLines] at h
    cases hl : parseLine l with
    | skip =>
      rw [hl] at h
      exact hlater table (by simp [hl]) h
    | bad =>
      rw [hl] at h
      exact .inl h
    | entry s p =>
      rw [hl] at h
      obtain hmem | hfound := hlater _ (by simp [hl]) h
      · rcases List.mem_cons.mp hmem with heq | hmem
        · obtain ⟨rfl, rfl⟩ := Prod.mk.inj heq
          exact .inr ⟨[], l, lines, rfl, hl, by simp⟩
        · exact .inl hmem
      · exact .inr hfound

/-- Where an expver has one entry, with no bad line before it, `append` finds it. -/
theorem findExpver_entry {pre post : List Text} (hline : parseLine line = .entry expver path)
    (hpre : ∀ l ∈ pre, parseLine l ≠ .bad) (hsingle : ((pre ++ line :: post).filterMap ExpverSystem.entryKey).Nodup) :
    findExpver expver (pre ++ line :: post) = .ok (some path) := by
  have hkey : ExpverSystem.entryKey line = some expver := by simp [ExpverSystem.entryKey, hline]
  have hnone : findExpver expver pre = .ok none := by
    apply findExpver_none.mpr
    intro l hl
    refine ⟨hpre l hl, fun he => ?_⟩
    rw [List.filterMap_append, List.nodup_append] at hsingle
    have hmem : expver ∈ pre.filterMap ExpverSystem.entryKey := List.mem_filterMap.mpr ⟨l, hl, he⟩
    have hmem' : expver ∈ (line :: post).filterMap ExpverSystem.entryKey := List.mem_filterMap.mpr ⟨line, .head _, hkey⟩
    exact hsingle.2.2 expver hmem expver hmem' rfl
  rw [findExpver_append, hnone]
  simp [findExpver, hline]

/-- A cut line is not yet an entry, or already one of its own expver. -/
theorem entry_of_take {n : Nat} {x y : Text} (hblank : ' ' ∉ expver) (hne : expver ≠ [])
    (h : parseLine ((mapLine expver path).take n) = .entry x y) : x = expver := by
  by_cases hn : n ≤ expver.length
  · have htake : (mapLine expver path).take n = expver.take n := by
      rw [mapLine, List.take_append_of_le_length hn]
    have hwords : TextFile.words (expver.take n) = if expver.take n = [] then [] else [expver.take n] :=
      TextFile.words_single fun hmem => hblank (List.mem_of_mem_take hmem)
    rw [htake, parseLine, hwords] at h
    by_cases hnil : expver.take n = []
    · rw [if_pos hnil] at h
      cases h
    · rw [if_neg hnil] at h
      simp only at h
      split at h <;> cases h
  · obtain ⟨k, rfl⟩ : ∃ k, n = expver.length + (k + 1) := ⟨n - expver.length - 1, by omega⟩
    have htake : (mapLine expver path).take (expver.length + (k + 1)) = expver ++ ' ' :: path.take k := by
      simp [mapLine, List.take_append, List.take_of_length_le]
    rw [htake, parseLine, TextFile.words_cons hblank hne] at h
    simp only at h
    split at h
    · cases h
    · split at h
      · exact (Line.entry.inj h).1.symm
      · cases h

end ExpverFileSpaceHandler

namespace ExpverSystem

variable {s : ExpverSystem} {m : MapFile} {expver path p q : Text} {process seen : Nat} {lines : List Text} {a : ExpverStep}

/-- The path belongs to the expver: it is found in the file, or is being written, or made the bad line at its end. -/
def Known (s : ExpverSystem) (lines : List Text) (expver path : Text) : Prop :=
  findExpver expver lines = .ok (some path) ∨ (∃ w ∈ s.writing, w.expver = expver ∧ w.path = path) ∨
  ((∃ e, findExpver expver lines = .error e) ∧ lines.getLast? = some (mapLine expver path))

/-- What holds of the lines of the file in every state. -/
structure Holds (s : ExpverSystem) (m : MapFile) : Prop where
  file : s.file = TextFile.content m.lines []
  fresh : ∀ w ∈ s.writing, findExpver w.expver m.lines = .ok none ∧ Writable w.expver w.path ∧ expverIsValid w.expver = true
  pending : ∀ process, ∀ call ∈ s.pending process, expverIsValid call.1 = true
  tables : ∀ process expver path, (expver, path) ∈ s.table process → Known s m.lines expver path
  returned : ∀ expver path, (expver, path) ∈ s.returned → Known s m.lines expver path

theorem known_unique (h : s.Holds m) (hp : Known s m.lines expver p) (hq : Known s m.lines expver q) : p = q := by
  have hfresh : ∀ w ∈ s.writing, w.expver = expver → findExpver expver m.lines = .ok none := by
    rintro w hw rfl
    exact (h.fresh w hw).1
  obtain hp | ⟨w, hw, hexpver, rfl⟩ | ⟨⟨e, hp⟩, hlast⟩ := hp
  · obtain hq | ⟨v, hv, hexpver, rfl⟩ | ⟨⟨e, hq⟩, -⟩ := hq
    · simpa [hp] using hq
    · simp [hp] at hfresh
      exact absurd hexpver (hfresh v hv)
    · simp [hp] at hq
  · have hnone := hfresh w hw hexpver
    obtain hq | ⟨v, hv, -, rfl⟩ | ⟨⟨e, hq⟩, -⟩ := hq
    · simp [hnone] at hq
    · obtain rfl : w = v := Option.some.inj (hw.symm.trans hv)
      rfl
    · simp [hnone] at hq
  · obtain hq | ⟨v, hv, hexpver, rfl⟩ | ⟨-, hlast'⟩ := hq
    · simp [hp] at hq
    · have hnone := hfresh v hv hexpver
      simp [hp] at hnone
    · have heq : mapLine expver p = mapLine expver q := Option.some.inj (hlast.symm.trans hlast')
      simpa [mapLine] using heq

theorem agreed_of_holds (h : s.Holds m) : s.Agreed where
  one _ p q hp hq := known_unique h (h.returned _ p hp) (h.returned _ q hq)
  single := by
    have hnil : entryKey [] = none := rfl
    rw [SingleEntries, h.file, TextFile.splitOn_content (fun l hl => (m.plain l hl).1) (by simp), List.filterMap_append]
    simpa [hnil] using m.single

theorem holds_start (m : MapFile) : m.start.Holds m where
  file := rfl
  fresh := by simp [MapFile.start]
  pending := by simp [MapFile.start]
  tables := by simp [MapFile.start]
  returned := by simp [MapFile.start]

theorem not_mem_of_valid {c : Char} (h : expverIsValid expver = true) (hc : c.isAlphanum = false) : c ∉ expver := by
  intro hmem
  have hall := List.all_eq_true.mp (Bool.and_eq_true_iff.mp h).2 c hmem
  simp [hc] at hall

theorem ne_nil_of_valid (h : expverIsValid expver = true) : expver ≠ [] := by
  rintro rfl
  cases h

theorem mapLine_plain (h : expverIsValid expver = true) (hpath : '\n' ∉ path) : '\n' ∉ mapLine expver path := by
  have hexpver : '\n' ∉ expver := not_mem_of_valid h (by decide)
  simp [mapLine, hexpver, hpath]

end ExpverSystem

/-- The map file with a new line at its end. -/
def MapFile.written (m : MapFile) {expver path : Text} (hfresh : findExpver expver m.lines = .ok none)
    (hwritable : ExpverSystem.Writable expver path) (hvalid : expverIsValid expver = true) : MapFile where
  lines := m.lines ++ [mapLine expver path]
  plain := by
    intro line hline
    rcases List.mem_append.mp hline with hline | hline
    · exact m.plain line hline
    · rw [List.mem_singleton.mp hline]
      exact ⟨ExpverSystem.mapLine_plain hvalid hwritable.1, hwritable.2.1⟩
  single := by
    rw [List.filterMap_append, List.nodup_append]
    refine ⟨m.single, ?_, ?_⟩
    · cases hkey : ExpverSystem.entryKey (mapLine expver path) <;> simp [hkey]
    · intro e he e' he'
      obtain ⟨line, hline, hkey⟩ := List.mem_filterMap.mp he
      have hne := ((findExpver_none.mp hfresh) line hline).2
      have he' : ExpverSystem.entryKey (mapLine expver path) = some e' := by simpa using he'
      rcases hwritable.2.2 with hentry | hbad
      · simp only [ExpverSystem.entryKey, hentry, Option.some.injEq] at he'
        rintro rfl
        subst he'
        exact hne hkey
      · simp [ExpverSystem.entryKey, hbad] at he'

namespace ExpverSystem

variable {s : ExpverSystem} {m : MapFile} {expver path p q : Text} {process seen : Nat} {lines : List Text} {a : ExpverStep}

section View

theorem append_cons_of_concat {α : Type} {pre post l r : List α} {x t : α} (h : pre ++ x :: post ++ r = l ++ [t]) :
    (∃ post', l = pre ++ x :: post') ∨ pre = l ∧ x = t := by
  rw [List.append_assoc, List.cons_append] at h
  obtain hnil | ⟨l', u, hconcat⟩ := List.eq_nil_or_concat (post ++ r)
  · rw [hnil] at h
    obtain ⟨rfl, hx⟩ := List.append_inj' h rfl
    exact .inr ⟨rfl, by simpa using hx⟩
  · rw [hconcat, List.concat_eq_append, ← List.cons_append, ← List.append_assoc] at h
    obtain ⟨rfl, -⟩ := List.append_inj' h rfl
    exact .inl ⟨l', rfl⟩

/-- A line that a `load` reads is one of the file, or a piece of the one that is being written. -/
theorem line_of_view {pre post : List Text} {line : Text} (h : s.Holds m)
    (hread : TextFile.getlines 1024 (s.view seen) = pre ++ line :: post) : (∃ post', m.lines = pre ++ line :: post') ∨
      pre = m.lines ∧ ∃ w ∈ s.writing, ∃ n, line = (mapLine w.expver w.path).take n := by
  have hplain : ∀ l ∈ m.lines, '\n' ∉ l := fun l hl => (m.plain l hl).1
  have hstop : ∀ l, (l.takeWhile fun line => decide (line.length < 1024)) = pre ++ line :: post →
      ∃ r, pre ++ line :: post ++ r = l := by
    intro l hl
    obtain ⟨r, hr⟩ := List.takeWhile_prefix (l := l) fun line => decide (line.length < 1024)
    exact ⟨r, by rw [← hl]; exact hr⟩
  rw [view, h.file] at hread
  cases hw : s.writing with
  | none =>
    rw [hw] at hread
    simp only [List.append_nil] at hread
    rw [TextFile.getlines_content hplain (by simp)] at hread
    obtain ⟨r, hr⟩ := hstop _ hread
    refine .inl ⟨post ++ r, ?_⟩
    simpa using hr.symm
  | some w =>
    obtain ⟨-, ⟨hnew, -, -⟩, hvalid⟩ := h.fresh w hw
    have hline := mapLine_plain hvalid hnew
    rw [hw] at hread
    simp only at hread
    by_cases hseen : seen ≤ (mapLine w.expver w.path).length
    · have hview : TextFile.content m.lines [] ++ (mapLine w.expver w.path ++ ['\n']).take seen =
          TextFile.content m.lines ((mapLine w.expver w.path).take seen) := by
        rw [List.take_append_of_le_length hseen]
        simp [TextFile.content]
      rw [hview, TextFile.getlines_content hplain fun hmem => hline (List.mem_of_mem_take hmem)] at hread
      obtain ⟨r, hr⟩ := hstop _ hread
      split at hr
      · exact .inl ⟨post ++ r, by simpa using hr.symm⟩
      · obtain hold | ⟨hpre, rfl⟩ := append_cons_of_concat hr
        · exact .inl hold
        · exact .inr ⟨hpre, w, rfl, seen, rfl⟩
    · have hview : TextFile.content m.lines [] ++ (mapLine w.expver w.path ++ ['\n']).take seen =
          TextFile.content (m.lines ++ [mapLine w.expver w.path]) [] := by
        rw [List.take_of_length_le (by simp; omega), TextFile.content_concat]
        simp [TextFile.content]
      have hplain' : ∀ l ∈ m.lines ++ [mapLine w.expver w.path], '\n' ∉ l := by
        intro l hl
        rcases List.mem_append.mp hl with hl | hl
        · exact hplain l hl
        · rwa [List.mem_singleton.mp hl]
      rw [hview, TextFile.getlines_content hplain' (by simp)] at hread
      obtain ⟨r, hr⟩ := hstop _ hread
      simp only [if_true, List.append_nil] at hr
      obtain hold | ⟨hpre, rfl⟩ := append_cons_of_concat hr
      · exact .inl hold
      · exact .inr ⟨hpre, w, rfl, (mapLine w.expver w.path).length, by simp⟩

end View

section Steps

/-- What a `load` assigns is known, unless it read a cut path. -/
theorem known_loaded (h : s.Holds m) (hsafe : s.Safe (.call process expver maybe seen)) :
    ∀ e p, (e, p) ∈ (s.loaded process seen).1 → Known s m.lines e p := by
  intro e p hmem
  rw [loaded] at hmem
  split at hmem
  · rename_i hempty
    obtain hnil | ⟨pre, line, post, hread, hline, hpre⟩ := mem_loadLines hmem
    · cases hnil
    · obtain ⟨post', hlines⟩ | ⟨rfl, w, hw, n, rfl⟩ := line_of_view h hread
      · left
        have hsingle := m.single
        rw [hlines] at hsingle ⊢
        exact findExpver_entry hline hpre hsingle
      · right
        left
        have hvalid := (h.fresh w hw).2.2
        obtain rfl := entry_of_take (not_mem_of_valid hvalid (by decide)) (ne_nil_of_valid hvalid) hline
        exact ⟨w, hw, rfl, (hsafe hempty w hw _ (by rw [hread]; simp) p hline).symm⟩
  · exact h.tables process e p hmem

theorem holds_setTable (h : s.Holds m) {table : PathTable} (htable : ∀ e p, (e, p) ∈ table → Known s m.lines e p) :
    (s.setTable process table).Holds m where
  file := h.file
  fresh := h.fresh
  pending := h.pending
  tables process' e p hmem := by
    by_cases heq : process' = process
    · subst heq
      exact htable e p (by simpa [setTable] using hmem)
    · exact h.tables process' e p (by simpa [setTable, heq] using hmem)
  returned := h.returned

theorem holds_setPending (h : s.Holds m) {call : Option (Text × Text)} (hcall : ∀ c ∈ call, expverIsValid c.1 = true) :
    (s.setPending process call).Holds m where
  file := h.file
  fresh := h.fresh
  pending process' c hc := by
    by_cases heq : process' = process
    · subst heq
      exact hcall c (by simpa [setPending] using hc)
    · exact h.pending process' c (by simpa [setPending, heq] using hc)
  tables := h.tables
  returned := h.returned

theorem holds_return (h : s.Holds m) (hknown : Known s m.lines expver path) : (s.return_ expver path).Holds m where
  file := h.file
  fresh := h.fresh
  pending := h.pending
  tables := h.tables
  returned e p hmem := by
    rcases List.mem_append.mp hmem with hmem | hmem
    · exact h.returned e p hmem
    · obtain ⟨rfl, rfl⟩ : e = expver ∧ p = path := by simpa using hmem
      exact hknown

theorem holds_lookup {maybe : Option Text} (h : s.Holds m) : (s.lookup process expver maybe).Holds m := by
  unfold lookup
  split
  · rename_i hvalid
    cases hlookup : (s.table process).lookup expver with
    | some path =>
      obtain ⟨l₁, l₂, htable, -⟩ := List.lookup_eq_some_iff.mp hlookup
      have hmem : (expver, path) ∈ s.table process := by simp [htable]
      exact holds_return h (h.tables process expver path hmem)
    | none =>
      cases maybe with
      | none => exact h
      | some path =>
        apply holds_setPending h
        intro call hcall
        obtain rfl : (expver, path) = call := by simpa using hcall
        exact hvalid
  · exact h

theorem holds_call {maybe : Option Text} (h : s.Holds m) (hsafe : s.Safe (.call process expver maybe seen)) :
    (s.step (.call process expver maybe seen)).Holds m := by
  rw [step]
  split
  · have htable : (s.setTable process (s.loaded process seen).1).Holds m := holds_setTable h (known_loaded h hsafe)
    simp only
    split
    · exact htable
    · exact holds_lookup htable
  · exact h

theorem getlines_file (h : s.Holds m) : TextFile.getlines 4096 s.file = m.lines := by
  rw [h.file]
  exact TextFile.getlines_all (fun l hl => (m.plain l hl).1) fun l hl => (m.plain l hl).2

theorem holds_append (h : s.Holds m) (hwriting : s.writing = none) (hvalid : expverIsValid expver = true)
    (hwritable : findExpver expver m.lines = .ok none → Writable expver path) : (s.append process expver path).Holds m := by
  rw [append, getlines_file h]
  cases hfound : findExpver expver m.lines with
  | error e => exact h
  | ok found =>
    cases found with
    | some selected =>
      have hknown : Known s m.lines expver selected := .inl hfound
      have htable : ∀ e p, (e, p) ∈ (expver, selected) :: s.table process → Known s m.lines e p := by
        intro e p hmem
        rcases List.mem_cons.mp hmem with heq | hmem
        · obtain ⟨rfl, rfl⟩ := Prod.mk.inj heq
          exact hknown
        · exact h.tables process e p hmem
      have hset : (s.setTable process ((expver, selected) :: s.table process)).Holds m := holds_setTable h htable
      exact holds_return hset hknown
    | none =>
      have hknown : ∀ e p, Known s m.lines e p → Known { s with writing := some ⟨process, expver, path⟩ } m.lines e p := by
        rintro e p (hfound | ⟨w, hw, -⟩ | hbad)
        · exact .inl hfound
        · simp [hwriting] at hw
        · exact .inr (.inr hbad)
      exact {
        file := h.file
        fresh := by
          intro w hw
          obtain rfl : MapWrite.mk process expver path = w := by simpa using hw
          exact ⟨hfound, hwritable hfound, hvalid⟩
        pending := h.pending
        tables := fun process e p hmem => hknown e p (h.tables process e p hmem)
        returned := fun e p hmem => hknown e p (h.returned e p hmem) }

theorem holds_lock (h : s.Holds m) (hsafe : s.Safe (.lock process)) : (s.step (.lock process)).Holds m := by
  rw [step]
  cases hpending : s.pending process with
  | none => exact h
  | some call =>
    obtain ⟨expver, path⟩ := call
    cases hwriting : s.writing with
    | some w => exact h
    | none =>
      have hidle : (s.setPending process none).Holds m := holds_setPending h (by simp)
      apply holds_append hidle hwriting (h.pending process _ hpending)
      intro hnone
      have hwritable := hsafe _ hpending
      rw [getlines_file h] at hwritable
      exact hwritable hnone

/-- A written line is found, or is the bad line at the end. -/
theorem known_written (hfresh : findExpver expver lines = .ok none) (hwritable : Writable expver path) :
    Known s (lines ++ [mapLine expver path]) expver path := by
  have hlines : findExpver expver (lines ++ [mapLine expver path]) = findExpver expver [mapLine expver path] := by
    rw [findExpver_append, hfresh]
  rcases hwritable.2.2 with hentry | hbad
  · left
    rw [hlines]
    simp [findExpver, hentry]
  · right
    right
    rw [hlines]
    exact ⟨⟨_, by rw [findExpver, hbad]⟩, by simp⟩

theorem holds_written (h : s.Holds m) : ∃ m', (s.step .written).Holds m' := by
  rw [step]
  cases hwriting : s.writing with
  | none => exact ⟨m, h⟩
  | some w =>
    obtain ⟨hfresh, hwritable, hvalid⟩ := h.fresh w hwriting
    let s' := { s with file := s.file ++ mapLine w.expver w.path ++ ['\n'], writing := none }
    have hfound : ∀ e p, Known s m.lines e p → Known s' (m.lines ++ [mapLine w.expver w.path]) e p := by
      rintro e p (hfound | ⟨v, hv, rfl, rfl⟩ | ⟨⟨e', hbad⟩, -⟩)
      · left
        rw [findExpver_append, hfound]
      · obtain rfl : w = v := Option.some.inj (hwriting.symm.trans hv)
        exact known_written hfresh hwritable
      · obtain ⟨line, hmem, hline⟩ := bad_of_findExpver hbad
        exact absurd hline ((findExpver_none.mp hfresh) line hmem).1
    have hw : Known s' (m.lines ++ [mapLine w.expver w.path]) w.expver w.path := hfound _ _ (.inr (.inl ⟨w, hwriting, rfl, rfl⟩))
    have hs' : Holds s' (m.written hfresh hwritable hvalid) := {
      file := by
        show s.file ++ mapLine w.expver w.path ++ ['\n'] = TextFile.content (m.lines ++ [mapLine w.expver w.path]) []
        rw [TextFile.content_concat, h.file]
        simp [TextFile.content]
      fresh := by simp [s']
      pending := h.pending
      tables := fun process e p hmem => hfound e p (h.tables process e p hmem)
      returned := fun e p hmem => hfound e p (h.returned e p hmem) }
    have htable : ∀ e p, (e, p) ∈ (w.expver, w.path) :: s'.table w.process →
        Known s' (m.lines ++ [mapLine w.expver w.path]) e p := by
      intro e p hmem
      rcases List.mem_cons.mp hmem with heq | hmem
      · obtain ⟨rfl, rfl⟩ := Prod.mk.inj heq
        exact hw
      · exact hs'.tables w.process e p hmem
    have hset : (s'.setTable w.process ((w.expver, w.path) :: s'.table w.process)).Holds _ := holds_setTable hs' htable
    exact ⟨_, holds_return hset hw⟩

theorem holds_step (h : s.Holds m) (hsafe : s.Safe a) : ∃ m', (s.step a).Holds m' := by
  cases a with
  | call process expver maybe seen => exact ⟨m, holds_call h hsafe⟩
  | lock process => exact ⟨m, holds_lock h hsafe⟩
  | written => exact holds_written h

end Steps

/-- In a run of safe steps from a whole map file, all calls that return for an expver return one path, and the file
never has two entries for it. -/
theorem expver_agreed {calls : List ExpverStep} (h : Follows.Each Safe step m.start calls) :
    ∀ pre post, calls = pre ++ post → (pre.foldl step m.start).Agreed := by
  intro pre post heq
  have hstart : ∃ m', m.start.Holds m' := ⟨m, holds_start m⟩
  have hfollow := Follows.follows (f := fun (_ : Unit) (_ : ExpverStep) => ()) (R := fun _ _ s => ∃ m', s.Holds m') (s := ())
    (fun _ _ _ _ _ ⟨_, hs⟩ hsafe => holds_step hs hsafe) hstart h
  obtain ⟨m', hm'⟩ := hfollow pre post heq
  exact agreed_of_holds hm'

end ExpverSystem

/-- Two processes ask for a new expver; the second is given what the first has written. -/
def assignedTwice : List ExpverStep :=
  [.call 1 "0001".toList (some "/data1".toList) 0, .call 2 "0001".toList (some "/data2".toList) 0, .lock 1, .written, .lock 2,
    .call 3 "0001".toList (some "/data3".toList) 0]

/-- The map file of one line. -/
def commentFile : MapFile where
  lines := ["# expver filesystem".toList]
  plain := by decide +kernel
  single := by decide +kernel

theorem expver_agreed_assignedTwice :
    (assignedTwice.foldl ExpverSystem.step commentFile.start).returned = List.replicate 3 ("0001".toList, "/data1".toList) ∧
    ∀ pre post, assignedTwice = pre ++ post → (pre.foldl ExpverSystem.step commentFile.start).Agreed :=
  ⟨by decide +kernel, ExpverSystem.expver_agreed (by decide +kernel)⟩

/-- The second process loads the map file when two characters of the path are written. -/
def loadedEarly : List ExpverStep :=
  [.call 1 "0001".toList (some "/data1".toList) 0, .lock 1, .call 2 "0001".toList (some "/data2".toList) 7, .written]

/-- Two calls return two paths for one expver. -/
theorem expver_disagreed : ¬ (loadedEarly.foldl ExpverSystem.step { file := [] }).Agreed := by
  intro h
  have heq := h.one "0001".toList "/d".toList "/data1".toList (by decide +kernel) (by decide +kernel)
  cases heq

end Fdb5
