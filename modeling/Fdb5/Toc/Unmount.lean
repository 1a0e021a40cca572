import Fdb5.Toc.Clearing

/-! What an unmount hides, and when nothing else. -/
namespace Fdb5

open Effect

namespace TocHandler

variable {d d' : Disk} {flags : ReadFlags} {p q t : PathName} {log : List TocRecord}
  {version depth n m : Nat} {key : Key} {l : List Loaded}

/-- An index that was reached through the toc of another database. -/
def Loaded.isMounted (x : Loaded) : Bool := x.subToc.any fun q => q.baseName = masterName

/-- What is mounted is masked by the name of a database's toc, and nothing else is. -/
theorem isMounted_maskName (h : d.Overlaid) (hlog : d.toc p = some log)
    (hl : loadIndexesAndSubTocs d version depth p = .ok l) {x : Loaded} (hx : x ∈ l) :
    x.isMounted = true ↔ x.maskName = (masterName, 0) := by
  obtain ⟨r, hr, hvia, hname⟩ := exists_record_of_overlaid h hlog hl hx
  rw [Loaded.isMounted]
  cases hsub : x.subToc with
  | some q => simp [Loaded.maskName, hsub]
  | none =>
    rw [hsub] at hvia
    cases r with
    | init | clear | clearAll => cases hname
    | subToc path => cases hvia
    | index path offset e =>
      have hne := h.index p log hlog path offset e hr
      rw [← Option.some.inj (hname : some (path, offset) = some x.maskName)]
      simp [hne]

/-- A mask with the name of a database's toc hides what all databases show that are mounted. -/
theorem load_unmount (h : d.Overlaid) (hlog : d.toc p = some log)
    (hl : loadIndexesAndSubTocs d version depth p = .ok l) {path : StoredPath}
    (hpath : path.baseName = masterName) :
    loadIndexesAndSubTocs (d.append (.toc p (.clear path 0))) version depth p =
      .ok (l.filter fun x => !x.isMounted) := by
  obtain ⟨key, rest, hrest⟩ := h.init p log hlog
  set d' := d.append (.toc p (.clear path 0))
  have hex : ∀ q, d'.pathExists q = d.pathExists q := by
    intro q
    by_cases hq : p = q
    · subst hq
      simp [d', Write.onExists, Write.path, Disk.pathExists_of_toc hlog]
    · simp [d', Write.onExists, Write.path, hq]
  have hframed : Framed d d' p := by
    refine ⟨fun q hq => by rw [toc_append_same hlog, if_neg hq], fun q _ path _ _ => ?_⟩
    cases path <;> simp [subTocPath, hex]
  have hlog' : d'.toc p = some (log ++ [.clear path 0]) := by rw [toc_append_same hlog, if_pos rfl]
  have hadded : OnlyClears [.clear path 0] := fun r hr => ⟨path, 0, List.mem_singleton.mp hr⟩
  rw [load_cleared hframed hlog ⟨rest, hrest⟩ hlog' hadded hl]
  refine congrArg _ (List.filter_congr fun x hx => ?_)
  have hiff := isMounted_maskName h hlog hl hx
  have hnames : clearedNames [.clear path 0] = [(masterName, 0)] := by
    rw [← hpath]
    rfl
  by_cases hm : x.isMounted = true
  · simp [hm, hnames, hiff.mp hm]
  · simp [hm, hnames, mt hiff.mpr hm]

end TocHandler

open TocHandler

section Exact

variable {d d' : Disk} {version depth : Nat} {p other : PathName} {l : List Loaded}

theorem Disk.retrieve_loaded {k1 k2 : Key} (hf : d.faults = [])
    (hl : loadIndexesAndSubTocs d version depth p = .ok l) :
    d.retrieve version depth p k1 k2 = if k1.keys = ∅ then .ok none
      else TocCatalogueReader.findFrom d k2
        ((l.map fun x => (x.index, x.remapKey)).filter fun m => m.1.key.keys = k1.keys) := by
  refine retrieve_eq hf (by rw [loadIndexes_eq, hl]; rfl) fun m hm => ?_
  obtain ⟨x, hx, rfl⟩ := List.mem_map.mp hm
  exact isLoaded hl x hx

/-- The first of the indexes that answers the keys is `x`. -/
def AnsweredBy (d : Disk) (l : List Loaded) (k1 k2 : Key) (x : Loaded) : Prop :=
  ∃ pre post location, l.filter (fun x => x.index.key.keys = k1.keys) = pre ++ x :: post ∧
    (∀ y ∈ pre, TocIndex.find d k2 (y.index, y.remapKey) = .ok none) ∧
    TocIndex.find d k2 (x.index, x.remapKey) = .ok (some location)

/-- From one disk to the other the indexes of the mounted database `other` have gone, and nothing
else is different for a reader. -/
structure UnmountedExactly (version depth : Nat) (p other : PathName) (d d' : Disk) : Prop where
  visible : ∃ l, loadIndexesAndSubTocs d version depth p = .ok l ∧
    loadIndexesAndSubTocs d' version depth p = .ok (l.filter fun x => x.subToc ≠ some other)
  retrieve : ∀ l, loadIndexesAndSubTocs d version depth p = .ok l → ∀ k1 k2 x,
    AnsweredBy d l k1 k2 x → x.subToc ≠ some other →
      d'.retrieve version depth p k1 k2 = d.retrieve version depth p k1 k2

theorem findFrom_answered {k2 : Key} {x : Loaded} {location : FieldLocation}
    {pre : List Loaded} (post : List Loaded)
    (hpre : ∀ y ∈ pre, TocIndex.find d k2 (y.index, y.remapKey) = .ok none)
    (hx : TocIndex.find d k2 (x.index, x.remapKey) = .ok (some location)) :
    TocCatalogueReader.findFrom d k2 ((pre ++ x :: post).map fun x => (x.index, x.remapKey)) =
      .ok (some location) := by
  induction pre with
  | nil => simp [TocCatalogueReader.findFrom, hx, bind, Except.bind, pure, Except.pure]
  | cons y pre ih =>
    rw [List.cons_append, List.map_cons, TocCatalogueReader.findFrom, hpre y (.head _)]
    exact ih fun z hz => hpre z (.tail _ hz)

theorem find_congr {k : Key} {m : TocIndex BTreeHandle × Key}
    (h : ∀ p o, d'.segment p o = d.segment p o) : TocIndex.find d' k m = TocIndex.find d k m := by
  rw [TocIndex.find, TocIndex.find, h]

theorem retrieve_answered {k1 k2 : Key} {x : Loaded} {location : FieldLocation}
    {pre post : List Loaded} (hf : d.faults = [])
    (hl : loadIndexesAndSubTocs d version depth p = .ok l) (hk1 : k1.keys ≠ ∅)
    (hsplit : l.filter (fun x => x.index.key.keys = k1.keys) = pre ++ x :: post)
    (hpre : ∀ y ∈ pre, TocIndex.find d k2 (y.index, y.remapKey) = .ok none)
    (hx : TocIndex.find d k2 (x.index, x.remapKey) = .ok (some location)) :
    d.retrieve version depth p k1 k2 = .ok (some location) := by
  rw [Disk.retrieve_loaded hf hl, if_neg hk1, List.filter_map]
  have hfind := findFrom_answered post hpre hx
  rw [← hsplit] at hfind
  exact hfind

/-- Only a mounted database can be unmounted. -/
theorem TocCatalogueWriter.overlayDB_unmount {directory otherDirectory : String} {key otherKey : Key}
    {variableKeys : List String} (h : d.Overlaid)
    (hx : (overlayDB version depth directory key otherDirectory otherKey variableKeys true).run d =
      .ok () d') :
    ∃ log path l, d.toc (TocHandler.tocPath directory) = some log ∧
      loadIndexesAndSubTocs d version depth (TocHandler.tocPath directory) = .ok l ∧
      path.baseName = masterName ∧ d' = d.append (.toc (TocHandler.tocPath directory) (.clear path 0)) := by
  cases hlog : d.toc (TocHandler.tocPath directory) with
  | some log =>
    obtain ⟨hl, hd'⟩ := (ends_overlayDB h.faults hlog).ok hx
    obtain ⟨l, hl, -⟩ := hl rfl
    refine ⟨log, .of directory (TocHandler.tocPath otherDirectory), l, rfl, hl, ?_, hd'⟩
    rw [StoredPath.of]
    split <;> rfl
  | none =>
    have hends : Ends (overlayDB version depth directory key otherDirectory otherKey variableKeys
        true) d (fun _ _ => False) fun _ _ => True := by
      rw [overlayDB]
      simp only [ends_bind, ends_ite, ends_throw, implies_true, true_and, ends_lift, ends_get,
        and_true, not_true_eq_false, false_implies]
      intro _ _ _ _ l hl hmem
      rw [loadIndexesAndSubTocs] at hl
      split at hl
      · simp only [except_bind_ok] at hl
        obtain ⟨entries, he, -⟩ := hl
        cases depth <;> rw [TocHandler.read, hlog] at he <;> cases he
      · obtain rfl := except_pure_ok.mp hl
        cases hmem
    exact (hends.ok hx).elim

/-- Unmounting is exact if and only if each index that was visible through a mounted database was
visible through the one that is unmounted. -/
theorem unmounted_exactly_iff {conf : Config} {d₀ : Disk} {directory otherDirectory : String}
    {key otherKey : Key} {variableKeys : List String} (h₀ : d₀.Unmounted)
    (h : Overlays conf (fun _ _ => True) d₀ d)
    (hx : (TocCatalogueWriter.overlayDB conf.version conf.depth directory key otherDirectory otherKey
      variableKeys true).run d = .ok () d') :
    UnmountedExactly conf.version conf.depth (tocPath directory) (tocPath otherDirectory) d d' ↔
      ∀ l, loadIndexesAndSubTocs d conf.version conf.depth (tocPath directory) = .ok l →
        ∀ x ∈ l, ∀ q, x.subToc = some q → q.dirName ≠ directory → q = tocPath otherDirectory := by
  have hover := h.overlaid h₀.toOverlaid
  obtain ⟨log, path, l, hlog, hl, hpath, rfl⟩ := TocCatalogueWriter.overlayDB_unmount hover hx
  have hload := load_unmount hover hlog hl hpath
  have hmounted : ∀ x : Loaded, x.subToc = some (tocPath otherDirectory) → x.isMounted = true :=
    fun x he => by rw [Loaded.isMounted, he]; rfl
  constructor
  · rintro ⟨⟨_, hl', hafter⟩, -⟩ _ hl'' x hmem q hq hne
    cases hl.symm.trans hl'
    cases hl.symm.trans hl''
    rcases via_loaded hover hlog hl hmem hq with ⟨he, -⟩ | ⟨-, hname⟩
    · exact absurd he hne
    · by_contra hother
      have hkept : x ∈ l.filter fun x => x.subToc ≠ some (tocPath otherDirectory) :=
        List.mem_filter.mpr ⟨hmem, by simpa [hq] using hother⟩
      rw [← Except.ok.inj (hload.symm.trans hafter)] at hkept
      simpa [Loaded.isMounted, hq, hname] using (List.mem_filter.mp hkept).2
  · intro hcond
    have hfilter : l.filter (fun x => !x.isMounted) =
        l.filter fun x => x.subToc ≠ some (tocPath otherDirectory) := by
      refine List.filter_congr fun x hmem => ?_
      by_cases he : x.subToc = some (tocPath otherDirectory)
      · simp [hmounted x he, he]
      · have hnot : x.isMounted = false := by
          by_contra hm
          obtain ⟨q, hq, hname⟩ : ∃ q, x.subToc = some q ∧ q.baseName = masterName := by
            simpa [Loaded.isMounted, Option.any_eq_true] using hm
          rcases via_loaded hover hlog hl hmem hq with ⟨-, hne⟩ | ⟨hne, -⟩
          · exact hne hname
          · exact he (hq.trans (congrArg some (hcond l hl x hmem q hq hne)))
        simp [hnot, he]
    rw [hfilter] at hload
    refine ⟨⟨l, hl, hload⟩, fun _ hl' k1 k2 x hx hother => ?_⟩
    cases hl.symm.trans hl'
    obtain ⟨pre, post, location, hsplit, hpre, hfind⟩ := hx
    have hf : (d.append (.toc (tocPath directory) (.clear path 0))).faults = [] := hover.faults
    by_cases hk1 : k1.keys = ∅
    · rw [Disk.retrieve_loaded hf hload, Disk.retrieve_loaded hover.faults hl, if_pos hk1, if_pos hk1]
    · rw [retrieve_answered hover.faults hl hk1 hsplit hpre hfind]
      have hsegment : ∀ p o, (d.append (.toc (tocPath directory) (.clear path 0))).segment p o =
          d.segment p o := fun p o => by simp [Write.onSegment]
      have hsplit' : (l.filter fun x => x.subToc ≠ some (tocPath otherDirectory)).filter
          (fun x => x.index.key.keys = k1.keys) =
          (pre.filter fun x => x.subToc ≠ some (tocPath otherDirectory)) ++
            x :: post.filter fun x => x.subToc ≠ some (tocPath otherDirectory) := by
        rw [List.filter_comm, hsplit, List.filter_append, List.filter_cons_of_pos (by simpa using hother)]
      refine retrieve_answered hf hload hk1 hsplit' (fun y hy => ?_) ?_
      · rw [find_congr hsegment]
        exact hpre y (List.mem_of_mem_filter hy)
      · rw [find_congr hsegment, hfind]

end Exact

section TwoMounts

/-- Classes with one database each. -/
def rootOf (value : String) : String := "/" ++ value

def everyClass : Config where
  directory key := rootOf ((key.find "class").getD "")
  version := 2
  depth := 2
  schema := emptySchema

def indexName (value : String) : BaseName := ⟨value, some 0, ".index"⟩

/-- A database with one index. -/
def oneIndex (value : String) : List Write := [
  .schema (schemaPath (rootOf value)) emptySchema,
  .toc (tocPath (rootOf value)) (.init (classKey value)),
  .toc (tocPath (rootOf value)) (.index (indexName value) 0 someIndex)]

def threeDatabases : Disk where
  writes := oneIndex "od" ++ oneIndex "rd" ++ oneIndex "ea"

def withMount (d : Disk) (source : String) : Disk :=
  d.append (.toc (tocPath (rootOf "od")) (.subToc (.absolute (tocPath (rootOf source)))))

theorem withMount_accepted :
    ((mountOn "rd" "od").execute everyClass).run threeDatabases = .ok () (withMount threeDatabases "rd") ∧
      ((mountOn "ea" "od").execute everyClass).run (withMount threeDatabases "rd") =
        .ok () (withMount (withMount threeDatabases "rd") "ea") := ⟨rfl, rfl⟩

theorem toc_threeDatabases {p : PathName} {log : List TocRecord}
    (h : threeDatabases.toc p = some log) : p.baseName = masterName ∧
      ∃ value, log = [.init (classKey value), .index (indexName value) 0 someIndex] := by
  by_cases hod : p = tocPath (rootOf "od")
  · subst hod
    exact ⟨rfl, "od", (Option.some.inj h).symm⟩
  · by_cases hrd : p = tocPath (rootOf "rd")
    · subst hrd
      exact ⟨rfl, "rd", (Option.some.inj h).symm⟩
    · by_cases hea : p = tocPath (rootOf "ea")
      · subst hea
        exact ⟨rfl, "ea", (Option.some.inj h).symm⟩
      · simp [threeDatabases, oneIndex, Disk.toc, Write.onToc, Ne.symm hod, Ne.symm hrd,
          Ne.symm hea] at h

theorem threeDatabases_unmounted : threeDatabases.Unmounted := by
  refine ⟨⟨rfl, fun p log h => ?_, fun p log h path _ _ hr => ?_, fun p log h _ hr => ?_,
    fun p log h hp => ?_⟩, fun p log h _ hr => ?_⟩
  all_goals obtain ⟨hname, value, rfl⟩ := toc_threeDatabases h
  · exact ⟨_, _, rfl, by simp⟩
  · obtain ⟨rfl, -⟩ : path = indexName value ∧ _ := by simpa using hr
    simp [indexName, masterName]
  · simp at hr
  · exact absurd hname hp
  · simp at hr

/-- The first mounted database is unmounted again. -/
def withoutRd (d : Disk) : Disk :=
  d.append (.toc (tocPath (rootOf "od")) (.clear (.absolute (tocPath (rootOf "rd"))) 0))

def unmountRd : EStateM Failure Disk Unit :=
  TocCatalogueWriter.overlayDB 2 2 (rootOf "od") (classKey "od") (rootOf "rd") (classKey "rd")
    ["class"] true

/-- The sub-tocs through which the indexes of the database are visible. -/
def visibleThrough (d : Disk) : Except Failure (List (Option PathName)) :=
  (·.map Loaded.subToc) <$> loadIndexesAndSubTocs d 2 2 (tocPath (rootOf "od"))

theorem unmounted_exactly_rd : UnmountedExactly 2 2 (tocPath (rootOf "od")) (tocPath (rootOf "rd"))
    (withMount threeDatabases "rd") (withoutRd (withMount threeDatabases "rd")) := by
  have hrun : Overlays everyClass (fun _ _ => True) threeDatabases (withMount threeDatabases "rd") :=
    .step (.refl _) trivial withMount_accepted.1
  have haccepted : unmountRd.run (withMount threeDatabases "rd") =
    .ok () (withoutRd (withMount threeDatabases "rd")) := rfl
  refine (unmounted_exactly_iff threeDatabases_unmounted hrun haccepted).mpr ?_
  intro l hl x hx q hq hne
  have hvia : visibleThrough (withMount threeDatabases "rd") =
    .ok [some (tocPath (rootOf "rd")), none] := rfl
  rw [visibleThrough, show loadIndexesAndSubTocs _ 2 2 _ = .ok l from hl] at hvia
  have hmem : x.subToc ∈ l.map Loaded.subToc := List.mem_map_of_mem hx
  rw [show l.map Loaded.subToc = _ from Except.ok.inj hvia, hq] at hmem
  simpa using hmem

/-- Of two mounted databases both go when the first is unmounted. -/
theorem unmounted_both : ∃ d, threeDatabases.Unmounted ∧
    Overlays everyClass (fun _ _ => True) threeDatabases d ∧
    unmountRd.run d = .ok () (withoutRd d) ∧
    visibleThrough d = .ok [some (tocPath (rootOf "ea")), some (tocPath (rootOf "rd")), none] ∧
    visibleThrough (withoutRd d) = .ok [none] :=
  ⟨withMount (withMount threeDatabases "rd") "ea", threeDatabases_unmounted,
    .step (.step (.refl _) trivial withMount_accepted.1) trivial withMount_accepted.2, rfl, rfl, rfl⟩

end TwoMounts

end Fdb5
