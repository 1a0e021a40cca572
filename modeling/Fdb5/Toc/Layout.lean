import Fdb5.Toc.History

/-! The records of a master toc by what they show, and how this agrees with the history. -/
namespace Fdb5

open LastWins

/-- A record of a master toc: an index of a writer, the visible sub-toc of an open writer with its
segments, a sub-toc that is masked, or the mask. -/
inductive Item where
  | index (w : Nat) (seg : Segment)
  | subToc (w : Nat) (base : BaseName) (segs : List Segment)
  | masked (base : BaseName)
  | clear (base : BaseName)

namespace Item

def segs : Item → List Segment
  | index _ seg => [seg]
  | subToc _ _ segs => segs
  | masked _ | clear _ => []

def writer : Item → Option Nat
  | index w _ | subToc w _ _ => some w
  | masked _ | clear _ => none

def subTocOf : Item → Option Nat
  | subToc w _ _ => some w
  | _ => none

end Item

/-- The fields of the segments under an index key. -/
def Segment.under (κ : StringDict) (segs : List Segment) : List Put :=
  (segs.filter fun seg => seg.index = κ).flatMap (·.puts)

/-- The fields that a reader can see under an index key, the later ones last. -/
def visible (items : List Item) (κ : StringDict) : List Put :=
  Segment.under κ (items.flatMap Item.segs)

section Visible

variable {κ κ' : StringDict} {segs segs' : List Segment} {seg : Segment} {items items' : List Item}

@[simp] theorem Segment.under_nil : Segment.under κ [] = [] := rfl

@[simp] theorem Segment.under_append :
    Segment.under κ (segs ++ segs') = Segment.under κ segs ++ Segment.under κ segs' := by
  simp [under]

theorem Segment.under_singleton :
    Segment.under κ [seg] = if seg.index = κ then seg.puts else [] := by
  by_cases h : seg.index = κ <;> simp [under, h]

theorem Segment.mem_under {p : Put} :
    p ∈ Segment.under κ segs ↔ ∃ seg ∈ segs, seg.index = κ ∧ p ∈ seg.puts := by
  simp [under, and_assoc]

@[simp] theorem visible_nil : visible [] κ = [] := rfl

@[simp] theorem visible_append : visible (items ++ items') κ = visible items κ ++ visible items' κ := by
  simp [visible]

@[simp] theorem visible_cons {item : Item} :
    visible (item :: items) κ = Segment.under κ item.segs ++ visible items κ := by
  simp [visible]

theorem mem_visible {p : Put} : p ∈ visible items κ ↔
    ∃ item ∈ items, ∃ seg ∈ item.segs, seg.index = κ ∧ p ∈ seg.puts := by
  rw [visible, Segment.mem_under]
  simp only [List.mem_flatMap]
  constructor
  · rintro ⟨seg, ⟨item, hi, hs⟩, h⟩
    exact ⟨item, hi, seg, hs, h⟩
  · rintro ⟨item, hi, seg, hs, h⟩
    exact ⟨seg, ⟨item, hi, hs⟩, h⟩

end Visible

/-- Without sub-tocs the master toc shows what was flushed, in the same order. -/
def ShowsAll (H : History) (items : List Item) : Prop :=
  ∀ κ, visible items κ = (H.flushed κ).map (·.2)

/-- With sub-tocs: each open writer has at most one, which shows what the writer flushed. -/
structure Shows (H : History) (items : List Item) : Prop where
  archived : ∀ item ∈ items, ∀ seg ∈ item.segs, ∀ p ∈ seg.puts, ∃ w, item.writer = some w ∧
    ∃ a ∈ H.archived, a.writer = w ∧ a.index.keys = seg.index ∧ a.put = p
  own : ∀ w base segs, .subToc w base segs ∈ items →
    w ∈ H.live ∧ ∀ κ, Segment.under κ segs = H.flushedBy w κ
  none : ∀ w ∈ H.live, (∀ base segs, .subToc w base segs ∉ items) → ∀ κ, H.flushedBy w κ = []
  met : items.Pairwise fun x y => ∀ w, x.subTocOf = some w → ∀ v, y.writer = some v →
    v ≠ w ∧ H.Met v w
  last : ∀ κ fingerprint, H.Exclusive κ fingerprint →
    (visible items κ).findRev? (fun p => p.fingerprint = fingerprint) =
      ((H.flushed κ).map (·.2)).findRev? (fun p => p.fingerprint = fingerprint)

namespace Shows

variable {H H' : History} {items pre post : List Item} {w : Nat} {base : BaseName}
  {segs : List Segment} {κ : StringDict} {fingerprint : String}

theorem empty : Shows {} [] := by
  constructor <;> simp [visible]

/-- What holds survives a step that flushes nothing. -/
theorem mono (h : Shows H items) (hf : H'.flushed = H.flushed)
    (ha : ∀ a ∈ H.archived, a ∈ H'.archived) (hm : ∀ u v, H.Met u v → H'.Met u v)
    (hl : ∀ w ∈ H.live, w ∈ H'.live) (hn : ∀ w ∈ H'.live, w ∉ H.live → ∀ κ, H.flushedBy w κ = []) :
    Shows H' items := by
  have hby : ∀ w κ, H'.flushedBy w κ = H.flushedBy w κ := fun w κ => by
    rw [History.flushedBy, hf, History.flushedBy]
  refine ⟨fun item hi seg hs p hp => ?_, fun w base segs hi => ?_, fun w hw hno κ => ?_, ?_,
    fun κ fingerprint hx => ?_⟩
  · obtain ⟨w, hw, a, haa, hrest⟩ := h.archived item hi seg hs p hp
    exact ⟨w, hw, a, ha a haa, hrest⟩
  · obtain ⟨hw, hκ⟩ := h.own w base segs hi
    exact ⟨hl w hw, fun κ => by rw [hκ, hby]⟩
  · rw [hby]
    by_cases hold : w ∈ H.live
    · exact h.none w hold hno κ
    · exact hn w hw hold κ
  · exact h.met.imp fun hxy w hw v hv => (hxy w hw v hv).imp id (hm _ _)
  · rw [hf]
    exact h.last κ fingerprint (hx.mono ha hm)

/-- After a writer's sub-toc come no fields of a fingerprint that it archived itself. -/
theorem findRev?_after (h : Shows H (pre ++ .subToc w base segs :: post))
    (hx : H.Exclusive κ fingerprint) {a : Archived} (ha : a ∈ H.archived) (haw : a.writer = w)
    (haκ : a.index.keys = κ) (hap : a.put.fingerprint = fingerprint) :
    (visible post κ).findRev? (fun p => p.fingerprint = fingerprint) = .none := by
  cases hfind : (visible post κ).findRev? (fun p => p.fingerprint = fingerprint) with
  | none => rfl
  | some q =>
    obtain ⟨hq, hqf⟩ := findRev?_mem hfind
    obtain ⟨item, hi, seg, hs, hκ, hp⟩ := mem_visible.mp hq
    obtain ⟨v, hv, b, hb, hbv, hbκ, hbp⟩ :=
      h.archived item (by simp [hi]) seg hs q hp
    have hmet := (List.pairwise_cons.mp (List.pairwise_append.mp h.met).2.1).1 item hi w rfl v hv
    refine absurd ?_ (hx b hb a ha (hbκ.trans hκ) haκ (by rw [hbp]; simpa using hqf) hap)
    rw [hbv, haw]
    exact hmet.2

/-- Other sub-tocs are of other writers. -/
theorem other_writer (h : Shows H (pre ++ .subToc w base segs :: post)) {item : Item}
    (hi : item ∈ pre ++ post) {v : Nat} (hv : item.subTocOf = some v) : v ≠ w := by
  obtain ⟨-, hpost, hcross⟩ := List.pairwise_append.mp h.met
  rcases List.mem_append.mp hi with hi | hi
  · exact fun he => (hcross item hi _ List.mem_cons_self v hv w rfl).1 he.symm
  · have hw : item.writer = some v := by
      cases item with
      | subToc => exact hv
      | index | masked | clear => cases hv
    exact ((List.pairwise_cons.mp hpost).1 item hi w rfl v hw).1

/-- A flush of one index puts its segment at the end of the writer's sub-toc. -/
theorem publish (h : Shows H (pre ++ .subToc w base segs :: post)) (hf : History.Facts H) :
    Shows (H.publish w κ)
      (pre ++ .subToc w base (segs ++ [⟨κ, H.pending w κ⟩]) :: post) := by
  have hw := h.own w base segs (by simp)
  have hold : ∀ item ∈ pre ++ .subToc w base (segs ++ [⟨κ, H.pending w κ⟩]) :: post,
      item ∈ pre ++ post ∨ item = .subToc w base (segs ++ [⟨κ, H.pending w κ⟩]) := by
    intro item hi
    simp only [List.mem_append, List.mem_cons] at hi ⊢
    tauto
  have hmem : ∀ item ∈ pre ++ post, item ∈ pre ++ .subToc w base segs :: post := by
    intro item hi
    simp only [List.mem_append, List.mem_cons] at hi ⊢
    tauto
  refine ⟨fun item hi seg hs p hp => ?_, fun v base' segs' hi => ?_, fun v hv hno κ' => ?_, ?_,
    fun κ' fingerprint hx => ?_⟩
  · rcases hold item hi with hi | rfl
    · exact h.archived item (hmem item hi) seg hs p hp
    · rcases List.mem_append.mp hs with hs | hs
      · exact h.archived (.subToc w base segs) (by simp) seg hs p hp
      · rw [List.mem_singleton.mp hs] at hp ⊢
        obtain ⟨a, ha, hrest⟩ := hf.pending w κ p hp
        exact ⟨w, rfl, a, ha, hrest⟩
  · rcases hold _ hi with hi | hi
    · obtain ⟨hv, hκ⟩ := h.own v base' segs' (hmem _ hi)
      refine ⟨hv, fun κ' => ?_⟩
      rw [hκ, History.flushedBy_publish, if_neg fun he => h.other_writer hi rfl he.1]
    · cases hi
      refine ⟨hw.1, fun κ' => ?_⟩
      rw [Segment.under_append, Segment.under_singleton, hw.2, History.flushedBy_publish]
      by_cases hκ : κ' = κ
      · simp [hκ]
      · have : ¬ κ = κ' := fun he => hκ he.symm
        simp [hκ, this]
  · have hne : v ≠ w := by
      rintro rfl
      exact hno base (segs ++ [⟨κ, H.pending v κ⟩]) (by simp)
    rw [History.flushedBy_publish, if_neg fun he => hne he.1]
    refine h.none v hv (fun base' segs' hi => ?_) κ'
    simp only [List.mem_append, List.mem_cons, Item.subToc.injEq, hne, false_and, false_or] at hi
    refine hno base' segs' ?_
    rw [List.mem_append, List.mem_cons]
    exact hi.imp id .inr
  · obtain ⟨hpre, hpost, hcross⟩ := List.pairwise_append.mp h.met
    refine List.pairwise_append.mpr ⟨hpre, List.pairwise_cons.mpr (List.pairwise_cons.mp hpost), ?_⟩
    intro x hx y hy
    rcases List.mem_cons.mp hy with rfl | hy
    · exact fun u hu v hv => hcross x hx (.subToc w base segs) List.mem_cons_self u hu v hv
    · exact hcross x hx y (List.mem_cons_of_mem _ hy)
  · have hlast := h.last κ' fingerprint hx
    have hflushed : (H.publish w κ).flushed κ' = _ := History.flushed_publish
    rw [hflushed]
    simp only [visible_append, visible_cons, Item.segs, Segment.under_append,
      Segment.under_singleton, findRev?_append] at hlast ⊢
    by_cases hκ : κ' = κ
    · subst hκ
      simp only [if_true, List.map_append, List.map_map, findRev?_append, ← hlast]
      rw [show ((fun f : Nat × Put => f.2) ∘ fun p => (w, p)) = id from rfl, List.map_id]
      cases hp : (H.pending w κ').findRev? (fun p => p.fingerprint = fingerprint) with
      | none => simp
      | some p =>
        obtain ⟨hmem, hfp⟩ := findRev?_mem hp
        obtain ⟨a, ha, haw, haκ, hap⟩ := hf.pending w κ' p hmem
        rw [h.findRev?_after hx ha haw haκ (by rw [hap]; simpa using hfp)]
        simp
    · have : ¬ κ = κ' := fun he => hκ he.symm
      simpa [hκ, this] using hlast

/-- A sub-toc is begun, with nothing in it yet. -/
theorem begin (h : Shows H items) (hf : History.Facts H) (hw : w ∈ H.live)
    (hno : ∀ base segs, .subToc w base segs ∉ items) : Shows H (items ++ [.subToc w base []]) := by
  refine ⟨fun item hi seg hs p hp => ?_, fun v base' segs' hi => ?_, fun v hv hno' => ?_, ?_,
    fun κ fingerprint hx => ?_⟩
  · rcases List.mem_append.mp hi with hi | hi
    · exact h.archived item hi seg hs p hp
    · rw [List.mem_singleton.mp hi] at hs
      simp [Item.segs] at hs
  · rcases List.mem_append.mp hi with hi | hi
    · exact h.own v base' segs' hi
    · cases List.mem_singleton.mp hi
      exact ⟨hw, fun κ => (h.none _ hw hno κ).symm⟩
  · exact h.none v hv fun base' segs' hi => hno' base' segs' (List.mem_append_left _ hi)
  · refine List.pairwise_append.mpr ⟨h.met, List.pairwise_singleton _ _, fun x hx y hy v hv u hu => ?_⟩
    rw [List.mem_singleton.mp hy] at hu
    cases hu
    cases x with
    | subToc v' base' segs' =>
      obtain rfl : v' = v := Option.some.inj hv
      have hne : w ≠ v' := by
        rintro rfl
        exact hno base' segs' hx
      exact ⟨hne, hf.met w hw v' (h.own v' base' segs' hx).1 hne⟩
    | index | masked | clear => cases hv
  · simpa [Item.segs] using h.last κ fingerprint hx

/-- Closing a writer masks its sub-toc and appends indexes with all that the writer was given. -/
theorem compact (h : Shows H (pre ++ .subToc w base segs :: post)) (hf : History.Facts H)
    (hp : ∀ κ, H.pending w κ = []) {fulls : List Segment}
    (hfulls : ∀ κ, Segment.under κ fulls = H.puts w κ) :
    Shows { H with live := H.live.erase w }
      (pre ++ .masked base :: post ++ fulls.map (.index w) ++ [.clear base]) := by
  have hw := h.own w base segs (by simp)
  have hputs : ∀ κ, Segment.under κ fulls = H.flushedBy w κ := fun κ => by
    rw [hfulls, hf.puts w hw.1, hp, List.append_nil]
  have hcase : ∀ item ∈ pre ++ .masked base :: post ++ fulls.map (.index w) ++ [.clear base],
      item ∈ pre ++ post ∨ (∃ seg ∈ fulls, item = .index w seg) ∨ item = .masked base ∨
        item = .clear base := by
    intro item hi
    simp only [List.mem_append, List.mem_cons, List.mem_map, List.not_mem_nil, or_false] at hi ⊢
    aesop
  have hmem : ∀ item ∈ pre ++ post, item ∈ pre ++ .subToc w base segs :: post := by
    intro item hi
    simp only [List.mem_append, List.mem_cons] at hi ⊢
    tauto
  refine ⟨fun item hi seg hs p hp => ?_, fun v base' segs' hi => ?_, fun v hv hno κ => ?_, ?_,
    fun κ fingerprint hx => ?_⟩
  · rcases hcase item hi with hi | ⟨seg', hseg', rfl⟩ | rfl | rfl
    · exact h.archived item (hmem item hi) seg hs p hp
    · cases List.mem_singleton.mp hs
      have hm : p ∈ Segment.under seg.index fulls := Segment.mem_under.mpr ⟨seg, hseg', rfl, hp⟩
      rw [hputs, History.flushedBy, List.mem_map] at hm
      obtain ⟨f, hfm, rfl⟩ := hm
      obtain ⟨hfm, hfw⟩ := List.mem_filter.mp hfm
      obtain ⟨a, ha, haw, hrest⟩ := hf.flushed _ f hfm
      exact ⟨w, rfl, a, ha, haw.trans (of_decide_eq_true hfw), hrest⟩
    · simp [Item.segs] at hs
    · simp [Item.segs] at hs
  · rcases hcase _ hi with hi | ⟨seg', -, he⟩ | he | he
    · obtain ⟨hv, hκ⟩ := h.own v base' segs' (hmem _ hi)
      exact ⟨(List.mem_erase_of_ne (h.other_writer hi rfl)).mpr hv, hκ⟩
    · cases he
    · cases he
    · cases he
  · obtain ⟨hne, hv⟩ := hf.nodup.mem_erase_iff.mp hv
    refine h.none v hv (fun base' segs' hi => hno base' segs' ?_) κ
    simp only [List.mem_append, List.mem_cons, Item.subToc.injEq, hne, false_and, false_or] at hi
    simp [hi]
  · obtain ⟨hpre, hpost, hcross⟩ := List.pairwise_append.mp h.met
    have hmasked : (pre ++ .masked base :: post).Pairwise fun x y =>
        ∀ w, x.subTocOf = some w → ∀ v, y.writer = some v → v ≠ w ∧ H.Met v w := by
      refine List.pairwise_append.mpr ⟨hpre, List.pairwise_cons.mpr ⟨by simp [Item.subTocOf],
        (List.pairwise_cons.mp hpost).2⟩, fun x hx y hy => ?_⟩
      rcases List.mem_cons.mp hy with rfl | hy
      · simp [Item.writer]
      · exact hcross x hx y (List.mem_cons_of_mem _ hy)
    have hquiet : ∀ x ∈ pre ++ .masked base :: post, ∀ v, x.subTocOf = some v →
        w ≠ v ∧ H.Met w v := by
      intro x hx v hv
      have hx' : x ∈ pre ++ post := by
        simp only [List.mem_append, List.mem_cons] at hx ⊢
        rcases hx with hx | rfl | hx
        · exact .inl hx
        · cases hv
        · exact .inr hx
      cases x with
      | subToc v' base' segs' =>
        obtain rfl : v' = v := Option.some.inj hv
        have hne := h.other_writer hx' rfl
        exact ⟨hne.symm, hf.met w hw.1 v' (h.own v' base' segs' (hmem _ hx')).1 hne.symm⟩
      | index | masked | clear => cases hv
    refine List.pairwise_append.mpr ⟨List.pairwise_append.mpr ⟨hmasked, ?_, ?_⟩,
      List.pairwise_singleton _ _, ?_⟩
    · exact List.pairwise_map.mpr (List.pairwise_of_forall fun x y => by simp [Item.subTocOf])
    · intro x hx y hy v hv u hu
      obtain ⟨seg, -, rfl⟩ := List.mem_map.mp hy
      cases hu
      exact hquiet x hx v hv
    · intro x _ y hy v _ u hu
      rw [List.mem_singleton.mp hy] at hu
      cases hu
  · have hlast := h.last κ fingerprint hx
    have hshown : visible (fulls.map (.index w)) κ = H.flushedBy w κ := by
      rw [← hputs, visible, List.flatMap_map]
      simp [Item.segs]
    simp only [visible_append, visible_cons, visible_nil, Item.segs, Segment.under_nil, hshown, hw.2,
      List.nil_append, List.append_nil, findRev?_append] at hlast ⊢
    cases hown : (H.flushedBy w κ).findRev? (fun p => p.fingerprint = fingerprint) with
    | none =>
      rw [hown] at hlast
      simpa using hlast
    | some p =>
      rw [History.last_own hf hx hw.1 hown]
      rfl

end Shows

theorem ShowsAll.publish {H : History} {items : List Item} {w : Nat} {κ : StringDict}
    (h : ShowsAll H items) :
    ShowsAll (H.publish w κ) (items ++ [.index w ⟨κ, H.pending w κ⟩]) := by
  intro κ'
  have hf : (H.publish w κ).flushed κ' = _ := History.flushed_publish
  rw [hf, visible_append, h κ', visible_cons, Item.segs, Segment.under_singleton]
  by_cases hκ : κ' = κ
  · subst hκ
    simp [visible, Function.comp_def]
  · have : ¬ κ = κ' := fun he => hκ he.symm
    simp [visible, hκ, this]

end Fdb5
