import Fdb5.Library.LastWins
import Fdb5.Toc.Reader

/-! What was archived and flushed through the catalogue writers of a database, and the segments
that its tocs show. -/
namespace Fdb5

open LastWins

/-- A call on a catalogue writer; each number names one writer, which is built once. -/
inductive Call where
  | build (w : Nat) (key : Key)
  | selectIndex (w : Nat) (key : Key)
  | deselectIndex (w : Nat)
  | archive (w : Nat) (key : Key) (location : FieldLocation)
  | flush (w : Nat)
  | close (w : Nat)

/-- A field archived by a writer under an index key. -/
structure Archived where
  writer : Nat
  index : Key
  put : Put

/-- What the calls so far mean, whatever the tocs look like: `flushed` are the fields of an index
key that were flushed, in order and with their writers; `met` are the pairs of writers that were
open at the same time. -/
structure History where
  built : List Nat := []
  live : List Nat := []
  met : List (Nat × Nat) := []
  selected : Nat → Key := fun _ => {}
  archived : List Archived := []
  puts : Nat → StringDict → List Put := fun _ _ => []
  pending : Nat → StringDict → List Put := fun _ _ => []
  flushed : StringDict → List (Nat × Put) := fun _ => []

namespace History

def archive (H : History) (w : Nat) (p : Put) : History :=
  let κ := (H.selected w).keys
  { H with
    archived := H.archived ++ [⟨w, H.selected w, p⟩]
    puts := Function.update H.puts w (Function.update (H.puts w) κ (H.puts w κ ++ [p]))
    pending := Function.update H.pending w
      (Function.update (H.pending w) κ (H.pending w κ ++ [p])) }

def flush (H : History) (w : Nat) : History :=
  { H with
    flushed := fun κ => H.flushed κ ++ (H.pending w κ).map (w, ·)
    pending := Function.update H.pending w fun _ => [] }

def step (H : History) : Call → History
  | .build w _ =>
    if w ∈ H.built then H
    else
      { H with
        built := w :: H.built
        live := w :: H.live
        met := H.met ++ H.live.map (·, w) }
  | .selectIndex w key =>
    if w ∈ H.live then { H with selected := Function.update H.selected w key } else H
  | .deselectIndex w =>
    if w ∈ H.live then { H with selected := Function.update H.selected w {} } else H
  | .archive w key location =>
    if w ∈ H.live ∧ (H.selected w).empty = false then H.archive w ⟨key, location⟩ else H
  | .flush w => if w ∈ H.live then H.flush w else H
  | .close w => if w ∈ H.live then { H.flush w with live := H.live.erase w } else H

def of (calls : List Call) : History := calls.foldl step {}

/-- The last field archived as `(k1, k2)` that a flush followed. -/
def last (H : History) (k1 k2 : Key) : Option Put :=
  (((H.flushed k1.keys).map (·.2)).findRev? fun p => p.key.canonicalValues = k2.canonicalValues)

/-- The writers were open at the same time. -/
def Met (H : History) (v w : Nat) : Prop := (v, w) ∈ H.met ∨ (w, v) ∈ H.met

/-- No field with the fingerprint is archived under the index key by two writers that were open at
the same time. -/
def Exclusive (H : History) (κ : StringDict) (fingerprint : String) : Prop :=
  ∀ a ∈ H.archived, ∀ b ∈ H.archived, a.index.keys = κ → b.index.keys = κ →
    a.put.fingerprint = fingerprint → b.put.fingerprint = fingerprint → ¬ H.Met a.writer b.writer

/-- One index of the writer is flushed. -/
def publish (H : History) (w : Nat) (κ : StringDict) : History :=
  { H with
    flushed := Function.update H.flushed κ (H.flushed κ ++ (H.pending w κ).map (w, ·))
    pending := Function.update H.pending w (Function.update (H.pending w) κ []) }

/-- The fields of an index key that a writer flushed. -/
def flushedBy (H : History) (w : Nat) (κ : StringDict) : List Put :=
  ((H.flushed κ).filter fun f => f.1 = w).map (·.2)

/-- What holds of the history of any calls. -/
structure Facts (H : History) : Prop where
  built : ∀ w ∈ H.live, w ∈ H.built
  nodup : H.live.Nodup
  unbuilt : ∀ w, w ∉ H.built → ∀ κ, H.puts w κ = [] ∧ H.pending w κ = [] ∧ H.flushedBy w κ = []
  puts : ∀ w ∈ H.live, ∀ κ, H.puts w κ = H.flushedBy w κ ++ H.pending w κ
  flushed : ∀ κ, ∀ f ∈ H.flushed κ,
    ∃ a ∈ H.archived, a.writer = f.1 ∧ a.index.keys = κ ∧ a.put = f.2
  pending : ∀ w κ, ∀ p ∈ H.pending w κ,
    ∃ a ∈ H.archived, a.writer = w ∧ a.index.keys = κ ∧ a.put = p
  met : ∀ v ∈ H.live, ∀ w ∈ H.live, v ≠ w → H.Met v w
  tenure : ∀ w ∈ H.live, ∀ κ, ∃ pre post, H.flushed κ = pre ++ post ∧ (∀ f ∈ pre, f.1 ≠ w) ∧
    ∀ f ∈ post, f.1 = w ∨ H.Met f.1 w

variable {H : History} {w v : Nat} {κ κ' : StringDict} {p : Put}

theorem facts_empty : Facts {} := by
  constructor <;> simp [flushedBy]

theorem flushed_publish : (H.publish w κ).flushed κ' =
    if κ' = κ then H.flushed κ ++ (H.pending w κ).map (w, ·) else H.flushed κ' := by
  by_cases h : κ' = κ <;> simp [publish, Function.update, h]

theorem pending_publish : (H.publish w κ).pending v κ' =
    if v = w ∧ κ' = κ then [] else H.pending v κ' := by
  by_cases hv : v = w
  · subst hv
    by_cases h : κ' = κ <;> simp [publish, Function.update, h]
  · simp [publish, Function.update, hv]

theorem publish_nil (h : H.pending w κ = []) : H.publish w κ = H := by
  have hpending : Function.update (H.pending w) κ [] = H.pending w := by
    rw [← h, Function.update_eq_self]
  rw [publish, h, List.map_nil, List.append_nil, hpending, Function.update_eq_self, Function.update_eq_self]

theorem flushedBy_publish : (H.publish w κ).flushedBy v κ' =
    if v = w ∧ κ' = κ then H.flushedBy w κ ++ H.pending w κ else H.flushedBy v κ' := by
  rw [flushedBy, flushed_publish]
  by_cases h : κ' = κ
  · subst h
    by_cases hv : v = w
    · subst hv
      simp [flushedBy, List.filter_map, Function.comp_def]
    · have : ¬ w = v := fun he => hv he.symm
      simp [flushedBy, List.filter_map, Function.comp_def, hv, this]
  · simp [h, flushedBy]

namespace Facts

theorem publish (h : Facts H) (hw : w ∈ H.live) : Facts (H.publish w κ) := by
  refine ⟨h.built, h.nodup, fun v hv κ' => ?_, fun v hv κ' => ?_, fun κ' f hf => ?_,
    fun v κ' p hp => ?_, h.met, fun v hv κ' => ?_⟩
  · have hne : v ≠ w := fun he => hv (he ▸ h.built w hw)
    rw [pending_publish, flushedBy_publish, if_neg fun he => hne he.1, if_neg fun he => hne he.1]
    exact h.unbuilt v hv κ'
  · rw [pending_publish, flushedBy_publish]
    by_cases he : v = w ∧ κ' = κ
    · obtain ⟨rfl, rfl⟩ := he
      change H.puts v κ' = _
      simpa using h.puts v hv κ'
    · rw [if_neg he, if_neg he]
      exact h.puts v hv κ'
  · rw [flushed_publish] at hf
    split at hf
    · rename_i he
      subst he
      rcases List.mem_append.mp hf with hf | hf
      · exact h.flushed κ' f hf
      · obtain ⟨p, hp, rfl⟩ := List.mem_map.mp hf
        exact h.pending w κ' p hp
    · exact h.flushed κ' f hf
  · rw [pending_publish] at hp
    split at hp
    · simp at hp
    · exact h.pending v κ' p hp
  · obtain ⟨pre, post, hflushed, hpre, hpost⟩ := h.tenure v hv κ'
    rw [flushed_publish]
    split
    · rename_i he
      subst he
      refine ⟨pre, post ++ (H.pending w κ').map (w, ·), by rw [hflushed, List.append_assoc], hpre,
        fun f hf => ?_⟩
      rcases List.mem_append.mp hf with hf | hf
      · exact hpost f hf
      · obtain ⟨p, -, rfl⟩ := List.mem_map.mp hf
        by_cases he : w = v
        · exact .inl he
        · exact .inr (h.met w hw v hv he)
    · exact ⟨pre, post, hflushed, hpre, hpost⟩

theorem archive (h : Facts H) (hw : w ∈ H.live) : Facts (H.archive w p) := by
  have hold : ∀ a ∈ H.archived, a ∈ (H.archive w p).archived := fun a ha =>
    List.mem_append_left _ ha
  have hputs : ∀ v κ, (H.archive w p).puts v κ =
      if v = w ∧ κ = (H.selected w).keys then H.puts v κ ++ [p] else H.puts v κ := by
    intro v κ
    by_cases hv : v = w <;> by_cases hκ : κ = (H.selected w).keys <;>
      simp [History.archive, Function.update, hv, hκ]
  have hpending : ∀ v κ, (H.archive w p).pending v κ =
      if v = w ∧ κ = (H.selected w).keys then H.pending v κ ++ [p] else H.pending v κ := by
    intro v κ
    by_cases hv : v = w <;> by_cases hκ : κ = (H.selected w).keys <;>
      simp [History.archive, Function.update, hv, hκ]
  refine ⟨h.built, h.nodup, fun v hv κ => ?_, fun v hv κ => ?_, fun κ f hf => ?_,
    fun v κ q hq => ?_, h.met, h.tenure⟩
  · have hne : v ≠ w := fun he => hv (he ▸ h.built w hw)
    rw [hputs, hpending, if_neg fun he => hne he.1, if_neg fun he => hne he.1]
    exact h.unbuilt v hv κ
  · have := h.puts v hv κ
    rw [hputs, hpending]
    split
    · rw [this, List.append_assoc]
      rfl
    · exact this
  · obtain ⟨a, ha, hrest⟩ := h.flushed κ f hf
    exact ⟨a, hold a ha, hrest⟩
  · have hcase : q ∈ H.pending v κ ∨ v = w ∧ κ = (H.selected w).keys ∧ q = p := by
      rw [hpending] at hq
      split at hq
      · rename_i he
        rcases List.mem_append.mp hq with hq | hq
        · exact .inl hq
        · exact .inr ⟨he.1, he.2, List.mem_singleton.mp hq⟩
      · exact .inl hq
    rcases hcase with hq | ⟨rfl, rfl, rfl⟩
    · obtain ⟨a, ha, hrest⟩ := h.pending v κ q hq
      exact ⟨a, hold a ha, hrest⟩
    · exact ⟨⟨v, H.selected v, q⟩, by simp [History.archive], rfl, rfl, rfl⟩

theorem build {key : Key} (h : Facts H) (hw : w ∉ H.built) : Facts (H.step (.build w key)) := by
  rw [step, if_neg hw]
  have hlive : w ∉ H.live := fun hl => hw (h.built w hl)
  have hmet : ∀ {u v}, H.Met u v → Met { H with
      built := w :: H.built, live := w :: H.live, met := H.met ++ H.live.map (·, w) } u v :=
    fun hm => hm.imp (List.mem_append_left _) (List.mem_append_left _)
  have hfresh : ∀ κ, ∀ f ∈ H.flushed κ, f.1 ≠ w := by
    rintro κ ⟨v, p⟩ hf rfl
    have hmem : p ∈ H.flushedBy v κ := List.mem_map.mpr ⟨(v, p), by simpa using hf, rfl⟩
    rw [(h.unbuilt v hw κ).2.2] at hmem
    simp at hmem
  refine ⟨fun v hv => ?_, List.nodup_cons.mpr ⟨hlive, h.nodup⟩,
    fun v hv κ => h.unbuilt v (fun hm => hv (.tail _ hm)) κ, fun v hv κ => ?_, h.flushed, h.pending,
    fun u hu v hv hne => ?_, fun v hv κ => ?_⟩
  · rcases List.mem_cons.mp hv with rfl | hv
    · exact .head _
    · exact .tail _ (h.built v hv)
  · rcases List.mem_cons.mp hv with rfl | hv
    · obtain ⟨h₁, h₂, h₃⟩ := h.unbuilt v hw κ
      change H.puts v κ = H.flushedBy v κ ++ H.pending v κ
      rw [h₁, h₂, h₃]
      rfl
    · exact h.puts v hv κ
  · rcases List.mem_cons.mp hu with hu | hu <;> rcases List.mem_cons.mp hv with hv | hv
    · exact absurd (hu.trans hv.symm) hne
    · exact .inr (List.mem_append_right _ (List.mem_map.mpr ⟨v, hv, by rw [hu]⟩))
    · exact .inl (List.mem_append_right _ (List.mem_map.mpr ⟨u, hu, by rw [hv]⟩))
    · exact hmet (h.met u hu v hv hne)
  · rcases List.mem_cons.mp hv with rfl | hv
    · exact ⟨H.flushed κ, [], by simp, hfresh κ, by simp⟩
    · obtain ⟨pre, post, hf, hpre, hpost⟩ := h.tenure v hv κ
      exact ⟨pre, post, hf, hpre, fun f hf => (hpost f hf).imp id hmet⟩

theorem close (h : Facts H) :
    Facts { H with live := H.live.erase w } :=
  have hsub : ∀ v ∈ H.live.erase w, v ∈ H.live := fun _ hv => List.mem_of_mem_erase hv
  ⟨fun _ hv => h.built _ (hsub _ hv), h.nodup.erase w, h.unbuilt, fun _ hv => h.puts _ (hsub _ hv),
    h.flushed, h.pending, fun _ hu _ hv => h.met _ (hsub _ hu) _ (hsub _ hv),
    fun _ hv => h.tenure _ (hsub _ hv)⟩

end Facts

/-- Flushing each index that has something pending is a flush of the writer. -/
theorem foldl_publish {l : List StringDict} : l.foldl (fun H κ => H.publish w κ) H =
    { H with
      flushed := fun κ => if κ ∈ l then H.flushed κ ++ (H.pending w κ).map (w, ·) else H.flushed κ
      pending := Function.update H.pending w
        (fun κ => if κ ∈ l then [] else H.pending w κ) } := by
  induction l generalizing H with
  | nil => simp
  | cons κ l ih =>
    rw [List.foldl_cons, ih]
    have hf : ∀ κ', (H.publish w κ).flushed κ' = _ := fun κ' => flushed_publish
    have hp : ∀ κ', (H.publish w κ).pending w κ' = _ := fun κ' => pending_publish
    simp only [hf, hp, true_and]
    refine History.mk.injEq .. |>.mpr ⟨rfl, rfl, rfl, rfl, rfl, rfl, ?_, ?_⟩
    · funext v κ'
      by_cases hv : v = w
      · subst hv
        by_cases hκ : κ' = κ <;> simp [hκ]
      · simp [History.publish, hv]
    · funext κ'
      by_cases hκ : κ' = κ
      · subst hκ
        by_cases hl : κ' ∈ l <;> simp [hl]
      · simp [hκ]

theorem flush_eq {l : List StringDict} (h : ∀ κ, H.pending w κ ≠ [] → κ ∈ l) :
    l.foldl (fun H κ => H.publish w κ) H = H.flush w := by
  rw [foldl_publish, flush]
  refine History.mk.injEq .. |>.mpr ⟨rfl, rfl, rfl, rfl, rfl, rfl, ?_, ?_⟩
  · congr 1
    funext κ
    by_cases hp : H.pending w κ = [] <;> simp [hp, h]
  · funext κ
    by_cases hp : H.pending w κ = [] <;> simp [hp, h]

theorem Exclusive.mono {H' : History} {fingerprint : String} (h : H'.Exclusive κ fingerprint)
    (ha : ∀ a ∈ H.archived, a ∈ H'.archived) (hm : ∀ u v, H.Met u v → H'.Met u v) :
    H.Exclusive κ fingerprint :=
  fun a haa b hb h₁ h₂ h₃ h₄ hmet => h a (ha a haa) b (ha b hb) h₁ h₂ h₃ h₄ (hm _ _ hmet)

/-- Where a writer flushed fields of the fingerprint that no other one did meanwhile, the last one
is its own. -/
theorem last_own {fingerprint : String} (h : Facts H) (hx : H.Exclusive κ fingerprint)
    (hw : w ∈ H.live) {p : Put}
    (hp : (H.flushedBy w κ).findRev? (fun p => p.fingerprint = fingerprint) = some p) :
    ((H.flushed κ).map (·.2)).findRev? (fun p => p.fingerprint = fingerprint) = some p := by
  obtain ⟨pre, post, hf, hpre, hpost⟩ := h.tenure w hw κ
  have hby : H.flushedBy w κ = (post.filter fun f => f.1 = w).map (·.2) := by
    rw [flushedBy, hf, List.filter_append, List.filter_eq_nil_iff.mpr (by simpa using hpre)]
    rfl
  have hmem := (findRev?_mem hp).1
  rw [flushedBy, List.mem_map] at hmem
  obtain ⟨f, hfm, rfl⟩ := hmem
  obtain ⟨hfm, hfw⟩ := List.mem_filter.mp hfm
  obtain ⟨a, ha, haw, haκ, hap⟩ := h.flushed κ f hfm
  have hown : ∀ g ∈ post, g.2.fingerprint = fingerprint → g.1 = w := by
    intro g hg hgp
    refine (hpost g hg).resolve_right fun hmet => ?_
    obtain ⟨b, hb, hbw, hbκ, hbp⟩ := h.flushed κ g (by rw [hf]; exact List.mem_append_right _ hg)
    refine hx b hb a ha hbκ haκ (by rw [hbp, hgp]) ?_ ?_
    · rw [hap]
      simpa using (findRev?_mem hp).2
    · rw [hbw, haw, of_decide_eq_true hfw]
      exact hmet
  rw [hby, findRev?_filter_map (fun g hg hq => by simpa using hown g hg (by simpa using hq))] at hp
  rw [hf, List.map_append, findRev?_append, hp]
  rfl

end History

end Fdb5
