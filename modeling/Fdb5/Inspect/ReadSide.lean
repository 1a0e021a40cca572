import Fdb5.Inspect.Restored

/-! The read side's use of a schema for a datum that was archived: its rules and its key are found again. -/
namespace Fdb5

open Effect Search

/-- A datum's database key leads back to its first-level rule; where its second-level rule is the
first to match and its third-level rule the first below, the rule is found again, and its key can
be rebuilt from the fingerprint. -/
theorem read_side_recovers_rules (s : Schema) (field : Key) (t u : WriteState Recorder)
    (hcheck : s.check = .ok ()) (hthird : ∀ f ∈ s.rules, ∀ i ∈ f.rules, i.rules ≠ [])
    (hdb : t.prev0.keys = t.visitor.database) (hidx : t.prev1.keys = t.visitor.index)
    (hrun : (s.expand true (recorder s) field).run t = .ok () u)
    {d i r : Rule} {a : Filed} (hrule : u.rule = some ⟨r, [i, d]⟩)
    (hdata : u.visitor.data = t.visitor.data ++ [a])
    {k0 : Key} (hk0 : k0.keys = a.database) :
    s.databaseRule k0 = some d ∧
    (∀ k1, k1.keys = a.index →
      d.rules.find? (fun j => j.accepts k1) = some i → i.rules.head? = some r →
      s.ruleFor k0 k1 = some r ∧
      ∀ fingerprint values, a.datum.valuesToString = .ok fingerprint →
        a.datum.canonicalValues = .ok values → List.Forall₂ Separable a.datum.names values →
        ∀ keyword ∈ a.datum.names, ∀ value, a.datum.canonicalValue keyword = .ok value →
          (∀ p ∈ r.predicates, ¬ (p.keyword = keyword ∧ value = "" ∧ p.optional)) →
          ∃ k, Key.ofFingerprint fingerprint (s.ruleFor k0 k1) = .ok k ∧
            k.find keyword = some value) := by
  obtain ⟨o, ho, hrec⟩ :=
    (ends_expand field (Schema.threeLevels_of_check hcheck hthird) hdb hidx).ok hrun
  obtain ⟨a', rfl⟩ : ∃ a', o = some (⟨r, [i, d]⟩, a') := by
    have hfound := hrec.rule
    rw [hrule] at hfound
    obtain ⟨⟨_, a'⟩, rfl, hp⟩ := Option.map_eq_some_iff.mp hfound.symm
    exact ⟨a', by rw [← hp]⟩
  obtain rfl : a = a' := by simpa [hdata] using hrec.data
  obtain ⟨hd, k2, hk2, hdatum⟩ := Schema.search_databaseRule ho hk0
  refine ⟨hd, fun k1 _ hi hr => ?_⟩
  have hfor : s.ruleFor k0 k1 = some r := (Schema.ruleFor_eq hthird hd hi).trans hr
  refine ⟨hfor, fun fingerprint values hs hv hsep keyword hn value hc hgiven => ?_⟩
  rw [hfor]
  rw [hdatum] at hs hv hsep hn hc
  have hbuilds := Rule.builds_of_assign hk2
  obtain ⟨hnames, -⟩ := hbuilds.names
  rw [hnames] at hsep hn
  obtain ⟨p, hp, hkeyword⟩ := List.mem_map.mp hn
  have hcanonical : Rule.Canonical r k2 values := ⟨hbuilds, hv, List.forall₂_map_left_iff.mp hsep⟩
  obtain ⟨_, k, hs', hk, hfind⟩ := hcanonical.restores (List.ne_nil_of_mem hp) (hbuilds.nodup hs)
  obtain rfl := Except.ok.inj (hs'.symm.trans hs)
  exact ⟨k, hk, (hfind keyword value).mpr ⟨p, hp, hkeyword, hc, fun h => hgiven p hp ⟨hkeyword, h⟩⟩⟩

/-- `[ a [ b [ c=1, quantile ] [ c=2, e ]]]`: two rules below one second-level rule. -/
def siblings : Schema where
  registry := .untyped
  rules := [.mk 1 [⟨"a", .always⟩] [.mk 2 [⟨"b", .always⟩]
    [.mk 3 [⟨"c", .value "1"⟩, ⟨"quantile", .always⟩] [] .untyped,
      .mk 4 [⟨"c", .value "2"⟩, ⟨"e", .always⟩] [] .untyped] .untyped] .untyped]

def siblingsField (c : String) : Key :=
  Key.ofList [("a", "x"), ("b", "y"), ("c", c), ("e", "z"), ("quantile", "1:5")] none

theorem read_side_recovers_rules_siblings :
    ∃ k, Key.ofFingerprint "1:1:5" (siblings.ruleFor (Key.ofList [("a", "x")] none)
      (Key.ofList [("b", "y")] none)) = .ok k ∧ k.find "quantile" = some "1:5" :=
  ((read_side_recovers_rules siblings (siblingsField "1") { visitor := {} } _ rfl
    (by simp [siblings, Rule.rules]) rfl rfl rfl rfl rfl rfl).2 (Key.ofList [("b", "y")] none)
    rfl rfl rfl).2 "1:1:5" ["1", "1:5"] rfl rfl (.cons (by decide) (.cons (by decide) .nil))
    "quantile" (by decide) "1:5" rfl (by simp [Rule.predicates])

/-- `[ a [ b [ e ]]]` -/
def lone : Schema where
  registry := .untyped
  rules := [.mk 1 [⟨"a", .always⟩] [.mk 2 [⟨"b", .always⟩] [.mk 3 [⟨"e", .always⟩] [] .untyped] .untyped] .untyped]

def loneField : Key := Key.ofList [("a", "x"), ("b", "y"), ("e", "z:w")] none

/-- A datum archived through the second rule below `[ b`: the read side finds the first one. And a value
with a colon, which is not a quantile: its rule is found, but no key is rebuilt. -/
theorem read_side_finds_sibling :
    (siblings.check = .ok () ∧
      ∃ u d i r a, (siblings.expand true (recorder siblings) (siblingsField "2")).run
          { visitor := {} } = .ok () u ∧ u.rule = some ⟨r, [i, d]⟩ ∧ u.visitor.data = [a] ∧
        ∀ k0 k1, k0.keys = a.database → k1.keys = a.index → siblings.ruleFor k0 k1 ≠ some r) ∧
    lone.check = .ok () ∧
      ∃ u r a, (lone.expand true (recorder lone) loneField).run { visitor := {} } = .ok () u ∧
        u.rule = some r ∧ u.visitor.data = [a] ∧ a.datum.valuesToString = .ok "z:w" ∧
        Key.ofFingerprint "z:w" (some r.rule) = .error (.assertion "it_value == values.end()") := by
  refine ⟨⟨rfl, _, _, _, _, _, rfl, rfl, rfl, fun k0 k1 _ _ h => ?_⟩, rfl, _, _, _, rfl, rfl, rfl, rfl, rfl⟩
  have hline := congrArg (Option.map Rule.line) h
  simp [siblings, Schema.ruleFor, Rule.ruleFor, Rule.accepts, Rule.rules, Rule.predicates,
    Predicate.accepts, Matcher.accepts, Rule.line] at hline

end Fdb5
