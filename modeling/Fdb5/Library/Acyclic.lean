import Mathlib.Logic.Relation
import Mathlib.Order.WellFounded

/-! A graph without infinite paths, and the edges that can be added to it. -/
namespace Acyclic

variable {α : Type} {r r' : α → α → Prop} {s t : α}

/-- No path leads on forever: `edge p q` goes from `p` to `q`. -/
def Terminating (edge : α → α → Prop) : Prop := WellFounded fun q p => edge p q

theorem Terminating.mono (h : Terminating r) (hr : ∀ p q, r' p q → r p q) : Terminating r' :=
  Subrelation.wf (fun {q p} => hr p q) h

/-- What cannot reach `t` never uses an edge that starts in `t`. -/
theorem acc_of_not_reaches (h : Terminating r) (hr : ∀ p q, r' p q → r p q ∨ p = t)
    {p : α} (hp : ¬ Relation.ReflTransGen r p t) : Acc (fun q p => r' p q) p := by
  induction p using h.induction with
  | _ p ih =>
    refine Acc.intro _ fun q hq => ?_
    rcases hr p q hq with hpq | rfl
    · exact ih q hpq fun hqt => hp (.head hpq hqt)
    · exact absurd .refl hp

/-- An edge from `t` to `s` can be added if `s` does not reach `t`. -/
theorem Terminating.insert (h : Terminating r) (hst : ¬ Relation.ReflTransGen r s t)
    (hr : ∀ p q, r' p q → r p q ∨ p = t ∧ q = s) : Terminating r' := by
  have hs : Acc (fun q p => r' p q) s :=
    acc_of_not_reaches h (fun p q hpq => (hr p q hpq).imp id And.left) hst
  refine ⟨fun p => ?_⟩
  induction p using h.induction with
  | _ p ih =>
    refine Acc.intro _ fun q hq => ?_
    rcases hr p q hq with hpq | ⟨-, rfl⟩
    · exact ih q hpq
    · exact hs

/-- A graph in which every path has at most two edges. -/
theorem terminating_of_two (h : ∀ p q o, r p q → ¬ r q o) : Terminating r := by
  refine ⟨fun p => Acc.intro _ fun q hpq => Acc.intro _ fun o hqo => ?_⟩
  exact absurd hqo (h p q o hpq)

end Acyclic
