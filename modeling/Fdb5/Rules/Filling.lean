import Fdb5.Rules.Schema

/-! Which value each predicate of a rule is filled with. -/
namespace Fdb5

namespace Rule

/-- The values that the loop of `Rule::fill` gives the predicates. -/
def pairing (extra : Bool) : List Predicate → List String → Except Failure (List (Predicate × String))
  | [], [] => .ok []
  | [], _ :: _ => .error (.assertion "it_value == values.end()")
  | _ :: _, [] => .error (.assertion "it_pred == predicates_.end()")
  | p :: ps, v :: vs =>
    if extra ∧ p.keyword = "quantile" then
      match vs with
      | [] => .error (.assertion "it_value != values.end()")
      | w :: ws => ((p, v ++ ":" ++ w) :: ·) <$> pairing extra ps ws
    else ((p, v) :: ·) <$> pairing extra ps vs

/-- The key with each predicate filled with its value. -/
def fillAll (pairs : List (Predicate × String)) (key : Key) : Key :=
  pairs.foldl (fun k pv => pv.1.fill k pv.2) key

/-- The loop fills as it pairs, and fails only where the pairing does. -/
theorem fillLoop_eq {extra : Bool} {ps : List Predicate} {vs : List String} {key : Key} :
    fillLoop extra ps vs key = (fillAll · key) <$> pairing extra ps vs := by
  fun_induction fillLoop extra ps vs key with
  | case1 key => rfl
  | case2 => rfl
  | case3 => rfl
  | case4 p ps v key h => simp [pairing, h]
  | case5 p ps v key h w ws ih =>
    have hpair : pairing extra (p :: ps) (v :: w :: ws) = ((p, v ++ ":" ++ w) :: ·) <$> pairing extra ps ws := by
      simp [pairing, h]
    rw [ih, hpair]
    cases pairing extra ps ws <;> rfl
  | case6 p ps v vs key h ih =>
    have hpair : pairing extra (p :: ps) (v :: vs) = ((p, v) :: ·) <$> pairing extra ps vs := by
      simp [pairing, h]
    rw [ih, hpair]
    cases pairing extra ps vs <;> rfl

end Rule

end Fdb5
