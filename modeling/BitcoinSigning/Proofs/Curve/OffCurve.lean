import BitcoinSigning.Proofs.Curve.Ladder
/-!
Points that were never checked. Any pair of coordinates lies on one curve `y ^ 2 = x ^ 3 + b`,
and as no formula looks at `b`, sums of copies of one point are sums in the group of that curve.
The one pair that is left out is the origin, the singular point of `y ^ 2 = x ^ 3`: it is its own
opposite, and its sums are infinity and itself in turn. So the ladder finds repeated sums of any
point.
-/

namespace BitcoinSigning

namespace Point

/-- All points but the origin are regular points of some curve. -/
theorem exists_ofGroup_eq {p : Point} (regular : p ≠ affine 0 0) :
    ∃ (b : FieldElement) (A : (curve b).Point), ofGroup A = p := by
  cases p with
  | infinity => exact ⟨0, 0, ofGroup_zero⟩
  | affine x y =>
    have equation : y ^ 2 = x ^ 3 + (y ^ 2 - x ^ 3) := by ring
    have nonsingular : (curve (y ^ 2 - x ^ 3)).Nonsingular x y := by
      apply curve.nonsingular_iff.mpr
      refine ⟨equation, fun zero => regular ?_⟩
      rw [zero.1, zero.2]
    exact ⟨y ^ 2 - x ^ 3, .some x y nonsingular, rfl⟩

theorem origin_add_origin : (affine 0 0).add (affine 0 0) = infinity := by
  rw [add_eq_chordTangent, chordTangent, if_neg (not_not.mpr rfl), if_neg fun both => both.2 rfl]

theorem iterate_add_origin (n : Nat) :
    (affine 0 0).add^[n] infinity = if n % 2 = 0 then infinity else affine 0 0 := by
  induction n with
  | zero => rfl
  | succ n ih =>
    rw [Function.iterate_succ_apply', ih]
    rcases Nat.mod_two_eq_zero_or_one n with even | odd
    · rw [if_pos even, if_neg (by omega), add_eq_chordTangent, chordTangent_infinity]
    · rw [if_neg (by omega), if_pos (by omega), origin_add_origin]

theorem iterate_add_add (p : Point) (m n : Nat) :
    (p.add^[m] infinity).add (p.add^[n] infinity) = p.add^[m + n] infinity := by
  by_cases singular : p = affine 0 0
  · subst singular
    simp only [iterate_add_origin, Nat.add_mod m n 2]
    rcases Nat.mod_two_eq_zero_or_one m with evenM | oddM
    · rw [evenM, if_pos rfl, add_eq_chordTangent, infinity_chordTangent, Nat.zero_add, Nat.mod_mod]
    · rcases Nat.mod_two_eq_zero_or_one n with evenN | oddN
      · rw [oddM, evenN, if_pos rfl, add_eq_chordTangent, chordTangent_infinity]
      · rw [oddM, oddN, if_neg Nat.one_ne_zero, if_pos rfl, origin_add_origin]
  · obtain ⟨b, A, form⟩ := exists_ofGroup_eq singular
    rw [← form, ← ofGroup_nsmul, ← ofGroup_nsmul, ← ofGroup_nsmul, ← ofGroup_add, add_nsmul]

end Point

namespace Jacobian

variable {p : Point} {n : Nat}

/-- The running points stand for sums of `n` copies of the point and of one more. -/
def AreSums (p : Point) (n : Nat) (running : Jacobian × Jacobian) : Prop :=
  running.1.toPoint = p.add^[n] .infinity ∧ running.2.toPoint = p.add^[n + 1] .infinity

theorem toPoint_add_of_sums {low high : Jacobian} {m : Nat}
    (atLow : low.toPoint = p.add^[m] .infinity) (atHigh : high.toPoint = p.add^[n] .infinity) :
    (low.add high).toPoint = p.add^[m + n] .infinity := by
  rw [toPoint_add, ← Point.add_eq_chordTangent, atLow, atHigh, Point.iterate_add_add]

theorem toPoint_double_of_sum {low : Jacobian} (atLow : low.toPoint = p.add^[n] .infinity) :
    low.double.toPoint = p.add^[2 * n] .infinity := by
  rw [toPoint_double, ← Point.add_eq_chordTangent, atLow, Point.iterate_add_add, Nat.two_mul]

theorem AreSums.next {low high : Jacobian} (sofar : AreSums p n (low, high)) (bit : Bool) :
    AreSums p (2 * n + bit.toNat)
      (if bit then (low.add high, high.double) else (low.double, low.add high)) := by
  obtain ⟨atLow, atHigh⟩ := sofar
  have sum := toPoint_add_of_sums atLow atHigh
  rw [← Nat.add_assoc, ← Nat.two_mul] at sum
  cases bit with
  | false => exact ⟨toPoint_double_of_sum atLow, sum⟩
  | true => exact ⟨sum, toPoint_double_of_sum atHigh⟩

theorem toPoint_eq (p : Jacobian) :
    p.toPoint = if p.z = 0 then .infinity else .affine (p.x / p.z ^ 2) (p.y / p.z ^ 3) := by
  by_cases zero : p.z = 0
  · rw [if_pos zero, toPoint_of_isInfinity zero]
  · obtain ⟨x, y, form⟩ := p.exists_scaled zero
    have atX : p.x / p.z ^ 2 = x := by
      rw [form]
      exact mul_div_cancel_right₀ x (pow_ne_zero 2 zero)
    have atY : p.y / p.z ^ 3 = y := by
      rw [form]
      exact mul_div_cancel_right₀ y (pow_ne_zero 3 zero)
    rw [if_neg zero, atX, atY, form, toPoint_scaled x y zero]

end Jacobian

namespace Point

theorem mul_eq_iterate_add (p : Point) (k : Scalar) : p.mul k = p.add^[k.toNat] infinity := by
  have start : Jacobian.AreSums p 0 (.infinity, .ofPoint p) := by
    refine ⟨Jacobian.toPoint_infinity, ?_⟩
    rw [Jacobian.toPoint_ofPoint, Function.iterate_succ_apply', add_eq_chordTangent]
    exact (chordTangent_infinity p).symm
  rw [mul, Jacobian.mul]
  exact (k.value.foldBits_induction (motive := Jacobian.AreSums p) _ start
    fun _ _ bit sofar => sofar.next bit).1

/-- Whatever the two triples are, the formulas without division give the sum of their points by
chords and tangents, so that only the points matter. Multiples are repeated sums and combined
multiples the sums of both, for coordinates that satisfy no equation as well. -/
theorem operations_of_any_points :
    (∀ J : Jacobian,
      J.toPoint = if J.z = 0 then infinity else affine (J.x / J.z ^ 2) (J.y / J.z ^ 3)) ∧
    (∀ J K : Jacobian,
      (J.add K).toPoint = J.toPoint.chordTangent K.toPoint ∧
      J.double.toPoint = J.toPoint.chordTangent J.toPoint) ∧
    (∀ J K J' K' : Jacobian, J.toPoint = J'.toPoint → K.toPoint = K'.toPoint →
      (J.add K).toPoint = (J'.add K').toPoint ∧ J.double.toPoint = J'.double.toPoint) ∧
    ∀ (p : Point) (a b : Scalar),
      p.mul a = p.add^[a.toNat] infinity ∧
      p.mulAddGenerator a b = (mulGenerator a).add (p.mul b) := by
  have sums (J K : Jacobian) := Jacobian.toPoint_add J K
  have doubles (J : Jacobian) := Jacobian.toPoint_double J
  refine ⟨Jacobian.toPoint_eq, fun J K => ⟨sums J K, doubles J⟩, ?_, ?_⟩
  · intro J K J' K' first second
    constructor
    · rw [sums, sums, first, second]
    · rw [doubles, doubles, first]
  · intro p a b
    exact ⟨mul_eq_iterate_add p a, mulAddGenerator_eq p a b⟩

/-- The origin, which is not on the curve, and a point of yet another curve, in two triples each. -/
theorem operations_of_any_points_origin :
    ¬(affine 0 0).OnCurve ∧
      (Jacobian.scaled 0 0 2).toPoint = (Jacobian.scaled 0 0 1).toPoint ∧
      (Jacobian.scaled 2 3 2).toPoint = (Jacobian.scaled 2 3 1).toPoint ∧
      ((Jacobian.scaled 0 0 2).add (Jacobian.scaled 2 3 2)).toPoint =
        ((Jacobian.scaled 0 0 1).add (Jacobian.scaled 2 3 1)).toPoint ∧
      (affine 0 0).mul 3 = (affine 0 0).add^[(3 : Scalar).toNat] infinity := by
  obtain ⟨-, -, only, multiples⟩ := operations_of_any_points
  have off : ¬(affine 0 0).OnCurve := by
    intro on
    cases on with
    | affine equation =>
      rw [zero_pow two_ne_zero, zero_pow three_ne_zero, zero_add] at equation
      exact seven_ne_zero equation.symm
  have same (x y : FieldElement) :
      (Jacobian.scaled x y 2).toPoint = (Jacobian.scaled x y 1).toPoint := by
    rw [Jacobian.toPoint_scaled x y FieldElement.two_ne_zero,
      Jacobian.toPoint_scaled x y one_ne_zero]
  have sum := (only _ _ _ _ (same 0 0) (same 2 3)).1
  exact ⟨off, same 0 0, same 2 3, sum, (multiples (affine 0 0) 3 0).1⟩

end Point

end BitcoinSigning
