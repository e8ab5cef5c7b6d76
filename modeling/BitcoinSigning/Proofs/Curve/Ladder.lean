import BitcoinSigning.Proofs.Curve.Group
/-!
The ladder computes multiples in the group. Its two running points stay one
summand apart: after the digits of `n` have been read they are the `n`-th and the
`n + 1`-st multiple.
-/

namespace BitcoinSigning

namespace Jacobian

variable {b : FieldElement} {p q : Jacobian} {A B : (curve b).Point}

theorem toPoint_add_ofGroup (left : p.toPoint = .ofGroup A) (right : q.toPoint = .ofGroup B) :
    (p.add q).toPoint = .ofGroup (A + B) := by
  rw [toPoint_add, left, right, ← Point.add_eq_chordTangent, ← Point.ofGroup_add]

theorem toPoint_double_ofGroup (form : p.toPoint = .ofGroup A) :
    p.double.toPoint = .ofGroup (A + A) := by
  rw [toPoint_double, form, ← Point.add_eq_chordTangent, ← Point.ofGroup_add]

/-- What the running points are after the digits of `n`. -/
def AreMultiples (A : (curve b).Point) (n : Nat) (running : Jacobian × Jacobian) : Prop :=
  running.1.toPoint = .ofGroup (n • A) ∧ running.2.toPoint = .ofGroup ((n + 1) • A)

theorem AreMultiples.next {n : Nat} {low high : Jacobian} (sofar : AreMultiples A n (low, high))
    (bit : Bool) :
    AreMultiples A (2 * n + bit.toNat)
      (if bit then (low.add high, high.double) else (low.double, low.add high)) := by
  obtain ⟨atLow, atHigh⟩ := sofar
  have sum := toPoint_add_ofGroup atLow atHigh
  rw [← add_nsmul] at sum
  cases bit with
  | false =>
    have doubled := toPoint_double_ofGroup atLow
    rw [← add_nsmul] at doubled
    rw [Bool.toNat_false, Nat.add_zero, Nat.two_mul]
    exact ⟨doubled, sum⟩
  | true =>
    have doubled := toPoint_double_ofGroup atHigh
    rw [← add_nsmul] at doubled
    rw [Bool.toNat_true, Nat.two_mul]
    refine ⟨sum, ?_⟩
    rwa [Nat.add_assoc n n 1, Nat.add_right_comm n (n + 1) 1]

theorem toPoint_mul_ofGroup (form : p.toPoint = .ofGroup A) (k : Scalar) :
    (p.mul k).toPoint = .ofGroup (k.toNat • A) := by
  have start : AreMultiples A 0 (infinity, p) := by
    refine ⟨?_, ?_⟩
    · rw [zero_nsmul]
      exact toPoint_infinity
    · rw [zero_add, one_nsmul]
      exact form
  rw [mul]
  exact (k.value.foldBits_induction (motive := AreMultiples A) _ start
    fun _ _ bit sofar => sofar.next bit).1

end Jacobian

namespace Point

variable {b : FieldElement}

theorem ofGroup_mul (A : (curve b).Point) (k : Scalar) :
    (ofGroup A).mul k = ofGroup (k.toNat • A) :=
  Jacobian.toPoint_mul_ofGroup (Jacobian.toPoint_ofPoint (ofGroup A)) k

theorem ofGroup_nsmul (A : (curve b).Point) (n : Nat) :
    ofGroup (n • A) = (ofGroup A).add^[n] infinity := by
  induction n with
  | zero => rw [zero_nsmul, ofGroup_zero, Function.iterate_zero_apply]
  | succ n ih => rw [succ_nsmul', ofGroup_add, ih, Function.iterate_succ_apply']

theorem mul_eq_iterate {p : Point} (on : p.OnCurve) (k : Scalar) :
    p.mul k = p.add^[k.toNat] infinity := by
  obtain ⟨A, rfl⟩ := onCurve_iff_exists.mp on
  rw [ofGroup_mul, ofGroup_nsmul]

theorem OnCurve.mul {p : Point} (on : p.OnCurve) (k : Scalar) : (p.mul k).OnCurve := by
  obtain ⟨A, rfl⟩ := onCurve_iff_exists.mp on
  rw [ofGroup_mul]
  exact ofGroup_onCurve (k.toNat • A)

theorem mulAddGenerator_eq (p : Point) (a k : Scalar) :
    p.mulAddGenerator a k = (mulGenerator a).add (p.mul k) := by
  rw [mulAddGenerator, Jacobian.toPoint_add, add_eq_chordTangent]
  rfl

theorem OnCurve.mulAddGenerator {p : Point} (on : p.OnCurve) (a k : Scalar) :
    (p.mulAddGenerator a k).OnCurve := by
  rw [mulAddGenerator_eq]
  exact (generator_onCurve.mul a).add (on.mul k)

end Point

end BitcoinSigning
