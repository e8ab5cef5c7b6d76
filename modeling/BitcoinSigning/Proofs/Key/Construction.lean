import BitcoinSigning.Proofs.Curve.Encodings
import BitcoinSigning.Proofs.Modular.StoredWords
import BitcoinSigning.Proofs.Taproot.KeyTweak
/-!
How private keys come about, and how far their public keys tell them apart. Bytes are compared
with both ends of the range, a sum only with zero, and a negative with nothing. The same steps
on bare words, with no more checks than these and no proof that goes with a result, still give
the words of private keys. So the words are in the range from one to below the group order,
and the multiples of the generator by them are finite points, one for each.
-/

namespace BitcoinSigning

/-- One way to make a private key, from bytes or from keys that were made before. Those are
numbered in the order in which they were made. -/
inductive KeyStep
  | bytes (value : Bytes)
  | random (blocks : List Bytes32)
  | neg (i : Nat)
  | sum (indices : List Nat)
  | tweak (i : Nat) (commitment : Bytes)

/-- The ways to make keys of one kind, some of which can fail. -/
structure KeyOperations (α : Type) where
  ofBytes : Bytes → Option α
  random : List Bytes32 → Option α
  neg : α → α
  sum : List α → Option α
  tweak : α → Bytes → Option α

namespace KeyOperations

variable {α β : Type}

def step (ops : KeyOperations α) (keys : List α) : KeyStep → Option α
  | .bytes value => ops.ofBytes value
  | .random blocks => ops.random blocks
  | .neg i => keys[i]?.map ops.neg
  | .sum indices => ops.sum (indices.filterMap (keys[·]?))
  | .tweak i commitment => keys[i]?.bind (ops.tweak · commitment)

def run (ops : KeyOperations α) : List KeyStep → List α → List α
  | [], keys => keys
  | step :: steps, keys => ops.run steps (keys ++ (ops.step keys step).toList)

/-- The function carries each way to make one kind of key to that for the other. -/
structure Image (ops : KeyOperations α) (ops' : KeyOperations β) (image : α → β) : Prop where
  ofBytes : ∀ bytes, (ops.ofBytes bytes).map image = ops'.ofBytes bytes
  random : ∀ blocks, (ops.random blocks).map image = ops'.random blocks
  neg : ∀ key, image (ops.neg key) = ops'.neg (image key)
  sum : ∀ keys, (ops.sum keys).map image = ops'.sum (keys.map image)
  tweak : ∀ key commitment,
    (ops.tweak key commitment).map image = ops'.tweak (image key) commitment

variable {ops : KeyOperations α} {ops' : KeyOperations β} {image : α → β}

theorem Image.step (carried : Image ops ops' image) (keys : List α) (step : KeyStep) :
    (ops.step keys step).map image = ops'.step (keys.map image) step := by
  cases step with
  | bytes value => exact carried.ofBytes value
  | random blocks => exact carried.random blocks
  | neg i =>
    rw [KeyOperations.step, KeyOperations.step, List.getElem?_map]
    cases keys[i]? with
    | none => rfl
    | some key => exact congrArg some (carried.neg key)
  | sum indices =>
    simp only [KeyOperations.step, List.getElem?_map]
    rw [carried.sum, List.map_filterMap]
  | tweak i commitment =>
    rw [KeyOperations.step, KeyOperations.step, List.getElem?_map]
    cases keys[i]? with
    | none => rfl
    | some key => exact carried.tweak key commitment

theorem Image.run (carried : Image ops ops' image) (steps : List KeyStep) (keys : List α) :
    (ops.run steps keys).map image = ops'.run steps (keys.map image) := by
  induction steps generalizing keys with
  | nil => rfl
  | cons step steps ih =>
    rw [KeyOperations.run, KeyOperations.run, ih, List.map_append, ← carried.step,
      Option.toList_map]

end KeyOperations

/-! Keys as the words that are stored for them. -/

namespace KeyWord

def nonzero (word : Nat256) : Option Nat256 :=
  if word.isZero then none else some word

def ofBytes (bytes : Bytes) : Option Nat256 := do
  nonzero (← Scalar.arithmetic.ofBytes? (← Bytes32.ofBytes? bytes))

def random : List Bytes32 → Option Nat256
  | [] => none
  | block :: rest => (ofBytes block.bytes).or (random rest)

def sum (words : List Nat256) : Option Nat256 :=
  nonzero (words.foldl Scalar.arithmetic.add .zero)

def publicKey (word : Nat256) : Except CurveError PublicKey :=
  PublicKey.ofPoint (word.foldBits (fun (low, high) bit =>
    if bit then (Jacobian.add low high, Jacobian.double high)
    else (Jacobian.double low, Jacobian.add low high))
    (Jacobian.infinity, Jacobian.ofPoint Point.generator)).1.toPoint

def tweakScalar (key : Bytes32) (commitment : Bytes) : Option Nat256 := do
  nonzero (← Scalar.arithmetic.ofBytes? (HashTag.taprootTweak.hash (key.bytes ++ commitment)))

def tweak (word : Nat256) (commitment : Bytes) : Option Nat256 := do
  let pub ← (publicKey word).toOption
  let internal := if pub.hasEvenY then word else Scalar.arithmetic.neg word
  nonzero (Scalar.arithmetic.add internal (← tweakScalar pub.xBytes commitment))

def operations : KeyOperations Nat256 where
  ofBytes := ofBytes
  random := random
  neg := Scalar.arithmetic.neg
  sum := sum
  tweak := tweak

end KeyWord

namespace PublicKey

theorem xBytes_eq_iff {key key' : PublicKey} (on : key.toPoint.OnCurve)
    (on' : key'.toPoint.OnCurve) : key.xBytes = key'.xBytes ↔
      key.toPoint = key'.toPoint ∨ key.toPoint = key'.toPoint.neg := by
  obtain ⟨x, y⟩ := key
  obtain ⟨x', y'⟩ := key'
  rw [xBytes, xBytes, Residue.toBytes_injective.eq_iff]
  constructor
  · rintro rfl
    have squares := (Point.onCurve_iff_equation.mp on).trans
      (Point.onCurve_iff_equation.mp on').symm
    rcases sq_eq_sq_iff_eq_or_eq_neg.mp squares with same | opposite
    · exact Or.inl (congrArg (Point.affine x) same)
    · exact Or.inr (congrArg (Point.affine x) opposite)
  · rintro (same | opposite)
    · exact (Point.affine.inj same).1
    · exact (Point.affine.inj opposite).1

end PublicKey

namespace PrivateKey

def operations : KeyOperations PrivateKey where
  ofBytes bytes := (ofBytes bytes).toOption
  random blocks := (random blocks).map Prod.fst
  neg := neg
  sum keys := (sum keys).toOption
  tweak key commitment := (Taproot.tweakPrivate key commitment).toOption

def word (key : PrivateKey) : Nat256 := key.scalar.value

theorem map_value_ofBytes? (bytes : Bytes32) :
    (Scalar.ofBytes? bytes).map Residue.value = Scalar.arithmetic.ofBytes? bytes :=
  Residue.map_value_ofBytes? Scalar.arithmetic bytes

theorem nonzero_value (a : Scalar) :
    KeyWord.nonzero a.value = if a.isZero then none else some a.value := rfl

theorem map_word_ofScalar (a : Scalar) :
    (ofScalar a).toOption.map word = KeyWord.nonzero a.value := by
  rw [ofScalar, nonzero_value]
  by_cases nonzero : a.isZero = false
  · rw [dif_pos nonzero, nonzero]
    rfl
  · rw [dif_neg nonzero, if_pos (Bool.not_eq_false _ ▸ nonzero)]
    rfl

theorem map_word_ofBytes (bytes : Bytes) :
    (ofBytes bytes).toOption.map word = KeyWord.ofBytes bytes := by
  rw [ofBytes, KeyWord.ofBytes]
  cases Bytes32.ofBytes? bytes with
  | none => rfl
  | some block =>
    simp only [Option.bind_some, Option.bind_eq_bind, ← map_value_ofBytes?]
    cases Scalar.ofBytes? block with
    | none => rfl
    | some a => exact map_word_ofScalar a

theorem map_word_random (blocks : List Bytes32) :
    ((random blocks).map Prod.fst).map word = KeyWord.random blocks := by
  induction blocks with
  | nil => rfl
  | cons block rest ih =>
    rw [random, KeyWord.random, ← map_word_ofBytes, ← ih]
    cases ofBytes block.bytes with
    | error e => rfl
    | ok key => rfl

theorem foldl_map_word (keys : List PrivateKey) (total : Scalar) :
    (keys.map word).foldl Scalar.arithmetic.add total.value =
      (keys.foldl (fun total key => total + key.scalar) total).value := by
  induction keys generalizing total with
  | nil => rfl
  | cons key keys ih =>
    have next : Scalar.arithmetic.add total.value key.word = (total + key.scalar).value :=
      (Residue.value_add Scalar.arithmetic total key.scalar).symm
    rw [List.map_cons, List.foldl_cons, List.foldl_cons, next, ih]

theorem map_word_sum (keys : List PrivateKey) :
    (sum keys).toOption.map word = KeyWord.sum (keys.map word) := by
  rw [sum, map_word_ofScalar, ← foldl_map_word]
  rfl

theorem publicKey_word (key : PrivateKey) : KeyWord.publicKey key.word = key.publicKey := by
  rw [KeyWord.publicKey, publicKey, Point.mulGenerator, Point.mul, Jacobian.mul, word]

theorem map_value_tweak (key : Bytes32) (commitment : Bytes) :
    (Taproot.tweak key commitment).toOption.map Residue.value =
      KeyWord.tweakScalar key commitment := by
  rw [Taproot.tweak, KeyWord.tweakScalar, Scalar.ofBytesNonzero?]
  generalize HashTag.taprootTweak.hash (key.bytes ++ commitment) = digest
  rw [← map_value_ofBytes?]
  cases Scalar.ofBytes? digest with
  | none => rfl
  | some a =>
    change _ = KeyWord.nonzero a.value
    rw [nonzero_value, Option.filter_some]
    cases a.isZero with
    | true => rfl
    | false => rfl

theorem map_word_tweakPrivate (key : PrivateKey) (commitment : Bytes) :
    (Taproot.tweakPrivate key commitment).toOption.map word =
      KeyWord.tweak key.word commitment := by
  obtain ⟨pub, found, -⟩ := key.exists_publicKey
  have internal : (key.negIf !pub.hasEvenY).word =
      if pub.hasEvenY then key.word else Scalar.arithmetic.neg key.word := by
    cases pub.hasEvenY with
    | true => rfl
    | false => exact Residue.value_neg Scalar.arithmetic key.scalar
  have moved (t : Scalar) : ((key.negIf !pub.hasEvenY).scalar + t).value =
      Scalar.arithmetic.add (key.negIf !pub.hasEvenY).word t.value :=
    Residue.value_add Scalar.arithmetic (key.negIf !pub.hasEvenY).scalar t
  rw [Taproot.tweakPrivate_eq found, ← scalar_negIf found, KeyWord.tweak, publicKey_word, found]
  simp only [Except.toOption, Option.bind_eq_bind, Option.bind_some]
  rw [← internal, ← map_value_tweak]
  cases Taproot.tweak pub.xBytes commitment with
  | error e => rfl
  | ok t =>
    simp only [Except.bind, Except.toOption, Option.map_some, Option.bind_some]
    rw [← moved, ← map_word_ofScalar]
    cases ofScalar ((key.negIf !pub.hasEvenY).scalar + t) <;> rfl

theorem operations_image : operations.Image KeyWord.operations word where
  ofBytes := map_word_ofBytes
  random := map_word_random
  neg key := Residue.value_neg Scalar.arithmetic key.scalar
  sum := map_word_sum
  tweak key commitment := by
    dsimp only [operations, KeyWord.operations]
    exact map_word_tweakPrivate key commitment

theorem word_inRange (key : PrivateKey) :
    1 ≤ key.word.toNat ∧ key.word.toNat < groupOrder.value.toNat :=
  ⟨Nat.one_le_iff_ne_zero.mpr (Residue.toNat_ne_zero key.scalar_ne_zero), key.scalar.toNat_lt⟩

/-! Public keys tell private keys apart, and first coordinates tell them apart from all others
but their opposites. -/

theorem scalar_inj {key key' : PrivateKey} : key.scalar = key'.scalar ↔ key = key' := by
  rw [mk.injEq]

section Distinct

variable {key key' : PrivateKey} {pub pub' : PublicKey}
  (found : key.publicKey = .ok pub) (found' : key'.publicKey = .ok pub')

include found found'

theorem toPoint_eq_iff : pub.toPoint = pub'.toPoint ↔ key = key' := by
  rw [← publicKey_eq_ok_iff.mp found, ← publicKey_eq_ok_iff.mp found',
    Point.mulGenerator_injective.eq_iff, scalar_inj]

theorem encode_eq_iff {format : Point.Format} (full : format ≠ .xOnly) :
    pub.encode format = pub'.encode format ↔ key = key' := by
  rw [← toPoint_eq_iff found found']
  constructor
  · intro same
    have read := PublicKey.decode_encode (onCurve_of_publicKey found) full
    rw [same, PublicKey.decode_encode (onCurve_of_publicKey found') full] at read
    rw [Except.ok.inj read]
  · intro same
    obtain ⟨first, second⟩ := Point.affine.inj same
    rw [PublicKey.encode, PublicKey.encode, first, second]

theorem xBytes_eq_iff : pub.xBytes = pub'.xBytes ↔ key = key' ∨ key = key'.neg := by
  have opposite : pub.toPoint = pub'.toPoint.neg ↔ key = key'.neg :=
    toPoint_eq_iff found (publicKey_neg found')
  rw [← toPoint_eq_iff found found', ← opposite]
  exact PublicKey.xBytes_eq_iff (onCurve_of_publicKey found) (onCurve_of_publicKey found')

end Distinct

/-- However keys are made, the words stored for them are those of private keys. They are in
range and have points of the curve as public keys. Public keys are equal in compressed form
exactly for equal keys, and have one first coordinate also for opposite ones. -/
theorem run_inRange_publicKey_inj (steps : List KeyStep) :
    (operations.run steps []).map word = KeyWord.operations.run steps [] ∧
    (∀ w ∈ KeyWord.operations.run steps [],
      1 ≤ w.toNat ∧ w.toNat < groupOrder.value.toNat ∧
      ∃ x y, KeyWord.publicKey w = .ok ⟨x, y⟩ ∧ y ^ 2 = x ^ 3 + 7) ∧
    ∀ key key' : PrivateKey, ∃ pub pub', key.publicKey = .ok pub ∧ key'.publicKey = .ok pub' ∧
      (pub.encode .compressed = pub'.encode .compressed ↔ key = key') ∧
      (pub.xBytes = pub'.xBytes ↔ key = key' ∨ key = key'.neg) := by
  have stored : (operations.run steps []).map word = KeyWord.operations.run steps [] :=
    operations_image.run steps []
  refine ⟨stored, ?_, ?_⟩
  · rw [← stored]
    intro w made
    obtain ⟨key, -, rfl⟩ := List.mem_map.mp made
    obtain ⟨pub, found, -, on⟩ := key.exists_publicKey
    exact ⟨key.word_inRange.1, key.word_inRange.2, pub.x, pub.y, found,
      Point.onCurve_iff_equation.mp on⟩
  · intro key key'
    obtain ⟨pub, found, -⟩ := key.exists_publicKey
    obtain ⟨pub', found', -⟩ := key'.exists_publicKey
    exact ⟨pub, pub', found, found', encode_eq_iff found found' (by decide),
      xBytes_eq_iff found found'⟩

/-- One, its opposite, their sum, which is no key, twice the opposite, and a random key after
a block that is refused. -/
def stepsFromOne : List KeyStep :=
  [.bytes Nat256.one.toBytes.bytes, .neg 0, .sum [0, 1], .sum [1, 1],
    .random [groupOrder.value.toBytes, (Nat256.ofWord 2).toBytes]]

/-- The greatest key is among those made, and with its opposite it shares a first coordinate
but no compressed form. -/
theorem run_inRange_publicKey_inj_stepsFromOne :
    KeyWord.operations.run stepsFromOne [] =
      [.one, greatest.word, (groupOrder.value.sub (.ofWord 2)).1, .ofWord 2] ∧
    (∃ x y, KeyWord.publicKey greatest.word = .ok ⟨x, y⟩ ∧ y ^ 2 = x ^ 3 + 7) ∧
    ∃ pub pub', greatest.publicKey = .ok pub ∧ greatest.neg.publicKey = .ok pub' ∧
      pub.xBytes = pub'.xBytes ∧ pub.encode .compressed ≠ pub'.encode .compressed := by
  have made : KeyWord.operations.run stepsFromOne [] =
      [.one, greatest.word, (groupOrder.value.sub (.ofWord 2)).1, .ofWord 2] := by decide +kernel
  have listed : greatest.word ∈ KeyWord.operations.run stepsFromOne [] := by
    rw [made]
    exact .tail _ (.head _)
  obtain ⟨-, inRange, distinct⟩ := run_inRange_publicKey_inj stepsFromOne
  obtain ⟨pub, pub', found, found', compressed, first⟩ := distinct greatest greatest.neg
  refine ⟨made, (inRange _ listed).2.2, pub, pub', found, found', ?_, ?_⟩
  · exact first.mpr (Or.inr (by decide))
  · exact mt compressed.mp (by decide)

end PrivateKey

end BitcoinSigning
