import BitcoinSigning.Proofs.Key.EvenKey
import BitcoinSigning.Proofs.Sighash.LegacyMessage
import BitcoinSigning.Proofs.Signature.DerRoundTrip
import BitcoinSigning.Proofs.Signature.EcdsaSigning
import BitcoinSigning.Session.Step
/-!
Signing the inputs of a transaction one after the other. A signature changes only
what unlocks its own input, and no digest depends on that, so every signature
still verifies at the end, whatever the order, unless it has been overwritten.
-/

namespace BitcoinSigning

theorem PrivateKey.ofBytes_toBytes (key : PrivateKey) : ofBytes key.toBytes.bytes = .ok key := by
  have scalar : Scalar.ofBytes? key.toBytes = some key.scalar := key.scalar.ofBytes?_toBytes
  rw [ofBytes, Bytes32.ofBytes?_bytes, Option.bind_some, scalar]
  exact dif_pos key.nonzero

/-- A signature to be made: with a value it goes into the input's witness, without
one into the input's script. -/
structure SigningStep where
  index : Nat
  key : PrivateKey
  kind : SighashKind
  script : Bytes
  value : Option UInt64

namespace SigningStep

def step (s : SigningStep) : Step :=
  match s.value with
  | none => .sign s.index s.key.toBytes.bytes s.kind s.script
  | some value => .signWitness s.index s.key.toBytes.bytes s.kind s.script value

def digest (s : SigningStep) (transaction : Transaction) : Except SighashError Bytes32 :=
  match s.value with
  | none => .ok (transaction.sighash s.index s.script s.kind)
  | some value => transaction.witnessSighash s.index s.script s.kind value

def store (s : SigningStep) (signature key : Bytes) (input : Input) : Input :=
  match s.value with
  | none => { input with script := Script.push signature ++ Script.push key }
  | some _ => { input with witness := [signature, key] }

def Stored (s : SigningStep) (signature key : Bytes) (input : Input) : Prop :=
  match s.value with
  | none => input.script = Script.push signature ++ Script.push key
  | some _ => input.witness = [signature, key]

/-- Whether a later step replaces what this one stored. -/
def OverwrittenBy (s later : SigningStep) : Prop :=
  later.index = s.index ∧ later.value.isSome = s.value.isSome

def run (transaction : Transaction) (steps : List SigningStep) : Except StepError Transaction :=
  steps.foldlM (fun current s => (s.step.apply current).map Prod.fst) transaction

/-- That the stored signature of the step is this one, of the step's type, and
that it verifies under the stored key over the digest of this transaction. -/
def Stands (s : SigningStep) (signature : EcdsaSignature) (transaction : Transaction) : Prop :=
  ∃ input encoded pub digest, transaction.inputs[s.index]? = some input ∧
    s.key.publicKey = .ok pub ∧
    s.Stored encoded (pub.encode .compressed) input ∧
    Der.decode encoded = .ok (signature, s.kind.bits) ∧
    s.digest transaction = .ok digest ∧
    signature.verifyEncoded (pub.encode .compressed) digest = true

variable {s later : SigningStep} {transaction : Transaction}

/-! One step. -/

theorem exists_digest (inside : s.index < transaction.inputs.length) :
    ∃ digest, s.digest transaction = .ok digest := by
  unfold digest
  cases s.value with
  | none => exact ⟨_, rfl⟩
  | some value =>
    simp only [Transaction.witnessSighash, List.getElem?_eq_getElem inside]
    exact ⟨_, rfl⟩

theorem signSighash_eq {digest : Bytes32} {key : PrivateKey} {kind : SighashKind}
    (byte : kind.bits ≤ 0xff) {signature : EcdsaSignature}
    (made : EcdsaSignature.sign key digest = .ok signature) :
    signSighash digest key kind = .ok (Der.layout (Der.parts signature kind.bits)) := by
  rw [signSighash, made]
  change (Der.encode signature kind.bits).mapError _ = _
  rw [Der.encode_eq signature byte]
  rfl

def apply (s : SigningStep) (transaction : Transaction) (signature key : Bytes) : Transaction :=
  { transaction with inputs := transaction.inputs.modify s.index (s.store signature key) }

private theorem bind_mapError_of_ok {ε ε' α β : Type} {x : Except ε α} {a : α} (ok : x = .ok a)
    (wrap : ε → ε') (rest : α → Except ε' β) : (x.mapError wrap >>= rest) = rest a := by
  rw [ok]
  rfl

private theorem bind_mapError_of_error {ε ε' α β : Type} {x : Except ε α} {e : ε}
    (error : x = .error e) (wrap : ε → ε') (rest : α → Except ε' β) :
    (x.mapError wrap >>= rest) = .error (wrap e) := by
  rw [error]
  rfl

theorem modifyInput_eq {index : Nat} (inside : index < transaction.inputs.length)
    (change : Input → Input) : transaction.modifyInput index change =
      .ok { transaction with inputs := transaction.inputs.modify index change } :=
  if_pos inside

theorem apply_eq_ok (inside : s.index < transaction.inputs.length) (byte : s.kind.bits ≤ 0xff)
    {digest : Bytes32} (digested : s.digest transaction = .ok digest)
    {signature : EcdsaSignature} (made : EcdsaSignature.sign s.key digest = .ok signature)
    {pub : PublicKey} (found : s.key.publicKey = .ok pub) :
    (s.step.apply transaction).map Prod.fst = .ok
      (s.apply transaction (Der.layout (Der.parts signature s.kind.bits))
        (pub.encode .compressed)) := by
  obtain ⟨index, key, kind, script, value⟩ := s
  have signed := signSighash_eq byte made
  cases value with
  | none =>
    obtain rfl := Except.ok.inj digested
    unfold step Step.apply Transaction.sign
    simp only
    rw [bind_mapError_of_ok key.ofBytes_toBytes, bind_mapError_of_ok signed,
      bind_mapError_of_ok found, modifyInput_eq inside]
    rfl
  | some value =>
    change transaction.witnessSighash index script kind value = .ok digest at digested
    unfold step Step.apply Transaction.signWitness
    simp only
    rw [bind_mapError_of_ok key.ofBytes_toBytes, bind_mapError_of_ok digested,
      bind_mapError_of_ok signed, bind_mapError_of_ok found, modifyInput_eq inside]
    rfl

theorem apply_eq_error {digest : Bytes32} (digested : s.digest transaction = .ok digest)
    {e : SignError} (failed : EcdsaSignature.sign s.key digest = .error e) :
    (s.step.apply transaction).map Prod.fst = .error (.signing (.sign e)) := by
  obtain ⟨index, key, kind, script, value⟩ := s
  have unsigned : signSighash digest key kind = .error (.sign e) := by
    rw [signSighash, bind_mapError_of_error failed]
  cases value with
  | none =>
    obtain rfl := Except.ok.inj digested
    unfold step Step.apply Transaction.sign
    simp only
    rw [bind_mapError_of_ok key.ofBytes_toBytes, bind_mapError_of_error unsigned]
    rfl
  | some value =>
    change transaction.witnessSighash index script kind value = .ok digest at digested
    unfold step Step.apply Transaction.signWitness
    simp only
    rw [bind_mapError_of_ok key.ofBytes_toBytes, bind_mapError_of_ok digested,
      bind_mapError_of_error unsigned]
    rfl

/-! What a step leaves alone. -/

theorem length_apply (s : SigningStep) (transaction : Transaction) (signature key : Bytes) :
    (s.apply transaction signature key).inputs.length = transaction.inputs.length :=
  List.length_modify ..

theorem locked_store (s : SigningStep) (signature key : Bytes) (input : Input) :
    (s.store signature key input).locked = input.locked := by
  unfold store
  cases s.value with
  | none => rfl
  | some value => rfl

theorem locked_apply (s : SigningStep) (transaction : Transaction) (signature key : Bytes) :
    (s.apply transaction signature key).locked = transaction.locked := by
  have inputs : (transaction.inputs.modify s.index (s.store signature key)).map Input.locked =
      transaction.inputs.map Input.locked := by
    apply List.ext_getElem?
    intro position
    rw [List.getElem?_map, List.getElem?_modify, List.getElem?_map]
    cases transaction.inputs[position]? with
    | none => rfl
    | some input =>
      by_cases here : s.index = position
      · simp only [Option.map_eq_map, Option.map_some, if_pos here, locked_store]
      · simp only [Option.map_eq_map, Option.map_some, if_neg here]
  simp only [apply, Transaction.locked, inputs]

theorem digest_locked (s : SigningStep) (transaction : Transaction) :
    s.digest transaction.locked = s.digest transaction := by
  unfold digest
  cases s.value with
  | none => exact congrArg Except.ok (transaction.sighash_locked _ _ _)
  | some value => exact transaction.witnessSighash_locked _ _ _ value

theorem digest_apply (s later : SigningStep) (transaction : Transaction) (signature key : Bytes) :
    s.digest (later.apply transaction signature key) = s.digest transaction := by
  rw [← digest_locked, locked_apply, digest_locked]

theorem stored_store (s : SigningStep) (signature key : Bytes) (input : Input) :
    s.Stored signature key (s.store signature key input) := by
  unfold Stored store
  cases s.value with
  | none => rfl
  | some value => rfl

theorem stored_store_of_ne {signature key signature' key' : Bytes} {input : Input}
    (stored : s.Stored signature key input) (other : later.value.isSome ≠ s.value.isSome) :
    s.Stored signature key (later.store signature' key' input) := by
  unfold Stored store at *
  cases form : s.value with
  | none =>
    cases form' : later.value with
    | none => exact absurd (by rw [form, form']) other
    | some value => rwa [form] at stored
  | some value =>
    cases form' : later.value with
    | none => rwa [form] at stored
    | some value' => exact absurd (by rw [form, form']; rfl) other

/-! Signatures stand. -/

theorem stands_apply (inside : s.index < transaction.inputs.length) (byte : s.kind.bits ≤ 0xff)
    {digest : Bytes32} (digested : s.digest transaction = .ok digest)
    {signature : EcdsaSignature} (made : EcdsaSignature.sign s.key digest = .ok signature)
    {pub : PublicKey} (found : s.key.publicKey = .ok pub) :
    s.Stands signature (s.apply transaction (Der.layout (Der.parts signature s.kind.bits))
      (pub.encode .compressed)) := by
  obtain ⟨on, valid⟩ := EcdsaSignature.verify_of_sign s.key digest made found
  refine ⟨_, _, pub, digest, ?_, found, s.stored_store _ _ transaction.inputs[s.index],
    Der.decode_layout signature byte, ?_, ?_⟩
  · simp only [apply, List.getElem?_modify, if_true, List.getElem?_eq_getElem inside,
      Option.map_eq_map, Option.map_some]
  · rw [digest_apply, digested]
  · rw [EcdsaSignature.verifyEncoded_encode on (by decide), valid]

theorem Stands.apply {signature : EcdsaSignature} (stands : s.Stands signature transaction)
    (kept : ¬s.OverwrittenBy later) (signature' key' : Bytes) :
    s.Stands signature (later.apply transaction signature' key') := by
  obtain ⟨input, encoded, pub, digest, atIndex, found, stored, decoded, digested, valid⟩ := stands
  by_cases here : later.index = s.index
  · have other : later.value.isSome ≠ s.value.isSome := fun same => kept ⟨here, same⟩
    refine ⟨later.store signature' key' input, encoded, pub, digest, ?_, found,
      stored_store_of_ne stored other, decoded, ?_, valid⟩
    · simp only [SigningStep.apply, List.getElem?_modify, here, if_true, atIndex,
        Option.map_eq_map, Option.map_some]
    · rw [digest_apply, digested]
  · refine ⟨input, encoded, pub, digest, ?_, found, stored, decoded, ?_, valid⟩
    · simp only [SigningStep.apply, List.getElem?_modify, if_neg here, atIndex,
        Option.map_eq_map, Option.map_some]
    · rw [digest_apply, digested]

/-! Runs. -/

/-- A step that fits stores a signature that stands, or else never ends. -/
theorem apply_cases (inside : s.index < transaction.inputs.length) (byte : s.kind.bits ≤ 0xff) :
    ∃ digest, s.digest transaction = .ok digest ∧
      ((EcdsaSignature.sign s.key digest = .error .noNonce ∧
          (s.step.apply transaction).map Prod.fst = .error (.signing (.sign .noNonce))) ∨
        ∃ signature encoded key, EcdsaSignature.sign s.key digest = .ok signature ∧
          (s.step.apply transaction).map Prod.fst = .ok (s.apply transaction encoded key) ∧
          s.Stands signature (s.apply transaction encoded key)) := by
  obtain ⟨digest, digested⟩ := exists_digest inside
  obtain ⟨pub, found, -⟩ := s.key.exists_publicKey
  refine ⟨digest, digested, ?_⟩
  cases made : EcdsaSignature.sign s.key digest with
  | error e =>
    obtain rfl := EcdsaSignature.error_eq_noNonce s.key digest made
    exact Or.inl ⟨rfl, apply_eq_error digested made⟩
  | ok signature =>
    exact Or.inr ⟨signature, _, _, rfl, apply_eq_ok inside byte digested made found,
      stands_apply inside byte digested made found⟩

theorem run_cons (transaction : Transaction) (s : SigningStep) (rest : List SigningStep) :
    run transaction (s :: rest) =
      ((s.step.apply transaction).map Prod.fst).bind fun next => run next rest :=
  List.foldlM_cons

theorem run_nil (transaction : Transaction) : run transaction [] = .ok transaction := rfl

theorem run_of_apply {next : Transaction}
    (applied : (s.step.apply transaction).map Prod.fst = .ok next)
    (rest : List SigningStep) : run transaction (s :: rest) = run next rest := by
  rw [run_cons, applied]
  rfl

theorem run_of_error {e : StepError} (failed : (s.step.apply transaction).map Prod.fst = .error e)
    (rest : List SigningStep) : run transaction (s :: rest) = .error e := by
  rw [run_cons, failed]
  rfl

theorem run_append (transaction : Transaction) (earlier later : List SigningStep) :
    run transaction (earlier ++ later) =
      (run transaction earlier).bind fun before => run before later :=
  List.foldlM_append

/-- That the steps have an input each, and types of one byte. -/
def Fit (transaction : Transaction) (steps : List SigningStep) : Prop :=
  ∀ s ∈ steps, s.index < transaction.inputs.length ∧ s.kind.bits ≤ 0xff

theorem Fit.of_cons {steps : List SigningStep} (fits : Fit transaction (s :: steps)) :
    (s.index < transaction.inputs.length ∧ s.kind.bits ≤ 0xff) ∧ Fit transaction steps :=
  List.forall_mem_cons.mp fits

theorem Fit.apply {steps : List SigningStep} (fits : Fit transaction steps) (s : SigningStep)
    (signature key : Bytes) : Fit (s.apply transaction signature key) steps := by
  intro later member
  rw [length_apply]
  exact fits later member

/-- What holds of a transaction and is kept by each step of a run holds at its end. -/
theorem run_induction {motive : Transaction → Prop} {steps : List SigningStep}
    (fits : Fit transaction steps) {final : Transaction} (ran : run transaction steps = .ok final)
    (start : motive transaction)
    (step : ∀ s ∈ steps, ∀ current signature key, motive current →
      motive (s.apply current signature key)) : motive final := by
  induction steps generalizing transaction with
  | nil =>
    rw [← Except.ok.inj ran]
    exact start
  | cons s rest ih =>
    obtain ⟨⟨inside, byte⟩, fitsRest⟩ := fits.of_cons
    obtain ⟨digest, -, ⟨-, failed⟩ | ⟨signature, encoded, key, -, applied, -⟩⟩ :=
      apply_cases inside byte
    · rw [run_of_error failed] at ran
      exact nomatch ran
    · rw [run_of_apply applied] at ran
      exact ih (fitsRest.apply s encoded key) ran
        (step s List.mem_cons_self transaction encoded key start)
        fun l member => step l (List.mem_cons_of_mem s member)

theorem length_run {steps : List SigningStep} (fits : Fit transaction steps) {final : Transaction}
    (ran : run transaction steps = .ok final) :
    final.inputs.length = transaction.inputs.length :=
  run_induction (motive := fun current => current.inputs.length = transaction.inputs.length)
    fits ran rfl fun s _ current signature key same =>
      (length_apply s current signature key).trans same

theorem digest_run (s : SigningStep) {steps : List SigningStep} (fits : Fit transaction steps)
    {final : Transaction} (ran : run transaction steps = .ok final) :
    s.digest final = s.digest transaction :=
  run_induction (motive := fun current => s.digest current = s.digest transaction)
    fits ran rfl fun later _ current signature key same =>
      (digest_apply s later current signature key).trans same

theorem Fit.run {steps later : List SigningStep} (fits : Fit transaction steps)
    {final : Transaction} (ran : run transaction steps = .ok final)
    (fitsLater : Fit transaction later) : Fit final later := by
  intro l member
  rw [length_run fits ran]
  exact fitsLater l member

theorem Stands.run {signature : EcdsaSignature} (stands : s.Stands signature transaction)
    {steps : List SigningStep} (fits : Fit transaction steps)
    (kept : ∀ l ∈ steps, ¬s.OverwrittenBy l) {final : Transaction}
    (ran : run transaction steps = .ok final) : s.Stands signature final := by
  apply run_induction (motive := s.Stands signature) fits ran stands
  intro l member current signature' key' stands
  exact stands.apply (kept l member) signature' key'

/-- A run fails only at a step whose search for a nonce never ends. -/
theorem exists_of_run_error {steps : List SigningStep} (fits : Fit transaction steps)
    {e : StepError} (failed : run transaction steps = .error e) :
    e = .signing (.sign .noNonce) ∧ ∃ earlier s later before digest,
      steps = earlier ++ s :: later ∧ run transaction earlier = .ok before ∧
      s.digest before = .ok digest ∧ EcdsaSignature.sign s.key digest = .error .noNonce := by
  induction steps generalizing transaction with
  | nil => exact nomatch failed
  | cons s rest ih =>
    obtain ⟨⟨inside, byte⟩, fitsRest⟩ := fits.of_cons
    obtain ⟨digest, digested, ⟨endless, stopped⟩ | ⟨signature, encoded, key, -, applied, -⟩⟩ :=
      apply_cases inside byte
    · rw [run_of_error stopped] at failed
      exact ⟨(Except.error.inj failed).symm, [], s, rest, transaction, digest, rfl, rfl, digested,
        endless⟩
    · rw [run_of_apply applied] at failed
      obtain ⟨same, earlier, s', later, before, digest', split, ran, found⟩ :=
        ih (fitsRest.apply s encoded key) failed
      refine ⟨same, s :: earlier, s', later, before, digest', ?_, ?_, found⟩
      · rw [split, List.cons_append]
      · rw [run_of_apply applied, ran]

/-- After any run of signing steps, each signature that was not overwritten is
stored with its type and verifies over the digest of the final transaction. Only
a search for a nonce that never ends keeps a run from its end. -/
theorem stands_of_run (transaction : Transaction) (steps : List SigningStep)
    (fits : Fit transaction steps) :
    (∀ e, run transaction steps = .error e → e = .signing (.sign .noNonce) ∧
      ∃ earlier s later before digest, steps = earlier ++ s :: later ∧
        run transaction earlier = .ok before ∧ s.digest before = .ok digest ∧
        EcdsaSignature.sign s.key digest = .error .noNonce) ∧
    ∀ final, run transaction steps = .ok final →
      ∀ earlier s later, steps = earlier ++ s :: later → (∀ l ∈ later, ¬s.OverwrittenBy l) →
        ∃ before digest signature, run transaction earlier = .ok before ∧
          s.digest before = .ok digest ∧ EcdsaSignature.sign s.key digest = .ok signature ∧
          s.Stands signature final := by
  refine ⟨fun e failed => exists_of_run_error fits failed, ?_⟩
  rintro final ran earlier s later rfl kept
  obtain ⟨fitsEarlier, fitsHere⟩ := List.forall_mem_append.mp fits
  rw [run_append] at ran
  cases reached : run transaction earlier with
  | error e =>
    rw [reached] at ran
    exact nomatch ran
  | ok before =>
    rw [reached] at ran
    change run before (s :: later) = .ok final at ran
    obtain ⟨⟨inside, byte⟩, fitsLater⟩ := (Fit.run fitsEarlier reached fitsHere).of_cons
    obtain ⟨digest, digested, ⟨-, failed⟩ | ⟨signature, encoded, key, made, applied, stands⟩⟩ :=
      apply_cases inside byte
    · rw [run_of_error failed] at ran
      exact nomatch ran
    · rw [run_of_apply applied] at ran
      exact ⟨before, digest, signature, rfl, digested, made,
        stands.run (fitsLater.apply s encoded key) kept ran⟩

/-! A run that ends. -/

def Signable (s : SigningStep) (transaction : Transaction) : Prop :=
  ∃ digest signature, s.digest transaction = .ok digest ∧
    EcdsaSignature.sign s.key digest = .ok signature

theorem Signable.apply (signable : s.Signable transaction) (earlier : SigningStep)
    (signature key : Bytes) : s.Signable (earlier.apply transaction signature key) := by
  obtain ⟨digest, signature', digested, made⟩ := signable
  exact ⟨digest, signature', (digest_apply s earlier transaction _ _).trans digested, made⟩

/-- No digest changes on the way, so a run ends if all digests at its start can be signed. -/
theorem exists_run {steps : List SigningStep} (fits : Fit transaction steps)
    (signable : ∀ s ∈ steps, s.Signable transaction) : ∃ final, run transaction steps = .ok final := by
  induction steps generalizing transaction with
  | nil => exact ⟨transaction, run_nil transaction⟩
  | cons s rest ih =>
    obtain ⟨⟨inside, byte⟩, fitsRest⟩ := fits.of_cons
    obtain ⟨⟨digest, signature, digested, made⟩, signableRest⟩ := List.forall_mem_cons.mp signable
    obtain ⟨pub, found, -⟩ := s.key.exists_publicKey
    have applied := apply_eq_ok inside byte digested made found
    rw [run_of_apply applied]
    apply ih (fitsRest.apply s _ _)
    intro later member
    exact (signableRest later member).apply s _ _

def legacyAll : SigningStep := ⟨0, EcdsaSignature.keyOne, ⟨1⟩, [0x51, 0xab], none⟩

def witnessAll : SigningStep := ⟨2, PrivateKey.greatest, ⟨1⟩, [0x51], some 5⟩

/-- The output at the place of the third input is signed, where there is none. -/
def legacySingle : SigningStep := ⟨2, EcdsaSignature.keyOne, ⟨3⟩, [], none⟩

def mixed : List SigningStep := [legacyAll, witnessAll, legacySingle]

theorem fits_mixed : Fit .uneven mixed := by
  unfold Fit
  decide

theorem pairwise_mixed : mixed.Pairwise fun s later => ¬s.OverwrittenBy later := by
  unfold OverwrittenBy
  decide

def legacyNonce : Scalar :=
  ⟨⟨0x810ad6631516e9ca, 0xb1bb089cd170f5bd, 0xa0aab4b5b03ea0f2, 0x734549682a41f22a⟩, by decide⟩

def witnessNonce : Scalar :=
  ⟨⟨0xeef7d7ae174c4e28, 0x2820c6da3dfcdc8e, 0xb5e2ccdd50798de6, 0xe80fab73e9bd9cd7⟩, by decide⟩

theorem mulGenerator_legacyNonce : Point.mulGenerator legacyNonce =
    .affine
      ⟨⟨0xcc88e61ecb788afb, 0xd858dacf1f6eebad, 0xd0435045f6259420, 0x4aff7f8d4287d3ae⟩, by decide⟩
      ⟨⟨0x8f61874e09729c5a, 0xe60f4d0a6b9914e1, 0x0c058340135689ec, 0x77ba87645904a443⟩,
        by decide⟩ :=
  Point.mulGenerator_of_standsFor (by decide +kernel)

theorem mulGenerator_witnessNonce : Point.mulGenerator witnessNonce =
    .affine
      ⟨⟨0xa778c5fa3434e689, 0x58ec263c8fb21c76, 0xa271e09bf3188bf4, 0x2149687752d674bc⟩, by decide⟩
      ⟨⟨0x70e2e086753e28e1, 0x1a18de31bcc93710, 0x334d2fb96574ca12, 0x51f1f3854a98e0a4⟩,
        by decide⟩ :=
  Point.mulGenerator_of_standsFor (by decide +kernel)

theorem signable_legacyAll : legacyAll.Signable .uneven := by
  obtain ⟨signature, made⟩ : ∃ signature, EcdsaSignature.sign EcdsaSignature.keyOne
      (Transaction.uneven.sighash 0 [0x51, 0xab] ⟨1⟩) = .ok signature :=
    EcdsaSignature.exists_sign (by decide +kernel) (by decide) mulGenerator_legacyNonce
      (by decide +kernel) (by decide +kernel)
  exact ⟨_, signature, rfl, made⟩

def thirdInput : Input := ⟨⟨Bytes32.zero, 2⟩, [], 7, [[1]]⟩

theorem digest_witnessAll : witnessAll.digest .uneven =
    .ok (doubleSha256 (Transaction.uneven.witnessPreimage 2 thirdInput [0x51] ⟨1⟩ 5)) := by
  have found : Transaction.uneven.inputs[2]? = some thirdInput := rfl
  change Transaction.uneven.witnessSighash 2 [0x51] ⟨1⟩ 5 = _
  rw [Transaction.witnessSighash, found]

theorem signable_witnessAll : witnessAll.Signable .uneven := by
  obtain ⟨signature, made⟩ : ∃ signature, EcdsaSignature.sign PrivateKey.greatest
      (doubleSha256 (Transaction.uneven.witnessPreimage 2 thirdInput [0x51] ⟨1⟩ 5)) =
        .ok signature :=
    EcdsaSignature.exists_sign (by decide +kernel) (by decide) mulGenerator_witnessNonce
      (by decide +kernel) (by decide +kernel)
  exact ⟨_, signature, digest_witnessAll, made⟩

theorem digest_legacySingle : legacySingle.digest .uneven = .ok Transaction.missingDigest := by
  have missing : Transaction.uneven.outputs.length ≤ 2 := by decide
  exact congrArg Except.ok (Transaction.sighash_eq_missingDigest (.inr ⟨by decide, missing⟩))

theorem signable_legacySingle : legacySingle.Signable .uneven := by
  obtain ⟨signature, made⟩ := EcdsaSignature.sign_one
  exact ⟨_, signature, digest_legacySingle, made⟩

theorem exists_run_mixed : ∃ final, run .uneven mixed = .ok final := by
  apply exists_run fits_mixed
  intro s member
  rcases List.mem_cons.mp member with rfl | member
  · exact signable_legacyAll
  rcases List.mem_cons.mp member with rfl | member
  · exact signable_witnessAll
  · rw [List.mem_singleton.mp member]
    exact signable_legacySingle

/-- Both kinds of digests are signed, and one for an output that is missing. The last script is
written beside the witness of the same input. -/
theorem stands_of_run_mixed :
    Transaction.uneven.sighash 0 [0x51, 0xab] ⟨1⟩ ≠ Transaction.missingDigest ∧
    legacySingle.digest .uneven = .ok Transaction.missingDigest ∧
    ∃ final, run .uneven mixed = .ok final ∧
      ∀ s ∈ mixed, ∃ digest signature, s.digest .uneven = .ok digest ∧
        EcdsaSignature.sign s.key digest = .ok signature ∧ s.Stands signature final := by
  obtain ⟨final, ran⟩ := exists_run_mixed
  refine ⟨by decide +kernel, digest_legacySingle, final, ran, ?_⟩
  intro s member
  obtain ⟨earlier, later, split⟩ := List.append_of_mem member
  have apart := pairwise_mixed
  rw [split, List.pairwise_append, List.pairwise_cons] at apart
  have fits : Fit .uneven earlier := by
    have whole := fits_mixed
    rw [split] at whole
    exact (List.forall_mem_append.mp whole).1
  obtain ⟨before, digest, signature, reached, digested, made, stands⟩ :=
    (stands_of_run .uneven mixed fits_mixed).2 final ran earlier s later split apart.2.1.1
  rw [digest_run s fits reached] at digested
  exact ⟨digest, signature, digested, made, stands⟩

end SigningStep

end BitcoinSigning
