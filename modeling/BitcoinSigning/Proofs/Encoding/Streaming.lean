import BitcoinSigning.Proofs.Encoding.Reading
/-!
Decoders over sources that have more or fewer bytes. A decoder settles after some bytes if
these decide its outcome, whatever follows them, and nothing less does: on a part of them it
sees the ending of the source. Decoders that on all bytes either settle or see the ending
are closed under everything that decoders are made from.
-/

namespace BitcoinSigning

def DecodeError.isRefusal : DecodeError → Bool
  | unexpectedEnd => false
  | sourceFailed _ => false
  | _ => true

theorem DecodeError.ne_error_of_isRefusal {e : DecodeError} (refusal : e.isRefusal = true)
    (ending : Ending) : e ≠ ending.error := by
  rintro rfl
  cases ending with
  | endOfData => cases refusal
  | failure message => cases refusal

namespace Decoder

variable {α β : Type} {used bytes front : Bytes} {e : DecodeError}

theorem prefix_append_cases {first second : Bytes} (part : front <+: first ++ second) :
    (front <+: first ∧ front ≠ first) ∨ ∃ tail, front = first ++ tail ∧ tail <+: second := by
  rcases List.prefix_or_prefix_of_prefix part (List.prefix_append first second) with
    within | ⟨tail, rfl⟩
  · by_cases whole : front = first
    · exact Or.inr ⟨[], by rw [whole, List.append_nil], List.nil_prefix⟩
    · exact Or.inl ⟨within, whole⟩
  · exact Or.inr ⟨tail, rfl, (List.prefix_append_right_inj first).mp part⟩

/-- The decoder sees the ending of the source behind these bytes, and behind any part of
them. -/
def Starves (decoder : Decoder α) (bytes : Bytes) : Prop :=
  ∀ front, front <+: bytes → ∀ ending, decoder ⟨front, ending⟩ = .error ending.error

/-- The decoder has this outcome after just these bytes, whatever comes behind them. -/
structure Settles (decoder : Decoder α) (used : Bytes) (outcome : Except DecodeError α) :
    Prop where
  settled : ∀ tail ending,
    decoder ⟨used ++ tail, ending⟩ = outcome.map fun a => (a, ⟨tail, ending⟩)
  starved : ∀ front, front <+: used → front ≠ used → ∀ ending,
    decoder ⟨front, ending⟩ = .error ending.error
  refusal : ∀ e, outcome = .error e → e.isRefusal = true

def Streams (decoder : Decoder α) : Prop :=
  ∀ bytes, Starves decoder bytes ∨
    ∃ used tail outcome, bytes = used ++ tail ∧ Settles decoder used outcome

theorem streams_pure (a : α) : Streams (pure a) := by
  refine fun bytes => Or.inr ⟨[], bytes, .ok a, rfl, fun _ _ => rfl, fun _ part strict => ?_, nofun⟩
  exact absurd (List.prefix_nil.mp part) strict

theorem streams_throw (refusal : e.isRefusal = true) : Streams (throw e : Decoder α) := by
  refine fun bytes => Or.inr ⟨[], bytes, .error e, rfl, fun _ _ => rfl, fun _ part strict => ?_,
    fun e' same => ?_⟩
  · exact absurd (List.prefix_nil.mp part) strict
  · cases same
    exact refusal

theorem Starves.bind {first : Decoder α} (starves : Starves first bytes) (next : α → Decoder β) :
    Starves (first >>= next) bytes :=
  fun front part ending => bind_of_error (starves front part ending)

theorem Settles.bind_of_error {first : Decoder α} (settles : Settles first used (.error e))
    (next : α → Decoder β) : Settles (first >>= next) used (.error e) where
  settled tail ending := Decoder.bind_of_error (settles.settled tail ending)
  starved front part strict ending :=
    Decoder.bind_of_error (settles.starved front part strict ending)
  refusal e' same := by
    cases same
    exact settles.refusal e rfl

variable {first : Decoder α} {next : α → Decoder β} {a : α}

theorem Settles.bind_starves (settles : Settles first used (.ok a)) {tail : Bytes}
    (starves : Starves (next a) tail) : Starves (first >>= next) (used ++ tail) := by
  intro front part ending
  rcases prefix_append_cases part with ⟨within, strict⟩ | ⟨rest, rfl, within⟩
  · exact Decoder.bind_of_error (settles.starved front within strict ending)
  · rw [bind_of_ok (settles.settled rest ending)]
    exact starves rest within ending

theorem Settles.bind {outcome : Except DecodeError β} {used' : Bytes}
    (settles : Settles first used (.ok a)) (settles' : Settles (next a) used' outcome) :
    Settles (first >>= next) (used ++ used') outcome where
  settled tail ending := by
    rw [List.append_assoc, bind_of_ok (settles.settled (used' ++ tail) ending)]
    exact settles'.settled tail ending
  starved front part strict ending := by
    rcases prefix_append_cases part with ⟨within, less⟩ | ⟨rest, rfl, within⟩
    · exact Decoder.bind_of_error (settles.starved front within less ending)
    · rw [bind_of_ok (settles.settled rest ending)]
      exact settles'.starved rest within (fun same => strict (congrArg (used ++ ·) same)) ending
  refusal := settles'.refusal

theorem Streams.bind (streams : Streams first) (streams' : ∀ a, Streams (next a)) :
    Streams (first >>= next) := by
  intro bytes
  rcases streams bytes with starves | ⟨used, tail, outcome, rfl, settles⟩
  · exact Or.inl (starves.bind next)
  cases outcome with
  | error e => exact Or.inr ⟨used, tail, .error e, rfl, settles.bind_of_error next⟩
  | ok a =>
    rcases streams' a tail with starves | ⟨used', rest, outcome, rfl, settles'⟩
    · exact Or.inl (settles.bind_starves starves)
    · exact Or.inr ⟨used ++ used', rest, outcome, (List.append_assoc _ _ _).symm,
        settles.bind settles'⟩

theorem Streams.ite {chosen : Prop} [Decidable chosen] {second : Decoder α}
    (streams : Streams first) (streams' : Streams second) :
    Streams (if chosen then first else second) := by
  split
  · exact streams
  · exact streams'

theorem Streams.unless {refused : Prop} [Decidable refused] {following : PUnit → Decoder α}
    (refusal : e.isRefusal = true) (streams : Streams (following ⟨⟩)) :
    Streams (if refused then throw e >>= following else following ⟨⟩) :=
  ((streams_throw refusal).bind fun _ => streams).ite streams

theorem exactly_of_short {length : Nat} {source : Source} (short : source.bytes.length < length) :
    exactly length source = .error source.ending.error := by
  have few : (source.bytes.take length).length ≠ length := by
    rw [List.length_take]
    omega
  exact dif_neg few

theorem exactly_settles {length : Nat} (found : { bytes : Bytes // bytes.length = length }) :
    Settles (exactly length) found.val (.ok found) where
  settled tail ending := exactly_eq_ok_iff.mpr rfl
  starved front part strict ending := by
    apply exactly_of_short
    apply Nat.lt_of_le_of_ne (found.property ▸ part.length_le)
    exact fun same => strict (part.eq_of_length (same.trans found.property.symm))
  refusal := nofun

theorem exactly_streams (length : Nat) : Streams (exactly length) := by
  intro bytes
  by_cases enough : length ≤ bytes.length
  · exact Or.inr ⟨_, bytes.drop length, _, (List.take_append_drop length bytes).symm,
      exactly_settles ⟨bytes.take length, List.length_take_of_le enough⟩⟩
  · exact Or.inl fun front part ending =>
      exactly_of_short (Nat.lt_of_le_of_lt part.length_le (Nat.not_le.mp enough))

theorem take_streams (length : Nat) : Streams (take length) :=
  (exactly_streams length).bind fun _ => streams_pure _

theorem unsigned_streams (width : Nat) : Streams (unsigned width) :=
  (take_streams width).bind fun _ => streams_pure _

theorem byte_streams : Streams byte := (unsigned_streams 1).bind fun _ => streams_pure _

theorem uint32_streams : Streams uint32 := (unsigned_streams 4).bind fun _ => streams_pure _

theorem uint64_streams : Streams uint64 := (unsigned_streams 8).bind fun _ => streams_pure _

theorem bytes32_streams : Streams bytes32 := (exactly_streams 32).bind fun _ => streams_pure _

theorem times_streams {item : Decoder α} (streams : Streams item) (count : Nat) :
    Streams (times count item) := by
  induction count with
  | zero => exact streams_pure []
  | succ count ih =>
    rw [times_succ]
    exact streams.bind fun _ => ih.bind fun _ => streams_pure _

/-! Sources with more bytes, and sources that fail. -/

/-- How a decoder behaves on the bytes of a source, on more and on fewer of them, and when
the source fails behind them. -/
structure StreamingLaw (decoder : Decoder α) : Prop where
  /-- The value stands when there are more bytes, and needs all that were taken. -/
  value : ∀ bytes a source, decoder (.ofBytes bytes) = .ok (a, source) →
    ∃ used rest, source = .ofBytes rest ∧ bytes = used ++ rest ∧
      (∀ more, decoder (.ofBytes (bytes ++ more)) = .ok (a, .ofBytes (rest ++ more))) ∧
      ∀ front, front <+: used → front ≠ used →
        decoder (.ofBytes front) = .error .unexpectedEnd
  /-- A reason to refuse the bytes is one to refuse more of them. -/
  refusal : ∀ bytes e, decoder (.ofBytes bytes) = .error e → e ≠ .unexpectedEnd →
    ∀ more, decoder (.ofBytes (bytes ++ more)) = .error e
  failure : ∀ bytes message, decoder ⟨bytes, .failure message⟩ = .error (.sourceFailed message) ↔
    decoder (.ofBytes bytes) = .error .unexpectedEnd
  unchanged : ∀ bytes message, decoder (.ofBytes bytes) ≠ .error .unexpectedEnd →
    decoder ⟨bytes, .failure message⟩ = (decoder (.ofBytes bytes)).map fun (a, rest) =>
      (a, ⟨rest.bytes, .failure message⟩)

theorem Starves.ofBytes {decoder : Decoder α} (starves : Starves decoder bytes) :
    decoder (.ofBytes bytes) = .error .unexpectedEnd :=
  starves bytes List.prefix_rfl .endOfData

theorem Settles.ne_unexpectedEnd {decoder : Decoder α} {outcome : Except DecodeError α}
    (settles : Settles decoder used outcome) (tail : Bytes) (ending : Ending) :
    decoder ⟨used ++ tail, ending⟩ ≠ .error .unexpectedEnd := by
  rw [settles.settled]
  cases outcome with
  | ok a => exact nofun
  | error e =>
    intro same
    exact e.ne_error_of_isRefusal (settles.refusal e rfl) .endOfData (Except.error.inj same)

theorem Streams.law {decoder : Decoder α} (streams : Streams decoder) : StreamingLaw decoder where
  value bytes a source found := by
    rcases streams bytes with starves | ⟨used, rest, outcome, rfl, settles⟩
    · cases starves.ofBytes.symm.trans found
    have settled := settles.settled rest .endOfData
    cases outcome with
    | error e => cases settled.symm.trans found
    | ok a' =>
      cases settled.symm.trans found
      refine ⟨used, rest, rfl, rfl, fun more => ?_, fun front part strict =>
        settles.starved front part strict .endOfData⟩
      rw [List.append_assoc]
      exact settles.settled (rest ++ more) .endOfData
  refusal bytes e refused ended more := by
    rcases streams bytes with starves | ⟨used, rest, outcome, rfl, settles⟩
    · cases starves.ofBytes.symm.trans refused
      exact absurd rfl ended
    have settled := settles.settled rest .endOfData
    cases outcome with
    | ok a => cases settled.symm.trans refused
    | error e' =>
      cases settled.symm.trans refused
      rw [List.append_assoc]
      exact settles.settled (rest ++ more) .endOfData
  failure bytes message := by
    rcases streams bytes with starves | ⟨used, rest, outcome, rfl, settles⟩
    · exact ⟨fun _ => starves.ofBytes, fun _ => starves bytes List.prefix_rfl _⟩
    refine ⟨fun failed => ?_, fun ended => absurd ended (settles.ne_unexpectedEnd rest .endOfData)⟩
    rw [settles.settled] at failed
    cases outcome with
    | ok a => cases failed
    | error e =>
      have refusal := settles.refusal e rfl
      exact absurd (Except.error.inj failed) (e.ne_error_of_isRefusal refusal (.failure message))
  unchanged bytes message ended := by
    rcases streams bytes with starves | ⟨used, rest, outcome, rfl, settles⟩
    · exact absurd starves.ofBytes ended
    rw [Source.ofBytes, settles.settled, settles.settled]
    cases outcome with
    | ok a => rfl
    | error e => rfl

/-- As many bytes as there are up to a limit. A source is not asked for bytes beyond the
limit, and so a failure behind it is not seen. -/
def upTo (limit : Nat) : Decoder Bytes := fun source =>
  if limit ≤ source.bytes.length then
    .ok (source.bytes.take limit, { source with bytes := source.bytes.drop limit })
  else
    match source.ending with
    | .endOfData => .ok (source.bytes, { source with bytes := [] })
    | .failure message => .error (.sourceFailed message)

theorem take_eq_upTo (length : Nat) : take length = do
    let bytes ← upTo length
    if bytes.length ≠ length then throw .unexpectedEnd
    return bytes := by
  funext source
  obtain ⟨bytes, ending⟩ := source
  by_cases enough : length ≤ bytes.length
  · have counted : (bytes.take length).length = length := List.length_take_of_le enough
    rw [take, bind_of_ok (dif_pos counted), bind_of_ok (if_pos enough),
      if_neg (not_not_intro counted)]
  have short := Nat.not_le.mp enough
  rw [take_eq_error length ⟨bytes, ending⟩ short]
  cases ending with
  | endOfData =>
    rw [bind_of_ok (if_neg enough), if_pos (Nat.ne_of_lt short)]
    rfl
  | failure message => exact (bind_of_error (if_neg enough)).symm

end Decoder

end BitcoinSigning
