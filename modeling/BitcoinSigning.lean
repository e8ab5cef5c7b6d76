import BitcoinSigning.Session.Step
import BitcoinSigning.Signature.Scheme
import BitcoinSigning.Taproot.Tree
import BitcoinSigning.Proofs.Limbs.BitFold
import BitcoinSigning.Proofs.Modular.Certificate
import BitcoinSigning.Proofs.Modular.Ring
import BitcoinSigning.Proofs.Modular.PrimeField
import BitcoinSigning.Proofs.Curve.ChordTangent
import BitcoinSigning.Proofs.Curve.Group
import BitcoinSigning.Proofs.Curve.Ladder
import BitcoinSigning.Proofs.Curve.OffCurve
import BitcoinSigning.Proofs.Curve.Numbers
import BitcoinSigning.Proofs.Curve.Order
import BitcoinSigning.Proofs.Curve.Decoding
import BitcoinSigning.Proofs.Curve.Encodings
import BitcoinSigning.Proofs.Limbs.Words
import BitcoinSigning.Proofs.Modular.Computation
import BitcoinSigning.Proofs.Modular.StoredWords
import BitcoinSigning.Proofs.Modular.Canonical
import BitcoinSigning.Proofs.Curve.Multiples
import BitcoinSigning.Proofs.Curve.EvenLift
import BitcoinSigning.Proofs.Key.EvenKey
import BitcoinSigning.Proofs.Signature.NonceSearch
import BitcoinSigning.Proofs.Signature.EcdsaSigning
import BitcoinSigning.Proofs.Signature.SchnorrVerification
import BitcoinSigning.Proofs.Signature.SchnorrSigning
import BitcoinSigning.Proofs.Signature.DerRoundTrip
import BitcoinSigning.Proofs.Signature.DerIntegers
import BitcoinSigning.Proofs.Signature.DerCutting
import BitcoinSigning.Proofs.Signature.DerIndexing
import BitcoinSigning.Proofs.Signature.DerStrictness
import BitcoinSigning.Proofs.Taproot.KeyTweak
import BitcoinSigning.Proofs.Sighash.Unlocking
import BitcoinSigning.Proofs.Sighash.LegacyMessage
import BitcoinSigning.Proofs.Session.SigningRun
import BitcoinSigning.Proofs.Encoding.CompactSizeReading
import BitcoinSigning.Proofs.Encoding.PrefixFree
import BitcoinSigning.Proofs.Encoding.Streaming
import BitcoinSigning.Proofs.Transaction.Reading
import BitcoinSigning.Proofs.Transaction.Forms
import BitcoinSigning.Proofs.Transaction.Unambiguous
import BitcoinSigning.Proofs.Transaction.RoundTrip
import BitcoinSigning.Proofs.Transaction.Streaming
import BitcoinSigning.Proofs.Script.Stripping
import BitcoinSigning.Proofs.Sighash.Coverage
import BitcoinSigning.Proofs.Sighash.WitnessCommitment
import BitcoinSigning.Proofs.Signature.EcdsaNormalForm
import BitcoinSigning.Proofs.Key.Aggregation
import BitcoinSigning.Proofs.Key.SharedSecret
import BitcoinSigning.Proofs.Key.Construction
import BitcoinSigning.Proofs.Limbs.CarriedSums
import BitcoinSigning.Proofs.Limbs.Exactness
import BitcoinSigning.Proofs.Modular.TwoFolds
import BitcoinSigning.Proofs.Modular.FoldingLoop
import BitcoinSigning.Proofs.Modular.PowerLaws
import BitcoinSigning.Proofs.Hash.Separation
import BitcoinSigning.Proofs.Taproot.TreeCommitment
import BitcoinSigning.Proofs.Key.Validity
import BitcoinSigning.Proofs.Signature.NonceSequence
import BitcoinSigning.Proofs.Signature.NonceCalls
import BitcoinSigning.Proofs.Script.Parsing
import BitcoinSigning.Proofs.Script.Walking
import BitcoinSigning.Proofs.Script.Removal
import BitcoinSigning.Proofs.Script.Building
import BitcoinSigning.Proofs.Taproot.TreeShape
import BitcoinSigning.Proofs.Encoding.CanonicalSizes
import BitcoinSigning.Proofs.Transaction.Identifiers
import BitcoinSigning.Proofs.Encoding.Writing
import BitcoinSigning.Proofs.Transaction.Writing
import BitcoinSigning.Proofs.Signature.DerUniqueness
