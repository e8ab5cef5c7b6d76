import BitcoinSigning.Encoding.Source
import BitcoinSigning.Sighash.Witness
import BitcoinSigning.Signature.Der
import BitcoinSigning.Taproot.Tweak
/-!
What may go wrong on the way from the bytes of a transaction to a signature.
-/

namespace BitcoinSigning

inductive SigningError
  | curve (error : CurveError)
  | sign (error : SignError)
  | der (error : DerError)
  | taproot (error : TaprootError)
  | sighash (error : SighashError)
  | decode (error : DecodeError)
  deriving DecidableEq

def SigningError.message : SigningError → String
  | curve error => error.message
  | sign error => error.message
  | der error => error.message
  | taproot error => error.message
  | sighash error => error.message
  | decode error => error.message

end BitcoinSigning
