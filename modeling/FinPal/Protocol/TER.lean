import Mathlib.Data.Int.Order.Basic

/-!
# Transaction engine results

The result codes of `protocol/TER.h`. The classes of codes are ranges of their numbers, predicates
on `TER.code` as `isTecClaim` and its siblings are in the header.
-/

namespace FinPal

inductive TER where
  | telLOCAL_ERROR | telBAD_DOMAIN | telBAD_PATH_COUNT | telBAD_PUBLIC_KEY | telFAILED_PROCESSING
  | telINSUF_FEE_P | telNO_DST_PARTIAL | telCAN_NOT_QUEUE
  | temMALFORMED | temBAD_AMOUNT | temBAD_CURRENCY | temBAD_EXPIRATION | temBAD_FEE
  | temBAD_ISSUER | temBAD_LIMIT | temBAD_OFFER | temBAD_PATH | temBAD_PATH_LOOP
  | temBAD_SEND_M_LIMIT | temBAD_SEND_M_MAX | temBAD_SEND_M_NO_DIRECT | temBAD_SEND_M_PARTIAL
  | temBAD_SEND_M_PATHS | temBAD_SEQUENCE | temBAD_SIGNATURE | temBAD_SRC_ACCOUNT
  | temBAD_TRANSFER_RATE | temDST_IS_SRC | temDST_NEEDED | temINVALID | temINVALID_FLAG
  | temREDUNDANT | temMTCHAIN_EMPTY | temDISABLED | temBAD_SIGNER | temBAD_QUORUM
  | temBAD_WEIGHT | temBAD_TICK_SIZE | temBAD_ASSET | temBAD_TOKEN | temUNCERTAIN | temUNKNOWN
  | tefFAILURE | tefALREADY | tefBAD_ADD_AUTH | tefBAD_AUTH | tefBAD_LEDGER | tefCREATED
  | tefEXCEPTION | tefINTERNAL | tefNO_AUTH_REQUIRED | tefPAST_SEQ | tefWRONG_PRIOR
  | tefMASTER_DISABLED | tefMAX_LEDGER | tefBAD_SIGNATURE | tefBAD_QUORUM
  | tefNOT_MULTI_SIGNING | tefBAD_AUTH_MASTER | tefASSET_EXIST | tefNO_OWNER | tefNO_ASSET
  | tefTOKEN_EXIST | tefNO_TOKEN | tefDST_IS_OWNER | tefDESTROY_ASSET
  | terRETRY | terFUNDS_SPENT | terINSUF_FEE_B | terNO_ACCOUNT | terNO_AUTH | terNO_LINE
  | terOWNERS | terPRE_SEQ | terLAST | terNO_MTCHAIN | terQUEUED
  | tesSUCCESS
  | tecCLAIM | tecPATH_PARTIAL | tecUNFUNDED_ADD | tecUNFUNDED_OFFER | tecUNFUNDED_PAYMENT
  | tecFAILED_PROCESSING | tecUNFUNDED_DEAL_OFFER | tecFAILED_IOU_FEE | tecNO_LINE_IOU_FEE
  | tecEXCEED_TRUST_LIMIT | tecUNFUNDED_PAYMENT_IOU | tecUNFUNDED_PAYMENT_IOU_FEE
  | tecIOU_PRECISION_MISMATCH | tecFORBID_TRUST_LINE | tecDIR_FULL | tecINSUF_RESERVE_LINE
  | tecINSUF_RESERVE_OFFER | tecNO_DST | tecNO_DST_INSUF_M | tecNO_LINE_INSUF_RESERVE
  | tecNO_LINE_REDUNDANT | tecPATH_DRY | tecUNFUNDED | tecNO_ALTERNATIVE_KEY
  | tecNO_REGULAR_KEY | tecOWNERS | tecNO_ISSUER | tecNO_AUTH | tecNO_LINE | tecINSUFF_FEE
  | tecFROZEN | tecNO_TARGET | tecNO_PERMISSION | tecNO_ENTRY | tecINSUFFICIENT_RESERVE
  | tecNEED_MASTER_KEY | tecDST_TAG_NEEDED | tecINTERNAL | tecOVERSIZE
  | tecCRYPTOCONDITION_ERROR | tecOVERISSUE
  deriving DecidableEq, Repr

namespace TER

/-- The number of a code. The ranges count up from where the header starts them, but `tec` codes
have the fixed numbers that metadata records. -/
def code (t : TER) : Int :=
  let i : Int := t.ctorIdx
  if i < TER.temMALFORMED.ctorIdx then -399 + i
  else if i < TER.tefFAILURE.ctorIdx then -299 + (i - TER.temMALFORMED.ctorIdx)
  else if i < TER.terRETRY.ctorIdx then -199 + (i - TER.tefFAILURE.ctorIdx)
  else if i < TER.tesSUCCESS.ctorIdx then -99 + (i - TER.terRETRY.ctorIdx)
  else if i = TER.tesSUCCESS.ctorIdx then 0
  else if i < TER.tecDIR_FULL.ctorIdx then 100 + (i - TER.tecCLAIM.ctorIdx)
  else 121 + (i - TER.tecDIR_FULL.ctorIdx)

def isTemMalformed (t : TER) : Bool := TER.temMALFORMED.code ≤ t.code && t.code < TER.tefFAILURE.code
def isTefFailure (t : TER) : Bool := TER.tefFAILURE.code ≤ t.code && t.code < TER.terRETRY.code
def isTerRetry (t : TER) : Bool := TER.terRETRY.code ≤ t.code && t.code < TER.tesSUCCESS.code
def isTecClaim (t : TER) : Bool := TER.tecCLAIM.code ≤ t.code

example : TER.tecOVERISSUE.code = 147 ∧ TER.tefDESTROY_ASSET.code = -176 := by decide

end TER
end FinPal
