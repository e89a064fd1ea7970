import XdrText.Schema.Initial

/-!
# XdrText — transaction envelopes

The schema of the documents that the text form was made for: a transaction of one of three kinds
with the operations that it carries out and the signatures under it.
-/

namespace XdrText.Envelope

/-- The name of the type of whole documents. -/
def typeName : String := "TransactionEnvelope"

/-- The type of whole documents. -/
def ty : Ty := .union typeName

/-- The greatest number of operations in a transaction. -/
def maxOperations : UInt32 := 100

/-- The greatest number of signatures under a transaction. -/
def maxSignatures : UInt32 := 20

/-- The enums of envelopes. -/
def enums : List EnumDecl :=
  [ { name := "EnvelopeType"
      symbols :=
        [ ("ENVELOPE_TYPE_TX_V0", 0),
          ("ENVELOPE_TYPE_SCP", 1),
          ("ENVELOPE_TYPE_TX", 2),
          ("ENVELOPE_TYPE_AUTH", 3),
          ("ENVELOPE_TYPE_SCPVALUE", 4),
          ("ENVELOPE_TYPE_TX_FEE_BUMP", 5),
          ("ENVELOPE_TYPE_OP_ID", 6) ] },
    { name := "MemoType"
      symbols :=
        [ ("MEMO_NONE", 0),
          ("MEMO_TEXT", 1),
          ("MEMO_ID", 2),
          ("MEMO_HASH", 3),
          ("MEMO_RETURN", 4) ] },
    { name := "AssetType"
      symbols :=
        [ ("ASSET_TYPE_NATIVE", 0),
          ("ASSET_TYPE_CREDIT_ALPHANUM4", 1),
          ("ASSET_TYPE_CREDIT_ALPHANUM12", 2) ] },
    { name := "OperationType"
      symbols :=
        [ ("CREATE_ACCOUNT", 0),
          ("PAYMENT", 1),
          ("PATH_PAYMENT_STRICT_RECEIVE", 2),
          ("MANAGE_SELL_OFFER", 3),
          ("CREATE_PASSIVE_SELL_OFFER", 4),
          ("SET_OPTIONS", 5),
          ("CHANGE_TRUST", 6),
          ("ALLOW_TRUST", 7),
          ("ACCOUNT_MERGE", 8),
          ("INFLATION", 9),
          ("MANAGE_DATA", 10),
          ("BUMP_SEQUENCE", 11),
          ("MANAGE_BUY_OFFER", 12),
          ("PATH_PAYMENT_STRICT_SEND", 13) ] } ]

def operations : Field := ⟨"operations", .seq (.struct "Operation") maxOperations⟩

def signatures : Field := ⟨"signatures", .seq .signature maxSignatures⟩

/-- The parts of a document: transactions and their envelopes. -/
def transactionStructs : List StructDecl :=
  [ ⟨"TimeBounds", [⟨"minTime", .time⟩, ⟨"maxTime", .time⟩]⟩,
    ⟨"Price", [⟨"n", .int⟩, ⟨"d", .int⟩]⟩,
    ⟨"Signer", [⟨"key", .signer⟩, ⟨"weight", .uint⟩]⟩,
    ⟨"TransactionV0",
      [ ⟨"sourceAccountEd25519", .fixed 32⟩,
        ⟨"fee", .uint⟩,
        ⟨"seqNum", .hyper⟩,
        ⟨"timeBounds", .optional (.struct "TimeBounds")⟩,
        ⟨"memo", .union "Memo"⟩,
        operations,
        ⟨"ext", .union "TransactionV0Ext"⟩ ]⟩,
    ⟨"TransactionV0Envelope", [⟨"tx", .struct "TransactionV0"⟩, signatures]⟩,
    ⟨"Transaction",
      [ ⟨"sourceAccount", .account⟩,
        ⟨"fee", .uint⟩,
        ⟨"seqNum", .hyper⟩,
        ⟨"timeBounds", .optional (.struct "TimeBounds")⟩,
        ⟨"memo", .union "Memo"⟩,
        operations,
        ⟨"ext", .union "TransactionExt"⟩ ]⟩,
    ⟨"TransactionV1Envelope", [⟨"tx", .struct "Transaction"⟩, signatures]⟩,
    ⟨"FeeBumpTransaction",
      [ ⟨"feeSource", .account⟩,
        ⟨"fee", .amount⟩,
        ⟨"innerTx", .union "FeeBumpInnerTx"⟩,
        ⟨"ext", .union "FeeBumpTransactionExt"⟩ ]⟩,
    ⟨"FeeBumpTransactionEnvelope", [⟨"tx", .struct "FeeBumpTransaction"⟩, signatures]⟩ ]

/-- The operations of a transaction. -/
def operationStructs : List StructDecl :=
  [ ⟨"Operation", [⟨"sourceAccount", .optional .account⟩, ⟨"body", .union "OperationBody"⟩]⟩,
    ⟨"CreateAccountOp", [⟨"destination", .account⟩, ⟨"startingBalance", .amount⟩]⟩,
    ⟨"PaymentOp", [⟨"destination", .account⟩, ⟨"asset", .asset⟩, ⟨"amount", .amount⟩]⟩,
    ⟨"PathPaymentStrictReceiveOp",
      [ ⟨"sendAsset", .asset⟩,
        ⟨"sendMax", .amount⟩,
        ⟨"destination", .account⟩,
        ⟨"destAsset", .asset⟩,
        ⟨"destAmount", .amount⟩,
        ⟨"path", .seq .asset 5⟩ ]⟩,
    ⟨"PathPaymentStrictSendOp",
      [ ⟨"sendAsset", .asset⟩,
        ⟨"sendAmount", .amount⟩,
        ⟨"destination", .account⟩,
        ⟨"destAsset", .asset⟩,
        ⟨"destMin", .amount⟩,
        ⟨"path", .seq .asset 5⟩ ]⟩,
    ⟨"ManageSellOfferOp",
      [ ⟨"selling", .asset⟩,
        ⟨"buying", .asset⟩,
        ⟨"amount", .amount⟩,
        ⟨"price", .struct "Price"⟩,
        ⟨"offerID", .amount⟩ ]⟩,
    ⟨"ManageBuyOfferOp",
      [ ⟨"selling", .asset⟩,
        ⟨"buying", .asset⟩,
        ⟨"buyAmount", .amount⟩,
        ⟨"price", .struct "Price"⟩,
        ⟨"offerID", .amount⟩ ]⟩,
    ⟨"CreatePassiveSellOfferOp",
      [ ⟨"selling", .asset⟩,
        ⟨"buying", .asset⟩,
        ⟨"amount", .amount⟩,
        ⟨"price", .struct "Price"⟩ ]⟩,
    ⟨"SetOptionsOp",
      [ ⟨"inflationDest", .optional .account⟩,
        ⟨"clearFlags", .optional .uint⟩,
        ⟨"setFlags", .optional .uint⟩,
        ⟨"masterWeight", .optional .uint⟩,
        ⟨"lowThreshold", .optional .uint⟩,
        ⟨"medThreshold", .optional .uint⟩,
        ⟨"highThreshold", .optional .uint⟩,
        ⟨"homeDomain", .optional (.string 32)⟩,
        ⟨"signer", .optional (.struct "Signer")⟩ ]⟩,
    ⟨"ChangeTrustOp", [⟨"line", .asset⟩, ⟨"limit", .amount⟩]⟩,
    ⟨"AllowTrustOp",
      [ ⟨"trustor", .account⟩,
        ⟨"asset", .union "AllowTrustAsset"⟩,
        ⟨"authorize", .uint⟩ ]⟩,
    ⟨"ManageDataOp", [⟨"dataName", .string 64⟩, ⟨"dataValue", .optional (.bytes 64)⟩]⟩,
    ⟨"BumpSequenceOp", [⟨"bumpTo", .hyper⟩]⟩ ]

/-- A union of a symbol's arm each, without an arm for other values. -/
def symbolUnion (name tagEnum : String) (arms : List (String × Option Field)) : UnionDecl :=
  { name
    tag := "type"
    tagType := .enum tagEnum
    arms := arms.map fun a => ⟨[.symbol a.1], a.2⟩
    otherwise := none
    inline := false }

/-- A place kept for extensions, of which there are none. -/
def emptyExtension (name : String) : UnionDecl :=
  { name
    tag := "v"
    tagType := .int
    arms := [⟨[.value 0], none⟩]
    otherwise := none
    inline := false }

/-- The unions of envelopes. -/
def unions : List UnionDecl :=
  [ { symbolUnion typeName "EnvelopeType"
        [ ("ENVELOPE_TYPE_TX_V0", some ⟨"v0", .struct "TransactionV0Envelope"⟩),
          ("ENVELOPE_TYPE_TX", some ⟨"v1", .struct "TransactionV1Envelope"⟩),
          ("ENVELOPE_TYPE_TX_FEE_BUMP",
            some ⟨"feeBump", .struct "FeeBumpTransactionEnvelope"⟩) ] with
      inline := true },
    symbolUnion "FeeBumpInnerTx" "EnvelopeType"
      [("ENVELOPE_TYPE_TX", some ⟨"v1", .struct "TransactionV1Envelope"⟩)],
    symbolUnion "Memo" "MemoType"
      [ ("MEMO_NONE", none),
        ("MEMO_TEXT", some ⟨"text", .string 28⟩),
        ("MEMO_ID", some ⟨"id", .uhyper⟩),
        ("MEMO_HASH", some ⟨"hash", .fixed 32⟩),
        ("MEMO_RETURN", some ⟨"retHash", .fixed 32⟩) ],
    symbolUnion "AllowTrustAsset" "AssetType"
      [ ("ASSET_TYPE_CREDIT_ALPHANUM4", some ⟨"assetCode4", .code 4⟩),
        ("ASSET_TYPE_CREDIT_ALPHANUM12", some ⟨"assetCode12", .code 12⟩) ],
    symbolUnion "OperationBody" "OperationType"
      [ ("CREATE_ACCOUNT", some ⟨"createAccountOp", .struct "CreateAccountOp"⟩),
        ("PAYMENT", some ⟨"paymentOp", .struct "PaymentOp"⟩),
        ("PATH_PAYMENT_STRICT_RECEIVE",
          some ⟨"pathPaymentStrictReceiveOp", .struct "PathPaymentStrictReceiveOp"⟩),
        ("MANAGE_SELL_OFFER", some ⟨"manageSellOfferOp", .struct "ManageSellOfferOp"⟩),
        ("CREATE_PASSIVE_SELL_OFFER",
          some ⟨"createPassiveSellOfferOp", .struct "CreatePassiveSellOfferOp"⟩),
        ("SET_OPTIONS", some ⟨"setOptionsOp", .struct "SetOptionsOp"⟩),
        ("CHANGE_TRUST", some ⟨"changeTrustOp", .struct "ChangeTrustOp"⟩),
        ("ALLOW_TRUST", some ⟨"allowTrustOp", .struct "AllowTrustOp"⟩),
        ("ACCOUNT_MERGE", some ⟨"destination", .account⟩),
        ("INFLATION", none),
        ("MANAGE_DATA", some ⟨"manageDataOp", .struct "ManageDataOp"⟩),
        ("BUMP_SEQUENCE", some ⟨"bumpSequenceOp", .struct "BumpSequenceOp"⟩),
        ("MANAGE_BUY_OFFER", some ⟨"manageBuyOfferOp", .struct "ManageBuyOfferOp"⟩),
        ("PATH_PAYMENT_STRICT_SEND",
          some ⟨"pathPaymentStrictSendOp", .struct "PathPaymentStrictSendOp"⟩) ],
    emptyExtension "TransactionV0Ext",
    emptyExtension "TransactionExt",
    emptyExtension "FeeBumpTransactionExt" ]

/-- The types of envelopes as they are declared. -/
def definitions : Definitions :=
  { enums, structs := transactionStructs ++ operationStructs, unions }

/-- The definitions of envelopes resolved; they are sound. -/
def schema : Schema :=
  match definitions.resolve with
  | .ok s => s
  | .error _ => ⟨[], [], []⟩

/-- A new envelope. -/
def initial : Value :=
  match schema.initial ty with
  | .ok v => v
  | .error _ => .array []

theorem resolve_definitions : definitions.resolve = .ok schema := rfl

theorem initial_ty : schema.initial ty = .ok initial := rfl

end XdrText.Envelope
