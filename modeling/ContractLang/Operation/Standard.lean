import ContractLang.Operation.Table

/-!
# The standard operations

The operators, built-in functions and transaction fields of the language as it
is usually compiled. Built-in functions are those operations whose name could be
an identifier (`ContractLang.Standard.isCallable`); reading an argument of the
program has a syntax of its own and cannot be called.
-/

namespace ContractLang

namespace Standard

/-! ### Signatures -/

/-- Operations that take and give words. -/
def wordOperators : List String :=
  ["+", "-", "*", "/", "%", "&", "|", "^", "<", ">", "<=", ">=", "&&", "||"]

/-- Operations that take and give byte strings as wide words. -/
def wideOperators : List String :=
  ["b+", "b-", "b*", "b/", "b%", "b&", "b|", "b^"]

/-- Comparisons of byte strings as wide words. -/
def wideComparisons : List String :=
  ["b==", "b!=", "b<", "b>", "b<=", "b>="]

open Ty in
/-- The signatures of all operations. -/
def signatures : List (String × Signature) :=
  wordOperators.map (·, ⟨[uint64, uint64], [uint64]⟩)
  ++ [("==", ⟨[unknown, unknown], [uint64]⟩),
    ("!=", ⟨[unknown, unknown], [uint64]⟩)]
  ++ wideOperators.map (·, ⟨[bytes, bytes], [bytes]⟩)
  ++ wideComparisons.map (·, ⟨[bytes, bytes], [uint64]⟩)
  ++ [("!", ⟨[uint64], [uint64]⟩),
    ("~", ⟨[uint64], [uint64]⟩),
    ("b~", ⟨[bytes], [bytes]⟩),
    ("sqrt", ⟨[uint64], [uint64]⟩),
    ("exp", ⟨[uint64, uint64], [uint64]⟩),
    ("shl", ⟨[uint64, uint64], [uint64]⟩),
    ("shr", ⟨[uint64, uint64], [uint64]⟩),
    ("bitlen", ⟨[unknown], [uint64]⟩),
    ("len", ⟨[bytes], [uint64]⟩),
    ("itob", ⟨[uint64], [bytes]⟩),
    ("btoi", ⟨[bytes], [uint64]⟩),
    ("sha256", ⟨[bytes], [bytes]⟩),
    ("keccak256", ⟨[bytes], [bytes]⟩),
    ("sha512_256", ⟨[bytes], [bytes]⟩),
    ("ed25519verify", ⟨[bytes, bytes, bytes], [uint64]⟩),
    ("concat", ⟨[bytes, bytes], [bytes]⟩),
    ("substring3", ⟨[bytes, uint64, uint64], [bytes]⟩),
    ("extract3", ⟨[bytes, uint64, uint64], [bytes]⟩),
    ("getbit", ⟨[unknown, uint64], [uint64]⟩),
    ("setbit", ⟨[unknown, uint64, uint64], [unknown]⟩),
    ("getbyte", ⟨[bytes, uint64], [uint64]⟩),
    ("setbyte", ⟨[bytes, uint64, uint64], [bytes]⟩),
    ("select", ⟨[unknown, unknown, uint64], [unknown]⟩),
    ("balance", ⟨[unknown], [uint64]⟩),
    ("min_balance", ⟨[unknown], [uint64]⟩),
    ("log", ⟨[bytes], []⟩),
    ("assert", ⟨[uint64], []⟩),
    ("app_opted_in", ⟨[unknown, uint64], [uint64]⟩),
    ("app_local_get", ⟨[unknown, bytes], [unknown]⟩),
    ("app_local_get_ex", ⟨[unknown, uint64, bytes], [unknown, uint64]⟩),
    ("app_global_get", ⟨[bytes], [unknown]⟩),
    ("app_global_get_ex", ⟨[uint64, bytes], [unknown, uint64]⟩),
    ("app_local_put", ⟨[unknown, bytes, unknown], []⟩),
    ("app_global_put", ⟨[bytes, unknown], []⟩),
    ("app_local_del", ⟨[unknown, bytes], []⟩),
    ("app_global_del", ⟨[bytes], []⟩),
    ("asset_holding_get", ⟨[unknown, uint64], [unknown, uint64]⟩),
    ("asset_params_get", ⟨[uint64], [unknown, uint64]⟩),
    ("app_params_get", ⟨[uint64], [unknown, uint64]⟩),
    ("acct_params_get", ⟨[unknown], [unknown, uint64]⟩),
    ("mulw", ⟨[uint64, uint64], [uint64, uint64]⟩),
    ("addw", ⟨[uint64, uint64], [uint64, uint64]⟩),
    ("expw", ⟨[uint64, uint64], [uint64, uint64]⟩),
    ("divw", ⟨[uint64, uint64, uint64], [uint64]⟩),
    ("divmodw", ⟨[uint64, uint64, uint64, uint64], [uint64, uint64, uint64, uint64]⟩),
    ("arg", ⟨[], [bytes]⟩)]

/-- Whether an operation can be called: its name is made of ASCII letters, digits and
underscores, and is not that of the syntax for program arguments. -/
def isCallable (op : String) : Bool :=
  op.toList.all (fun c => c.isAlphanum || c == '_') && op != "arg"

/-! ### Fields -/

open Ty in
/-- The fields of a transaction with a single value. -/
def transactionFields : List (String × Ty) :=
  [("Sender", bytes), ("Fee", uint64), ("FirstValid", uint64), ("LastValid", uint64),
    ("Note", bytes), ("Lease", bytes), ("Receiver", bytes), ("Amount", uint64),
    ("CloseRemainderTo", bytes), ("Type", bytes), ("TypeEnum", uint64),
    ("XferAsset", uint64), ("AssetAmount", uint64), ("AssetSender", bytes),
    ("AssetReceiver", bytes), ("AssetCloseTo", bytes), ("GroupIndex", uint64),
    ("TxID", bytes), ("ApplicationID", uint64), ("OnCompletion", uint64),
    ("NumAppArgs", uint64), ("NumAccounts", uint64), ("ApprovalProgram", bytes),
    ("ClearStateProgram", bytes), ("RekeyTo", bytes), ("ConfigAsset", uint64),
    ("ConfigAssetTotal", uint64), ("ConfigAssetDecimals", uint64),
    ("ConfigAssetUnitName", bytes), ("ConfigAssetName", bytes), ("ConfigAssetURL", bytes),
    ("ConfigAssetManager", bytes), ("ConfigAssetReserve", bytes), ("FreezeAsset", uint64),
    ("FreezeAssetAccount", bytes), ("FreezeAssetFrozen", uint64),
    ("CreatedAssetID", uint64), ("CreatedApplicationID", uint64)]

open Ty in
/-- The fields of a transaction that are arrays. -/
def transactionArrays : List (String × Ty) :=
  [("ApplicationArgs", bytes), ("Accounts", bytes), ("Assets", uint64),
    ("Applications", uint64), ("Logs", bytes)]

open Ty in
/-- The fields of the running system. -/
def globalFields : List (String × Ty) :=
  [("MinTxnFee", uint64), ("MinBalance", uint64), ("MaxTxnLife", uint64),
    ("ZeroAddress", bytes), ("GroupSize", uint64), ("LogicSigVersion", uint64),
    ("Round", uint64), ("LatestTimestamp", uint64), ("CurrentApplicationID", uint64),
    ("CreatorAddress", bytes), ("CurrentApplicationAddress", bytes), ("GroupID", bytes)]

open Ty in
/-- The fields of every operation that has any. -/
def fields : List (String × List (String × Ty)) :=
  ["txn", "gtxn", "gtxns", "itxn"].map (·, transactionFields)
  ++ ["txna", "gtxna", "txnas", "gtxnas", "itxna"].map (·, transactionArrays)
  ++ [("itxn_field", transactionFields ++ transactionArrays),
    ("global", globalFields),
    ("asset_holding_get", [("AssetBalance", uint64), ("AssetFrozen", uint64)]),
    ("asset_params_get",
      [("AssetTotal", uint64), ("AssetDecimals", uint64), ("AssetDefaultFrozen", uint64),
        ("AssetUnitName", bytes), ("AssetName", bytes), ("AssetURL", bytes),
        ("AssetMetadataHash", bytes), ("AssetManager", bytes), ("AssetReserve", bytes),
        ("AssetFreeze", bytes), ("AssetClawback", bytes), ("AssetCreator", bytes)]),
    ("app_params_get",
      [("AppApprovalProgram", bytes), ("AppClearStateProgram", bytes),
        ("AppGlobalNumUint", uint64), ("AppGlobalNumByteSlice", uint64),
        ("AppLocalNumUint", uint64), ("AppLocalNumByteSlice", uint64),
        ("AppExtraProgramPages", uint64), ("AppCreator", bytes), ("AppAddress", bytes)]),
    ("acct_params_get",
      [("AcctBalance", uint64), ("AcctMinBalance", uint64), ("AcctAuthAddr", bytes)])]

/-! ### The table -/

/-- The table of the standard operations. -/
def table : OpTable where
  signatures := signatures
  builtins := (signatures.map (·.1)).filter isCallable
  dependent := [("setbit", 0), ("select", 0)]
  fields := fields

/-- The specification of the standard operations. -/
def spec : OpSpec := table.toSpec

end Standard

end ContractLang
