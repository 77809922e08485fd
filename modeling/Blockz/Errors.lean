import Blockz.Types

/-!
# The errors of the node

Every error that the modelled functions return, with the data it is formatted from. `Err.message`
is the text the source formats; a caller that looks into the text (`Server.processBlock`) reads it
there.
-/

namespace Blockz

/-- The errors, in the order of the source files that build them. -/
inductive Err
  -- `ValidateBlockLocked`: the height is already taken.
  | chainAlreadyContains (height : UInt32) (hash : Hash)
  -- `ValidateBlockLocked`: the height is not the next one.
  | blockTooHigh (hash : Hash) (height current : UInt32)
  -- `ValidateBlockLocked`: the link to the previous header is wrong.
  | invalidPrevHash (prev : Hash)
  -- `getHeaderLocked`.
  | heightTooHigh (height : UInt32)
  -- `Block.Verify`.
  | blockUnsigned
  | blockBadSignature
  | invalidDataHash (hash : Hash)
  -- `Transaction.Verify`.
  | transactionUnsigned
  | transactionBadSignature
  -- A failure inside `ecdsa.Sign` or a gob encoder.
  | library (text : String)
  -- `executeTransaction` wraps the error of `Transfer`.
  | transferFailed (cause : Err)
  -- `WorldState.Transfer`.
  | zeroTransfer
  | senderMissing (src : Address)
  | insufficientBalance (src : Address) (balance value : UInt64)
  -- `WorldState.SubBalance`.
  | accountMissing (addr : Address)
  | insufficientToSubtract (addr : Address) (balance amount : UInt64)
  -- `WorldState.GetAccountState`.
  | accountNotFound (addr : Address)
  | keyNotFound (key : Hash) (addr : Address)
  -- `EVM.Run`.
  | outOfGas (used limit : UInt64)
  | pushOutOfBounds
  | dupOutOfBounds
  | swapOutOfBounds
  | invalidJump (dest : UInt64)
  | revert (data : List UInt8)
  -- `MemoryStore`.
  | blockNotFound (height : UInt32)
  | blockHashNotFound (hash : Hash)
  | transactionNotFound (hash : Hash)
  -- `LevelDBStore`; of the text of the database, which follows the colon, nothing is said.
  | missingInDatabase (cause : Err)
  -- `PoWEngine.VerifyHeader`.
  | difficultyNotMet (hash : Hash) (difficulty : UInt64)
  -- `PoWEngine.Seal`.
  | miningTimedOut
  | nonceNotFound
  -- `PoSEngine`.
  | noActiveValidators
  | unexpectedProposer (coinbase : Address) (height : UInt32) (expected : Address)
  | doubleSigned (coinbase : Address) (height : UInt32)
  -- `TCPTransport.SendMessage` and `Server.send`.
  | peerNotFound (addr : String)
  -- `DefaultRPCDecodeFunc`; of the first one the gob error that follows the colon is left out.
  | messageUndecodable (sender : String)
  | invalidMessageType (code : UInt8)
  -- `GetHeader`.
  | headerTooHigh (height : UInt32)
  -- The handlers of the JSON-RPC server, and what they ask for.
  | missingParameter (what : String)
  deriving DecidableEq, Repr

/-- The text of an error, as `fmt.Errorf` builds it. -/
def Err.message : Err → String
  | chainAlreadyContains height hash =>
    "chain already contains block (" ++ toString height ++ ") with hash (" ++ hash.toHex ++ ")"
  | blockTooHigh hash height current =>
    "Block (" ++ hash.toHex ++ ") with height(" ++ toString height ++
      ") is too high => current height (" ++ toString current ++ ")"
  | invalidPrevHash prev =>
    "the hash of the previous block (" ++ prev.toHex ++ ") is invalid "
  | heightTooHigh height => "given height (" ++ toString height ++ ") too high"
  | blockUnsigned => "block has no signature"
  | blockBadSignature => "block has invalid signature"
  | invalidDataHash hash => "block (" ++ hash.toHex ++ ") has an invalid data hash"
  | transactionUnsigned => "transaction has no signature"
  | transactionBadSignature => "invalid transaction signature"
  | library text => text
  | transferFailed cause => "transfer failed: " ++ cause.message
  | zeroTransfer => "cannot transfer zero value"
  | senderMissing src => "sender account " ++ src.toHex ++ " does not exist"
  | insufficientBalance src balance value =>
    "insufficient balance: account " ++ src.toHex ++ " has " ++ toString balance ++
      ", tried to send " ++ toString value
  | accountMissing addr => "account " ++ addr.toHex ++ " does not exist"
  | insufficientToSubtract addr balance amount =>
    "insufficient balance: account " ++ addr.toHex ++ " has " ++ toString balance ++
      ", tried to subtract " ++ toString amount
  | accountNotFound addr => "account " ++ addr.toHex ++ " not found"
  | keyNotFound key addr => "key " ++ key.toHex ++ " not found in account " ++ addr.toHex
  | outOfGas used limit => "out of gas: used " ++ toString used ++ ", limit " ++ toString limit
  | pushOutOfBounds => "EVM Error: push out of bounds"
  | dupOutOfBounds => "EVM Error: dup out of bounds"
  | swapOutOfBounds => "EVM Error: swap out of bounds"
  | invalidJump dest => "EVM Error: invalid jump destination " ++ toString dest
  | revert data => "EVM REVERT: " ++ Bytes.toHex data
  | blockNotFound height => "block at height " ++ toString height ++ " not found"
  | blockHashNotFound hash => "block with hash " ++ hash.toHex ++ " not found"
  | transactionNotFound hash => "transaction with hash " ++ hash.toHex ++ " not found"
  | missingInDatabase cause => cause.message ++ ": "
  | difficultyNotMet hash difficulty =>
    "block hash " ++ hash.toHex ++ " does not satisfy difficulty " ++ toString difficulty
  | miningTimedOut => "mining timed out after 10s"
  | nonceNotFound => "failed to find nonce"
  | noActiveValidators => "no active validators"
  | unexpectedProposer coinbase height expected =>
    "unexpected proposer " ++ coinbase.toHex ++ " at height " ++ toString height ++
      ", expected " ++ expected.toHex
  | doubleSigned coinbase height =>
    "validator " ++ coinbase.toHex ++ " double-signed at height " ++ toString height
  | peerNotFound addr => "peer " ++ addr ++ " not found"
  | messageUndecodable sender => "failed to decode message from " ++ sender ++ ": "
  | invalidMessageType code =>
    "invalid message type " ++ String.ofList (Nat.toDigits 16 code.toNat)
  | headerTooHigh height => "given height (" ++ toString height ++ ") Too high"
  | missingParameter what => "missing " ++ what ++ " parameter"

end Blockz
