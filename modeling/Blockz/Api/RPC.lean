import Blockz.Network.Proposing

/-!
# The JSON-RPC server

`api/rpc.go`. A request names a method and carries its parameters as undecoded JSON. The answer is a
result or an error with a code; a panic in a handler ends the connection and is not answered.

The server reads the chain and the world state of the node, and it hands transactions to
`BroadcastTransaction`. The parsers of the standard library are the fields of `RPCLibrary`. A Go
string is a byte string, and `s[2:]` cuts bytes off it.

* `handleRequest_node` — what a request does to the node is nothing, or what `ProcessTransaction`
  does for one transaction.
-/

namespace Blockz

open Effect

/-- `JSONRPCRequest`; the version is not read. -/
structure JSONRPCRequest where
  method : String
  params : List (List UInt8)
  -- undecoded
  id : List UInt8

/-- What a handler returns. -/
inductive JSONRPCResult
  | text (t : String)
  | header (h : Header)

/-- `JSONRPCResponse`, with the two members of the error. -/
structure JSONRPCResponse where
  id : Option (List UInt8)
  outcome : Except (ℤ × String) JSONRPCResult

/-- The parsers that the server uses. -/
structure RPCLibrary where
  -- `json.NewDecoder(r.Body).Decode(&req)`
  decodeRequest : List UInt8 → Option JSONRPCRequest
  -- `json.Unmarshal`, into a string
  unmarshal : List UInt8 → Outcome Err (List UInt8)
  -- `hex.DecodeString`
  decodeString : List UInt8 → Outcome Err (List UInt8)
  -- what `fmt.Sscanf` with the format `0x%x` stores in a `uint64`; nothing, if it returns an error
  sscanf : List UInt8 → Option UInt64
  -- the gob decoder of transactions
  decodeTransaction : List UInt8 → Outcome Err Transaction

/-! ### The handlers -/

section Handlers

variable (L : RPCLibrary)

/-- The first lines of the three handlers with a parameter: it is there, and it is a string. -/
def stringParam (what : String) : List (List UInt8) → Outcome Err (List UInt8)
  | [] => .err (.missingParameter what)
  | param :: _ => L.unmarshal param

/-- `s[2:]`. -/
def strip0x (s : List UInt8) : Outcome Err (List UInt8) :=
  if s.length < 2 then .panic .sliceBounds else .ok (s.drop 2)

/-- `fmt.Sprintf("0x%x", n)`. -/
def hexText (n : ℕ) : String := "0x" ++ String.ofList (Nat.toDigits 16 n)

/-- `types.AddressFromBytes`. -/
def addressFromBytes (bytes : List UInt8) : Outcome Err Address :=
  if h : bytes.length = 20 then .ok ⟨bytes, h⟩ else .panic .raised

variable {E S : Type}

/-- `RPCServer.handleBlockNumber`. -/
def handleBlockNumber (bc : Blockchain E S) : String := hexText bc.height.toNat

/-- `RPCServer.handleGetBalance`. -/
def handleGetBalance (bc : Blockchain E S) (params : List (List UInt8)) : Outcome Err String := do
  let addrStr ← stringParam L "address" params
  let digits ← strip0x addrStr
  let addrBytes ← L.decodeString digits
  let addr ← addressFromBytes addrBytes
  pure (hexText (bc.worldState.getBalance addr).toNat)

/-- The `height` of `handleGetBlockByNumber`. The error of the scan is dropped, and then the
variable keeps its zero. -/
def scannedHeight (bc : Blockchain E S) (numStr : List UInt8) : UInt64 :=
  if numStr = ascii "latest" then bc.height.toUInt64 else (L.sscanf numStr).getD 0

/-- `RPCServer.handleGetBlockByNumber`. -/
def handleGetBlockByNumber (bc : Blockchain E S) (params : List (List UInt8)) :
    Outcome Err Header := do
  let numStr ← stringParam L "block number" params
  bc.getHeader (scannedHeight L bc numStr).toUInt32

variable (P : Primitives)

/-- `RPCServer.handleSendRawTransaction`, at the time `now`. -/
def handleSendRawTransaction (params : List (List UInt8)) (now : Int64) :
    Act (Node E S) Err String := do
  let rawTx ← Act.lift (stringParam L "transaction data" params)
  let digits ← Act.lift (strip0x rawTx)
  let rawTxBytes ← Act.lift (L.decodeString digits)
  let tx ← Act.lift (L.decodeTransaction rawTxBytes)
  Node.processTransaction P tx now
  pure ("0x" ++ (P.sha256 rawTxBytes).toHex)

/-! ### Requests -/

/-- The methods. -/
inductive RPCMethod
  | blockNumber
  | getBalance
  | getBlockByNumber
  | sendRawTransaction
  | netVersion
  | chainId
  deriving DecidableEq

/-- The cases of `handleRequest`. -/
def RPCMethod.ofName (name : String) : Option RPCMethod :=
  if name = "eth_blockNumber" then some .blockNumber
  else if name = "eth_getBalance" then some .getBalance
  else if name = "eth_getBlockByNumber" then some .getBlockByNumber
  else if name = "eth_sendRawTransaction" then some .sendRawTransaction
  else if name = "net_version" then some .netVersion
  else if name = "eth_chainId" then some .chainId
  else none

/-- What a method answers. -/
def callMethod (m : RPCMethod) (params : List (List UInt8)) (now : Int64) :
    Act (Node E S) Err JSONRPCResult := do
  let n ← Act.get
  match m with
  | .blockNumber => pure (.text (handleBlockNumber n.chain))
  | .getBalance => do
    let balance ← Act.lift (handleGetBalance L n.chain params)
    pure (.text balance)
  | .getBlockByNumber => do
    let header ← Act.lift (handleGetBlockByNumber L n.chain params)
    pure (.header header)
  | .sendRawTransaction => do
    let hash ← handleSendRawTransaction L P params now
    pure (.text hash)
  | .netVersion => pure (.text "100")
  | .chainId => pure (.text "0x64")

/-- `RPCServer.writeResult`. -/
def writeResult (id : List UInt8) (result : JSONRPCResult) : JSONRPCResponse :=
  ⟨some id, .ok result⟩

/-- `RPCServer.writeError`. -/
def writeError (id : Option (List UInt8)) (code : ℤ) (message : String) : JSONRPCResponse :=
  ⟨id, .error (code, message)⟩

/-- `RPCServer.handleRequest`. -/
def handleRequest (body : List UInt8) (now : Int64) : Act (Node E S) Err JSONRPCResponse :=
  match L.decodeRequest body with
  | none => pure (writeError none (-32700) "Parse error")
  | some req =>
    match RPCMethod.ofName req.method with
    | none => pure (writeError (some req.id) (-32601) "Method not found")
    | some m => do
      let answer ← Act.attempt (callMethod L P m req.params now)
      match answer with
      | .error e => pure (writeError (some req.id) (-32000) e.message)
      | .ok result => pure (writeResult req.id result)

end Handlers

/-! ### What a request does to the node -/

section Frame

variable {E S : Type} (L : RPCLibrary) (P : Primitives) (now : Int64)

/-- Nothing, or one submitted transaction. -/
def SubmitsOne (n n' : Node E S) : Prop :=
  n' = n ∨ ∃ tx, n' = (Node.processTransaction P tx now n).2

instance : Std.Refl (SubmitsOne P now : Node E S → Node E S → Prop) where
  refl _ := Or.inl rfl

theorem handleSendRawTransaction_submits (params : List (List UInt8)) :
    Act.Moves (SubmitsOne P now)
      (handleSendRawTransaction L P params now : Act (Node E S) Err String) := by
  refine .lift_bind fun rawTx => .lift_bind fun digits => .lift_bind fun rawTxBytes =>
    .lift_bind fun tx => Act.Moves.bind_reads ?_ fun _ _ => rfl
  exact fun n => Or.inr ⟨tx, rfl⟩

theorem callMethod_submits (m : RPCMethod) (params : List (List UInt8)) :
    Act.Moves (SubmitsOne P now)
      (callMethod L P m params now : Act (Node E S) Err JSONRPCResult) := by
  intro n
  show SubmitsOne P now n ((Act.get >>= _) n).2
  rw [Act.get_bind_apply]
  cases m with
  | blockNumber => exact Act.Moves.pure _ n
  | getBalance => exact Act.Moves.lift_bind (fun _ => .pure _) n
  | getBlockByNumber => exact Act.Moves.lift_bind (fun _ => .pure _) n
  | sendRawTransaction =>
    exact (handleSendRawTransaction_submits L P now params).bind_reads (fun _ _ => rfl) n
  | netVersion => exact Act.Moves.pure _ n
  | chainId => exact Act.Moves.pure _ n

/-- What any request does to the node is nothing, or what `ProcessTransaction` does for one
transaction. -/
theorem handleRequest_node (body : List UInt8) :
    Act.Moves (SubmitsOne P now)
      (handleRequest L P body now : Act (Node E S) Err JSONRPCResponse) := by
  unfold handleRequest
  split
  · exact Act.Moves.pure _
  · split
    · exact Act.Moves.pure _
    · -- the answer is written from what the method returned
      refine (callMethod_submits L P now _ _).attempt.bind_reads fun answer n => ?_
      cases answer with
      | error e => rfl
      | ok result => rfl

end Frame

end Blockz
