import Chainsql.Evm.Host
import Chainsql.Lib.Double
import Chainsql.Lib.Nested

/-!
# Frames and the transaction

`Executive` prepares a frame, runs it and turns what the interpreter reports into a result code.
`step` is one instruction of a frame. An instruction that calls asks for the run of another frame, in
the sense of `Nested`, on the same `World`.
-/

namespace Chainsql.Evm

structure Halt where
  statusCode : StatusCode
  gasLeft : Int
  output : Bytes
deriving DecidableEq

structure Config (σ : Type) where
  ext : Ext
  vm : VM
  sub : SubState
  world : World σ

structure Ended (σ : Type) where
  world : World σ
  sub : SubState
  halt : Halt

abbrev Outcome (σ : Type) := Except Crash (Ended σ)

abbrev Frames (σ α : Type) := Ask (Config σ) (Outcome σ) α

def Config.start {σ : Type} (ext : Ext) (gas : Int) (w : World σ) : Config σ := ⟨ext, .start gas, .start, w⟩

/-- The handlers of `execute`. -/
def Fault.status : Fault → StatusCode
  | .OutOfGas => .EVMC_OUT_OF_GAS
  | .BadInstruction => .EVMC_UNDEFINED_INSTRUCTION
  | .InvalidInstruction => .EVMC_FAILURE
  | .BadJumpDestination => .EVMC_BAD_JUMP_DESTINATION
  | .StackUnderflow => .EVMC_STACK_UNDERFLOW
  | .OutOfStack => .EVMC_STACK_OVERFLOW
  | .BufferOverrun => .EVMC_INVALID_MEMORY_ACCESS
  | .DisallowedStateChange => .EVMC_STATIC_MODE_VIOLATION
  | .undefined => .EVMC_INTERNAL_ERROR

inductive VMException where
  | OutOfGas | BadInstruction | BadJumpDestination | OutOfStack | StackUnderflow | DisallowedStateChange
  | RejectJIT
deriving DecidableEq

namespace VMException

def what : VMException → Bytes
  | OutOfGas => ofAscii "OutOfGas"
  | BadInstruction => ofAscii "BadInstruction"
  | BadJumpDestination => ofAscii "BadJumpDestination"
  | OutOfStack => ofAscii "OutOfStack"
  | StackUnderflow => ofAscii "StackUnderflow"
  | DisallowedStateChange => ofAscii "DisallowedStateChange"
  | RejectJIT => ofAscii "RejectJIT"

def toTerCode : VMException → TER
  | OutOfGas => tefGAS_INSUFFICIENT
  | _ => tefCONTRACT_EXEC_EXCEPTION

end VMException

inductive VmcResult where
  | returns (gas : Int) (output : Bytes)
  | RevertInstruction (gas : Int) (output : Bytes)
  | RevertDiyInstruction (gas : Int) (output : Bytes)
  | throws (e : VMException)
  | InternalVMError
deriving DecidableEq

def VMC.exec (r : Halt) : VmcResult :=
  match r.statusCode with
  | .EVMC_SUCCESS => .returns r.gasLeft r.output
  | .EVMC_REVERT => .RevertInstruction r.gasLeft r.output
  | .EVMC_REVERTDIY => .RevertDiyInstruction r.gasLeft r.output
  | .EVMC_OUT_OF_GAS | .EVMC_FAILURE => .throws .OutOfGas
  | .EVMC_UNDEFINED_INSTRUCTION => .throws .BadInstruction
  | .EVMC_BAD_JUMP_DESTINATION => .throws .BadJumpDestination
  | .EVMC_STACK_OVERFLOW => .throws .OutOfStack
  | .EVMC_STACK_UNDERFLOW => .throws .StackUnderflow
  | .EVMC_STATIC_MODE_VIOLATION => .throws .DisallowedStateChange
  | .EVMC_REJECTED => .throws .RejectJIT
  | .EVMC_INVALID_MEMORY_ACCESS | .EVMC_INTERNAL_ERROR => .InternalVMError

def linearPricer (base word : Nat) (data : Bytes) : Int := base + (data.length + 31) / 32 * word

section Precompiled

variable {σ : Type} (env : Env σ) (w : World σ)

open SleOps

def costOfPrecompiled (a : AccountID) (data : Bytes) : Int :=
  if a = 1 then 3000
  else if a = 2 then linearPricer 60 12 data
  else if a = 3 then linearPricer 600 120 data
  else if a = 4 then linearPricer 15 3 data
  else if a = 5 then env.modexpCost data
  else if a = 6 then 150
  else if a = 7 then 6000
  else if a = 8 then 45000 + data.length / 192 * 34000
  else linearPricer 60 12 data

/-- The result of a precompiled contract of this ledger: result code, output and cost. -/
structure PreDiyResult (σ : Type) where
  ter : TER
  output : Bytes
  cost : Int
  world : World σ

/-- The table operation of a call, made for `account`. -/
def TableCall.perform (call : TableCall) (account : AccountID) : Int × Word × World σ :=
  let withRet : Int × World σ → Int × Word × World σ := fun (ret, w) => (ret, 0, w)
  match call.method with
  | none => (0, 0, w)
  | some .createTable => withRet (createTable env w account call.tableName call.raw)
  | some .dropTable => withRet (dropTable env w account call.tableName)
  | some .grant => withRet (grantTable env w account call.destAddr call.tableName call.raw)
  | some .renameTable => withRet (renameTable env w account call.tableName call.tableNewName)
  | some .insert => withRet (insertData env w account call.owner call.tableName call.raw [])
  | some .insertWithHash =>
    withRet (insertData env w account call.owner call.tableName call.raw call.autoFillField)
  | some .updateGetRaw =>
    withRet (updateDataGetRaw env w account call.owner call.tableName call.rawGet call.rawUpdate)
  | some .update => withRet (updateData env w account call.owner call.tableName call.raw)
  | some .deleteData => withRet (deleteData env w account call.owner call.tableName call.raw)
  | some .addFields => withRet (updateFieldsTable env w account .T_ADD_FIELDS call.tableName call.raw)
  | some .deleteFields => withRet (updateFieldsTable env w account .T_DELETE_FIELDS call.tableName call.raw)
  | some .modifyFields => withRet (updateFieldsTable env w account .T_MODIFY_FIELDS call.tableName call.raw)
  | some .createIndex => withRet (updateFieldsTable env w account .T_CREATE_INDEX call.tableName call.raw)
  | some .deleteIndex => withRet (updateFieldsTable env w account .T_DELETE_INDEX call.tableName call.raw)
  | some .getDataHandle =>
    let (handle, w) := getDataHandle env w account call.owner call.tableName call.raw
    (0, handle, w)

def TableOpPrecompiled.execute (data : Bytes) (caller origin : AccountID) : PreDiyResult σ :=
  let call := env.decodeTableCall data
  let (ret, getRes, w) := call.perform env w (if call.byContract then caller else origin)
  ⟨.fromInt ret, getRes.toBytes, toInt64 (env.dropsPerByte * call.raw.length), w⟩

/-- `getParamFunc`. It reads four bytes even if there are fewer. -/
def getParamFunc (data : Bytes) : Option Nat :=
  if data.length < 4 then none else some (Word.ofBytes (data.take 4)).toNat

def executePreDiy (a : AccountID) (data : Bytes) (caller origin : AccountID) :
    Except Crash (PreDiyResult σ) :=
  match getParamFunc data with
  | none => .error .undefined
  | some 0 => .ok ⟨if a = TABLE_OPERATION_ADDR then temUNKNOWN else tesSUCCESS, [], 0, w⟩
  | some _ =>
    if a = TABLE_OPERATION_ADDR then .ok (TableOpPrecompiled.execute env w data caller origin)
    else match env.executeTools data with
      | none => .error .exception
      | some output => .ok ⟨tesSUCCESS, output, 0, w⟩

end Precompiled

/-- The members of an `Executive`. `ext` is set as long as the frame is still to be run. -/
structure Executive where
  depth : Nat
  excepted : TER
  gas : Int
  output : Bytes
  newAddress : AccountID
  isCreation : Bool
  ext : Option Ext
deriving DecidableEq

structure CallParameters where
  senderAddress : AccountID
  codeAddress : AccountID
  receiveAddress : AccountID
  valueTransfer : Word
  apparentValue : Word
  gas : Int
  data : Bytes
  staticCall : Bool
deriving DecidableEq

namespace Executive

def start (depth : Nat) : Executive where
  depth
  excepted := tesSUCCESS
  gas := 0
  output := []
  newAddress := 0
  isCreation := false
  ext := none

/-- The Executive ends with `ter`, without a run of the frame. -/
def fail (e : Executive) (ter : TER) : Executive := { e with excepted := ter, ext := none }

/-- The word in the first 32 bytes of a blob, filled with zeros. -/
def wordOf (blob : Bytes) : Word := Word.ofBytes (blob.take 32 ++ zeros (32 - blob.length))

/-- `std::string::substr`, which throws if the position is not in the string. -/
def substr (bs : Bytes) (pos count : Nat) : Option Bytes :=
  if bs.length < pos then none else some (slice bs pos count)

def getRevertErr (errCode : Int) : Bytes :=
  if errCode = 0x00 then ofAscii "Generic compiler inserted panics."
  else if errCode = 0x01 then ofAscii "The assert with an argument that evaluates to false."
  else if errCode = 0x11 then ofAscii "An arithmetic operation results in underflow or overflow."
  else if errCode = 0x12 then ofAscii "Divide or modulo by zero."
  else if errCode = 0x21 then ofAscii "Convert a value that is too big or negative into an enum type."
  else if errCode = 0x22 then ofAscii "Access a storage byte array that is incorrectly encoded."
  else if errCode = 0x31 then ofAscii "Call .pop() on an empty array."
  else if errCode = 0x32 then ofAscii "An out-of-bounds or negative index for array."
  else if errCode = 0x41 then ofAscii "Allocate too much memory or create an array that is too large."
  else if errCode = 0x51 then ofAscii "Call a zero-initialized variable of internal function type."
  else ofAscii "Unkown errCode for assert"

/-- The text of a revert of the outermost frame, unless `substr` throws. -/
def formatOutput (output : Bytes) : Option Bytes :=
  match output.take 4 with
  | [0x00, 0x00, 0x00, 0x00] => some (output.drop 4)
  | [0x08, 0xC3, 0x79, 0xA0] => do
    let offset := wordOf (← substr output 4 32)
    let length := wordOf (← substr output 36 32)
    substr output (ofInt64 (36 + offset.toDrops)) (ofInt64 length.toDrops)
  | [0x4E, 0x48, 0x7B, 0x71] => some (getRevertErr (wordOf (output.drop 4)).toDrops)
  | _ => some output

section Frames

variable {σ : Type} (env : Env σ) (w : World σ)

open SleOps

def transferValue (p : CallParameters) (e : Executive) : World σ × Executive :=
  if p.valueTransfer = 0 then (w, e)
  else
    let (ret, w) :=
      if !p.staticCall ∧ (getSle w p.receiveAddress).isNone ∧ !isPrecompiledOrigin p.receiveAddress ∧
          !isPrecompiledDiy p.receiveAddress then
        doPayment env w p.senderAddress p.receiveAddress p.valueTransfer
      else transferBalance env w p.senderAddress p.receiveAddress p.valueTransfer
    if ret ≠ tesSUCCESS then (w, { e.fail ret with output := env.transHuman ret }) else (w, e)

def callPrecompiled (depth : Nat) (p : CallParameters) : Except Crash Executive :=
  let e := start depth
  let cost := costOfPrecompiled env p.codeAddress p.data
  if p.gas < cost then .ok (e.fail tefGAS_INSUFFICIENT)
  else match env.executePrecompiled p.codeAddress p.data with
    | none => .error .exception
    | some (success, output) =>
      if success then .ok { e with gas := p.gas - cost, output }
      else .ok { e.fail tefGAS_INSUFFICIENT with output }

def callPreDiy (depth : Nat) (p : CallParameters) (origin : AccountID) :
    Except Crash (World σ × Executive) := do
  let ret ← executePreDiy env w p.codeAddress p.data p.senderAddress origin
  let e := { start depth with gas := p.gas - ret.cost }
  if ret.ter ≠ tesSUCCESS then return (ret.world, e.fail ret.ter)
  else return (ret.world, { e with output := ret.output })

def callContract (depth : Nat) (p : CallParameters) (gasPrice : Word) (origin : AccountID) :
    World σ × Executive :=
  let e := { start depth with gas := p.gas }
  if addressHasCode w p.codeAddress then
    let (c, w) := code w p.codeAddress
    if c.length = 0 then (w, e.fail tefCONTRACT_NOT_EXIST)
    else
      let ext : Ext :=
        { myAddress := p.receiveAddress, caller := p.senderAddress, origin, value := p.apparentValue,
          gasPrice, data := p.data, code := c, depth, isCreate := false, staticCall := p.staticCall }
      transferValue env w p { e with ext := some ext }
  else if depth = 1 ∧ !env.tx.ethTx then
    (w, { e.fail tefCONTRACT_NOT_EXIST with
      output := ofAscii "Contract does not exist,maybe destructed." })
  else transferValue env w p e

def call (depth : Nat) (p : CallParameters) (gasPrice : Word) (origin : AccountID) :
    Except Crash (World σ × Executive) :=
  if isPrecompiledOrigin p.codeAddress then do return (w, ← callPrecompiled env depth p)
  else if isPrecompiledDiy p.codeAddress then callPreDiy env w depth p origin
  else .ok (callContract env w depth p gasPrice origin)

def executeCreate (depth : Nat) (newAddress sender : AccountID) (endowment gasPrice : Word) (gas : Int)
    (code : Bytes) (origin : AccountID) : World σ × Executive :=
  let e := { start depth with gas, newAddress, isCreation := true }
  let (ret, w) := createContractAccount env w sender newAddress endowment
  if ret ≠ tesSUCCESS then (w, e.fail ret)
  else
    let w := updateContractCount env w .CONTRACT_CREATE
    if code = [] then (w, e)
    else
      let ext : Ext :=
        { myAddress := newAddress, caller := sender, origin, value := endowment, gasPrice, data := [],
          code, depth, isCreate := true, staticCall := false }
      (w, { e with ext := some ext })

/-- The first free address from `sequence` on, if one is found in `tries` tries. -/
def freeAddress (sender : AccountID) : Nat → UInt32 → Option AccountID
  | 0, _ => none
  | tries + 1, sequence =>
    let newAddress := env.calcNewAddress sender sequence
    if (getSle w newAddress).isNone then some newAddress else freeAddress sender tries (sequence + 1)

/-- The sequence number wraps around, so that every address is tried in `2 ^ 32` tries. -/
def createOpcode (depth : Nat) (sender : AccountID) (endowment gasPrice : Word) (gas : Int) (code : Bytes)
    (origin : AccountID) : Except Crash (World σ × Executive) :=
  if depth = 1 then
    let newAddress := env.calcNewAddress sender env.tx.sequence
    .ok (executeCreate env w depth newAddress sender endowment gasPrice gas code origin)
  else match freeAddress env w sender (2 ^ 32) (getSequence w sender) with
    | none => .error .loop
    | some newAddress => .ok (executeCreate env w depth newAddress sender endowment gasPrice gas code origin)

def create2Address (sender : AccountID) (code : Bytes) (salt : Word) : AccountID :=
  (env.keccak (0xff :: (Word.ofAddress sender).toBytes.drop 12 ++ salt.toBytes ++
    (env.keccak code).toBytes)).toAddress

def create2Opcode (depth : Nat) (sender : AccountID) (endowment gasPrice : Word) (gas : Int) (code : Bytes)
    (origin : AccountID) (salt : Word) : World σ × Executive :=
  executeCreate env w depth (create2Address env sender code salt) sender endowment gasPrice gas code origin

/-- The rest of `go` for the result of `VMC::exec`. -/
def catchResult (e : Executive) : VmcResult → Except Crash Executive
  | .returns gas output => .ok { e with gas, output, ext := none }
  | .RevertInstruction gas output => do
    let e := { e with gas }.fail tefCONTRACT_REVERT_INSTRUCTION
    if e.depth = 1 then match formatOutput output with
      | none => .error .exception
      | some output => .ok { e with output }
    else .ok { e with output }
  | .RevertDiyInstruction gas output => .ok ({ e with gas }.fail (.fromInt (atoi output)))
  | .throws exception =>
    .ok { e.fail exception.toTerCode with output := exception.what, gas := 0 }
  | .InternalVMError => .error .exception

/-- The code that a creation returns is stored if the gas is enough for it. -/
def depositCode (ext : Ext) (e : Executive) (gas : Int) (out : Bytes) : World σ × Executive :=
  if out.length * 200 ≤ ofInt64 gas then
    (setCode w ext.myAddress out, { e with gas := gas - out.length * 200, ext := none })
  else
    (w, { e.fail VMException.OutOfGas.toTerCode with output := VMException.OutOfGas.what, gas := 0 })

def goEnd (e : Executive) (ext : Ext) (ended : Ended σ) : Except Crash (World σ × SubState × Executive) :=
  match e.isCreation, VMC.exec ended.halt with
  | true, .returns gas out =>
    let (w, e) := depositCode ended.world ext e gas out
    .ok (w, ended.sub, e)
  | _, result => do return (ended.world, ended.sub, ← catchResult e result)

/-- The world in which the interpreter starts. -/
def goWorld (e : Executive) (ext : Ext) : World σ := if e.isCreation then clearStorage w ext.myAddress else w

def go (e : Executive) (ext : Ext) : Frames σ (Except Crash (World σ × SubState × Executive)) :=
  .call (.start ext e.gas (goWorld w e ext)) fun outcome => outcome.bind (goEnd e ext)

end Frames

end Executive

def terToEvmcStatusCode (ter : TER) : StatusCode :=
  if ter = tesSUCCESS then .EVMC_SUCCESS
  else if ter = tefGAS_INSUFFICIENT then .EVMC_OUT_OF_GAS
  else if ter = tefCONTRACT_REVERT_INSTRUCTION then .EVMC_REVERT
  else .EVMC_FAILURE

section Calls

variable {σ : Type} (env : Env σ) (ext : Ext) (w : World σ) (sub : SubState)

def runFrame (e : Executive) : Frames σ (Except Crash (World σ × SubState × Executive)) :=
  match e.ext with
  | none => .ret (.ok (w, sub, e))
  | some inner => (e.go w inner).map fun r => r.map fun (w, innerSub, e) => (w, sub.add innerSub, e)

/-- The result of an inner frame, where an exception ends the process. -/
def hostResult (result : Executive → EvmcResult) :
    Except Crash (World σ × SubState × Executive) → Except Crash (World σ × SubState × EvmcResult)
  | .ok (w, sub, e) => .ok (w, sub, result e)
  | .error .exception => .error .terminate
  | .error crash => .error crash

/-- The frame that a call or creation has prepared. -/
def hostFrame (result : Executive → EvmcResult) (prepared : Except Crash (World σ × Executive)) :
    Frames σ (Except Crash (World σ × SubState × EvmcResult)) :=
  match prepared with
  | .error crash => .ret (hostResult result (.error crash))
  | .ok (w, e) => (runFrame w sub e).map (hostResult result)

namespace EvmCHost

def callParameters (msg : Message) : CallParameters where
  senderAddress := msg.sender
  codeAddress := msg.destination
  receiveAddress := if msg.kind = .EVMC_CALL then msg.destination else ext.myAddress
  valueTransfer := if msg.kind = .EVMC_DELEGATECALL then 0 else msg.value
  apparentValue := msg.value
  gas := msg.gas
  data := msg.inputData
  staticCall := msg.isStatic

def callResult (e : Executive) : EvmcResult where
  statusCode := terToEvmcStatusCode e.excepted
  gasLeft := e.gas
  output := e.output
  createAddress := 0
  exception := e.excepted.code

def createResult (e : Executive) : EvmcResult where
  statusCode := terToEvmcStatusCode e.excepted
  gasLeft := e.gas
  output := if e.excepted = tesSUCCESS then [] else e.output
  createAddress := if e.excepted = tesSUCCESS then e.newAddress else 0
  exception := e.excepted.code

def call (msg : Message) : Frames σ (Except Crash (World σ × SubState × EvmcResult)) :=
  hostFrame sub callResult
    (Executive.call env w (ext.depth + 1) (callParameters ext msg) ext.gasPrice ext.origin)

def create (msg : Message) : Frames σ (Except Crash (World σ × SubState × EvmcResult)) :=
  hostFrame sub createResult <|
    if msg.kind = .EVMC_CREATE then
      Executive.createOpcode env w (ext.depth + 1) ext.myAddress msg.value ext.gasPrice msg.gas msg.inputData
        ext.origin
    else
      .ok (Executive.create2Opcode env w (ext.depth + 1) ext.myAddress msg.value ext.gasPrice msg.gas
        msg.inputData ext.origin msg.create2Salt)

end EvmCHost

end Calls

namespace Config

variable {σ : Type} (env : Env σ) (c : Config σ)

def stop (statusCode : StatusCode) (gasLeft : Int) (output : Bytes) : Config σ ⊕ Outcome σ :=
  .inr (.ok ⟨c.world, c.sub, ⟨statusCode, gasLeft, output⟩⟩)

def throw (fault : Fault) : Config σ ⊕ Outcome σ :=
  if fault = .undefined then .inr (.error .undefined) else c.stop fault.status 0 []

/-- The frame goes on after the current instruction. -/
def next (vm : VM) : Config σ := { c with vm := { vm with pc := vm.pc + 1 } }

/-- The frame goes on with what an inner frame has left behind. -/
def resume (vm : EvmcResult → VM) : Except Crash (World σ × SubState × EvmcResult) → Config σ ⊕ Outcome σ
  | .error crash => .inr (.error crash)
  | .ok (w, sub, result) => .inl ({ c with sub, world := w }.next (vm result))

def selfdestruct (vm : VM) (beneficiary : AccountID) : Config σ ⊕ Outcome σ :=
  match ExtVM.selfdestruct c.ext c.world beneficiary c.sub with
  | .error crash => .inr (.error crash)
  | .ok (world, sub) => { c with world, sub }.stop .EVMC_SUCCESS (toInt64 vm.ioGas) []

/-- The gas is charged after the value has been stored. -/
def setStorage (vm : VM) (key value : Word) : Config σ ⊕ Outcome σ :=
  match EvmCHost.set_storage env c.ext c.world key value c.sub with
  | .error crash => .inr (.error crash)
  | .ok (status, world, sub) =>
    match (Exec.chargeStorage status).run vm with
    | .error fault => { c with world, sub }.throw fault
    | .ok ((), vm) => .inl ({ c with world, sub }.next vm)

def host (vm : VM) (call : HostCall) : Config σ ⊕ Outcome σ :=
  match EvmCHost.perform env c.ext c.world call with
  | .error crash => .inr (.error crash)
  | .ok (reply, world) => .inl ({ c with world }.next (vm.resume reply))

def act (vm : VM) : Action → Frames σ (Config σ ⊕ Outcome σ)
  | .next => .ret (.inl (c.next vm))
  | .jump => .ret (.inl { c with vm })
  | .halt output => .ret (c.stop .EVMC_SUCCESS (toInt64 vm.ioGas) output)
  | .revert output => .ret (c.stop .EVMC_REVERT (toInt64 vm.ioGas) output)
  | .revertDiy output => .ret (c.stop .EVMC_REVERTDIY (toInt64 vm.ioGas) output)
  | .selfdestruct beneficiary => .ret (c.selfdestruct vm beneficiary)
  | .setStorage key value => .ret (c.setStorage env vm key value)
  | .host call => .ret (c.host env vm call)
  | .call msg outOffset outSize =>
    (EvmCHost.call env c.ext c.world c.sub msg).map (c.resume (vm.resumeCall outOffset outSize))
  | .create msg => (EvmCHost.create env c.ext c.world c.sub msg).map (c.resume (vm.resumeCreate msg))

def step : Frames σ (Config σ ⊕ Outcome σ) :=
  match (interpretCases env c.ext c.world).run c.vm with
  | .error fault => .ret (c.throw fault)
  | .ok (action, vm) => c.act env vm action

end Config

namespace Executive

variable {σ : Type} (env : Env σ) (w : World σ)

open SleOps

def baseGasRequired (isCreation : Bool) (data : Bytes) : Int :=
  data.foldl (fun gas b => gas + if b ≠ 0 then 16 else 4) (if isCreation then 53000 else 21000)

/-- `m_gasCost`. The gas price is a double. -/
def gasCost : Nat := max 1 (Double.round (env.tx.gas.toNat * env.gasPrice))

def frameGas : Int :=
  env.tx.gas.toNat - baseGasRequired (env.tx.contractOpType = .ContractCreation) env.tx.contractData

def txParameters : CallParameters where
  senderAddress := env.tx.account
  codeAddress := env.tx.contractAddress
  receiveAddress := env.tx.contractAddress
  valueTransfer := .ofNat 256 env.tx.contractValue
  apparentValue := .ofNat 256 env.tx.contractValue
  gas := frameGas env
  data := env.tx.contractData
  staticCall := false

def execute : Except Crash (World σ × Executive) :=
  let tx := env.tx
  let (ter, w) := subBalance env w tx.account (gasCost env) false
  let gasPrice : Word := .ofNat 256 env.gasPrice
  if ter ≠ tesSUCCESS then .ok (w, (start 1).fail ter)
  else if frameGas env < 0 then .ok (w, (start 1).fail tefGAS_INSUFFICIENT)
  else if tx.contractOpType = .ContractCreation then
    createOpcode env w 1 tx.account (.ofNat 256 tx.contractValue) gasPrice (frameGas env) tx.contractData
      tx.account
  else call env w 1 (txParameters env) gasPrice tx.account

/-- `m_refunded`. -/
def refunded (e : Executive) (sub : SubState) : Int :=
  let refunds := (sub.refunds + 24000 * UInt64.ofNat sub.selfdestruct.length).toNat
  let half := ((env.tx.gas.toNat : Int) - e.gas).tdiv 2
  if refunds < ofInt64 half then refunds else half

/-- What the sender gets back. -/
def givenBack (e : Executive) (sub : SubState) : Int := Double.mul (e.gas + refunded env e sub) env.gasPrice

/-- The accounts that destroyed themselves are removed, up to one that cannot be. -/
def removeAll : World σ → List AccountID → Except Crash (TER × World σ)
  | w, [] => .ok (tesSUCCESS, w)
  | w, a :: rest =>
    if (getSle w a).isNone then .error .undefined
    else match env.objects.cleanUpDirOnDeleteAccount a w.other with
      | (ter, other) =>
        let w := { w with other }
        if ter ≠ tesSUCCESS then .ok (ter, w)
        else removeAll (updateContractCount env (kill w a) .CONTRACT_DESTORY) rest

def finalize (e : Executive) (sub : SubState) : Except Crash (TER × World σ) := do
  let w := addBalance w env.tx.account (givenBack env e sub)
  let (ter, w) ← removeAll env w sub.selfdestruct
  return (if ter ≠ tesSUCCESS then ter else e.excepted, w)

end Executive

def doApply {σ : Type} (env : Env σ) (w : World σ) : Frames σ (Except Crash (TER × World σ)) :=
  match Executive.execute env w with
  | .error crash => .ret (.error crash)
  | .ok (w, e) =>
    match e.ext with
    | none => .ret (.ok (e.excepted, w))
    | some ext => (e.go w ext).map fun r => do
      let (w, sub, e) ← r
      let w := if env.tx.contractOpType = .ContractCreation then w
        else SleOps.updateContractCount env w .CONTRACT_CALL
      e.finalize env w sub

section Small

/-- An environment in which transactors throw and other ledger objects are not touched. -/
def bareEnv {σ : Type} (tx : ContractTx) : Env σ where
  tx
  gasPrice := 1
  reserve := 0
  increment := 0
  dropsPerByte := 1000
  blockNumber := 1
  blockTimestamp := 0
  chainID := 0
  blockHash _ := 0
  forConsensus := true
  featureContractStorage := false
  admin := none
  realNameAuthorityEnabled := false
  defaultAuthorityEnabled := false
  keccak _ := 0
  sha512Half _ := 0
  calcNewAddress a sequence := a + .ofNat 160 (sequence.toNat + 100)
  generateNameInDB _ _ := 0
  fetchFromStateCache _ _ := none
  peekItem _ _ _ := none
  transactors :=
    { preclaim := fun _ _ _ => tesSUCCESS
      apply := fun _ _ _ => none
      apply_cached := fun _ _ _ _ _ _ h => nomatch h
      apply_total := fun _ _ _ _ _ _ h => nomatch h }
  objects :=
    { dirAdd := fun _ s => some s
      cleanUpDirOnDeleteAccount := fun _ s => (tesSUCCESS, s)
      updateContractCount := fun _ s => s
      nameInDB := fun _ _ _ => none }
  doGetRecord2D _ _ _ _ := none
  genRandomUniqueHandle _ := 0
  trustLimit _ _ _ _ := none
  gatewayBalance _ _ _ _ := none
  toCurrency _ := false
  amountFromString _ _ := false
  rateInRange _ := false
  modexpCost _ := 0
  executePrecompiled _ _ := some (true, [])
  decodeTableCall _ :=
    { method := none, byContract := false, owner := 0, destAddr := 0, tableName := [], tableNewName := [],
      raw := [], rawUpdate := [], rawGet := [], autoFillField := [] }
  transHuman _ := []
  executeTools _ := some []

def plainRoot (balance : Nat) (contractCode : Option Bytes) : AccountRoot where
  balance := .of balance
  sequence := 1
  ownerCount := 0
  flags := 0
  contractCode
  storageOverlay := ⟨none, ∅⟩

def ledgerOf (roots : List (AccountID × AccountRoot)) : World Unit where
  view := ⟨roots.foldr (fun (a, sle) m => m.insert a sle) ∅, [], ∅⟩
  other := ()
  dirty := ∅
  logs := []
  subTxs := []
  contractCacheCode := ∅
  bTransaction := false
  sqlTxsNameInDB := ∅
  sqlTxsStatements := []
  records := ∅
  handleList := []

def callOf (contractData : Bytes) (gas : UInt32) : ContractTx where
  account := 7
  sequence := 1
  contractOpType := .MessageCall
  contractAddress := 100
  contractData
  contractValue := 0
  gas
  ethTx := false
  contractValue_lt := Nat.two_pow_pos 63

def plainCall : Env Unit := bareEnv (callOf [] 100000)

def callChain (inner : Bytes) (innerBalance : Nat) : World Unit :=
  ledgerOf [(7, plainRoot 1000000 none),
    (100, plainRoot 0 (some [0x60, 0, 0x60, 0, 0x60, 0, 0x60, 0, 0x60, 0, 0x60, 101, 0x5a, 0xf1, 0x00])),
    (101, plainRoot innerBalance (some inner))]

end Small

end Chainsql.Evm
