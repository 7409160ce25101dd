import Chainsql.Evm.Ledger

/-!
# The virtual machine of one frame

`meter` is what an instruction checks and charges, `effect` what it then does: in every case of
`interpretCases` the first comes before the second, and only the first throws. An effect that needs the
host or another frame is handed on as an `Action`.
-/

namespace Chainsql.Evm

inductive Fault where
  | OutOfGas | BadInstruction | InvalidInstruction | BadJumpDestination | StackUnderflow | OutOfStack
  | BufferOverrun | DisallowedStateChange
  /-- The program reads or writes outside of its objects. -/
  | undefined
deriving DecidableEq

/-- What the host knows about a frame: `ExtVMFace`, which is also where its `evmc_message` comes from. -/
structure Ext where
  myAddress : AccountID
  caller : AccountID
  origin : AccountID
  value : Word
  gasPrice : Word
  data : Bytes
  code : Bytes
  depth : Nat
  isCreate : Bool
  staticCall : Bool
deriving DecidableEq

structure VM where
  ioGas : Nat
  exception : Int32
  pc : Nat
  /-- The stack from `m_SP` on, as the instruction finds it. -/
  sp : List Word
  /-- The stack from `m_SPP` on, as the instruction leaves it. -/
  spp : List Word
  mem : Bytes
  returnData : Bytes
  runGas : Nat
  newMemSize : Nat
  copyMemSize : Nat
deriving DecidableEq

namespace VM

def start (gas : Int) : VM where
  ioGas := ofInt64 gas
  exception := 0
  pc := 0
  sp := []
  spp := []
  mem := []
  returnData := []
  runGas := 0
  newMemSize := 0
  copyMemSize := 0

def SP (vm : VM) (i : Nat) : Word := vm.sp.getD i 0

def setTop (vm : VM) (w : Word) : VM := { vm with spp := vm.spp.set 0 w }

def region (vm : VM) (offset size : Nat) : Bytes := slice vm.mem (vm.SP offset).toSize (vm.SP size).toSize

def address (vm : VM) (i : Nat) : AccountID := (vm.SP i).toAddress

/-- Offset, index and size are in the first three slots. What the data lacks is filled with zeros. -/
def copyDataToMemory (vm : VM) (data : Bytes) (offset index size : Nat) : VM :=
  let copied := slice data index size
  { vm with mem := overwrite vm.mem offset (copied ++ zeros (size - copied.length)) }

def ter2ReturnData (vm : VM) (ter : Int) : VM := { vm with returnData := toDecimal ter }

end VM

abbrev Exec := StateT VM (Except Fault)

namespace Exec

def throwIf (p : Prop) [Decidable p] (fault : Fault) : Exec Unit := if p then throw fault else pure ()

def onlyIf (p : Prop) [Decidable p] (m : Exec Unit) : Exec Unit := if p then m else pure ()

def toInt63 (n : Nat) : Exec Nat := if 0x7FFFFFFFFFFFFFFF < n then throw .OutOfGas else pure n

def memNeed (offset size : Word) : Exec Nat := toInt63 (if size ≠ 0 then offset.toNat + size.toNat else 0)

def gasForMem (size : Nat) : Exec Nat := toInt63 (3 * (size / 32) + (size / 32) * (size / 32) / 512)

def setRunGas (n : Nat) : Exec Unit := modify fun vm => { vm with runGas := u64 n }

def addRunGas (n : Nat) : Exec Unit := modify fun vm => { vm with runGas := u64 (vm.runGas + n) }

def checkGas : Exec Unit := do
  let vm ← get
  throwIf (vm.ioGas < vm.runGas) .OutOfGas

def updateIOGas : Exec Unit := do
  checkGas
  modify fun vm => { vm with ioGas := vm.ioGas - vm.runGas }

def addMemGas (oldSize newSize : Nat) : Exec Unit := do
  let new ← gasForMem newSize
  let old ← gasForMem oldSize
  addRunGas (← toInt63 (new - old))

def updateGas : Exec Unit := do
  let vm ← get
  onlyIf (vm.mem.length < vm.newMemSize) (addMemGas vm.mem.length vm.newMemSize)
  addRunGas (3 * ((vm.copyMemSize + 31) / 32))
  checkGas

def resizeMem : Exec Unit := modify fun vm =>
  { vm with mem := vm.mem ++ zeros (vm.newMemSize - vm.mem.length) }

def updateMem (newMem : Nat) : Exec Unit := do
  modify fun vm => { vm with newMemSize := (newMem + 31) / 32 * 32 }
  updateGas
  resizeMem

/-- `updateMem` for a region whose offset and size are given. -/
def needMem (offset size : Word) : Exec Unit := do updateMem (← memNeed offset size)

def setCopyMemSize (size : Word) : Exec Unit := do
  let n ← toInt63 size.toNat
  modify fun vm => { vm with copyMemSize := n }

def tableGasMem (dropsPerByte : Nat) (memBegin byteLens : Word) : Exec Unit := do
  setRunGas (← toInt63 (dropsPerByte * byteLens.toNat))
  needMem memBegin byteLens

/-- Sets `m_SP` to `m_SPP` and moves the latter. -/
def adjustStack (required : Nat) (change : Int) : Exec Unit := do
  let vm ← get
  let height := vm.spp.length
  throwIf (height < required) .StackUnderflow
  throwIf (1024 < height + change) .OutOfStack
  set { vm with
    sp := vm.spp
    spp := List.replicate change.toNat 0 ++ vm.spp.drop (-change).toNat }

def fetchInstruction (ext : Ext) : Exec Instruction := do
  let op := Instruction.ofOpcode (ext.code.getD (← get).pc 0).toNat
  adjustStack op.metrics.stackHeightRequired op.metrics.stackHeightChange
  modify fun vm => { vm with
    runGas := op.metrics.gasCost
    newMemSize := vm.mem.length
    copyMemSize := 0 }
  return op

end Exec

/-- The destinations in `code`, whose first byte is at `pc`. The next `skip` bytes are data of a push. -/
def jumpDestsFrom : Nat → Nat → Bytes → List Nat
  | _, _, [] => []
  | pc, skip + 1, _ :: code => jumpDestsFrom (pc + 1) skip code
  | pc, 0, b :: code =>
    match Instruction.ofOpcode b.toNat with
    | .JUMPDEST => pc :: jumpDestsFrom (pc + 1) 0 code
    | .PUSH bytes => jumpDestsFrom (pc + 1) bytes code
    | _ => jumpDestsFrom (pc + 1) 0 code

def isJumpDest (ext : Ext) (dest : Word) : Bool :=
  dest.toNat ≤ 0x7FFFFFFFFFFFFFFF && (jumpDestsFrom 0 0 ext.code).contains dest.toNat

/-- The functions of the host that work on the shared state and leave the frame's sub-state alone. -/
inductive HostCall where
  | get_storage (key : Word)
  | get_code_size (addr : AccountID)
  | get_code_hash (addr : AccountID)
  | copy_code (addr : AccountID) (codeOffset memOffset size : Nat)
  | emit_log (data : Bytes) (topics : List Word)
  | table_create (address : AccountID) (name raw : Bytes)
  | table_rename (address : AccountID) (name raw : Bytes)
  | table_insert (address : AccountID) (name raw : Bytes)
  | table_delete (address : AccountID) (name raw : Bytes)
  | table_drop (address : AccountID) (name : Bytes)
  | table_update (address : AccountID) (name rawUpdate rawCondition : Bytes)
  | table_grant (address1 address2 : AccountID) (name raw : Bytes)
  | table_get_handle (address : AccountID) (name raw : Bytes)
  | table_get_lines (handle : Word)
  | table_get_columns (handle : Word)
  | get_column_by_name (handle : Word) (row : Nat) (column : Bytes) (outOffset outSize : Nat)
  | get_column_by_index (handle : Word) (row column outOffset outSize : Nat)
  | db_trans_begin
  | db_trans_submit
  | release_resource
  | get_column_len_by_name (handle : Word) (row : Nat) (column : Bytes)
  | get_column_len_by_index (handle : Word) (row column : Nat)
  | account_set (address : AccountID) (flag : Nat) (set : Bool)
  | transfer_fee_set (address : AccountID) (rate min max : Bytes)
  | trust_set (address : AccountID) (value currency : Bytes) (gateWay : AccountID)
  | trust_limit (address : AccountID) (currency : Bytes) (power : Nat) (gateWay : AccountID)
  | gateway_balance (address : AccountID) (currency : Bytes) (power : Nat) (gateWay : AccountID)
  | pay (address receiver : AccountID) (value sendMax currency : Bytes) (gateWay : AccountID)
deriving DecidableEq

inductive CallKind where
  | EVMC_CALL | EVMC_DELEGATECALL | EVMC_CALLCODE | EVMC_CREATE | EVMC_CREATE2
deriving DecidableEq

structure Message where
  kind : CallKind
  isStatic : Bool
  gas : Int
  destination : AccountID
  sender : AccountID
  inputData : Bytes
  value : Word
  create2Salt : Word
deriving DecidableEq

inductive Action where
  /-- `NEXT`. -/
  | next
  /-- `CONTINUE`, after the instruction has set `m_PC`. -/
  | jump
  | halt (output : Bytes)
  | revert (output : Bytes)
  | revertDiy (output : Bytes)
  | selfdestruct (beneficiary : AccountID)
  | setStorage (key value : Word)
  | host (call : HostCall)
  | call (msg : Message) (outOffset outSize : Nat)
  | create (msg : Message)
deriving DecidableEq

section Instructions

variable {σ : Type} (env : Env σ) (ext : Ext) (w : World σ)

open Exec SleOps

def throwIfStatic : Exec Unit := throwIf ext.staticCall .DisallowedStateChange

def hasValueArg : Instruction → Bool
  | .CALL | .CALLCODE => true
  | _ => false

/-- The stack slot of the input offset of a call. -/
def sizesOffset (op : Instruction) : Nat := if hasValueArg op then 3 else 2

/-- The gas of a call: what it costs by itself, and then what is passed on. -/
def meterCall (op : Instruction) (vm : VM) : Exec Unit := do
  onlyIf (op = .CALL ∧ vm.SP 2 ≠ 0 ∧ (getSle w (vm.address 1)).isNone) (addRunGas 25000)
  onlyIf (hasValueArg op ∧ vm.SP 2 ≠ 0) (addRunGas 9000)
  let inputMemNeed ← memNeed (vm.SP (sizesOffset op)) (vm.SP (sizesOffset op + 1))
  let outputMemNeed ← memNeed (vm.SP (sizesOffset op + 2)) (vm.SP (sizesOffset op + 3))
  updateMem (max inputMemNeed outputMemNeed)
  updateIOGas
  let ioGas := (← get).ioGas
  setRunGas (← toInt63 (min (vm.SP 0).toNat (ioGas - ioGas / 64)))
  updateIOGas

/-- The checks and charges of an instruction, which `vm` has just fetched. -/
def meter (op : Instruction) (vm : VM) : Exec Unit :=
  match op with
  | .CREATE => do
    throwIfStatic ext
    setRunGas 32000
    needMem (vm.SP 1) (vm.SP 2)
    updateIOGas
  | .CREATE2 => do
    throwIfStatic ext
    setRunGas 32000
    addRunGas (← toInt63 (((vm.SP 2).toNat + 31) / 32 * 6))
    needMem (vm.SP 1) (vm.SP 2)
    updateIOGas
  | .CALL => do
    throwIf (ext.staticCall ∧ vm.SP 2 ≠ 0) .DisallowedStateChange
    meterCall w op vm
  | .CALLCODE | .DELEGATECALL | .STATICCALL => meterCall w op vm
  | .RETURN | .REVERT => do
    needMem (vm.SP 0) (vm.SP 1)
    updateIOGas
  | .REVERTDIY => do
    -- nothing has checked that the stack has two items
    throwIf (vm.sp.length < 2) .undefined
    needMem (vm.SP 0) (vm.SP 1)
    updateIOGas
  | .SELFDESTRUCT => do
    throwIfStatic ext
    updateIOGas
    onlyIf (0 < balance w ext.myAddress ∧ (getSle w (vm.address 0)).isNone) do
      setRunGas 25000
      updateIOGas
  | .MLOAD | .MSTORE => do
    updateMem ((← toInt63 (vm.SP 0).toNat) + 32)
    updateIOGas
  | .MSTORE8 => do
    updateMem ((← toInt63 (vm.SP 0).toNat) + 1)
    updateIOGas
  | .SHA3 => do
    setRunGas (← toInt63 (30 + ((vm.SP 1).toNat + 31) / 32 * 6))
    needMem (vm.SP 0) (vm.SP 1)
    updateIOGas
  | .LOG topics => do
    throwIfStatic ext
    setRunGas (← toInt63 (375 + 375 * topics + 8 * (vm.SP 1).toNat))
    needMem (vm.SP 0) (vm.SP 1)
    updateIOGas
  | .EXP => do
    setRunGas (← toInt63 (10 + 50 * (vm.SP 1).significantBytes))
    updateIOGas
  | .CALLDATACOPY | .CODECOPY => do
    setCopyMemSize (vm.SP 2)
    needMem (vm.SP 0) (vm.SP 2)
    updateIOGas
  | .RETURNDATACOPY => do
    throwIf (vm.returnData.length < (vm.SP 1).toNat + (vm.SP 2).toNat) .BufferOverrun
    setCopyMemSize (vm.SP 2)
    needMem (vm.SP 0) (vm.SP 2)
    updateIOGas
  | .EXTCODECOPY => do
    setCopyMemSize (vm.SP 3)
    needMem (vm.SP 1) (vm.SP 3)
    updateIOGas
  | .BLOCKHASH => do
    setRunGas 20
    updateIOGas
  | .JUMPDEST => do
    setRunGas 1
    updateIOGas
  | .JUMP => do
    updateIOGas
    throwIf (!isJumpDest ext (vm.SP 0)) .BadJumpDestination
  | .JUMPI => do
    updateIOGas
    throwIf (vm.SP 1 ≠ 0 ∧ !isJumpDest ext (vm.SP 0)) .BadJumpDestination
  | .SSTORE => do
    throwIfStatic ext
    throwIf ((← get).ioGas ≤ 2300) .OutOfGas
  | .CREATETABLE | .EXINSERTSQL | .EXDELETESQL | .EXSELECTSQL => do
    needMem (vm.SP 1) (vm.SP 2)
    tableGasMem env.dropsPerByte (vm.SP 3) (vm.SP 4)
    updateIOGas
  | .EXDROPTABLE | .EXTRUSTLIMIT | .EXGATEWAYBALANCE => needMem (vm.SP 1) (vm.SP 2)
  | .EXRENAMETABLE => do
    needMem (vm.SP 1) (vm.SP 2)
    -- the new name is read wherever it is
    throwIf ((vm.SP 4).toSize ≠ 0 ∧ (← get).mem.length < (vm.SP 3).toSize + (vm.SP 4).toSize) .undefined
  | .EXUPDATESQL => do
    needMem (vm.SP 1) (vm.SP 2)
    tableGasMem env.dropsPerByte (vm.SP 3) (vm.SP 4)
    updateIOGas
    tableGasMem env.dropsPerByte (vm.SP 5) (vm.SP 6)
    updateIOGas
  | .EXGRANTSQL => do
    needMem (vm.SP 2) (vm.SP 3)
    tableGasMem env.dropsPerByte (vm.SP 4) (vm.SP 5)
    updateIOGas
  | .EXTRANSBEGIN | .EXTRANSCOMMIT | .EXEXITFUNC | .EXGETLENBYINDEX | .EXACCOUNTSET => pure ()
  | .EXGETROWSIZE | .EXGETCOLSIZE => throwIf (vm.sp.length < 1) .undefined
  | .EXGETVALUEBYKEY => do
    needMem (vm.SP 2) (vm.SP 3)
    needMem (vm.SP 4) (vm.SP 5)
    throwIf ((vm.SP 5).toSize < 32) .undefined
  | .EXGETVALUEBYINDEX => do
    needMem (vm.SP 3) (vm.SP 4)
    throwIf ((vm.SP 4).toSize < 32) .undefined
  | .EXGETLENBYKEY => needMem (vm.SP 2) (vm.SP 3)
  | .EXTRANSFERFEESET | .EXPAY => do
    needMem (vm.SP 1) (vm.SP 2)
    needMem (vm.SP 3) (vm.SP 4)
    needMem (vm.SP 5) (vm.SP 6)
  | .EXTRUSTSET => do
    needMem (vm.SP 1) (vm.SP 2)
    needMem (vm.SP 3) (vm.SP 4)
  | .INVALID => throw .InvalidInstruction
  | .UNDEFINED => throw .BadInstruction
  | _ => updateIOGas

/-- The message of a call. `m_runGas` is the gas that was passed on. -/
def callMessage (op : Instruction) (vm : VM) : Message :=
  -- the amounts of an Ethereum transaction have twelve digits more
  let value := if env.tx.ethTx ∧ 10 ^ 12 < vm.SP 2 then vm.SP 2 / 10 ^ 12 else vm.SP 2
  { kind := match op with
      | .CALLCODE => .EVMC_CALLCODE
      | .DELEGATECALL => .EVMC_DELEGATECALL
      | _ => .EVMC_CALL
    isStatic := op = .STATICCALL ∨ ext.staticCall
    gas := toInt64 (if hasValueArg op ∧ vm.SP 2 ≠ 0 then vm.runGas + 2300 else vm.runGas)
    destination := vm.address 1
    sender := if op = .DELEGATECALL then ext.caller else ext.myAddress
    inputData := vm.region (sizesOffset op) (sizesOffset op + 1)
    value := if hasValueArg op then value else if op = .DELEGATECALL then ext.value else 0
    create2Salt := 0 }

def effectCall (op : Instruction) (vm : VM) : Action × VM :=
  let msg := callMessage env ext op vm
  let vm := { vm with returnData := [] }
  let balanceOk := !hasValueArg op || msg.value.toNat ≤ balance w ext.myAddress
  if balanceOk ∧ ext.depth < 1024 then
    (.call msg (vm.SP (sizesOffset op + 2)).toSize (vm.SP (sizesOffset op + 3)).toSize, vm)
  else
    let vm := { vm with ioGas := u64 (vm.ioGas + ofInt64 msg.gas) }
    (.next, (if balanceOk then vm
      else { vm with returnData := ofAscii "Contract address don't hava enough zxc" }).setTop 0)

def createMessage (op : Instruction) (vm : VM) : Message where
  kind := if op = .CREATE then .EVMC_CREATE else .EVMC_CREATE2
  isStatic := false
  gas := toInt64 vm.ioGas - (toInt64 vm.ioGas).tdiv 64
  destination := 0
  sender := ext.myAddress
  inputData := vm.region 1 2
  value := vm.SP 0
  create2Salt := if op = .CREATE then 0 else vm.SP 3

def effectCreate (op : Instruction) (vm : VM) : Action × VM :=
  let msg := createMessage ext op vm
  let vm := { vm with returnData := [] }
  if (vm.SP 0).toNat ≤ balance w ext.myAddress ∧ ext.depth < 1024 then (.create msg, vm)
  else (.next, vm.setTop 0)

def effectRevert (vm : VM) : Action :=
  if 0 < vm.exception ∧ vm.exception < 500 ∧ vm.exception ≠ 324 ∧ vm.exception ≠ 325 then
    .revertDiy (toDecimal vm.exception.toInt)
  else .revert (vm.region 0 1)

def effectRevertDiy (vm : VM) : Action :=
  .revertDiy (if 0 < vm.exception then toDecimal vm.exception.toInt else vm.region 0 1)

/-- The value of a push, whose data may reach over the end of the code. -/
def pushData (pc bytes : Nat) : Word :=
  Word.ofBytes ((List.range bytes).map fun i => ext.code.getD (pc + 1 + i) 0)

def calldataload (offset : Word) : Word :=
  if ext.data.length ≤ offset.toNat then 0
  else
    let bs := slice ext.data offset.toNat 32
    Word.ofBytes (bs ++ zeros (32 - bs.length))

def blockhash (number : Word) : Word :=
  if number.toNat < env.blockNumber ∧ max 256 env.blockNumber - 256 ≤ number.toNat then
    env.blockHash number.toNat
  else 0

/-- What an instruction does once it is paid for. -/
def effect (op : Instruction) (vm : VM) : Action × VM :=
  match op with
  | .STOP => (.halt [], vm)
  | .ADD => (.next, vm.setTop (vm.SP 0 + vm.SP 1))
  | .MUL => (.next, vm.setTop (vm.SP 0 * vm.SP 1))
  | .SUB => (.next, vm.setTop (vm.SP 0 - vm.SP 1))
  | .DIV => (.next, vm.setTop (.div (vm.SP 0) (vm.SP 1)))
  | .SDIV => (.next, vm.setTop (.sdiv (vm.SP 0) (vm.SP 1)))
  | .MOD => (.next, vm.setTop (.mod (vm.SP 0) (vm.SP 1)))
  | .SMOD => (.next, vm.setTop (.smod (vm.SP 0) (vm.SP 1)))
  | .ADDMOD => (.next, vm.setTop (.addmod (vm.SP 0) (vm.SP 1) (vm.SP 2)))
  | .MULMOD => (.next, vm.setTop (.mulmod (vm.SP 0) (vm.SP 1) (vm.SP 2)))
  | .EXP => (.next, vm.setTop (.exp (vm.SP 0) (vm.SP 1)))
  | .SIGNEXTEND => (.next, vm.setTop (.signextend (vm.SP 0) (vm.SP 1)))
  | .LT => (.next, vm.setTop (.ofBool (vm.SP 0 < vm.SP 1)))
  | .GT => (.next, vm.setTop (.ofBool (vm.SP 1 < vm.SP 0)))
  | .SLT => (.next, vm.setTop (.ofBool (Word.slt (vm.SP 0) (vm.SP 1))))
  | .SGT => (.next, vm.setTop (.ofBool (Word.sgt (vm.SP 0) (vm.SP 1))))
  | .EQ => (.next, vm.setTop (.ofBool (vm.SP 0 = vm.SP 1)))
  | .ISZERO => (.next, vm.setTop (.ofBool (vm.SP 0 = 0)))
  | .AND => (.next, vm.setTop (vm.SP 0 &&& vm.SP 1))
  | .OR => (.next, vm.setTop (vm.SP 0 ||| vm.SP 1))
  | .XOR => (.next, vm.setTop (vm.SP 0 ^^^ vm.SP 1))
  | .NOT => (.next, vm.setTop (~~~vm.SP 0))
  | .BYTE => (.next, vm.setTop (.byte (vm.SP 0) (vm.SP 1)))
  | .SHL => (.next, vm.setTop (.shl (vm.SP 0) (vm.SP 1)))
  | .SHR => (.next, vm.setTop (.shr (vm.SP 0) (vm.SP 1)))
  | .SAR => (.next, vm.setTop (.sar (vm.SP 0) (vm.SP 1)))
  | .SHA3 => (.next, vm.setTop (env.keccak (vm.region 0 1)))
  | .ADDRESS => (.next, vm.setTop (.ofAddress ext.myAddress))
  | .BALANCE => (.next, vm.setTop (.ofDrops (balance w (vm.address 0))))
  | .ORIGIN => (.next, vm.setTop (.ofAddress ext.origin))
  | .CALLER => (.next, vm.setTop (.ofAddress ext.caller))
  | .CALLVALUE => (.next, vm.setTop ext.value)
  | .CALLDATALOAD => (.next, vm.setTop (calldataload ext (vm.SP 0)))
  | .CALLDATASIZE => (.next, vm.setTop (.ofNat 256 ext.data.length))
  | .CALLDATACOPY =>
    (.next, vm.copyDataToMemory ext.data (vm.SP 0).toSize (vm.SP 1).toNat (vm.SP 2).toSize)
  | .CODESIZE => (.next, vm.setTop (.ofNat 256 ext.code.length))
  | .CODECOPY =>
    (.next, vm.copyDataToMemory ext.code (vm.SP 0).toSize (vm.SP 1).toNat (vm.SP 2).toSize)
  | .GASPRICE => (.next, vm.setTop ext.gasPrice)
  | .EXTCODESIZE => (.host (.get_code_size (vm.address 0)), vm)
  | .EXTCODECOPY =>
    (.host (.copy_code (vm.address 0) (min (vm.SP 2).toNat (2 ^ 64 - 1)) (vm.SP 1).toSize
      (vm.SP 3).toSize), vm)
  | .RETURNDATASIZE => (.next, vm.setTop (.ofNat 256 vm.returnData.length))
  | .RETURNDATACOPY =>
    (.next, vm.copyDataToMemory vm.returnData (vm.SP 0).toSize (vm.SP 1).toNat (vm.SP 2).toSize)
  | .EXTCODEHASH => (.host (.get_code_hash (vm.address 0)), vm)
  | .BLOCKHASH => (.next, vm.setTop (blockhash env (vm.SP 0)))
  | .COINBASE => (.next, vm.setTop 0)
  | .TIMESTAMP => (.next, vm.setTop (.ofNat 256 env.blockTimestamp))
  | .NUMBER => (.next, vm.setTop (.ofNat 256 env.blockNumber))
  | .DIFFICULTY => (.next, vm.setTop 0)
  | .GASLIMIT => (.next, vm.setTop 210000)
  | .CHAINID => (.next, vm.setTop (.ofNat 256 env.chainID))
  | .SELFBALANCE => (.next, vm.setTop (.ofDrops (balance w ext.myAddress)))
  | .POP => (.next, vm)
  | .MLOAD => (.next, vm.setTop (.ofBytes (slice vm.mem (vm.SP 0).toUnsigned 32)))
  | .MSTORE => (.next, { vm with mem := overwrite vm.mem (vm.SP 0).toUnsigned (vm.SP 1).toBytes })
  | .MSTORE8 =>
    (.next, { vm with mem := overwrite vm.mem (vm.SP 0).toUnsigned [.ofNat (vm.SP 1).toNat] })
  | .SLOAD => (.host (.get_storage (vm.SP 0)), vm)
  | .SSTORE => (.setStorage (vm.SP 0) (vm.SP 1), vm)
  | .JUMP => (.jump, { vm with pc := (vm.SP 0).toNat })
  | .JUMPI => (.jump, { vm with pc := if vm.SP 1 ≠ 0 then (vm.SP 0).toNat else vm.pc + 1 })
  | .PC => (.next, vm.setTop (.ofNat 256 vm.pc))
  | .MSIZE => (.next, vm.setTop (.ofNat 256 vm.mem.length))
  | .GAS => (.next, vm.setTop (.ofNat 256 vm.ioGas))
  | .JUMPDEST => (.next, vm)
  | .PUSH bytes => (.jump, { vm.setTop (pushData ext vm.pc bytes) with pc := vm.pc + bytes + 1 })
  | .DUP n => (.next, vm.setTop (vm.SP (n - 1)))
  | .SWAP n => (.next, { vm with spp := (vm.spp.set 0 (vm.SP n)).set n (vm.SP 0) })
  | .LOG topics =>
    (.host (.emit_log (vm.region 0 1) ((List.range topics).map fun i => vm.SP (i + 2))), vm)
  | .CREATETABLE => (.host (.table_create (vm.address 0) (vm.region 1 2) (vm.region 3 4)), vm)
  | .EXDROPTABLE => (.host (.table_drop (vm.address 0) (vm.region 1 2)), vm)
  | .EXRENAMETABLE => (.host (.table_rename (vm.address 0) (vm.region 1 2) (vm.region 3 4)), vm)
  | .EXINSERTSQL => (.host (.table_insert (vm.address 0) (vm.region 1 2) (vm.region 3 4)), vm)
  | .EXDELETESQL => (.host (.table_delete (vm.address 0) (vm.region 1 2) (vm.region 3 4)), vm)
  | .EXUPDATESQL =>
    (.host (.table_update (vm.address 0) (vm.region 1 2) (vm.region 3 4) (vm.region 5 6)), vm)
  | .EXSELECTSQL => (.host (.table_get_handle (vm.address 0) (vm.region 1 2) (vm.region 3 4)), vm)
  | .EXGRANTSQL =>
    (.host (.table_grant (vm.address 0) (vm.address 1) (vm.region 2 3) (vm.region 4 5)), vm)
  | .EXTRANSBEGIN => (.host .db_trans_begin, vm)
  | .EXTRANSCOMMIT => (.host .db_trans_submit, vm)
  | .EXGETROWSIZE => (.host (.table_get_lines (vm.SP 0)), vm)
  | .EXGETCOLSIZE => (.host (.table_get_columns (vm.SP 0)), vm)
  | .EXGETVALUEBYKEY =>
    (.host (.get_column_by_name (vm.SP 0) (vm.SP 1).toSize (vm.region 2 3) (vm.SP 4).toSize
      (vm.SP 5).toSize), vm.setTop (vm.SP 4))
  | .EXGETVALUEBYINDEX =>
    (.host (.get_column_by_index (vm.SP 0) (vm.SP 1).toSize (vm.SP 2).toSize (vm.SP 3).toSize
      (vm.SP 4).toSize), vm.setTop (vm.SP 3))
  | .EXEXITFUNC => (.host .release_resource, vm)
  | .EXGETLENBYKEY =>
    (.host (.get_column_len_by_name (vm.SP 0) (vm.SP 1).toSize (vm.region 2 3)), vm)
  | .EXGETLENBYINDEX =>
    (.host (.get_column_len_by_index (vm.SP 0) (vm.SP 1).toSize (vm.SP 2).toSize), vm)
  | .EXACCOUNTSET => (.host (.account_set (vm.address 0) (vm.SP 1).toUnsigned (vm.SP 2 ≠ 0)), vm)
  | .EXTRANSFERFEESET =>
    (.host (.transfer_fee_set (vm.address 0) (vm.region 1 2) (vm.region 3 4) (vm.region 5 6)), vm)
  | .EXTRUSTSET =>
    (.host (.trust_set (vm.address 0) (vm.region 1 2) (vm.region 3 4) (vm.address 5)), vm)
  | .EXTRUSTLIMIT =>
    (.host (.trust_limit (vm.address 0) (vm.region 1 2) (vm.SP 3).toSize (vm.address 4)), vm)
  | .EXGATEWAYBALANCE =>
    (.host (.gateway_balance (vm.address 0) (vm.region 1 2) (vm.SP 3).toSize (vm.address 4)), vm)
  | .EXPAY =>
    (.host (.pay (vm.address 8) (vm.address 7) (vm.region 5 6) (vm.region 3 4) (vm.region 1 2)
      (vm.address 0)), vm)
  | .CREATE | .CREATE2 => effectCreate ext w op vm
  | .CALL | .CALLCODE | .DELEGATECALL | .STATICCALL => effectCall env ext w op vm
  | .RETURN => (.halt (vm.region 0 1), vm)
  | .REVERT => (effectRevert vm, vm)
  | .REVERTDIY => (effectRevertDiy vm, vm)
  | .SELFDESTRUCT => (.selfdestruct (vm.address 0), vm)
  | .INVALID | .UNDEFINED => (.next, vm)

/-- One round of the interpreter's loop, up to what it needs the host for. -/
def interpretCases : Exec Action := do
  let op ← fetchInstruction ext
  meter env ext w op (← get)
  modifyGet (effect env ext w op)

end Instructions

inductive StorageStatus where
  | EVMC_STORAGE_UNCHANGED | EVMC_STORAGE_MODIFIED | EVMC_STORAGE_ADDED | EVMC_STORAGE_DELETED
deriving DecidableEq

/-- What a function of the host returns, or writes to memory. -/
inductive Reply where
  | done
  | word (w : Word)
  | ter (ter : Int)
  | int64 (i : Int)
  | buffer (offset : Nat) (bs : Bytes)
deriving DecidableEq

namespace Exec

def sstoreGas : StorageStatus → Nat
  | .EVMC_STORAGE_ADDED => 20000
  | .EVMC_STORAGE_MODIFIED | .EVMC_STORAGE_DELETED => 5000
  | .EVMC_STORAGE_UNCHANGED => Instruction.SLOAD.metrics.gasCost

/-- `SSTORE` is charged after the host has stored the value. -/
def chargeStorage (status : StorageStatus) : Exec Unit := do
  setRunGas (sstoreGas status)
  updateIOGas

end Exec

/-- The rest of an instruction after the host has returned. -/
def VM.resume (vm : VM) : Reply → VM
  | .done => vm
  | .word w => vm.setTop w
  | .ter ter => (vm.ter2ReturnData ter).setTop (.ofBool (ter = 0))
  | .int64 i => vm.setTop (.ofInt 256 i)
  | .buffer offset bs => { vm with mem := overwrite vm.mem offset bs }

inductive StatusCode where
  | EVMC_SUCCESS | EVMC_FAILURE | EVMC_REVERT | EVMC_REVERTDIY | EVMC_OUT_OF_GAS
  | EVMC_UNDEFINED_INSTRUCTION | EVMC_STACK_OVERFLOW | EVMC_STACK_UNDERFLOW | EVMC_BAD_JUMP_DESTINATION
  | EVMC_INVALID_MEMORY_ACCESS | EVMC_STATIC_MODE_VIOLATION | EVMC_INTERNAL_ERROR | EVMC_REJECTED
deriving DecidableEq

structure EvmcResult where
  statusCode : StatusCode
  gasLeft : Int
  output : Bytes
  createAddress : AccountID
  exception : Int32
deriving DecidableEq

namespace VM

def resumeCall (vm : VM) (outOffset outSize : Nat) (result : EvmcResult) : VM :=
  { vm.setTop (.ofBool (result.statusCode = .EVMC_SUCCESS)) with
    returnData := result.output
    mem := overwrite vm.mem outOffset (result.output.take outSize)
    ioGas := u64 (vm.ioGas + ofInt64 result.gasLeft)
    exception := result.exception }

def resumeCreate (vm : VM) (msg : Message) (result : EvmcResult) : VM :=
  { vm.setTop (if result.statusCode = .EVMC_SUCCESS then .ofAddress result.createAddress else 0) with
    returnData := result.output
    ioGas := ofInt64 (vm.ioGas - (msg.gas - result.gasLeft))
    exception := result.exception }

end VM

end Chainsql.Evm
