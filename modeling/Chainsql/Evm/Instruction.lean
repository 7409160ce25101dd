import Chainsql.Evm.Word

/-!
# Instructions

The opcodes of the interpreter's jump table and their metrics at the Istanbul revision, the one the
node runs. `UNDEFINED` stands for every opcode that the table sends to the label `INVALID`.
-/

namespace Chainsql.Evm

inductive Instruction where
  | STOP | ADD | MUL | SUB | DIV | SDIV | MOD | SMOD | ADDMOD | MULMOD | EXP | SIGNEXTEND
  | LT | GT | SLT | SGT | EQ | ISZERO | AND | OR | XOR | NOT | BYTE | SHL | SHR | SAR
  | SHA3
  | ADDRESS | BALANCE | ORIGIN | CALLER | CALLVALUE | CALLDATALOAD | CALLDATASIZE | CALLDATACOPY
  | CODESIZE | CODECOPY | GASPRICE | EXTCODESIZE | EXTCODECOPY | RETURNDATASIZE | RETURNDATACOPY
  | EXTCODEHASH
  | BLOCKHASH | COINBASE | TIMESTAMP | NUMBER | DIFFICULTY | GASLIMIT | CHAINID | SELFBALANCE
  | POP | MLOAD | MSTORE | MSTORE8 | SLOAD | SSTORE | JUMP | JUMPI | PC | MSIZE | GAS | JUMPDEST
  | PUSH (bytes : Nat) | DUP (n : Nat) | SWAP (n : Nat) | LOG (topics : Nat)
  | CREATETABLE | EXDROPTABLE | EXRENAMETABLE | EXINSERTSQL | EXDELETESQL | EXUPDATESQL | EXSELECTSQL
  | EXGRANTSQL | EXTRANSBEGIN | EXTRANSCOMMIT | EXGETROWSIZE | EXGETCOLSIZE | EXGETVALUEBYKEY
  | EXGETVALUEBYINDEX | EXEXITFUNC | EXGETLENBYKEY | EXGETLENBYINDEX
  | REVERTDIY
  | EXACCOUNTSET | EXTRANSFERFEESET | EXTRUSTSET | EXTRUSTLIMIT | EXGATEWAYBALANCE | EXPAY
  | CREATE | CALL | CALLCODE | RETURN | DELEGATECALL | CREATE2 | STATICCALL
  | REVERT | INVALID | SELFDESTRUCT
  | UNDEFINED
deriving DecidableEq, Repr

namespace Instruction

/-- The jump table of the interpreter. -/
def ofOpcode (opcode : Nat) : Instruction :=
  if 0x60 ≤ opcode ∧ opcode ≤ 0x7f then PUSH (opcode - 0x60 + 1)
  else if 0x80 ≤ opcode ∧ opcode ≤ 0x8f then DUP (opcode - 0x80 + 1)
  else if 0x90 ≤ opcode ∧ opcode ≤ 0x9f then SWAP (opcode - 0x90 + 1)
  else if 0xa0 ≤ opcode ∧ opcode ≤ 0xa4 then LOG (opcode - 0xa0)
  else match opcode with
    | 0x00 => STOP | 0x01 => ADD | 0x02 => MUL | 0x03 => SUB | 0x04 => DIV | 0x05 => SDIV
    | 0x06 => MOD | 0x07 => SMOD | 0x08 => ADDMOD | 0x09 => MULMOD | 0x0a => EXP | 0x0b => SIGNEXTEND
    | 0x10 => LT | 0x11 => GT | 0x12 => SLT | 0x13 => SGT | 0x14 => EQ | 0x15 => ISZERO
    | 0x16 => AND | 0x17 => OR | 0x18 => XOR | 0x19 => NOT | 0x1a => BYTE | 0x1b => SHL
    | 0x1c => SHR | 0x1d => SAR
    | 0x20 => SHA3
    | 0x30 => ADDRESS | 0x31 => BALANCE | 0x32 => ORIGIN | 0x33 => CALLER | 0x34 => CALLVALUE
    | 0x35 => CALLDATALOAD | 0x36 => CALLDATASIZE | 0x37 => CALLDATACOPY | 0x38 => CODESIZE
    | 0x39 => CODECOPY | 0x3a => GASPRICE | 0x3b => EXTCODESIZE | 0x3c => EXTCODECOPY
    | 0x3d => RETURNDATASIZE | 0x3e => RETURNDATACOPY | 0x3f => EXTCODEHASH
    | 0x40 => BLOCKHASH | 0x41 => COINBASE | 0x42 => TIMESTAMP | 0x43 => NUMBER | 0x44 => DIFFICULTY
    | 0x45 => GASLIMIT | 0x46 => CHAINID | 0x47 => SELFBALANCE
    | 0x50 => POP | 0x51 => MLOAD | 0x52 => MSTORE | 0x53 => MSTORE8 | 0x54 => SLOAD | 0x55 => SSTORE
    | 0x56 => JUMP | 0x57 => JUMPI | 0x58 => PC | 0x59 => MSIZE | 0x5a => GAS | 0x5b => JUMPDEST
    | 0xc0 => CREATETABLE | 0xc1 => EXDROPTABLE | 0xc2 => EXRENAMETABLE | 0xc3 => EXINSERTSQL
    | 0xc4 => EXDELETESQL | 0xc5 => EXUPDATESQL | 0xc6 => EXSELECTSQL | 0xc7 => EXGRANTSQL
    | 0xc8 => EXTRANSBEGIN | 0xc9 => EXTRANSCOMMIT | 0xca => EXGETROWSIZE | 0xcb => EXGETCOLSIZE
    | 0xcc => EXGETVALUEBYKEY | 0xcd => EXGETVALUEBYINDEX | 0xce => EXEXITFUNC | 0xcf => EXGETLENBYKEY
    | 0xd0 => EXGETLENBYINDEX | 0xd1 => REVERTDIY | 0xd2 => EXACCOUNTSET | 0xd3 => EXTRANSFERFEESET
    | 0xd4 => EXTRUSTSET | 0xd5 => EXTRUSTLIMIT | 0xd6 => EXGATEWAYBALANCE | 0xd7 => EXPAY
    | 0xf0 => CREATE | 0xf1 => CALL | 0xf2 => CALLCODE | 0xf3 => RETURN | 0xf4 => DELEGATECALL
    | 0xf5 => CREATE2 | 0xfa => STATICCALL
    | 0xfd => REVERT | 0xfe => INVALID | 0xff => SELFDESTRUCT
    | _ => UNDEFINED

end Instruction

structure Metrics where
  gasCost : Nat
  stackHeightRequired : Nat
  stackHeightChange : Int

def SQLGAS : Nat := 100

def TOKENGAS : Nat := 100

namespace Instruction

/-- `istanbul_metrics`. The table has no entry for `REVERTDIY`. -/
def metrics : Instruction → Metrics
  | STOP => ⟨0, 0, 0⟩
  | ADD | SUB => ⟨3, 2, -1⟩
  | MUL | DIV | SDIV | MOD | SMOD => ⟨5, 2, -1⟩
  | ADDMOD | MULMOD => ⟨8, 3, -2⟩
  | EXP => ⟨10, 2, -1⟩
  | SIGNEXTEND => ⟨5, 2, -1⟩
  | LT | GT | SLT | SGT | EQ => ⟨3, 2, -1⟩
  | ISZERO | NOT => ⟨3, 1, 0⟩
  | AND | OR | XOR | BYTE | SHL | SHR | SAR => ⟨3, 2, -1⟩
  | SHA3 => ⟨30, 2, -1⟩
  | ADDRESS | ORIGIN | CALLER | CALLVALUE | CALLDATASIZE | CODESIZE | GASPRICE | RETURNDATASIZE =>
    ⟨2, 0, 1⟩
  | BALANCE | EXTCODESIZE | EXTCODEHASH => ⟨700, 1, 0⟩
  | CALLDATALOAD => ⟨3, 1, 0⟩
  | CALLDATACOPY | CODECOPY | RETURNDATACOPY => ⟨3, 3, -3⟩
  | EXTCODECOPY => ⟨700, 4, -4⟩
  | BLOCKHASH => ⟨20, 1, 0⟩
  | COINBASE | TIMESTAMP | NUMBER | DIFFICULTY | GASLIMIT | CHAINID => ⟨2, 0, 1⟩
  | SELFBALANCE => ⟨5, 0, 1⟩
  | POP => ⟨2, 1, -1⟩
  | MLOAD => ⟨3, 1, 0⟩
  | MSTORE | MSTORE8 => ⟨3, 2, -2⟩
  | SLOAD => ⟨800, 1, 0⟩
  | SSTORE => ⟨0, 2, -2⟩
  | JUMP => ⟨8, 1, -1⟩
  | JUMPI => ⟨10, 2, -2⟩
  | PC | MSIZE | GAS => ⟨2, 0, 1⟩
  | JUMPDEST => ⟨1, 0, 0⟩
  | PUSH _ => ⟨3, 0, 1⟩
  | DUP n => ⟨3, n, 1⟩
  | SWAP n => ⟨3, n + 1, 0⟩
  | LOG n => ⟨(n + 1) * 375, n + 2, -(n + 2 : Int)⟩
  | CREATETABLE | EXRENAMETABLE | EXINSERTSQL | EXDELETESQL | EXSELECTSQL => ⟨SQLGAS, 5, -4⟩
  | EXDROPTABLE => ⟨SQLGAS, 3, -2⟩
  | EXUPDATESQL => ⟨SQLGAS, 7, -6⟩
  | EXGRANTSQL => ⟨SQLGAS, 6, -5⟩
  | EXTRANSBEGIN | EXGETROWSIZE | EXGETCOLSIZE | EXEXITFUNC => ⟨SQLGAS, 0, 0⟩
  | EXTRANSCOMMIT => ⟨SQLGAS, 0, 1⟩
  | EXGETVALUEBYKEY => ⟨SQLGAS, 6, -5⟩
  | EXGETVALUEBYINDEX => ⟨SQLGAS, 5, -4⟩
  | EXGETLENBYKEY => ⟨SQLGAS, 4, -3⟩
  | EXGETLENBYINDEX => ⟨SQLGAS, 3, -2⟩
  | EXACCOUNTSET => ⟨TOKENGAS, 3, -2⟩
  | EXTRANSFERFEESET => ⟨TOKENGAS, 7, -6⟩
  | EXTRUSTSET => ⟨TOKENGAS, 6, -5⟩
  | EXTRUSTLIMIT | EXGATEWAYBALANCE => ⟨TOKENGAS, 5, -4⟩
  | EXPAY => ⟨TOKENGAS, 9, -8⟩
  | CREATE => ⟨32000, 3, -2⟩
  | CALL | CALLCODE => ⟨700, 7, -6⟩
  | RETURN | REVERT => ⟨0, 2, -2⟩
  | DELEGATECALL | STATICCALL => ⟨700, 6, -5⟩
  | CREATE2 => ⟨32000, 4, -3⟩
  | SELFDESTRUCT => ⟨5000, 1, -1⟩
  | REVERTDIY | INVALID | UNDEFINED => ⟨0, 0, 0⟩

end Instruction

end Chainsql.Evm
