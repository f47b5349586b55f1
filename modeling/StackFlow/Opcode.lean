import StackFlow.Text.Numeral

/-! # Opcodes: the legal bytes, their stack effect and their control flow -/

namespace StackFlow

/-- What an instruction does to control. -/
inductive Flow where
  /-- Continues with the instruction behind it. -/
  | next
  /-- Ends the run in success. -/
  | terminator
  /-- Is refused wherever it is reached. -/
  | invalid
  /-- Continues at its target. -/
  | jump
  /-- Continues at its target or behind itself. -/
  | jumpIf
  /-- Enters the subroutine at its target. -/
  | call
  /-- Leaves the innermost subroutine. -/
  | ret
deriving DecidableEq, Repr

/-- Whether the flow is along a displacement. -/
def Flow.isRelative : Flow → Bool
  | .jump | .jumpIf | .call => true
  | .next | .terminator | .invalid | .ret => false

/-- The opcodes in the order of their bytes. `push`, `dup`, `swap` and `log` are families:
`push 0` is PUSH1, `dup 0` is DUP1, `swap 0` is SWAP1, and `log 0` is LOG0. -/
inductive Opcode where
  | stop | add | mul | sub | div | sdiv | mod | smod | addmod | mulmod | exp | signextend
  | lt | gt | slt | sgt | eq | iszero | and | or | xor | not | byte | shl | shr | sar
  | keccak256
  | address | balance | origin | caller | callvalue | calldataload | calldatasize | calldatacopy
  | codesize | codecopy | gasprice | extcodesize | extcodecopy | returndatasize | returndatacopy
  | extcodehash
  | blockhash | coinbase | timestamp | number | difficulty | gaslimit | chainid | selfbalance
  | basefee
  | pop | mload | mstore | mstore8 | sload | sstore | pc | msize | gas | jumpdest
  | rjump | returnsub | rjumpsub | rjumpi
  | push (k : Fin 32)
  | dup (k : Fin 16)
  | swap (k : Fin 16)
  | log (k : Fin 5)
  | create | call | callcode | ret | delegatecall | create2 | staticcall
  | revert | invalid | selfdestruct
deriving DecidableEq, Repr

namespace Opcode

def toByte : Opcode → UInt8
  | stop => 0x00 | add => 0x01 | mul => 0x02 | sub => 0x03 | div => 0x04 | sdiv => 0x05
  | mod => 0x06 | smod => 0x07 | addmod => 0x08 | mulmod => 0x09 | exp => 0x0A
  | signextend => 0x0B
  | lt => 0x10 | gt => 0x11 | slt => 0x12 | sgt => 0x13 | eq => 0x14 | iszero => 0x15
  | and => 0x16 | or => 0x17 | xor => 0x18 | not => 0x19 | byte => 0x1A | shl => 0x1B
  | shr => 0x1C | sar => 0x1D
  | keccak256 => 0x20
  | address => 0x30 | balance => 0x31 | origin => 0x32 | caller => 0x33 | callvalue => 0x34
  | calldataload => 0x35 | calldatasize => 0x36 | calldatacopy => 0x37 | codesize => 0x38
  | codecopy => 0x39 | gasprice => 0x3A | extcodesize => 0x3B | extcodecopy => 0x3C
  | returndatasize => 0x3D | returndatacopy => 0x3E | extcodehash => 0x3F
  | blockhash => 0x40 | coinbase => 0x41 | timestamp => 0x42 | number => 0x43
  | difficulty => 0x44 | gaslimit => 0x45 | chainid => 0x46 | selfbalance => 0x47
  | basefee => 0x48
  | pop => 0x50 | mload => 0x51 | mstore => 0x52 | mstore8 => 0x53 | sload => 0x54
  | sstore => 0x55 | pc => 0x58 | msize => 0x59 | gas => 0x5A | jumpdest => 0x5B
  | rjump => 0x5C | returnsub => 0x5D | rjumpsub => 0x5E | rjumpi => 0x5F
  | push k => 0x60 + UInt8.ofNat k
  | dup k => 0x80 + UInt8.ofNat k
  | swap k => 0x90 + UInt8.ofNat k
  | log k => 0xA0 + UInt8.ofNat k
  | create => 0xF0 | call => 0xF1 | callcode => 0xF2 | ret => 0xF3 | delegatecall => 0xF4
  | create2 => 0xF5 | staticcall => 0xFA | revert => 0xFD | invalid => 0xFE
  | selfdestruct => 0xFF

/-- The opcode of a byte, if the byte is legal. -/
def ofByte? (b : UInt8) : Option Opcode :=
  match b.toNat with
  | 0x00 => stop | 0x01 => add | 0x02 => mul | 0x03 => sub | 0x04 => div | 0x05 => sdiv
  | 0x06 => mod | 0x07 => smod | 0x08 => addmod | 0x09 => mulmod | 0x0A => exp
  | 0x0B => signextend
  | 0x10 => lt | 0x11 => gt | 0x12 => slt | 0x13 => sgt | 0x14 => eq | 0x15 => iszero
  | 0x16 => and | 0x17 => or | 0x18 => xor | 0x19 => not | 0x1A => byte | 0x1B => shl
  | 0x1C => shr | 0x1D => sar
  | 0x20 => keccak256
  | 0x30 => address | 0x31 => balance | 0x32 => origin | 0x33 => caller | 0x34 => callvalue
  | 0x35 => calldataload | 0x36 => calldatasize | 0x37 => calldatacopy | 0x38 => codesize
  | 0x39 => codecopy | 0x3A => gasprice | 0x3B => extcodesize | 0x3C => extcodecopy
  | 0x3D => returndatasize | 0x3E => returndatacopy | 0x3F => extcodehash
  | 0x40 => blockhash | 0x41 => coinbase | 0x42 => timestamp | 0x43 => number
  | 0x44 => difficulty | 0x45 => gaslimit | 0x46 => chainid | 0x47 => selfbalance
  | 0x48 => basefee
  | 0x50 => pop | 0x51 => mload | 0x52 => mstore | 0x53 => mstore8 | 0x54 => sload
  | 0x55 => sstore | 0x58 => pc | 0x59 => msize | 0x5A => gas | 0x5B => jumpdest
  | 0x5C => rjump | 0x5D => returnsub | 0x5E => rjumpsub | 0x5F => rjumpi
  | 0xF0 => create | 0xF1 => call | 0xF2 => callcode | 0xF3 => ret | 0xF4 => delegatecall
  | 0xF5 => create2 | 0xFA => staticcall | 0xFD => revert | 0xFE => invalid
  | 0xFF => selfdestruct
  | n =>
    if h : 0x60 ≤ n ∧ n < 0x80 then some (push ⟨n - 0x60, by omega⟩)
    else if h : 0x80 ≤ n ∧ n < 0x90 then some (dup ⟨n - 0x80, by omega⟩)
    else if h : 0x90 ≤ n ∧ n < 0xA0 then some (swap ⟨n - 0x90, by omega⟩)
    else if h : 0xA0 ≤ n ∧ n < 0xA5 then some (log ⟨n - 0xA0, by omega⟩)
    else none

def mnemonic : Opcode → String
  | stop => "STOP" | add => "ADD" | mul => "MUL" | sub => "SUB" | div => "DIV" | sdiv => "SDIV"
  | mod => "MOD" | smod => "SMOD" | addmod => "ADDMOD" | mulmod => "MULMOD" | exp => "EXP"
  | signextend => "SIGNEXTEND"
  | lt => "LT" | gt => "GT" | slt => "SLT" | sgt => "SGT" | eq => "EQ" | iszero => "ISZERO"
  | and => "AND" | or => "OR" | xor => "XOR" | not => "NOT" | byte => "BYTE" | shl => "SHL"
  | shr => "SHR" | sar => "SAR"
  | keccak256 => "KECCAK256"
  | address => "ADDRESS" | balance => "BALANCE" | origin => "ORIGIN" | caller => "CALLER"
  | callvalue => "CALLVALUE" | calldataload => "CALLDATALOAD" | calldatasize => "CALLDATASIZE"
  | calldatacopy => "CALLDATACOPY" | codesize => "CODESIZE" | codecopy => "CODECOPY"
  | gasprice => "GASPRICE" | extcodesize => "EXTCODESIZE" | extcodecopy => "EXTCODECOPY"
  | returndatasize => "RETURNDATASIZE" | returndatacopy => "RETURNDATACOPY"
  | extcodehash => "EXTCODEHASH"
  | blockhash => "BLOCKHASH" | coinbase => "COINBASE" | timestamp => "TIMESTAMP"
  | number => "NUMBER" | difficulty => "DIFFICULTY" | gaslimit => "GASLIMIT"
  | chainid => "CHAINID" | selfbalance => "SELFBALANCE" | basefee => "BASEFEE"
  | pop => "POP" | mload => "MLOAD" | mstore => "MSTORE" | mstore8 => "MSTORE8"
  | sload => "SLOAD" | sstore => "SSTORE" | pc => "PC" | msize => "MSIZE" | gas => "GAS"
  | jumpdest => "JUMPDEST" | rjump => "RJUMP" | returnsub => "RETURNSUB"
  | rjumpsub => "RJUMPSUB" | rjumpi => "RJUMPI"
  | push k => "PUSH" ++ decimal (k + 1)
  | dup k => "DUP" ++ decimal (k + 1)
  | swap k => "SWAP" ++ decimal (k + 1)
  | log k => "LOG" ++ decimal k
  | create => "CREATE" | call => "CALL" | callcode => "CALLCODE" | ret => "RETURN"
  | delegatecall => "DELEGATECALL" | create2 => "CREATE2" | staticcall => "STATICCALL"
  | revert => "REVERT" | invalid => "INVALID" | selfdestruct => "SELFDESTRUCT"

/-- The mnemonic in small letters with a capital in front. -/
def name (op : Opcode) : String := op.mnemonic.toLower.capitalize

/-- The number of immediate bytes behind the opcode byte. -/
def immediateLength : Opcode → Nat
  | rjump | rjumpi | rjumpsub => 2
  | push k => k + 1
  | _ => 0

/-- The number of stack items consumed. -/
def inputs : Opcode → Nat
  | iszero | not | balance | calldataload | extcodesize | extcodehash | blockhash | pop
  | mload | sload | rjumpi | selfdestruct => 1
  | add | mul | sub | div | sdiv | mod | smod | exp | signextend | lt | gt | slt | sgt | eq
  | and | or | xor | byte | shl | shr | sar | keccak256 | mstore | mstore8 | sstore
  | ret | revert => 2
  | addmod | mulmod | calldatacopy | codecopy | returndatacopy | create => 3
  | extcodecopy | create2 => 4
  | delegatecall | staticcall => 6
  | call | callcode => 7
  | dup k => k + 1
  | swap k | log k => k + 2
  | _ => 0

/-- The number of stack items produced. -/
def outputs : Opcode → Nat
  | add | mul | sub | div | sdiv | mod | smod | addmod | mulmod | exp | signextend
  | lt | gt | slt | sgt | eq | iszero | and | or | xor | not | byte | shl | shr | sar
  | keccak256
  | address | balance | origin | caller | callvalue | calldataload | calldatasize
  | codesize | gasprice | extcodesize | returndatasize | extcodehash
  | blockhash | coinbase | timestamp | number | difficulty | gaslimit | chainid | selfbalance
  | basefee | mload | sload | pc | msize | gas | push _
  | create | call | callcode | delegatecall | create2 | staticcall => 1
  | dup k | swap k => k + 2
  | _ => 0

def flow : Opcode → Flow
  | stop | ret | revert | selfdestruct => .terminator
  | invalid => .invalid
  | rjump => .jump
  | rjumpi => .jumpIf
  | rjumpsub => .call
  | returnsub => .ret
  | _ => .next

/-- Whether the opcode ends a run in success. -/
def isTerminator (op : Opcode) : Bool := op.flow = .terminator

/-- Whether the opcode carries a displacement. -/
def isRelative (op : Opcode) : Bool := op.flow.isRelative

/-- The push of an immediate of `n` bytes. -/
def pushOfLength? (n : Nat) : Option Opcode :=
  if h : 1 ≤ n ∧ n ≤ 32 then some (push ⟨n - 1, by omega⟩) else none

@[simp] theorem ofByte?_toByte (op : Opcode) : ofByte? op.toByte = some op := by
  cases op with
  | push k => revert k; decide
  | dup k => revert k; decide
  | swap k => revert k; decide
  | log k => revert k; decide
  | _ => rfl

theorem toByte_of_ofByte? {b : UInt8} {op : Opcode} (h : ofByte? b = some op) : op.toByte = b := by
  have all : ∀ n : Fin 256,
      (ofByte? (UInt8.ofNat n)).all (fun op => op.toByte == UInt8.ofNat n) = true := by
    decide +kernel
  have := all ⟨b.toNat, b.toNat_lt⟩
  simpa [h] using this

/-- A relative opcode has room for a displacement of two bytes. -/
theorem immediateLength_of_isRelative {op : Opcode} (h : op.isRelative = true) :
    op.immediateLength = 2 := by
  cases op <;> first | rfl | cases h

end Opcode

end StackFlow
