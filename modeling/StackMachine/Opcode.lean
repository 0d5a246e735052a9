import StackMachine.Signature

namespace StackMachine

inductive Opcode where
  | stop
  | add
  | mul
  | sub
  | div
  | sdiv
  | mod
  | smod
  | addmod
  | mulmod
  | exp
  | signextend
  | lt
  | gt
  | slt
  | sgt
  | eq
  | iszero
  | and
  | or
  | xor
  | not
  | byte
  | shl
  | shr
  | sar
  | keccak256
  | address
  | balance
  | origin
  | caller
  | callvalue
  | calldataload
  | calldatasize
  | calldatacopy
  | codesize
  | codecopy
  | gasprice
  | extcodesize
  | extcodecopy
  | returndatasize
  | returndatacopy
  | extcodehash
  | blockhash
  | coinbase
  | timestamp
  | number
  | prevrandao
  | gaslimit
  | chainid
  | selfbalance
  | basefee
  | blobhash
  | blobbasefee
  | pop
  | mload
  | mstore
  | mstore8
  | sload
  | sstore
  | jump
  | jumpi
  | pc
  | msize
  | gas
  | jumpdest
  | tload
  | tstore
  | mcopy
  | create
  | call
  | callcode
  | ret
  | delegatecall
  | create2
  | staticcall
  | revert
  | selfdestruct
  | push (width : Fin 33)
  /-- `DUP1` to `DUP16`, counted from zero. -/
  | dup (index : Fin 16)
  /-- `SWAP1` to `SWAP16`, counted from zero. -/
  | swap (index : Fin 16)
  | log (topics : Fin 5)
  deriving DecidableEq

namespace Opcode

def toByte : Opcode → UInt8
  | stop => 0x00
  | add => 0x01
  | mul => 0x02
  | sub => 0x03
  | div => 0x04
  | sdiv => 0x05
  | mod => 0x06
  | smod => 0x07
  | addmod => 0x08
  | mulmod => 0x09
  | exp => 0x0A
  | signextend => 0x0B
  | lt => 0x10
  | gt => 0x11
  | slt => 0x12
  | sgt => 0x13
  | eq => 0x14
  | iszero => 0x15
  | and => 0x16
  | or => 0x17
  | xor => 0x18
  | not => 0x19
  | byte => 0x1A
  | shl => 0x1B
  | shr => 0x1C
  | sar => 0x1D
  | keccak256 => 0x20
  | address => 0x30
  | balance => 0x31
  | origin => 0x32
  | caller => 0x33
  | callvalue => 0x34
  | calldataload => 0x35
  | calldatasize => 0x36
  | calldatacopy => 0x37
  | codesize => 0x38
  | codecopy => 0x39
  | gasprice => 0x3A
  | extcodesize => 0x3B
  | extcodecopy => 0x3C
  | returndatasize => 0x3D
  | returndatacopy => 0x3E
  | extcodehash => 0x3F
  | blockhash => 0x40
  | coinbase => 0x41
  | timestamp => 0x42
  | number => 0x43
  | prevrandao => 0x44
  | gaslimit => 0x45
  | chainid => 0x46
  | selfbalance => 0x47
  | basefee => 0x48
  | blobhash => 0x49
  | blobbasefee => 0x4A
  | pop => 0x50
  | mload => 0x51
  | mstore => 0x52
  | mstore8 => 0x53
  | sload => 0x54
  | sstore => 0x55
  | jump => 0x56
  | jumpi => 0x57
  | pc => 0x58
  | msize => 0x59
  | gas => 0x5A
  | jumpdest => 0x5B
  | tload => 0x5C
  | tstore => 0x5D
  | mcopy => 0x5E
  | create => 0xF0
  | call => 0xF1
  | callcode => 0xF2
  | ret => 0xF3
  | delegatecall => 0xF4
  | create2 => 0xF5
  | staticcall => 0xFA
  | revert => 0xFD
  | selfdestruct => 0xFF
  | push n => 0x5F + UInt8.ofNat n.val
  | dup i => 0x80 + UInt8.ofNat i.val
  | swap i => 0x90 + UInt8.ofNat i.val
  | log n => 0xA0 + UInt8.ofNat n.val

def mnemonic : Opcode → String
  | stop => "STOP"
  | add => "ADD"
  | mul => "MUL"
  | sub => "SUB"
  | div => "DIV"
  | sdiv => "SDIV"
  | mod => "MOD"
  | smod => "SMOD"
  | addmod => "ADDMOD"
  | mulmod => "MULMOD"
  | exp => "EXP"
  | signextend => "SIGNEXTEND"
  | lt => "LT"
  | gt => "GT"
  | slt => "SLT"
  | sgt => "SGT"
  | eq => "EQ"
  | iszero => "ISZERO"
  | and => "AND"
  | or => "OR"
  | xor => "XOR"
  | not => "NOT"
  | byte => "BYTE"
  | shl => "SHL"
  | shr => "SHR"
  | sar => "SAR"
  | keccak256 => "KECCAK256"
  | address => "ADDRESS"
  | balance => "BALANCE"
  | origin => "ORIGIN"
  | caller => "CALLER"
  | callvalue => "CALLVALUE"
  | calldataload => "CALLDATALOAD"
  | calldatasize => "CALLDATASIZE"
  | calldatacopy => "CALLDATACOPY"
  | codesize => "CODESIZE"
  | codecopy => "CODECOPY"
  | gasprice => "GASPRICE"
  | extcodesize => "EXTCODESIZE"
  | extcodecopy => "EXTCODECOPY"
  | returndatasize => "RETURNDATASIZE"
  | returndatacopy => "RETURNDATACOPY"
  | extcodehash => "EXTCODEHASH"
  | blockhash => "BLOCKHASH"
  | coinbase => "COINBASE"
  | timestamp => "TIMESTAMP"
  | number => "NUMBER"
  | prevrandao => "PREVRANDAO"
  | gaslimit => "GASLIMIT"
  | chainid => "CHAINID"
  | selfbalance => "SELFBALANCE"
  | basefee => "BASEFEE"
  | blobhash => "BLOBHASH"
  | blobbasefee => "BLOBBASEFEE"
  | pop => "POP"
  | mload => "MLOAD"
  | mstore => "MSTORE"
  | mstore8 => "MSTORE8"
  | sload => "SLOAD"
  | sstore => "SSTORE"
  | jump => "JUMP"
  | jumpi => "JUMPI"
  | pc => "PC"
  | msize => "MSIZE"
  | gas => "GAS"
  | jumpdest => "JUMPDEST"
  | tload => "TLOAD"
  | tstore => "TSTORE"
  | mcopy => "MCOPY"
  | create => "CREATE"
  | call => "CALL"
  | callcode => "CALLCODE"
  | ret => "RETURN"
  | delegatecall => "DELEGATECALL"
  | create2 => "CREATE2"
  | staticcall => "STATICCALL"
  | revert => "REVERT"
  | selfdestruct => "SELFDESTRUCT"
  | push n => "PUSH" ++ toString n.val
  | dup i => "DUP" ++ toString (i.val + 1)
  | swap i => "SWAP" ++ toString (i.val + 1)
  | log n => "LOG" ++ toString n.val

def name (op : Opcode) : String :=
  match op.mnemonic.toList with
  | [] => ""
  | c :: cs => String.ofList (c :: cs.map Char.toLower)

def stackEffect : Opcode → Nat × Nat
  | stop | jumpdest => (0, 0)
  | address | origin | caller | callvalue | calldatasize | codesize | gasprice | returndatasize
  | coinbase | timestamp | number | prevrandao | gaslimit | chainid | selfbalance | basefee
  | blobbasefee | pc | msize | gas => (0, 1)
  | pop | jump | selfdestruct => (1, 0)
  | iszero | not | balance | calldataload | extcodesize | extcodehash | blockhash | blobhash
  | mload | sload | tload => (1, 1)
  | mstore | mstore8 | sstore | jumpi | tstore | ret | revert => (2, 0)
  | add | mul | sub | div | sdiv | mod | smod | exp | signextend | lt | gt | slt | sgt | eq
  | and | or | xor | byte | shl | shr | sar | keccak256 => (2, 1)
  | calldatacopy | codecopy | returndatacopy | mcopy => (3, 0)
  | addmod | mulmod | create => (3, 1)
  | extcodecopy => (4, 0)
  | create2 => (4, 1)
  | delegatecall | staticcall => (6, 1)
  | call | callcode => (7, 1)
  | push _ => (0, 1)
  | dup i => (i.val + 1, i.val + 2)
  | swap i => (i.val + 2, i.val + 2)
  | log n => (n.val + 2, 0)

def immediateWidth : Opcode → Nat
  | push n => n.val
  | _ => 0

def isTerminator : Opcode → Bool
  | stop | ret | revert | selfdestruct => true
  | _ => false

def traits : Opcode → TraitSet
  | push _ => { push := true }
  | dup _ => { dup := true }
  | swap _ => { swap := true }
  | pc => { pc := true }
  | jump => { jump := true }
  | jumpi => { jumpi := true }
  | jumpdest => { jumpdest := true }
  | _ => {}

def signature (op : Opcode) : Signature where
  stackIn := op.stackEffect.1
  stackOut := op.stackEffect.2
  immediate := op.immediateWidth
  terminator := op.isTerminator
  traits := op.traits

def stackIn (op : Opcode) : Nat := op.stackEffect.1

def stackOut (op : Opcode) : Nat := op.stackEffect.2

def pushOfWidth? (width : Nat) : Option Opcode :=
  if h : width < 33 then some (push ⟨width, h⟩) else none

def singles : List Opcode :=
  [stop, add, mul, sub, div, sdiv, mod, smod, addmod, mulmod, exp, signextend, lt, gt, slt, sgt,
    eq, iszero, and, or, xor, not, byte, shl, shr, sar, keccak256, address, balance, origin,
    caller, callvalue, calldataload, calldatasize, calldatacopy, codesize, codecopy, gasprice,
    extcodesize, extcodecopy, returndatasize, returndatacopy, extcodehash, blockhash, coinbase,
    timestamp, number, prevrandao, gaslimit, chainid, selfbalance, basefee, blobhash,
    blobbasefee, pop, mload, mstore, mstore8, sload, sstore, jump, jumpi, pc, msize, gas,
    jumpdest, tload, tstore, mcopy, create, call, callcode, ret, delegatecall, create2,
    staticcall, revert, selfdestruct]

def all : List Opcode :=
  singles ++ (List.finRange 33).map push ++ (List.finRange 16).map dup
    ++ (List.finRange 16).map swap ++ (List.finRange 5).map log

def byteTable : Array (Option Opcode) :=
  Array.ofFn fun b : Fin 256 => all.find? fun op => op.toByte == UInt8.ofNat b.val

def ofByte? (b : UInt8) : Option Opcode := (byteTable[b.toNat]?).join

theorem mem_all (op : Opcode) : op ∈ all := by
  simp only [all, List.mem_append, List.mem_map, List.mem_finRange, true_and]
  cases op with
  | push n => exact .inl (.inl (.inl (.inr ⟨n, rfl⟩)))
  | dup i => exact .inl (.inl (.inr ⟨i, rfl⟩))
  | swap i => exact .inl (.inr ⟨i, rfl⟩)
  | log n => exact .inr ⟨n, rfl⟩
  | _ => exact .inl (.inl (.inl (.inl (by decide))))

theorem ofByte?_eq_find? (b : UInt8) : ofByte? b = all.find? fun op => op.toByte == b := by
  have h : b.toNat < 256 := b.toNat_lt
  simp [ofByte?, byteTable, h]

theorem ofByte?_toByte (op : Opcode) : ofByte? op.toByte = some op := by
  rw [ofByte?_eq_find?]
  cases op with
  | push n => revert n; decide +kernel
  | dup i => revert i; decide +kernel
  | swap i => revert i; decide +kernel
  | log n => revert n; decide +kernel
  | _ => decide +kernel

theorem ofByte?_eq_some_iff {b : UInt8} {op : Opcode} : ofByte? b = some op ↔ op.toByte = b := by
  constructor
  · intro h
    rw [ofByte?_eq_find?] at h
    simpa using List.find?_some h
  · rintro rfl
    exact ofByte?_toByte op

end Opcode

/-- How a walk over the code goes on behind an opcode that is no terminator. -/
inductive Role where
  | jump
  | branch
  | mark
  | compute (action : StackAction)
  deriving DecidableEq

def Opcode.role : Opcode → Role
  | .jump => .jump
  | .jumpi => .branch
  | .jumpdest => .mark
  | .pc => .compute .push
  | op => .compute op.signature.action

end StackMachine
