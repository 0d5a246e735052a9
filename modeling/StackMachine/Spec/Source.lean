import StackMachine.Spec.Check

namespace StackMachine

def flagExpression (flags : List String) : String :=
  let present := (Trait.all.filter fun t => flags.contains t.name).map fun t =>
    "OpcodeFlags::" ++ t.name.toUpper
  match present with
  | [] => "OpcodeFlags::NONE"
  | names =>
    String.intercalate ".union(" names ++ String.ofList (List.replicate (names.length - 1) ')')

/-- The lines of a text. A newline or a carriage return with a newline ends a line. -/
def linesOf (line : List Char) : List Char → List String
  | [] => if line.isEmpty then [] else [String.ofList line.reverse]
  | '\n' :: rest =>
    let ended := match line with
      | '\r' :: line => line
      | line => line
    String.ofList ended.reverse :: linesOf [] rest
  | c :: rest => linesOf (c :: line) rest

namespace Spec.Source

def headerSection : List String :=
  ["// Copyright 2026 the Flowcheck Authors",
    "// SPDX-License-Identifier: Apache-2.0 OR MIT",
    "",
    "// @generated by flowcheck_codegen. Do not edit by hand.",
    ""]

def flagsSection : List String :=
  ["/// Optional per-opcode traits.",
    "#[derive(Copy, Clone, Debug, PartialEq, Eq)]",
    "#[repr(transparent)]",
    "pub struct OpcodeFlags(u8);",
    "",
    "impl OpcodeFlags \x7b",
    "    /// No flags set.",
    "    pub const NONE: Self = Self(0);",
    "    /// Push-family opcode (`PUSH0`..`PUSH32`); records a literal constant.",
    "    pub const PUSH: Self = Self(1 << 0);",
    "    /// `DUPn`; copies a slot together with its provenance.",
    "    pub const DUP: Self = Self(1 << 1);",
    "    /// `SWAPn`; exchanges two slots together with their provenance.",
    "    pub const SWAP: Self = Self(1 << 2);",
    "    /// `PC`; records the current offset as a constant.",
    "    pub const PC: Self = Self(1 << 3);",
    "    /// Unconditional jump.",
    "    pub const JUMP: Self = Self(1 << 4);",
    "    /// Conditional jump.",
    "    pub const JUMPI: Self = Self(1 << 5);",
    "    /// Jump destination marker.",
    "    pub const JUMPDEST: Self = Self(1 << 6);",
    "",
    "    /// Returns the union of `self` and `other`.",
    "    #[must_use]",
    "    pub const fn union(self, other: Self) -> Self \x7b",
    "        Self(self.0 | other.0)",
    "    \x7d",
    "",
    "    /// Returns `true` if `other` is a subset of `self`.",
    "    #[must_use]",
    "    pub const fn contains(self, other: Self) -> bool \x7b",
    "        (self.0 & other.0) == other.0",
    "    \x7d",
    "\x7d",
    ""]

def rowTypeSection : List String :=
  ["/// Per-opcode metadata used by decode, disasm, and verification.",
    "#[derive(Copy, Clone, Debug, PartialEq, Eq)]",
    "pub struct OpcodeInfo \x7b",
    "    /// Stable, parseable opcode name.",
    "    pub mnemonic: &'static str,",
    "    /// Whether this byte is an assigned opcode.",
    "    pub is_assigned: bool,",
    "    /// Number of stack items the opcode removes.",
    "    pub stack_in: u8,",
    "    /// Number of stack items the opcode adds.",
    "    pub stack_out: u8,",
    "    /// Number of immediate bytes following the opcode byte.",
    "    pub immediate: u8,",
    "    /// Whether this opcode halts execution successfully.",
    "    pub is_terminator: bool,",
    "    /// Optional per-opcode traits.",
    "    pub flags: OpcodeFlags,",
    "\x7d",
    ""]

def hexLiteral (b : UInt8) : String := "0x" ++ Hex.ofByteUpper b

def boolText (b : Bool) : String := if b then "true" else "false"

def row (mnemonic assigned stackIn stackOut immediate terminator flags : String) (byte : UInt8) :
    String :=
  "    OpcodeInfo \x7b mnemonic: \"" ++ mnemonic ++ "\", is_assigned: " ++ assigned
    ++ ", stack_in: " ++ stackIn ++ ", stack_out: " ++ stackOut ++ ", immediate: " ++ immediate
    ++ ", is_terminator: " ++ terminator ++ ", flags: " ++ flags ++ " \x7d, // "
    ++ hexLiteral byte

def assignedRow (op : OpcodeSpec) (byte : UInt8) : String :=
  row op.mnemonic (boolText true) (toString op.stackIn) (toString op.stackOut)
    (toString op.immediate) (boolText op.terminator) (flagExpression op.flags) byte

def unassignedRow (byte : UInt8) : String :=
  row "<invalid>" (boolText false) "0" "0" "0" (boolText false) (flagExpression []) byte

def byByte (ops : List Assignment) : Array (Option OpcodeSpec) :=
  ops.foldl (fun table a => table.setIfInBounds a.byte.toNat (some a.op))
    (Array.replicate 256 none)

def rows (ops : List Assignment) : List String :=
  let table := byByte ops
  (List.range 256).map fun index =>
    let byte := UInt8.ofNat index
    match table.getD index none with
    | some op => assignedRow op byte
    | none => unassignedRow byte

def tableSection (ops : List Assignment) : List String :=
  ["/// Metadata indexed by opcode byte (all 256 byte values).",
    "pub static OPCODE_INFO_BY_BYTE: [OpcodeInfo; 256] = ["]
    ++ rows ops ++ ["];", ""]

def variantLines (a : Assignment) : Except SpecError (List String) :=
  match a.op.doc with
  | none => .error (.missingDoc a.op.name)
  | some doc =>
    .ok ((linesOf [] doc.toList).map ("    /// " ++ ·)
      ++ ["    " ++ a.op.name ++ " = " ++ hexLiteral a.byte ++ ","])

def enumSection (ops : List Assignment) : Except SpecError (List String) := do
  let variants ← ops.mapM variantLines
  return ["/// Assigned opcode bytes of the instruction set.",
    "#[derive(Copy, Clone, Debug, PartialEq, Eq, Hash)]",
    "#[repr(u8)]",
    "pub enum Opcode \x7b"]
    ++ variants.flatten ++ ["\x7d", ""]

def decoderArm (a : Assignment) : String :=
  "            " ++ hexLiteral a.byte ++ " => Self::" ++ a.op.name ++ ","

def decoderSection (ops : List Assignment) : List String :=
  ["impl Opcode \x7b",
    "    /// Decodes an opcode byte; `None` for unassigned bytes.",
    "    #[must_use]",
    "    pub fn from_u8(b: u8) -> Option<Self> \x7b",
    "        Some(match b \x7b"]
    ++ ops.map decoderArm
    ++ ["            _ => return None,", "        \x7d)", "    \x7d", ""]

def accessorSection : List String :=
  ["    /// Returns opcode metadata for this opcode.",
    "    #[must_use]",
    "    pub fn info(self) -> &'static OpcodeInfo \x7b",
    "        &OPCODE_INFO_BY_BYTE[usize::from(self as u8)]",
    "    \x7d",
    "",
    "    /// Stable, parseable opcode name.",
    "    ///",
    "    /// This string is used by the disassembler output.",
    "    #[must_use]",
    "    pub fn mnemonic(self) -> &'static str \x7b",
    "        self.info().mnemonic",
    "    \x7d",
    "",
    "    /// Returns `true` if this opcode halts execution successfully.",
    "    #[must_use]",
    "    pub fn is_terminator(self) -> bool \x7b",
    "        self.info().is_terminator",
    "    \x7d",
    "\x7d"]

def ofLines (lines : List String) : String := String.join (lines.map (· ++ "\n"))

end Spec.Source

open Spec.Source in
def Spec.generate (spec : Spec) : Except SpecError String := do
  let ops ← spec.check
  let opcodeType ← enumSection ops
  return ofLines (headerSection ++ flagsSection ++ rowTypeSection ++ tableSection ops ++ opcodeType
    ++ decoderSection ops ++ accessorSection)

end StackMachine
