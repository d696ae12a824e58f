import CrossAsm.Machine.Decode
import CrossAsm.Machine.Encode
import CrossAsm.Target.M6800
import CrossAsm.Target.Ns32000
import CrossAsm.Target.Tms32010
import CrossAsm.Target.Z80

/-! The supported targets by name. -/

namespace CrossAsm

inductive Target where
  | mc6800
  | mc6801
  | hd6301
  | z80
  | ns32000
  | tms32010
deriving DecidableEq, Repr

namespace Target

def name : Target → String
  | mc6800 => "mc6800"
  | mc6801 => "mc6801"
  | hd6301 => "hd6301"
  | z80 => "z80"
  | ns32000 => "ns32000"
  | tms32010 => "tms32010"

/-- The target of a name or a usual short form of it, letter case aside. -/
def ofName? (name : String) : Option Target :=
  match Text.lower name with
  | "6800" | "mc6800" => some mc6800
  | "6801" | "mc6801" | "6803" | "mc6803" => some mc6801
  | "6301" | "hd6301" => some hd6301
  | "z80" => some z80
  | "32000" | "ns32000" | "ns32k" | "32032" | "ns32032" => some ns32000
  | "32010" | "tms32010" | "tms320" => some tms32010
  | _ => none

def Mode : Target → Type
  | mc6800 | mc6801 | hd6301 => M6800.Mode
  | z80 => Z80.Mode
  | ns32000 => Ns32000.Mode
  | tms32010 => Tms32010.Mode

def Reg : Target → Type
  | mc6800 | mc6801 | hd6301 => M6800.Reg
  | z80 => Z80.Reg
  | ns32000 => Ns32000.Reg
  | tms32010 => Tms32010.Reg

def machine : (t : Target) → Machine t.Mode t.Reg
  | mc6800 => M6800.machine .mc6800
  | mc6801 => M6800.machine .mc6801
  | hd6301 => M6800.machine .hd6301
  | z80 => Z80.machine
  | ns32000 => Ns32000.machine
  | tms32010 => Tms32010.machine

def config (t : Target) : Config := t.machine.config

/-- Assembles one line. -/
def assemble (t : Target) (symbols : Symbols) (line : String) (address : UInt32) : Assembled :=
  t.machine.assemble symbols line address

/-- Decodes one instruction. -/
def decode (t : Target) (symbols : Symbols) (style : Style) (r : Reader) : Decoded × Reader :=
  t.machine.decode symbols style r

/-- Decodes to the end of memory. -/
def decodeAll (t : Target) (symbols : Symbols) (style : Style) (r : Reader) :
    List Decoded × Reader :=
  t.machine.decodeAll symbols style r

/-- The mnemonics of the target in increasing order. -/
def mnemonics (t : Target) : List String := t.machine.mnemonics

end Target

end CrossAsm
