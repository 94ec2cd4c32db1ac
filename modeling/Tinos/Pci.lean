/-
The PCI configuration space (`kernel/drivers/pci/pci_config.c`): a 32-bit
word for every bus, device, function and register, reached through two ports.
The word written to `PCI_CONFIG_ADDRESS` selects a register, and
`PCI_CONFIG_DATA` reads and writes it, all 32 bits at a time.

Some bits of a register may be cleared by writing a 1 to them, as in the PCI
status register; the others hold what is written.
-/
import Mathlib.Logic.Function.Basic
import Tinos.Lib.Lanes

namespace Tinos

open Lanes

structure ConfigAddress where
  bus : Fin 256
  device : Fin 32
  function : Fin 8
  register : Fin 64
deriving DecidableEq

/-- The configuration mechanism: its address register, the words, which of
their bits a 1 clears, and the words accessed so far. -/
structure ConfigPorts where
  address : UInt32
  contents : ConfigAddress → UInt32
  clears : ConfigAddress → UInt32
  touched : List ConfigAddress

def pciConfigAddressPort : UInt16 := 0xCF8
def pciConfigDataPort : UInt16 := 0xCFC

/-- The fields of an address: bits 23 to 16, 15 to 11, 10 to 8 and 7 to 2. -/
def configWord (x : Nat) : ConfigAddress where
  bus := ⟨x / 65536 % 256, Nat.mod_lt _ (by decide)⟩
  device := ⟨x / 2048 % 32, Nat.mod_lt _ (by decide)⟩
  function := ⟨x / 256 % 8, Nat.mod_lt _ (by decide)⟩
  register := ⟨x / 4 % 64, Nat.mod_lt _ (by decide)⟩

/-- The register that the address register selects, if its enable bit is set. -/
def ConfigPorts.selected (io : ConfigPorts) : Option ConfigAddress :=
  if io.address.toNat.testBit 31 then some (configWord io.address.toNat) else none

def ConfigPorts.outl (io : ConfigPorts) (port : UInt16) (value : UInt32) : ConfigPorts :=
  if port == pciConfigAddressPort then { io with address := value }
  else if port == pciConfigDataPort then
    match io.selected with
    | none => io
    | some a =>
      { io with
        contents := Function.update io.contents a (writeOneToClear (io.clears a) (io.contents a) value)
        touched := io.touched ++ [a] }
  else io

/-- No register answers with all ones. -/
def ConfigPorts.inl (io : ConfigPorts) (port : UInt16) : UInt32 × ConfigPorts :=
  if port == pciConfigAddressPort then (io.address, io)
  else if port == pciConfigDataPort then
    match io.selected with
    | none => (0xFFFFFFFF, io)
    | some a => (io.contents a, { io with touched := io.touched ++ [a] })
  else (0xFFFFFFFF, io)

/-! ## The accessors -/

def pciConfigAddress (bus device function offset : UInt8) : UInt32 :=
  (0x80000000 : UInt32) ||| (bus.toUInt32 <<< 16) ||| (device.toUInt32 <<< 11) ||| (function.toUInt32 <<< 8) |||
    (offset &&& 0xFC).toUInt32

def pciConfigRead32 (io : ConfigPorts) (bus device function offset : UInt8) : UInt32 × ConfigPorts :=
  let io := io.outl pciConfigAddressPort (pciConfigAddress bus device function offset)
  io.inl pciConfigDataPort

def pciConfigRead16 (io : ConfigPorts) (bus device function offset : UInt8) : UInt16 × ConfigPorts :=
  let (value, io) := pciConfigRead32 io bus device function offset
  (((value >>> ((offset &&& 2).toUInt32 * 8)) &&& 0xFFFF).toUInt16, io)

def pciConfigRead8 (io : ConfigPorts) (bus device function offset : UInt8) : UInt8 × ConfigPorts :=
  let (value, io) := pciConfigRead32 io bus device function offset
  (((value >>> ((offset &&& 3).toUInt32 * 8)) &&& 0xFF).toUInt8, io)

def pciConfigWrite32 (io : ConfigPorts) (bus device function offset : UInt8) (value : UInt32) : ConfigPorts :=
  let io := io.outl pciConfigAddressPort (pciConfigAddress bus device function offset)
  io.outl pciConfigDataPort value

/-- The part `pci_config_write8` and `pci_config_write16` share. -/
def pciConfigWriteUnder (io : ConfigPorts) (bus device function offset : UInt8) (mask value shift : UInt32) :
    ConfigPorts :=
  let io := io.outl pciConfigAddressPort (pciConfigAddress bus device function offset)
  let (current, io) := io.inl pciConfigDataPort
  let current := current &&& ~~~(mask <<< shift)
  let current := current ||| (value <<< shift)
  io.outl pciConfigDataPort current

def pciConfigWrite8 (io : ConfigPorts) (bus device function offset value : UInt8) : ConfigPorts :=
  pciConfigWriteUnder io bus device function offset 0xFF value.toUInt32 ((offset &&& 3).toUInt32 * 8)

def pciConfigWrite16 (io : ConfigPorts) (bus device function offset : UInt8) (value : UInt16) : ConfigPorts :=
  pciConfigWriteUnder io bus device function offset 0xFFFF value.toUInt32 ((offset &&& 2).toUInt32 * 8)

end Tinos
