import UsbArmory.Boot.Writer

/-!
# The DCD that initializes the external RAM

The registers of the peripherals, by their base addresses and offsets, and the
writes to them.
-/

set_option autoImplicit false

namespace UsbArmory.Boot.Ddr
open UsbArmory.Library.Word
open UsbArmory.Boot.Commands (AddressValue)

def iomuxc : UInt32 := 0x020e0014

def mmdc : UInt32 := 0x021b0000

inductive Register where
  | swPadCtlGrpDdrType
  | swPadCtlGrpDdrpke
  | swPadCtlPadDramReset
  | swPadCtlPadDramSdba2
  | swPadCtlPadDramOdt0
  | swPadCtlPadDramOdt1
  | swPadCtlGrpDdrmodeCtl
  | swPadCtlGrpDdrmode
  | mdscr
  | mdcfg0
  | mdcfg1
  | mdcfg2
  | mdotc
  | mdmisc
  | mdrwd
  | mdasp
  | mdor
  | mdctl
  | mpzqhwctrl
  | mpwldectrl0
  | mpwldectrl1
  | mpdgctrl0
  | mprddlctl
  | mpwrdlctl
  | mprddqby0dl
  | mprddqby1dl
  | mpwrdqby0dl
  | mpwrdqby1dl
  | mpdccr
  | mpmur0
  | mdpdc
  | mapsr
  | mdref
  | mpodtctrl

def Register.address : Register → UInt32
  | .swPadCtlGrpDdrType => iomuxc+0x04a0
  | .swPadCtlGrpDdrpke => iomuxc+0x0498
  | .swPadCtlPadDramReset => iomuxc+0x0274
  | .swPadCtlPadDramSdba2 => iomuxc+0x025c
  | .swPadCtlPadDramOdt0 => iomuxc+0x024c
  | .swPadCtlPadDramOdt1 => iomuxc+0x0250
  | .swPadCtlGrpDdrmodeCtl => iomuxc+0x0480
  | .swPadCtlGrpDdrmode => iomuxc+0x049c
  | .mdscr => mmdc+0x1c
  | .mdcfg0 => mmdc+0x0c
  | .mdcfg1 => mmdc+0x10
  | .mdcfg2 => mmdc+0x14
  | .mdotc => mmdc+0x08
  | .mdmisc => mmdc+0x18
  | .mdrwd => mmdc+0x2c
  | .mdasp => mmdc+0x40
  | .mdor => mmdc+0x30
  | .mdctl => mmdc+0x00
  | .mpzqhwctrl => mmdc+0x0800
  | .mpwldectrl0 => mmdc+0x080c
  | .mpwldectrl1 => mmdc+0x0810
  | .mpdgctrl0 => mmdc+0x083c
  | .mprddlctl => mmdc+0x0848
  | .mpwrdlctl => mmdc+0x0850
  | .mprddqby0dl => mmdc+0x081c
  | .mprddqby1dl => mmdc+0x0820
  | .mpwrdqby0dl => mmdc+0x082c
  | .mpwrdqby1dl => mmdc+0x0830
  | .mpdccr => mmdc+0x08c0
  | .mpmur0 => mmdc+0x08b8
  | .mdpdc => mmdc+0x04
  | .mapsr => mmdc+0x0404
  | .mdref => mmdc+0x20
  | .mpodtctrl => mmdc+0x0818

def write (register : Register) (value : UInt32) : AddressValue := ⟨register.address, value⟩

def initDdr : Writer.Dcd :=
  ⟨[write .swPadCtlGrpDdrType 0x000c0000, write .swPadCtlGrpDdrpke 0,
    write .swPadCtlPadDramReset 0x80030, write .swPadCtlPadDramSdba2 0,
    write .swPadCtlPadDramOdt0 0x30, write .swPadCtlPadDramOdt1 0x30, ⟨0x020e0280, 0x30⟩,
    ⟨0x020e0284, 0x30⟩, write .swPadCtlGrpDdrmodeCtl 0x00020000,
    write .swPadCtlGrpDdrmode 0x00020000, write .mdscr 0x8000, write .mdcfg0 0x676b52f3,
    write .mdcfg1 0xb66d0b63, write .mdcfg2 0x01ff00db, write .mdotc 0x1b333030,
    write .mdmisc 0x00201740, write .mdrwd 0x26d2, write .mdasp 0x4f, write .mdor 0x006b1023,
    write .mdctl 0x84180000, write .mpzqhwctrl 0xa1390003, write .mpwldectrl0 0x000d000f,
    write .mpwldectrl1 0x00100010, write .mpdgctrl0 0x415c0160, write .mprddlctl 0x40403c42,
    write .mpwrdlctl 0x40402c26, write .mprddqby0dl 0x33333333, write .mprddqby1dl 0x33333333,
    write .mpwrdqby0dl 0xf3333333, write .mpwrdqby1dl 0xf3333333, write .mpdccr 0x00921012,
    write .mpmur0 0x0800, write .mdscr 0x02008032, write .mdscr 0x8033,
    write .mdscr 0x00048031, write .mdscr 0x15208030, write .mdscr 0x04008040,
    write .mdpdc 0x0002556d, write .mapsr 0x00011006, write .mdref 0x0800,
    write .mpodtctrl 0x0227, write .mdscr 0]⟩

theorem initDdr_size (o : Overflow) : initDdr.size o = .ok 344 := by
  cases o <;> rfl

end UsbArmory.Boot.Ddr
