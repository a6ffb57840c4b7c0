import Swindle.DfuHandlers

/-!
# Descriptors and standard requests

The responses are the byte strings the handler points its caller at.
-/

set_option autoImplicit false

namespace Swindle.UsbDescriptors
open Swindle.WordMemory Swindle.DfuHandlers

def usbDtDevice : Byte := 1
def usbDtConfig : Byte := 2
def usbDtString : Byte := 3

def usbReqSetAddress : Byte := 0x05
def usbReqGetDescriptor : Byte := 0x06
def usbReqGetConfiguration : Byte := 0x08

def le16 (w : BitVec 16) : List Byte := [w.setWidth 8,(w >>> 8).setWidth 8]

def stridxMfr : Byte := 1
def stridxProduct : Byte := 2
def stridxSerial : Byte := 3
def stridxDfuse : Byte := 4

def devDesc : List Byte :=
  [18,usbDtDevice] ++ le16 0x0110 ++ [0,0,0,64] ++ le16 0x1d50 ++ le16 0x6030 ++ le16 0x0100 ++
    [stridxMfr,stridxProduct,stridxSerial,1]

def dfuFuncDesc : List Byte :=
  [9,0x21,0x01 ||| 0x02 ||| 0x04 ||| 0x08] ++ le16 1000 ++ le16 (dfuTransferSize.setWidth 16) ++
    le16 0x0110

def cfgBuf : List Byte :=
  [9,usbDtConfig] ++ le16 27 ++ [1,1,0,0x80,50] ++
    [9,4,0,0,0,0xFE,0x01,0x02,stridxDfuse] ++ dfuFuncDesc

def decimal (n : ℕ) : List Char := (toString n).toList

/-- The conversion `%04d`. -/
def decimal4 (n : ℕ) : List Char := List.replicate (4 - (decimal n).length) '0' ++ decimal n

/-- The DfuSe layout: the bootloader sectors are readable (`Ka`), the
application sectors readable, erasable and writable (`Kg`). -/
def dfuseStr : List Char :=
  "@Internal Flash  /0x00000000/".toList ++ decimal (flashBootldrSizeKb / dfuSectorSizeKb) ++
    "*".toList ++ decimal4 dfuSectorSizeKb ++ "Ka,".toList ++
    decimal (flashAppSizeKb / dfuSectorSizeKb) ++ "*".toList ++ decimal4 dfuSectorSizeKb ++
    "Kg".toList

/-- `snprintf(dfuse_str, 59, ...)` keeps at most 58 characters. -/
def stringOf (idx : Byte) : List Char :=
  if idx = stridxMfr then "CH32V3x Bootloader".toList
  else if idx = stridxProduct then "SWINDLE DFU".toList
  else if idx = stridxSerial then "CH32V3x-001".toList
  else if idx = stridxDfuse then dfuseStr.take 58
  else []

def stringDescriptor (idx : Byte) : List Byte :=
  if idx = 0 then [4,usbDtString,0x09,0x04]
  else
    let s := stringOf idx
    [2 + BitVec.ofNat 8 s.length * 2,usbDtString] ++ s.flatMap fun c => [BitVec.ofNat 8 c.toNat,0]

def getDescriptor (wValue : BitVec 16) : List Byte :=
  let descType := (wValue >>> 8).setWidth 8
  if descType = usbDtDevice then devDesc
  else if descType = usbDtConfig then cfgBuf
  else if descType = usbDtString then stringDescriptor (wValue.setWidth 8)
  else []

/-- The new `usb_dev_addr` and the response. -/
def handleStdRequest (req : SetupPacket) (usbDevAddr : Byte) : Byte × List Byte :=
  if req.bRequest = usbReqSetAddress then ((req.wValue &&& 0x7F).setWidth 8, [])
  else if req.bRequest = usbReqGetDescriptor then (usbDevAddr, getDescriptor req.wValue)
  else if req.bRequest = usbReqGetConfiguration then (usbDevAddr, [1])
  else (usbDevAddr, [])

end Swindle.UsbDescriptors
