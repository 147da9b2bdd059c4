import YlsFirmware.Globals

/-! # uart.c

The poll tick `Qwerty_all_Device`, which selects the next device, clears its health bit and sends it its
command row, and `Check_message_UART`, which hands a received frame to the handler of the slot. -/

namespace YlsFirmware
open Packed

/-! ### Addresses of the devices -/

def ykp1BKD : Nat := 1
def ykp2BKD : Nat := 2
def ykp3BKD : Nat := 3
def yaz1BKD : Nat := 4
def yaz2BKD : Nat := 5
def yaz3BKD : Nat := 6
def yps1BKD : Nat := 7
def yps2BKD : Nat := 8
def yps3BKD : Nat := 9
def ylk96_1BKD : Nat := 10
def ylk96_2BKD : Nat := 11
def ylk96_3BKD : Nat := 12

def startAdrBKHOA : Nat := 1 + deviceInBKD * inTotalBKD
def yps1BKHOA : Nat := 1 + deviceInBKD * inTotalBKD
def yps2BKHOA : Nat := 2 + deviceInBKD * inTotalBKD
def yps3BKHOA : Nat := 3 + deviceInBKD * inTotalBKD
def ytp1_1BKHOA : Nat := 4 + deviceInBKD * inTotalBKD
def ytp1_2BKHOA : Nat := 5 + deviceInBKD * inTotalBKD
def ytp1_3BKHOA : Nat := 6 + deviceInBKD * inTotalBKD
def ytp2_1BKHOA : Nat := 7 + deviceInBKD * inTotalBKD
def ytp2_2BKHOA : Nat := 8 + deviceInBKD * inTotalBKD
def ytp2_3BKHOA : Nat := 9 + deviceInBKD * inTotalBKD
def ytm1_1BKHOA : Nat := 10 + deviceInBKD * inTotalBKD
def ytm1_2BKHOA : Nat := 11 + deviceInBKD * inTotalBKD
def ytm1_3BKHOA : Nat := 12 + deviceInBKD * inTotalBKD
def ytm2_1BKHOA : Nat := 13 + deviceInBKD * inTotalBKD
def ytm2_2BKHOA : Nat := 14 + deviceInBKD * inTotalBKD
def ytm2_3BKHOA : Nat := 15 + deviceInBKD * inTotalBKD
def ygr1BKHOA : Nat := 16 + deviceInBKD * inTotalBKD
def ygr2BKHOA : Nat := 17 + deviceInBKD * inTotalBKD
def ygr3BKHOA : Nat := 18 + deviceInBKD * inTotalBKD
def ylk32_3_1BKHOA : Nat := 19 + deviceInBKD * inTotalBKD
def ylk32_3_2BKHOA : Nat := 20 + deviceInBKD * inTotalBKD
def ylk32_3_3BKHOA : Nat := 21 + deviceInBKD * inTotalBKD
def yvp1BKHOA : Nat := 22 + deviceInBKD * inTotalBKD
def yvp2BKHOA : Nat := 23 + deviceInBKD * inTotalBKD
def yvp3BKHOA : Nat := 24 + deviceInBKD * inTotalBKD
def andAdrBKHOA : Nat := 24 + deviceInBKD * inTotalBKD

def startAdrOUTSERVO : Nat := 25 + deviceInBKD * inTotalBKD
def outServo_1 : Nat := 25 + deviceInBKD * inTotalBKD
def outServo_2 : Nat := 26 + deviceInBKD * inTotalBKD
def outServo_3 : Nat := 27 + deviceInBKD * inTotalBKD
def outServo_4 : Nat := 28 + deviceInBKD * inTotalBKD
def outServo_5 : Nat := 29 + deviceInBKD * inTotalBKD
def outServo_6 : Nat := 30 + deviceInBKD * inTotalBKD
def outServo_7 : Nat := 31 + deviceInBKD * inTotalBKD
def outServo_8 : Nat := 32 + deviceInBKD * inTotalBKD
def andAdrOUTSERVO : Nat := 32 + deviceInBKD * inTotalBKD

/-- A `switch` whose arms all end in `break`, with an empty default. -/
def switch (x : Nat) (arms : List (Nat × List Store)) : List Store := (arms.lookup x).getD []

/-! ### Qwerty_all_Device -/

/-- The slot advances on every call, the device of the BKD slots once per round of the slots. -/
def Counters.nextSlot (c : Counters) : Counters :=
  if incr8 c.currentBKD > inTotalBKD + 1 then
    { c with
      currentBKD := 0
      currentDeviceInBKDx :=
        if incr8 c.currentDeviceInBKDx > deviceInBKD then 1 else incr8 c.currentDeviceInBKDx }
  else { c with currentBKD := incr8 c.currentBKD }

def Counters.nextBKHOA (c : Counters) : Counters :=
  { c with
    currentDeviceInBKHOA :=
      if incr8 c.currentDeviceInBKHOA > andAdrBKHOA then startAdrBKHOA else incr8 c.currentDeviceInBKHOA }

def Counters.nextOUTSERVO (c : Counters) : Counters :=
  { c with
    currentDeviceInOUTSERVO :=
      if incr8 c.currentDeviceInOUTSERVO > andAdrOUTSERVO then startAdrOUTSERVO
      else incr8 c.currentDeviceInOUTSERVO }

def Counters.clearBKD (c : Counters) : List Store :=
  switch c.currentDeviceInBKDx
    [(ykp1BKD, [.clear .ykpPoc1 c.currentBKD]),
     (ykp2BKD, [.clear .ykpPoc2 c.currentBKD]),
     (ykp3BKD, [.clear .ykpPoc3 c.currentBKD]),
     (yaz1BKD, [.clear .yazPoc1 c.currentBKD]),
     (yaz2BKD, [.clear .yazPoc2 c.currentBKD]),
     (yaz3BKD, [.clear .yazPoc3 c.currentBKD]),
     (yps1BKD, [.clear .ypsPoc1 c.currentBKD]),
     (yps2BKD, [.clear .ypsPoc2 c.currentBKD]),
     (yps3BKD, [.clear .ypsPoc3 c.currentBKD]),
     (ylk96_1BKD, [.clear .ylk96Poc1 c.currentBKD]),
     (ylk96_2BKD, [.clear .ylk96Poc2 c.currentBKD]),
     (ylk96_3BKD, [.clear .ylk96Poc3 c.currentBKD])]

def Counters.clearBKHOA (c : Counters) : List Store :=
  switch c.currentDeviceInBKHOA
    [(yps1BKHOA, [.clear .ypsBkhoAPoc1 0]),
     (yps2BKHOA, [.clear .ypsBkhoAPoc2 0]),
     (yps3BKHOA, [.clear .ypsBkhoAPoc3 0]),
     (ytp1_1BKHOA, [.clear .ytp1BkhoAPoc1 0]),
     (ytp1_2BKHOA, [.clear .ytp1BkhoAPoc2 0]),
     (ytp1_3BKHOA, [.clear .ytp1BkhoAPoc3 0]),
     (ytp2_1BKHOA, [.clear .ytp2BkhoAPoc1 0]),
     (ytp2_2BKHOA, [.clear .ytp2BkhoAPoc2 0]),
     (ytp2_3BKHOA, [.clear .ytp2BkhoAPoc3 0]),
     (ytm1_1BKHOA, [.clear .ytm1BkhoAPoc1 0]),
     (ytm1_2BKHOA, [.clear .ytm1BkhoAPoc2 0]),
     (ytm1_3BKHOA, [.clear .ytm1BkhoAPoc3 0]),
     (ytm2_1BKHOA, [.clear .ytm2BkhoAPoc1 0]),
     (ytm2_2BKHOA, [.clear .ytm2BkhoAPoc2 0]),
     (ytm2_3BKHOA, [.clear .ytm2BkhoAPoc3 0]),
     (ygr1BKHOA, [.clear .ygrBkhoAPoc1 0]),
     (ygr2BKHOA, [.clear .ygrBkhoAPoc2 0]),
     (ygr3BKHOA, [.clear .ygrBkhoAPoc3 0]),
     (ylk32_3_1BKHOA, [.clear .ylk32_3BkhoAPoc1 0]),
     (ylk32_3_2BKHOA, [.clear .ylk32_3BkhoAPoc2 0]),
     (ylk32_3_3BKHOA, [.clear .ylk32_3BkhoAPoc3 0]),
     (yvp1BKHOA, [.clear .yvpBkhoAPoc1 0]),
     (yvp2BKHOA, [.clear .yvpBkhoAPoc2 0]),
     (yvp3BKHOA, [.clear .yvpBkhoAPoc3 0])]

def Counters.clearOUTSERVO (c : Counters) : List Store :=
  switch c.currentDeviceInOUTSERVO
    [(outServo_1, [.clear .outServo1 0]),
     (outServo_2, [.clear .outServo2 0]),
     (outServo_3, [.clear .outServo3 0]),
     (outServo_4, [.clear .outServo4 0]),
     (outServo_5, [.clear .outServo5 0]),
     (outServo_6, [.clear .outServo6 0]),
     (outServo_7, [.clear .outServo7 0]),
     (outServo_8, [.clear .outServo8 0])]

def State.putAddress (s : State) (adress : Nat) : State :=
  s.storeRows [.byte s.counters.currentBKD 0 (BitVec.ofNat 8 adress)]

def State.pollBKD (s : State) : State :=
  let c := s.counters
  (s.putAddress (c.currentDeviceInBKDx + c.currentBKD * deviceInBKD)).store c.clearBKD

def State.pollBKHOA (s : State) : State :=
  let c := s.counters.nextBKHOA
  (State.putAddress { s with counters := c } c.currentDeviceInBKHOA).store c.clearBKHOA

def State.pollOUTSERVO (s : State) : State :=
  let c := s.counters.nextOUTSERVO
  (State.putAddress { s with counters := c } c.currentDeviceInOUTSERVO).store c.clearOUTSERVO

/-- The poll tick, up to the start of the transmission of `message_from_BKD[current_BKD]`. -/
def qwertyAllDevice (s : State) : State :=
  let s := { s with counters := s.counters.nextSlot }
  let s :=
    if s.counters.currentBKD < inTotalBKD then s.pollBKD
    else if s.counters.currentBKD = inTotalBKD then s.pollBKHOA
    else s.pollOUTSERVO
  s.storeRows [.crc s.counters.currentBKD (usartBufferTxSizeYLS - 1)]

/-! ### Check_message_BKD -/

section Handlers
variable (c : Counters) (message : Memory) (size : Nat)

/-- `(((uint16_t)message[i])<<8)|message[i+1]` -/
def word (i : Nat) : BitVec 16 := (message i).setWidth 16 <<< 8 ||| (message (i + 1)).setWidth 16

def ykpReply (f : HealthField) (p : Nat) : List Store :=
  if size = usartBufferTxSizeYKP then
    [.set f c.currentBKD, .half ⟨.ykpAngle, [c.currentBKD, p, 0]⟩ (word message 0),
      .half ⟨.ykpAngle, [c.currentBKD, p, 1]⟩ (word message 2)]
  else []

def yazReply (f : HealthField) (p : Nat) : List Store :=
  if size = usartBufferTxSizeYAZ then
    .set f c.currentBKD :: (List.range 24).map fun i => .byte ⟨.yazData, [c.currentBKD, p, i]⟩ (message i)
  else []

def ypsReply (f : HealthField) (p : Nat) : List Store :=
  if size = usartBufferTxSizeYPS then
    [.set f c.currentBKD, .byte ⟨.ypsMask, [c.currentBKD, p]⟩ (message 0)]
  else []

def ylk96Reply (f : HealthField) (p : Nat) : List Store :=
  if size = usartBufferTxSizeYLK96 then
    .set f c.currentBKD :: (List.range 24).map fun i => .byte ⟨.ylk96Data, [c.currentBKD, p, i]⟩ (message i)
  else []

def checkMessageBKD : List Store :=
  switch c.currentDeviceInBKDx
    [(ykp1BKD, ykpReply c message size .ykpPoc1 0),
     (ykp2BKD, ykpReply c message size .ykpPoc2 1),
     (ykp3BKD, ykpReply c message size .ykpPoc3 2),
     (yaz1BKD, yazReply c message size .yazPoc1 0),
     (yaz2BKD, yazReply c message size .yazPoc2 1),
     (yaz3BKD, yazReply c message size .yazPoc3 2),
     (yps1BKD, ypsReply c message size .ypsPoc1 0),
     (yps2BKD, ypsReply c message size .ypsPoc2 1),
     (yps3BKD, ypsReply c message size .ypsPoc3 2),
     (ylk96_1BKD, ylk96Reply c message size .ylk96Poc1 0),
     (ylk96_2BKD, ylk96Reply c message size .ylk96Poc2 1),
     (ylk96_3BKD, ylk96Reply c message size .ylk96Poc3 2)]

/-! ### Check_message_BKHO_A -/

def ypsBKHOAReply (f : HealthField) (p : Nat) : List Store :=
  if size = usartBufferTxSizeYPS then [.set f 0, .byte ⟨.ypsMaskBKHOA, [p]⟩ (message 0)] else []

/-- A device of which only the health bit is kept. -/
def pocReply (f : HealthField) (txSize : Nat) : List Store := if size = txSize then [.set f 0] else []

def checkMessageBKHOA : List Store :=
  switch c.currentDeviceInBKHOA
    [(yps1BKHOA, ypsBKHOAReply message size .ypsBkhoAPoc1 0),
     (yps2BKHOA, ypsBKHOAReply message size .ypsBkhoAPoc2 1),
     (yps3BKHOA, ypsBKHOAReply message size .ypsBkhoAPoc3 2),
     (ytp1_1BKHOA, pocReply size .ytp1BkhoAPoc1 usartBufferTxSizeYTP),
     (ytp1_2BKHOA, pocReply size .ytp1BkhoAPoc2 usartBufferTxSizeYTP),
     (ytp1_3BKHOA, pocReply size .ytp1BkhoAPoc3 usartBufferTxSizeYTP),
     (ytp2_1BKHOA, pocReply size .ytp2BkhoAPoc1 usartBufferTxSizeYTP),
     (ytp2_2BKHOA, pocReply size .ytp2BkhoAPoc2 usartBufferTxSizeYTP),
     (ytp2_3BKHOA, pocReply size .ytp2BkhoAPoc3 usartBufferTxSizeYTP),
     (ytm1_1BKHOA, pocReply size .ytm1BkhoAPoc1 usartBufferTxSizeYTM),
     (ytm1_2BKHOA, pocReply size .ytm1BkhoAPoc2 usartBufferTxSizeYTM),
     (ytm1_3BKHOA, pocReply size .ytm1BkhoAPoc3 usartBufferTxSizeYTM),
     (ytm2_1BKHOA, pocReply size .ytm2BkhoAPoc1 usartBufferTxSizeYTM),
     (ytm2_2BKHOA, pocReply size .ytm2BkhoAPoc2 usartBufferTxSizeYTM),
     (ytm2_3BKHOA, pocReply size .ytm2BkhoAPoc3 usartBufferTxSizeYTM),
     (ygr1BKHOA, pocReply size .ygrBkhoAPoc1 usartBufferTxSizeYGR),
     (ygr2BKHOA, pocReply size .ygrBkhoAPoc2 usartBufferTxSizeYGR),
     (ygr3BKHOA, pocReply size .ygrBkhoAPoc3 usartBufferTxSizeYGR),
     (ylk32_3_1BKHOA, pocReply size .ylk32_3BkhoAPoc1 usartBufferTxSizeYLK32_3),
     (ylk32_3_2BKHOA, pocReply size .ylk32_3BkhoAPoc2 usartBufferTxSizeYLK32_3),
     (ylk32_3_3BKHOA, pocReply size .ylk32_3BkhoAPoc3 usartBufferTxSizeYLK32_3),
     (yvp1BKHOA, pocReply size .yvpBkhoAPoc1 usartBufferTxSizeYVP),
     (yvp2BKHOA, pocReply size .yvpBkhoAPoc2 usartBufferTxSizeYVP),
     (yvp3BKHOA, pocReply size .yvpBkhoAPoc3 usartBufferTxSizeYVP)]

/-! ### Check_message_OUT_SERVO -/

def checkMessageOUTSERVO : List Store :=
  switch c.currentDeviceInOUTSERVO
    [(outServo_1, [.set .outServo1 0]),
     (outServo_2, [.set .outServo2 0]),
     (outServo_3, [.set .outServo3 0]),
     (outServo_4, [.set .outServo4 0]),
     (outServo_5, [.set .outServo5 0]),
     (outServo_6, [.set .outServo6 0]),
     (outServo_7, [.set .outServo7 0]),
     (outServo_8, [.set .outServo8 0])]

/-! ### Check_message_UART -/

inductive Handler where
  | checkMessageBKD | checkMessageBKHOA | checkMessageOUTSERVO
  deriving DecidableEq

/-- The test on the slot. -/
def handler : Handler :=
  if c.currentBKD ≠ inTotalBKD then .checkMessageBKD
  else if c.currentBKD = inTotalBKD then .checkMessageBKHOA
  else .checkMessageOUTSERVO

def Handler.stores : Handler → List Store
  | .checkMessageBKD => YlsFirmware.checkMessageBKD c message size
  | .checkMessageBKHOA => YlsFirmware.checkMessageBKHOA c message size
  | .checkMessageOUTSERVO => YlsFirmware.checkMessageOUTSERVO c

/-- The frame is longer than its checksum and ends in it. -/
def Accepts : Prop := 1 < size ∧ message (size - 1) = crc8 message (size - 1)

instance : Decidable (Accepts message size) := inferInstanceAs (Decidable (_ ∧ _))

/-- The handler that is called with the frame, if one is. -/
def handedTo : Option Handler := if Accepts message size then some (handler c) else none

def replyStores : List Store := ((handedTo c message size).map (Handler.stores c message size)).getD []

end Handlers

def checkMessageUART (s : State) (message : Memory) (size : Nat) : State :=
  s.store (replyStores s.counters message size)

end YlsFirmware
