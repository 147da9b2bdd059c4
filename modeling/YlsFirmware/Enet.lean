import YlsFirmware.Ethernet
import YlsFirmware.Lib.Ring
import YlsFirmware.Lib.Run

/-! # gd32f4xx_enet.c, ethernetif.c

The descriptors that the main loop and the DMA of the Ethernet MAC hand to each other. A descriptor belongs to the
DMA while its bit DAV is set. The main loop polls the receive descriptors and copies a frame to a chain of pbufs; a
frame to send is copied from its chain to the buffer of a transmit descriptor. -/

namespace YlsFirmware
open Packed

/-- `ENET_RXBUF_NUM`, `ENET_TXBUF_NUM` -/
def enetBufNum : Nat := 5

/-- `ENET_MAX_FRAME_SIZE`, the size of a buffer -/
def enetMaxFrameSize : Nat := 1524

/-- `enet_descriptors_struct`, with the offset of its buffer in `rx_buff` or `tx_buff` and the index of the next
    descriptor in its table -/
structure Desc where
  status : BitVec 32
  controlBufferSize : BitVec 32
  buffer1Addr : Nat
  buffer2NextDescAddr : Nat

/-- `BIT(x)` -/
def bit32 (x : Nat) : BitVec 32 := 1#32 <<< x

def rdes0Pcerr : Nat := 0
def rdes0Frmt : Nat := 5
def rdes0Ldes : Nat := 8
def rdes0Fdes : Nat := 9
def rdes0Errs : Nat := 15
def rdes0Dav : Nat := 31
def rdes1Rchm : Nat := 14
def rdes1Rerm : Nat := 15

def tdes0Tchm : Nat := 20
def tdes0Term : Nat := 21
def tdes0Fsg : Nat := 28
def tdes0Lsg : Nat := 29
def tdes0Dav : Nat := 31

/-- `GET_RDES0_FRML` -/
def getRdes0Frml (status : BitVec 32) : BitVec 32 := (status &&& 0x3FFF0000#32) >>> 16

/-- Descriptor `num` after `enet_descriptors_chain_init` -/
def chainDesc (descStatus descBufsize : BitVec 32) (num : Nat) : Desc where
  status := descStatus
  controlBufferSize := descBufsize
  buffer1Addr := num * enetMaxFrameSize
  buffer2NextDescAddr := if num < enetBufNum - 1 then num + 1 else 0

/-! ### Reception -/

structure RxRing where
  rxdescTab : Nat → Desc
  rxBuff : Memory
  dmaCurrentRxdesc : Nat

/-- `enet_descriptors_chain_init(ENET_DMA_RX)` -/
def RxRing.chainInit : RxRing where
  rxdescTab := chainDesc (bit32 rdes0Dav) (bit32 rdes1Rchm ||| 1524#32)
  rxBuff := fun _ => 0
  dmaCurrentRxdesc := 0

def RxRing.current (r : RxRing) : Desc := r.rxdescTab r.dmaCurrentRxdesc

/-- Hands the current descriptor to the DMA and goes on to the next one. -/
def RxRing.release (r : RxRing) : RxRing :=
  let d := r.current
  { r with
    rxdescTab := Function.update r.rxdescTab r.dmaCurrentRxdesc { d with status := bit32 rdes0Dav }
    dmaCurrentRxdesc :=
      if d.controlBufferSize.getLsbD rdes1Rchm then d.buffer2NextDescAddr
      else if d.controlBufferSize.getLsbD rdes1Rerm then 0
      else r.dmaCurrentRxdesc + 1 }

def enetRxframeDrop (r : RxRing) : RxRing := r.release

/-- `tfcd` is the bit of ENET_MAC_CFG that has the MAC drop the CRC of type frames. -/
def enetRxframeSizeGet (tfcd : Bool) (r : RxRing) : BitVec 32 × RxRing :=
  let status := r.current.status
  if status.getLsbD rdes0Dav then (0, r)
  else if status.getLsbD rdes0Errs || !status.getLsbD rdes0Ldes || !status.getLsbD rdes0Fdes then
    (1, enetRxframeDrop r)
  else if status.getLsbD rdes0Frmt && status.getLsbD rdes0Pcerr then (1, enetRxframeDrop r)
  else
    let size := getRdes0Frml status - 4
    (if tfcd && status.getLsbD rdes0Frmt then size + 4 else size, r)

/-- `enet_desc_information_get(desc, RXDESC_FRAME_LENGTH)` -/
def rxdescFrameLength (tfcd : Bool) (status : BitVec 32) : BitVec 32 :=
  let reval := getRdes0Frml status
  if 4 < reval then
    if tfcd && status.getLsbD rdes0Frmt then reval - 4 + 4 else reval - 4
  else 0

/-- `ENET_NOCOPY_FRAME_RECEIVE()` -/
def enetFrameReceive (r : RxRing) : RxRing := if r.current.status.getLsbD rdes0Dav then r else r.release

/-- `PBUF_POOL_BUFSIZE` -/
def pbufPoolBufsize : Nat := 1500

/-- The lengths of the pbufs behind the first one that `pbuf_alloc` takes from the pool for `rem_len` bytes. -/
def poolRest (remLen : Nat) : List Nat :=
  if remLen = 0 then [] else min remLen pbufPoolBufsize :: poolRest (remLen - min remLen pbufPoolBufsize)
termination_by remLen
decreasing_by
  have hpos : 0 < pbufPoolBufsize := by decide
  omega

/-- The lengths of the chain that `pbuf_alloc(PBUF_RAW, length, PBUF_POOL)` returns. -/
def poolLens (length : Nat) : List Nat :=
  let qlen := min length pbufPoolBufsize
  qlen :: poolRest (length - qlen)

/-- Where the main loop is: before `enet_rxframe_size_get`, in `low_level_input` before the length is read, before
    `pbuf_alloc`, in the loop that fills the chain, and behind it. -/
inductive RxPc where
  | idle
  | input
  | alloc (len buffer : Nat)
  | copy (done : List Segment) (src : Nat) (lens : List Nat)
  | receive (p : List Segment)

structure Rx where
  ring : RxRing
  pc : RxPc
  /-- the descriptor that the DMA fills, and what it has stored to its buffer -/
  crdaddr : Nat
  stored : List Byte
  /-- the chains that `netif->input` has been called with -/
  inputs : List (List Segment)

def Rx.init : Rx := ⟨.chainInit, .idle, 0, [], []⟩

inductive RxEvent where
  /-- the main loop polls -/
  | sizeGet
  /-- `low_level_input` reads the length and the buffer of the descriptor -/
  | length
  | alloc (ok : Bool)
  /-- the next pbuf of the chain is filled -/
  | copy
  /-- the descriptor is given back, and the chain handed to lwIP -/
  | receive
  /-- the DMA stores a byte of a frame -/
  | store (b : Byte)
  /-- it is done with the descriptor -/
  | close (status : BitVec 32)
deriving DecidableEq

/-- A pass of the loop goes on to `lwip_frame_recv` for more than `least`: 0 in `main`, 1 in `ENET_IRQHandler`. -/
def rxStep (tfcd : Bool) (least : Nat) (x : Rx) : RxEvent → Option Rx
  | .sizeGet =>
    match x.pc with
    | .idle =>
      let (reval, ring) := enetRxframeSizeGet tfcd x.ring
      some { x with ring := ring, pc := if least < reval.toNat then .input else .idle }
    | _ => none
  | .length =>
    match x.pc with
    | .input =>
      let d := x.ring.current
      some { x with pc := .alloc ((rxdescFrameLength tfcd d.status).toNat % 2 ^ 16) d.buffer1Addr }
    | _ => none
  | .alloc ok =>
    match x.pc with
    | .alloc len buffer => some { x with pc := if ok then .copy [] buffer (poolLens len) else .receive [] }
    | _ => none
  | .copy =>
    match x.pc with
    | .copy done src (len :: lens) =>
      some { x with pc := .copy (done ++ [⟨ofBytes (read x.ring.rxBuff src len), len⟩]) (src + len) lens }
    | .copy done _ [] => some { x with pc := .receive done }
    | _ => none
  | .receive =>
    match x.pc with
    | .receive p =>
      some { x with
        ring := enetFrameReceive x.ring
        pc := .idle
        inputs := if p.isEmpty then x.inputs else x.inputs ++ [p] }
    | _ => none
  | .store b =>
    let d := x.ring.rxdescTab x.crdaddr
    if d.status.getLsbD rdes0Dav && decide (x.stored.length < (d.controlBufferSize &&& 0x1FFF#32).toNat) then
      some { x with
        ring := { x.ring with rxBuff := write x.ring.rxBuff (d.buffer1Addr + x.stored.length) [b] }
        stored := x.stored ++ [b] }
    else none
  | .close status =>
    let d := x.ring.rxdescTab x.crdaddr
    if d.status.getLsbD rdes0Dav then
      some { x with
        ring := { x.ring with
          rxdescTab := Function.update x.ring.rxdescTab x.crdaddr { d with status := status &&& ~~~bit32 rdes0Dav } }
        crdaddr := d.buffer2NextDescAddr
        stored := [] }
    else none

/-! ### Transmission -/

structure TxRing where
  txdescTab : Nat → Desc
  txBuff : Memory
  dmaCurrentTxdesc : Nat

/-- `enet_descriptors_chain_init(ENET_DMA_TX)` -/
def TxRing.chainInit : TxRing where
  txdescTab := chainDesc (bit32 tdes0Tchm) 0
  txBuff := fun _ => 0
  dmaCurrentTxdesc := 0

def TxRing.current (r : TxRing) : Desc := r.txdescTab r.dmaCurrentTxdesc

/-- `ENET_NOCOPY_FRAME_TRANSMIT(length)` -/
def enetFrameTransmit (r : TxRing) (length : Nat) : TxRing :=
  let d := r.current
  if d.status.getLsbD tdes0Dav then r
  else if enetMaxFrameSize < length then r
  else
    let status := (d.status ||| bit32 tdes0Lsg ||| bit32 tdes0Fsg) ||| bit32 tdes0Dav
    { r with
      txdescTab := Function.update r.txdescTab r.dmaCurrentTxdesc
        { d with status := status, controlBufferSize := BitVec.ofNat 32 length }
      dmaCurrentTxdesc :=
        if status.getLsbD tdes0Tchm then d.buffer2NextDescAddr
        else if status.getLsbD tdes0Term then 0
        else r.dmaCurrentTxdesc + 1 }

/-- Where `low_level_output` is: not called, waiting for the current descriptor, or in its loop over the chain. -/
inductive TxPc where
  | idle
  | wait (p : List Segment)
  | copy (framelength : Nat) (rest : List Segment)

structure Tx where
  ring : TxRing
  pc : TxPc
  /-- the descriptor that the DMA sends, and the bytes it has read of its buffer -/
  ctdaddr : Nat
  fetched : List Byte
  /-- the frames on the wire -/
  wire : List (List Byte)

def Tx.init : Tx := ⟨.chainInit, .idle, 0, [], []⟩

inductive TxEvent where
  /-- `low_level_output` is called -/
  | output (p : List Segment)
  /-- it looks at the descriptor -/
  | look
  /-- it copies the next pbuf of the chain, or hands the frame to the DMA behind the last one -/
  | copy
  /-- the DMA reads a byte of the frame -/
  | fetch
  /-- it has read all of them and gives the descriptor back, with flags of its own -/
  | close (flags : BitVec 32)

/-- The status that the DMA writes back; it leaves the mode of the table alone. -/
def closeStatus (status flags : BitVec 32) : BitVec 32 :=
  (status &&& ~~~bit32 tdes0Dav) ||| (flags &&& ~~~(bit32 tdes0Dav ||| bit32 tdes0Tchm ||| bit32 tdes0Term))

def txStep (x : Tx) : TxEvent → Option Tx
  | .output p =>
    match x.pc with
    | .idle => some { x with pc := .wait p }
    | _ => none
  | .look =>
    match x.pc with
    | .wait p => some (if x.ring.current.status.getLsbD tdes0Dav then x else { x with pc := .copy 0 p })
    | _ => none
  | .copy =>
    match x.pc with
    | .copy framelength (q :: rest) =>
      some { x with
        ring := { x.ring with
          txBuff := write x.ring.txBuff (x.ring.current.buffer1Addr + framelength) (read q.payload 0 q.len) }
        pc := .copy (framelength + q.len) rest }
    | .copy framelength [] => some { x with ring := enetFrameTransmit x.ring framelength, pc := .idle }
    | _ => none
  | .fetch =>
    let d := x.ring.txdescTab x.ctdaddr
    if d.status.getLsbD tdes0Dav && decide (x.fetched.length < (d.controlBufferSize &&& 0x1FFF#32).toNat) then
      some { x with fetched := x.fetched ++ [x.ring.txBuff (d.buffer1Addr + x.fetched.length)] }
    else none
  | .close flags =>
    let d := x.ring.txdescTab x.ctdaddr
    if d.status.getLsbD tdes0Dav && decide (x.fetched.length = (d.controlBufferSize &&& 0x1FFF#32).toNat) then
      some { x with
        ring := { x.ring with
          txdescTab := Function.update x.ring.txdescTab x.ctdaddr { d with status := closeStatus d.status flags } }
        ctdaddr := d.buffer2NextDescAddr
        fetched := []
        wire := x.wire ++ [x.fetched] }
    else none

end YlsFirmware
