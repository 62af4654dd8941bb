import DeepSpace.Crc

/-!
# `transmission_protocol.c`

The frames of the serial link, their byte format and the two directions of the
link.  The bodies follow the source; offsets are those the running pointer
`p_bit_stream` reaches.  What `malloc` hands out is a parameter of every
function that calls it.
-/

namespace DeepSpace.TransmissionProtocol

open DeepSpace.Memory DeepSpace.Crc

/-! ## Frames -/

def tpHeader : List UInt8 := [0xEB, 0x90, 0xEB, 0x90]

theorem tpHeader_length : tpHeader.length = 4 := rfl

def TP_ADDRESS_MASTER : UInt16 := 0
def TP_ADDRESS_SLAVE : UInt16 := 1

def TP_FRAME_TYPE_CONTROL : UInt16 := 1
def TP_FRAME_TYPE_REQUEST_DATA : UInt16 := 3
def TP_FRAME_TYPE_TRANSPORT_DATA : UInt16 := 5

def TP_FRAME_SIZE_CONTROL : Nat := 16
def TP_FRAME_SIZE_REQUEST_DATA : Nat := 16
def TP_FRAME_SIZE_TRANSPORT_DATA : Nat := 530
def TP_FRAME_SIZE_CMD_TYPE : Nat := 8

def TP_FRAME_DATA_LEN_MAX : Nat := 512

/-- `frame_t`.  The anonymous union of `n_file` and `cmd_id` is one 32-bit word. -/
structure Frame where
  header : List UInt8
  address : UInt16
  frameType : UInt16
  nFile : UInt32
  nFrame : UInt16
  dataLen : UInt16
  data : List UInt8
  checkSum : UInt16
  header_length : header.length = 4
  data_length : data.length = TP_FRAME_DATA_LEN_MAX
  deriving DecidableEq, Repr

def Frame.cmdId (f : Frame) : UInt32 := f.nFile

/-- `memcpy (p_frame->data, src, n)`. -/
def Frame.copyData (f : Frame) (src : List UInt8) : C Frame :=
  match h : memcpy f.data 0 src with
  | .ok data => .ok { f with data, data_length := (memcpy_length h).trans f.data_length }
  | .error e => .error e

/-- A request frame as in the unit test. -/
def sampleRequest : Frame where
  header := tpHeader
  address := TP_ADDRESS_SLAVE
  frameType := TP_FRAME_TYPE_REQUEST_DATA
  nFile := 1
  nFrame := 42
  dataLen := 0
  data := List.replicate 512 0
  checkSum := 0
  header_length := tpHeader_length
  data_length := List.length_replicate

/-! ## Encoder -/

/-- Lays the fields out in `bitStream`; returns the buffer and the bytes used.
The local `size` of the source is set by a `switch` and never read. -/
def frameWithoutCheckSum2bitStream (frame : Frame) (bitStream : List UInt8) :
    C (List UInt8 × Nat) := do
  let bs ← memcpy bitStream 0 frame.header
  let bs ← memcpy bs 4 (leBytes 2 frame.address.toNat)
  let bs ← memcpy bs 6 (leBytes 2 frame.frameType.toNat)
  let bs ←
    if frame.frameType = TP_FRAME_TYPE_CONTROL then memcpy bs 8 (leBytes 4 frame.cmdId.toNat)
    else memcpy bs 8 (leBytes 4 frame.nFile.toNat)
  let bs ← memcpy bs 12 (leBytes 2 frame.nFrame.toNat)
  if frame.frameType = TP_FRAME_TYPE_TRANSPORT_DATA then
    let bs ← memcpy bs 14 (leBytes 2 frame.dataLen.toNat)
    let data ← load frame.data 0 frame.dataLen.toNat
    let bs ← memcpy bs 16 data
    return (bs, 16 + TP_FRAME_DATA_LEN_MAX)
  else return (bs, 14)

def frame2bitStream (frame : Frame) (bitStream : List UInt8) : C (List UInt8 × Nat) := do
  let (bs, size) ← frameWithoutCheckSum2bitStream frame bitStream
  let checkSum ← crc16 bs (UInt16.ofNat size)
  let bs ← memcpy bs size (leBytes 2 checkSum.toNat)
  return (bs, size + 2)

/-! ## Decoder -/

/-- What the two calls of `malloc` in `bit_stream2frame` hand out: a frame with
stale fields, and stale bytes or `NULL`. -/
structure Heap where
  frame : Frame
  temp : Option (Nat → UInt8)

/-- The `switch` of the decoder: the frame with the fields of its type, and the
offset after them; `none` for an unknown type.  `TRANSPORT_DATA` falls through
to `REQUEST_DATA` after its data. -/
def decodeBody (bitStream : List UInt8) (frame : Frame) : C (Option (Frame × Nat)) := do
  if frame.frameType = TP_FRAME_TYPE_CONTROL then
    let cmdId ← loadLE bitStream 8 4
    return some ({ frame with nFile := UInt32.ofNat cmdId }, 12)
  else if frame.frameType = TP_FRAME_TYPE_TRANSPORT_DATA then
    let dataLen ← loadLE bitStream 8 2
    let data ← load bitStream 10 (UInt16.ofNat dataLen).toNat
    let frame ← { frame with dataLen := UInt16.ofNat dataLen }.copyData data
    let p := 10 + TP_FRAME_DATA_LEN_MAX
    let nFile ← loadLE bitStream p 4
    return some ({ frame with nFile := UInt32.ofNat nFile }, p + 4)
  else if frame.frameType = TP_FRAME_TYPE_REQUEST_DATA then
    let nFile ← loadLE bitStream 8 4
    return some ({ frame with nFile := UInt32.ofNat nFile }, 12)
  else return none

/-- The decoder after its `switch`: the last two fields, then the checksum of the
re-encoded frame in the scratch block `temp`. -/
def decodeTail (bitStream : List UInt8) (heap : Heap) (frame : Frame) (p : Nat) :
    C (Option Frame) := do
  let nFrame ← loadLE bitStream p 2
  let checkSum ← loadLE bitStream (p + 2) 2
  let frame := { frame with
    nFrame := UInt16.ofNat nFrame, checkSum := UInt16.ofNat checkSum }
  match heap.temp with
  | none => return none
  | some stale =>
    let (temp, size) ← frameWithoutCheckSum2bitStream frame (malloc (p + 2) stale)
    let checkSum ← crc16 temp (UInt16.ofNat size)
    if frame.checkSum ≠ checkSum then return none else return some frame

/-- `none` is the `NULL` result. -/
def bitStream2frame (bitStream : List UInt8) (heap : Heap) : C (Option Frame) := do
  let header ← load bitStream 0 4
  if header ≠ tpHeader then return none
  let address ← loadLE bitStream 4 2
  let frameType ← loadLE bitStream 6 2
  let pFrame := { heap.frame with
    header := tpHeader, header_length := tpHeader_length
    address := UInt16.ofNat address, frameType := UInt16.ofNat frameType }
  match ← decodeBody bitStream pFrame with
  | none => return none
  | some (pFrame, p) => decodeTail bitStream heap pFrame p

/-! ## The line -/

/-- A file descriptor: what `read` and `write` return (`none` is -1) and leave. -/
structure Fd (σ : Type) where
  read : σ → Nat → Option (List UInt8) × σ
  write : σ → List UInt8 → Option Nat × σ

variable {σ : Type}

/-- The `ssize_t` that `read` returns. -/
def ssize : Option Nat → Int
  | some n => n
  | none => -1

def sendSize (frameType : UInt16) : C Nat :=
  if frameType = TP_FRAME_TYPE_REQUEST_DATA then .ok TP_FRAME_SIZE_REQUEST_DATA
  else if frameType = TP_FRAME_TYPE_TRANSPORT_DATA then .ok TP_FRAME_SIZE_TRANSPORT_DATA
  else if frameType = TP_FRAME_TYPE_CONTROL then .ok TP_FRAME_SIZE_CONTROL
  else .error .uninitialised

/-- `stale` is the block that `malloc` returns for the encoded frame. -/
def sendFrame (fd : Fd σ) (stale : Nat → UInt8) (s : σ) (frame : Frame) : C Int × σ :=
  match (do
    let size ← sendSize frame.frameType
    let (bs, n) ← frame2bitStream frame (malloc size stale)
    return (bs, n, size)) with
  | .error e => (.error e, s)
  | .ok (bs, n, size) =>
    if n ≠ size then (.ok (-1), s)
    else
      let (r, s) := fd.write s (bs.take size)
      (.ok (ssize r), s)

/-- No case of the receiver's `switch` ends in a `break`: each known type falls
through to the last one. -/
def receiveSize (frameType : UInt16) : C Nat :=
  if frameType = TP_FRAME_TYPE_CONTROL ∨ frameType = TP_FRAME_TYPE_REQUEST_DATA ∨
      frameType = TP_FRAME_TYPE_TRANSPORT_DATA then .ok TP_FRAME_SIZE_TRANSPORT_DATA
  else .error .uninitialised

/-- Returns the result, `*p_frame` and what is left of the line.  A fault keeps
the line as the two reads left it.  `stale` is the block `malloc (size)`. -/
def receiveFrame (fd : Fd σ) (stale : Nat → UInt8) (heap : Heap) (s : σ) (pFrame : Frame) :
    C (Int × Frame) × σ :=
  let (temp, s) := fd.read s TP_FRAME_SIZE_CMD_TYPE
  let n := ssize (temp.map List.length)
  if n < TP_FRAME_SIZE_CMD_TYPE then (.ok (-1, pFrame), s)
  else
    let temp := temp.getD []
    match (do
      let frameType ← loadLE temp 6 2
      receiveSize (UInt16.ofNat frameType)) with
    | .error e => (.error e, s)
    | .ok size =>
      let (rest, s) := fd.read s (size - TP_FRAME_SIZE_CMD_TYPE)
      let n := n + ssize (rest.map List.length)
      let result := do
        let buffer ← memcpy (malloc size stale) 0 temp
        let buffer ← memcpy buffer TP_FRAME_SIZE_CMD_TYPE (rest.getD [])
        if n < TP_FRAME_SIZE_CMD_TYPE then return (-1, pFrame)
        match ← bitStream2frame buffer heap with
        -- `memcpy (p_frame, NULL, sizeof (*p_frame))`
        | none => .error .nullDereference
        | some frame => return (n, frame)
      (result, s)

end DeepSpace.TransmissionProtocol
