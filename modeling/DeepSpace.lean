import DeepSpace.Memory
import DeepSpace.ShiftRegister
import DeepSpace.Crc
import DeepSpace.TransmissionProtocol
import DeepSpace.FrameLayout
import DeepSpace.RoundTrip
import DeepSpace.ErrorDetection
import DeepSpace.FrameDistance
import DeepSpace.Framing
import DeepSpace.ArithmeticCoding
import DeepSpace.Master
import DeepSpace.MasterLoop
import DeepSpace.WholeFrames
import DeepSpace.Numbering
import DeepSpace.Renormalisation
import DeepSpace.Update
import DeepSpace.CoderInvariant
import DeepSpace.Decodability
import DeepSpace.ReferenceCoder
import DeepSpace.BitInput
import DeepSpace.Port
import DeepSpace.CrossDecoding
import DeepSpace.BitFile
import DeepSpace.AdaptiveCoding
import DeepSpace.Decoding
import DeepSpace.CodeLength
import DeepSpace.Coding
import DeepSpace.AxiTangxi
import DeepSpace.Loopback
import DeepSpace.LoopbackMemory
import DeepSpace.DriverLoad
import DeepSpace.Completion
import DeepSpace.Interleaving
import DeepSpace.WireFormat
import DeepSpace.StaleMemory
import DeepSpace.Retirement
import DeepSpace.Containment
import DeepSpace.Mapping
import DeepSpace.Fragmentation
import DeepSpace.Recovery
import DeepSpace.FrameBoundary
import DeepSpace.Slave
import DeepSpace.SlaveLoop
import DeepSpace.Duplex
import DeepSpace.Session
import DeepSpace.Acceptance
import DeepSpace.Checksum
import DeepSpace.BurstSchedule
import DeepSpace.Accelerator
import DeepSpace.WhileLoop
import DeepSpace.Termination
import DeepSpace.Drift
import DeepSpace.Rejection
import DeepSpace.Events
import DeepSpace.SerialLine
import DeepSpace.Uart
import DeepSpace.Slot
import DeepSpace.Link
import DeepSpace.Receiver
import DeepSpace.BitRate
import DeepSpace.ImageTable
import DeepSpace.Parse
import DeepSpace.NocPacket
import DeepSpace.Packing
import DeepSpace.FrequencyTable
import DeepSpace.TableObject
