import LibEthercat.Lib.Loop
import LibEthercat.Lib.Windows
import LibEthercat.Lib.NextFit
import LibEthercat.Lib.Records
import LibEthercat.Mapping.Model
import LibEthercat.Mapping.Slave
import LibEthercat.Mapping.Overlapping
import LibEthercat.Mapping.Separate
import LibEthercat.Mapping.Groups
import LibEthercat.Mapping.Remap
import LibEthercat.Mapping.WorkingCounter
import LibEthercat.Mapping.Bounds
import LibEthercat.ProcessData
import LibEthercat.Mapping.MbxState
import LibEthercat.Mapping.Image
import LibEthercat.Datagram
import LibEthercat.Hw.Rx
import LibEthercat.Hw.Tx
import LibEthercat.Hw.RoundTrip
import LibEthercat.Lib.Runs
import LibEthercat.Pool
import LibEthercat.Lib.Ring
import LibEthercat.Coe.Message
import LibEthercat.Coe.Emergency
import LibEthercat.Coe.SdoRead
import LibEthercat.Coe.Sdo
import LibEthercat.Lib.Places
import LibEthercat.Lib.Handoff
import LibEthercat.Lib.Threads
import LibEthercat.Mbx.Programs
import LibEthercat.Mbx.Buffers
import LibEthercat.Mbx.Setup
import LibEthercat.Mbx.Conservation
import LibEthercat.Mbx.Handler
import LibEthercat.Mbx.Enqueue
import LibEthercat.Bus.Model
import LibEthercat.Lib.Custody
import LibEthercat.Bus.Ownership
import LibEthercat.Bus.Steps
import LibEthercat.Bus.Queues
import LibEthercat.Bus.Receiver
import LibEthercat.Bus.Invariant
import LibEthercat.Bus.IdxPlaces
import LibEthercat.Bus.CleanUp
import LibEthercat.Bus.QueuedOnce
import LibEthercat.Bus.IndexMatch
import LibEthercat.Bus.Transceive
import LibEthercat.Lib.Forest
import LibEthercat.Topology
import LibEthercat.Lib.Chunks
import LibEthercat.Foe.Model
import LibEthercat.Foe.Transfer
import LibEthercat.Foe.Integrity
import LibEthercat.CoeMaster.Model
import LibEthercat.CoeMaster.Confined
import LibEthercat.Gateway.Model
import LibEthercat.Gateway.Bounds
import LibEthercat.Gateway.Answers
import LibEthercat.Lib.Folds
import LibEthercat.Sii.Model
import LibEthercat.Sii.Published
import LibEthercat.Sii.Bounds
import LibEthercat.Sii.Counts
import LibEthercat.FrameBuild
import LibEthercat.Coe.Download
import LibEthercat.Coe.Segments
import LibEthercat.Coe.ObjectList
import LibEthercat.Coe.Info
import LibEthercat.Async.Messages
import LibEthercat.Lib.Walk
import LibEthercat.Slave.State
import LibEthercat.Slave.Requests
import LibEthercat.Async.Recovery
import LibEthercat.Lib.Lifecycle
import LibEthercat.Lib.ThreadViews
import LibEthercat.Lib.Teardown
import LibEthercat.Lib.HeldKey
import LibEthercat.Slave.Locks
import LibEthercat.Coe.EmergencyStatus
import LibEthercat.Hw.TxBuffers
import LibEthercat.Lib.While
import LibEthercat.Resend
import LibEthercat.CoeMapping.Model
import LibEthercat.CoeMapping.Lengths
import LibEthercat.CoeMapping.Reads
import LibEthercat.CoeMapping.Areas
import LibEthercat.Soe.Model
import LibEthercat.Soe.Read
import LibEthercat.Soe.ReadLength
import LibEthercat.Soe.Write
import LibEthercat.Soe.WriteResult
import LibEthercat.Foe.Fit
import LibEthercat.Lib.Traced
import LibEthercat.Soe.Mapping
import LibEthercat.Mbx.Counters
import LibEthercat.Mbx.Numbers
import LibEthercat.Eoe.Send
import LibEthercat.Eoe.Receive
import LibEthercat.Sii.Fmmus
import LibEthercat.Lib.Refill
import LibEthercat.Sii.Image
import LibEthercat.Sii.Pdos
import LibEthercat.Sii.PdoMapping
import LibEthercat.Sii.Kept
import LibEthercat.Lib.Layout
import LibEthercat.Sii.Decode
import LibEthercat.Dc.Diff
import LibEthercat.Dc.Time
import LibEthercat.Dc.Config
import LibEthercat.Dc.Entry
import LibEthercat.Lib.Links
import LibEthercat.Dc.Chain
import LibEthercat.Dc.Ports
import LibEthercat.Lib.Prog
import LibEthercat.Eeprom.Model
import LibEthercat.Eeprom.Steps
import LibEthercat.Eeprom.HandBack
import LibEthercat.Eeprom.Busy
import LibEthercat.Eeprom.Clear
import LibEthercat.Eeprom.WriteEnds
import LibEthercat.Eeprom.Device
import LibEthercat.Eeprom.RoundTrip
import LibEthercat.Sii.Walk
import LibEthercat.CoeMaster.Complete
import LibEthercat.CoeMaster.ObjectList
import LibEthercat.CoeMaster.Write
import LibEthercat.CoeMaster.Entries
import LibEthercat.CoeMaster.Contract
import LibEthercat.CoeMaster.Descriptions
import LibEthercat.Slave.Reached
import LibEthercat.Dc.Sync
import LibEthercat.Dc.Divisions
import LibEthercat.Dc.Delay
import LibEthercat.Eoe.Tunnel
import LibEthercat.Lib.StoreLog
import LibEthercat.Soe.Store
import LibEthercat.Dc.CycleTime
import LibEthercat.Lib.Register
import LibEthercat.Lib.Throttle
import LibEthercat.Async.CheckGroups
import LibEthercat.Scan
import LibEthercat.Lib.OnesComplement
import LibEthercat.Veth.Checksum
import LibEthercat.Schedule
import LibEthercat.Mii
import LibEthercat.Mbx.Transfers
import LibEthercat.Gateway.Decode
import LibEthercat.Veth.Model
import LibEthercat.Veth.Replies
import LibEthercat.Lib.BitField
import LibEthercat.Lib.BitOverlay
import LibEthercat.Lib.Carrier
import LibEthercat.Mapping.Fmmu
import LibEthercat.Mapping.Wired
import LibEthercat.Mapping.Round
import LibEthercat.Mapping.Exchange
import LibEthercat.Mapping.AllGroups
import LibEthercat.Mapping.Plant
import LibEthercat.Slave.Device
import LibEthercat.Async.Healing
import LibEthercat.Master.SetState
import LibEthercat.Master.World
import LibEthercat.Master.Agreement
