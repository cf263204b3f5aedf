import T4P4S.ActionParams
import T4P4S.Arith
import T4P4S.AsyncDrain
import T4P4S.AsyncResume
import T4P4S.Broadcast
import T4P4S.CellOwners
import T4P4S.Checksums
import T4P4S.Connection
import T4P4S.ConstText
import T4P4S.ControlCallback
import T4P4S.ControlCode
import T4P4S.ControlPlane
import T4P4S.DecoderBounds
import T4P4S.DesugarText
import T4P4S.DigestReads
import T4P4S.Digests
import T4P4S.DirectCounters
import T4P4S.DoAssignment
import T4P4S.FakePackets
import T4P4S.FieldAssign
import T4P4S.FieldWrites
import T4P4S.Fifo
import T4P4S.Flush
import T4P4S.Hashes
import T4P4S.HeaderCopy
import T4P4S.HeaderStacks
import T4P4S.Installed
import T4P4S.Ipsec
import T4P4S.Isolation
import T4P4S.Learning
import T4P4S.Lib.Channel
import T4P4S.Link
import T4P4S.ListBuffer
import T4P4S.Locals
import T4P4S.LpmDepth
import T4P4S.MemCells
import T4P4S.MessageRoom
import T4P4S.Metadata
import T4P4S.Options
import T4P4S.ParseArgs
import T4P4S.ParserPaths
import T4P4S.Registers
import T4P4S.Replica
import T4P4S.RoundTrip
import T4P4S.Slices
import T4P4S.SockHelpers
import T4P4S.TableEntries
import T4P4S.ThreadPool
import T4P4S.VarExtract
import T4P4S.VarNames
