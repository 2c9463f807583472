import KeepalivedDevel.BarakAdam.Interfaces
import KeepalivedDevel.CLib.Buffer
import KeepalivedDevel.CLib.ByteOrder
import KeepalivedDevel.CLib.CChar
import KeepalivedDevel.CLib.CInt
import KeepalivedDevel.CLib.CString
import KeepalivedDevel.CLib.Decimal
import KeepalivedDevel.CLib.Fgets
import KeepalivedDevel.CLib.Hexadecimal
import KeepalivedDevel.CLib.Numbered
import KeepalivedDevel.CLib.Numerals
import KeepalivedDevel.CLib.Probe
import KeepalivedDevel.CLib.Runs
import KeepalivedDevel.CLib.SearchTree
import KeepalivedDevel.CLib.SparseTable
import KeepalivedDevel.CLib.Tally
import KeepalivedDevel.CLib.Text
import KeepalivedDevel.CLib.Trace
import KeepalivedDevel.CLib.Triangle
import KeepalivedDevel.CLib.While
import KeepalivedDevel.CheckPath.Ancestors
import KeepalivedDevel.DnsTest.Buffer
import KeepalivedDevel.DnsTest.Decode
import KeepalivedDevel.DnsTest.Session
import KeepalivedDevel.Execvpe.Agreement
import KeepalivedDevel.FindPath.Candidates
import KeepalivedDevel.Hash.Counting
import KeepalivedDevel.InetAton.Ston
import KeepalivedDevel.InotifyFile.Closes
import KeepalivedDevel.Linkbeat.Status
import KeepalivedDevel.MsgType.Files
import KeepalivedDevel.OffsetStore.Interleaving
import KeepalivedDevel.OffsetStore.Isolate
import KeepalivedDevel.PamAuthenticate.Conversation
import KeepalivedDevel.PatchesDoBuild.Status
import KeepalivedDevel.PatchesFindChanges.Changes
import KeepalivedDevel.PcrePartial.Search
import KeepalivedDevel.PcrePartial.Window
import KeepalivedDevel.ProcConnector.Datagram
import KeepalivedDevel.ProcConnector.Loop
import KeepalivedDevel.ProcessMonitor.Bounds
import KeepalivedDevel.ProcessMonitor.Losses
import KeepalivedDevel.ProcessMonitor.Marks
import KeepalivedDevel.PyLib.Dict
import KeepalivedDevel.PyLib.Json
import KeepalivedDevel.RbTree.Insert
import KeepalivedDevel.Readdress.Distinct
import KeepalivedDevel.Readdress.Lines
import KeepalivedDevel.Regex.Read
import KeepalivedDevel.RemoveCheckers.Blocks
import KeepalivedDevel.Script1173.Addresses
import KeepalivedDevel.Script1173.Config
import KeepalivedDevel.SetCmdline.Runs
import KeepalivedDevel.ShLib.Expansion
import KeepalivedDevel.ShLib.Sed
import KeepalivedDevel.ShLib.Sweep
import KeepalivedDevel.SigTest.Sender
import KeepalivedDevel.StringParser.Bounds
import KeepalivedDevel.StringParser.Code
import KeepalivedDevel.StringParser.Comments
import KeepalivedDevel.StringParser.Escapes
import KeepalivedDevel.StringParser.Numeric
import KeepalivedDevel.StringParser.RoundTrip
import KeepalivedDevel.TestIt.Coverage
import KeepalivedDevel.TrackProcess.Code
import KeepalivedDevel.TrackProcess.Processes
import KeepalivedDevel.TrackProcess.Scan
import KeepalivedDevel.TrackProcess.Tracking
import KeepalivedDevel.TrackProcess.Variants
import KeepalivedDevel.Uds.Blocking
import KeepalivedDevel.Uds.Progress
import KeepalivedDevel.WhichBsd.Search
