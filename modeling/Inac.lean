import Inac.Hashtable.Count
import Inac.Hashtable.Str
import Inac.Hashtable.StatId
import Inac.Mempool.Ralloc
import Inac.Ullc.Overrun
import Inac.Ullc.Producers
import Inac.Ullc.SetPos
import Inac.Base64.Whitespace
import Inac.LinkedList.FromTable
import Inac.LinkedList.Head
import Inac.Hash.CrcHw
import Inac.Ipc.Lock
import Inac.Ipc.Counter
import Inac.Ipc.Refs
import Inac.Cron.Accept
import Inac.Cron.Days
import Inac.Cron.Names
import Inac.Cron.Range
import Inac.Cron.Ready
import Inac.Cron.Pull
import Inac.Cron.Registry
import Inac.Log.Room
import Inac.Process.Args
import Inac.Options.Forms
import Inac.Options.Stray
import Inac.Process.Pool
import Inac.Stopwatch.Foreach
import Inac.FileCursor.FileioLine
import Inac.FileCursor.Mmap
import Inac.FileCursor.MmapLine
import Inac.Wildcard.Slips
import Inac.LinkedList.Pop
import Inac.Mempool.Replay
import Inac.Mempool.Shrink
import Inac.Mempool.Merge
import Inac.Str.Split
import Inac.Str.Limit
import Inac.Str.Substr
import Inac.Str.Tok
import Inac.Str.Case
import Inac.Str.Assign
import Inac.Net.Send
import Inac.Bench.Report
import Inac.Dir.Walk
import Inac.Options.Buffer
import Inac.Options.Values
import Inac.Conffile.Types
import Inac.Conffile.Fresh
import Inac.Err.Pack
import Inac.Hash.Crc32
import Inac.Hash.Integer
import Inac.Hash.Lookup3
import Inac.Hash.Bytewise
import Inac.Hash.Yoshimitsu
import Inac.Test.Filter
import Inac.Test.Msg
import Inac.Cio.Edit
import Inac.Compression.Chunks
import Inac.Memory.Failure
import Inac.Memory.Layout
import Inac.Timer.Poll
import Inac.Timer.Firing
import Inac.Ipc.Wait
import Inac.Lz4.Shortcut
import Inac.Lz4.Overrun
import Inac.Compression.Lz4
