import WeedgePkg.DecimalText
import WeedgePkg.BufferedIo
import WeedgePkg.RespReader
import WeedgePkg.RespWriter
import WeedgePkg.RespFrames
import WeedgePkg.RespParse
import WeedgePkg.RespCodec
import WeedgePkg.RespPartialFrames
import WeedgePkg.ReflectedCrc
import WeedgePkg.RdbCrc64
import WeedgePkg.GoFloat
import WeedgePkg.RdbEncoder
import WeedgePkg.RdbReader
import WeedgePkg.RdbStructures
import WeedgePkg.AssocMap
import WeedgePkg.RdbStream
import WeedgePkg.RdbTypes
import WeedgePkg.RdbStringCodec
import WeedgePkg.RdbDumps
import WeedgePkg.Lz77
import WeedgePkg.RdbLzf
import WeedgePkg.RdbListpack
import WeedgePkg.RdbZiplist
import WeedgePkg.CountedLoop
import WeedgePkg.LaneSums
import WeedgePkg.BitSet
import WeedgePkg.RingBuffer
import WeedgePkg.RingBufferRuns
import WeedgePkg.Queue
import WeedgePkg.JobRunner
import WeedgePkg.JobLifecycle
import WeedgePkg.SyncPool
import WeedgePkg.GoChan
import WeedgePkg.AsyncTask
import WeedgePkg.QueueRuns
import WeedgePkg.QueueSemas
import WeedgePkg.QueueSpec
import WeedgePkg.QueueLinear
import WeedgePkg.BitSetAlgebra
import WeedgePkg.BitSetShifts
import WeedgePkg.FinBits
import WeedgePkg.BitSetPrograms
import WeedgePkg.GoStrconv
import WeedgePkg.RespReplies
import WeedgePkg.GoUnicode
import WeedgePkg.GoStrings
import WeedgePkg.Metadata
import WeedgePkg.Driver
