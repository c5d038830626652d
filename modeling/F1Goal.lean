import F1Goal.Lib.Lts
import F1Goal.Lib.Mem
import F1Goal.Lib.Ring
import F1Goal.Lib.Transcode
import F1Goal.Lib.LittleEndian
import F1Goal.Lib.Block
import F1Goal.Lib.CString
import F1Goal.Lib.Utf8
import F1Goal.Lib.OnesComplement
import F1Goal.Lib.Returns
import F1Goal.Lib.Framing
import F1Goal.Lib.Printf
import F1Goal.Lib.SearchTree
import F1Goal.Lib.Percent
import F1Goal.BasicTypes
import F1Goal.Buffer
import F1Goal.BufferSafety
import F1Goal.Socket
import F1Goal.Worker
import F1Goal.Queue
import F1Goal.QueueFifo
import F1Goal.Access
import F1Goal.AccessBatch
import F1Goal.AccessQueue
import F1Goal.Descriptors
import F1Goal.SmartConf
import F1Goal.SmartConfBlocks
import F1Goal.SmartConfGrowth
import F1Goal.Template
import F1Goal.TemplateReading
import F1Goal.TemplateAutomaton
import F1Goal.TemplateMeaning
import F1Goal.BasicFuncs
import F1Goal.HttpObject
import F1Goal.HttpParser
import F1Goal.HttpLine
import F1Goal.HttpBuild
import F1Goal.HttpRead
import F1Goal.HttpRoundTrip
import F1Goal.Charset
import F1Goal.CharsetCodes
import F1Goal.CharsetUtf8
import F1Goal.CharsetTables
import F1Goal.EscDecode
import F1Goal.CharsetFraming
import F1Goal.CharsetSafety
import F1Goal.NetForge
import F1Goal.HttpSafety
import F1Goal.HttpFields
import F1Goal.Receive
import F1Goal.EdgeTriggered
import F1Goal.EdgeInvariant
import F1Goal.EdgeDrained
import F1Goal.SmartConfSafety
import F1Goal.SmartConfReads
import F1Goal.ServerConf
import F1Goal.Server
import F1Goal.HttpContent
import F1Goal.HttpReset
import F1Goal.HttpOnce
import F1Goal.EscText
import F1Goal.EscReading
import F1Goal.EscRoundTrip
import F1Goal.DataSet
import F1Goal.DataField
import F1Goal.Log
import F1Goal.UrlParser
import F1Goal.NetPacket
import F1Goal.PerfMon
import F1Goal.Bitree
import F1Goal.Regset
import F1Goal.LangCode
import F1Goal.LangUnicode
import F1Goal.IpChecksum
import F1Goal.CharsetCapacity
import F1Goal.RecvStatus
import F1Goal.BufferAppend
import F1Goal.EscCapacity
import F1Goal.HttpGrammar
import F1Goal.SmartConfItems
import F1Goal.SmartConfNumbers
import F1Goal.SmartConfSame
import F1Goal.ServerSettings
import F1Goal.CmpStr
import F1Goal.TemplateExec
import F1Goal.TemplateTail
import F1Goal.DataSetGrowth
import F1Goal.LangCapacity
import F1Goal.UrlParams
import F1Goal.DataFieldGrowth
import F1Goal.PkReceiver
import F1Goal.WebHost
import F1Goal.WebHostList
import F1Goal.Rotate
import F1Goal.TimeInterval
import F1Goal.PerfStatis
import F1Goal.Substr
import F1Goal.DataFieldCopy
import F1Goal.QueueBlocks
import F1Goal.ServerOrder
import F1Goal.PerfFetch
import F1Goal.EchoProtocol
import F1Goal.EthScrapy
import F1Goal.ServerBlocks
import F1Goal.HttpBlocks
import F1Goal.DataSetBlocks
import F1Goal.PkFile
