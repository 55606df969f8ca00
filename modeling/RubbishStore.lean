import RubbishStore.Lib.Runs
import RubbishStore.Lib.Prog
import RubbishStore.Lib.Assoc
import RubbishStore.Lib.Template
import RubbishStore.Lib.Keyed
import RubbishStore.Lib.Interleave
import RubbishStore.Lib.Linked
import RubbishStore.Lib.Heap
import RubbishStore.Lib.Outcome
import RubbishStore.Pdo.Statement
import RubbishStore.Pdo.Model
import RubbishStore.Pdo.Accessor
import RubbishStore.Pdo.Calls
import RubbishStore.Pdo.Binding
import RubbishStore.Pdo.Placeholders
import RubbishStore.Pdo.MultiLineInserter
import RubbishStore.Pdo.InserterFaults
import RubbishStore.Pdo.InserterOrder
import RubbishStore.Pdo.CommonUse
import RubbishStore.Pdo.DataObject
import RubbishStore.Pdo.Sessions
import RubbishStore.Pdo.Routing
import RubbishStore.Pdo.Shards
import RubbishStore.Pdo.Transactions
import RubbishStore.Pdo.Mysql
import RubbishStore.Pdo.MysqlRows
import RubbishStore.Pdo.Steps
import RubbishStore.Pdo.Stored
import RubbishStore.Pdo.FindByPks
import RubbishStore.Pdo.ObjectSteps
import RubbishStore.Pdo.ObjectRows
import RubbishStore.Pdo.SaveDecision
import RubbishStore.Pdo.RowCache
import RubbishStore.Pdo.RowCacheFaults
import RubbishStore.Pdo.RowCacheRaces
import RubbishStore.Algorithm.LinkList
import RubbishStore.Algorithm.SingleLinkList
import RubbishStore.Algorithm.LoopLiknList
import RubbishStore.Socket.Unp
import RubbishStore.Socket.HttpRequest
import RubbishStore.Socket.HttpSegments
import RubbishStore.Socket.StrCli
import RubbishStore.Socket.SelectServer
import RubbishStore.Socket.SelectSets
import RubbishStore.Socket.ChatServer
import RubbishStore.Socket.HttpServer
import RubbishStore.Socket.HttpBuffer
import RubbishStore.Socket.FdSetSize
import RubbishStore.Algorithm.DoubleLinkList
import RubbishStore.Lib.Markup
import RubbishStore.Util.NLogger
import RubbishStore.Util.NLoggerFaults
import RubbishStore.Util.SolrClient
import RubbishStore.Lib.Percent
import RubbishStore.Util.SolrQuery
import RubbishStore.Lib.Base64
import RubbishStore.Lib.Feedback
import RubbishStore.Lib.Md5
import RubbishStore.Lib.Replace
import RubbishStore.Util.GlobalFunc
import RubbishStore.Lib.SortedQuery
import RubbishStore.Util.CallAPI
import RubbishStore.Lib.Regex
import RubbishStore.Util.StrFilter
import RubbishStore.Lib.Mask
import RubbishStore.Lib.PhpText
import RubbishStore.Util.FilterWords
import RubbishStore.Util.FilterWordsNew
import RubbishStore.Lib.Tags
import RubbishStore.Util.AutoComplete
import RubbishStore.Lib.PhpNumber
import RubbishStore.Rabbitmq.Rpc
import RubbishStore.Server.Noblock
import RubbishStore.Lib.Decimal
import RubbishStore.Util.MemCacheKey
import RubbishStore.Lib.PhpNumber
import RubbishStore.Rabbitmq.Rpc
import RubbishStore.Pdo.InserterOrder
import RubbishStore.Pdo.CommonUse
import RubbishStore.Lib.Recording
import RubbishStore.Util.Strings
import RubbishStore.Util.ValidatorRules
import RubbishStore.Util.Validator
import RubbishStore.Lib.Cells
import RubbishStore.BasicSort.BubbleSort
import RubbishStore.BasicSort.InsertionSort
import RubbishStore.BasicSort.QuickSort
import RubbishStore.BasicSort.SelectSort
import RubbishStore.Algorithm.BinarySearch
import RubbishStore.Algorithm.LinkPositions
import RubbishStore.Socket.RequestFields
import RubbishStore.Socket.ChatEcho
import RubbishStore.Socket.FastCgi
import RubbishStore.Algorithm.FloatMidpoint
import RubbishStore.Lib.Utf8
import RubbishStore.ReadFile.Read
import RubbishStore.Test.StrReplace
import RubbishStore.Function.Utf8sub
import RubbishStore.Lib.Shortest
import RubbishStore.Util.CutChar
import RubbishStore.Util.GroupSubStr
import RubbishStore.Lib.Nested
import RubbishStore.Util.CutStr
import RubbishStore.Util.CutHtml
import RubbishStore.Util.AreaCode
import RubbishStore.Util.MultiPager
import RubbishStore.Util.HtmlSpecialChar
import RubbishStore.Util.LuceneChars
import RubbishStore.Util.AutoCompleteLength
import RubbishStore.Util.CutHtmlStack
import RubbishStore.Util.FilterHtml
import RubbishStore.Util.CutHtmlTags
import RubbishStore.Util.ValidatorMessages
import RubbishStore.CurlGet.ClearSpace
import RubbishStore.CurlGet.FormatUrl
import RubbishStore.Util.SolrResponse
import RubbishStore.Util.HouseContent
import RubbishStore.Lib.Halting
import RubbishStore.Util.FilterWordsEnds
import RubbishStore.Lib.PhpFloat
import RubbishStore.Util.StringDeal
import RubbishStore.Consolidated.ExtBaseTools
import RubbishStore.Lib.Framing
import RubbishStore.Lib.Labelled
import RubbishStore.Socket.Writen
import RubbishStore.Socket.Readline
import RubbishStore.Socket.StrEcho
import RubbishStore.Socket.AddSession
import RubbishStore.Socket.SelectEcho
import RubbishStore.Util.FluentLogger
import RubbishStore.Lib.Asks
import RubbishStore.Pdo.ArrayLayer
import RubbishStore.Pdo.LayerRouting
import RubbishStore.Pdo.LayerRows
import RubbishStore.Pdo.LayerCache
import RubbishStore.Lib.PhpArray
import RubbishStore.Lib.Carried
import RubbishStore.Util.HttpCurl
import RubbishStore.Util.HttpCurlRuns
import RubbishStore.Util.SolrTransport
import RubbishStore.Sh.Dkeeper
import RubbishStore.Socket.HttpBody
import RubbishStore.Socket.HttpChunks
