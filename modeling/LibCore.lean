import LibCore.Bytes
import LibCore.Chain
import LibCore.HashMap
import LibCore.HashMapRefine
import LibCore.Utf8
import LibCore.PathValidator
import LibCore.PathCanonical
import LibCore.Json
import LibCore.JsonString
import LibCore.JsonParse
import LibCore.JsonUtf8
import LibCore.JsonRoundTrip
import LibCore.HttpHeaders
import LibCore.HttpHeaderGrammar
import LibCore.HttpConnection
import LibCore.HttpFraming
import LibCore.Framing
import LibCore.WsStream
import LibCore.HttpSegmentation
import LibCore.Asn1
import LibCore.Asn1Codec
import LibCore.Asn1RoundTrip
import LibCore.Snmp
import LibCore.SnmpDecode
import LibCore.SnmpRoundTrip
import LibCore.SnmpWalk
import LibCore.Router
import LibCore.ToosRoom
import LibCore.ToosSpawn
import LibCore.ToosGame
import LibCore.ToosRoster
import LibCore.JsonGrammar
import LibCore.JsonSound
import LibCore.JsonClosure
import LibCore.GameRoom
import LibCore.GameRoomRuns
import LibCore.ToosClock
import LibCore.ToosMoves
import LibCore.ToosPlayed
import LibCore.Chunks
import LibCore.ToosDeck
import LibCore.ToosLedger
import LibCore.ToosWs
import LibCore.ToosPrivate
import LibCore.GameTimer
import LibCore.Hashtable
import LibCore.HashtableRefine
import LibCore.HashtableString
import LibCore.Dll
import LibCore.ServerQueue
import LibCore.ServerSteps
import LibCore.ServerEvents
import LibCore.ServerLifecycle
import LibCore.ServerWalks
import LibCore.ServerDelivery
import LibCore.ServerWsQueue
import LibCore.HttpTransport
import LibCore.ByteBuffer
import LibCore.HttpResponseParser
import LibCore.HttpResponseFraming
import LibCore.HttpExpect
import LibCore.UrlParsers
import LibCore.HttpClient
import LibCore.HttpRequestBuilder
import LibCore.HttpForms
import LibCore.HttpJsonBody
import LibCore.TemplateEngine
import LibCore.TemplateEscaping
import LibCore.Pgsql
import LibCore.Search
import LibCore.Multipart
import LibCore.MultipartRoundTrip
import LibCore.BoardAtomicity
import LibCore.OidCanonicity
import LibCore.SnmpNumbers
import LibCore.JsonNumber
import LibCore.HashMapCounts
import LibCore.Circular
import LibCore.RingBuffer
import LibCore.ArrayList
import LibCore.DeferQueue
import LibCore.ThreadPool
import LibCore.TimerRegistry
import LibCore.ThreadPoolRuns
import LibCore.UringAccounts
import LibCore.UringSteps
import LibCore.UringWait
import LibCore.UringRuns
import LibCore.BoardVersion
import LibCore.Ranking
import LibCore.ToosRanking
import LibCore.HashtableIterators
import LibCore.MultipartParams
import LibCore.MultipartWriter
import LibCore.HttpTargets
import LibCore.HttpSend
import LibCore.StringBuilder
import LibCore.TextEncoder
import LibCore.Base64
import LibCore.Base64Codec
import LibCore.BoardFiles
import LibCore.JsonEquals
import LibCore.JsonNodes
import LibCore.BTree
import LibCore.ByteBufferRuns
import LibCore.Cron
import LibCore.LinkedList
import LibCore.SearchTree
import LibCore.TimerRemoval
import LibCore.WsCodec
import LibCore.TemplateSections
import LibCore.ToosBuild
import LibCore.LexicalPath
import LibCore.PathObj
import LibCore.BoardSearch
import LibCore.RawMemory
import LibCore.StringObj
import LibCore.Occurrences
import LibCore.StringReplace
import LibCore.Lcg
import LibCore.ToosRandom
import LibCore.CheckedWord
import LibCore.NumberParsers
import LibCore.RecvLine
import LibCore.PixelClient
import LibCore.PixelReplica
import LibCore.PixelAuthority
import LibCore.CryptoSha1
import LibCore.Locale
import LibCore.HttpReplies
import LibCore.HttpCalls
import LibCore.CronWorker
