import Khttp.Lib.Machine
import Khttp.Queue
import Khttp.QueueVisibility
import Khttp.Bytes
import Khttp.Lib.LinkedList
import Khttp.DataBuffer
import Khttp.HttpBody
import Khttp.Http
import Khttp.WritePass
import Khttp.WritePassEnds
import Khttp.WireStream
import Khttp.HttpReader
import Khttp.ReadPass
import Khttp.RequestDelivery
import Khttp.Lib.PathTree
import Khttp.UrlParser
import Khttp.FileSystem
import Khttp.Config
import Khttp.HttpServer
import Khttp.Containment
import Khttp.Server
import Khttp.ServerMoves
import Khttp.DescriptorOwnership
import Khttp.ByteQueue
import Khttp.ContentLength
import Khttp.HostLookup
import Khttp.Messages
import Khttp.RequestAssembly
import Khttp.HeaderBlock
import Khttp.ConfigLoad
import Khttp.RequestAnswers
import Khttp.ResponseOrder
import Khttp.ErrorResponses
import Khttp.InputProgress
import Khttp.OutputProgress
import Khttp.CleanUp
import Khttp.Lib.EventLog
import Khttp.QueueRepresentation
import Khttp.Teardown
import Khttp.ThreadPool
import Khttp.Chunks
import Khttp.Validation
import Khttp.HeadRequests
import Khttp.Spellings
import Khttp.InterimResponses
import Khttp.DefaultHosts
import Khttp.HeaderList
import Khttp.BodyWriters
import Khttp.BodyOffsets
import Khttp.BodyLifetime
import Khttp.BufferDrain
import Khttp.FileLookup
import Khttp.IndexChoice
import Khttp.ListingLinks
import Khttp.BodyAppend
import Khttp.FileSizes
import Khttp.HostTeardown
import Khttp.Lib.Words
import Khttp.Mime
import Khttp.MimeTable
import Khttp.Lib.Replacement
import Khttp.Placeholders
import Khttp.Lib.Calls
import Khttp.HttpParser
import Khttp.HttpParserExecute
import Khttp.ParserInvariant
import Khttp.Lib.Fragments
import Khttp.ParserSteps
import Khttp.ParserTexts
import Khttp.ParserRefinement
import Khttp.ParserStreams
import Khttp.ParserReads
import Khttp.ParserGrammar
import Khttp.ParserMessages
import Khttp.Lib.Keywords
import Khttp.HeaderScan
import Khttp.HeaderLines
import Khttp.HeaderReads
import Khttp.RequestLines
import Khttp.WrittenBodies
import Khttp.WrittenRequests
