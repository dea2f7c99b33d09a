import Federated.Core
import Federated.Crypto.Aes
import Federated.Crypto.AesBlock
import Federated.Crypto.AesCbc
import Federated.Crypto.AesRefinement
import Federated.Crypto.AesTampering
import Federated.Crypto.ChaCha20
import Federated.Crypto.ChaCha20Counter
import Federated.Crypto.ChaCha20Refinement
import Federated.Crypto.Cipher
import Federated.Crypto.KeptOutput
import Federated.Crypto.Module
import Federated.Crypto.Rfc8439
import Federated.Crypto.Rijndael
import Federated.Federation.BootstrapEndpoints
import Federated.Federation.PeerBook
import Federated.Federation.PeerBounds
import Federated.Federation.PeerIds
import Federated.Federation.PeerList
import Federated.Federation.PeerMap
import Federated.Federation.PeerTable
import Federated.Federation.PeerUpdate
import Federated.Framer.Chunked
import Federated.Framer.ChunkedAccept
import Federated.Framer.ChunkedEncode
import Federated.Framer.ChunkedFormat
import Federated.Framer.ChunkedLimits
import Federated.Framer.ChunkedSafety
import Federated.Framer.ChunkedScan
import Federated.Framer.CrcDetection
import Federated.Framer.CrcDivision
import Federated.Framer.CrcRegister
import Federated.Framer.CutFrames
import Federated.Framer.Framers
import Federated.Framer.KeptDecode
import Federated.Framer.KeptOutput
import Federated.Framer.PrefixedAccept
import Federated.Framer.RoundTrip
import Federated.Library.ArrayList
import Federated.Library.BinaryDivision
import Federated.Library.BitGroups
import Federated.Library.Cbc
import Federated.Library.Clipped
import Federated.Library.Computation
import Federated.Library.Cutting
import Federated.Library.Descriptors
import Federated.Library.Fifo
import Federated.Library.Flow
import Federated.Library.InsertionMap
import Federated.Library.Layers
import Federated.Library.LineBlock
import Federated.Library.Machine
import Federated.Library.Marks
import Federated.Library.Pacing
import Federated.Library.Paths
import Federated.Library.Readers
import Federated.Library.Report
import Federated.Library.Residues
import Federated.Library.Search
import Federated.Library.ShiftRegister
import Federated.Library.Slots
import Federated.Library.StreamCipher
import Federated.Library.Tombstones
import Federated.Library.Traced
import Federated.Onion.AnyOrder
import Federated.Onion.CircuitIds
import Federated.Onion.CircuitLife
import Federated.Onion.CircuitLog
import Federated.Onion.CircuitNonces
import Federated.Onion.CircuitTable
import Federated.Onion.NonceReuse
import Federated.Onion.Onion
import Federated.Onion.Peeling
import Federated.Onion.Teardown
import Federated.Service.Http
import Federated.Service.HttpConfinement
import Federated.Service.HttpContentType
import Federated.Service.HttpFetch
import Federated.Service.HttpReads
import Federated.Service.HttpResponses
import Federated.Service.HttpServer
import Federated.Service.Imap
import Federated.Service.ImapAuth
import Federated.Service.ImapFetch
import Federated.Service.ImapLogout
import Federated.Service.ImapSelect
import Federated.Service.LineTokens
import Federated.Service.Mail
import Federated.Service.MailCapacity
import Federated.Service.MailIds
import Federated.Service.MailMemory
import Federated.Service.MailRefinement
import Federated.Service.MailSystem
import Federated.Service.Smtp
import Federated.Service.SmtpGreeting
import Federated.Service.SmtpHistory
import Federated.Service.SmtpQuit
import Federated.Service.SmtpRecipients
import Federated.Service.Text
import Federated.Tool.ArgumentReads
import Federated.Tool.Cli
import Federated.Tool.CliMain
import Federated.Tool.EnvFile
import Federated.Tool.EnvLines
import Federated.Tool.Help
import Federated.Tool.Log
import Federated.Tool.LogFiles
import Federated.Tool.LogHeader
import Federated.Tool.LogRuns
import Federated.Tool.OptionOrder
import Federated.Tool.ParseArgs
import Federated.Tool.Process
import Federated.Tool.ServiceDefaults
import Federated.Tool.ServiceStart
import Federated.Tool.Services
import Federated.Tool.SpelledStart
import Federated.Tool.Spellings
import Federated.Transport.Base32
import Federated.Transport.Descriptors
import Federated.Transport.DnsMessage
import Federated.Transport.DnsQuery
import Federated.Transport.DnsTraffic
import Federated.Transport.DnsTunnel
import Federated.Transport.File
import Federated.Transport.FileExchange
import Federated.Transport.Loopback
import Federated.Transport.LoopbackOrder
import Federated.Transport.RateLimit
import Federated.Transport.Stack
import Federated.Transport.Tcp
import Federated.Transport.TcpDescriptors
import Federated.Transport.TcpSockets
import Federated.Transport.TcpStream
import Federated.Transport.Udp
import Federated.Transport.UdpDelivery
