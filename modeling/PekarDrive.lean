import PekarDrive.Foundation.Threads
import PekarDrive.Packet.Codec
import PekarDrive.Packet.Receive
import PekarDrive.Packet.RoundTrip
import PekarDrive.Table.Operations
import PekarDrive.Table.Refinement
import PekarDrive.WorkerAdmin.Ping
import PekarDrive.WorkerAdmin.PingLocking
import PekarDrive.Foundation.DeletingPass
import PekarDrive.WorkerAdmin.PingRound
import PekarDrive.Master.Strings
import PekarDrive.Master.Client
import PekarDrive.Master.Response
import PekarDrive.Master.Registration
import PekarDrive.Worker.FileExec
import PekarDrive.Worker.Answer
import PekarDrive.System.Authorization
import PekarDrive.Client.Interface
import PekarDrive.Master.Dispatch
import PekarDrive.System.Delivery
import PekarDrive.Transmission.Chunks
import PekarDrive.Transmission.RoundTrip
import PekarDrive.Foundation.Runs
import PekarDrive.Master.MainLoop
import PekarDrive.System.SendLengths
import PekarDrive.Master.Registrations
import PekarDrive.Foundation.Lines
import PekarDrive.WorkerAdmin.Deletion
import PekarDrive.Foundation.Descriptors
import PekarDrive.Packet.Connection
import PekarDrive.WorkerAdmin.OpenDescriptors
import PekarDrive.Master.ConnDescriptors
import PekarDrive.WorkerAdmin.TableLoops
import PekarDrive.WorkerAdmin.UnlockedLoops
import PekarDrive.WorkerAdmin.Listings
import PekarDrive.System.Placement
import PekarDrive.Worker.Directory
import PekarDrive.Transmission.Received
import PekarDrive.Transmission.Segments
import PekarDrive.Transmission.Partition
import PekarDrive.Transmission.Status
import PekarDrive.Client.Settings
import PekarDrive.Worker.Failures
import PekarDrive.Worker.Shell
import PekarDrive.Worker.Frame
import PekarDrive.Foundation.Blocks
import PekarDrive.System.Terminators
import PekarDrive.System.Listing
import PekarDrive.Foundation.Ledger
import PekarDrive.Transmission.Heap
import PekarDrive.Transmission.Ownership
import PekarDrive.Transmission.ErrorMessages
import PekarDrive.Transmission.Deserialized
import PekarDrive.Transmission.SingleUse
import PekarDrive.Worker.NamedFiles
import PekarDrive.System.Separators
import PekarDrive.System.CountedWrites
import PekarDrive.Master.RegisterArgument
import PekarDrive.System.DeleteReply
import PekarDrive.Master.CharAt
import PekarDrive.System.FormattedTexts
import PekarDrive.Transmission.TrimPadding
import PekarDrive.System.ReadAll
import PekarDrive.Worker.NameList
import PekarDrive.System.WriteCounts
import PekarDrive.Foundation.Serial
import PekarDrive.Table.Concurrent
import PekarDrive.Foundation.Turns
import PekarDrive.Client.ArgParser
import PekarDrive.Client.Program
import PekarDrive.System.ServingOrder
import PekarDrive.Foundation.Contracts
import PekarDrive.System.Drive
import PekarDrive.System.Terminal
import PekarDrive.System.DataDirectory
import PekarDrive.Transmission.Endpoints
import PekarDrive.Worker.MainLoop
import PekarDrive.Foundation.Standstill
import PekarDrive.Master.Standstill
import PekarDrive.Transmission.Conversation
import PekarDrive.Foundation.Questions
import PekarDrive.Master.Contacts
