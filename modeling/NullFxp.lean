import NullFxp.Lib.RowMap
import NullFxp.Lib.Assoc
import NullFxp.Lib.Forest
import NullFxp.Lib.Runs
import NullFxp.Lib.Worklist
import NullFxp.Lib.StackWalk
import NullFxp.Lib.Text
import NullFxp.Lib.Regex
import NullFxp.Lib.RegexLaws
import NullFxp.Lib.Hex
import NullFxp.Lib.Percent
import NullFxp.Lib.Settings
import NullFxp.QString
import NullFxp.QMap
import NullFxp.RemoteDirModel.Node
import NullFxp.RemoteDirModel.Edit
import NullFxp.RemoteDirModel.Structure
import NullFxp.RemoteDirModel.Rows
import NullFxp.RemoteDirModel.Refresh
import NullFxp.RemoteDirModel.Retrived
import NullFxp.RemoteDirModel.Reachable
import NullFxp.RemoteDirModel.Middle
import NullFxp.RemoteDirModel.Requests
import NullFxp.RemoteDirModel.Delivery
import NullFxp.RemoteDirModel.Flags
import NullFxp.RemoteDirModel.Paths
import NullFxp.RemoteDirModel.Home
import NullFxp.RemoteDirModel.Lookup
import NullFxp.RemoteDirModel.MissingPath
import NullFxp.RemoteDirModel.Asserts
import NullFxp.Retriver.Server
import NullFxp.Retriver.Remove
import NullFxp.Retriver.Links
import NullFxp.Retriver.Outside
import NullFxp.Retriver.Loop
import NullFxp.Retriver.Thread
import NullFxp.LibFtp.Reply
import NullFxp.LibFtp.Reader
import NullFxp.LibFtp.Listing
import NullFxp.LibFtp.Operations
import NullFxp.Retriver.Commands
import NullFxp.LibFtp.Codes
import NullFxp.LibFtp.Total
import NullFxp.LibFtp.Arrivals
import NullFxp.LibFtp.Names
import NullFxp.Retriver.Names
import NullFxp.Retriver.Clears
import NullFxp.Retriver.Complete
import NullFxp.LibFtp.Login
import NullFxp.LibFtp.Tls
import NullFxp.LibFtp.Endpoint
import NullFxp.LibFtp.Pwd
import NullFxp.LibFtp.Facts
import NullFxp.LibFtp.UnixLine
import NullFxp.Retriver.TreeNode
import NullFxp.Transportor.Handshake
import NullFxp.Transportor.Queue
import NullFxp.Transportor.CopyFile
import NullFxp.Transportor.Turns
import NullFxp.Transportor.Corruption
import NullFxp.Transportor.Answers
import NullFxp.Transportor.AnswerLaws
import NullFxp.Transportor.Resume
import NullFxp.Transportor.Progress
import NullFxp.Transportor.Tree
import NullFxp.Transportor.Traverse
import NullFxp.Transportor.CopyTree
import NullFxp.Transportor.FtpSource
import NullFxp.Transportor.Fxp
import NullFxp.Transportor.FtpTree
import NullFxp.Transportor.InStep
import NullFxp.Transportor.Gestures
import NullFxp.Sync.Merge
import NullFxp.Sync.Plan
import NullFxp.Sync.Thread
import NullFxp.Sync.Tree
import NullFxp.Sync.Walk
import NullFxp.Sync.RemoteWalk
import NullFxp.Sync.Compare
import NullFxp.Sync.Transfer
import NullFxp.Sync.Status
import NullFxp.Sync.Effect
import NullFxp.Sync.Converge
import NullFxp.Security.Password
import NullFxp.Security.External
import NullFxp.TaskPackage
import NullFxp.Connection.Password
import NullFxp.Connection.Requests
import NullFxp.BaseStorage
import NullFxp.BaseStorage.Forwarder
import NullFxp.SessionDialog.Tree
import NullFxp.SessionDialog.CopyFolder
import NullFxp.SessionDialog.Paste
import NullFxp.SessionDialog.Actions
import NullFxp.Forward.Worker
import NullFxp.Forward.Relay
import NullFxp.Forward.Table
import NullFxp.Forward.Manager
import NullFxp.Forward.Bookkeeping
import NullFxp.Forward.Daemon
import NullFxp.Forward.Stops
import NullFxp.TaskQueueModel
import NullFxp.DirNavBar
import NullFxp.DirNavBar.Completion
import NullFxp.UpdateDialog
import NullFxp.Permissions
import NullFxp.SSHProxy.Connections
import NullFxp.Retriver.Selection
