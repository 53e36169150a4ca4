import Yafm.Shared.Text
import Yafm.Shared.Posix
import Yafm.Shared.Descent
import Yafm.Shared.Shrinking
import Yafm.Shared.Catalog
import Yafm.Shared.Glob
import Yafm.Shared.Blank
import Yafm.Shared.Effect
import Yafm.Shared.OrderedMap
import Yafm.Shared.Transition
import Yafm.Shared.Interference
import Yafm.Shared.Worklist
import Yafm.Shared.Digits
import Yafm.Shared.Sorting
import Yafm.Shared.Disposition
import Yafm.Paths
import Yafm.Http
import Yafm.Access.Pattern
import Yafm.Access.Config
import Yafm.Access.Evaluate
import Yafm.Access.Meaning
import Yafm.Access.Verdict
import Yafm.Access.Kept
import Yafm.Decoding
import Yafm.ChildPath
import Yafm.Access.NormalForm
import Yafm.Files.Storage
import Yafm.Files.Resolve
import Yafm.Files.Directory
import Yafm.Files.Delete
import Yafm.Files.Download
import Yafm.Files.Validators
import Yafm.Files.Range
import Yafm.Files.Containment
import Yafm.Files.Disposition
import Yafm.Files.Answer
import Yafm.Files.Readdir
import Yafm.Files.Order
import Yafm.Files.Resume
import Yafm.Files.Share
import Yafm.Spelling.Forms
import Yafm.Spelling.Rendered
import Yafm.Spelling.Masks
import Yafm.Spelling.Read
import Yafm.Spelling.Delete
import Yafm.Spelling.Reach
import Yafm.Spelling.SameFile
import Yafm.Spelling.Listed
import Yafm.Spelling.NonUtf8
import Yafm.Spelling.DeleteVisible
import Yafm.Auth.Payload
import Yafm.Auth.Flow
import Yafm.Auth.Run
import Yafm.Auth.ReturnTo
import Yafm.Auth.Rotation
import Yafm.Server.Router
import Yafm.Server.Mediation
import Yafm.Server.Headers
import Yafm.Log.Address
import Yafm.Log.Line
import Yafm.Check.Report
import Yafm.Check.Walk
import Yafm.Check.Complete
import Yafm.Check.Truth
import Yafm.Startup.Options
import Yafm.Startup.Config
import Yafm.Startup.Run
import Yafm.Startup.Served
import Yafm.Concurrent.Sharing
import Yafm.Concurrent.Handlers
import Yafm.Concurrent.Atomic
import Yafm.Concurrent.Server
import Yafm.Concurrent.Traffic
import Yafm.Concurrent.Run
import Yafm.Store.View
import Yafm.Store.Service
import Yafm.Store.Answer
import Yafm.Store.Serve
import Yafm.Store.Runs
import Yafm.Browser.Form
import Yafm.Browser.Client
import Yafm.Browser.Cookies
import Yafm.Browser.Session
import Yafm.Browser.Journey
import Yafm.Log.Access
import Yafm.Frontend.App
