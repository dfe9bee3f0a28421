import Kodosi.Browser.Decodes
import Kodosi.Connections.BytesKept
import Kodosi.Connections.LinkKept
import Kodosi.Connections.StraightKept
import Kodosi.Connections.TypedInput
import Kodosi.Documents.EditsOnce
import Kodosi.Documents.OutsideWrites
import Kodosi.Documents.ReadOnly
import Kodosi.Documents.Recovery
import Kodosi.Documents.Views
import Kodosi.Docx.Relations
import Kodosi.Docx.Spans
import Kodosi.Docx.Touched
import Kodosi.Dosi.CatchesUp
import Kodosi.Dosi.EndKept
import Kodosi.Identity.FriendsKept
import Kodosi.Identity.OneFormat
import Kodosi.Identity.RecoveryText
import Kodosi.Pdf.PagesKept
import Kodosi.Rooms.ContentRuns
import Kodosi.Rooms.KeysPass
import Kodosi.Rooms.LoadsApart
import Kodosi.Rooms.TerminalRooms
import Kodosi.Rooms.Times
import Kodosi.Terminal.InOrder
import Kodosi.Terminal.Joins
import Kodosi.Terminal.OneOwner
import Kodosi.Terminal.RemoteHanded
import Kodosi.Terminal.WritesOnce
import Kodosi.TerminalConnections.Calls
import Kodosi.Text.MarkSets
import Kodosi.Text.PutBack
import Kodosi.Text.ValidSteps
import Kodosi.Wire.Hostile
import Kodosi.Xlsx.Behind
import Kodosi.Xlsx.CellNames
import Kodosi.Xlsx.Kept
import Kodosi.Xlsx.MergesWell
import Kodosi.Xlsx.NoWrap
import Kodosi.Xlsx.ReadBack
import Kodosi.Wire.LocalFrames
import Kodosi.Connections.PicturesPasted
import Kodosi.TerminalConnections.Presence
