import Zimbr.Library.Machine
import Zimbr.Library.Table
import Zimbr.Library.Sql
import Zimbr.Protocol.Types
import Zimbr.Relay.Passes
import Zimbr.Relay.Continuity
import Zimbr.Relay.Pages
import Zimbr.Relay.Multipart
import Zimbr.Library.ChangeLog
import Zimbr.Relay.Streams
import Zimbr.Relay.Originals
import Zimbr.Relay.Leases
import Zimbr.Relay.Intact
import Zimbr.Relay.SourceRuns
import Zimbr.Relay.AttributionRuns
import Zimbr.Relay.Windows
import Zimbr.Relay.Quota
import Zimbr.Relay.Releases
import Zimbr.Client.Records
import Zimbr.Client.Unread
import Zimbr.Client.Grouping
import Zimbr.Client.RoundTrip
import Zimbr.Client.Versions
import Zimbr.Relay.Resets
import Zimbr.Protocol.JsonLanguage
import Zimbr.Relay.Timestamps
import Zimbr.Relay.Isolation
import Zimbr.Relay.InlineBudget
import Zimbr.Relay.TypedstreamBounds
import Zimbr.Relay.Placeholders
import Zimbr.Relay.PlistTotal
import Zimbr.Relay.LinkPreviewTotal
import Zimbr.Relay.Query
import Zimbr.Client.DiskCache
import Zimbr.Client.Display
import Zimbr.Relay.Anchors
import Zimbr.Relay.Decoder
import Zimbr.Client.Undo
import Zimbr.Client.Emoji
import Zimbr.Client.EmojiCompletion
import Zimbr.Client.Drafts
import Zimbr.Client.Pending
import Zimbr.Client.Content
import Zimbr.Client.Blocks
import Zimbr.Client.Preparation
import Zimbr.Client.LogBuffer
import Zimbr.Relay.Http2
import Zimbr.Client.ImageCache
import Zimbr.Relay.Contacts
import Zimbr.Protocol.AttachmentSets
import Zimbr.Client.Chips
import Zimbr.Client.Outgoing
import Zimbr.Client.Upload
import Zimbr.Client.Sending
import Zimbr.Client.SendingRules
import Zimbr.Client.Submissions
import Zimbr.Client.Ownership
import Zimbr.Client.Retention
import Zimbr.Relay.AssetStore
import Zimbr.Relay.AssetWork
import Zimbr.Relay.AssetService
import Zimbr.Relay.AssetRules
import Zimbr.Relay.AssetRuns
import Zimbr.Relay.Reactions
import Zimbr.Relay.ReactionRules
import Zimbr.Relay.ReactionViews
import Zimbr.Relay.ReactionWork
import Zimbr.Relay.ReactionRuns
import Zimbr.Library.Cells
import Zimbr.Client.NotificationQueue
import Zimbr.Client.Notices
