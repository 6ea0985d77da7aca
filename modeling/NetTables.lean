import NetTables.Lib.Fallible
import NetTables.Lib.Run
import NetTables.Lib.Nesting
import NetTables.Lib.Guarded
import NetTables.Server.Util
import NetTables.Server.Inner
import NetTables.Server.Run
import NetTables.Server.Effect
import NetTables.Server.DeliveryJournal
import NetTables.Server.History
import NetTables.Server.Routing
import NetTables.Server.Clients
import NetTables.Server.Connection
import NetTables.Server.Delivery
import NetTables.Server.Disconnect
import NetTables.Server.Handles
import NetTables.Server.Lifetime
import NetTables.Server.Parser
import NetTables.Server.Reconnect
import NetTables.Server.TopicTable
import NetTables.Server.Frames
import NetTables.Server.Isolation
import NetTables.Server.Closing
import NetTables.Server.Ownership
import NetTables.Server.ServerTopics
import NetTables.Server.Announcements
import NetTables.Server.Names
import NetTables.Server.Leaks
import NetTables.Server.PubCount
import NetTables.Server.TopicIds
import NetTables.Server.Retained
import NetTables.Server.ClosedChannels
import NetTables.Server.Metatopics
import NetTables.Server.AllOrNothing
import NetTables.Server.Removal
import NetTables.Server.StaleValues
import NetTables.Server.TimeSync
import NetTables.Server.Deadlock
import NetTables.Server.Steps
import NetTables.Server.Registration
import NetTables.Server.HandlePublish
import NetTables.Client.Session
import NetTables.Client.Room
import NetTables.Client.Replay
import NetTables.Client.Streams
import NetTables.Client.Subscribing
import NetTables.Client.Clock
import NetTables.System.LastValue
import NetTables.System.NewestValue
import NetTables.System.Batches
import NetTables.System.RoundTrip
import NetTables.Server.Subscribe
import NetTables.Server.SendPeriod
import NetTables.Server.SendSleeps
import NetTables.Server.Hearers
import NetTables.Server.Replies
import NetTables.Server.TopicsOnly
import NetTables.Server.SameAnnounce
import NetTables.Client.Decoding
import NetTables.Client.AnnouncedTable
import NetTables.Client.CleanName
import NetTables.Server.OwnMetatopics
import NetTables.Server.IdentityText
import NetTables.Server.Outgoing
import NetTables.System.World
import NetTables.System.InOrder
import NetTables.System.Agreement
import NetTables.System.Silence
import NetTables.System.Attribution
import NetTables.System.Provenance
import NetTables.System.Handled
import NetTables.System.Clocks
import NetTables.System.Requested
import NetTables.System.Sending
import NetTables.System.ClockAnswers
import NetTables.System.Staying
