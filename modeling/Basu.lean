import Basu.Grammar
import Basu.Message.Elements
import Basu.Message.VariadicRead
import Basu.Message.Forward
import Basu.Match.Pattern
import Basu.Match.Dispatch
import Basu.Match.WellFormed
import Basu.Alloc
import Basu.Message.Bounds
import Basu.Hex.Id128
import Basu.Cookie
import Basu.Prio.Run
import Basu.Reply.Callback
import Basu.Reply.Deadline
import Basu.Reply.Call
import Basu.Object.Atomic
import Basu.Object.Answer
import Basu.Object.Managed
import Basu.Object.Changed
import Basu.Event.Owned
import Basu.Event.Lists
import Basu.Event.Armed
import Basu.Event.Exit
import Basu.Event.Expiry
import Basu.Event.Choice
import Basu.Event.Timeout
import Basu.Event.Undone
import Basu.Event.Deferred
import Basu.GVariant.Layout
import Basu.Track.Count
import Basu.Hashmap.Foreach
import Basu.Reading.Args
import Basu.Address.Escape
import Basu.Address.Tried
import Basu.Path.Encode
import Basu.Path.Template
import Basu.Creds.Extend
import Basu.Creds.Zephyr
import Basu.Introspect.Cursor
import Basu.Journal.Transaction
import Basu.Journal.Vector
import Basu.Introspect.Nested
import Basu.GVariant.Framing
import Basu.Message.Parts
import Basu.Path.Discovery
import Basu.Socket.Link
import Basu.Socket.Session
