import Shdata.Backend.Refines
import Shdata.Backend.Resources
import Shdata.Backend.Shm
import Shdata.Backend.Stable
import Shdata.Backend.Syscalls
import Shdata.Bytes.CInt
import Shdata.Bytes.Memory
import Shdata.Bytes.Patch
import Shdata.Conc.Balance
import Shdata.Conc.Bounded
import Shdata.Conc.Effects
import Shdata.Conc.Erase
import Shdata.Conc.Implement
import Shdata.Conc.Prog
import Shdata.Conc.RelyGuarantee
import Shdata.Conc.Trace
import Shdata.Consumer.Addressed
import Shdata.Consumer.AtRest
import Shdata.Consumer.Bisect
import Shdata.Consumer.Closest
import Shdata.Consumer.Closing
import Shdata.Consumer.Copies
import Shdata.Consumer.Dates
import Shdata.Consumer.Depth
import Shdata.Consumer.Exact
import Shdata.Consumer.History
import Shdata.Consumer.Margin
import Shdata.Consumer.Oldest
import Shdata.Consumer.Overwrite
import Shdata.Consumer.Ownership
import Shdata.Consumer.Reading
import Shdata.Consumer.Requests
import Shdata.Consumer.Scan
import Shdata.Consumer.Search
import Shdata.Consumer.Session
import Shdata.Consumer.Torn
import Shdata.Consumer.TwoPaths
import Shdata.Consumer.Window
import Shdata.Core.Api
import Shdata.Core.Data
import Shdata.Core.Machine
import Shdata.Core.Search
import Shdata.Core.Section
import Shdata.Core.Sync
import Shdata.Core.Target
import Shdata.Core.Utils
import Shdata.Explicit.Code
import Shdata.Explicit.Divisions
import Shdata.Explicit.Header
import Shdata.Explicit.Runs
import Shdata.Layout.Agree
import Shdata.Layout.Header
import Shdata.Layout.Helpers
import Shdata.Layout.Index
import Shdata.Layout.Slots
import Shdata.Layout.Sound
import Shdata.Lifetime.Arrays
import Shdata.Lifetime.Release
import Shdata.Platform.X1
import Shdata.Producer.Calls
import Shdata.Producer.Failed
import Shdata.Producer.Foreign
import Shdata.Producer.Frame
import Shdata.Producer.OneWriter
import Shdata.Producer.Runs
import Shdata.Producer.Sessions
import Shdata.Producer.Sole
import Shdata.Progress.Calls
import Shdata.Progress.Reading
import Shdata.Progress.Stopped
import Shdata.Readers.Calls
import Shdata.Readers.Fresh
import Shdata.Readers.Sessions
import Shdata.Readers.Turns
import Shdata.Readers.Unseen
import Shdata.Revision.Authors
import Shdata.Revision.Creator
import Shdata.Revision.Headers
import Shdata.Revision.Index
import Shdata.Revision.Interrupted
import Shdata.Revision.Ledger
import Shdata.Revision.Opener
import Shdata.Revision.Protocol
import Shdata.Revision.Runs
import Shdata.Revision.Steps
import Shdata.Ring.Cyclic
import Shdata.Ring.First
import Shdata.Solo.Admits
import Shdata.Solo.Create
import Shdata.Solo.Exec
import Shdata.Solo.Open
import Shdata.Solo.Releases
import Shdata.Trace.RingMem
import Shdata.Trace.Track
