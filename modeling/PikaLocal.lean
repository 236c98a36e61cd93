import PikaLocal.Errors
import PikaLocal.Channel.Basic
import PikaLocal.Channel.Invariant
import PikaLocal.Channel.Refinement
import PikaLocal.Channel.Conservation
import PikaLocal.Channel.Objects
import PikaLocal.WhenSome.Walk
import PikaLocal.WhenSome.Join
import PikaLocal.WhenSome.Moves
import PikaLocal.WhenSome.Invariant
import PikaLocal.WhenSome.Wakeup
import PikaLocal.WhenSome.Result
import PikaLocal.WhenSome.Tuple
import PikaLocal.WhenSome.Progress
import PikaLocal.Pool.Suspension
import PikaLocal.Logging.Message
import PikaLocal.Config.Strtoll
import PikaLocal.Config.Runtime
