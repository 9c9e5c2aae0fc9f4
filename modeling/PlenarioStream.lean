import PlenarioStream.Foundation.Transition
import PlenarioStream.Foundation.Json
import PlenarioStream.Foundation.JsonText
import PlenarioStream.Foundation.OrderedMap
import PlenarioStream.Foundation.Arrays
import PlenarioStream.Foundation.Lists
import PlenarioStream.Foundation.Object
import PlenarioStream.Foundation.Text
import PlenarioStream.Foundation.Url
import PlenarioStream.Server.Model
import PlenarioStream.Server.Accounting
import PlenarioStream.Server.Counts
import PlenarioStream.Server.Delivery
import PlenarioStream.Server.Validation
import PlenarioStream.Server.Spelling
import PlenarioStream.Server.ValidationUrl
import PlenarioStream.Consumer.Apiary
import PlenarioStream.Consumer.Checkpoint
import PlenarioStream.Consumer.Redshift
import PlenarioStream.Consumer.Refresh
import PlenarioStream.Consumer.Routing
import PlenarioStream.Summary.Materialize
import PlenarioStream.Summary.Rolling
import PlenarioStream.Summary.Retention
import PlenarioStream.Summary.WithTests
import PlenarioStream.Summary.Python
import PlenarioStream.Redis.Serial
import PlenarioStream.Redis.Interleaved
import PlenarioStream.Redis.Store
import PlenarioStream.Kcl.Protocol
import PlenarioStream.Consumer.Coverage
import PlenarioStream.Consumer.Silence
import PlenarioStream.Consumer.Encoding
import PlenarioStream.Consumer.GroupBy
import PlenarioStream.Consumer.Connections
import PlenarioStream.Kcl.Stdout
import PlenarioStream.Kcl.Wire
import PlenarioStream.Kcl.Carried
import PlenarioStream.Kcl.Restart
import PlenarioStream.ClickStream.Progress
import PlenarioStream.ClickStream.Checkpoints
import PlenarioStream.BasicSample.Messages
import PlenarioStream.Pipeline.EndToEnd
