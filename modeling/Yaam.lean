import Yaam.Index.Unixepoch
import Yaam.Index.Scoped
import Yaam.Agent.Redact
import Yaam.Core.Attested
import Yaam.Core.Confined
import Yaam.Core.ForGood
import Yaam.Core.HeldBack
import Yaam.Core.Outranks
import Yaam.Core.WholeTree
import Yaam.Core.Interrupted
import Yaam.Core.FanoutBudget
import Yaam.Core.Logs
import Yaam.Core.ReadOnRecord
import Yaam.Core.Rebuilt
import Yaam.Crypto.Unseal
import Yaam.Core.Units
import Yaam.Core.Arming
import Yaam.Agent.Promises
import Yaam.Agent.Push
import Yaam.Core.Aged
import Yaam.Core.Redriven
import Yaam.Crypto.Recovery
import Yaam.Core.Layout
import Yaam.Core.Conforms
import Yaam.Core.Truthful
import Yaam.Core.Reissued
import Yaam.Knowledge.Counted
import Yaam.Md.RoundTrip
import Yaam.Md.Scan
import Yaam.Contract.Extract
import Yaam.Index.News
import Yaam.Core.Stated
import Yaam.Index.Frontmatter
import Yaam.Crypto.Shares
import Yaam.Crypto.Wrapper
import Yaam.Lib.Related
import Yaam.Lib.Copy
import Yaam.Core.Backup
import Yaam.Core.Restored
import Yaam.Agent.Delivered
import Yaam.Core.Preview
import Yaam.Server.Answers
