import SylarCot.Library.Execution
import SylarCot.Log.LogFormatter.Versions
import SylarCot.Log.LogFormatter.Compose
import SylarCot.Log.Delivery
import SylarCot.Log.LogMacro
import SylarCot.Sync.CountDownLatch.GivesBack
import SylarCot.Sync.CountDownLatch.OneReturn
import SylarCot.Sync.StartUp
import SylarCot.Sync.Completion
import SylarCot.Sync.Condition
import SylarCot.Config.ConfigVar
import SylarCot.Config.Notifications
import SylarCot.Config.LexicalCast.VectorCodec
import SylarCot.Config.LexicalCast.Strings
import SylarCot.Config.LexicalCast.Sequences
import SylarCot.Config.LexicalCast.Maps
import SylarCot.Config.LexicalCast.Documents
import SylarCot.Config.LexicalCast.Across
import SylarCot.Library.Words
import SylarCot.Library.Overlay
import SylarCot.Log.LogFormatter.SameOutput
import SylarCot.Log.LogFormatter.Errors
import SylarCot.Log.LogFormatter.Lossless
import SylarCot.Log.LogFormatter.Reinit
import SylarCot.Log.LogFormatter.Overloads
import SylarCot.Log.LogFormatter.Dates
import SylarCot.Log.LevelNames
import SylarCot.Log.FileLogAppender.Content
import SylarCot.Log.FileLogAppender.Recovery
import SylarCot.Log.FileLogAppender.Streams
import SylarCot.Log.FileDelivery
import SylarCot.Library.AtomicObject
import SylarCot.Config.Progress
import SylarCot.Config.Reentrant
import SylarCot.Library.Walk
import SylarCot.Log.SharedLogger
import SylarCot.Log.Iterators
