import ReadGoCode.Strings
import ReadGoCode.Zapcore.Level
import ReadGoCode.Zapcore.Core
import ReadGoCode.Zapcore.Check
import ReadGoCode.Zapcore.Derive
import ReadGoCode.Zapcore.IncreaseLevel
import ReadGoCode.Zapcore.Write
import ReadGoCode.Zapcore.Logger
import ReadGoCode.Zapcore.LevelOf
import ReadGoCode.Zapcore.Pool
import ReadGoCode.Zapcore.PoolReuse
import ReadGoCode.Zapcore.LazyWith
import ReadGoCode.Runtime.Slice
import ReadGoCode.Observer.Context
import ReadGoCode.Atomic.Value
import ReadGoCode.Multierr
import ReadGoCode.Zapcore.Aggregate
import ReadGoCode.Zap.Config
import ReadGoCode.Zapslog.Handler
import ReadGoCode.Ztest.Clock
import ReadGoCode.Io.Read
import ReadGoCode.Io.Copy
import ReadGoCode.Io.Section
import ReadGoCode.Stacktrace.Stack
import ReadGoCode.X86.ZeroRange
import ReadGoCode.Io.ReadAll
import ReadGoCode.Zap.Sink
import ReadGoCode.Stacktrace.Format
import ReadGoCode.Observer.Logs
import ReadGoCode.Breaker.Google
import ReadGoCode.Zap.Defaults
import ReadGoCode.Zapcore.EncodeError
import ReadGoCode.Zap.Encoders
import ReadGoCode.Zapcore.Caller
import ReadGoCode.Rest.Server
import ReadGoCode.Zapcore.Annotate
import ReadGoCode.Zapcore.Console
import ReadGoCode.Exit.Stub
import ReadGoCode.Zapcore.LevelText
