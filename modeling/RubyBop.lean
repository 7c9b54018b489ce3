import RubyBop.Monitor.Conflict
import RubyBop.Monitor.LastWriter
import RubyBop.Monitor.Forget
import RubyBop.Monitor.Ordered
import RubyBop.Variable.Global
import RubyBop.Variable.IvarMonitor
import RubyBop.Gc.Counters
import RubyBop.Gc.Registry
import RubyBop.Gc.FreePages
import RubyBop.Gc.Start
import RubyBop.Gc.Bitmap
import RubyBop.Array.Runs
import RubyBop.Array.Bounds
import RubyBop.Range.Bsearch
import RubyBop.String.Delete
import RubyBop.Bignum.IntegerPack
import RubyBop.Bignum.PackAgree
import RubyBop.Bignum.Power
import RubyBop.Time.Offset
import RubyBop.Rational.Arith
import RubyBop.Rational.Rationalize
import RubyBop.Thread.Queue
import RubyBop.Symbol.Runs
import RubyBop.Class.Refuse
import RubyBop.Load.Require
import RubyBop.Io.Write
import RubyBop.Vm.Keywords
