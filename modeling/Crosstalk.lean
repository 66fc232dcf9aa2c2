import Crosstalk.BitBlt.Overlap
import Crosstalk.ObjectMemory.Rectify
import Crosstalk.ObjectMemory.Recursion
import Crosstalk.ObjectMemory.Become
import Crosstalk.ObjectMemory.CountDown
import Crosstalk.ObjectMemory.Allocator
import Crosstalk.Snapshot.BootModes
import Crosstalk.Snapshot.Report
import Crosstalk.Snapshot.Restored
import Crosstalk.Snapshot.Fidelity
import Crosstalk.Interpreter.Arithmetic
import Crosstalk.Interpreter.Blocks
import Crosstalk.Interpreter.ByteStores
import Crosstalk.Interpreter.Dictionaries
import Crosstalk.Interpreter.PrimitiveSnapshot
import Crosstalk.Interpreter.Returns
import Crosstalk.Interpreter.Semaphores
import Crosstalk.Interpreter.SchedulerRuns
import Crosstalk.Interpreter.IntegerPrimitives
import Crosstalk.Interpreter.Collection
import Crosstalk.Display.Damage
import Crosstalk.Interpreter.AsObject
import Crosstalk.Interpreter.Strings
import Crosstalk.Interpreter.PositiveIntegers
import Crosstalk.Display.Reports
import Crosstalk.Input.Timer
import Crosstalk.Input.Events
import Crosstalk.Input.Positions
import Crosstalk.Files.Handles
import Crosstalk.Files.Rename
import Crosstalk.Files.Completion
