import ZephyrRust.Lib.Transition
import ZephyrRust.Lib.Sequential
import ZephyrRust.Lib.Count
import ZephyrRust.Lib.Lock
import ZephyrRust.Lib.Bits
import ZephyrRust.Lib.SortedMap
import ZephyrRust.Lib.Peg
import ZephyrRust.Lib.Fallible
import ZephyrRust.Lib.Regex
import ZephyrRust.Lib.Refinement
import ZephyrRust.Lib.LockOrder
import ZephyrRust.Lib.Linearizable
import ZephyrRust.Lib.Progress
import ZephyrRust.Lib.SplitBy
import ZephyrRust.Error
import ZephyrRust.Time
import ZephyrRust.Sys.Queue
import ZephyrRust.Sys.Mutex
import ZephyrRust.Sys.Semaphore
import ZephyrRust.WaitQueue
import ZephyrRust.Blocking
import ZephyrRust.Channel
import ZephyrRust.Channel.Unbounded
import ZephyrRust.Channel.Counter
import ZephyrRust.TimeDriver
import ZephyrRust.Mutex
import ZephyrRust.SpinMutex
import ZephyrRust.Work
import ZephyrRust.Executor
import ZephyrRust.Thread
import ZephyrRust.Gpio
import ZephyrRust.Printk
import ZephyrRust.Object
import ZephyrRust.I2cTarget
import ZephyrRust.I2c
import ZephyrRust.Timer
import ZephyrRust.SimpleTls
import ZephyrRust.Philosophers
import ZephyrRust.Philosophers.KernelSync
import ZephyrRust.Philosophers.AsyncSem
import ZephyrRust.Philosophers.CondSync
import ZephyrRust.Philosophers.ChannelSync
import ZephyrRust.Devicetree
import ZephyrRust.Devicetree.Grammar
import ZephyrRust.Devicetree.Parse
import ZephyrRust.Devicetree.Render
import ZephyrRust.Devicetree.Items
import ZephyrRust.Devicetree.Augment
import ZephyrRust.Devicetree.Output
import ZephyrRust.Kconfig
import ZephyrRust.Devicetree.OrdMap
import ZephyrRust.Proofs.Blocking.Moves
import ZephyrRust.Proofs.Blocking.Locked
import ZephyrRust.Proofs.Blocking.Situation
import ZephyrRust.Proofs.Blocking.Ownership
import ZephyrRust.Proofs.Blocking.Exclusive
import ZephyrRust.Proofs.Blocking.Once
import ZephyrRust.Proofs.Blocking.Waiters
import ZephyrRust.Proofs.Blocking.Completion
import ZephyrRust.Proofs.Blocking.Rest
import ZephyrRust.Proofs.Blocking.Progress
import ZephyrRust.Proofs.Channel
import ZephyrRust.Proofs.Channel.Unbounded
import ZephyrRust.Proofs.Channel.Fifo
import ZephyrRust.Proofs.Channel.Linearizable
import ZephyrRust.Proofs.Channel.Rest
import ZephyrRust.Proofs.Channel.Counter
import ZephyrRust.Proofs.Time
import ZephyrRust.Proofs.TimeDriver
import ZephyrRust.Proofs.TimeDriver.Retries
import ZephyrRust.Proofs.Mutex
import ZephyrRust.Proofs.Mutex.Attempt
import ZephyrRust.Proofs.SpinMutex
import ZephyrRust.Proofs.Work
import ZephyrRust.Proofs.Executor
import ZephyrRust.Proofs.Thread
import ZephyrRust.Proofs.Gpio
import ZephyrRust.Proofs.Gpio.Events
import ZephyrRust.Proofs.Printk
import ZephyrRust.Proofs.Object
import ZephyrRust.Proofs.I2cTarget
import ZephyrRust.Proofs.I2c
import ZephyrRust.Proofs.Timer
import ZephyrRust.Proofs.SimpleTls
import ZephyrRust.Proofs.Kconfig
import ZephyrRust.Proofs.Philosophers
import ZephyrRust.Proofs.Philosophers.KernelSync
import ZephyrRust.Proofs.Philosophers.AsyncSem
import ZephyrRust.Proofs.Philosophers.CondSync
import ZephyrRust.Proofs.Philosophers.ChannelSync
import ZephyrRust.Proofs.Devicetree.Tree
import ZephyrRust.Proofs.Devicetree.Build
import ZephyrRust.Proofs.Devicetree.Grammar
import ZephyrRust.Proofs.Devicetree.Links
import ZephyrRust.Proofs.Devicetree.Tokens
import ZephyrRust.Proofs.Devicetree.RoundTrip
import ZephyrRust.Proofs.Devicetree.OrdMap
import ZephyrRust.Proofs.Devicetree.Modules
import ZephyrRust.Proofs.Devicetree.Output
import ZephyrRust.Proofs.Devicetree.Accessors
import ZephyrRust.Proofs.Devicetree.Ancestors
import ZephyrRust.Proofs.Devicetree.Cells
import ZephyrRust.Proofs.Devicetree.Shape
import ZephyrRust.Proofs.Devicetree.Decoding
import ZephyrRust.Proofs.Devicetree.Accepted
import ZephyrRust.Proofs.Devicetree.Identifiers
