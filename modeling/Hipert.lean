import Hipert.Rtdot.Agree
import Hipert.Rtdot.History
import Hipert.Rtdot.Names
import Hipert.Rtdot.ReadBack
import Hipert.Rtdot.InStep
import Hipert.Lib.KeyValue
import Hipert.Lib.AsciiFields
import Hipert.Lib.Exec
import Hipert.Lib.JavaText
import Hipert.Sched.Synchronous
import Hipert.Amalthea.PerTask
import Hipert.Amalthea.LimitedPreemption
import Hipert.Amalthea.ResponseBound
import Hipert.Gen.StartGate
import Hipert.Gen.Counter
import Hipert.Runtime.Budget
import Hipert.Runtime.Stride
import Hipert.Amalthea.SharedLabels
import Hipert.Amalthea.EffectChain
import Hipert.Amalthea.LoadOrder
import Hipert.Amalthea.Communication
import Hipert.Rtdot.Layout
import Hipert.Gen.Template
import Hipert.Ptask.Stat
import Hipert.Ptask.Timespec
import Hipert.Gen.Timed
import Hipert.Ptask.Descriptors
