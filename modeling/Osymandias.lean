import Osymandias.BinPasses
import Osymandias.BinSafety
import Osymandias.BinService
import Osymandias.Boot
import Osymandias.Bump
import Osymandias.Context
import Osymandias.FunctionSelect
import Osymandias.Interrupts
import Osymandias.LangItems
import Osymandias.ListRefinement
import Osymandias.MemoryMap
import Osymandias.Mutex
import Osymandias.ProcessMemory
import Osymandias.Progress
import Osymandias.SchedulerSafety
import Osymandias.ShellListing
import Osymandias.ShellScreen
import Osymandias.Startup
import Osymandias.Transmit
import Osymandias.Traps
import Osymandias.UartFifo
import Osymandias.UartWait
