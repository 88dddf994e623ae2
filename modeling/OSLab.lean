import OSLab.Base.Machine
import OSLab.Base.Bitmap
import OSLab.Base.CString
import OSLab.Kernel.Vfs
import OSLab.Done.System
import OSLab.Done.Accounting
import OSLab.Done.Aliases
import OSLab.Done.Capacity
import OSLab.Done.Attributes
import OSLab.Done.FailedWrite
import OSLab.Done.NameArray
import OSLab.Done.Names
import OSLab.Done.Refinement
import OSLab.Done.Truncate
import OSLab.Kernel.SysV
import OSLab.Mailbox.Completion
import OSLab.Mailbox.ExitLine
import OSLab.Mailbox.Startup
import OSLab.Optimize.Capacity
import OSLab.Optimize.FirstFit
import OSLab.Optimize.Isolation
import OSLab.Optimize.Metadata
import OSLab.Optimize.OneDirectory
import OSLab.Optimize.Reload
import OSLab.Templates.Listing
import OSLab.Templates.Clipping
import OSLab.Templates.Mounting
import OSLab.Templates.Readers
import OSLab.Templates.SameAnswers
import OSLab.Threads.Hello
import OSLab.Threads.LiveThreads
import OSLab.Threads.Matrix
import OSLab.Threads.MatrixFile
import OSLab.Threads.MatrixLock
import OSLab.Threads.ProcFile
import OSLab.Threads.PthreadSpin
import OSLab.Threads.RowThreads
import OSLab.Threads.ShortReads
import OSLab.Threads.SpinEnd
import OSLab.Threads.SpinLock
import OSLab.Shell.Command
import OSLab.Shell.SplitLine
import OSLab.Shell.Exec
import OSLab.Shell.Pipeline
import OSLab.Shell.PipeEnds
import OSLab.Shell.Composition
import OSLab.Shell.Ownership
import OSLab.Shell.Session
import OSLab.Shell.Loop
import OSLab.Shell.Reading
import OSLab.Shell.Arguments
import OSLab.Shell.BuiltIns
import OSLab.Shell.History
import OSLab.Shell.Lossless
import OSLab.Shell.Output
