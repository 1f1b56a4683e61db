import Ntibux.Mem.Proofs.Calls
import Ntibux.Mem.Proofs.Ranges
import Ntibux.Mem.Proofs.Regions
import Ntibux.Mem.Proofs.Halves
import Ntibux.Mem.Proofs.Contents
import Ntibux.Sched.Proofs.Kill
import Ntibux.Sched.Proofs.Fair
import Ntibux.Sched.Proofs.Sleep
import Ntibux.Kernel.Proofs.Stacks
import Ntibux.Kernel.Proofs.Context
import Ntibux.Sched.Proofs.HeapLock
import Ntibux.Term.Proofs.Screen
import Ntibux.Term.Proofs.Keyboard
import Ntibux.Kernel.Proofs.RunList
import Ntibux.Kernel.Proofs.Reaches
import Ntibux.Kernel.Proofs.Shows
import Ntibux.Term.Printk
import Ntibux.Lib.Numeral
import Ntibux.Term.Proofs.Cursor
import Ntibux.Term.Proofs.Number
import Ntibux.Lib.LastSet
import Ntibux.Term.Format
import Ntibux.Term.Proofs.Scan
import Ntibux.Term.Proofs.Printk
import Ntibux.Term.Proofs.Colour
import Ntibux.Mem.Bitmap
import Ntibux.Lib.Bits
import Ntibux.Mem.Proofs.Bitmap
import Ntibux.Lib.Segments
import Ntibux.Mem.Proofs.Dump
import Ntibux.Term.Typing
import Ntibux.Term.Proofs.Line
import Ntibux.Shell.Basic
import Ntibux.Shell.Proofs.Split
import Ntibux.Shell.Proofs.Strings
import Ntibux.Shell.Proofs.Dispatch
import Ntibux.Lib.Traced
import Ntibux.Shell.Commands
import Ntibux.Shell.Proofs.Commands
import Ntibux.Shell.Proofs.Counts
import Ntibux.Kernel.Proofs.Lists
import Ntibux.Shell.Proofs.Compare
import Ntibux.Shell.Table
import Ntibux.Shell.Proofs.Names
import Ntibux.Mem.Proofs.Started
import Ntibux.Lib.Stack
import Ntibux.Kernel.Switch
import Ntibux.Kernel.Proofs.Switch
import Ntibux.Kernel.Reads
import Ntibux.Kernel.Proofs.Reads
import Ntibux.Term.Render
import Ntibux.Term.Proofs.Render
import Ntibux.Sched.Spinlock
import Ntibux.Sched.Proofs.Spinlock
import Ntibux.Lib.Records
import Ntibux.Kernel.Descriptors
import Ntibux.Kernel.Proofs.Descriptors
import Ntibux.Lib.Pic
import Ntibux.Kernel.Interrupts
import Ntibux.Kernel.Proofs.Interrupts
import Ntibux.Shell.Session
import Ntibux.Shell.Proofs.Session
import Ntibux.Kernel.Trace
import Ntibux.Kernel.Proofs.Trace
import Ntibux.Kernel.Dump
import Ntibux.Kernel.Proofs.Dump
import Ntibux.Kernel.Proofs.Client
