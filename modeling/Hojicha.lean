import Hojicha.Elf.Launch
import Hojicha.Fs.FileTimes
import Hojicha.Fs.Getcwd
import Hojicha.Fs.Link
import Hojicha.Fs.Reference
import Hojicha.Fs.Seek
import Hojicha.Fs.Symlink
import Hojicha.Fs.UstarBounds
import Hojicha.Hmalloc.Realloc
import Hojicha.Hmalloc.Reuse
import Hojicha.Mp.Queues
import Hojicha.Mp.Reports
import Hojicha.Mp.Semaphores
import Hojicha.Mp.Sleep
import Hojicha.Pmm.HandOver
import Hojicha.Stdio.Expansion
import Hojicha.Stdlib.Itoa
import Hojicha.Userspace.Hbfi
import Hojicha.Utils.BitmapRuns
import Hojicha.Utils.Ringbuffer
import Hojicha.Vma.Search
import Hojicha.Vmm.CopySpace
import Hojicha.Vmm.FlatMap
import Hojicha.Vmm.Invalidation
import Hojicha.Vmm.KernelImage
