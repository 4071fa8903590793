import Autorun.Proofs.SwapPager
import Autorun.Proofs.SwapFile
import Autorun.Proofs.SwapLocks
import Autorun.Proofs.SwapIndex
import Autorun.Proofs.SectionViews
import Autorun.Proofs.SectionIo
import Autorun.Proofs.Swapping
import Autorun.Proofs.FileSharing
import Autorun.Proofs.Keyed
import Autorun.Proofs.MsgResults
import Autorun.Proofs.WinTimers
import Autorun.Proofs.SocketOrder
import Autorun.Proofs.SocketPoll
import Autorun.Proofs.PagePool
import Autorun.Proofs.Dynarec
import Autorun.Proofs.BackingHeap
import Autorun.Proofs.WindowOrder
import Autorun.Proofs.WindowTree
import Autorun.Proofs.Clipboard
import Autorun.Proofs.ConfigSave
import Autorun.Proofs.ConfigRoundTrip
import Autorun.Proofs.CatalogRoundTrip
import Autorun.Proofs.CatalogIds
import Autorun.Proofs.TextBounds
import Autorun.Proofs.SwapRecovery
import Autorun.Proofs.PipeStream
import Autorun.Proofs.SecondFree
import Autorun.Proofs.JsonValues
import Autorun.Proofs.AudioMix
import Autorun.Proofs.BootLoader
import Autorun.Proofs.DirMask
import Autorun.Proofs.DllFiles
import Autorun.Proofs.Reinstall
import Autorun.Proofs.Invalidate
import Autorun.Proofs.Quarantine
